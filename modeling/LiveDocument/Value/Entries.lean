/-!
# Ordered entries

Association lists in which a new key comes last and a present key keeps its place.

* `get?_put_self`, `get?_put_of_ne`: reading after writing.
* `put_put`, `put_get?`, `put_comm`, `erase_put`: writing and removing after writing.
* `exists_get?_of_mem_keys`: every key has a value. `mem_of_get?`, `get?_of_mem`: entries by their
  keys.
* `put_of_notMem`, `put_eq`, `erase_eq_filter`: what storing a key and removing a key come to.
* `nodup_keys_put`, `nodup_keys_erase`, `nodup_keys_ofList`: distinct keys stay distinct.
* `ofList_eq_self`: entries with distinct keys are stored as they are.
-/

namespace LiveDocument.Entries

variable {α : Type}

def get? (key : String) : List (String × α) → Option α
  | [] => none
  | (k, v) :: rest => if k = key then some v else get? key rest

/-- Stores `value` under `key`: in place if the key is present, else at the end. -/
def put (key : String) (value : α) : List (String × α) → List (String × α)
  | [] => [(key, value)]
  | (k, v) :: rest => if k = key then (k, value) :: rest else (k, v) :: put key value rest

def erase (key : String) : List (String × α) → List (String × α)
  | [] => []
  | (k, v) :: rest => if k = key then rest else (k, v) :: erase key rest

def keys (entries : List (String × α)) : List String :=
  entries.map Prod.fst

/-- Stores the entries one after the other, so that a repeated key keeps its first place and
its last value. -/
def ofList (entries : List (String × α)) : List (String × α) :=
  entries.foldl (fun known entry => put entry.1 entry.2 known) []

theorem get?_put_self (key : String) (value : α) (entries : List (String × α)) :
    get? key (put key value entries) = some value := by
  induction entries with
  | nil => simp [put, get?]
  | cons e rest ih =>
    obtain ⟨k, v⟩ := e
    by_cases h : k = key
    · simp [put, get?, h]
    · simp [put, get?, h, ih]

theorem get?_put_of_ne {key other : String} (h : key ≠ other) (value : α)
    (entries : List (String × α)) :
    get? other (put key value entries) = get? other entries := by
  induction entries with
  | nil => simp [put, get?, h]
  | cons e rest ih =>
    obtain ⟨k, v⟩ := e
    by_cases hk : k = key
    · subst hk
      simp [put, get?, h]
    · simp [put, get?, hk, ih]

theorem put_put (key : String) (value other : α) (entries : List (String × α)) :
    put key other (put key value entries) = put key other entries := by
  induction entries with
  | nil => simp [put]
  | cons e rest ih =>
    obtain ⟨k, v⟩ := e
    by_cases hk : k = key
    · simp [put, hk]
    · simp [put, hk, ih]

/-- Storing what is there changes nothing. -/
theorem put_get? {key : String} {value : α} {entries : List (String × α)}
    (h : get? key entries = some value) : put key value entries = entries := by
  induction entries with
  | nil => cases h
  | cons e rest ih =>
    obtain ⟨k, v⟩ := e
    unfold get? at h
    unfold put
    by_cases hk : k = key
    · rw [if_pos hk] at h ⊢
      rw [Option.some.inj h]
    · rw [if_neg hk] at h ⊢
      rw [ih h]

/-- Keys that are present can be stored in either order. -/
theorem put_comm {key other : String} (hne : key ≠ other) {entries : List (String × α)}
    (hkey : key ∈ keys entries) (hother : other ∈ keys entries) (value second : α) :
    put key value (put other second entries) = put other second (put key value entries) := by
  induction entries with
  | nil => cases hkey
  | cons e rest ih =>
    obtain ⟨k, v⟩ := e
    by_cases hk : k = key
    · subst hk
      simp [put, hne]
    · by_cases ho : k = other
      · subst ho
        simp [put, hk]
      · have hkey' : key ∈ keys rest := (List.mem_cons.mp hkey).resolve_left (Ne.symm hk)
        have hother' : other ∈ keys rest := (List.mem_cons.mp hother).resolve_left (Ne.symm ho)
        simp [put, hk, ho, ih hkey' hother']

/-- Removing a key that was new gives the entries back. -/
theorem erase_put {key : String} {entries : List (String × α)} (h : key ∉ keys entries)
    (value : α) : erase key (put key value entries) = entries := by
  induction entries with
  | nil => simp [put, erase]
  | cons e rest ih =>
    obtain ⟨hne, hrest⟩ := not_or.mp (mt List.mem_cons.mpr h)
    obtain ⟨k, v⟩ := e
    have hk : ¬ k = key := fun he => hne he.symm
    rw [put, if_neg hk, erase, if_neg hk, ih hrest]

theorem exists_get?_of_mem_keys {key : String} {entries : List (String × α)}
    (h : key ∈ keys entries) : ∃ value, get? key entries = some value := by
  induction entries with
  | nil => cases h
  | cons e rest ih =>
    obtain ⟨k, v⟩ := e
    by_cases hk : k = key
    · exact ⟨v, by simp [get?, hk]⟩
    · obtain ⟨w, hw⟩ := ih ((List.mem_cons.mp h).resolve_left (Ne.symm hk))
      exact ⟨w, by simp [get?, hk, hw]⟩

/-! ## Entries as lists -/

section

variable {key : String} {value : α} {entries : List (String × α)}

theorem mem_of_get? (h : get? key entries = some value) : (key, value) ∈ entries := by
  induction entries with
  | nil => cases h
  | cons e rest ih =>
    obtain ⟨k, v⟩ := e
    unfold get? at h
    split at h
    · rename_i hk
      cases h
      rw [hk]
      exact List.mem_cons_self
    · exact List.mem_cons_of_mem _ (ih h)

theorem mem_put {e : String × α} (h : e ∈ put key value entries) :
    e = (key, value) ∨ e ∈ entries := by
  induction entries with
  | nil => exact Or.inl (List.mem_singleton.mp h)
  | cons first rest ih =>
    obtain ⟨k, v⟩ := first
    unfold put at h
    split at h
    · rename_i hk
      rcases List.mem_cons.mp h with rfl | h
      · exact Or.inl (by rw [hk])
      · exact Or.inr (List.mem_cons_of_mem _ h)
    · rcases List.mem_cons.mp h with rfl | h
      · exact Or.inr List.mem_cons_self
      · exact (ih h).imp_right (List.mem_cons_of_mem _)

theorem erase_sublist (key : String) (entries : List (String × α)) :
    (erase key entries).Sublist entries := by
  induction entries with
  | nil => exact List.Sublist.refl _
  | cons e rest ih =>
    obtain ⟨k, v⟩ := e
    unfold erase
    split
    · exact List.sublist_cons_self _ _
    · exact ih.cons_cons _

/-- A key that is stored keeps its place or comes last. -/
theorem keys_put (key : String) (value : α) (entries : List (String × α)) :
    keys (put key value entries) =
      if key ∈ keys entries then keys entries else keys entries ++ [key] := by
  induction entries with
  | nil => rfl
  | cons e rest ih =>
    obtain ⟨k, v⟩ := e
    by_cases hk : k = key
    · subst hk
      simp [put, keys]
    · have hkey : ¬ key = k := fun h => hk h.symm
      have hput : put key value ((k, v) :: rest) = (k, v) :: put key value rest := if_neg hk
      have hcons : ∀ tail : List (String × α), keys ((k, v) :: tail) = k :: keys tail :=
        fun _ => rfl
      rw [hput, hcons, hcons, ih]
      by_cases hm : key ∈ keys rest <;> simp [hm, hkey]

/-- A new key comes last. -/
theorem put_of_notMem (hkey : key ∉ keys entries) (value : α) :
    put key value entries = entries ++ [(key, value)] := by
  induction entries with
  | nil => rfl
  | cons e rest ih =>
    obtain ⟨hne, hrest⟩ := not_or.mp (mt List.mem_cons.mpr hkey)
    obtain ⟨k, v⟩ := e
    rw [put, if_neg fun hk => hne hk.symm, ih hrest]
    rfl

theorem notMem_keys_of_get? (h : get? key entries = none) : key ∉ keys entries := by
  intro hmem
  obtain ⟨value, hvalue⟩ := exists_get?_of_mem_keys hmem
  rw [h] at hvalue
  cases hvalue

/-- With distinct keys, a key that is stored gets its value in place, or comes last. -/
theorem put_eq (h : (keys entries).Nodup) (key : String) (value : α) :
    put key value entries =
      if key ∈ keys entries then entries.map fun e => if e.1 = key then (key, value) else e
      else entries ++ [(key, value)] := by
  split
  · rename_i hmem
    induction entries with
    | nil => cases hmem
    | cons e rest ih =>
      obtain ⟨k, v⟩ := e
      obtain ⟨hfirst, hrest⟩ := List.nodup_cons.mp h
      by_cases hk : k = key
      · subst hk
        have hothers : rest.map (fun e => if e.1 = k then (k, value) else e) = rest.map id :=
          List.map_congr_left fun e he =>
            if_neg fun hek => hfirst (List.mem_map.mpr ⟨e, he, hek⟩)
        rw [put, if_pos rfl, List.map_cons, if_pos rfl, hothers, List.map_id]
      · have hmem' : key ∈ keys rest := (List.mem_cons.mp hmem).resolve_left (Ne.symm hk)
        rw [put, if_neg hk, List.map_cons, if_neg hk, ih hrest hmem']
  · rename_i hnew
    exact put_of_notMem hnew value

theorem nodup_keys_put (h : (keys entries).Nodup) (key : String) (value : α) :
    (keys (put key value entries)).Nodup := by
  rw [keys_put]
  split
  · exact h
  · rename_i hnew
    refine List.nodup_append.mpr ⟨h, List.pairwise_singleton _ key, ?_⟩
    rintro a ha b hb rfl
    exact hnew (List.mem_singleton.mp hb ▸ ha)

theorem nodup_keys_erase (h : (keys entries).Nodup) (key : String) :
    (keys (erase key entries)).Nodup :=
  h.sublist ((erase_sublist key entries).map Prod.fst)

/-- With distinct keys, a key that is removed is gone, and all other entries stay in order. -/
theorem erase_eq_filter (h : (keys entries).Nodup) (key : String) :
    erase key entries = entries.filter fun e => decide (e.1 ≠ key) := by
  induction entries with
  | nil => rfl
  | cons e rest ih =>
    obtain ⟨k, v⟩ := e
    obtain ⟨hfirst, hrest⟩ := List.nodup_cons.mp h
    unfold erase
    split
    · rename_i hk
      obtain rfl : k = key := hk
      have hall : ∀ e ∈ rest, decide (e.1 ≠ k) = true := by
        intro e he
        exact decide_eq_true fun hek => hfirst (List.mem_map.mpr ⟨e, he, hek⟩)
      rw [List.filter_cons_of_neg (by simp), List.filter_eq_self.mpr hall]
    · rename_i hk
      rw [List.filter_cons_of_pos (by simpa using hk), ih hrest]

/-- With distinct keys, every entry is found by its key. -/
theorem get?_of_mem (hkeys : (keys entries).Nodup) (h : (key, value) ∈ entries) :
    get? key entries = some value := by
  induction entries with
  | nil => cases h
  | cons e rest ih =>
    obtain ⟨k, v⟩ := e
    obtain ⟨hfirst, hrest⟩ := List.nodup_cons.mp hkeys
    rcases List.mem_cons.mp h with he | hm
    · cases he
      exact if_pos rfl
    · have hne : ¬ k = key := by
        rintro rfl
        exact hfirst (List.mem_map.mpr ⟨_, hm, rfl⟩)
      rw [get?, if_neg hne]
      exact ih hrest hm

end

/-! ## Entries stored one after the other -/

/-- Entries with distinct keys are stored as they are. -/
theorem ofList_eq_self {entries : List (String × α)} (h : (keys entries).Nodup) :
    ofList entries = entries := by
  have hall : ∀ known : List (String × α), (keys (known ++ entries)).Nodup →
      entries.foldl (fun known entry => put entry.1 entry.2 known) known = known ++ entries := by
    clear h
    induction entries with
    | nil => exact fun known _ => (List.append_nil known).symm
    | cons e rest ih =>
      intro known hnodup
      have hnew : e.1 ∉ keys known := by
        intro hmem
        rw [keys, List.map_append, List.nodup_append] at hnodup
        exact hnodup.2.2 e.1 hmem e.1 List.mem_cons_self rfl
      have hstep : known ++ e :: rest = (known ++ [e]) ++ rest := by simp
      rw [List.foldl_cons, put_of_notMem hnew e.2, hstep]
      exact ih (known ++ [e]) (by rwa [← hstep])
  exact hall [] h

/-- However often keys are stored, they are distinct. -/
theorem nodup_keys_ofList (entries : List (String × α)) : (keys (ofList entries)).Nodup := by
  have hall : ∀ known : List (String × α), (keys known).Nodup →
      (keys (entries.foldl (fun known entry => put entry.1 entry.2 known) known)).Nodup := by
    induction entries with
    | nil => exact fun _ h => h
    | cons e rest ih => exact fun known h => ih _ (nodup_keys_put h e.1 e.2)
  exact hall [] List.nodup_nil

/-- What is stored comes from the list. -/
theorem mem_of_mem_ofList {entries : List (String × α)} {e : String × α}
    (h : e ∈ ofList entries) : e ∈ entries := by
  have hall : ∀ known : List (String × α),
      e ∈ entries.foldl (fun known entry => put entry.1 entry.2 known) known →
        e ∈ known ∨ e ∈ entries := by
    clear h
    induction entries with
    | nil => exact fun known h => Or.inl h
    | cons first rest ih =>
      intro known h
      rcases ih _ h with hold | hnew
      · rcases mem_put hold with rfl | hknown
        · exact Or.inr List.mem_cons_self
        · exact Or.inl hknown
      · exact Or.inr (List.mem_cons_of_mem _ hnew)
  exact (hall [] h).resolve_left List.not_mem_nil

end LiveDocument.Entries
