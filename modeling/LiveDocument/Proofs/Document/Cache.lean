import LiveDocument.Proofs.Document.Course

/-!
# Lookups through the cache

A lookup never ends the validity of a handle that somebody holds. As long as a handle that was
issued for the cache is held and valid, it is what its canonical text finds, so whoever asks for
that text through the cache gets this handle, whether the value still has the place or not.

* `Caches`: a valid handle that is held and was issued for the cache.
* `Caches.eq_of_text`: such handles are told apart by their canonical texts.
* `houses_resolve`: lookups spare what is held.
* `getElem?_resolve`: asking for the canonical text of such a handle gives it.
* `exists_caches_list`: the number of cached keys is the number of such handles.
-/

namespace LiveDocument

namespace Document

/-- The handle is valid, held, and was issued for the cache. -/
structure Caches (d : Document) (h : Handle) : Prop where
  held : d.arena.isHeld h.ticket.serial = true
  tenant : ∃ t, d.arena.Houses t ∧ t.ticket = h.ticket ∧ t.path = h.path ∧ t.key.isSome = true

/-- The canonical texts that an address asks for, in the order of the answer. -/
def asked (d : Document) (a : Address) (context : Path) : List String :=
  if a.endsWithSlice then
    ((d.value.locate? a context).getD []).map fun t => t.path.text a.delimiter
  else [a.canonical context]

/-! ## Handles in the cache -/

theorem Has.caches {d : Document} (hd : d.Sound) {h : Handle} (hh : d.Has h)
    (hvalid : d.isValid h = true)
    (hkey : ∀ {t : Tenant Digest}, d.arena.Houses t → t.ticket = h.ticket → t.key.isSome = true) :
    d.Caches h where
  held := List.contains_iff_mem.mpr hh.held
  tenant := by
    obtain ⟨t, ht, he⟩ := (hh.isValid_iff hd).mp hvalid
    exact ⟨t, ht, he, hh.path ht he, hkey ht he⟩

theorem Caches.cached?_eq {d : Document} (hd : d.Sound) {h : Handle} (hh : d.Caches h) :
    d.cached? (keyOf h.path d.delimiter) = some h := by
  obtain ⟨t, ht, he, hp, hkey⟩ := hh.tenant
  obtain ⟨k, hk⟩ := Option.isSome_iff_exists.mp hkey
  have hheld := hh.held
  rw [← he] at hheld
  have hfound := Arena.lookup?_of_held hd.arena.toTenancy hd.indexed ht hk hheld
  rw [hd.key ht hk, hp] at hfound
  rw [cached?, hfound, Option.map_some, he, hp]

/-- No two handles in the cache have the same canonical text. -/
theorem Caches.eq_of_text {d : Document} (hd : d.Sound) {h k : Handle} (hh : d.Caches h)
    (hk : d.Caches k) (he : h.path.text d.delimiter = k.path.text d.delimiter) : h = k := by
  have hfound := hh.cached?_eq hd
  rw [keyOf, he, ← keyOf, hk.cached?_eq hd] at hfound
  exact (Option.some.inj hfound).symm

/-! ## Lookups leave the value and the settings as they are -/

@[simp] theorem value_obtain (d : Document) (path : Path) (kind : Kind) (useCache : Bool) :
    (d.obtain path kind useCache).2.value = d.value := by
  unfold obtain
  split <;> rfl

@[simp] theorem value_obtainAll (d : Document) (useCache : Bool) (targets : List Target) :
    (d.obtainAll useCache targets).2.value = d.value := by
  induction targets generalizing d with
  | nil => rfl
  | cons t rest ih => exact (ih _).trans (value_obtain d t.path t.kind useCache)

@[simp] theorem value_resolve (d : Document) (a : Address) (context : Path) (useCache : Bool) :
    (d.resolve a context useCache).2.value = d.value := by
  unfold resolve
  dsimp only
  split
  · rfl
  · split
    · exact value_obtainAll d useCache _
    · rfl

@[simp] theorem settings_obtain (d : Document) (path : Path) (kind : Kind) (useCache : Bool) :
    (d.obtain path kind useCache).2.settings = d.settings := by
  unfold obtain
  split <;> rfl

@[simp] theorem settings_obtainAll (d : Document) (useCache : Bool) (targets : List Target) :
    (d.obtainAll useCache targets).2.settings = d.settings := by
  induction targets generalizing d with
  | nil => rfl
  | cons t rest ih => exact (ih _).trans (settings_obtain d t.path t.kind useCache)

@[simp] theorem settings_resolve (d : Document) (a : Address) (context : Path) (useCache : Bool) :
    (d.resolve a context useCache).2.settings = d.settings := by
  unfold resolve
  dsimp only
  split
  · rfl
  · split
    · exact settings_obtainAll d useCache _
    · rfl

/-! ## Lookups spare what is held -/

section

variable {d : Document} {t : Tenant Digest}

theorem houses_obtain (hd : d.Sound) (path : Path) (kind : Kind) (useCache : Bool)
    (ht : d.arena.Houses t) (hheld : d.arena.isHeld t.ticket.serial = true) :
    (d.obtain path kind useCache).2.arena.Houses t := by
  unfold obtain
  split
  · exact ht
  · exact Arena.houses_issue_of_taken path kind _ useCache hd.arena
      ((Arena.allocate_spec hd.arena).2.spared ht hheld)

theorem isHeld_of_follows {useCache : Bool} {d' : Document} (hf : Follows useCache d d') {k : Nat}
    (h : d.arena.isHeld k = true) : d'.arena.isHeld k = true :=
  List.contains_iff_mem.mpr (hf.held (List.contains_iff_mem.mp h))

theorem houses_obtainAll (hd : d.Sound) (useCache : Bool) (targets : List Target)
    (ht : d.arena.Houses t) (hheld : d.arena.isHeld t.ticket.serial = true) :
    (d.obtainAll useCache targets).2.arena.Houses t := by
  induction targets generalizing d with
  | nil => exact ht
  | cons target rest ih =>
    have hf := (follows_obtain hd target.path target.kind useCache).1
    exact ih hf.sound (houses_obtain hd _ _ useCache ht hheld) (isHeld_of_follows hf hheld)

/-- A lookup ends the validity of no handle that is held. -/
theorem houses_resolve (hd : d.Sound) (a : Address) (context : Path) (useCache : Bool)
    (ht : d.arena.Houses t) (hheld : d.arena.isHeld t.ticket.serial = true) :
    (d.resolve a context useCache).2.arena.Houses t := by
  unfold resolve
  dsimp only
  split
  · exact ht
  · split
    · exact houses_obtainAll hd useCache _ ht hheld
    · exact ht

/-- A handle that somebody has stays valid through a lookup. -/
theorem Has.isValid_resolve (hd : d.Sound) {h : Handle} (hh : d.Has h) (hvalid : d.isValid h = true)
    (a : Address) (context : Path) (useCache : Bool) :
    (d.resolve a context useCache).2.isValid h = true := by
  have hf := (follows_resolve hd a context useCache).1
  obtain ⟨t, ht, he⟩ := (hh.isValid_iff hd).mp hvalid
  refine ((hh.of_follows hf).isValid_iff hf.sound).mpr ⟨t, ?_, he⟩
  exact houses_resolve hd a context useCache ht (he ▸ List.contains_iff_mem.mpr hh.held)

theorem Caches.obtain {h : Handle} (hd : d.Sound) (hh : d.Caches h) (path : Path) (kind : Kind)
    (useCache : Bool) : (d.obtain path kind useCache).2.Caches h where
  held := isHeld_of_follows (follows_obtain hd path kind useCache).1 hh.held
  tenant := by
    obtain ⟨t, ht, he, hp, hkey⟩ := hh.tenant
    exact ⟨t, houses_obtain hd path kind useCache ht (he ▸ hh.held), he, hp, hkey⟩

theorem Caches.resolve {h : Handle} (hd : d.Sound) (hh : d.Caches h) (a : Address)
    (context : Path) (useCache : Bool) : (d.resolve a context useCache).2.Caches h where
  held := isHeld_of_follows (follows_resolve hd a context useCache).1 hh.held
  tenant := by
    obtain ⟨t, ht, he, hp, hkey⟩ := hh.tenant
    exact ⟨t, houses_resolve hd a context useCache ht (he ▸ hh.held), he, hp, hkey⟩

end

/-! ## Asking for a canonical text -/

section

variable {d : Document} {h : Handle}

theorem obtain_of_caches (hd : d.Sound) (hh : d.Caches h) {path : Path} (kind : Kind)
    (he : path.text d.delimiter = h.path.text d.delimiter) :
    d.obtain path kind true = (h, d) := by
  have hfound := hh.cached?_eq hd
  unfold Document.obtain
  rw [if_pos rfl, keyOf, he, ← keyOf, hfound]

theorem getElem?_obtainAll (hd : d.Sound) (hh : d.Caches h) {targets : List Target} {i : Nat}
    (hi : (targets.map fun t => t.path.text d.delimiter)[i]? = some (h.path.text d.delimiter)) :
    (d.obtainAll true targets).1[i]? = some h := by
  induction targets generalizing d i with
  | nil => cases hi
  | cons target rest ih =>
    cases i with
    | zero =>
      have he := Option.some.inj hi
      show some (d.obtain target.path target.kind true).1 = some h
      rw [obtain_of_caches hd hh target.kind he]
    | succ i =>
      have hf := (follows_obtain hd target.path target.kind true).1
      refine ih hf.sound (hh.obtain hd target.path target.kind true) ?_
      rw [hf.delimiter]
      exact hi

/-- Asking for the canonical text of a handle in the cache gives this handle. -/
theorem getElem?_resolve (hd : d.Sound) (hh : d.Caches h) {a : Address}
    (ha : a.delimiter = d.delimiter) {context : Path} {i : Nat}
    (hi : (d.asked a context)[i]? = some (h.path.text d.delimiter)) :
    (d.resolve a context true).1[i]? = some h := by
  unfold asked at hi
  unfold Document.resolve
  cases hs : a.endsWithSlice with
  | false =>
    rw [hs] at hi
    cases i with
    | succ i => cases hi
    | zero =>
      have he : a.canonical context = h.path.text d.delimiter := Option.some.inj hi
      rw [Address.canonical, ha] at he
      have hfound := hh.cached?_eq hd
      rw [keyOf, ← he, ← keyOf, ← ha] at hfound
      simp [hfound]
  | true =>
    rw [hs, if_pos rfl] at hi
    simp only [Bool.not_true, Bool.and_false, Bool.false_eq_true, if_false]
    cases hl : d.value.locate? a context with
    | none =>
      rw [hl] at hi
      cases hi
    | some targets =>
      rw [hl, Option.getD_some, ha] at hi
      exact getElem?_obtainAll hd hh hi

end

/-! ## Counting -/

/-- What an entry of the index leads to, if it is held. -/
def heldHandle? (d : Document) (entry : Digest × Nat) : Option Handle :=
  ((d.arena.tenant? entry.2).filter fun t => d.arena.isHeld t.ticket.serial).map
    fun t => ⟨t.ticket, t.path⟩

theorem heldHandle?_eq_some {d : Document} {entry : Digest × Nat} {h : Handle} :
    d.heldHandle? entry = some h ↔ ∃ t, d.arena.tenant? entry.2 = some t ∧
      d.arena.isHeld t.ticket.serial = true ∧ h = ⟨t.ticket, t.path⟩ := by
  unfold heldHandle?
  constructor
  · intro he
    obtain ⟨t, ht, rfl⟩ := Option.map_eq_some_iff.mp he
    obtain ⟨ht, hheld⟩ := Option.filter_eq_some_iff.mp ht
    exact ⟨t, ht, hheld, rfl⟩
  · rintro ⟨t, ht, hheld, rfl⟩
    rw [ht, Option.filter_some, if_pos hheld, Option.map_some]

/-- The number of cached keys is the number of handles in the cache. -/
theorem exists_caches_list {d : Document} (hd : d.Sound) :
    ∃ hs : List Handle, hs.Nodup ∧ (∀ h, h ∈ hs ↔ d.Caches h) ∧ d.cachedCount = hs.length := by
  have hA := hd.arena.toTenancy
  have hindex : ∀ {e : Digest × Nat}, e ∈ d.arena.index →
      ∃ t, d.arena.tenant? e.2 = some t ∧ t.key = some e.1 := fun he => hA.index_sound he
  refine ⟨d.arena.index.filterMap d.heldHandle?, ?_, fun h => ?_, ?_⟩
  · have hkeys : d.arena.index.Pairwise fun e f => e.1 ≠ f.1 :=
      List.pairwise_map.mp hd.arena.index_nodup
    refine List.Pairwise.filterMap d.heldHandle? (fun e f hef h he k hk hhk => ?_)
      (hkeys.imp_of_mem fun he hf hne => And.intro he (And.intro hf hne))
    obtain ⟨hmem, hmem', hne⟩ := hef
    obtain ⟨t, ht, -, rfl⟩ := heldHandle?_eq_some.mp he
    obtain ⟨u, hu, -, rfl⟩ := heldHandle?_eq_some.mp hk
    -- Handles of one slot have one key.
    have hslot : e.2 = f.2 := by
      rw [← hA.slot_eq ht, ← hA.slot_eq hu, (Handle.mk.inj hhk).1]
    obtain ⟨t', ht', hkt⟩ := hindex hmem
    obtain ⟨u', hu', hku⟩ := hindex hmem'
    rw [hslot, hu'] at ht'
    cases ht'
    rw [hkt] at hku
    exact hne (Option.some.inj hku)
  · rw [List.mem_filterMap]
    constructor
    · rintro ⟨e, he, hh⟩
      obtain ⟨t, ht, hheld, rfl⟩ := heldHandle?_eq_some.mp hh
      obtain ⟨t', ht', hkey⟩ := hindex he
      rw [ht] at ht'
      cases ht'
      exact ⟨hheld, t, ⟨_, ht⟩, rfl, rfl, by rw [hkey]; rfl⟩
    · intro hh
      obtain ⟨t, ht, he, hp, hkey⟩ := hh.tenant
      obtain ⟨k, hk⟩ := Option.isSome_iff_exists.mp hkey
      have hheld := hh.held
      rw [← he] at hheld
      refine ⟨(k, t.ticket.slot), hd.indexed ht hk hheld, ?_⟩
      exact heldHandle?_eq_some.mpr
        ⟨t, hA.tenant?_of_houses ht, hheld, by rw [he, hp]⟩
  · rw [List.length_filterMap_eq_countP]
    refine List.countP_congr fun e _ => ?_
    unfold heldHandle?
    cases d.arena.tenant? e.2 with
    | none => exact Iff.rfl
    | some t => cases h : d.arena.isHeld t.ticket.serial <;> simp [h]

end Document

end LiveDocument
