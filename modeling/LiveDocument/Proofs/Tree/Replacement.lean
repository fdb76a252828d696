import LiveDocument.Proofs.Tree.Location
import LiveDocument.Proofs.Tree.Throughout

/-!
# Replacing values at locations

What an edit leaves of a value, told all at once: the same value, with another one at the locations
that satisfy a condition. The keys of every mapping and their order, the length of every sequence
and everything at other locations are as they were. A write at a path that leads to a value is the
replacement of that value, and writes one after the other are one replacement at all their places.

* `replaceWhere`: replacement at the locations that satisfy a condition.
* `replaceWhere_nowhere`, `replaceWhere_replaceWhere`: no replacement, and one after another.
* `putSpot_replaceWhere`: replacement within the value at one spot.
* `eq_replaceWhere_of_write?`: what a write does. `exists_add_of_write?`: a write to a new key.
* `atLocation?_replaceWhere`: what is at a location afterwards.
-/

namespace LiveDocument.Value

mutual

/-- The value with `new` at every location that satisfies the condition. -/
def replaceWhere : Value → (hit : List Spot → Bool) → (new : Value) → Value
  | .sequence items, hit, new => if hit [] then new else .sequence (replaceItems items hit new 0)
  | .mapping entries, hit, new => if hit [] then new else .mapping (replaceEntries entries hit new)
  | v, hit, new => if hit [] then new else v

/-- The items from a place on with `new` at every location below them that satisfies the
condition. -/
def replaceItems : List Value → (hit : List Spot → Bool) → (new : Value) → Nat → List Value
  | [], _, _, _ => []
  | item :: items, hit, new, p =>
    item.replaceWhere (fun loc => hit (.place p :: loc)) new :: replaceItems items hit new (p + 1)

/-- The entries with `new` at every location below them that satisfies the condition. -/
def replaceEntries : List (String × Value) → (hit : List Spot → Bool) → (new : Value) →
    List (String × Value)
  | [], _, _ => []
  | (key, value) :: entries, hit, new =>
    (key, value.replaceWhere (fun loc => hit (.key key :: loc)) new) ::
      replaceEntries entries hit new

end

example : (sequence [.boolean true, .boolean false]).replaceWhere
    (fun loc => decide (loc = [.place 1])) .null = .sequence [.boolean true, .null] := by rfl

theorem replaceWhere_self {hit : List Spot → Bool} (h : hit [] = true) (v new : Value) :
    v.replaceWhere hit new = new := by
  cases v <;> simp [replaceWhere, h]

/-! ## No replacement, and one after another -/

mutual

/-- Where there is nothing to replace, everything stays. -/
theorem replaceWhere_nowhere : ∀ (v : Value) {hit : List Spot → Bool}
    (_ : ∀ loc, hit loc = false) (new : Value), v.replaceWhere hit new = v
  | .sequence items, hit, h, new => by
    rw [replaceWhere, h, if_neg Bool.false_ne_true, replaceItems_nowhere items h]
  | .mapping entries, hit, h, new => by
    rw [replaceWhere, h, if_neg Bool.false_ne_true, replaceEntries_nowhere entries h]
  | .null, hit, h, new => if_neg (by rw [h]; exact Bool.false_ne_true)
  | .boolean _, hit, h, new => if_neg (by rw [h]; exact Bool.false_ne_true)
  | .integer _, hit, h, new => if_neg (by rw [h]; exact Bool.false_ne_true)
  | .float _, hit, h, new => if_neg (by rw [h]; exact Bool.false_ne_true)
  | .string _, hit, h, new => if_neg (by rw [h]; exact Bool.false_ne_true)

theorem replaceItems_nowhere : ∀ (items : List Value) {hit : List Spot → Bool}
    (_ : ∀ loc, hit loc = false) (new : Value) (p : Nat), replaceItems items hit new p = items
  | [], _, _, _, _ => rfl
  | item :: items, hit, h, new, p => by
    rw [replaceItems, replaceWhere_nowhere item (fun _ => h _), replaceItems_nowhere items h]

theorem replaceEntries_nowhere : ∀ (entries : List (String × Value)) {hit : List Spot → Bool}
    (_ : ∀ loc, hit loc = false) (new : Value), replaceEntries entries hit new = entries
  | [], _, _, _ => rfl
  | (key, value) :: entries, hit, h, new => by
    rw [replaceEntries, replaceWhere_nowhere value (fun _ => h _), replaceEntries_nowhere entries h]

end

/-- No location that satisfies the second condition lies within one that satisfies the first. -/
def Outside (first second : List Spot → Bool) : Prop :=
  ∀ loc more, first loc = true → second (loc ++ more) = true → more = []

theorem Outside.below {first second : List Spot → Bool} (h : Outside first second) (spot : Spot) :
    Outside (fun loc => first (spot :: loc)) fun loc => second (spot :: loc) :=
  fun loc more => h (spot :: loc) more

/-- A replacement in a value that is all replaced is one of the whole or none. -/
theorem replaceWhere_new {first second : List Spot → Bool} (h : Outside first second)
    (hself : first [] = true) (new : Value) : new.replaceWhere second new = new := by
  cases hsecond : second [] with
  | true => exact replaceWhere_self hsecond new new
  | false =>
    refine replaceWhere_nowhere new (fun loc => Bool.eq_false_iff.mpr fun hloc => ?_) new
    rw [h [] loc hself hloc, hsecond] at hloc
    cases hloc

mutual

/-- One replacement after another is one replacement, unless the second reaches into what the first
has put in. -/
theorem replaceWhere_replaceWhere : ∀ (v : Value) {first second : List Spot → Bool}
    (_ : Outside first second) (new : Value),
      (v.replaceWhere first new).replaceWhere second new =
        v.replaceWhere (fun loc => first loc || second loc) new
  | v, first, second, h, new => by
    cases hfirst : first [] with
    | true =>
      rw [replaceWhere_self hfirst, replaceWhere_new h hfirst,
        replaceWhere_self (by rw [hfirst, Bool.true_or])]
    | false =>
      cases hsecond : second [] with
      | true =>
        rw [replaceWhere_self hsecond, replaceWhere_self (by rw [hsecond, Bool.or_true])]
      | false =>
        cases v with
        | sequence items =>
          simp only [replaceWhere, hfirst, hsecond, Bool.or_self, Bool.false_eq_true, if_false,
            replaceItems_replaceItems items h]
        | mapping entries =>
          simp only [replaceWhere, hfirst, hsecond, Bool.or_self, Bool.false_eq_true, if_false,
            replaceEntries_replaceEntries entries h]
        | _ => simp [replaceWhere, hfirst, hsecond]

theorem replaceItems_replaceItems : ∀ (items : List Value) {first second : List Spot → Bool}
    (_ : Outside first second) (new : Value) (p : Nat),
      replaceItems (replaceItems items first new p) second new p =
        replaceItems items (fun loc => first loc || second loc) new p
  | [], _, _, _, _, _ => rfl
  | item :: items, first, second, h, new, p => by
    rw [replaceItems, replaceItems, replaceItems, replaceItems_replaceItems items h,
      replaceWhere_replaceWhere item (h.below (.place p))]

theorem replaceEntries_replaceEntries : ∀ (entries : List (String × Value))
    {first second : List Spot → Bool} (_ : Outside first second) (new : Value),
      replaceEntries (replaceEntries entries first new) second new =
        replaceEntries entries (fun loc => first loc || second loc) new
  | [], _, _, _, _ => rfl
  | (key, value) :: entries, first, second, h, new => by
    rw [replaceEntries, replaceEntries, replaceEntries, replaceEntries_replaceEntries entries h,
      replaceWhere_replaceWhere value (h.below (.key key))]

end

/-! ## Replacement at one spot -/

/-- The locations that lead through a spot and from there to one that satisfies a condition. -/
def beneath (spot : Spot) (hit : List Spot → Bool) : List Spot → Bool
  | [] => false
  | s :: loc => decide (s = spot) && hit loc

section

variable {spot : Spot} {hit : List Spot → Bool} {new : Value}

theorem replaceWhere_beneath_self (v : Value) :
    v.replaceWhere (fun loc => beneath spot hit (spot :: loc)) new = v.replaceWhere hit new := by
  simp only [beneath, decide_true, Bool.true_and]

theorem replaceWhere_beneath_of_ne {other : Spot} (h : other ≠ spot) (v : Value) :
    v.replaceWhere (fun loc => beneath spot hit (other :: loc)) new = v :=
  replaceWhere_nowhere v (fun loc => by simp [beneath, h]) new

theorem getElem?_replaceItems (items : List Value) (hit : List Spot → Bool) (new : Value)
    (p i : Nat) : (replaceItems items hit new p)[i]? = (items[i]?).map fun item =>
      item.replaceWhere (fun loc => hit (.place (p + i) :: loc)) new := by
  induction items generalizing p i with
  | nil => rfl
  | cons item rest ih =>
    cases i with
    | zero => rfl
    | succ i =>
      rw [replaceItems, List.getElem?_cons_succ, List.getElem?_cons_succ, ih,
        Nat.add_right_comm p 1 i]
      rfl

theorem replaceEntries_beneath_of_notMem {key : String} {entries : List (String × Value)}
    (h : key ∉ Entries.keys entries) :
    replaceEntries entries (beneath (.key key) hit) new = entries := by
  induction entries with
  | nil => rfl
  | cons e rest ih =>
    obtain ⟨k, v⟩ := e
    obtain ⟨hne, hrest⟩ := not_or.mp (mt List.mem_cons.mpr h)
    have hother : Spot.key k ≠ Spot.key key := fun he => hne (Spot.key.inj he).symm
    rw [replaceEntries, replaceWhere_beneath_of_ne hother, ih hrest]

theorem put_replaceWhere {key : String} {entries : List (String × Value)} {inner : Value}
    (hkeys : (Entries.keys entries).Nodup) (h : Entries.get? key entries = some inner) :
    Entries.put key (inner.replaceWhere hit new) entries =
      replaceEntries entries (beneath (.key key) hit) new := by
  induction entries with
  | nil => cases h
  | cons e rest ih =>
    obtain ⟨k, v⟩ := e
    obtain ⟨hfirst, hrest⟩ := List.nodup_cons.mp hkeys
    rw [replaceEntries]
    unfold Entries.get? at h
    unfold Entries.put
    by_cases hk : k = key
    · subst hk
      rw [if_pos rfl] at h ⊢
      obtain rfl := Option.some.inj h
      rw [replaceWhere_beneath_self, replaceEntries_beneath_of_notMem hfirst]
    · rw [if_neg hk] at h ⊢
      have hother : Spot.key k ≠ Spot.key key := fun he => hk (Spot.key.inj he)
      rw [replaceWhere_beneath_of_ne hother, ih hrest h]

/-- A replacement within the value at one spot is one of the container. -/
theorem putSpot_replaceWhere {v inner : Value} (hv : v.KeysDiffer)
    (h : v.atSpot? spot = some inner) :
    v.putSpot spot (inner.replaceWhere hit new) = v.replaceWhere (beneath spot hit) new := by
  cases v with
  | mapping entries =>
    cases spot with
    | place p => cases h
    | key key =>
      rw [putSpot, put_replaceWhere hv h]
      rfl
  | sequence items =>
    cases spot with
    | key key => cases h
    | place p =>
      have hset : items.set p (inner.replaceWhere hit new) =
          replaceItems items (beneath (.place p) hit) new 0 := by
        refine List.ext_getElem? fun i => ?_
        rw [getElem?_replaceItems, Nat.zero_add]
        by_cases hi : p = i
        · subst hi
          have hlt := (List.getElem?_eq_some_iff.mp h).1
          rw [List.getElem?_set_self hlt, show items[p]? = some inner from h, Option.map_some,
            replaceWhere_beneath_self]
        · have hother : Spot.place i ≠ Spot.place p := fun he => hi (Spot.place.inj he).symm
          simp only [List.getElem?_set_ne hi, replaceWhere_beneath_of_ne hother, Option.map_id']
      rw [putSpot, hset]
      rfl
  | _ => cases spot <;> cases h

end

/-! ## Writes -/

/-- A write at a path that leads to a value replaces what is at its location. -/
theorem eq_replaceWhere_of_write? {v new v' : Value} {w : Path} {loc : List Spot}
    (hv : v.Distinct) (h : v.write? new w = some v') (hw : v.location? w = some loc) :
    v' = v.replaceWhere (fun l => decide (l = loc)) new := by
  induction w generalizing v v' loc with
  | nil =>
    obtain rfl := Option.some.inj h
    obtain rfl := Option.some.inj hw
    rw [replaceWhere_self (by simp)]
  | cons s rest ih =>
    obtain ⟨spot, changed, hs, rfl, hc⟩ := write?_cons_eq_some h
    obtain ⟨spot', inner, below, hs', hi, hbelow, rfl⟩ := location?_cons_eq_some hw
    obtain rfl : spot = spot' := Option.some.inj (hs.symm.trans hs')
    have hchanged : changed = inner.replaceWhere (fun l => decide (l = below)) new := by
      rcases hc with ⟨rfl, rfl⟩ | ⟨inner', hi', hwrite⟩
      · obtain rfl := Option.some.inj hbelow
        rw [replaceWhere_self (by simp)]
      · obtain rfl : inner = inner' := Option.some.inj (hi.symm.trans hi')
        exact ih (hv.atSpot? hi) hwrite hbelow
    have hhit : (fun l => decide (l = spot :: below)) =
        beneath spot fun l => decide (l = below) := by
      funext l
      cases l <;> simp [beneath]
    rw [hchanged, putSpot_replaceWhere hv.self hi, hhit]

/-- A write at a path that leads nowhere replaces one mapping with one that has a new key at its
end, and then the path leads to this key. -/
theorem exists_add_of_write? {v new v' : Value} {path : Path} (hv : v.Distinct)
    (h : v.write? new path = some v') (hnone : v.walk? path = none) :
    ∃ loc entries key, v.atLocation? loc = some (.mapping entries) ∧
      key ∉ Entries.keys entries ∧
        v' = v.replaceWhere (fun l => decide (l = loc)) (.mapping (entries ++ [(key, new)])) ∧
          v'.location? path = some (loc ++ [.key key]) := by
  rcases List.eq_nil_or_concat path with rfl | ⟨front, last, hpath⟩
  · cases hnone
  rw [List.concat_eq_append] at hpath
  subst hpath
  obtain ⟨parent, spot, hwalk, hspot, hwrite⟩ := write?_concat_eq_some h
  have hfront : ∀ s ∈ front, s.isSlice = false := fun s hs => isSlice_of_write? hwrite hs
  obtain ⟨loc, hloc, hat⟩ := exists_location? hfront hwalk
  have hempty : parent.atSpot? spot = none := by
    rw [walk?_append, hwalk, Option.bind_some, walk?, step?_of_spot? hspot] at hnone
    cases hinner : parent.atSpot? spot with
    | none => rfl
    | some inner =>
      rw [hinner] at hnone
      cases hnone
  have hafter : v'.location? (front ++ [last]) = some (loc ++ [spot]) := by
    rw [location?_append, location?_write hwrite hloc hloc fun _ => rfl,
      walk?_write_self hwrite, Option.bind_some, Option.bind_some, location?, spot?_putSpot, hspot,
      Option.bind_some, atSpot?_putSpot_self hspot]
    rfl
  cases parent with
  | mapping entries =>
    obtain ⟨key, -, rfl⟩ := Option.map_eq_some_iff.mp hspot
    have hnew : key ∉ Entries.keys entries := Entries.notMem_keys_of_get? hempty
    rw [putSpot, Entries.put_of_notMem hnew] at hwrite
    exact ⟨loc, entries, key, hat, hnew, eq_replaceWhere_of_write? hv hwrite hloc, hafter⟩
  | sequence items =>
    -- A sequence has no spot at which it has nothing.
    cases spot with
    | key name => cases last <;> simp [spot?] at hspot
    | place p =>
      have hlt := place_lt_of_spot? hspot
      have hout := List.getElem?_eq_none_iff.mp hempty
      omega
  | _ => cases hspot

/-! ## Reading after a replacement -/

theorem get?_replaceEntries (key : String) (entries : List (String × Value))
    (hit : List Spot → Bool) (new : Value) :
    Entries.get? key (replaceEntries entries hit new) = (Entries.get? key entries).map fun value =>
      value.replaceWhere (fun loc => hit (.key key :: loc)) new := by
  induction entries with
  | nil => rfl
  | cons e rest ih =>
    obtain ⟨k, v⟩ := e
    rw [replaceEntries, Entries.get?, Entries.get?]
    by_cases hk : k = key
    · subst hk
      rw [if_pos rfl, if_pos rfl, Option.map_some]
    · rw [if_neg hk, if_neg hk, ih]

theorem atSpot?_replaceWhere {hit : List Spot → Bool} (h : hit [] = false) (v new : Value)
    (spot : Spot) : (v.replaceWhere hit new).atSpot? spot = (v.atSpot? spot).map fun inner =>
      inner.replaceWhere (fun loc => hit (spot :: loc)) new := by
  cases v with
  | sequence items =>
    rw [replaceWhere, h, if_neg Bool.false_ne_true]
    cases spot with
    | key key => rfl
    | place p =>
      have hitem := getElem?_replaceItems items hit new 0 p
      rw [Nat.zero_add] at hitem
      exact hitem
  | mapping entries =>
    rw [replaceWhere, h, if_neg Bool.false_ne_true]
    cases spot with
    | key key => exact get?_replaceEntries key entries hit new
    | place p => rfl
  | _ => cases spot <;> simp [replaceWhere, h, atSpot?]

/-- What is at a location that is not within a replaced one is what was there, with replacements
below it: the new value if the location itself is replaced, and what was there before if no replaced
location lies within it. -/
theorem atLocation?_replaceWhere {v new : Value} {hit : List Spot → Bool} {loc : List Spot}
    (hfirst : ∀ l, l <+: loc → hit l = true → l = loc) :
    (v.replaceWhere hit new).atLocation? loc =
      (v.atLocation? loc).map fun w => w.replaceWhere (fun l => hit (loc ++ l)) new := by
  induction loc generalizing v hit with
  | nil => rfl
  | cons spot rest ih =>
    have hnone : hit [] = false := by
      refine Bool.eq_false_iff.mpr fun hnil => ?_
      cases hfirst [] List.nil_prefix hnil
    have hrest : ∀ l, l <+: rest → hit (spot :: l) = true → l = rest := fun l hl hlhit =>
      (List.cons.inj (hfirst (spot :: l) ((List.prefix_cons_inj spot).mpr hl) hlhit)).2
    rw [atLocation?, atLocation?, atSpot?_replaceWhere hnone]
    cases v.atSpot? spot with
    | none => rfl
    | some inner => exact ih hrest

end LiveDocument.Value
