import LiveDocument.Proofs.Session.Setting
import LiveDocument.Proofs.Tree.Selection

/-!
# Looking up the elements of a slice

A slice at the end of an address is resolved in two ways. A walk along the full path makes a new
sequence of what it selects; a lookup names each of the selected elements by its own place. They
agree on every value. The handles that a query answers are then obtained one place after the other,
through the cache, and one that is held already stands in for an element with its key.

* `Value.exists_target_of_slice`: the places that a lookup names, one by one.
* `Document.resolve_of_slice`: a slice is never answered by one handle from the cache.
* `slice_lookup_reads_elements_iff`: both resolutions, and what the handles read, in every state
  that a session reaches.
-/

namespace LiveDocument

namespace Value

/-- If the places that a lookup names lead to elements in order, then for each element there is its
place, with the kind of the element. -/
theorem exists_target_of_slice {v : Value} (hv : v.Sized) {a : Address} {context : Path}
    {targets : List Target} (hlocate : v.locate? a context = some targets) {items : List Value}
    (hwalks : targets.map (fun t => v.walk? t.path) = items.map some) {i : Nat} {item : Value}
    (hitem : items[i]? = some item) :
    ∃ t, targets[i]? = some t ∧ v.walk? t.path = some item ∧ t.kind = item.kind := by
  have hat := congrArg (·[i]?) hwalks
  simp only [List.getElem?_map, hitem, Option.map_some] at hat
  obtain ⟨t, ht, hwalk⟩ := Option.map_eq_some_iff.mp hat
  have hkind := kindAt?_of_mem_locate? hv hlocate (List.mem_of_getElem? ht)
  rw [kindAt?, hwalk, Option.map_some] at hkind
  exact ⟨t, ht, hwalk, (Option.some.inj hkind).symm⟩

end Value

namespace Document

/-- The cache is not asked for a slice as a whole, only for each place that it selects. -/
theorem resolve_of_slice (d : Document) {a : Address} (ha : a.endsWithSlice = true)
    (context : Path) (useCache : Bool) :
    d.resolve a context useCache = d.obtainAll useCache (d.located a context) := by
  unfold resolve located
  simp only [ha, Bool.not_true, Bool.and_false, Bool.false_eq_true, if_false]
  cases d.value.locate? a context <;> rfl

end Document

namespace Session

open Document

/-- In every state that a session reaches, with sequences whose lengths are signed words, an address
with a slice at its end is resolved in two ways that agree. Either a walk along its full path leads
nowhere, and the address names no place; or the walk makes a sequence, and the address names one
place for each element, in order, that leads to the element and has its kind. A query answers one
handle for each of these places. If no two of them have one digest, then a handle reads its element
exactly if the cache is not asked, or no handle in it has the digest of the element's path and leads
to something else. -/
theorem slice_lookup_reads_elements_iff (env : Environment) (value : Value) (settings : Settings)
    (steps : List Step) {n : Nat} {d : Document}
    (hd : ((opening env value settings).after steps).document? n = some d)
    (hsized : d.value.Sized) {a : Address} (ha : a.endsWithSlice = true) (context : Path)
    (useCache : Bool) :
    let found := d.resolve a context useCache
    (d.value.walk? (a.fullPath context) = none ∧ d.value.locate? a context = none ∧
        found.1 = []) ∨
      ∃ items targets, d.value.walk? (a.fullPath context) = some (.sequence items) ∧
        d.value.locate? a context = some targets ∧ targets.length = items.length ∧
          found.1.length = items.length ∧
            ∀ (i : Nat) (item : Value), items[i]? = some item →
              ∃ t k, targets[i]? = some t ∧ d.value.walk? t.path = some item ∧
                t.kind = item.kind ∧ found.1[i]? = some k ∧
                  ((useCache = true → (targets.map fun t => keyOf t.path d.delimiter).Nodup) →
                    ((k.rawValue.runOn found.2).1 = .ok item ↔
                      (useCache = true → ∀ known : Handle, d.Caches known →
                        keyOf known.path d.delimiter = keyOf t.path d.delimiter →
                          d.value.walk? known.path = some item))) := by
  intro found
  have hsound := ((sound_after (sound_opening env value settings) steps).document hd).1
  have hfound : found = d.obtainAll useCache (d.located a context) :=
    resolve_of_slice d ha context useCache
  clear_value found
  subst hfound
  rcases Value.walk?_fullPath_of_slice hsized ha context with
    ⟨hwalk, hlocate⟩ | ⟨items, targets, hwalk, hlocate, hwalks⟩
  · refine Or.inl ⟨hwalk, hlocate, ?_⟩
    rw [located, hlocate]
    rfl
  · have hcount : targets.length = items.length := by
      simpa only [List.length_map] using congrArg List.length hwalks
    have hlocated : d.located a context = targets := by rw [located, hlocate, Option.getD_some]
    rw [hlocated]
    have hhandles := length_obtainAll d useCache targets
    refine Or.inr ⟨items, targets, hwalk, hlocate, hcount, hhandles.trans hcount, ?_⟩
    intro i item hitem
    obtain ⟨t, ht, htwalk, htkind⟩ := Value.exists_target_of_slice hsized hlocate hwalks hitem
    obtain ⟨k, hk, hreads⟩ := Live.exists_rawValue_obtainAll hsound ht htwalk
    exact ⟨t, k, ht, htwalk, htkind, hk, hreads⟩

/-- A sequence beside a key that reads like the way to its first element. -/
def shadowed : Value :=
  .mapping [("m", .sequence [.null]), ("m/0", .boolean true)]

/-- Somebody holds all children of the whole mapping. -/
def shadowedSteps : List Step :=
  [⟨.document (.queryWith (.text "") false), some "y"⟩, ⟨.handle "y0" .view, some "v"⟩,
    ⟨.view "v" .children, some "c"⟩]

/-- The only handle for the elements of the sequence reads what is beside it. -/
theorem slice_lookup_reads_elements_iff_shadowed :
    ∃ d item k, ((opening [] shadowed {}).after shadowedSteps).document? 0 = some d ∧
      d.value.walk? ((d.addressOf (.text "m/:")).fullPath []) = some (.sequence [item]) ∧
        (d.resolve (d.addressOf (.text "m/:")) [] true).1[0]? = some k ∧
          (k.rawValue.runOn (d.resolve (d.addressOf (.text "m/:")) [] true).2).1 ≠ .ok item := by
  have hd : ((opening [] shadowed {}).after shadowedSteps).document? 0 =
    some ((opening [] shadowed {}).after shadowedSteps).document := rfl
  have hsound := (sound_after (sound_opening [] shadowed {}) shadowedSteps).own
  generalize hdef : ((opening [] shadowed {}).after shadowedSteps).document = d at hd hsound
  have hsized : d.value.Sized := by
    rw [← hdef]
    decide +kernel
  have hends : (d.addressOf (.text "m/:")).endsWithSlice = true := by
    rw [← hdef]
    decide +kernel
  have hlocate : d.value.locate? (d.addressOf (.text "m/:")) [] =
      some [⟨[.key "m", .index 0], .null⟩] := by
    rw [← hdef]
    decide +kernel
  have hbeside : d.value.kindAt? [.key "m/0"] = some .boolean := by
    rw [← hdef]
    decide +kernel
  have hcached : d.cached? (keyOf [.key "m", .index 0] d.delimiter) =
      some ⟨⟨2, 2, 0⟩, [.key "m/0"]⟩ := by
    rw [← hdef]
    decide +kernel
  obtain ⟨hheld, hkey⟩ := (cached?_eq_some_iff hsound).mp hcached
  rcases slice_lookup_reads_elements_iff [] shadowed {} shadowedSteps hd hsized hends [] true with
    ⟨-, hnone, -⟩ | ⟨items, targets, hitems, htargets, hcount, -, hall⟩
  · rw [hlocate] at hnone
    cases hnone
  · rw [hlocate] at htargets
    cases htargets
    obtain ⟨item, rfl⟩ := List.length_eq_one_iff.mp hcount.symm
    obtain ⟨t, k, ht, -, hkind, hk, hreads⟩ := hall 0 item rfl
    cases ht
    refine ⟨d, item, k, hd, hitems, hk, fun hraw => ?_⟩
    have hitem := (hreads fun _ => List.pairwise_singleton _ _).mp hraw rfl _ hheld hkey
    rw [Value.kindAt?, hitem, Option.map_some, ← hkind] at hbeside
    cases hbeside

end Session

end LiveDocument
