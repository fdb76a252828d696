import LiveDocument.Proofs.Tree.Laws
import LiveDocument.Proofs.Tree.Replacement
import LiveDocument.Proofs.Tree.Writable

/-!
# Edits of one entry

A path that leads to a mapping, and one segment more: a write puts a value under the key that the
segment names, and a removal takes this key out. Either leaves the value with another mapping at the
place of the old one, and nothing else changes.

* `replaceAt`: the value with another one at the place where a path leads.
* `eq_replaceAt_of_write?`: what a write leaves where there is a value already.
* `write?_concat_key`, `remove?_concat_key`: edits of the entry under one segment.
-/

namespace LiveDocument.Value

/-- The value with another one at the place where a path leads. -/
def replaceAt (v : Value) (path : Path) (new : Value) : Value :=
  v.replaceWhere (fun loc => decide (v.location? path = some loc)) new

variable {v w new v' : Value} {front : Path} {entries : List (String × Value)} {s : Segment}
  {key : String}

/-- What a write leaves where there is a value already. -/
theorem eq_replaceAt_of_write? (hv : v.Distinct) (hfront : ∀ s ∈ front, s.isSlice = false)
    (hw : v.walk? front = some w) (h : v.write? new front = some v') :
    v' = v.replaceAt front new := by
  obtain ⟨loc, hloc, -⟩ := exists_location? hfront hw
  have hhit : ∀ l, decide (v.location? front = some l) = decide (l = loc) := by
    intro l
    rw [decide_eq_decide, hloc, Option.some.injEq]
    exact eq_comm
  rw [eq_replaceWhere_of_write? hv h hloc, replaceAt, funext hhit]

/-- Putting back what a path leads to changes nothing. -/
theorem replaceAt_walk? (hv : v.Distinct) (hfront : ∀ s ∈ front, s.isSlice = false)
    (hw : v.walk? front = some w) : v.replaceAt front w = v :=
  (eq_replaceAt_of_write? hv hfront hw (write?_walk? hfront hw)).symm

theorem spot?_of_keyOf? (hkey : keyOf? s = some key) (entries : List (String × Value)) :
    (mapping entries).spot? s = some (.key key) :=
  congrArg (Option.map Spot.key) hkey

/-- A segment that names a key is no slice. -/
theorem isSlice_of_keyOf? (hkey : keyOf? s = some key) : s.isSlice = false :=
  isSlice_of_spot? (spot?_of_keyOf? hkey [])

theorem walk?_concat_key (hw : v.walk? front = some (.mapping entries))
    (hkey : keyOf? s = some key) : v.walk? (front ++ [s]) = Entries.get? key entries := by
  simp only [walk?_append, hw, Option.bind_some, walk?, step?, hkey, Option.bind_fun_some]

theorem walk?_replaceAt_self (hv : v.Distinct) (hfront : ∀ s ∈ front, s.isSlice = false)
    (hw : v.walk? front = some w) (new : Value) :
    (v.replaceAt front new).walk? front = some new := by
  obtain ⟨v', h⟩ := exists_write?_of_walk? hfront hw new
  rw [← eq_replaceAt_of_write? hv hfront hw h]
  exact walk?_write_self h

/-- Writing an entry of a mapping puts it in, and everything else stays. -/
theorem write?_concat_key (hv : v.Distinct) (hfront : ∀ s ∈ front, s.isSlice = false)
    (hw : v.walk? front = some (.mapping entries)) (hkey : keyOf? s = some key) (new : Value) :
    v.write? new (front ++ [s]) =
      some (v.replaceAt front (.mapping (Entries.put key new entries))) := by
  have hspot := spot?_of_keyOf? hkey entries
  obtain ⟨v', h⟩ : ∃ v', v.write? new (front ++ [s]) = some v' :=
    Option.isSome_iff_exists.mp (isSome_write?_concat.mpr ⟨hfront, _, hw, by rw [hspot]; rfl⟩)
  obtain ⟨parent, spot, hparent, hs, hwrite⟩ := write?_concat_eq_some h
  rw [hw] at hparent
  cases hparent
  rw [hspot] at hs
  cases hs
  rw [h, eq_replaceAt_of_write? hv hfront hw hwrite]
  rfl

/-- Removing an entry of a mapping takes it out, and everything else stays. -/
theorem remove?_concat_key (hv : v.Distinct) (hfront : ∀ s ∈ front, s.isSlice = false)
    (hw : v.walk? front = some (.mapping entries)) (hkey : keyOf? s = some key) {old : Value}
    (hget : Entries.get? key entries = some old) :
    v.remove? (front ++ [s]) =
      some (old, v.replaceAt front (.mapping (entries.filter fun e => decide (e.1 ≠ key)))) := by
  have hpath : ∀ t ∈ front ++ [s], t.isSlice = false := by
    intro t ht
    rcases List.mem_append.mp ht with ht | ht
    · exact hfront t ht
    · rw [List.mem_singleton.mp ht]
      exact isSlice_of_keyOf? hkey
  have hwalk : v.walk? (front ++ [s]) = some old := by rw [walk?_concat_key hw hkey, hget]
  obtain ⟨v', h⟩ := exists_remove? (List.concat_ne_nil s front) hpath hwalk
  obtain ⟨parent, left, last, hlast, hparent, htake, hwrite⟩ := remove?_eq_some h
  rw [List.dropLast_concat] at hlast hparent hwrite
  rw [hw] at hparent
  cases hparent
  cases List.singleton_inj.mp (List.append_cancel_left hlast)
  have hdistinct : (mapping entries).Distinct := hv.walk? stable_keysDiffer hw
  have hleft : left = .mapping (entries.filter fun e => decide (e.1 ≠ key)) := by
    simp only [takeOut?, hkey, hget, Option.bind_some, Option.map_some,
      Entries.erase_eq_filter hdistinct.self, Option.some.injEq, Prod.mk.injEq, true_and] at htake
    exact htake.symm
  rw [h, eq_replaceAt_of_write? hv hfront hw hwrite, hleft]

end LiveDocument.Value
