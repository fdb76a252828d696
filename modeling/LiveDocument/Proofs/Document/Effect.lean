import LiveDocument.Proofs.Document.Atomic
import LiveDocument.Proofs.Tree.Location
import LiveDocument.Proofs.Tree.Throughout

/-!
# What a write and a removal do

When one write succeeds, when one removal does, and what becomes of the value of the document. Reads
go through walks and edits through assignments in containers; both go by the spots that segments
name, whichever way they name them, so the effect is told by paths that are spelled by spots.

* `isSome_write?_iff`, `exists_remove?_iff`: where an edit of a value succeeds.
* `Without`: what a removal leaves of the container.
* `write_effect`, `remove_effect`: edits of a document.
-/

namespace LiveDocument

namespace Value

/-! ## Edits of a value -/

/-- Where a write succeeds. -/
theorem isSome_write?_iff {v new : Value} {path : Path} :
    (v.write? new path).isSome = true ↔ path = [] ∨ (∀ s ∈ path, s.isSlice = false) ∧
      ∃ (front : Path) (last : Segment) (parent : Value), path = front ++ [last] ∧
        v.walk? front = some parent ∧
          (parent.kind = .mapping ∨ ∃ items place, parent = .sequence items ∧
            last = .index place ∧ -(items.length : Int) ≤ place.toInt ∧
              place.toInt < items.length) := by
  rcases List.eq_nil_or_concat path with rfl | ⟨front, last, he⟩
  · exact ⟨fun _ => .inl rfl, fun _ => rfl⟩
  rw [List.concat_eq_append] at he
  subst he
  rw [isSome_write?_concat]
  constructor
  · rintro ⟨hfront, parent, hwalk, hspot⟩
    obtain ⟨hlast, hparent⟩ := isSome_spot?_iff.mp hspot
    refine .inr ⟨fun s hs => ?_, front, last, parent, rfl, hwalk, hparent⟩
    rcases List.mem_append.mp hs with hs | hs
    · exact hfront s hs
    · exact List.mem_singleton.mp hs ▸ hlast
  · rintro (hnil | ⟨hpath, front', last', parent, he, hwalk, hparent⟩)
    · exact absurd hnil (List.append_ne_nil_of_right_ne_nil _ (List.cons_ne_nil _ _))
    · obtain ⟨rfl, hlast⟩ := List.append_inj' he rfl
      obtain rfl := List.singleton_inj.mp hlast
      refine ⟨fun s hs => hpath s (List.mem_append_left _ hs), parent, hwalk, ?_⟩
      refine isSome_spot?_iff.mpr ⟨?_, hparent⟩
      exact hpath last (List.mem_append_right _ (List.mem_singleton_self _))

/-- What a removal gives, and where it succeeds. -/
theorem exists_remove?_iff {v old : Value} {path : Path} :
    (∃ v', v.remove? path = some (old, v')) ↔
      path ≠ [] ∧ (∀ s ∈ path, s.isSlice = false) ∧ v.walk? path = some old := by
  constructor
  · rintro ⟨v', h⟩
    refine ⟨?_, fun s hs => isSlice_of_remove? h hs, walk?_of_remove? h⟩
    rintro rfl
    cases h
  · rintro ⟨hne, hpath, hwalk⟩
    exact exists_remove? hne hpath hwalk

/-- What a removal leaves of the container: a mapping without the key, or a sequence in which every
later element has moved down by one. -/
inductive Without : Value → Segment → Value → Value → Prop
  | mapping {entries : List (String × Value)} {s : Segment} {key : String} {old : Value}
    (hkey : keyOf? s = some key) (hmem : (key, old) ∈ entries) :
    Without (.mapping entries) s old (.mapping (entries.filter fun e => decide (e.1 ≠ key)))
  | sequence {items items' : List Value} {place : Int64} {p : Nat} {old : Value}
    (hplace : Position.within? place items.length = some p) (hmem : items[p]? = some old)
    (hlength : items'.length + 1 = items.length)
    (hitems : ∀ j, items'[j]? = if j < p then items[j]? else items[j + 1]?) :
    Without (.sequence items) (.index place) old (.sequence items')

theorem without_of_takeOut? {parent old left : Value} {s : Segment}
    (hparent : parent.Distinct) (h : parent.takeOut? s = some (old, left)) :
    Without parent s old left := by
  cases parent with
  | mapping entries =>
    obtain ⟨key, hkey, h⟩ := Option.bind_eq_some_iff.mp h
    obtain ⟨found, hget, he⟩ := Option.map_eq_some_iff.mp h
    cases he
    rw [Entries.erase_eq_filter hparent.self]
    exact .mapping hkey (Entries.mem_of_get? hget)
  | sequence items =>
    cases s with
    | index place =>
      obtain ⟨p, hp, h⟩ := Option.bind_eq_some_iff.mp h
      obtain ⟨found, hget, he⟩ := Option.map_eq_some_iff.mp h
      cases he
      have hlt := Position.lt_of_within? hp
      refine .sequence hp hget ?_ fun j => List.getElem?_eraseIdx
      rw [List.length_eraseIdx_of_lt hlt]
      omega
    | _ => cases h
  | _ => cases h

end Value

namespace Live

open Document

theorem runOn_write_eq_ok_iff {path : Path} {delimiter : String} {v : Value} {d d' : Document} :
    (write path delimiter v).runOn d = (.ok (), d') ↔ d.write? path v = some d' := by
  rw [runOn_write]
  cases d.write? path v <;> simp

theorem runOn_remove_eq_ok_iff {path : Path} {delimiter : String} {old : Value}
    {d d' : Document} :
    (remove path delimiter).runOn d = (.ok old, d') ↔ d.remove? path = some (old, d') := by
  rw [runOn_remove]
  cases d.remove? path with
  | none => simp
  | some found => simp [Prod.ext_iff]

/-- A removal in the document succeeds if it does in the value. -/
theorem exists_removal {d : Document} {path : Path} {old v' : Value}
    (h : d.value.remove? path = some (old, v')) : ∃ d', d.remove? path = some (old, d') := by
  rw [Document.remove?, h]
  exact ⟨_, rfl⟩

/-! ## The effect on a document -/

/-- A write succeeds at the root, and without a slice on the way in a mapping or at a position that
a sequence has. Afterwards the path leads to the new value; a path of which it is no beginning, and
which is no beginning of it, leads to what it led to before; and keys stay in order, with a new one
at the end. -/
theorem write_effect (path : Path) (delimiter : String) (v : Value) (d : Document) :
    ((∃ d', (write path delimiter v).runOn d = (.ok (), d')) ↔
        path = [] ∨ (∀ s ∈ path, s.isSlice = false) ∧
          ∃ (front : Path) (last : Segment) (parent : Value), path = front ++ [last] ∧
            d.value.walk? front = some parent ∧
              (parent.kind = .mapping ∨ ∃ items place, parent = .sequence items ∧
                last = .index place ∧ -(items.length : Int) ≤ place.toInt ∧
                  place.toInt < items.length)) ∧
      ∀ d', (write path delimiter v).runOn d = (.ok (), d') →
        d'.value.walk? path = some v ∧
          (∀ q : Path, (∀ s ∈ q, s.isSlice = false) →
            ¬ d.value.spelling path <+: d.value.spelling q →
            ¬ d.value.spelling q <+: d.value.spelling path →
              d'.value.walk? q = d.value.walk? q) ∧
          ∀ (q : Path) (entries : List (String × Value)), (∀ s ∈ q, s.isSlice = false) →
            ¬ d.value.spelling path <+: d.value.spelling q →
            d.value.walk? q = some (.mapping entries) →
              ∃ entries', d'.value.walk? q = some (.mapping entries') ∧
                ((∃ key, d.value.Adds path q entries key ∧
                    Entries.keys entries' = Entries.keys entries ++ [key]) ∨
                  (∀ key, ¬ d.value.Adds path q entries key) ∧
                    Entries.keys entries' = Entries.keys entries) := by
  refine ⟨?_, fun d' h => ?_⟩
  · rw [← Value.isSome_write?_iff, Option.isSome_iff_exists]
    constructor
    · rintro ⟨d', h⟩
      exact ⟨d'.value, value_write? (runOn_write_eq_ok_iff.mp h)⟩
    · rintro ⟨v', h⟩
      obtain ⟨d', hd', -⟩ := exists_write? h
      exact ⟨d', runOn_write_eq_ok_iff.mpr hd'⟩
  · have hwrite := value_write? (runOn_write_eq_ok_iff.mp h)
    refine ⟨Value.walk?_write_self hwrite, fun q hq hbelow habove => ?_,
      fun q entries hq hbelow hwalk => ?_⟩
    · exact Value.walk?_write_of_apart hwrite hq hbelow habove
    · exact Value.exists_keys_write hwrite hq hbelow hwalk

/-- A mapping whose only key reads like a number, with a sequence under it. -/
def numbered : Document :=
  .ofValue (.mapping [("1", .sequence [.mapping [("a", .null)], .boolean true])]) {}

/-- A new key in a mapping that is reached by a number and by a position from the end. -/
theorem write_effect_new_key :
    ∃ d', (write [.index 1, .index (-2), .key "b"] "/" (.boolean false)).runOn numbered =
        (.ok (), d') ∧
      d'.value.walk? [.index 1, .index (-2), .key "b"] = some (.boolean false) ∧
        d'.value.walk? [.key "1", .index 1] = some (.boolean true) ∧
          ∃ entries', d'.value.walk? [.key "1", .index 0] = some (.mapping entries') ∧
            Entries.keys entries' = ["a", "b"] := by
  obtain ⟨hsucceeds, heffect⟩ :=
    write_effect [.index 1, .index (-2), .key "b"] "/" (.boolean false) numbered
  obtain ⟨d', hd'⟩ := hsucceeds.mpr (.inr ⟨by decide, [.index 1, .index (-2)], .key "b",
    .mapping [("a", .null)], rfl, by rfl, .inl rfl⟩)
  obtain ⟨hself, hframe, hkeys⟩ := heffect d' hd'
  refine ⟨d', hd', hself, ?_, ?_⟩
  · rw [hframe [.key "1", .index 1] (by decide) (by decide +kernel) (by decide +kernel)]
    rfl
  · obtain ⟨entries', hwalk, hadded | ⟨hnone, -⟩⟩ := hkeys [.key "1", .index 0] [("a", .null)]
      (by decide) (by decide +kernel) (by rfl)
    · obtain ⟨key, ⟨-, hspelling⟩, hkeys⟩ := hadded
      refine ⟨entries', hwalk, ?_⟩
      have hb : numbered.value.spelling [.index 1, .index (-2), .key "b"] =
          numbered.value.spelling [.key "1", .index 0] ++ [.inl (.key "b")] := by decide +kernel
      rw [hb] at hspelling
      cases List.singleton_inj.mp (List.append_cancel_left hspelling)
      exact hkeys
    · exact absurd ⟨by decide, by decide +kernel⟩ (hnone "b")

/-- A removal succeeds at whatever a path without slices leads to, the root excepted, and gives it.
What is left of its container lacks it, with everything else in order; and a path that does not lead
into the container or to one on the way to it leads to what it led to before. -/
theorem remove_effect (path : Path) (delimiter : String) {d : Document}
    (hd : d.value.Distinct) :
    (∀ old, (∃ d', (remove path delimiter).runOn d = (.ok old, d')) ↔
        path ≠ [] ∧ (∀ s ∈ path, s.isSlice = false) ∧ d.value.walk? path = some old) ∧
      ∀ old d', (remove path delimiter).runOn d = (.ok old, d') →
        ∃ (front : Path) (last : Segment) (parent left : Value), path = front ++ [last] ∧
          d.value.walk? front = some parent ∧ d'.value.walk? front = some left ∧
            Value.Without parent last old left ∧
              ∀ q : Path, (∀ s ∈ q, s.isSlice = false) →
                ¬ d.value.spelling q <+: d.value.spelling front →
                ¬ d.value.spelling front <+: d.value.spelling q →
                  d'.value.walk? q = d.value.walk? q := by
  refine ⟨fun old => ?_, fun old d' h => ?_⟩
  · rw [← Value.exists_remove?_iff]
    constructor
    · rintro ⟨d', h⟩
      exact ⟨d'.value, value_remove? (runOn_remove_eq_ok_iff.mp h)⟩
    · rintro ⟨v', h⟩
      obtain ⟨d', hd'⟩ := exists_removal h
      exact ⟨d', runOn_remove_eq_ok_iff.mpr hd'⟩
  · have hremove := value_remove? (runOn_remove_eq_ok_iff.mp h)
    obtain ⟨parent, left, last, hpath, hparent, htake, hwrite⟩ := Value.remove?_eq_some hremove
    refine ⟨_, last, parent, left, hpath, hparent, Value.walk?_write_self hwrite, ?_,
      fun q hq habove hbelow => Value.walk?_write_of_apart hwrite hq hbelow habove⟩
    exact Value.without_of_takeOut? (hd.walk? Value.stable_keysDiffer hparent) htake

/-- A sequence of three, and a key that reads like a number beside it. -/
def row : Document :=
  .ofValue
    (.mapping [("row", .sequence [.string "x", .null, .string "y"]), ("0", .boolean true)]) {}

/-- The last element but one is removed. -/
theorem remove_effect_from_end :
    row.value.Distinct ∧ ∃ d', (remove [.key "row", .index (-2)] "/").runOn row = (.ok .null, d') ∧
      d'.value.walk? [.key "row"] = some (.sequence [.string "x", .string "y"]) ∧
        d'.value.walk? [.index 0] = some (.boolean true) := by
  have hdistinct : row.value.Distinct := by
    simp [row, Document.ofValue, Value.Distinct, Value.Throughout, Value.ThroughoutEntries,
      Value.ThroughoutAll, Value.KeysDiffer, Entries.keys]
  obtain ⟨hsucceeds, heffect⟩ := remove_effect [.key "row", .index (-2)] "/" hdistinct
  obtain ⟨d', hd'⟩ := (hsucceeds .null).mpr ⟨by decide, by decide, by rfl⟩
  obtain ⟨front, last, parent, left, hpath, hparent, hleft, hwithout, hframe⟩ :=
    heffect .null d' hd'
  obtain ⟨hfront, hlast⟩ : [Segment.key "row"] = front ∧ [Segment.index (-2)] = [last] :=
    List.append_inj' (show [Segment.key "row"] ++ [.index (-2)] = front ++ [last] from hpath) rfl
  subst hfront
  cases Option.some.inj hparent
  refine ⟨hdistinct, d', hd', hleft.trans ?_, ?_⟩
  · cases hwithout with
    | sequence hplace _ _ hitems =>
      cases hlast
      cases hplace.symm.trans (show Position.within? (-2) 3 = some 1 by decide)
      refine congrArg (some ∘ Value.sequence) (List.ext_getElem? fun j => ?_)
      rw [hitems j]
      rcases j with _ | _ | j <;> rfl
  · rw [hframe [.index 0] (by decide) (by decide +kernel) (by decide +kernel)]
    rfl

end Live

end LiveDocument
