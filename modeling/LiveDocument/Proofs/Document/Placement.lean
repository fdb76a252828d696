import LiveDocument.Proofs.Address.Places
import LiveDocument.Proofs.Document.Faithful
import LiveDocument.Proofs.Tree.Replacement
import LiveDocument.Proofs.Tree.Selection

/-!
# Writes at several places

An update locates its places once, before the first write. The places lie beside each other, so no
write moves one that is still to be written, and all writes together replace the values at exactly
the places that were located.

* `Separate`: locations none of which lies within another.
* `locations_writes`: writes leave the locations that are not within theirs.
* `value_writes`: what writes at separate locations come to. `walk?_writes`: what is there then.
* `exists_locations_of_slice`: the places of a slice are separate.
-/

namespace LiveDocument

namespace Value

/-- No location lies within another. -/
def Separate (locs : List (List Spot)) : Prop :=
  ∀ l ∈ locs, ∀ m ∈ locs, l <+: m → l = m

theorem separate_singleton (loc : List Spot) : Separate [loc] := by
  intro l hl m hm _
  rw [List.mem_singleton.mp hl, List.mem_singleton.mp hm]

theorem Separate.tail {loc : List Spot} {locs : List (List Spot)} (h : Separate (loc :: locs)) :
    Separate locs :=
  fun l hl m hm => h l (List.mem_cons_of_mem _ hl) m (List.mem_cons_of_mem _ hm)

/-- Places of one sequence are separate. -/
theorem separate_places (front : List Spot) (places : List Nat) :
    Separate (places.map fun p => front ++ [.place p]) := by
  intro l hl m hm hprefix
  obtain ⟨p, -, rfl⟩ := List.mem_map.mp hl
  obtain ⟨q, -, rfl⟩ := List.mem_map.mp hm
  exact hprefix.eq_of_length (by rw [List.length_append, List.length_append]; rfl)

theorem nodup_places (front : List Spot) {places : List Nat} (h : places.Nodup) :
    (places.map fun p => front ++ [Spot.place p]).Nodup :=
  List.Pairwise.map _ (fun _ _ hne he =>
    hne (Spot.place.inj (List.singleton_inj.mp (List.append_cancel_left he)))) h

/-- A write leaves locations that are not within its own. -/
theorem locations_write? {v new v' : Value} {path : Path} {loc : List Spot} {qs : List Path}
    {locs : List (List Spot)} (h : v.write? new path = some v')
    (hpath : v.location? path = some loc)
    (hlocs : qs.map v.location? = locs.map some) (hfar : ∀ l ∈ locs, loc <+: l → loc = l) :
    qs.map v'.location? = locs.map some := by
  rw [← hlocs]
  refine List.map_congr_left fun q hq => ?_
  have hmem : v.location? q ∈ locs.map some := hlocs ▸ List.mem_map_of_mem hq
  obtain ⟨l, hl, he⟩ := List.mem_map.mp hmem
  rw [← he]
  exact location?_write h hpath he.symm fun hprefix => (hfar l hl hprefix).symm

end Value

namespace Document

open Value

variable {d d' : Document} {v : Value} {paths : List Path} {locs : List (List Spot)}

/-- Writes leave locations that are not within theirs. -/
theorem locations_writes (h : Writes v paths d d')
    (hlocs : paths.map d.value.location? = locs.map some) (hsep : Separate locs) {qs : List Path}
    {others : List (List Spot)} (hothers : qs.map d.value.location? = others.map some)
    (hfar : ∀ l ∈ locs, ∀ m ∈ others, l <+: m → l = m) :
    qs.map d'.value.location? = others.map some := by
  induction h generalizing locs with
  | nil d => exact hothers
  | cons h hrest ih =>
    have hwrite := value_write? h
    cases locs with
    | nil => cases hlocs
    | cons loc locs =>
      obtain ⟨hloc, hlocs⟩ := List.cons.inj hlocs
      refine ih ?_ hsep.tail ?_ fun l hl => hfar l (List.mem_cons_of_mem _ hl)
      · exact locations_write? hwrite hloc hlocs fun l hl =>
          hsep loc List.mem_cons_self l (List.mem_cons_of_mem _ hl)
      · exact locations_write? hwrite hloc hothers (hfar loc List.mem_cons_self)

/-- Writes at separate locations replace what is at these locations. -/
theorem value_writes (h : Writes v paths d d') (hd : d.value.Distinct) (hv : v.Distinct)
    (hlocs : paths.map d.value.location? = locs.map some) (hsep : Separate locs) :
    d'.value = d.value.replaceWhere (fun l => decide (l ∈ locs)) v := by
  induction h generalizing locs with
  | nil d =>
    cases locs with
    | nil => exact (replaceWhere_nowhere d.value (fun _ => rfl) v).symm
    | cons loc locs => cases hlocs
  | cons h hrest ih =>
    have hwrite := value_write? h
    cases locs with
    | nil => cases hlocs
    | cons loc locs =>
      obtain ⟨hloc, hlocs⟩ := List.cons.inj hlocs
      have hafter := locations_write? hwrite hloc hlocs fun l hl =>
        hsep loc List.mem_cons_self l (List.mem_cons_of_mem _ hl)
      have houtside : Outside (fun l => decide (l = loc)) fun l => decide (l ∈ locs) := by
        intro l more hl hmore
        obtain rfl := of_decide_eq_true hl
        have he := hsep l List.mem_cons_self (l ++ more)
          (List.mem_cons_of_mem _ (of_decide_eq_true hmore)) (List.prefix_append l more)
        exact List.self_eq_append_right.mp he
      rw [ih (hd.write? stable_keysDiffer hv hwrite) hafter hsep.tail,
        eq_replaceWhere_of_write? hd hwrite hloc, replaceWhere_replaceWhere _ houtside]
      congr 1
      funext l
      simp only [List.mem_cons, Bool.decide_or]

/-- After writes at separate locations, each of their paths leads to the new value. -/
theorem walk?_writes (h : Writes v paths d d') (hd : d.value.Distinct) (hv : v.Distinct)
    (hlocs : paths.map d.value.location? = locs.map some) (hsep : Separate locs) {path : Path}
    (hpath : path ∈ paths) : d'.value.walk? path = some v := by
  have hmem : d.value.location? path ∈ locs.map some := hlocs ▸ List.mem_map_of_mem hpath
  obtain ⟨loc, hloc, he⟩ := List.mem_map.mp hmem
  have hbefore : [path].map d.value.location? = [loc].map some := by
    rw [List.map_singleton, ← he]
    rfl
  have hafter := locations_writes h hlocs hsep hbefore fun l hl m hm =>
    List.mem_singleton.mp hm ▸ hsep l hl loc hloc
  obtain ⟨w, hw⟩ := exists_walk?_of_location? he.symm
  rw [walk?_eq_atLocation? he.symm] at hw
  have hfirst : ∀ l, l <+: loc → decide (l ∈ locs) = true → l = loc := fun l hprefix hl =>
    hsep l (of_decide_eq_true hl) loc hloc hprefix
  rw [walk?_eq_atLocation? (List.cons.inj hafter).1, value_writes h hd hv hlocs hsep,
    atLocation?_replaceWhere hfirst, hw, Option.map_some]
  exact congrArg some (replaceWhere_self (by simpa using hloc) w v)

/-- Writes of elements leave their sequence in place, with its length. -/
theorem walk?_front_writes (h : Writes v paths d d') {front : Path} {items : List Value}
    (hfront : d.value.walk? front = some (.sequence items))
    (hpaths : ∀ path ∈ paths, ∃ last, path = front ++ [last]) :
    ∃ items', d'.value.walk? front = some (.sequence items') ∧ items'.length = items.length := by
  induction h generalizing items with
  | nil d => exact ⟨items, hfront, rfl⟩
  | cons h hrest ih =>
    obtain ⟨last, rfl⟩ := hpaths _ List.mem_cons_self
    obtain ⟨parent, spot, hparent, -, hafter⟩ := walk?_front_write? (value_write? h)
    obtain rfl : .sequence items = parent := Option.some.inj (hfront.symm.trans hparent)
    have hothers := fun path hpath => hpaths path (List.mem_cons_of_mem _ hpath)
    cases spot with
    | key name => exact ih hafter hothers
    | place p =>
      obtain ⟨items', hitems, hlength⟩ := ih hafter hothers
      exact ⟨items', hitems, hlength.trans List.length_set⟩

end Document

/-! ## The places of an address -/

namespace Value

/-- The elements that a slice selects have separate locations, no two of them the same. -/
theorem exists_locations_of_slice {v : Value} {front : Path} {items : List Value} {s : Slice}
    {targets : List Target} (hfront : ∀ s ∈ front, s.isSlice = false)
    (hwalk : v.walk? front = some (.sequence items)) (hlength : items.length < 9223372036854775808)
    (h : (sequence items).selected? s front = some targets) :
    ∃ locs, locs.Nodup ∧ Separate locs ∧
      (targets.map Target.path).map v.location? = locs.map some := by
  obtain ⟨places, hplaces, hpaths⟩ := map_path_selected? h
  obtain ⟨loc, hloc, -⟩ := exists_location? hfront hwalk
  refine ⟨(places.filter fun p => decide (p < items.length)).map fun p => loc ++ [.place p],
    nodup_places loc ((Slice.nodup_places? hplaces).filter _), separate_places loc _, ?_⟩
  rw [hpaths, List.map_map, List.map_map]
  refine List.map_congr_left fun p hp => ?_
  have hlt : p < items.length := of_decide_eq_true (List.mem_filter.mp hp).2
  show v.location? (front ++ [.index (Int64.ofInt p)]) = some (loc ++ [.place p])
  rw [location?_append, hloc, hwalk, Option.bind_some, Option.bind_some]
  simp only [location?, spot?, Position.within?_ofInt hlt hlength, Option.map_some,
    Option.bind_some, atSpot?, List.getElem?_eq_getElem hlt]

/-- The places that an address names have separate locations, no two of them the same, if there is
no slice on their paths. -/
theorem exists_locations {v : Value} (hv : v.Sized) {a : Address} {context : Path}
    {targets : List Target} (h : v.locate? a context = some targets) (hne : targets ≠ [])
    (hpaths : ∀ path ∈ targets.map Target.path, ∀ s ∈ path, s.isSlice = false) :
    ∃ locs, locs.Nodup ∧ Separate locs ∧
      (targets.map Target.path).map v.location? = locs.map some := by
  rcases locate?_cases h with ⟨-, kind, hkind, rfl⟩ | ⟨-, s, items, -, hwalk, hselected⟩
  · obtain ⟨w, hw, -⟩ := Option.map_eq_some_iff.mp hkind
    obtain ⟨loc, hloc, -⟩ := exists_location? (hpaths _ (List.mem_singleton_self _)) hw
    exact ⟨[loc], List.pairwise_singleton _ loc, separate_singleton loc,
      congrArg (fun found => [found]) hloc⟩
  · obtain ⟨t, ht⟩ := List.exists_mem_of_ne_nil targets hne
    obtain ⟨-, p, item, -, -, rfl⟩ := of_mem_selected? hselected ht
    have hfront : ∀ s ∈ (a.fullPath context).dropLast, s.isSlice = false := fun s hs =>
      hpaths _ (List.mem_map_of_mem ht) s (List.mem_append_left _ hs)
    have hsized : (sequence items).Sized := hv.walk? hwalk
    exact exists_locations_of_slice hfront hwalk hsized.1 hselected

end Value

namespace Document

open Value

variable {d d' : Document} {v : Value}

/-- After writes at the places that an address names it names the same places. -/
theorem map_path_locate?_writes {a : Address} {context : Path} {targets : List Target}
    (hlocate : d.value.locate? a context = some targets)
    (h : Writes v (targets.map Target.path) d d') :
    ∃ after, d'.value.locate? a context = some after ∧
      after.map Target.path = targets.map Target.path := by
  rcases locate?_cases hlocate with ⟨ha, kind, hkind, rfl⟩ | ⟨ha, s, items, hs, hwalk, hselected⟩
  · cases h with
    | cons h hrest =>
      cases hrest
      refine ⟨[⟨a.fullPath context, v.kind⟩], ?_, rfl⟩
      rw [locate?_of_not_slice ha, kindAt?, walk?_write_self (value_write? h)]
      rfl
  · have helements : ∀ path ∈ targets.map Target.path,
        ∃ last, path = (a.fullPath context).dropLast ++ [last] := by
      intro path hpath
      obtain ⟨t, ht, rfl⟩ := List.mem_map.mp hpath
      obtain ⟨-, p, item, -, -, rfl⟩ := of_mem_selected? hselected ht
      exact ⟨_, rfl⟩
    obtain ⟨items', hafter, hlength⟩ := walk?_front_writes h hwalk helements
    obtain ⟨places, hplaces, hpaths⟩ := map_path_selected? hselected
    have hselected' : ∃ after, (sequence items').selected? s (a.fullPath context).dropLast =
        some after := by
      rw [selected?, hlength, hplaces]
      exact ⟨_, rfl⟩
    obtain ⟨after, hselected'⟩ := hselected'
    refine ⟨after, ?_, ?_⟩
    · rw [locate?_of_slice hs, hafter, Option.bind_some, hselected']
    · obtain ⟨places', hplaces', hpaths'⟩ := map_path_selected? hselected'
      rw [hlength, hplaces] at hplaces'
      rw [hpaths, hpaths', hlength, Option.some.inj hplaces']

end Document

end LiveDocument
