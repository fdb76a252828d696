import LiveDocument.Proofs.Document.Placement
import LiveDocument.Proofs.Session.Children
import LiveDocument.Proofs.Session.Retyping

/-!
# Setting what a query names

A query that names places is set at exactly these places; one that names none adds one key to one
mapping, or fails. Nothing else in the value changes, and when the query is asked again from the
same place, past the cache, it names the places that were set, all of which read the new value.

* `located`: the places that an address names, none if it does not resolve.
* `value_of_update_some`, `value_of_update_none`: what an update leaves of the value.
* `rawValue_of_resolve_uncached`: what handles of these places read.
* `set_effect`: setting from the root or through a handle, in every state that a session reaches.
-/

namespace LiveDocument

namespace Document

/-- The places that an address names from a context. -/
def located (d : Document) (a : Address) (context : Path) : List Target :=
  (d.value.locate? a context).getD []

variable {d d' : Document} {a : Address} {context : Path} {v : Value}

theorem locate?_of_located (hne : d.located a context ≠ []) :
    d.value.locate? a context = some (d.located a context) := by
  unfold located at hne ⊢
  cases h : d.value.locate? a context with
  | none =>
    rw [h] at hne
    exact absurd rfl hne
  | some targets => rfl

theorem writePaths_of_located (hne : d.located a context ≠ []) :
    Live.writePaths d.value a context = (d.located a context).map Target.path := by
  have hlocate := locate?_of_located hne
  unfold Live.writePaths
  rw [hlocate]
  cases h : d.located a context with
  | nil => exact absurd h hne
  | cons t rest => rfl

theorem writePaths_of_located_eq_nil (h : d.located a context = []) :
    Live.writePaths d.value a context = [a.fullPath context] := by
  unfold located at h
  unfold Live.writePaths
  split
  · rename_i t rest hl
    rw [hl] at h
    cases h
  · rfl

/-! ## Lookups past the cache -/

theorem resolve_uncached (d : Document) (a : Address) (context : Path) :
    d.resolve a context false = d.obtainAll false (d.located a context) := by
  unfold resolve located
  cases d.value.locate? a context <;> rfl

theorem map_path_obtainAll_uncached (d : Document) (targets : List Target) :
    (d.obtainAll false targets).1.map Handle.path = targets.map Target.path := by
  induction targets generalizing d with
  | nil => rfl
  | cons t rest ih => exact congrArg (t.path :: ·) (ih _)

/-! ## What an update leaves -/

/-- An update at places that an address names replaces the values at exactly their locations. -/
theorem value_of_update_some (hd : d.value.Distinct) (hsized : d.value.Sized) (hv : v.Distinct)
    (hne : d.located a context ≠ []) (h : (Live.update a context v).runOn d = (.ok (), d')) :
    (∃ locs : List (List Spot), locs.Nodup ∧ Value.Separate locs ∧
        ((d.located a context).map Target.path).map d.value.location? = locs.map some ∧
          d'.value = d.value.replaceWhere (fun l => decide (l ∈ locs)) v) ∧
      (d'.located a context).map Target.path = (d.located a context).map Target.path ∧
        ∀ path ∈ (d.located a context).map Target.path, d'.value.walk? path = some v := by
  have hlocate := locate?_of_located hne
  have hwrites := Live.writes_of_update h
  rw [writePaths_of_located hne] at hwrites
  obtain ⟨locs, hnodup, hsep, hlocs⟩ := Value.exists_locations hsized hlocate hne
    fun path hpath s hs => isSlice_of_writes hwrites hpath hs
  obtain ⟨after, hafter, hpaths⟩ := map_path_locate?_writes hlocate hwrites
  refine ⟨⟨locs, hnodup, hsep, hlocs, value_writes hwrites hd hv hlocs hsep⟩, ?_, ?_⟩
  · rw [located, hafter, Option.getD_some, hpaths]
  · exact fun path hpath => walk?_writes hwrites hd hv hlocs hsep hpath

/-- An address that names nothing and has no slice on its full path does not select and leads
nowhere. -/
theorem walk?_of_located_eq_nil (hnone : d.located a context = [])
    (hslice : ∀ s ∈ a.fullPath context, s.isSlice = false) :
    a.endsWithSlice = false ∧ d.value.walk? (a.fullPath context) = none := by
  have hends : a.endsWithSlice = false := by
    refine Bool.eq_false_iff.mpr fun ha => ?_
    obtain ⟨s, hs⟩ := Value.exists_slice_of_endsWithSlice ha
    have hmem : Segment.slice s ∈ a.fullPath context := by
      rw [Value.fullPath_eq]
      exact List.mem_append_right _ (List.mem_of_getLast? hs)
    cases hslice _ hmem
  refine ⟨hends, ?_⟩
  rw [located, Value.locate?_of_not_slice hends, Value.kindAt?] at hnone
  cases hw : d.value.walk? (a.fullPath context) with
  | none => rfl
  | some w =>
    rw [hw] at hnone
    cases hnone

/-- An update at an address that names nothing adds a key to one mapping. -/
theorem value_of_update_none (hd : d.value.Distinct) (hnone : d.located a context = [])
    (h : (Live.update a context v).runOn d = (.ok (), d')) :
    (∃ loc entries key, d.value.atLocation? loc = some (.mapping entries) ∧
        key ∉ Entries.keys entries ∧
          d'.value = d.value.replaceWhere (fun l => decide (l = loc))
            (.mapping (entries ++ [(key, v)])) ∧
            d'.value.location? (a.fullPath context) = some (loc ++ [.key key])) ∧
      (d'.located a context).map Target.path = [a.fullPath context] ∧
        d'.value.walk? (a.fullPath context) = some v := by
  have hwrites := Live.writes_of_update h
  rw [writePaths_of_located_eq_nil hnone] at hwrites
  cases hwrites with
  | cons hwrite hrest =>
    cases hrest
    have hvalue := value_write? hwrite
    obtain ⟨hends, hwalk⟩ :=
      walk?_of_located_eq_nil hnone fun s hs => Value.isSlice_of_write? hvalue hs
    have hself := Value.walk?_write_self hvalue
    refine ⟨Value.exists_add_of_write? hd hvalue hwalk, ?_, hself⟩
    rw [located, Value.locate?_of_not_slice hends, Value.kindAt?, hself]
    rfl

/-- Handles that are looked up past the cache read what their places lead to. -/
theorem rawValue_of_resolve_uncached (hd : d.Sound)
    (h : ∀ path ∈ (d.located a context).map Target.path, d.value.walk? path = some v) :
    ∀ k ∈ (d.resolve a context false).1,
      (k.rawValue.runOn (d.resolve a context false).2).1 = .ok v := by
  intro k hk
  have hfound := found_resolve hd a context false k hk
  have hsound := (follows_resolve hd a context false).1.sound
  have hpath : k.path ∈ (d.located a context).map Target.path := by
    rw [← map_path_obtainAll_uncached d, ← resolve_uncached]
    exact List.mem_map_of_mem hk
  rw [Live.rawValue_eq_ok_iff, value_resolve]
  exact ⟨(hfound.has.isValid_iff hsound).mpr hfound.valid, h k.path hpath⟩

end Document

namespace Session

open Document

/-- Sets what a query names from the root or, if there is one, from a handle. -/
def setFrom (origin : Option Handle) (q : Query) (v : Value) : Live Unit :=
  match origin with
  | none => Document.set q v
  | some h => h.set q v

/-- The place that a query is asked from. -/
def contextOf (origin : Option Handle) : Path :=
  (origin.map Handle.path).getD []

theorem update_of_setFrom {origin : Option Handle} {q : Query} {v : Value} {d d' : Document}
    (h : (setFrom origin q v).runOn d = (.ok (), d')) :
    (Live.update (d.addressOf q) (contextOf origin) v).runOn d = (.ok (), d') := by
  cases origin with
  | none =>
    unfold setFrom Document.set at h
    rwa [Live.runOn_get_bind] at h
  | some k =>
    unfold setFrom Handle.set at h
    have hupdate := Live.of_guarded_ok h
    rwa [Live.runOn_get_bind] at hupdate

/-- In every state that a session reaches, a query that is set from the root or from a valid handle
replaces the values at exactly the places that it names; if it names none, one mapping has one key
more, at its end. Asked again past the cache, the query names the places that it named before, or
the new key, and all of them read the value that was set. -/
theorem set_effect (env : Environment) {value : Value} (hvalue : value.Distinct)
    (settings : Settings) {steps : List Step}
    (hsteps : ∀ step ∈ steps, ∀ v ∈ step.action.brought, v.Distinct) {n : Nat} {d : Document}
    (hd : ((opening env value settings).after steps).document? n = some d)
    (hsized : d.value.Sized) (origin : Option Handle) (q : Query) {v : Value} (hv : v.Distinct)
    {d' : Document} (h : (setFrom origin q v).runOn d = (.ok (), d')) :
    let a := d.addressOf q
    let context := contextOf origin
    let before := d.located a context
    let found := d'.resolve a context false
    (before ≠ [] →
        (∃ locs : List (List Spot), locs.Nodup ∧ Value.Separate locs ∧
          (before.map Target.path).map d.value.location? = locs.map some ∧
            d'.value = d.value.replaceWhere (fun l => decide (l ∈ locs)) v) ∧
          found.1.map Handle.path = before.map Target.path) ∧
      (before = [] →
        (∃ loc entries key, d.value.atLocation? loc = some (.mapping entries) ∧
          key ∉ Entries.keys entries ∧
            d'.value = d.value.replaceWhere (fun l => decide (l = loc))
              (.mapping (entries ++ [(key, v)])) ∧
              d'.value.location? (a.fullPath context) = some (loc ++ [.key key])) ∧
          found.1.map Handle.path = [a.fullPath context]) ∧
        ∀ k ∈ found.1, (k.rawValue.runOn found.2).1 = .ok v := by
  intro a context before found
  have hupdate : (Live.update a context v).runOn d = (.ok (), d') := update_of_setFrom h
  have hdistinct : d.value.Distinct :=
    throughout_after Value.stable_keysDiffer env hvalue settings hsteps n d hd
  have hsound : d'.Sound := by
    have hbefore := ((sound_after (sound_opening env value settings) steps).document hd).1
    have hrefl : Follows false d d := Follows.refl hbefore
    have hfollows := (Live.ensures_update hrefl a context v).1
    rw [hupdate] at hfollows
    exact hfollows.sound
  have hfound : found.1.map Handle.path = (d'.located a context).map Target.path := by
    rw [← map_path_obtainAll_uncached d', ← resolve_uncached]
  by_cases hnone : before = []
  · obtain ⟨hadds, hpaths, hself⟩ := value_of_update_none hdistinct hnone hupdate
    refine ⟨fun hne => absurd hnone hne, fun _ => ⟨hadds, hfound.trans hpaths⟩, ?_⟩
    refine rawValue_of_resolve_uncached hsound fun path hpath => ?_
    rw [hpaths] at hpath
    rw [List.mem_singleton.mp hpath, hself]
  · obtain ⟨hreplaces, hpaths, hself⟩ := value_of_update_some hdistinct hsized hv hnone hupdate
    refine ⟨fun _ => ⟨hreplaces, hfound.trans hpaths⟩, fun hnil => absurd hnil hnone, ?_⟩
    exact rawValue_of_resolve_uncached hsound (hpaths ▸ hself)

/-- A sequence at the end of a sequence. -/
def nested : Value :=
  .mapping [("m", .sequence [.null, .sequence [.null, .boolean false, .null]])]

/-- Somebody watches the inner sequence, by its position from the end. -/
def nestedSteps : List Step :=
  [⟨.document (.member (.text "m/-1")), some "x"⟩]

def inner : Handle :=
  ⟨⟨0, 0, 0⟩, [.key "m", .index (-1)]⟩

/-- Every second element is set. -/
theorem set_effect_slice :
    ∃ d d', ((opening [] nested {}).after nestedSteps).document? 0 = some d ∧
      (setFrom (some inner) (.text "::2") (.boolean true)).runOn d = (.ok (), d') ∧
        (d'.resolve (d.addressOf (.text "::2")) inner.path false).1.length = 2 ∧
          ∀ k ∈ (d'.resolve (d.addressOf (.text "::2")) inner.path false).1,
            (k.rawValue.runOn (d'.resolve (d.addressOf (.text "::2")) inner.path false).2).1 =
              .ok (.boolean true) := by
  have hdistinct : nested.Distinct := by
    simp [nested, Value.Distinct, Value.Throughout, Value.ThroughoutEntries,
      Value.ThroughoutAll, Value.KeysDiffer, Entries.keys]
  have hsteps : ∀ step ∈ nestedSteps, ∀ v ∈ step.action.brought, v.Distinct := by
    simp [nestedSteps, Action.brought, DocumentCall.brought]
  have hd : ((opening [] nested {}).after nestedSteps).document? 0 =
    some ((opening [] nested {}).after nestedSteps).document := rfl
  generalize hdef : ((opening [] nested {}).after nestedSteps).document = d at hd
  have hok : ((setFrom (some inner) (.text "::2") (.boolean true)).runOn d).1 = .ok () := by
    rw [← hdef]
    rfl
  have hlocated : (d.located (d.addressOf (.text "::2")) inner.path).length = 2 := by
    rw [← hdef]
    decide +kernel
  have hsized : d.value.Sized := by
    rw [← hdef]
    decide +kernel
  obtain ⟨hsome, -, hreads⟩ := set_effect [] hdistinct {} hsteps hd hsized (some inner)
    (.text "::2") (v := .boolean true) trivial (Prod.ext hok rfl)
  refine ⟨d, _, hd, Prod.ext hok rfl, ?_, hreads⟩
  have hne : d.located (d.addressOf (.text "::2")) inner.path ≠ [] :=
    List.ne_nil_of_length_pos (by rw [hlocated]; decide)
  have hpaths := congrArg List.length (hsome hne).2
  rw [List.length_map, List.length_map] at hpaths
  exact hpaths.trans hlocated

end Session

end LiveDocument
