import LiveDocument.Proofs.Document.Faithful
import LiveDocument.Proofs.Reference.Agreement
import LiveDocument.Proofs.Reference.Parts
import LiveDocument.Proofs.Tree.Selection

/-!
# Reading a part of an expanded document

A handle is read with its own address active, the whole document with none. This makes no difference
when the whole document stands for a value: an address that leads back to itself would be a cycle of
the whole document as well. So every handle reads the part of the expanded document that its path
leads to, in whatever order handles are read, since reading returns the document.

* `Reading`: a document that stands for a value and whose references can be looked up.
* `Reading.of_parsedValue`, `Reading.of_root_parsedValue`: reading the whole document shows that.
* `Reading.parsedValue`: what a handle reads.
* `Reading.query`: the handles that a text query finds are read in this way.
-/

namespace LiveDocument

open Reference

namespace Document

/-- The texts that reading a document asks for: that of the root, those that its references name and
those that a text query asks for. -/
def readTexts (d : Document) (q : String) : List String :=
  "" :: nodes d.delimiter d.value ++ d.asked (d.addressOf (.text q)) []

/-- The document stands for a value, and no lookup of a given text finds anything but what it asks
for. -/
structure Reading (T : String → Prop) (env : Environment) (d : Document) (V : Value) : Prop where
  settled : Settled T d
  apart : d.settings.useCache = true → Apart T
  named : ∀ a ∈ nodes d.delimiter d.value, T a
  expands : Expands env d.value d.delimiter d.value V

/-- A valid handle whose path resolves. -/
structure Readable (T : String → Prop) (d : Document) (h : Handle) : Prop where
  has : d.Has h
  valid : d.isValid h = true
  resolves : Resolves T d h.path

variable {T : String → Prop} {env : Environment} {d d' : Document} {V : Value}

/-! ## Handles that are read -/

theorem Readable.of_returned {h : Handle} (hh : Readable T d h) (hd : d.Sound)
    (hr : Returned d d') : Readable T d' h where
  has := hh.has.of_follows hr.follows
  valid := hr.isValid hd hh.has hh.valid
  resolves := hh.resolves.congr hr.value hr.follows.settings

theorem Reading.congr (hr : Reading T env d V) (hs : Settled T d') (hvalue : d'.value = d.value)
    (hsettings : d'.settings = d.settings) : Reading T env d' V := by
  have hdelimiter : d'.delimiter = d.delimiter := congrArg Settings.delimiter hsettings
  refine ⟨hs, ?_, ?_, ?_⟩
  · rw [hsettings]
    exact hr.apart
  · rw [hdelimiter, hvalue]
    exact hr.named
  · rw [hdelimiter, hvalue]
    exact hr.expands

theorem Reading.of_returned (hr : Reading T env d V) (h : Returned d d') : Reading T env d' V :=
  hr.congr (hr.settled.of_returned h) h.value h.follows.settings

theorem runOn_parsedValue (env : Environment) (h : Handle) (d : Document) :
    (h.parsedValue env).runOn d =
      if d.isValid h then
        match d.value.walk? h.path with
        | some v => (Reference.expand env [h.path.text d.delimiter] v).runOn d
        | none => (.error (h.invalid d), d)
      else (.error (h.invalid d), d) := by
  unfold Handle.parsedValue
  rw [Live.runOn_bind, Live.runOn_rawValue]
  cases d.isValid h with
  | false => rfl
  | true =>
    cases d.value.walk? h.path with
    | none => rfl
    | some v =>
      simp only [if_true]
      rw [Live.runOn_get_bind]

/-- A part of the document expands to the part of what the document stands for, with its own address
active as well. -/
theorem Reading.expand (hr : Reading T env d V) {path : Path} {v : Value}
    (hv : d.value.walk? path = some v) {active : List String}
    (hactive : ∀ a ∈ active, valueAt? d.value d.delimiter a = some v) :
    ∃ w d', V.walk? path = some w ∧ (Reference.expand env active v).runOn d = (.ok w, d') ∧
      Returned d d' := by
  have hnamed : ∀ q, q ∈ d.value.queries ∨ q ∈ v.queries → T (node d.delimiter q) := by
    intro q hq
    refine hr.named _ (mem_nodes.mpr ⟨q, ?_, rfl⟩)
    exact hq.elim id fun hq => Value.queries_subset_of_walk? hv hq
  obtain ⟨hresult, hreturned⟩ := Live.computes_expand env hr.apart hr.settled hnamed active d
    (Returned.refl hr.settled.sound)
  obtain ⟨w, hw, hexpands⟩ := hr.expands.walk? hv
  have hacyclic : ¬ LeadsToCycle d.value d.delimiter v := hexpands.not_leadsToCycle
  cases hfollow : followAll env d.value d.delimiter active v with
  | error e => exact absurd (cycle_of_followAll_error hactive hfollow).2 hacyclic
  | ok u =>
    obtain rfl : w = u := hexpands.unique (expands_of_followAll_ok hfollow)
    refine ⟨w, _, hw, Prod.ext ?_ rfl, hreturned w hfollow⟩
    rw [hresult, hfollow]

/-- A handle reads the part of what the document stands for that its path leads to. -/
theorem Reading.parsedValue (hr : Reading T env d V) {h : Handle} (hh : Readable T d h) :
    ∃ w d', V.walk? h.path = some w ∧ (h.parsedValue env).runOn d = (.ok w, d') ∧
      Returned d d' := by
  obtain ⟨v, hv⟩ := hh.resolves.value
  have hown : valueAt? d.value d.delimiter (h.path.text d.delimiter) = some v := by
    have hback := hh.resolves.readsBack
    rw [Path.ReadsBack] at hback
    rw [valueAt?, hback, hv]
  rw [runOn_parsedValue, if_pos hh.valid, hv]
  exact hr.expand hv fun a ha => by rw [List.mem_singleton.mp ha, hown]

/-! ## Reading the whole document -/

/-- Looking the root up gives a handle that can be read. -/
theorem Settled.root (hs : Settled T d) (hT : d.settings.useCache = true → Apart T) (htext : T "") :
    Settled T d.root.2 ∧ d.root.2.value = d.value ∧ d.root.2.settings = d.settings ∧
      d.root.1.path = [] ∧ Readable T d.root.2 d.root.1 := by
  have hresolves : Resolves T d [] := ⟨Path.readsBack_nil d.delimiter, htext, d.value, rfl⟩
  obtain ⟨hsettled, hpath, hvalid⟩ := hs.obtain hresolves d.value.kind hT
  obtain ⟨hfollows, hhas⟩ := follows_obtain hs.sound [] d.value.kind d.settings.useCache
  have hvalue : d.root.2.value = d.value := value_obtain _ _ _ _
  refine ⟨hsettled, hvalue, hfollows.settings, hpath, hhas, hvalid, ?_⟩
  rw [show d.root.1.path = [] from hpath]
  exact hresolves.congr hvalue hfollows.settings

section

variable (hs : Settled T d) (hT : d.settings.useCache = true → Apart T)
  (hnamed : ∀ a ∈ nodes d.delimiter d.value, T a)

include hs hT hnamed

/-- If expanding the whole document gives a value, it stands for this value. -/
theorem Reading.of_expand {active : List String}
    (h : ((Reference.expand env active d.value).runOn d).1 = .ok V) : Reading T env d V := by
  have hqueries : ∀ q, q ∈ d.value.queries ∨ q ∈ d.value.queries → T (node d.delimiter q) :=
    fun q hq => hnamed _ (mem_nodes.mpr ⟨q, hq.elim id id, rfl⟩)
  obtain ⟨hresult, -⟩ :=
    Live.computes_expand env hT hs hqueries active d (Returned.refl hs.sound)
  rw [h] at hresult
  exact ⟨hs, hT, hnamed, expands_of_followAll_ok hresult.symm⟩

theorem Reading.of_parsedValue (h : ((Document.parsedValue env).runOn d).1 = .ok V) :
    Reading T env d V := by
  rw [Document.parsedValue, Live.runOn_get_bind] at h
  exact .of_expand hs hT hnamed h

theorem Reading.of_root_parsedValue (htext : T "")
    (h : ((d.root.1.parsedValue env).runOn d.root.2).1 = .ok V) : Reading T env d V := by
  obtain ⟨hsettled, hvalue, hsettings, hpath, hread⟩ := hs.root hT htext
  have hdelimiter : d.root.2.delimiter = d.delimiter := congrArg Settings.delimiter hsettings
  rw [runOn_parsedValue, if_pos hread.valid, hpath] at h
  have hroot : Reading T env d.root.2 V := by
    refine .of_expand hsettled ?_ ?_ h
    · rwa [hsettings]
    · rwa [hdelimiter, hvalue]
  exact hroot.congr hs hvalue.symm hsettings.symm

end

/-! ## Reading what a text query names -/

theorem toList_delimiter (hdelimiter : d.settings.delimiter = "/") :
    d.delimiter.toList = ['/'] := by
  rw [Document.delimiter, hdelimiter]
  rfl

/-- The places that a text query names resolve. -/
theorem resolves_of_mem_locate? (hdelimiter : d.settings.delimiter = "/") {q : String}
    (htexts : ∀ x ∈ d.asked (d.addressOf (.text q)) [], T x) {t : Target}
    (ht : t ∈ (d.value.locate? (d.addressOf (.text q)) []).getD []) : Resolves T d t.path := by
  have hchars := toList_delimiter hdelimiter
  have hspelled : (d.addressOf (.text q)).delimiter = d.delimiter := Address.delimiter_parse _ _
  cases hl : d.value.locate? (d.addressOf (.text q)) [] with
  | none =>
    rw [hl] at ht
    cases ht
  | some targets =>
    rw [hl] at ht
    have hback : t.path.ReadsBack d.delimiter :=
      Address.readsBack_of_mem_locate? (by decide) (by decide) (by decide) hchars hl ht
    rcases Value.of_mem_locate? hl ht with ⟨hslice, hpath, hkind⟩ |
      ⟨hslice, items, p, item, hwalk, hitem, rfl⟩
    · obtain ⟨v, hv, -⟩ := Option.map_eq_some_iff.mp hkind
      refine ⟨hback, htexts _ ?_, v, hv⟩
      rw [asked, hslice, hpath, ← hspelled]
      exact List.mem_singleton_self _
    · have hlt := (List.getElem?_eq_some_iff.mp hitem).1
      obtain ⟨p', hp'⟩ := Option.isSome_iff_exists.mp (Position.isSome_within?_ofInt hlt)
      have hlt' : p' < items.length := Position.lt_of_within? hp'
      refine ⟨hback, htexts _ ?_, items[p'], ?_⟩
      · rw [asked, hslice, hl, ← hspelled]
        exact List.mem_map_of_mem ht
      · rw [Value.walk?_append, hwalk, Option.bind_some]
        simp only [Value.walk?, Value.step?, hp', Option.bind_some,
          List.getElem?_eq_getElem hlt']

/-- The handles that a text query finds can be read, and they stand at the places that it names. -/
theorem Reading.query (hr : Reading T env d V) (hdelimiter : d.settings.delimiter = "/")
    {q : String} {useCache : Bool} (hT : useCache = true → Apart T)
    (htexts : ∀ x ∈ d.asked (d.addressOf (.text q)) [], T x) :
    Reading T env (d.queryWith (.text q) useCache).2 V ∧
      (∀ h ∈ (d.queryWith (.text q) useCache).1,
        Readable T (d.queryWith (.text q) useCache).2 h) ∧
      (d.queryWith (.text q) useCache).1.map Handle.path =
        ((d.value.locate? (d.addressOf (.text q)) []).getD []).map Target.path := by
  have hd : d.Sound := hr.settled.sound
  have hchars := toList_delimiter hdelimiter
  have htargets : ∀ t ∈ (d.value.locate? (d.addressOf (.text q)) []).getD [],
      Resolves T d t.path := fun t ht => resolves_of_mem_locate? hdelimiter htexts ht
  obtain ⟨hlegible, hne⟩ :=
    Address.legible_parse_text (by decide) (by decide) (by decide) hchars q
  have hwhole : (d.addressOf (.text q)).endsWithSlice = false →
      ((d.addressOf (.text q)).fullPath []).ReadsBack d.delimiter ∧
        T ((d.addressOf (.text q)).canonical []) := by
    intro hslice
    refine ⟨?_, htexts _ ?_⟩
    · rw [Address.fullPath_nil]
      exact hlegible.readsBack hchars hne
    · rw [asked, hslice]
      exact List.mem_singleton_self _
  obtain ⟨hsettled, hpaths⟩ :=
    hr.settled.resolve (Address.delimiter_parse _ _) hT htargets hwhole
  obtain ⟨hfollows, hhas⟩ := follows_resolve hd (d.addressOf (.text q)) [] useCache
  have hvalue : (d.queryWith (.text q) useCache).2.value = d.value := value_resolve _ _ _ _
  refine ⟨hr.congr hsettled hvalue hfollows.settings, fun h hh => ⟨hhas h hh, ?_, ?_⟩, hpaths⟩
  · have hfound := found_resolve hd (d.addressOf (.text q)) [] useCache h hh
    exact (hfound.has.isValid_iff hfollows.sound).mpr hfound.valid
  · obtain ⟨t, ht, hpath⟩ := List.mem_map.mp (hpaths ▸ List.mem_map_of_mem hh)
    rw [← hpath]
    exact (htargets t ht).congr hvalue hfollows.settings

/-- Places in order at which the elements of a sequence of the document are, and the elements of the
sequence that it stands for. -/
theorem Reading.walk?_of_places (hr : Reading T env d V) {path : Path} {items ws : List Value}
    {places : List Path} (hwalk : d.value.walk? path = some (.sequence items))
    (hplaces : places.map d.value.walk? = items.map some)
    (hws : places.map V.walk? = ws.map some) : V.walk? path = some (.sequence ws) := by
  obtain ⟨w, hw, hexpands⟩ := hr.expands.walk? hwalk
  cases hexpands with
  | scalar hcontainer _ => cases hcontainer
  | @sequence _ items' hlength hitems =>
    have hlengthItems : places.length = items.length := by simpa using congrArg List.length hplaces
    have hlengthWs : places.length = ws.length := by simpa using congrArg List.length hws
    have hsame : items' = ws := by
      refine List.ext_getElem (by omega) fun i hi hi' => ?_
      have hstored := congrArg (·[i]?) hplaces
      have hread := congrArg (·[i]?) hws
      simp only [List.getElem?_map, List.getElem?_eq_getElem (show i < places.length by omega),
        List.getElem?_eq_getElem (show i < items.length by omega), List.getElem?_eq_getElem hi',
        Option.map_some, Option.some.injEq] at hstored hread
      obtain ⟨u, hpart, hstands⟩ := hr.expands.walk? hstored
      obtain rfl : u = ws[i] := Option.some.inj (hpart.symm.trans hread)
      exact (hitems i _ _ (List.getElem?_eq_getElem (by omega))
        (List.getElem?_eq_getElem hi)).unique hstands
    rw [hw, hsame]

end Document

end LiveDocument
