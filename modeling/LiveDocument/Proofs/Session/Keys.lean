import LiveDocument.Proofs.Address.Numerals
import LiveDocument.Proofs.Document.Laws
import LiveDocument.Proofs.Session.Setting
import LiveDocument.Proofs.Tree.Entry

/-!
# Numerals as keys of a mapping

At a mapping, a query that is one segment other than a slice is about one key: what it finds, sets
and deletes is the entry with this key, and everything else stays. For a numeral this is the key
which is spelled like the place that the numeral is read as, so the numeral reaches the entry that
is spelled like itself exactly if it has no needless characters or is no place at all.

* `Concerns`: a query is about one key of a mapping. `concerns_of_keyOf?`: a query of one segment.
  `Concerns.key_unique`: there is no other key that it is about.
* `numeral_concerns_itself_iff`: numerals, in every state that a session reaches.
-/

namespace LiveDocument

namespace Session

open Document Live

/-! ## Queries for one key -/

/-- At a mapping, a query is about one key: it finds what the mapping has under the key, if
anything; setting it puts a value under the key, in the old place or at the end; deleting it takes
the entry with the key out, or fails if there is none. Nothing else in the value changes. -/
structure Concerns (d : Document) (h : Handle) (entries : List (String × Value)) (q : Query)
    (key : String) : Prop where
  query : ∃ found d', (h.queryWith q false).runOn d = (.ok found, d') ∧
    found.map (fun k => (k.rawValue.runOn d').1) = (Entries.get? key entries).toList.map .ok
  set : ∀ v, outcome (h.set q v) d =
    (.ok (), d.value.replaceAt h.path (.mapping (Entries.put key v entries)))
  delete : ∀ old, Entries.get? key entries = some old → outcome (h.deleteAt q) d =
    (.ok old, d.value.replaceAt h.path (.mapping (entries.filter fun e => decide (e.1 ≠ key))))
  absent : Entries.get? key entries = none → outcome (h.deleteAt q) d =
    (.error (.writeTargetMissing (((d.addressOf q).fullPath h.path).address d.delimiter)), d.value)

section

variable {d : Document} {h : Handle} {entries : List (String × Value)} {q : Query} {s : Segment}
  {key : String}

/-- What is found past the cache under one segment of a mapping. -/
theorem exists_queryWith (hd : d.Sound) (hvalid : d.isValid h = true)
    (ha : d.addressOf q = ⟨[s], false, d.delimiter⟩) (hs : s.isSlice = false) :
    ∃ found d', (h.queryWith q false).runOn d = (.ok found, d') ∧
      found.map (fun k => (k.rawValue.runOn d').1) =
        (d.value.walk? (h.path ++ [s])).toList.map .ok := by
  have hlocated : d.located (d.addressOf q) h.path =
      ((d.value.walk? (h.path ++ [s])).map fun w => (⟨h.path ++ [s], w.kind⟩ : Target)).toList := by
    rw [ha, located, Value.locate?_of_not_slice (a := ⟨[s], false, d.delimiter⟩) hs]
    show (Option.map _ (d.value.kindAt? (h.path ++ [s]))).getD [] = _
    rw [Value.kindAt?]
    cases d.value.walk? (h.path ++ [s]) <;> rfl
  refine ⟨_, _, by rw [runOn_queryWith, if_pos hvalid, runOn_resolve], ?_⟩
  cases hw : d.value.walk? (h.path ++ [s]) with
  | none =>
    rw [hw] at hlocated
    rw [resolve_uncached, hlocated]
    rfl
  | some w =>
    rw [hw] at hlocated
    have hat : ∀ path ∈ (d.located (d.addressOf q) h.path).map Target.path,
        d.value.walk? path = some w := by
      intro path hpath
      rw [hlocated] at hpath
      rw [List.mem_singleton.mp hpath, hw]
    have hreads := rawValue_of_resolve_uncached hd hat
    have hlength : (d.resolve (d.addressOf q) h.path false).1.length = 1 := by
      rw [resolve_uncached, length_obtainAll, hlocated]
      rfl
    obtain ⟨k, hk⟩ := List.length_eq_one_iff.mp hlength
    rw [hk] at hreads ⊢
    exact congrArg (fun x => [x]) (hreads k (List.mem_singleton_self k))

/-- A query that is read as one segment is about the key that the segment names. -/
theorem concerns_of_keyOf? (hd : d.Sound) (hdistinct : d.value.Distinct)
    (hvalid : d.isValid h = true) (hpath : ∀ s ∈ h.path, s.isSlice = false)
    (hw : d.value.walk? h.path = some (.mapping entries))
    (ha : d.addressOf q = ⟨[s], false, d.delimiter⟩) (hkey : Value.keyOf? s = some key) :
    Concerns d h entries q key := by
  have hs := Value.isSlice_of_keyOf? hkey
  have hfull : (d.addressOf q).fullPath h.path = h.path ++ [s] := by rw [ha]; rfl
  have hends : (d.addressOf q).endsWithSlice = false := by rw [ha]; exact hs
  have hwalk := Value.walk?_concat_key hw hkey
  have hset : ∀ v, (h.set q v).runOn d = (update (d.addressOf q) h.path v).runOn d := by
    intro v
    unfold Handle.set
    rw [runOn_guarded, if_pos hvalid, runOn_get_bind]
  have hdelete : (h.deleteAt q).runOn d = (remove (h.path ++ [s]) d.delimiter).runOn d := by
    unfold Handle.deleteAt
    rw [runOn_guarded, if_pos hvalid, runOn_get_bind, hfull]
  constructor
  case query =>
    rw [← hwalk]
    exact exists_queryWith hd hvalid ha hs
  case set =>
    intro v
    rw [outcome, hset]
    exact outcome_update hends hfull (Value.write?_concat_key hdistinct hpath hw hkey v)
  case delete =>
    intro old hget
    rw [outcome, hdelete]
    exact outcome_remove (Value.remove?_concat_key hdistinct hpath hw hkey hget)
  case absent =>
    intro hget
    have hnone : d.value.remove? (h.path ++ [s]) = none := by
      cases hr : d.value.remove? (h.path ++ [s]) with
      | none => rfl
      | some found =>
        have hold := Value.walk?_of_remove? hr
        rw [hwalk, hget] at hold
        cases hold
    rw [outcome, hdelete, hfull]
    exact outcome_remove_of_none hnone

/-- A query is about one key at most: what is set shows under which. -/
theorem Concerns.key_unique {other : String} (hdistinct : d.value.Distinct)
    (hpath : ∀ s ∈ h.path, s.isSlice = false)
    (hw : d.value.walk? h.path = some (.mapping entries)) (hkey : Concerns d h entries q key)
    (hother : Concerns d h entries q other) : key = other := by
  have hput : ∀ v, Entries.put key v entries = Entries.put other v entries := by
    intro v
    have hsame : d.value.replaceAt h.path (.mapping (Entries.put key v entries)) =
        d.value.replaceAt h.path (.mapping (Entries.put other v entries)) :=
      congrArg Prod.snd ((hkey.set v).symm.trans (hother.set v))
    have hwalk := Value.walk?_replaceAt_self hdistinct hpath hw
    have hmappings := hwalk (.mapping (Entries.put key v entries))
    rw [hsame, hwalk] at hmappings
    exact (Value.mapping.inj (Option.some.inj hmappings)).symm
  refine Classical.byContradiction fun hne => ?_
  have hget : ∀ v, Entries.get? other entries = some v := by
    intro v
    rw [← Entries.get?_put_of_ne hne v, hput v, Entries.get?_put_self]
  cases (hget .null).symm.trans (hget (.boolean true))

end

/-! ## Numerals -/

/-- In every state that a session reaches, a numeral without the delimiter is about one key of a
mapping: it finds, sets and deletes the entry of the place which it is read as, or of the numeral
itself if it is read as none. This is the entry that is spelled like the numeral exactly if the
numeral has neither a leading zero nor a sign at zero, or fits no signed word. -/
theorem numeral_concerns_itself_iff (env : Environment) {value : Value} (hvalue : value.Distinct)
    (settings : Settings) {steps : List Step}
    (hsteps : ∀ step ∈ steps, ∀ v ∈ step.action.brought, v.Distinct) {n : Nat} {d : Document}
    (hd : ((opening env value settings).after steps).document? n = some d)
    (hdelimiter : d.delimiter.toList ≠ []) {h : Handle} (hvalid : d.isValid h = true)
    (hpath : ∀ s ∈ h.path, s.isSlice = false) {entries : List (String × Value)}
    (hw : d.value.walk? h.path = some (.mapping entries)) {k : String}
    (hk : Text.Numeral k.toList) (hfree : ¬ d.delimiter.toList <:+: k.toList) :
    ∃ i, Text.integer? k.toList = some i ∧
      Concerns d h entries (.text k) (Segment.keyNamed k) ∧
        (Concerns d h entries (.text k) k ↔
          Text.shortest k.toList = true ∨ Position.fits i = false) := by
  have hsound := ((sound_after (sound_opening env value settings) steps).document hd).1
  have hdistinct : d.value.Distinct :=
    throughout_after Value.stable_keysDiffer env hvalue settings hsteps n d hd
  have haddress : d.addressOf (.text k) = ⟨[Segment.classify k.toList], false, d.delimiter⟩ :=
    Address.parse_text_of_free hdelimiter hk.ne_nil hk.trim_eq hfree
  have hnamed : Concerns d h entries (.text k) (Segment.keyNamed k) :=
    concerns_of_keyOf? hsound hdistinct hvalid hpath hw haddress
      (Segment.keyOf?_classify hk.notMem_colon)
  obtain ⟨i, hi⟩ := hk.exists_integer?
  refine ⟨i, hi, hnamed, ?_⟩
  rw [← Segment.keyNamed_eq_self_iff hi]
  constructor
  · exact fun hself => hnamed.key_unique hdistinct hpath hw hself
  · intro he
    rwa [he] at hnamed

/-- A mapping with two keys of one number. -/
def numerals : List (String × Value) :=
  [("01", .boolean true), ("1", .null)]

/-- Somebody holds the mapping. -/
def numeralSteps : List Step :=
  [⟨.document (.member (.text "m")), some "x"⟩]

/-- Deleting the key with a leading zero takes the other entry out. -/
theorem numeral_concerns_itself_iff_zero_led :
    ∃ d, ((opening [] (.mapping [("m", .mapping numerals)]) {}).after numeralSteps).document? 0 =
        some d ∧
      ¬ Concerns d ⟨⟨0, 0, 0⟩, [.key "m"]⟩ numerals (.text "01") "01" ∧
        outcome (Handle.deleteAt ⟨⟨0, 0, 0⟩, [.key "m"]⟩ (.text "01")) d =
          (.ok .null, d.value.replaceAt [.key "m"] (.mapping [("01", .boolean true)])) := by
  have hdistinct : (Value.mapping [("m", .mapping numerals)]).Distinct := by
    simp [numerals, Value.Distinct, Value.Throughout, Value.ThroughoutEntries, Value.KeysDiffer,
      Entries.keys]
  have hsteps : ∀ step ∈ numeralSteps, ∀ v ∈ step.action.brought, v.Distinct := by
    simp [numeralSteps, Action.brought, DocumentCall.brought]
  have hd : ((opening [] (.mapping [("m", .mapping numerals)]) {}).after numeralSteps).document? 0 =
    some ((opening [] (.mapping [("m", .mapping numerals)]) {}).after numeralSteps).document := rfl
  have hw : ((opening [] (.mapping [("m", .mapping numerals)]) {}).after
      numeralSteps).document.value.walk? [.key "m"] = some (.mapping numerals) := by rfl
  have hnumeral : Text.Numeral "01".toList := ⟨['0', '1'], .inl rfl, by decide, by decide⟩
  obtain ⟨i, hi, hnamed, hiff⟩ := numeral_concerns_itself_iff [] hdistinct {} hsteps hd
    (by decide +kernel) (h := ⟨⟨0, 0, 0⟩, [.key "m"]⟩) (by decide +kernel) (by decide) hw hnumeral
    (by decide +kernel)
  have hkey : Segment.keyNamed "01" = "1" := by decide +kernel
  refine ⟨_, hd, fun hself => ?_, (hkey ▸ hnamed).delete .null (by rfl)⟩
  rcases hiff.mp hself with hshort | hbeyond
  · cases hshort
  · cases Option.some.inj (hi.symm.trans (show Text.integer? "01".toList = some 1 by decide))
    cases hbeyond

end Session

end LiveDocument
