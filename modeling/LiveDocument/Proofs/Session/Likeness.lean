import LiveDocument.Proofs.Document.Retyping
import LiveDocument.Proofs.Document.Sight
import LiveDocument.Proofs.Session.Deed

/-!
# Deeds that are alike

Two deeds on documents with one value are alike if they differ at most in their cache flags and in
handles that are seen as the same. Alike deeds are seen to answer the same, leave one value, and end
the validity of handles with the same paths.

* `Deed.Like`: deeds that are alike. `like_documentCall`, `like_handleCall`: calls come down to them.
* `Deed.texts`: the canonical texts that a deed asks for. `Deed.Asks`: they satisfy a condition.
* `Like.value_run`, `Like.answer_run`, `Like.ends_iff`: what alike deeds do.
-/

namespace LiveDocument

namespace Deed

open Document

/-- Deeds that differ at most in their cache flags and in handles that are seen as the same. -/
inductive Like (d e : Document) : Deed → Deed → Prop where
  | tell {r r' : Except Failure (Answer Handle)}
      (h : r.map (Answer.map d.sight) = r'.map (Answer.map e.sight)) : Like d e (tell r) (tell r')
  | all (a : Address) (context : Path) (b b' : Bool) : Like d e (all a context b) (all a context b')
  | first (a : Address) (context : Path) (b b' : Bool) :
      Like d e (first a context b) (first a context b')
  | only (a : Address) (context : Path) (b b' : Bool) :
      Like d e (only a context b) (only a context b')
  | write (paths : List Path) (v : Value) : Like d e (write paths v) (write paths v)
  | remove (path : Path) : Like d e (remove path) (remove path)

/-- The canonical texts that a deed asks for. -/
def texts (d : Document) : Deed → List String
  | all a context _ | first a context _ | only a context _ => d.asked a context
  | _ => []

/-- What the deed looks up is as queries make it, and what it asks for satisfies the condition. -/
def Asks (c : Char) (T : String → Prop) (d : Document) : Deed → Prop
  | all a context _ | first a context _ | only a context _ => Document.Asks c T d a context
  | _ => True

/-! ## What the value decides -/

section

variable {d e : Document}

theorem map_value_write? (d : Document) (path : Path) (v : Value) :
    (d.write? path v).map Document.value = d.value.write? v path := by
  cases hw : d.write? path v with
  | none => exact (Option.map_eq_none_iff.mp hw).symm
  | some d' => exact (value_write? hw).symm

theorem map_value_remove? (d : Document) (path : Path) :
    (d.remove? path).map (fun r => (r.1, r.2.value)) = d.value.remove? path := by
  cases hr : d.remove? path with
  | none => exact (Option.map_eq_none_iff.mp hr).symm
  | some r => exact (value_remove? hr).symm

/-- Writes in documents with one value answer the same and leave one value. -/
theorem runOn_writeAll_congr (hv : d.value = e.value) (delimiter : String) (v : Value)
    (paths : List Path) :
    ((Live.writeAll delimiter v paths).runOn d).1 = ((Live.writeAll delimiter v paths).runOn e).1 ∧
      ((Live.writeAll delimiter v paths).runOn d).2.value =
        ((Live.writeAll delimiter v paths).runOn e).2.value := by
  induction paths generalizing d e with
  | nil => exact ⟨rfl, hv⟩
  | cons path rest ih =>
    have hwrite := map_value_write? d path v
    rw [hv, ← map_value_write? e path v] at hwrite
    unfold Live.writeAll
    rw [Live.runOn_bind, Live.runOn_bind, Live.runOn_write, Live.runOn_write]
    cases hd : d.write? path v with
    | none =>
      rw [hd] at hwrite
      rw [Option.map_eq_none_iff.mp hwrite.symm]
      exact ⟨rfl, hv⟩
    | some d' =>
      rw [hd] at hwrite
      obtain ⟨e', he, hvalue⟩ := Option.map_eq_some_iff.mp hwrite.symm
      rw [he]
      exact ih hvalue.symm

end

/-! ## Alike deeds -/

section

variable {d e : Document} {x y : Deed}

theorem Like.texts_eq (h : Like d e x y) (hv : d.value = e.value) : x.texts d = y.texts e := by
  cases h with
  | tell | write | remove => rfl
  | all | first | only =>
    unfold texts asked
    rw [hv]

theorem Like.value_run (h : Like d e x y) (hv : d.value = e.value)
    (hdelimiter : d.delimiter = e.delimiter) :
    (x.run d).2.value = (y.run e).2.value := by
  cases h with
  | tell => exact hv
  | all a context b b' =>
    show (d.resolve a context b).2.value = (e.resolve a context b').2.value
    rw [value_resolve, value_resolve, hv]
  | first a context b b' =>
    show (d.resolve a context b).2.value = (e.resolve a context b').2.value
    rw [value_resolve, value_resolve, hv]
  | only a context b b' =>
    show (d.resolve a context b).2.value = (e.resolve a context b').2.value
    rw [value_resolve, value_resolve, hv]
  | write paths v =>
    show ((Live.writeAll d.delimiter v paths).runOn d).2.value =
      ((Live.writeAll e.delimiter v paths).runOn e).2.value
    rw [hdelimiter]
    exact (runOn_writeAll_congr hv e.delimiter v paths).2
  | remove path =>
    have hremove := map_value_remove? d path
    rw [hv, ← map_value_remove? e path] at hremove
    simp only [run]
    cases hd : d.remove? path with
    | none =>
      rw [hd] at hremove
      rw [Option.map_eq_none_iff.mp hremove.symm]
      exact hv
    | some r =>
      rw [hd] at hremove
      obtain ⟨r', he, hr⟩ := Option.map_eq_some_iff.mp hremove.symm
      rw [he]
      exact (Prod.mk.inj hr).2.symm

/-- Alike deeds end the validity of handles with the same path. -/
theorem Like.ends_iff (h : Like d e x y) (hv : d.value = e.value) {k l : Handle}
    (hpath : k.path = l.path) : x.Ends d k ↔ y.Ends e l := by
  cases h with
  | remove path =>
    have hremove := map_value_remove? d path
    rw [hv, ← map_value_remove? e path] at hremove
    have hsome := congrArg Option.isSome hremove
    rw [Option.isSome_map, Option.isSome_map] at hsome
    simp only [Ends]
    rw [hpath, hsome]
  | _ => exact Iff.rfl

/-- The first of several handles, seen. -/
theorem map_sight_head? (hs : List Handle) (d : Document) :
    hs.head?.map d.sight = (hs.map d.sight).head? := by
  cases hs <;> rfl

theorem map_firstOr {hs ks : List Handle} (h : hs.map d.sight = ks.map e.sight) (f : Failure) :
    (firstOr f hs).map (Answer.map d.sight) = (firstOr f ks).map (Answer.map e.sight) := by
  cases hs with
  | nil =>
    rw [List.map_nil] at h
    rw [List.map_eq_nil_iff.mp h.symm]
    rfl
  | cons k rest =>
    cases ks with
    | nil => cases h
    | cons l rest' => exact congrArg (fun s => Except.ok (Answer.handle s)) (List.cons.inj h).1

section

variable {c : Char} {T : String → Prop} (hdigit : c.isDigit = false) (hminus : c ≠ '-')
  (hinj : ∀ {x y : String}, T x → T y → Digest.ofText x = Digest.ofText y → x = y)

include hdigit hminus hinj

/-- Alike deeds are seen to answer the same. -/
theorem Like.answer_run (h : Like d e x y) (hv : d.value = e.value)
    (hdelimiter : d.delimiter = e.delimiter) (hf : d.Faithful) (hf' : e.Faithful) (hd : d.Sound)
    (he : e.Sound) (hs : d.Spelled c T) (hs' : e.Spelled c T) (hx : x.Asks c T d)
    (hy : y.Asks c T e) :
    (x.run d).1.map (Answer.map (x.run d).2.sight) =
      (y.run e).1.map (Answer.map (y.run e).2.sight) := by
  cases h with
  | tell h => exact h
  | all a context b b' =>
    have hsights := sights_resolve hdigit hminus hinj hf hd hs hx b
    rw [hv, ← sights_resolve hdigit hminus hinj hf' he hs' hy b'] at hsights
    exact congrArg (fun sights => Except.ok (Answer.handles sights)) hsights
  | first a context b b' =>
    have hsights := sights_resolve hdigit hminus hinj hf hd hs hx b
    rw [hv, ← sights_resolve hdigit hminus hinj hf' he hs' hy b'] at hsights
    refine congrArg (fun sight => Except.ok (Answer.optional sight)) ?_
    exact ((map_sight_head? _ _).trans (congrArg List.head? hsights)).trans
      (map_sight_head? _ _).symm
  | only a context b b' =>
    have hsights := sights_resolve hdigit hminus hinj hf hd hs hx b
    rw [hv, ← sights_resolve hdigit hminus hinj hf' he hs' hy b'] at hsights
    exact map_firstOr hsights _
  | write paths v =>
    have hanswer := (runOn_writeAll_congr hv e.delimiter v paths).1
    simp only [run]
    rw [hdelimiter, hanswer]
    cases ((Live.writeAll e.delimiter v paths).runOn e).1 <;> rfl
  | remove path =>
    have hremove := map_value_remove? d path
    rw [hv, ← map_value_remove? e path] at hremove
    simp only [run]
    cases hd : d.remove? path with
    | none =>
      rw [hd] at hremove
      rw [Option.map_eq_none_iff.mp hremove.symm, hdelimiter]
      rfl
    | some r =>
      rw [hd] at hremove
      obtain ⟨r', he, hr⟩ := Option.map_eq_some_iff.mp hremove.symm
      rw [he]
      exact congrArg (fun v => Except.ok (Answer.value v)) (Prod.mk.inj hr).1.symm

end

/-- A deed keeps the spelling. -/
theorem spelled_run {c : Char} {T : String → Prop} (hdigit : c.isDigit = false) (hminus : c ≠ '-')
    (hinj : ∀ {x y : String}, T x → T y → Digest.ofText x = Digest.ofText y → x = y)
    (hf : d.Faithful) (hd : d.Sound) (hs : d.Spelled c T) {given : Handle → Prop}
    (hplain : x.Plain d given) (hx : x.Asks c T d) : (x.run d).2.Spelled c T := by
  cases x with
  | tell result => exact hs
  | all a context b => exact (paths_resolve hdigit hminus hinj hf hd hs hx b).2
  | first a context b => exact (paths_resolve hdigit hminus hinj hf hd hs hx b).2
  | only a context b => exact (paths_resolve hdigit hminus hinj hf hd hs hx b).2
  | write paths v =>
    obtain ⟨done, rest, -, hwrites, -⟩ := exists_writes d.delimiter v paths d
    refine hs.of_houses ?_ fun ht => houses_of_writes hf.cascade hwrites ht
    exact congrArg Settings.delimiter (settings_writes hwrites)
  | remove path =>
    simp only [run]
    cases hr : d.remove? path with
    | none => exact hs
    | some r =>
      have hslice := fun s hm => Value.isSlice_of_remove? (value_remove? hr) (s := s) hm
      refine hs.of_houses ?_ fun ht => ((houses_remove? hf (hplain hslice) hr).mp ht).1
      exact congrArg Settings.delimiter (follows_remove? hd true hr).settings
  | invalidate h =>
    refine hs.of_houses rfl fun ht => ?_
    exact ((Arena.houses_retireTicket hd.arena.toTenancy hplain.known).mp ht).1

end

/-! ## Calls -/

section

variable {d e : Document} {x y : Deed} {h k : Handle}

theorem Like.through (hxy : Like d e x y) (hdelimiter : d.delimiter = e.delimiter)
    (hsight : d.sight h = e.sight k) : Like d e (through d h x) (through e k y) := by
  obtain ⟨hpath, hvalid⟩ := Sight.mk.inj hsight
  unfold Deed.through
  rw [hvalid]
  split
  · exact hxy
  · refine Like.tell ?_
    rw [Handle.invalid, Handle.invalid, Handle.address, Handle.address, hpath, hdelimiter]
    rfl

/-- A call on documents with one value comes down to alike deeds. -/
theorem like_documentCall (hv : d.value = e.value) (hdelimiter : d.delimiter = e.delimiter)
    (call : DocumentCall) : Like d e (call.deed d) (call.deed e) := by
  have haddress : ∀ q, d.addressOf q = e.addressOf q := by
    intro q
    rw [addressOf, addressOf, hdelimiter]
  cases call with
  | root =>
    simp only [DocumentCall.deed, hdelimiter]
    exact Like.only _ _ _ _
  | member q =>
    simp only [DocumentCall.deed, haddress]
    exact Like.only _ _ _ _
  | get q =>
    simp only [DocumentCall.deed, haddress]
    exact Like.first _ _ _ _
  | query q | queryWith q useCache =>
    simp only [DocumentCall.deed, haddress]
    exact Like.all _ _ _ _
  | contains q =>
    simp only [DocumentCall.deed, contains, haddress, hv]
    exact Like.tell rfl
  | set q v =>
    simp only [DocumentCall.deed, haddress, hv]
    exact Like.write _ _
  | delete q =>
    simp only [DocumentCall.deed, haddress]
    exact Like.remove _
  | _ => exact Like.tell rfl

theorem rawValue_congr (hv : d.value = e.value) (hdelimiter : d.delimiter = e.delimiter)
    (hsight : d.sight h = e.sight k) : (h.rawValue.runOn d).1 = (k.rawValue.runOn e).1 := by
  obtain ⟨hpath, hvalid⟩ := Sight.mk.inj hsight
  rw [Live.runOn_rawValue, Live.runOn_rawValue, Handle.invalid, Handle.invalid, Handle.address,
    Handle.address, hpath, hvalid, hv, hdelimiter]

/-- A call through handles that are seen as the same comes down to alike deeds. -/
theorem like_handleCall (hv : d.value = e.value) (hdelimiter : d.delimiter = e.delimiter)
    (hsight : d.sight h = e.sight k) {call : HandleCall} (hcall : call ≠ .invalidate) :
    Like d e (call.deed d h) (call.deed e k) := by
  obtain ⟨hpath, hvalid⟩ := Sight.mk.inj hsight
  have haddress : ∀ q, d.addressOf q = e.addressOf q := by
    intro q
    rw [addressOf, addressOf, hdelimiter]
  have hraw := rawValue_congr hv hdelimiter hsight
  cases call with
  | describe => exact Like.tell (congrArg (fun s => Except.ok (Answer.handle s)) hsight)
  | isValid =>
    refine Like.tell ?_
    rw [hvalid]
    rfl
  | invalidate => exact absurd rfl hcall
  | raw =>
    refine Like.tell ?_
    rw [hraw]
    cases (k.rawValue.runOn e).1 <;> rfl
  | kind =>
    refine Like.tell ?_
    rw [Live.runOn_kind, Live.runOn_kind, hraw]
    cases (k.rawValue.runOn e).1 <;> rfl
  | setRaw v =>
    simp only [HandleCall.deed, hpath]
    exact (Like.write _ _).through hdelimiter hsight
  | query q | queryWith q useCache =>
    simp only [HandleCall.deed, hpath, haddress]
    exact (Like.all _ _ _ _).through hdelimiter hsight
  | get q =>
    simp only [HandleCall.deed, hpath, haddress]
    exact (Like.first _ _ _ _).through hdelimiter hsight
  | member q =>
    simp only [HandleCall.deed, hpath, haddress]
    exact (Like.only _ _ _ _).through hdelimiter hsight
  | set q v =>
    simp only [HandleCall.deed, hpath, haddress, hv]
    exact (Like.write _ _).through hdelimiter hsight
  | deleteAt q =>
    simp only [HandleCall.deed, hpath, haddress]
    exact (Like.remove _).through hdelimiter hsight
  | delete =>
    simp only [HandleCall.deed, hpath]
    exact (Like.remove _).through hdelimiter hsight
  | _ => exact Like.tell rfl

end

/-! ## What calls ask for -/

section

variable {d : Document} {c : Char} {T : String → Prop} {h : Handle}

theorem asks_addressOf (hdigit : c.isDigit = false) (hminus : c ≠ '-')
    (hc : d.delimiter.toList = [c]) {q : Query} (hq : q.Plain d.delimiter) {context : Path}
    (hparsed : context.IsParsed) (hcanonical : Path.Canonical c context)
    (hT : ∀ x ∈ d.asked (d.addressOf q) context, T x) :
    Document.Asks c T d (d.addressOf q) context :=
  ⟨hq.address, Address.canonical_parse hdigit hminus hc q, Address.delimiter_parse q d.delimiter,
    hparsed, hcanonical, hT⟩

theorem asks_documentCall (hdigit : c.isDigit = false) (hminus : c ≠ '-')
    (hc : d.delimiter.toList = [c]) {call : DocumentCall} (hcall : call.Direct d.delimiter)
    (hT : ∀ x ∈ (call.deed d).texts d, T x) : (call.deed d).Asks c T d := by
  have hparsed := Path.IsParsed.nil
  have hcanonical := Path.Canonical.nil c
  cases call with
  | root =>
    exact ⟨⟨fun s hs => (by cases hs), fun s hs => (by cases hs)⟩,
      ⟨fun s hs => (by cases hs), by simp⟩, rfl, hparsed, hcanonical, hT⟩
  | member q | get q | query q | queryWith q useCache =>
    exact asks_addressOf hdigit hminus hc hcall hparsed hcanonical hT
  | contains q => trivial
  | set q v => trivial
  | delete q => trivial
  | _ => cases hcall

theorem asks_through {x : Deed} (hT : ∀ s ∈ (through d h x).texts d, T s)
    (hx : d.isValid h = true → (∀ s ∈ x.texts d, T s) → x.Asks c T d) :
    (through d h x).Asks c T d := by
  unfold through at hT ⊢
  split
  · rename_i hvalid
    rw [if_pos hvalid] at hT
    exact hx hvalid hT
  · trivial

theorem asks_handleCall (hdigit : c.isDigit = false) (hminus : c ≠ '-') (hf : d.Faithful)
    (hd : d.Sound) (hs : d.Spelled c T) (hh : d.Has h) {call : HandleCall}
    (hcall : call.Direct d.delimiter) (hT : ∀ x ∈ (call.deed d h).texts d, T x) :
    (call.deed d h).Asks c T d := by
  have hpath : d.isValid h = true → h.path.IsParsed ∧ Path.Canonical c h.path := by
    intro hvalid
    obtain ⟨t, ht, he⟩ := (hh.isValid_iff hd).mp hvalid
    rw [← hh.path ht he]
    exact ⟨hf.parsed ht, hs.canonical ht⟩
  cases call with
  | query q | queryWith q useCache | get q | member q =>
    exact asks_through hT fun hvalid hT' => asks_addressOf hdigit hminus hs.delimiter hcall
      (hpath hvalid).1 (hpath hvalid).2 hT'
  | setRaw v | set q v | deleteAt q | delete => exact asks_through hT fun _ _ => trivial
  | _ => trivial

end

end Deed

end LiveDocument
