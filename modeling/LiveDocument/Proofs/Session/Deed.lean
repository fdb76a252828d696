import LiveDocument.Proofs.Document.Faithful
import LiveDocument.Proofs.Session.Calls

/-!
# What direct calls come down to

The calls that look places up, read, write, remove or end validity, with queries whose slices come
last, come down to a few deeds on the document, whether they are carried out on the document or
through a handle. What they keep is settled for deeds.

* `DocumentCall.Direct`, `HandleCall.Direct`: the direct calls.
* `Deed`: what they come down to. `runOn_documentCall`, `runOn_handleCall`: that they do.
* `exact_deed`: every deed is exact about the handles that it leaves valid.
* `found_deed`: the handles of its answer were given to it, were held before, or are new.
-/

namespace LiveDocument

/-- The call looks places up, reads, writes or removes, with slices only at the end of queries. -/
def DocumentCall.Direct (delimiter : String) : DocumentCall → Prop
  | root => True
  | member q | get q | query q | queryWith q _ | contains q | delete q => q.Plain delimiter
  | set q v => q.Plain delimiter ∧ v.Sized
  | _ => False

/-- The call looks places up, reads, writes, removes or ends validity, with slices only at the end
of queries. -/
def HandleCall.Direct (delimiter : String) : HandleCall → Prop
  | describe | isValid | invalidate | raw | kind | delete => True
  | query q | queryWith q _ | get q | member q | deleteAt q => q.Plain delimiter
  | set q v => q.Plain delimiter ∧ v.Sized
  | setRaw v => v.Sized
  | _ => False

instance (delimiter : String) (call : DocumentCall) : Decidable (call.Direct delimiter) := by
  unfold DocumentCall.Direct
  cases call <;> infer_instance

instance (delimiter : String) (call : HandleCall) : Decidable (call.Direct delimiter) := by
  unfold HandleCall.Direct
  cases call <;> infer_instance

/-- What a direct call does: it tells something, gives handles for all places, for the first place
or for the only place, writes, removes, or ends the validity of a handle. -/
inductive Deed where
  | tell (result : Except Failure (Answer Handle))
  | all (a : Address) (context : Path) (useCache : Bool)
  | first (a : Address) (context : Path) (useCache : Bool)
  | only (a : Address) (context : Path) (useCache : Bool)
  | write (paths : List Path) (v : Value)
  | remove (path : Path)
  | invalidate (h : Handle)

namespace Deed

/-- The first of several handles, or a failure. -/
def firstOr (f : Failure) : List Handle → Except Failure (Answer Handle)
  | h :: _ => .ok (.handle h)
  | [] => .error f

/-- The answer of a deed, and the document afterwards. -/
def run (d : Document) : Deed → Except Failure (Answer Handle) × Document
  | tell result => (result, d)
  | all a context useCache =>
    (.ok (.handles (d.resolve a context useCache).1), (d.resolve a context useCache).2)
  | first a context useCache =>
    (.ok (.optional (d.resolve a context useCache).1.head?), (d.resolve a context useCache).2)
  | only a context useCache =>
    (firstOr (.missingMember (a.canonical context)) (d.resolve a context useCache).1,
      (d.resolve a context useCache).2)
  | write paths v =>
    (((Live.writeAll d.delimiter v paths).runOn d).1.map fun _ => .nothing,
      ((Live.writeAll d.delimiter v paths).runOn d).2)
  | remove path =>
    match d.remove? path with
    | some (old, d') => (.ok (.value old), d')
    | none => (.error (.writeTargetMissing (path.address d.delimiter)), d)
  | invalidate h => (.ok .nothing, { d with arena := (d.arena.retireTicket h.ticket).2 })

/-- The deed if the handle is valid, and its failure else. -/
def through (d : Document) (h : Handle) (x : Deed) : Deed :=
  if d.isValid h then x else tell (.error (h.invalid d))

end Deed

/-- What a direct call on a document comes down to. -/
def DocumentCall.deed (d : Document) : DocumentCall → Deed
  | root => .only ⟨[], true, d.delimiter⟩ [] d.settings.useCache
  | member q => .only (d.addressOf q) [] d.settings.useCache
  | get q => .first (d.addressOf q) [] d.settings.useCache
  | query q => .all (d.addressOf q) [] d.settings.useCache
  | queryWith q useCache => .all (d.addressOf q) [] useCache
  | contains q => .tell (.ok (.flag (d.contains q)))
  | set q v => .write (Live.writePaths d.value (d.addressOf q) []) v
  | delete q => .remove ((d.addressOf q).fullPath [])
  | _ => .tell (.ok .nothing)

/-- What a direct call through a handle comes down to. -/
def HandleCall.deed (d : Document) (h : Handle) : HandleCall → Deed
  | describe => .tell (.ok (.handle h))
  | isValid => .tell (.ok (.flag (d.isValid h)))
  | raw => .tell ((h.rawValue.runOn d).1.map .value)
  | kind => .tell ((h.kind.runOn d).1.map .kind)
  | invalidate => .invalidate h
  | setRaw v => .through d h (.write [h.path] v)
  | query q => .through d h (.all (d.addressOf q) h.path d.settings.useCache)
  | queryWith q useCache => .through d h (.all (d.addressOf q) h.path useCache)
  | get q => .through d h (.first (d.addressOf q) h.path d.settings.useCache)
  | member q => .through d h (.only (d.addressOf q) h.path d.settings.useCache)
  | set q v => .through d h (.write (Live.writePaths d.value (d.addressOf q) h.path) v)
  | deleteAt q => .through d h (.remove ((d.addressOf q).fullPath h.path))
  | delete => .through d h (.remove h.path)
  | _ => .tell (.ok .nothing)

namespace Live

open Document

/-! ## Calls and deeds -/

section

variable (d : Document)

theorem runOn_removed (path : Path) :
    (Live.remove path d.delimiter >>= fun v => pure (Answer.value v)).runOn d =
      (Deed.remove path).run d := by
  rw [runOn_told, runOn_remove, Deed.run]
  cases d.remove? path <;> rfl

theorem runOn_required (a : Address) (context : Path) (useCache : Bool) :
    (Live.require a context useCache >>= fun h => pure (Answer.handle h)).runOn d =
      (Deed.only a context useCache).run d := by
  rw [runOn_told, runOn_require, Deed.run]
  cases (d.resolve a context useCache).1 <;> rfl

theorem runOn_updated (q : Query) (context : Path) (v : Value) :
    (Live.update (d.addressOf q) context v >>= fun _ => pure Answer.nothing).runOn d =
      (Deed.write (Live.writePaths d.value (d.addressOf q) context) v).run d := by
  have hdel : (d.addressOf q).delimiter = d.delimiter := Address.delimiter_parse q d.delimiter
  rw [runOn_told]
  unfold Live.update
  rw [runOn_get_bind, hdel]
  rfl

/-- The root is the place of an address without segments. -/
theorem resolve_root (useCache : Bool) :
    d.resolve ⟨[], true, d.delimiter⟩ [] useCache =
      ([(d.obtain [] d.value.kind useCache).1], (d.obtain [] d.value.kind useCache).2) := by
  have hl : d.value.locate? ⟨[], true, d.delimiter⟩ [] = some [⟨[], d.value.kind⟩] := rfl
  unfold Document.resolve
  rw [hl]
  cases hc : d.cached? (keyOf [] d.delimiter) with
  | some h =>
    cases useCache with
    | false => rfl
    | true =>
      have hobtain : d.obtain [] d.value.kind true = (h, d) := by
        unfold Document.obtain
        rw [if_pos rfl, hc]
      rw [hobtain, show Address.fullPath ⟨[], true, d.delimiter⟩ [] = [] from rfl, hc]
      rfl
  | none =>
    cases useCache with
    | false => rfl
    | true =>
      rw [show Address.fullPath ⟨[], true, d.delimiter⟩ [] = [] from rfl, hc]
      rfl

end

theorem runOn_documentCall (env : Environment) (d : Document) {call : DocumentCall}
    (hcall : call.Direct d.delimiter) : (call.run env).runOn d = (call.deed d).run d := by
  cases call with
  | root =>
    rw [DocumentCall.run, runOn_told, runOn_ofFunction, DocumentCall.deed, Deed.run, resolve_root]
    rfl
  | member q =>
    rw [DocumentCall.run, Document.member, DocumentCall.deed, ← runOn_required]
    simp only [runOn_bind, runOn_get]
  | get q => rfl
  | query q => rfl
  | queryWith q useCache => rfl
  | contains q => rfl
  | set q v =>
    rw [DocumentCall.run, Document.set, DocumentCall.deed, ← runOn_updated]
    simp only [runOn_bind, runOn_get]
  | delete q =>
    rw [DocumentCall.run, Document.delete, DocumentCall.deed, ← runOn_removed]
    simp only [runOn_bind, runOn_get]
  | _ => cases hcall

/-- An operation through a handle that goes on with a deed. -/
theorem runOn_through {d : Document} {h : Handle} {x : Live (Answer Handle)} {y : Deed}
    (hx : x.runOn d = if d.isValid h then y.run d else (.error (h.invalid d), d)) :
    x.runOn d = (Deed.through d h y).run d := by
  rw [hx]
  unfold Deed.through
  cases d.isValid h <;> rfl

theorem runOn_handleCall (env : Environment) (d : Document) (h : Handle) {call : HandleCall}
    (hcall : call.Direct d.delimiter) : (call.run env h).runOn d = (call.deed d h).run d := by
  cases call with
  | describe => rfl
  | isValid => rfl
  | invalidate => rfl
  | raw =>
    rw [HandleCall.run, runOn_told, runOn_rawValue, HandleCall.deed, Deed.run, runOn_rawValue]
  | kind =>
    rw [HandleCall.run, runOn_told, runOn_kind, HandleCall.deed, Deed.run, runOn_kind]
  | setRaw v =>
    refine runOn_through ?_
    rw [HandleCall.run, runOn_told]
    unfold Handle.setRawValue
    rw [runOn_guarded, runOn_get_bind]
    cases d.isValid h with
    | false => rfl
    | true =>
      rw [if_pos rfl, if_pos rfl, Deed.run]
      unfold Live.writeAll
      rw [runOn_bind, runOn_write]
      cases d.write? h.path v <;> rfl
  | query q =>
    refine runOn_through ?_
    rw [HandleCall.run, runOn_told, runOn_query, runOn_queryWith]
    cases d.isValid h <;> rfl
  | queryWith q useCache =>
    refine runOn_through ?_
    rw [HandleCall.run, runOn_told, runOn_queryWith]
    cases d.isValid h <;> rfl
  | get q =>
    refine runOn_through ?_
    rw [HandleCall.run, runOn_told, runOn_get?]
    cases d.isValid h <;> rfl
  | member q =>
    refine runOn_through ?_
    rw [← runOn_required, HandleCall.run, runOn_told, runOn_told, runOn_member]
    cases d.isValid h <;> rfl
  | set q v =>
    refine runOn_through ?_
    rw [← runOn_updated, HandleCall.run, runOn_told, runOn_told]
    unfold Handle.set
    rw [runOn_guarded, runOn_get_bind]
    cases d.isValid h <;> rfl
  | deleteAt q =>
    refine runOn_through ?_
    rw [← runOn_removed, HandleCall.run, runOn_told, runOn_told]
    unfold Handle.deleteAt
    rw [runOn_guarded, runOn_get_bind]
    cases d.isValid h <;> rfl
  | delete =>
    refine runOn_through ?_
    rw [← runOn_removed, HandleCall.run, runOn_told, runOn_told]
    unfold Handle.delete
    rw [runOn_guarded, runOn_get_bind]
    cases d.isValid h <;> rfl
  | _ => cases hcall

end Live

namespace Deed

open Document

/-- The addresses and paths of the deed are plain; a handle that it tells of is given to it. -/
def Plain (d : Document) (given : Handle → Prop) : Deed → Prop
  | tell result => ∀ a, result = .ok a → ∀ k ∈ a.found, given k
  | all a context _ | first a context _ | only a context _ => a.Plain ∧ context.IsParsed
  | write paths v => v.Sized ∧ (∃ n : Nat, ∀ p ∈ paths, p.length = n) ∧
    ∀ p ∈ paths, (∀ s ∈ p, s.isSlice = false) → p.IsParsed
  | remove path => (∀ s ∈ path, s.isSlice = false) → path.IsParsed
  | invalidate h => d.Has h

/-- The handles whose validity the deed ends whatever the value is. -/
def Ends (d : Document) (k : Handle) : Deed → Prop
  | remove path => k.path = path ∧ (d.remove? path).isSome = true
  | invalidate h => k.ticket.serial = h.ticket.serial
  | _ => False

/-- Writes one after the other: as many as succeed, and all of them if the answer says so. -/
theorem exists_writes (delimiter : String) (v : Value) (paths : List Path) (d : Document) :
    ∃ done rest, paths = done ++ rest ∧
      Writes v done d ((Live.writeAll delimiter v paths).runOn d).2 ∧
        (((Live.writeAll delimiter v paths).runOn d).1 = .ok () → rest = []) := by
  induction paths generalizing d with
  | nil => exact ⟨[], [], rfl, Writes.nil d, fun _ => rfl⟩
  | cons path rest ih =>
    unfold Live.writeAll
    rw [Live.runOn_bind, Live.runOn_write]
    cases hw : d.write? path v with
    | none =>
      refine ⟨[], path :: rest, rfl, Writes.nil d, fun he => ?_⟩
      cases he
    | some d₁ =>
      obtain ⟨done, left, he, hwrites, hall⟩ := ih d₁
      exact ⟨path :: done, left, by rw [he]; rfl, Writes.cons hw hwrites, hall⟩

variable {d : Document} {given : Handle → Prop}

/-- A deed ends the validity of the held handles that it names, and of those whose paths do not
lead to a value of their kind afterwards, and of no others. -/
theorem exact_deed (hf : d.Faithful) (hd : d.Sound) {x : Deed} (hx : x.Plain d given) :
    Exact (fun k => x.Ends d k) d (x.run d).2 := by
  cases x with
  | tell result => exact Exact.refl hf
  | all a context useCache => exact exact_resolve hf hd hx.1 hx.2 useCache
  | first a context useCache => exact exact_resolve hf hd hx.1 hx.2 useCache
  | only a context useCache => exact exact_resolve hf hd hx.1 hx.2 useCache
  | write paths v =>
    obtain ⟨hv, ⟨n, hn⟩, hparsed⟩ := hx
    obtain ⟨done, rest, he, hwrites, -⟩ := exists_writes d.delimiter v paths d
    refine exact_writes hf hd hv (n := n) (fun p hp => ?_) hwrites
    have hm : p ∈ paths := by
      rw [he]
      exact List.mem_append_left _ hp
    exact ⟨hparsed p hm fun s hs => isSlice_of_writes hwrites hp hs, hn p hm⟩
  | remove path =>
    simp only [run, Ends]
    cases hr : d.remove? path with
    | none =>
      exact (Exact.refl hf).congr fun k => by simp
    | some e =>
      have hslice := fun s hs => Value.isSlice_of_remove? (value_remove? hr) (s := s) hs
      exact (exact_remove? hf hd (hx hslice) hr).congr fun k => by simp
  | invalidate h => exact exact_invalidate hf hd hx

/-- The handles of an answer were given to the deed, or it found them. -/
theorem found_deed (hd : d.Sound) {x : Deed} (hx : x.Plain d given) {a : Answer Handle}
    (ha : (x.run d).1 = .ok a) {k : Handle} (hk : k ∈ a.found) :
    given k ∨ Found d (x.run d).2 k := by
  cases x with
  | tell result => exact Or.inl (hx a ha k hk)
  | all a context useCache =>
    cases ha
    exact Or.inr (found_resolve hd a context useCache k hk)
  | first a context useCache =>
    cases ha
    exact Or.inr (found_resolve hd a context useCache k
      (List.mem_of_mem_head? (Option.mem_toList.mp hk)))
  | only a context useCache =>
    simp only [run] at ha ⊢
    cases hr : (d.resolve a context useCache).1 with
    | nil =>
      rw [hr] at ha
      cases ha
    | cons h rest =>
      rw [hr] at ha
      cases ha
      rw [List.mem_singleton.mp hk]
      exact Or.inr (found_resolve hd a context useCache h (by rw [hr]; exact List.mem_cons_self))
  | write paths v =>
    simp only [run] at ha
    cases hw : ((Live.writeAll d.delimiter v paths).runOn d).1 with
    | error e =>
      rw [hw] at ha
      cases ha
    | ok u =>
      rw [hw] at ha
      cases ha
      cases hk
  | remove path =>
    simp only [run] at ha
    split at ha
    · cases ha
      cases hk
    · cases ha
  | invalidate h =>
    cases ha
    cases hk

/-! ## Direct calls are plain -/

theorem Plain.mono {given' : Handle → Prop} {x : Deed} (hx : x.Plain d given)
    (h : ∀ k, given k → given' k) : x.Plain d given' := by
  cases x with
  | tell result => exact fun a ha k hk => h k (hx a ha k hk)
  | _ => exact hx

theorem plain_nothing : (tell (.ok .nothing)).Plain d given := by
  intro a ha k hk
  cases ha
  cases hk

/-- A write goes to the places that the address names, or else to its full path. -/
theorem writePaths_eq (value : Value) (a : Address) (context : Path) :
    (∃ targets, value.locate? a context = some targets ∧
      Live.writePaths value a context = targets.map Target.path) ∨
        Live.writePaths value a context = [a.fullPath context] := by
  unfold Live.writePaths
  split
  · rename_i t rest hl
    exact Or.inl ⟨t :: rest, hl, rfl⟩
  · exact Or.inr rfl

/-- All paths of a write are one, or they end with places of one sequence. -/
theorem siblings_writePaths {value : Value} {a : Address} {context p w : Path}
    (hp : p ∈ Live.writePaths value a context) (hw : w ∈ Live.writePaths value a context) :
    value.Siblings p w := by
  rcases writePaths_eq value a context with ⟨targets, hl, he⟩ | he
  · rw [he] at hp hw
    obtain ⟨t, ht, rfl⟩ := List.mem_map.mp hp
    obtain ⟨u, hu, rfl⟩ := List.mem_map.mp hw
    exact Value.siblings_of_mem_locate? hl ht hu
  · rw [he] at hp hw
    rw [List.mem_singleton.mp hp, List.mem_singleton.mp hw]
    exact Or.inl rfl

theorem plain_writePaths (value : Value) {a : Address} (ha : a.Plain) {context : Path}
    (hc : context.IsParsed) :
    (∃ n : Nat, ∀ p ∈ Live.writePaths value a context, p.length = n) ∧
      ∀ p ∈ Live.writePaths value a context, (∀ s ∈ p, s.isSlice = false) → p.IsParsed := by
  constructor
  · cases hpaths : Live.writePaths value a context with
    | nil => exact ⟨0, fun p hp => by cases hp⟩
    | cons path rest =>
      refine ⟨path.length, fun p hp => ?_⟩
      rw [← hpaths] at hp
      exact (siblings_writePaths (hpaths ▸ List.mem_cons_self) hp).length_eq
  · intro p hp hs
    rcases writePaths_eq value a context with ⟨targets, hl, he⟩ | he
    · rw [he] at hp
      obtain ⟨t, ht, rfl⟩ := List.mem_map.mp hp
      exact Value.isParsed_of_mem_locate? ha hc hl ht
    · rw [he] at hp
      rw [List.mem_singleton.mp hp] at hs ⊢
      exact ha.isParsed_of_isSlice hc hs

theorem plain_documentCall {call : DocumentCall} (hcall : call.Direct d.delimiter) :
    (call.deed d).Plain d fun _ => False := by
  have hnil : Path.IsParsed [] := Path.IsParsed.nil
  cases call with
  | root => exact ⟨⟨fun s hs => (by cases hs), fun s hs => (by cases hs)⟩, hnil⟩
  | member q => exact ⟨hcall.address, hnil⟩
  | get q => exact ⟨hcall.address, hnil⟩
  | query q => exact ⟨hcall.address, hnil⟩
  | queryWith q useCache => exact ⟨hcall.address, hnil⟩
  | contains q =>
    intro a ha k hk
    cases ha
    cases hk
  | set q v => exact ⟨hcall.2, plain_writePaths d.value hcall.1.address hnil⟩
  | delete q => exact fun hs => Address.Plain.isParsed_of_isSlice hcall.address hnil hs
  | _ => cases hcall

theorem plain_through {h : Handle} {x : Deed} (hx : d.isValid h = true → x.Plain d given) :
    (through d h x).Plain d given := by
  unfold through
  split
  · rename_i hvalid
    exact hx hvalid
  · intro a ha
    cases ha

theorem plain_handleCall (hf : d.Faithful) (hd : d.Sound) {h : Handle} (hh : d.Has h)
    {call : HandleCall} (hcall : call.Direct d.delimiter) :
    (call.deed d h).Plain d fun k => k = h := by
  have hparsed : d.isValid h = true → h.path.IsParsed := by
    intro hvalid
    obtain ⟨t, ht, he⟩ := (hh.isValid_iff hd).mp hvalid
    rw [← hh.path ht he]
    exact hf.parsed ht
  cases call with
  | describe =>
    intro a ha k hk
    cases ha
    exact List.mem_singleton.mp hk
  | isValid =>
    intro a ha k hk
    cases ha
    cases hk
  | invalidate => exact hh
  | raw =>
    intro a ha k hk
    cases hr : (h.rawValue.runOn d).1 with
    | error e =>
      rw [hr] at ha
      cases ha
    | ok v =>
      rw [hr] at ha
      cases ha
      cases hk
  | kind =>
    intro a ha k hk
    cases hr : (h.kind.runOn d).1 with
    | error e =>
      rw [hr] at ha
      cases ha
    | ok v =>
      rw [hr] at ha
      cases ha
      cases hk
  | setRaw v =>
    refine plain_through fun hvalid =>
      ⟨hcall, ⟨_, fun p hp => by rw [List.mem_singleton.mp hp]⟩, ?_⟩
    intro p hp _
    rw [List.mem_singleton.mp hp]
    exact hparsed hvalid
  | query q => exact plain_through fun hvalid => ⟨hcall.address, hparsed hvalid⟩
  | queryWith q useCache => exact plain_through fun hvalid => ⟨hcall.address, hparsed hvalid⟩
  | get q => exact plain_through fun hvalid => ⟨hcall.address, hparsed hvalid⟩
  | member q => exact plain_through fun hvalid => ⟨hcall.address, hparsed hvalid⟩
  | set q v =>
    exact plain_through fun hvalid =>
      ⟨hcall.2, plain_writePaths d.value hcall.1.address (hparsed hvalid)⟩
  | deleteAt q =>
    exact plain_through fun hvalid hs =>
      Address.Plain.isParsed_of_isSlice hcall.address (hparsed hvalid) hs
  | delete => exact plain_through fun hvalid _ => hparsed hvalid
  | _ => cases hcall

end Deed

end LiveDocument
