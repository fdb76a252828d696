import LiveDocument.Proofs.Address.Naming
import LiveDocument.Proofs.Document.Running
import LiveDocument.Proofs.Tree.Targets

/-!
# The names of places

A handle that was found by queries, one from the place of the other, watches a path that its
address names: reading the address back gives the path. So does the text made of the full path of a
further query, and asking the document for this text is the same as asking the handle for the query.

* `Reached`: the paths that chains of queries lead to. `Reached.nameable`: they are nameable.
* `Value.locate?_fullPath`, `Document.resolve_fullPath`: an address from a place, and its full path
  from the root.
* `Document.Agrees`: a query from a handle and a query from the root do the same.
* `canonical_text_names_fullPath`: all of it together.
-/

namespace LiveDocument

/-- The paths that queries lead to from the root, one after the other, each of them in what the value
of the document is then. -/
inductive Reached (delimiter : String) : Path → Prop where
  | root : Reached delimiter []
  | step {context : Path} {v : Value} {q : Query} {targets : List Target} {t : Target} :
      Reached delimiter context →
      v.locate? (Address.parse q delimiter) context = some targets → t ∈ targets →
      Reached delimiter t.path

/-- The path does not end with a selection. -/
def Path.Single (p : Path) : Prop :=
  ∀ s, p.getLast? = some s → s.isSlice = false

namespace Address

variable {a : Address} {context : Path}

/-- At the place of a single entry, the full path ends with a selection if the address does. -/
theorem endsWithSlice_fullPath (hcontext : context.Single) (delimiter : String) :
    endsWithSlice ⟨a.fullPath context, true, delimiter⟩ = a.endsWithSlice := by
  unfold endsWithSlice
  dsimp only
  rw [Value.fullPath_eq, List.getLast?_append]
  cases a.segments.getLast? with
  | some s => rfl
  | none =>
    cases hlast : (if a.absolute then [] else context).getLast? with
    | none => rfl
    | some s =>
      split at hlast
      · cases hlast
      · exact hcontext s hlast

end Address

/-- What an address names does not end with a selection. -/
theorem Value.single_of_mem_locate? {v : Value} {a : Address} {context : Path}
    {targets : List Target} {t : Target} (hcontext : context.Single)
    (h : v.locate? a context = some targets) (ht : t ∈ targets) : t.path.Single := by
  rcases of_mem_locate? h ht with ⟨hends, hpath, -⟩ | ⟨-, items, p, item, -, -, rfl⟩
  · intro s hs
    have hsame := Address.endsWithSlice_fullPath (a := a) hcontext a.delimiter
    unfold Address.endsWithSlice at hsame hends
    rw [hpath] at hs
    dsimp only at hsame
    rw [hs] at hsame
    exact hsame.trans hends
  · intro s hs
    rw [List.getLast?_concat] at hs
    cases hs
    rfl

namespace Reached

variable {c : Char} {delimiter : String} {p q : Path}

theorem single (hp : Reached delimiter p) : p.Single := by
  induction hp with
  | root => exact fun s hs => by cases hs
  | step _ hlocate ht ih => exact Value.single_of_mem_locate? ih hlocate ht

/-- Queries lead to nameable paths: to the full path of a query or to an element of the sequence
there. -/
theorem nameable (hdigit : c.isDigit = false) (hminus : c ≠ '-') (hcolon : c ≠ ':')
    (hd : delimiter.toList = [c]) (hp : Reached delimiter p) : p.Nameable c := by
  induction hp with
  | root => exact Path.nameable_nil c
  | @step context v q targets t _ hlocate ht ih =>
    have hfull := Address.nameable_fullPath hdigit hminus hcolon hd ih q
    rcases Value.of_mem_locate? hlocate ht with ⟨-, hpath, -⟩ | ⟨-, items, place, item, -, -, rfl⟩
    · rw [hpath]
      exact hfull
    · exact Path.nameable_concat_index hdigit hminus hfull.legible.dropLast _

end Reached

/-- Nameable paths with the same canonical text are the same. -/
theorem Path.Nameable.text_inj {c : Char} {delimiter : String} {p q : Path}
    (hd : delimiter.toList = [c]) (hp : p.Nameable c) (hq : q.Nameable c) :
    p.text delimiter = q.text delimiter ↔ p = q := by
  refine ⟨fun h => ?_, fun h => by rw [h]⟩
  exact (hp.legible.readsBack hd hp.ne_empty_key).inj (hq.legible.readsBack hd hq.ne_empty_key) h

/-! ## An address and its full path -/

/-- An address names from a place what its full path names from the root. -/
theorem Value.locate?_fullPath (v : Value) (a : Address) {context : Path}
    (hcontext : context.Single) (delimiter : String) :
    v.locate? ⟨a.fullPath context, true, delimiter⟩ [] = v.locate? a context := by
  have hends := Address.endsWithSlice_fullPath (a := a) hcontext delimiter
  have hfull : Address.fullPath ⟨a.fullPath context, true, delimiter⟩ [] = a.fullPath context := rfl
  cases ha : a.endsWithSlice with
  | false =>
    rw [locate?_of_not_slice (hends.trans ha), locate?_of_not_slice ha, hfull]
  | true =>
    obtain ⟨s, hs⟩ := exists_slice_of_endsWithSlice ha
    have hlast : (a.fullPath context).getLast? = some (.slice s) := by
      rw [fullPath_eq, List.getLast?_append, hs]
      rfl
    rw [locate?_of_slice hlast, locate?_of_slice hs, hfull]

namespace Document

/-- Looking an address up from a place gives the handles that looking up its full path gives, and
leaves the same document. -/
theorem resolve_fullPath (d : Document) (a : Address) {context : Path} (hcontext : context.Single)
    (useCache : Bool) :
    d.resolve ⟨a.fullPath context, true, a.delimiter⟩ [] useCache =
      d.resolve a context useCache := by
  unfold resolve
  rw [Address.endsWithSlice_fullPath hcontext, Value.locate?_fullPath _ _ hcontext]
  rfl

/-- A query from a handle and a query from the root do the same to a document: they name the same
places there, give the same answers or failures, and leave the same document. -/
structure Agrees (d : Document) (h : Handle) (q name : Query) : Prop where
  locate? : d.value.locate? (d.addressOf q) h.path = d.value.locate? (d.addressOf name) []
  queryWith : ∀ useCache, (h.queryWith q useCache).runOn d =
    (.ok (d.queryWith name useCache).1, (d.queryWith name useCache).2)
  query : (h.query q).runOn d = (.ok (d.query name).1, (d.query name).2)
  get? : (h.get? q).runOn d = (.ok (d.get? name).1, (d.get? name).2)
  member : (h.member q).runOn d = (Document.member name).runOn d
  set : ∀ v, (h.set q v).runOn d = (Document.set name v).runOn d
  delete : (h.deleteAt q).runOn d = (Document.delete name).runOn d

/-- All operations through a handle go by the full path alone. -/
theorem agrees_of_addressOf {d : Document} {h : Handle} {q name : Query}
    (hvalid : d.isValid h = true) (hsingle : h.path.Single)
    (hname : d.addressOf name = ⟨(d.addressOf q).fullPath h.path, true, d.delimiter⟩) :
    d.Agrees h q name := by
  have hdelimiter : (d.addressOf q).delimiter = d.delimiter := Address.delimiter_parse q _
  have hlocate : d.value.locate? (d.addressOf q) h.path =
      d.value.locate? (d.addressOf name) [] := by
    rw [hname, Value.locate?_fullPath _ _ hsingle]
  have hresolve : ∀ useCache, d.resolve (d.addressOf q) h.path useCache =
      d.queryWith name useCache := by
    intro useCache
    rw [Document.queryWith, hname, ← hdelimiter, resolve_fullPath d _ hsingle]
  have hfull : (d.addressOf name).fullPath [] = (d.addressOf q).fullPath h.path := by
    rw [hname]
    rfl
  have hqueryWith : ∀ useCache, (h.queryWith q useCache).runOn d =
      (.ok (d.queryWith name useCache).1, (d.queryWith name useCache).2) := by
    intro useCache
    rw [Live.runOn_queryWith, if_pos hvalid, Live.runOn_resolve, hresolve]
  exact
    { locate? := hlocate
      queryWith := hqueryWith
      query := by
        rw [Live.runOn_query, hqueryWith]
        rfl
      get? := by
        rw [Live.runOn_get?, if_pos hvalid, hresolve]
        rfl
      member := by
        have hcanonical : (d.addressOf q).canonical h.path = (d.addressOf name).canonical [] := by
          unfold Address.canonical
          rw [hfull, hdelimiter, hname]
        unfold Document.member
        rw [Live.runOn_member, if_pos hvalid, Live.runOn_get_bind, Live.runOn_require,
          Live.runOn_require, hresolve, hcanonical]
        rfl
      set := by
        intro v
        have hpaths : Live.writePaths d.value (d.addressOf q) h.path =
            Live.writePaths d.value (d.addressOf name) [] := by
          unfold Live.writePaths
          rw [hlocate, hfull]
        unfold Handle.set Document.set Live.update
        rw [Live.runOn_guarded, if_pos hvalid, Live.runOn_get_bind, Live.runOn_get_bind,
          Live.runOn_get_bind, Live.runOn_get_bind, hpaths, hdelimiter, hname]
      delete := by
        unfold Handle.deleteAt Document.delete
        rw [Live.runOn_guarded, if_pos hvalid, Live.runOn_get_bind, Live.runOn_get_bind, hfull] }

end Document

/-- The delimiter and a canonical text together name a path. At the place of a handle that queries
led to, that is the full path of the query; without a query it is the path of the handle. Handles have
the same name only if they have the same path, and so do the sources of their cache keys; places and
slices are queries like what they are spelled as. A valid handle finds, writes and removes by a query
what the document finds, writes and removes by the name of its full path. -/
theorem canonical_text_names_fullPath {c : Char} {delimiter : String}
    (hd : delimiter.toList = [c]) (hblank : Text.isBlank c = false) (hdigit : c.isDigit = false)
    (hminus : c ≠ '-') (hcolon : c ≠ ':') {h : Handle} (hh : Reached delimiter h.path) (q : Query) :
    Address.parse (.text (delimiter ++ (Address.parse q delimiter).canonical h.path)) delimiter =
        ⟨(Address.parse q delimiter).fullPath h.path, true, delimiter⟩ ∧
      Address.parse (.text (h.address delimiter)) delimiter = ⟨h.path, true, delimiter⟩ ∧
      (∀ k : Handle, Reached delimiter k.path →
        (h.address delimiter = k.address delimiter ↔ h.path = k.path) ∧
          (h.path.text delimiter = k.path.text delimiter ↔ h.path = k.path)) ∧
      (∀ place : Int64, Address.parse (.text (String.ofList (Position.text place))) delimiter =
        Address.parse (.index place) delimiter) ∧
      (∀ s : Slice, Address.parse (.text (String.ofList s.text)) delimiter =
        Address.parse (.slice s) delimiter) ∧
      ∀ d : Document, d.delimiter = delimiter → d.isValid h = true →
        d.Agrees h q (.text (delimiter ++ (d.addressOf q).canonical h.path)) := by
  have hpath : h.path.Nameable c := hh.nameable hdigit hminus hcolon hd
  have hfull := Address.nameable_fullPath hdigit hminus hcolon hd hpath q
  have hname : Address.parse (.text (delimiter ++ (Address.parse q delimiter).canonical h.path))
      delimiter = ⟨(Address.parse q delimiter).fullPath h.path, true, delimiter⟩ := by
    rw [Address.canonical, Address.delimiter_parse]
    exact hfull.parse_address hd hblank
  refine ⟨hname, hpath.parse_address hd hblank, fun k hk => ?_,
    Address.parse_text_index hdigit hminus hd,
    Address.parse_text_slice hdigit hminus hcolon hd, fun d hdelimiter hvalid => ?_⟩
  · have htext := hpath.text_inj hd (hk.nameable hdigit hminus hcolon hd)
    refine ⟨?_, htext⟩
    rw [← htext, Handle.address, Handle.address, Path.address, Path.address, String.append_right_inj]
  · subst hdelimiter
    exact Document.agrees_of_addressOf hvalid hh.single hname

/-- A sequence under a key with a blank in it. -/
def namedValue : Value :=
  .mapping [("a b", .sequence [.null, .mapping [("7", .boolean true)]])]

/-- Its last element: the first that is selected backwards from the place of the sequence. -/
theorem reached_last : Reached "/" [.key "a b", .index 1] :=
  have hsequence : Reached "/" [.key "a b"] :=
    Reached.step (v := namedValue) (q := .text " a b ") (t := ⟨[.key "a b"], .sequence⟩) .root
      (by decide +kernel) (List.mem_singleton_self _)
  Reached.step (v := namedValue) (q := .slice ⟨none, none, some (-1)⟩)
    (t := ⟨[.key "a b", .index 1], .mapping⟩) hsequence (by decide +kernel)
    (List.mem_cons_self (l := [⟨[.key "a b", .index 0], .null⟩]))

/-- A document with one handle for this element. -/
def namedIssue : Handle × Document :=
  (Document.ofValue namedValue {}).issue [.key "a b", .index 1] .mapping false

/-- A place with a leading zero, asked for from the last element. -/
theorem canonical_text_names_fullPath_zero_led :
    Address.parse (.text "/a b/1/7") "/" = ⟨[.key "a b", .index 1, .index 7], true, "/"⟩ ∧
      namedIssue.2.Agrees namedIssue.1 (.text "07") (.text "/a b/1/7") := by
  have hd : "/".toList = ['/'] := rfl
  obtain ⟨hname, -, -, -, -, hagrees⟩ := canonical_text_names_fullPath hd rfl rfl
    (by decide) (by decide) (h := namedIssue.1) reached_last (.text "07")
  exact ⟨hname, hagrees namedIssue.2 rfl (by decide +kernel)⟩

end LiveDocument
