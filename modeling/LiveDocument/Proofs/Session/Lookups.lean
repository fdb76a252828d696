import LiveDocument.Proofs.Address.Parsed
import LiveDocument.Proofs.Document.Cache
import LiveDocument.Proofs.Session.Calls
import LiveDocument.Proofs.Tree.Targets

/-!
# What calls look up

A call that looks places up asks for canonical texts, one for each handle of its answer. If it
looks them up through the cache, then an asked text that is the canonical text of a handle in the
cache is answered with this handle.

* `DocumentCall.asks`, `HandleCall.asks`, `ViewCall.asks`: the texts that a call asks for.
* `found_documentCall`, `found_handleCall`, `found_viewCall`: what it finds for them.
-/

namespace LiveDocument

/-- The canonical texts that a call asks for, in the order of its answer. -/
def DocumentCall.asks (d : Document) : DocumentCall → List String
  | root => [Path.text [] d.delimiter]
  | member q | get q => (d.asked (d.addressOf q) []).take 1
  | query q | queryWith q _ => d.asked (d.addressOf q) []
  | _ => []

/-- The canonical texts that a call through a handle asks for. -/
def HandleCall.asks (d : Document) (h : Handle) : HandleCall → List String
  | member q | get q => (d.asked (d.addressOf q) h.path).take 1
  | query q | queryWith q _ => d.asked (d.addressOf q) h.path
  | _ => []

/-- The canonical texts that a call on a view asks for. -/
def ViewCall.asks (d : Document) (view : View) : ViewCall → List String
  | get q =>
    if view.variant.isContainer then (d.asked (d.addressOf q) view.handle.path).take 1 else []
  | children =>
    (((d.value.walk? view.handle.path).bind View.segments).getD []).map fun segment =>
      Path.text (view.handle.path ++ [segment]) d.delimiter
  | _ => []

namespace Document

/-- An address that does not select finds one place if it finds any. -/
theorem length_resolve {d : Document} {a : Address} {context : Path} (ha : a.endsWithSlice = false)
    (hl : (d.value.locate? a context).isSome = true) (useCache : Bool) :
    (d.resolve a context useCache).1.length = 1 := by
  obtain ⟨targets, ht⟩ := Option.isSome_iff_exists.mp hl
  have hone : targets.length = 1 := by
    rw [Value.locate?_of_not_slice ha] at ht
    obtain ⟨kind, -, rfl⟩ := Option.map_eq_some_iff.mp ht
    rfl
  obtain ⟨t, rfl⟩ := List.length_eq_one_iff.mp hone
  unfold resolve
  dsimp only
  split
  · rfl
  · rw [ht]
    rfl

end Document

namespace Live

open Document

variable {d : Document} {h : Handle}

/-! ## Documents -/

theorem getElem?_take_one {α : Type} {xs : List α} {i : Nat} {x : α}
    (h : (xs.take 1)[i]? = some x) : i = 0 ∧ xs[0]? = some x := by
  cases xs with
  | nil => cases h
  | cons y ys =>
    cases i with
    | zero => exact ⟨rfl, h⟩
    | succ i => cases h

/-- The first handle of a lookup whose first text is that of a handle in the cache. -/
theorem resolve_eq_cons (hd : d.Sound) (hh : d.Caches h) {a : Address}
    (ha : a.delimiter = d.delimiter) {context : Path} {i : Nat}
    (hi : ((d.asked a context).take 1)[i]? = some (h.path.text d.delimiter)) :
    i = 0 ∧ ∃ rest, (d.resolve a context true).1 = h :: rest := by
  obtain ⟨rfl, hfirst⟩ := getElem?_take_one hi
  have hfound := getElem?_resolve hd hh ha hfirst
  cases hr : (d.resolve a context true).1 with
  | nil =>
    rw [hr] at hfound
    cases hfound
  | cons k rest =>
    rw [hr] at hfound
    cases hfound
    exact ⟨rfl, rest, rfl⟩

theorem found_documentCall (env : Environment) (hd : d.Sound) (hh : d.Caches h)
    {call : DocumentCall} (hcall : call.caches d.settings = true) {i : Nat}
    (hi : (call.asks d)[i]? = some (h.path.text d.delimiter)) :
    ∃ a, ((call.run env).runOn d).1 = .ok a ∧ a.found[i]? = some h := by
  have hparse : ∀ q, (d.addressOf q).delimiter = d.delimiter :=
    fun q => Address.delimiter_parse q d.delimiter
  cases call with
  | root =>
    cases i with
    | succ i => cases hi
    | zero =>
      have hroot := obtain_of_caches hd hh d.value.kind (Option.some.inj hi)
      refine ⟨.handle d.root.1, rfl, ?_⟩
      rw [Document.root, show d.settings.useCache = true from hcall, hroot]
      rfl
  | member q =>
    obtain ⟨rfl, rest, hr⟩ := resolve_eq_cons hd hh (hparse q) hi
    refine ⟨.handle h, ?_, rfl⟩
    rw [DocumentCall.run, runOn_bind, Document.member, runOn_get_bind, runOn_require,
      show d.settings.useCache = true from hcall, hr]
    rfl
  | get q =>
    obtain ⟨rfl, rest, hr⟩ := resolve_eq_cons hd hh (hparse q) hi
    refine ⟨.optional (d.query q).1.head?, rfl, ?_⟩
    rw [Document.query, Document.queryWith, show d.settings.useCache = true from hcall, hr]
    rfl
  | query q =>
    refine ⟨.handles (d.query q).1, rfl, ?_⟩
    rw [Document.query, Document.queryWith, show d.settings.useCache = true from hcall]
    exact getElem?_resolve hd hh (hparse q) hi
  | queryWith q useCache =>
    refine ⟨.handles (d.queryWith q useCache).1, rfl, ?_⟩
    rw [Document.queryWith, show useCache = true from hcall]
    exact getElem?_resolve hd hh (hparse q) hi
  | _ => cases hi

/-! ## Handles -/

section

variable {k : Handle}

theorem found_handleCall (env : Environment) (hd : d.Sound) (hh : d.Caches h)
    (hk : d.isValid k = true) {call : HandleCall} (hcall : call.caches d.settings = true) {i : Nat}
    (hi : (call.asks d k)[i]? = some (h.path.text d.delimiter)) :
    ∃ a, ((call.run env k).runOn d).1 = .ok a ∧ a.found[i]? = some h := by
  have hparse : ∀ q, (d.addressOf q).delimiter = d.delimiter :=
    fun q => Address.delimiter_parse q d.delimiter
  cases call with
  | query q =>
    refine ⟨.handles (d.resolve (d.addressOf q) k.path true).1, ?_,
      getElem?_resolve hd hh (hparse q) hi⟩
    rw [HandleCall.run, runOn_bind, runOn_query, runOn_queryWith, if_pos hk,
      show d.settings.useCache = true from hcall]
    rfl
  | queryWith q useCache =>
    refine ⟨.handles (d.resolve (d.addressOf q) k.path true).1, ?_,
      getElem?_resolve hd hh (hparse q) hi⟩
    rw [HandleCall.run, runOn_bind, runOn_queryWith, if_pos hk, show useCache = true from hcall]
    rfl
  | get q =>
    obtain ⟨rfl, rest, hr⟩ := resolve_eq_cons hd hh (hparse q) hi
    refine ⟨.optional (some h), ?_, rfl⟩
    rw [HandleCall.run, runOn_bind, runOn_get?, if_pos hk,
      show d.settings.useCache = true from hcall, hr]
    rfl
  | member q =>
    obtain ⟨rfl, rest, hr⟩ := resolve_eq_cons hd hh (hparse q) hi
    refine ⟨.handle h, ?_, rfl⟩
    rw [HandleCall.run, runOn_bind, runOn_member, if_pos hk, runOn_require,
      show d.settings.useCache = true from hcall, hr]
    rfl
  | _ => cases hi

/-! ## Views -/

/-- Every child of a container is found, and answered with the handle in the cache if there is
one. -/
theorem found_childrenAt (hd : d.Sound) (hh : d.Caches h) (hhas : d.Has k)
    (hk : d.isValid k = true) (hcaches : d.settings.useCache = true) {names : List Segment}
    (hnames : ∀ s ∈ names, s.isSlice = false ∧
      (d.value.locate? ⟨[s], false, d.delimiter⟩ k.path).isSome = true) :
    ∃ hs : List Handle, ((View.childrenAt k names).runOn d).1 = .ok hs ∧ ∀ i : Nat,
      (names.map fun s => Path.text (k.path ++ [s]) d.delimiter)[i]? =
        some (h.path.text d.delimiter) → hs[i]? = some h := by
  induction names generalizing d with
  | nil =>
    refine ⟨[], rfl, fun i hi => ?_⟩
    cases hi
  | cons s rest ih =>
    obtain ⟨hslice, hloc⟩ := hnames s List.mem_cons_self
    let a : Address := ⟨[s], false, d.delimiter⟩
    have hends : a.endsWithSlice = false := hslice
    have hf := (follows_resolve hd a k.path true).1
    obtain ⟨c, hc⟩ := List.length_eq_one_iff.mp (length_resolve hends hloc true)
    have hchild : (k.child? s).runOn d = (.ok (some c), (d.resolve a k.path true).2) := by
      rw [runOn_child?, if_pos hk, hcaches]
      exact Prod.ext (by rw [hc]; rfl) rfl
    obtain ⟨hs, hrun, hall⟩ := ih hf.sound (hh.resolve hd a k.path true) (hhas.of_follows hf)
      (hhas.isValid_resolve hd hk a k.path true) (by rw [hf.settings, hcaches])
      (by
        intro u hu
        rw [value_resolve, hf.delimiter]
        exact hnames u (List.mem_cons_of_mem _ hu))
    refine ⟨c :: hs, ?_, fun i hi => ?_⟩
    · rw [View.childrenAt, runOn_bind, hchild]
      dsimp only
      rw [runOn_bind]
      cases hrest : (View.childrenAt k rest).runOn (d.resolve a k.path true).2 with
      | mk r d' =>
        rw [hrest] at hrun
        cases hrun
        rfl
    · cases i with
      | zero =>
        have hasked : (d.asked a k.path)[0]? = some (h.path.text d.delimiter) := by
          rw [asked, hends]
          exact hi
        have hfound := getElem?_resolve hd hh rfl hasked
        rw [hc] at hfound
        exact hfound
      | succ i =>
        rw [hf.delimiter] at hall
        exact hall i hi

theorem runOn_children (view : View) {v : Value} {names : List Segment}
    (hk : d.isValid view.handle = true) (hw : d.value.walk? view.handle.path = some v)
    (hv : View.segments v = some names) :
    view.children.runOn d = (View.childrenAt view.handle names).runOn d := by
  unfold View.children View.value
  rw [runOn_bind, runOn_rawValue, if_pos hk, hw]
  dsimp only
  rw [hv]

theorem found_viewCall (hd : d.Sound) (hh : d.Caches h) {view : View} (hhas : d.Has view.handle)
    (hk : d.isValid view.handle = true) (hcaches : d.settings.useCache = true) {call : ViewCall}
    {i : Nat} (hi : (call.asks d view)[i]? = some (h.path.text d.delimiter)) :
    ∃ a, ((call.run view).runOn d).1 = .ok a ∧ a.found[i]? = some h := by
  cases call with
  | get q =>
    simp only [ViewCall.asks] at hi
    split at hi
    · rename_i hvariant
      obtain ⟨rfl, rest, hr⟩ := resolve_eq_cons hd hh (Address.delimiter_parse q d.delimiter) hi
      refine ⟨.optional (some h), ?_, rfl⟩
      have hget : view.get? q = view.handle.get? q := by
        unfold View.get?
        cases hv : view.variant <;> first | rfl | (rw [hv] at hvariant; cases hvariant)
      rw [ViewCall.run, runOn_bind, hget, runOn_get?, if_pos hk, hcaches,
        show d.addressOf q = Address.parse q d.delimiter from rfl, hr]
      rfl
    · cases hi
  | children =>
    simp only [ViewCall.asks] at hi
    cases hw : d.value.walk? view.handle.path with
    | none =>
      rw [hw] at hi
      cases hi
    | some v =>
      cases hv : View.segments v with
      | none =>
        rw [hw, Option.bind_some, hv] at hi
        cases hi
      | some names =>
        rw [hw, Option.bind_some, hv] at hi
        have hnames : ∀ s ∈ names, s.isSlice = false ∧
            (d.value.locate? ⟨[s], false, d.delimiter⟩ view.handle.path).isSome = true := by
          intro s hs
          obtain ⟨hslice, hstep⟩ := Value.isSome_step?_of_segments hv hs
          refine ⟨hslice, ?_⟩
          rw [Value.locate?_of_not_slice (a := ⟨[s], false, d.delimiter⟩) hslice, Option.isSome_map]
          show (d.value.kindAt? (view.handle.path ++ [s])).isSome = true
          obtain ⟨w, hnext⟩ := Option.isSome_iff_exists.mp hstep
          rw [Value.kindAt?, Option.isSome_map, Value.walk?_append, hw, Option.bind_some,
            Value.walk?, hnext]
          rfl
        obtain ⟨hs, hrun, hall⟩ := found_childrenAt hd hh hhas hk hcaches hnames
        refine ⟨.handles hs, ?_, hall i hi⟩
        rw [ViewCall.run, runOn_bind, runOn_children view hk hw hv]
        cases hrest : (View.childrenAt view.handle names).runOn d with
        | mk r d' =>
          rw [hrest] at hrun
          cases hrun
          rfl
  | _ => cases hi

end

end Live

end LiveDocument
