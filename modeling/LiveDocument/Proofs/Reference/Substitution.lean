import LiveDocument.Reference.Expansion

/-!
# Substitution in any monad

Replacing the strings of a value is the same recursion whatever a reference costs to look up. What
two meanings of references have to do with each other, the two values that they give have to do with
each other, provided that it passes through composition.

* `places_eq`: what the references in a text name, read off its pieces.
* `isQueryChar_of_mem_places`: which characters occur in them.
* `Value.queries`: what the references in a value name. `queries_subset_of_walk?`: a value inside
  another names nothing else.
* `Passes`: a relation between operations that passes through composition.
* `Passes.expand`: it passes from the meanings of references to the values.
* `ok_of_mem_places`: a text is replaced only if each of its references means something.
-/

namespace LiveDocument

namespace Reference

/-! ## What references name -/

/-- The query of a reference to a place. -/
def Piece.place? : Piece → Option String
  | .reference .place _ query => some (String.ofList query)
  | _ => none

/-- What the references in a text name, read off its pieces. -/
theorem places_eq (s : String) : places s = (pieces s.toList).filterMap Piece.place? := by
  have hfrom : ∀ (ps : List Piece) (start : Nat),
      ((occurrencesFrom start ps).filter fun r => decide (r.method = .place)).map
        (fun r => String.ofList r.query) = ps.filterMap Piece.place? := by
    intro ps
    induction ps with
    | nil => exact fun start => rfl
    | cons p rest ih =>
      intro start
      cases p with
      | char c => exact ih _
      | reference method letter query =>
        cases method with
        | place => exact congrArg (String.ofList query :: ·) (ih _)
        | _ => exact ih _
  exact hfrom _ 0

theorem mem_places_of_mem_pieces {s : String} {letter : Char} {query : List Char}
    (h : Piece.reference .place letter query ∈ pieces s.toList) :
    String.ofList query ∈ places s := by
  rw [places_eq]
  exact List.mem_filterMap.mpr ⟨_, h, rfl⟩

theorem isQueryChar_of_leading? {cs : List Char} {method : Method} {letter : Char}
    {query : List Char} (h : leading? cs = some (.reference method letter query)) {c : Char}
    (hc : c ∈ query) : isQueryChar c = true := by
  unfold leading? at h
  split at h
  · split at h
    · dsimp only at h
      split at h
      · split at h
        · cases h
        · cases h
          exact List.all_eq_true.mp (List.all_takeWhile) c hc
      · cases h
    · cases h
  · cases h

/-- References name texts of query characters. -/
theorem isQueryChar_of_mem_places {s q : String} (h : q ∈ places s) {c : Char}
    (hc : c ∈ q.toList) : isQueryChar c = true := by
  have hpieces : ∀ (cs : List Char) (skip : Nat) {method : Method} {letter : Char}
      {query : List Char}, Piece.reference method letter query ∈ piecesFrom skip cs →
        ∀ c ∈ query, isQueryChar c = true := by
    intro cs
    induction cs with
    | nil =>
      intro skip method letter query hm
      cases skip <;> cases hm
    | cons x cs ih =>
      intro skip method letter query hm
      cases skip with
      | succ skip => exact ih skip hm
      | zero =>
        unfold piecesFrom at hm
        split at hm
        · rename_i piece hl
          rcases List.mem_cons.mp hm with rfl | hm
          · exact fun c hc => isQueryChar_of_leading? hl hc
          · exact ih _ hm
        · rcases List.mem_cons.mp hm with hm | hm
          · cases hm
          · exact ih _ hm
  rw [places_eq] at h
  obtain ⟨p, hp, hq⟩ := List.mem_filterMap.mp h
  cases p with
  | char c => cases hq
  | reference method letter query =>
    cases method with
    | place =>
      cases hq
      rw [String.toList_ofList] at hc
      exact hpieces _ 0 hp c hc
    | _ => cases hq

theorem notMem_of_mem_places {s q : String} (h : q ∈ places s) :
    '-' ∉ q.toList ∧ ':' ∉ q.toList := by
  constructor
  · intro hc
    have hchar := isQueryChar_of_mem_places h hc
    revert hchar
    decide
  · intro hc
    have hchar := isQueryChar_of_mem_places h hc
    revert hchar
    decide

end Reference

namespace Value

open Reference

/-- What the references to places in the strings of a value name. -/
def queries (v : Value) : List String :=
  v.strings.flatMap places

theorem mem_queries {v : Value} {q : String} : q ∈ v.queries ↔ ∃ s ∈ v.strings, q ∈ places s :=
  List.mem_flatMap

theorem mem_stringsAll {items : List Value} {s : String} :
    s ∈ stringsAll items ↔ ∃ item ∈ items, s ∈ item.strings := by
  induction items with
  | nil => simp [stringsAll]
  | cons item rest ih => simp [stringsAll, ih]

theorem mem_stringsEntries {entries : List (String × Value)} {s : String} :
    s ∈ stringsEntries entries ↔ ∃ e ∈ entries, s ∈ e.2.strings := by
  induction entries with
  | nil => simp [stringsEntries]
  | cons e rest ih =>
    obtain ⟨k, v⟩ := e
    simp [stringsEntries, ih]

/-- The strings of a value one step further in are strings of the whole. -/
theorem strings_subset_of_step? {v w : Value} {segment : Segment} (h : v.step? segment = some w) :
    w.strings ⊆ v.strings := by
  intro s hs
  cases v with
  | mapping entries =>
    obtain ⟨key, -, hk⟩ := Option.bind_eq_some_iff.mp h
    exact mem_stringsEntries.mpr ⟨_, Entries.mem_of_get? hk, hs⟩
  | sequence items =>
    cases segment with
    | index place =>
      obtain ⟨p, -, hp⟩ := Option.bind_eq_some_iff.mp h
      exact mem_stringsAll.mpr ⟨w, List.mem_of_getElem? hp, hs⟩
    | slice t =>
      obtain ⟨places, -, rfl⟩ := Option.map_eq_some_iff.mp h
      obtain ⟨item, hm, hitem⟩ := mem_stringsAll.mp hs
      obtain ⟨p, -, hp⟩ := List.mem_filterMap.mp hm
      exact mem_stringsAll.mpr ⟨item, List.mem_of_getElem? hp, hitem⟩
    | key name => cases h
  | _ => cases h

theorem strings_subset_of_walk? {v w : Value} {path : Path} (h : v.walk? path = some w) :
    w.strings ⊆ v.strings := by
  induction path generalizing v with
  | nil =>
    cases h
    exact List.Subset.refl _
  | cons segment rest ih =>
    obtain ⟨next, hn, hw⟩ := Option.bind_eq_some_iff.mp h
    exact List.Subset.trans (ih hw) (strings_subset_of_step? hn)

/-- A value inside another names nothing else. -/
theorem queries_subset_of_walk? {v w : Value} {path : Path} (h : v.walk? path = some w) :
    w.queries ⊆ v.queries := by
  intro q hq
  obtain ⟨s, hs, hm⟩ := mem_queries.mp hq
  exact mem_queries.mpr ⟨s, strings_subset_of_walk? h hs, hm⟩

end Value

/-! ## Composition -/

/-- A relation between operations of two monads that passes through composition. -/
structure Passes {m n : Type → Type} [Monad m] [Monad n]
    (R : ∀ α : Type, m α → n α → Prop) : Prop where
  pure : ∀ {α : Type} (a : α), R _ (pure a : m α) (pure a : n α)
  bind : ∀ {α β : Type} {x : m α} {y : n α} {f : α → m β} {g : α → n β}, R _ x y →
    (∀ a, R _ (f a) (g a)) → R _ (x >>= f) (y >>= g)

namespace Passes

variable {m n : Type → Type} [Monad m] [Monad n] {R : ∀ α : Type, m α → n α → Prop}

mutual

theorem substitute (hR : Passes R) {f : String → m Value} {g : String → n Value} :
    ∀ v : Value, (∀ s ∈ v.strings, R _ (f s) (g s)) → R _ (v.substitute f) (v.substitute g)
  | .string s, h => by
    rw [Value.substitute, Value.substitute]
    exact h s (List.mem_singleton.mpr rfl)
  | .sequence items, h => by
    rw [Value.substitute, Value.substitute]
    exact hR.bind (substituteAll hR items h) fun _ => hR.pure _
  | .mapping entries, h => by
    rw [Value.substitute, Value.substitute]
    exact hR.bind (substituteEntries hR entries h) fun _ => hR.pure _
  | .null, _ => hR.pure _
  | .boolean _, _ => hR.pure _
  | .integer _, _ => hR.pure _
  | .float _, _ => hR.pure _

theorem substituteAll (hR : Passes R) {f : String → m Value} {g : String → n Value} :
    ∀ items : List Value, (∀ s ∈ Value.stringsAll items, R _ (f s) (g s)) →
      R _ (Value.substituteAll f items) (Value.substituteAll g items)
  | [], _ => hR.pure _
  | item :: items, h => by
    rw [Value.substituteAll, Value.substituteAll]
    have hitem := substitute hR item fun s hs => h s (List.mem_append_left _ hs)
    have hrest := substituteAll hR items fun s hs => h s (List.mem_append_right _ hs)
    exact hR.bind hitem fun _ => hR.bind hrest fun _ => hR.pure _

theorem substituteEntries (hR : Passes R) {f : String → m Value} {g : String → n Value} :
    ∀ entries : List (String × Value), (∀ s ∈ Value.stringsEntries entries, R _ (f s) (g s)) →
      R _ (Value.substituteEntries f entries) (Value.substituteEntries g entries)
  | [], _ => hR.pure _
  | (_, value) :: entries, h => by
    rw [Value.substituteEntries, Value.substituteEntries]
    have hvalue := substitute hR value fun s hs => h s (List.mem_append_left _ hs)
    have hrest := substituteEntries hR entries fun s hs => h s (List.mem_append_right _ hs)
    exact hR.bind hvalue fun _ => hR.bind hrest fun _ => hR.pure _

end

variable {env : Environment} {f : String → m Value} {g : String → n Value}

open Reference

theorem valueOf (hR : Passes R) {method : Method} {query : List Char}
    (h : method = .place → R _ (f (String.ofList query)) (g (String.ofList query))) :
    R _ (Reference.valueOf env f method query) (Reference.valueOf env g method query) := by
  cases method with
  | place => exact h rfl
  | _ => exact hR.pure _

theorem splice (hR : Passes R) {ps : List Piece}
    (h : ∀ q ∈ ps.filterMap Piece.place?, R _ (f q) (g q)) :
    R _ (Reference.splice env f ps) (Reference.splice env g ps) := by
  induction ps with
  | nil => exact hR.pure _
  | cons p rest ih =>
    cases p with
    | char c =>
      rw [Reference.splice, Reference.splice]
      exact hR.bind (ih h) fun _ => hR.pure _
    | reference method letter query =>
      have hrest : ∀ q ∈ rest.filterMap Piece.place?, R _ (f q) (g q) := fun q hq =>
        h q (List.mem_filterMap.mpr (by
          obtain ⟨p, hp, he⟩ := List.mem_filterMap.mp hq
          exact ⟨p, List.mem_cons_of_mem _ hp, he⟩))
      have hvalue : R _ (Reference.valueOf env f method query)
          (Reference.valueOf env g method query) := by
        refine hR.valueOf fun hm => ?_
        subst hm
        exact h _ (List.mem_filterMap.mpr ⟨_, List.mem_cons_self, rfl⟩)
      rw [Reference.splice, Reference.splice]
      exact hR.bind hvalue fun _ => hR.bind (ih hrest) fun _ => hR.pure _

end Passes

namespace Reference

/-- What stands alone among blanks is the only reference among the pieces. -/
theorem only?_eq_some {ps : List Piece} {method : Method} {query : List Char}
    (h : only? ps = some (method, query)) :
    (∃ letter, Piece.reference method letter query ∈ ps) ∧
      ∀ {method' : Method} {letter : Char} {query' : List Char},
        Piece.reference method' letter query' ∈ ps → method' = method ∧ query' = query := by
  unfold only? at h
  split at h
  · rename_i method₁ letter₁ query₁ hfilter
    cases h
    constructor
    · have hm := List.mem_singleton.mpr (rfl : Piece.reference method letter₁ query = _)
      rw [← hfilter] at hm
      exact ⟨letter₁, (List.mem_filter.mp hm).1⟩
    · intro method' letter query' hp
      have hm : Piece.reference method' letter query' ∈
          [Piece.reference method letter₁ query] := by
        rw [← hfilter]
        exact List.mem_filter.mpr ⟨hp, rfl⟩
      cases List.mem_singleton.mp hm
      exact ⟨rfl, rfl⟩
  · cases h

end Reference

namespace Passes

variable {m n : Type → Type} [Monad m] [Monad n] {R : ∀ α : Type, m α → n α → Prop}
  {env : Environment} {f : String → m Value} {g : String → n Value}

open Reference

theorem expandText (hR : Passes R) {s : String} (h : ∀ q ∈ places s, R _ (f q) (g q)) :
    R _ (Reference.expandText env f s) (Reference.expandText env g s) := by
  unfold Reference.expandText
  dsimp only
  split
  · exact hR.pure _
  · cases ho : only? (pieces s.toList) with
    | some found =>
      obtain ⟨method, query⟩ := found
      refine hR.valueOf fun hm => ?_
      subst hm
      obtain ⟨letter, hp⟩ := (only?_eq_some ho).1
      exact h _ (mem_places_of_mem_pieces hp)
    | none =>
      rw [places_eq] at h
      exact hR.bind (hR.splice h) fun _ => hR.pure _

/-- What the meanings of references have to do with each other, the expanded values have. -/
theorem expand (hR : Passes R) {v : Value} (h : ∀ q ∈ v.queries, R _ (f q) (g q)) :
    R _ (v.substitute (Reference.expandText env f)) (v.substitute (Reference.expandText env g)) :=
  hR.substitute v fun s hs => hR.expandText fun q hq => h q (Value.mem_queries.mpr ⟨s, hs, hq⟩)

end Passes

/-! ## Success and failure -/

namespace Reference

variable {ε : Type} {env : Environment} {f : String → Except ε Value}

theorem passes_eq {m : Type → Type} [Monad m] : Passes fun (α : Type) (x y : m α) => x = y where
  pure := fun _ => rfl
  bind := by
    rintro α β x y f g rfl hf
    rw [funext hf]

/-- An operation that succeeds with the result of a plain one. -/
theorem passes_ok : Passes fun (α : Type) (x : Except ε α) (y : Id α) => x = .ok y.run where
  pure := fun _ => rfl
  bind := by
    rintro α β x y f g rfl hf
    exact hf y.run

/-- An operation that fails only for reasons of a certain kind. -/
theorem passes_error {P : ε → Prop} :
    Passes fun (α : Type) (x : Except ε α) (_ : Id α) => ∀ e, x = .error e → P e where
  pure := by
    intro α a e he
    cases he
  bind := by
    intro α β x y f g hx hf e he
    cases x with
    | error e' =>
      cases he
      exact hx e rfl
    | ok a => exact hf a e he

theorem exists_of_bind_ok {α β : Type} {x : Except ε α} {f : α → Except ε β} {b : β}
    (h : (x >>= f) = .ok b) : ∃ a, x = .ok a ∧ f a = .ok b := by
  cases x with
  | error e => cases h
  | ok a => exact ⟨a, rfl, h⟩

theorem ok_of_mem_splice {ps : List Piece} {cs : List Char} (h : splice env f ps = .ok cs)
    {q : String} (hq : q ∈ ps.filterMap Piece.place?) : ∃ u, f q = .ok u := by
  induction ps generalizing cs with
  | nil => cases hq
  | cons p rest ih =>
    cases p with
    | char c =>
      rw [splice] at h
      obtain ⟨tail, hrest, -⟩ := exists_of_bind_ok h
      exact ih hrest hq
    | reference method letter query =>
      rw [splice] at h
      obtain ⟨u, hu, h⟩ := exists_of_bind_ok h
      obtain ⟨tail, hrest, -⟩ := exists_of_bind_ok h
      cases method with
      | place =>
        rcases List.mem_cons.mp hq with rfl | hq
        · exact ⟨u, hu⟩
        · exact ih hrest hq
      | _ => exact ih hrest hq

/-- A text is replaced only if each of its references means something. -/
theorem ok_of_mem_places {s : String} {w : Value} (h : expandText env f s = .ok w) {q : String}
    (hq : q ∈ places s) : ∃ u, f q = .ok u := by
  rw [places_eq] at hq
  unfold expandText at h
  dsimp only at h
  split at h
  · rename_i hnone
    -- Without any reference there is nothing to find.
    obtain ⟨p, hp, hplace⟩ := List.mem_filterMap.mp hq
    have hall := (Bool.not_eq_true' _).mp hnone
    unfold anyReference at hall
    have hfalse := List.any_eq_false.mp hall p hp
    cases p with
    | char c => cases hplace
    | reference method letter query => exact absurd rfl hfalse
  · split at h
    · rename_i method query ho
      -- A single reference among blanks is the only one.
      obtain ⟨p, hp, hplace⟩ := List.mem_filterMap.mp hq
      cases p with
      | char c => cases hplace
      | reference method' letter query' =>
        obtain ⟨rfl, rfl⟩ := (only?_eq_some ho).2 hp
        cases method' with
        | place =>
          cases hplace
          exact ⟨w, h⟩
        | _ => cases hplace
    · obtain ⟨cs, hs, -⟩ := exists_of_bind_ok h
      exact ok_of_mem_splice hs hq

end Reference

end LiveDocument
