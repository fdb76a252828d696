import LiveDocument.Proofs.Session.Direct
import LiveDocument.Proofs.Session.Likeness

/-!
# Sessions that are seen as the same

Two sessions mirror each other if they have one value, and if registers with the same names keep
handles that are seen as the same. Direct steps that ask for the same come down to alike deeds in
both, or drop the same registers; what they tell is the same but which handles are the same one.

* `Mirrors`: sessions that are seen as the same.
* `Action.Matches`, `Step.Matches`: actions and steps that ask for the same.
* `Mirrors.like_deed`, `Mirrors.parallel`: what two sessions do for such steps.
* `mirrors_perform`: operations that are seen to answer the same tell the same.
-/

namespace LiveDocument

/-- Actions that ask for the same, explicit queries perhaps with other cache flags. -/
inductive Action.Matches : Action → Action → Prop where
  | same (action : Action) : Matches action action
  | documentQuery (q : Query) (b b' : Bool) :
      Matches (.document (.queryWith q b)) (.document (.queryWith q b'))
  | handleQuery (name : String) (q : Query) (b b' : Bool) :
      Matches (.handle name (.queryWith q b)) (.handle name (.queryWith q b'))

/-- Steps that ask for the same and store it in the same register. -/
structure Step.Matches (x y : Step) : Prop where
  action : x.action.Matches y.action
  store : x.store = y.store

/-- The action is direct and does not end the validity of a handle explicitly. -/
def Action.Lasting (delimiter : String) : Action → Prop
  | .handle _ .invalidate => False
  | action => action.Direct delimiter

instance (delimiter : String) (action : Action) : Decidable (action.Lasting delimiter) := by
  unfold Action.Lasting
  split <;> infer_instance

/-- A report that does not tell which registers keep the same handle. -/
def HandleReport.anonymous (r : HandleReport) : HandleReport :=
  { r with same := [] }

/-- A reply that does not tell handles from others that are seen as the same. -/
def Reply.anonymous (r : Reply) : Reply :=
  { r with answer := r.answer.map (Answer.map HandleReport.anonymous), cached := 0 }

namespace Session

/-- A register as it is seen. -/
def sightIn (d : Document) (entry : String × Register) : String × Sight :=
  (entry.1, d.sight entry.2.watched)

/-- Two sessions that are seen as the same. -/
structure Mirrors (s s' : Session) : Prop where
  value : s.document.value = s'.document.value
  delimiter : s.document.delimiter = s'.document.delimiter
  registers : s.registers.map (sightIn s.document) = s'.registers.map (sightIn s'.document)

/-! ## Registers -/

section

variable {s s' : Session}

theorem register?_sight (s : Session) (d : Document) (name : String) :
    (s.register? name).map (fun r => d.sight r.watched) =
      ((s.registers.map (sightIn d)).find? fun entry => entry.1 == name).map Prod.snd := by
  rw [register?, List.find?_map, Option.map_map, Option.map_map]
  rfl

/-- A register keeps in both sessions what is seen as the same, or in none. -/
theorem Mirrors.register? (h : Mirrors s s') (name : String) :
    (s.register? name = none ∧ s'.register? name = none) ∨
      ∃ r r', s.register? name = some r ∧ s'.register? name = some r' ∧
        s.document.sight r.watched = s'.document.sight r'.watched := by
  have hsame := register?_sight s s.document name
  rw [h.registers, ← register?_sight s' s'.document name] at hsame
  cases hr : s.register? name with
  | none =>
    rw [hr] at hsame
    exact Or.inl ⟨rfl, Option.map_eq_none_iff.mp hsame.symm⟩
  | some r =>
    rw [hr] at hsame
    obtain ⟨r', hr', hsight⟩ := Option.map_eq_some_iff.mp hsame.symm
    exact Or.inr ⟨r, r', rfl, hr', hsight.symm⟩

/-- The names of the registers that are valid, and of those that are not. -/
theorem names_partition (hf : s.Faithful) :
    (s.registers.partition fun entry => s.isLive entry.2).1.map Prod.fst =
        ((s.registers.map (sightIn s.document)).filter fun entry => entry.2.valid).map Prod.fst ∧
      (s.registers.partition fun entry => s.isLive entry.2).2.map Prod.fst =
        ((s.registers.map (sightIn s.document)).filter fun entry => !entry.2.valid).map
          Prod.fst := by
  have hlive : ∀ entry ∈ s.registers, s.isLive entry.2 = s.document.isValid entry.2.watched := by
    intro entry hentry
    unfold isLive
    rw [hf.register hentry]
    rfl
  rw [List.partition_eq_filter_filter, List.filter_map, List.filter_map, List.map_map,
    List.map_map]
  constructor
  · exact congrArg (List.map Prod.fst) (List.filter_congr hlive)
  · refine congrArg (List.map Prod.fst) (List.filter_congr fun entry hentry => ?_)
    exact congrArg not (hlive entry hentry)

/-- A register stored in lists that are seen as the same leaves such lists. -/
theorem map_storeAmong {d d' : Document} (name : String) {r r' : Register}
    (hr : d.sight r.watched = d'.sight r'.watched) {known known' : List (String × Register)}
    (h : known.map (sightIn d) = known'.map (sightIn d')) :
    (storeAmong name r known).map (sightIn d) = (storeAmong name r' known').map (sightIn d') := by
  have hnew : sightIn d (name, r) = sightIn d' (name, r') := congrArg (Prod.mk name) hr
  induction known generalizing known' with
  | nil =>
    rw [List.map_eq_nil_iff.mp h.symm]
    exact congrArg (fun x => [x]) hnew
  | cons entry rest ih =>
    cases known' with
    | nil => cases h
    | cons entry' rest' =>
      obtain ⟨hentry, hrest⟩ := List.cons.inj h
      have hname : entry.1 = entry'.1 := (Prod.mk.inj hentry).1
      unfold storeAmong
      rw [← hname]
      split
      · rw [List.map_cons, List.map_cons, hnew, hrest]
      · split
        · rw [List.map_cons, List.map_cons, hentry, ih hrest]
        · rw [List.map_cons, List.map_cons (l := entry' :: rest'), hnew, h]

theorem map_store {d d' : Document} {entries entries' : List (String × Register)}
    (he : entries.map (sightIn d) = entries'.map (sightIn d'))
    (h : s.registers.map (sightIn d) = s'.registers.map (sightIn d')) :
    (s.store entries).registers.map (sightIn d) =
      (s'.store entries').registers.map (sightIn d') := by
  have hfold : ∀ (entries entries' known known' : List (String × Register)),
      entries.map (sightIn d) = entries'.map (sightIn d') →
      known.map (sightIn d) = known'.map (sightIn d') →
      (entries.foldl (fun known e => storeAmong e.1 e.2 known) known).map (sightIn d) =
        (entries'.foldl (fun known e => storeAmong e.1 e.2 known) known').map (sightIn d') := by
    intro entries
    induction entries with
    | nil =>
      intro entries' known known' he hk
      rw [List.map_eq_nil_iff.mp he.symm]
      exact hk
    | cons entry rest ih =>
      intro entries' known known' he hk
      cases entries' with
      | nil => cases he
      | cons entry' rest' =>
        obtain ⟨hentry, hrest⟩ := List.cons.inj he
        obtain ⟨hname, hsight⟩ := Prod.mk.inj hentry
        refine ih rest' _ _ hrest ?_
        show _ = (storeAmong entry'.1 entry'.2 known').map (sightIn d')
        rw [← hname]
        exact map_storeAmong entry.1 hsight hk
  exact hfold entries entries' s.registers s'.registers he h

/-- The registers for an answer, as they are seen. -/
def marks (name : String) : Answer Sight → List (String × Sight)
  | .handle s => [(name, s)]
  | .optional (some s) => [(name, s)]
  | .handles ss => ss.zipIdx.map fun (s, i) => (name ++ String.ofList (Text.decimal i), s)
  | .view s _ => [(name, s)]
  | _ => []

theorem map_kept (d : Document) (n : Nat) (name : String) (a : Answer Handle) :
    (kept n name a).map (sightIn d) = marks name (a.map d.sight) := by
  cases a with
  | optional h => cases h <;> rfl
  | handles hs =>
    show ((hs.zipIdx).map _).map (sightIn d) = ((hs.map d.sight).zipIdx).map _
    rw [List.zipIdx_map, List.map_map, List.map_map]
    rfl
  | _ => rfl

/-! ## Operations -/

/-- The report on a handle, from how it is seen. -/
def reportOn (v : Value) (delimiter : String) (x : Sight) : HandleReport where
  address := x.path.address delimiter
  path := x.path
  valid := x.valid
  same := []
  raw :=
    if x.valid then
      match v.walk? x.path with
      | some w => .ok w
      | none => .error (.invalidReference (x.path.address delimiter))
    else .error (.invalidReference (x.path.address delimiter))

theorem anonymous_report (s : Session) (n : Nat) (d : Document) (h : Handle) :
    (s.report n d h).anonymous = reportOn d.value d.delimiter (d.sight h) := by
  unfold report HandleReport.anonymous reportOn
  rw [Live.runOn_rawValue]
  rfl

theorem map_map_answer {H K L : Type} (f : H → K) (g : K → L) (a : Answer H) :
    (a.map f).map g = a.map (g ∘ f) := by
  cases a with
  | optional h => cases h <;> rfl
  | handles hs => exact congrArg Answer.handles (List.map_map)
  | _ => rfl

end

/-! ## Steps -/

section

variable {s s' : Session} {step step' : Step}

/-- Lists that look alike in one way look alike in another one, if their entries do. -/
theorem map_registers_congr {K L : Type} {f f' : String × Register → K}
    {g g' : String × Register → L} {entries entries' : List (String × Register)}
    (h : entries.map f = entries'.map f')
    (hentry : ∀ x ∈ entries, ∀ y ∈ entries', f x = f' y → g x = g' y) :
    entries.map g = entries'.map g' := by
  induction entries generalizing entries' with
  | nil =>
    rw [List.map_eq_nil_iff.mp h.symm]
    rfl
  | cons x rest ih =>
    cases entries' with
    | nil => cases h
    | cons y rest' =>
      obtain ⟨hfirst, hrest⟩ := List.cons.inj h
      rw [List.map_cons, List.map_cons,
        hentry x List.mem_cons_self y List.mem_cons_self hfirst,
        ih hrest fun z hz w hw =>
          hentry z (List.mem_cons_of_mem _ hz) w (List.mem_cons_of_mem _ hw)]

theorem Mirrors.direct (hm : Mirrors s s') {action action' : Action} (h : action.Matches action')
    (haction : action.Lasting s.document.delimiter) :
    action.Direct s.document.delimiter ∧ action'.Direct s'.document.delimiter := by
  have hdirect : action.Direct s.document.delimiter := by
    unfold Action.Lasting at haction
    split at haction
    · cases haction
    · exact haction
  refine ⟨hdirect, ?_⟩
  rw [hm.delimiter] at hdirect
  cases h <;> exact hdirect

/-- Actions that ask for the same come down to alike deeds. -/
theorem Mirrors.like_deed (hm : Mirrors s s') {action action' : Action}
    (h : action.Matches action') (haction : action.Lasting s.document.delimiter) :
    Deed.Like s.document s'.document (s.deed action) (s'.deed action') := by
  have haddress : ∀ q, s.document.addressOf q = s'.document.addressOf q := by
    intro q
    rw [Document.addressOf, Document.addressOf, hm.delimiter]
  cases h with
  | same =>
    cases action with
    | document call => exact Deed.like_documentCall hm.value hm.delimiter call
    | handle name call =>
      rcases hm.register? name with ⟨hr, hr'⟩ | ⟨r, r', hr, hr', hsight⟩
      · rw [deed_handle_none hr, deed_handle_none hr']
        exact Deed.Like.tell rfl
      · rw [deed_handle hr, deed_handle hr']
        refine Deed.like_handleCall hm.value hm.delimiter hsight ?_
        rintro rfl
        exact haction
    | _ => exact Deed.Like.tell rfl
  | documentQuery q b b' =>
    simp only [deed, DocumentCall.deed, haddress]
    exact Deed.Like.all _ _ _ _
  | handleQuery name q b b' =>
    rcases hm.register? name with ⟨hr, hr'⟩ | ⟨r, r', hr, hr', hsight⟩
    · rw [deed_handle_none hr, deed_handle_none hr']
      exact Deed.Like.tell rfl
    · rw [deed_handle hr, deed_handle hr']
      simp only [HandleCall.deed, haddress, (Sight.mk.inj hsight).1]
      exact (Deed.Like.all _ _ _ _).through hm.delimiter hsight

/-- What two sessions do for steps that ask for the same: both carry their deeds out, or both tell
the same and drop the registers with some names. -/
def Parallel (s s' : Session) (step step' : Step) : Prop :=
  (∃ call call', s.act step = s.perform 0 call step.store ∧
    s'.act step' = s'.perform 0 call' step'.store ∧
    call.runOn s.document = (s.deed step.action).run s.document ∧
    call'.runOn s'.document = (s'.deed step'.action).run s'.document) ∨
  ∃ told, ∃ p : String → Bool,
    s.act step = (told, { s with registers := s.registers.filter fun entry => p entry.1 }) ∧
    s'.act step' = (told, { s' with registers := s'.registers.filter fun entry => p entry.1 })

theorem parallel_document (s s' : Session) {call call' : DocumentCall} (store : Option String)
    (hcall : call.Direct s.document.delimiter) (hcall' : call'.Direct s'.document.delimiter) :
    Parallel s s' ⟨.document call, store⟩ ⟨.document call', store⟩ :=
  Or.inl ⟨_, _, rfl, rfl, Live.runOn_documentCall s.environment s.document hcall,
    Live.runOn_documentCall s'.environment s'.document hcall'⟩

theorem Mirrors.parallel_handle (hm : Mirrors s s') (hf : s.Faithful) (hf' : s'.Faithful)
    (name : String) {call call' : HandleCall} (store : Option String)
    (hcall : call.Direct s.document.delimiter) (hcall' : call'.Direct s'.document.delimiter) :
    Parallel s s' ⟨.handle name call, store⟩ ⟨.handle name call', store⟩ := by
  rcases hm.register? name with ⟨hr, hr'⟩ | ⟨r, r', hr, hr', -⟩
  · refine Or.inr ⟨.error .noRegister, fun _ => true, ?_, ?_⟩
    · rw [act_handle_none hr, List.filter_eq_self.mpr fun _ _ => rfl]
    · rw [act_handle_none hr', List.filter_eq_self.mpr fun _ _ => rfl]
  · have hact := act_handle hr call store
    have hact' := act_handle hr' call' store
    rw [hf.register (mem_of_register? hr)] at hact
    rw [hf'.register (mem_of_register? hr')] at hact'
    refine Or.inl ⟨_, _, hact, hact', ?_, ?_⟩
    · rw [deed_handle hr]
      exact Live.runOn_handleCall s.environment s.document r.watched hcall
    · rw [deed_handle hr']
      exact Live.runOn_handleCall s'.environment s'.document r'.watched hcall'

theorem Mirrors.parallel (hm : Mirrors s s') (hf : s.Faithful) (hf' : s'.Faithful)
    (h : step.Matches step') (hstep : step.action.Lasting s.document.delimiter) :
    Parallel s s' step step' := by
  obtain ⟨hdirect, hdirect'⟩ := hm.direct h.action hstep
  obtain ⟨action, store⟩ := step
  obtain ⟨action', store'⟩ := step'
  obtain ⟨haction, rfl⟩ := h
  cases haction with
  | same =>
    cases action with
    | document call => exact parallel_document s s' store hdirect hdirect'
    | handle name call => exact hm.parallel_handle hf hf' name store hdirect hdirect'
    | drop name =>
      have hsame := congrArg Option.isSome (register?_sight s s.document name)
      rw [hm.registers, ← register?_sight s' s'.document name, Option.isSome_map,
        Option.isSome_map] at hsame
      refine Or.inr ⟨.ok (.flag (s.register? name).isSome), fun known => known != name, rfl, ?_⟩
      rw [hsame]
      rfl
    | dropAll =>
      refine Or.inr ⟨.ok .nothing, fun _ => false, ?_, ?_⟩
      · rw [List.filter_eq_nil_iff.mpr fun _ _ => Bool.false_ne_true]
        rfl
      · rw [List.filter_eq_nil_iff.mpr fun _ _ => Bool.false_ne_true]
        rfl
    | _ => cases hdirect
  | documentQuery q b b' => exact parallel_document s s' store hdirect hdirect'
  | handleQuery name q b b' => exact hm.parallel_handle hf hf' name store hdirect hdirect'

/-- Operations that are seen to answer the same and leave one value tell the same, and leave
registers that are seen as the same. -/
theorem mirrors_perform {call call' : Live (Answer Handle)}
    {r r' : Except Failure (Answer Handle) × Document} (hcall : call.runOn s.document = r)
    (hcall' : call'.runOn s'.document = r')
    (hresult : r.1.map (Answer.map r.2.sight) = r'.1.map (Answer.map r'.2.sight))
    (hvalue : r.2.value = r'.2.value) (hdelimiter : r.2.delimiter = r'.2.delimiter)
    (hold : s.registers.map (sightIn r.2) = s'.registers.map (sightIn r'.2))
    (name : Option String) :
    (s.perform 0 call name).1.map (Answer.map HandleReport.anonymous) =
        (s'.perform 0 call' name).1.map (Answer.map HandleReport.anonymous) ∧
      (s.perform 0 call name).2.registers.map (sightIn r.2) =
        (s'.perform 0 call' name).2.registers.map (sightIn r'.2) := by
  obtain ⟨result, d⟩ := r
  obtain ⟨result', d'⟩ := r'
  cases result with
  | error f =>
    cases result' with
    | error f' =>
      cases hresult
      rw [perform_of_error (n := 0) rfl hcall, perform_of_error (n := 0) rfl hcall']
      exact ⟨rfl, hold⟩
    | ok a' => cases hresult
  | ok a =>
    cases result' with
    | error f' => cases hresult
    | ok a' =>
      have hanswer : a.map d.sight = a'.map d'.sight := Except.ok.inj hresult
      have htold : ∀ (t : Session) (e : Document) (b : Answer Handle),
          (b.map (t.report 0 e)).map HandleReport.anonymous =
            (b.map e.sight).map (reportOn e.value e.delimiter) := by
        intro t e b
        rw [map_map_answer, map_map_answer]
        exact congrArg b.map (funext fun h => anonymous_report t 0 e h)
      have hanonymous : (a.map ((s.setDocument 0 d).report 0 d)).map HandleReport.anonymous =
          (a'.map ((s'.setDocument 0 d').report 0 d')).map HandleReport.anonymous := by
        rw [htold, htold, hanswer, hvalue, hdelimiter]
      rw [perform_of_ok (n := 0) rfl hcall, perform_of_ok (n := 0) rfl hcall']
      cases name with
      | none => exact ⟨congrArg Except.ok hanonymous, hold⟩
      | some name =>
        refine ⟨congrArg Except.ok hanonymous, map_store ?_ hold⟩
        rw [map_kept, map_kept, hanswer]

end

end Session

end LiveDocument
