import LiveDocument.Proofs.Session.Calls
import LiveDocument.Session.Basic

/-!
# Runs of a session

A step carries an action out and then lets go of the handles that no register keeps. Whatever the
action is, every document follows from the one before, and every register keeps a handle that its
document has. A handle is issued by exactly one step of a run, which is told by its serial number.

* `Sound`: the invariant of a session. `sound_after`: it holds along every run from the start.
* `advances_act`: what an action does to the documents and the registers.
* `mem_held_run`: after a step, exactly the handles that registers keep are held.
* `exists_issues`: every serial number that has been handed out was handed out by some step.
* `isSome_key_of_issues`: a handle is in the cache if the step that issued it caches.
-/

namespace LiveDocument

/-- Whether the handles that an action issues are issued for the cache. -/
def Action.caches (settings : Settings) : Action → Bool
  | .document call => call.caches settings
  | .handle _ call => call.caches settings
  | _ => settings.useCache

namespace Session

/-- The session after steps one after the other. -/
def after (s : Session) : List Step → Session
  | [] => s
  | step :: rest => (s.run step).2.after rest

theorem after_append (s : Session) (steps rest : List Step) :
    s.after (steps ++ rest) = (s.after steps).after rest := by
  induction steps generalizing s with
  | nil => rfl
  | cons step steps ih => exact ih _

/-- A session on a value for which no handle has been issued. -/
def opening (env : Environment) (value : Value) (settings : Settings) : Session :=
  start env (Document.ofValue value settings)

/-- How many tickets have been issued in a document. -/
def issued (s : Session) (n : Nat) : Nat :=
  ((s.document? n).map fun d => d.arena.issued).getD 0

/-- The step issues the handle in a document: its serial number is among the new ones. -/
def Issues (s : Session) (step : Step) (n : Nat) (h : Handle) : Prop :=
  s.issued n ≤ h.ticket.serial ∧ h.ticket.serial < (s.run step).2.issued n

/-- The invariant of a session. -/
structure Sound (s : Session) : Prop where
  document : ∀ {n : Nat} {d : Document}, s.document? n = some d →
    d.Sound ∧ d.settings = s.document.settings
  register : ∀ {entry : String × Register}, entry ∈ s.registers →
    ∃ d, s.document? entry.2.document = some d ∧ d.Has entry.2.watched

theorem Sound.own {s : Session} (hs : s.Sound) : s.document.Sound :=
  (hs.document (n := 0) rfl).1

/-- What an action does: every document follows, a new one has its own handles only, and every
new register keeps a handle that its document has. -/
structure Advances (useCache : Bool) (s s' : Session) : Prop where
  follows : ∀ {n : Nat} {d : Document}, s.document? n = some d →
    ∃ d', s'.document? n = some d' ∧ Document.Follows useCache d d'
  fresh : ∀ {n : Nat} {d' : Document}, s'.document? n = some d' → s.document? n = none →
    d'.Sound ∧ d'.settings = s.document.settings ∧
      ∀ {t : Tenant Digest}, d'.arena.Houses t → t.key.isSome = useCache
  registers : ∀ {entry : String × Register}, entry ∈ s'.registers → entry ∈ s.registers ∨
    ∃ d', s'.document? entry.2.document = some d' ∧ d'.Has entry.2.watched

/-! ## Documents and registers -/

theorem document?_setDocument {s : Session} {n : Nat} {d : Document} (h : s.document? n = some d)
    (d' : Document) (m : Nat) :
    (s.setDocument n d').document? m = if m = n then some d' else s.document? m := by
  cases n with
  | zero => cases m <;> simp [setDocument, document?]
  | succ n =>
    cases m with
    | zero => simp [setDocument, document?]
    | succ m =>
      have hlt : n < s.detached.length := (List.getElem?_eq_some_iff.mp h).1
      by_cases hm : m = n
      · subst hm
        simp [setDocument, document?, hlt]
      · simp [setDocument, document?, hm, List.getElem?_set_ne (Ne.symm hm)]

@[simp] theorem registers_setDocument (s : Session) (n : Nat) (d : Document) :
    (s.setDocument n d).registers = s.registers := by
  cases n <;> rfl

@[simp] theorem document?_store (s : Session) (entries : List (String × Register)) (n : Nat) :
    (s.store entries).document? n = s.document? n := by
  cases n <;> rfl

theorem mem_storeAmong {name : String} {r : Register} {known : List (String × Register)}
    {entry : String × Register} (h : entry ∈ storeAmong name r known) :
    entry = (name, r) ∨ entry ∈ known := by
  induction known with
  | nil => exact Or.inl (List.mem_singleton.mp h)
  | cons e rest ih =>
    unfold storeAmong at h
    split at h
    · rcases List.mem_cons.mp h with he | hr
      · exact Or.inl he
      · exact Or.inr (List.mem_cons_of_mem _ hr)
    · split at h
      · rcases List.mem_cons.mp h with rfl | hr
        · exact Or.inr List.mem_cons_self
        · exact (ih hr).imp_right (List.mem_cons_of_mem _)
      · exact List.mem_cons.mp h

theorem mem_store {s : Session} {entries : List (String × Register)} {entry : String × Register}
    (h : entry ∈ (s.store entries).registers) : entry ∈ s.registers ∨ entry ∈ entries := by
  have hfold : ∀ (entries known : List (String × Register)),
      entry ∈ entries.foldl (fun known e => storeAmong e.1 e.2 known) known →
        entry ∈ known ∨ entry ∈ entries := by
    intro entries
    induction entries with
    | nil => exact fun known hk => Or.inl hk
    | cons e rest ih =>
      intro known hk
      rcases ih _ hk with hs | hr
      · rcases mem_storeAmong hs with rfl | hm
        · exact Or.inr List.mem_cons_self
        · exact Or.inl hm
      · exact Or.inr (List.mem_cons_of_mem _ hr)
  exact hfold entries s.registers h

/-- The registers for an answer keep its handles. -/
theorem of_mem_kept {n : Nat} {name : String} {answer : Answer Handle}
    {entry : String × Register} (h : entry ∈ kept n name answer) :
    entry.2.document = n ∧ entry.2.watched ∈ answer.found := by
  cases answer with
  | handle k =>
    obtain rfl := List.mem_singleton.mp h
    exact ⟨rfl, List.mem_singleton.mpr rfl⟩
  | optional k =>
    cases k with
    | none => cases h
    | some k =>
      obtain rfl := List.mem_singleton.mp h
      exact ⟨rfl, List.mem_singleton.mpr rfl⟩
  | handles hs =>
    obtain ⟨⟨k, i⟩, hk, rfl⟩ := List.mem_map.mp h
    exact ⟨rfl, List.fst_mem_of_mem_zipIdx hk⟩
  | view k variant =>
    obtain rfl := List.mem_singleton.mp h
    exact ⟨rfl, List.mem_singleton.mpr rfl⟩
  | _ => cases h

/-! ## Actions -/

section

variable {useCache : Bool} {s s' : Session}

theorem Advances.refl (hs : s.Sound) : Advances useCache s s where
  follows := fun h => ⟨_, h, Document.Follows.refl (hs.document h).1⟩
  fresh := by
    intro n d' h hnone
    rw [hnone] at h
    cases h
  registers := Or.inl

theorem advances_setDocument (hs : s.Sound) {n : Nat} {d d' : Document}
    (hd : s.document? n = some d) (hf : Document.Follows useCache d d') :
    Advances useCache s (s.setDocument n d') where
  follows := by
    intro m e he
    rw [document?_setDocument hd]
    by_cases hm : m = n
    · subst hm
      rw [hd] at he
      cases he
      exact ⟨d', if_pos rfl, hf⟩
    · exact ⟨e, by rw [if_neg hm, he], Document.Follows.refl (hs.document he).1⟩
  fresh := by
    intro m e he hnone
    rw [document?_setDocument hd] at he
    by_cases hm : m = n
    · subst hm
      rw [hd] at hnone
      cases hnone
    · rw [if_neg hm, hnone] at he
      cases he
  registers := by
    intro entry he
    rw [registers_setDocument] at he
    exact Or.inl he

theorem Advances.store (h : Advances useCache s s') {entries : List (String × Register)}
    (he : ∀ entry ∈ entries, ∃ d', s'.document? entry.2.document = some d' ∧
      d'.Has entry.2.watched) : Advances useCache s (s'.store entries) where
  follows := by
    intro n d hd
    rw [document?_store]
    exact h.follows hd
  fresh := by
    intro n d' hd'
    rw [document?_store] at hd'
    exact h.fresh hd'
  registers := by
    intro entry hentry
    rw [document?_store]
    rcases mem_store hentry with hold | hnew
    · exact h.registers hold
    · exact Or.inr (he entry hnew)

theorem Advances.conclude {n : Nat} {d' : Document} (h : Advances useCache s (s'.setDocument n d'))
    (hd' : (s'.setDocument n d').document? n = some d') (name : Option String)
    {answer : Answer Handle} (hfound : ∀ k ∈ answer.found, d'.Has k) :
    Advances useCache s (s'.conclude n d' name answer).2 := by
  cases name with
  | none => exact h
  | some name =>
    refine h.store fun entry he => ?_
    obtain ⟨rfl, hw⟩ := of_mem_kept he
    exact ⟨d', hd', hfound _ hw⟩

theorem act_handle {name : String} {r : Register} (h : s.register? name = some r)
    (call : HandleCall) (store : Option String) :
    s.act ⟨.handle name call, store⟩ =
      s.perform r.document (call.run s.environment r.watched) store := by
  simp only [act, h]

theorem act_handle_none {name : String} (h : s.register? name = none) (call : HandleCall)
    (store : Option String) : s.act ⟨.handle name call, store⟩ = (.error .noRegister, s) := by
  simp only [act, h]

theorem act_view {name : String} {n : Nat} {v : View}
    (h : s.register? name = some (.view n v)) (call : ViewCall) (store : Option String) :
    s.act ⟨.view name call, store⟩ = s.perform n (call.run v) store := by
  simp only [act, h]

theorem perform_of_ok {n : Nat} {d d' : Document} (hd : s.document? n = some d)
    {call : Live (Answer Handle)} {answer : Answer Handle}
    (h : call.runOn d = (.ok answer, d')) (name : Option String) :
    s.perform n call name = s.conclude n d' name answer := by
  unfold perform
  rw [hd]
  dsimp only
  rw [h]

theorem perform_of_error {n : Nat} {d d' : Document} (hd : s.document? n = some d)
    {call : Live (Answer Handle)} {f : Failure} (h : call.runOn d = (.error f, d'))
    (name : Option String) :
    s.perform n call name = (.error (.failed f), s.setDocument n d') := by
  unfold perform
  rw [hd]
  dsimp only
  rw [h]

theorem advances_perform (hs : s.Sound) {n : Nat} {call : Live (Answer Handle)}
    (hcall : ∀ {d : Document}, s.document? n = some d →
      Live.Ensures useCache d d call Live.FoundHas) (name : Option String) :
    Advances useCache s (s.perform n call name).2 := by
  unfold perform
  split
  · exact Advances.refl hs
  · rename_i d hd
    obtain ⟨hf, hfound⟩ := hcall hd
    split
    · rename_i answer d' hrun
      rw [hrun] at hf hfound
      refine (advances_setDocument hs hd hf).conclude ?_ name (hfound answer rfl)
      rw [document?_setDocument hd, if_pos rfl]
    · rename_i f d' hrun
      rw [hrun] at hf
      exact advances_setDocument hs hd hf

/-- The document of a default comes after the detached ones. -/
theorem document?_append (s : Session) (fresh : Document) (n : Nat) :
    ({ s with detached := s.detached ++ [fresh] } : Session).document? n =
      if n = s.detached.length + 1 then some fresh else s.document? n := by
  cases n with
  | zero => rfl
  | succ n =>
    simp only [document?, Nat.add_right_cancel_iff]
    by_cases hn : n = s.detached.length
    · subst hn
      simp
    · rw [if_neg hn]
      rcases Nat.lt_or_gt_of_ne hn with hlt | hgt
      · exact List.getElem?_append_left hlt
      · rw [List.getElem?_eq_none (Nat.le_of_lt hgt), List.getElem?_eq_none]
        rw [List.length_append, List.length_singleton]
        omega

theorem Advances.append (h : Advances useCache s s') {fresh : Document}
    (hd : fresh.Sound) (hset : fresh.settings = s.document.settings)
    (hkey : ∀ {t : Tenant Digest}, fresh.arena.Houses t → t.key.isSome = useCache) :
    Advances useCache s { s' with detached := s'.detached ++ [fresh] } where
  follows := by
    intro n d hn
    obtain ⟨d', hd', hf⟩ := h.follows hn
    refine ⟨d', ?_, hf⟩
    rw [document?_append, if_neg, hd']
    rintro rfl
    have hlt := (List.getElem?_eq_some_iff.mp hd').1
    omega
  fresh := by
    intro n d' hn hnone
    rw [document?_append] at hn
    split at hn
    · cases hn
      exact ⟨hd, hset, hkey⟩
    · exact h.fresh hn hnone
  registers := by
    intro entry he
    rcases h.registers he with hold | ⟨d', hd', hhas⟩
    · exact Or.inl hold
    · refine Or.inr ⟨d', ?_, hhas⟩
      rw [document?_append, if_neg, hd']
      intro hn
      rw [hn] at hd'
      have hlt := (List.getElem?_eq_some_iff.mp hd').1
      omega

theorem setDocument_self {n : Nat} {d : Document} (h : s.document? n = some d) :
    s.setDocument n d = s := by
  cases n with
  | zero =>
    cases h
    rfl
  | succ n =>
    obtain ⟨hlt, rfl⟩ := List.getElem?_eq_some_iff.mp h
    show { s with detached := s.detached.set n s.detached[n] } = s
    rw [List.set_getElem_self]

theorem Advances.conclude_self {n : Nat} {d' : Document} (h : Advances useCache s s')
    (hd' : s'.document? n = some d') (name : Option String) {answer : Answer Handle}
    (hfound : ∀ k ∈ answer.found, d'.Has k) :
    Advances useCache s (s'.conclude n d' name answer).2 := by
  have hself := setDocument_self hd'
  refine Advances.conclude ?_ ?_ name hfound
  · rwa [hself]
  · rwa [hself]

/-- A default is answered from a document of its own, which comes after the detached ones. -/
theorem performOrDefault_eq (s : Session) (q : Query) (v : Value) (name : Option String) :
    s.performOrDefault q v name =
      match (s.document.query q).1.head? with
      | some h => s.conclude 0 (s.document.query q).2 name (.handle h)
      | none =>
        let fresh := (Document.ofValue v (s.document.query q).2.settings).root
        Session.conclude
          ⟨s.environment, (s.document.query q).2, s.detached ++ [fresh.2], s.registers⟩
          (s.detached.length + 1) fresh.2 name (.handle fresh.1) := by
  unfold performOrDefault
  rw [show s.document.get? q = ((s.document.query q).1.head?, (s.document.query q).2) from rfl]
  cases (s.document.query q).1.head? with
  | some h => rfl
  | none =>
    dsimp only
    rw [List.length_append, List.length_singleton]

theorem advances_performOrDefault (hs : s.Sound) (q : Query) (v : Value) (name : Option String) :
    Advances s.document.settings.useCache s (s.performOrDefault q v name).2 := by
  have hd : s.document? 0 = some s.document := rfl
  obtain ⟨hf, hall⟩ := Document.follows_resolve (hs.document hd).1 (s.document.addressOf q) []
    s.document.settings.useCache
  have hset : (s.document.query q).2.settings = s.document.settings := hf.settings
  rw [performOrDefault_eq]
  cases hhead : (s.document.query q).1.head? with
  | some h =>
    refine (advances_setDocument hs hd hf).conclude rfl name fun k hk => ?_
    rw [List.mem_singleton.mp hk]
    exact hall h (List.mem_of_mem_head? hhead)
  | none =>
    dsimp only
    rw [hset]
    have hroot := Document.follows_obtain (Document.sound_ofValue v s.document.settings) [] v.kind
      s.document.settings.useCache
    obtain ⟨hnew, hhas⟩ := hroot
    have hadv := (advances_setDocument hs hd hf).append hnew.sound hnew.settings (by
      intro t ht
      rcases hnew.fresh ht with ⟨slot, hold⟩ | hkey
      · simp [Document.ofValue, Arena.empty, Arena.tenant?] at hold
      · exact hkey)
    have hlast := document?_append (s.setDocument 0 (s.document.query q).2)
      (Document.ofValue v s.document.settings).root.2 (s.detached.length + 1)
    rw [show (s.setDocument 0 (s.document.query q).2).detached = s.detached from rfl,
      if_pos rfl] at hlast
    refine hadv.conclude_self hlast name fun k hk => ?_
    rw [List.mem_singleton.mp hk]
    exact hhas

theorem mem_of_register? {name : String} {r : Register} (h : s.register? name = some r) :
    (name, r) ∈ s.registers := by
  obtain ⟨entry, he, rfl⟩ := Option.map_eq_some_iff.mp h
  have hname := List.find?_some he
  rw [← eq_of_beq hname]
  exact List.mem_of_find?_eq_some he

/-- Fewer registers. -/
theorem advances_registers (hs : s.Sound) {registers : List (String × Register)}
    (h : registers ⊆ s.registers) : Advances useCache s { s with registers := registers } where
  follows := (Advances.refl hs).follows
  fresh := (Advances.refl hs).fresh
  registers := fun he => Or.inl (h he)

theorem advances_act (hs : s.Sound) (step : Step) :
    Advances (step.action.caches s.document.settings) s (s.act step).2 := by
  unfold act
  cases step.action with
  | document call =>
    refine advances_perform hs (fun hd => ?_) step.store
    cases hd
    exact Live.ensures_documentCall s.environment hs.own call
  | orDefault q v => exact advances_performOrDefault hs q v step.store
  | handle name call =>
    dsimp only
    split
    · rename_i r hr
      obtain ⟨d, hd, hhas⟩ := hs.register (mem_of_register? hr)
      refine advances_perform hs (fun hd' => ?_) step.store
      rw [hd] at hd'
      cases hd'
      rw [show s.document.settings = d.settings from (hs.document hd).2.symm]
      exact Live.ensures_handleCall s.environment (hs.document hd).1 hhas call
    · exact Advances.refl hs
  | same name other =>
    dsimp only
    split <;> exact Advances.refl hs
  | view name call =>
    dsimp only
    split
    · rename_i n v hr
      refine advances_perform hs (fun hd => ?_) step.store
      rw [show (Action.view name call).caches s.document.settings = s.document.settings.useCache
        from rfl, ← (hs.document hd).2]
      exact Live.ensures_viewCall (hs.document hd).1 v call
    · exact Advances.refl hs
  | drop name => exact advances_registers hs List.filter_sublist.subset
  | dropAll => exact advances_registers hs (List.nil_subset _)

theorem Sound.of_advances (hs : s.Sound) (h : Advances useCache s s') : s'.Sound := by
  have hzero : s'.document.settings = s.document.settings := by
    obtain ⟨d', hd', hf⟩ := h.follows (n := 0) rfl
    cases hd'
    exact hf.settings
  constructor
  · intro n d' hd'
    rw [hzero]
    cases hd : s.document? n with
    | none => exact ⟨(h.fresh hd' hd).1, (h.fresh hd' hd).2.1⟩
    | some d =>
      obtain ⟨e, he, hf⟩ := h.follows hd
      rw [hd'] at he
      cases he
      exact ⟨hf.sound, hf.settings.trans (hs.document hd).2⟩
  · intro entry he
    rcases h.registers he with hold | hnew
    · obtain ⟨d, hd, hhas⟩ := hs.register hold
      obtain ⟨d', hd', hf⟩ := h.follows hd
      exact ⟨d', hd', hhas.of_follows hf⟩
    · exact hnew

/-! ## Letting go -/

theorem document?_release (s : Session) (n : Nat) :
    s.release.document? n = (s.document? n).map (s.releaseIn n) := by
  cases n with
  | zero => rfl
  | succ n =>
    simp only [release, document?, List.getElem?_map, List.getElem?_zipIdx, Option.map_map]
    cases s.detached[n]? with
    | none => rfl
    | some d => simp

theorem mem_held_releaseIn {n : Nat} {d : Document} {k : Nat} :
    k ∈ (s.releaseIn n d).arena.held ↔ k ∈ d.arena.held ∧
      ∃ entry ∈ s.registers, entry.2.document = n ∧ entry.2.watched.ticket.serial = k := by
  simp [releaseIn, Document.keep, Arena.keep]

theorem Sound.release (hs : s.Sound) : s.release.Sound := by
  constructor
  · intro n d' hd'
    rw [document?_release] at hd'
    obtain ⟨d, hd, rfl⟩ := Option.map_eq_some_iff.mp hd'
    exact ⟨(hs.document hd).1.hold fun _ hk => (mem_held_releaseIn.mp hk).1, (hs.document hd).2⟩
  · intro entry he
    obtain ⟨d, hd, hhas⟩ := hs.register he
    refine ⟨s.releaseIn entry.2.document d, by rw [document?_release, hd]; rfl, ?_⟩
    refine hhas.of_leads (Arena.Leads.of_slots_eq rfl rfl) ?_
    exact mem_held_releaseIn.mpr ⟨hhas.held, entry, he, rfl, rfl⟩

/-! ## Runs -/

theorem run_snd (s : Session) (step : Step) : (s.run step).2 = (s.act step).2.release := rfl

theorem sound_opening (env : Environment) (value : Value) (settings : Settings) :
    (opening env value settings).Sound where
  document := by
    intro n d hd
    cases n with
    | zero =>
      cases hd
      exact ⟨Document.sound_ofValue value settings, rfl⟩
    | succ n => cases hd
  register := fun he => by cases he

theorem Sound.run (hs : s.Sound) (step : Step) : (s.run step).2.Sound :=
  (hs.of_advances (advances_act hs step)).release

theorem sound_after (hs : s.Sound) (steps : List Step) : (s.after steps).Sound := by
  induction steps generalizing s with
  | nil => exact hs
  | cons step rest ih => exact ih (hs.run step)

/-- A step leads every document on; the tenants that it brings have a key if the step caches. -/
theorem leads_run (hs : s.Sound) (step : Step) {n : Nat} {d : Document}
    (hd : s.document? n = some d) : ∃ d', (s.run step).2.document? n = some d' ∧
      d.arena.Leads d'.arena ∧ ∀ {t : Tenant Digest}, d'.arena.Houses t →
        d.arena.Houses t ∨ t.key.isSome = step.action.caches s.document.settings := by
  obtain ⟨d₁, hd₁, hf⟩ := (advances_act hs step).follows hd
  refine ⟨(s.act step).2.releaseIn n d₁, by rw [run_snd, document?_release, hd₁]; rfl, ?_, hf.fresh⟩
  exact hf.leads.trans (Arena.Leads.of_slots_eq rfl rfl)

theorem fresh_run (hs : s.Sound) (step : Step) {n : Nat} {d' : Document}
    (hd' : (s.run step).2.document? n = some d') (hnone : s.document? n = none)
    {t : Tenant Digest} (ht : d'.arena.Houses t) :
    t.key.isSome = step.action.caches s.document.settings := by
  rw [run_snd, document?_release] at hd'
  obtain ⟨d₁, hd₁, rfl⟩ := Option.map_eq_some_iff.mp hd'
  exact ((advances_act hs step).fresh hd₁ hnone).2.2 ht

theorem leads_after (hs : s.Sound) (steps : List Step) {n : Nat} {d : Document}
    (hd : s.document? n = some d) :
    ∃ d', (s.after steps).document? n = some d' ∧ d.arena.Leads d'.arena := by
  induction steps generalizing s d with
  | nil => exact ⟨d, hd, Arena.Leads.refl _⟩
  | cons step rest ih =>
    obtain ⟨d₁, hd₁, hleads, -⟩ := leads_run hs step hd
    obtain ⟨d', hd', hrest⟩ := ih (hs.run step) hd₁
    exact ⟨d', hd', hleads.trans hrest⟩

theorem settings_after (hs : s.Sound) (steps : List Step) :
    (s.after steps).document.settings = s.document.settings := by
  induction steps generalizing s with
  | nil => rfl
  | cons step rest ih =>
    refine (ih (hs.run step)).trans ?_
    obtain ⟨d', hd', hf⟩ := (advances_act hs step).follows (n := 0) rfl
    cases hd'
    exact hf.settings

/-- After a step, only handles that registers keep are held. -/
theorem mem_held_run (step : Step) {n : Nat} {d : Document}
    (hd : (s.run step).2.document? n = some d) {k : Nat} (hk : k ∈ d.arena.held) :
    ∃ entry ∈ (s.run step).2.registers,
      entry.2.document = n ∧ entry.2.watched.ticket.serial = k := by
  rw [run_snd, document?_release] at hd
  obtain ⟨d₁, -, rfl⟩ := Option.map_eq_some_iff.mp hd
  exact (mem_held_releaseIn.mp hk).2

/-- After a run from the beginning, only handles that registers keep are held. -/
theorem mem_held_after {env : Environment} {value : Value} {settings : Settings}
    {steps : List Step} {n : Nat} {d : Document}
    (hd : ((opening env value settings).after steps).document? n = some d) {k : Nat}
    (hk : k ∈ d.arena.held) : ∃ entry ∈ ((opening env value settings).after steps).registers,
      entry.2.document = n ∧ entry.2.watched.ticket.serial = k := by
  rcases List.eq_nil_or_concat steps with rfl | ⟨front, last, rfl⟩
  · cases n with
    | zero =>
      cases hd
      cases hk
    | succ n => cases hd
  · rw [List.concat_eq_append, after_append] at hd ⊢
    exact mem_held_run last hd hk

/-! ## Issues -/

theorem issued_opening (env : Environment) (value : Value) (settings : Settings) (n : Nat) :
    (opening env value settings).issued n = 0 := by
  cases n <;> rfl

/-- A serial number that is handed out during a run is handed out by one of its steps. -/
theorem exists_issues {steps : List Step} {n : Nat} {h : Handle}
    (hlow : s.issued n ≤ h.ticket.serial) (hhigh : h.ticket.serial < (s.after steps).issued n) :
    ∃ before step rest, steps = before ++ step :: rest ∧ (s.after before).Issues step n h := by
  induction steps generalizing s with
  | nil => exact absurd hhigh (Nat.not_lt.mpr hlow)
  | cons step rest ih =>
    by_cases hstep : h.ticket.serial < (s.run step).2.issued n
    · exact ⟨[], step, rest, rfl, hlow, hstep⟩
    · obtain ⟨before, step', rest', rfl, hissues⟩ := ih (Nat.le_of_not_lt hstep) hhigh
      exact ⟨step :: before, step', rest', rfl, hissues⟩

theorem issued_eq {n : Nat} {d : Document} (hd : s.document? n = some d) :
    s.issued n = d.arena.issued := by
  rw [issued, hd]
  rfl

/-- A tenant that is housed at the end of a run was housed right after its handle was issued. -/
theorem houses_of_issues (hs : s.Sound) {step : Step} {rest : List Step} {n : Nat} {h : Handle}
    (hissues : s.Issues step n h) {d' : Document}
    (hd' : ((s.run step).2.after rest).document? n = some d') {t : Tenant Digest}
    (ht : d'.arena.Houses t) (he : t.ticket = h.ticket) :
    ∃ d, (s.run step).2.document? n = some d ∧ d.arena.Houses t := by
  cases hd : (s.run step).2.document? n with
  | none =>
    have hlt := hissues.2
    rw [issued, hd] at hlt
    exact absurd hlt (Nat.not_lt_zero _)
  | some d =>
    obtain ⟨e, hde, hleads⟩ := leads_after (hs.run step) rest hd
    rw [hd'] at hde
    cases hde
    refine ⟨d, rfl, ?_⟩
    rcases hleads.houses ht with hold | hnew
    · exact hold
    · have hlt := hissues.2
      rw [issued_eq hd] at hlt
      rw [he] at hnew
      omega

/-- A valid handle is in the cache if and only if the step that issued it caches. -/
theorem isSome_key_of_issues (hs : s.Sound) {step : Step} {rest : List Step} {n : Nat}
    {h : Handle} (hissues : s.Issues step n h) {d' : Document}
    (hd' : ((s.run step).2.after rest).document? n = some d') {t : Tenant Digest}
    (ht : d'.arena.Houses t) (he : t.ticket = h.ticket) :
    t.key.isSome = step.action.caches s.document.settings := by
  obtain ⟨d, hd, hhouse⟩ := houses_of_issues hs hissues hd' ht he
  cases hold : s.document? n with
  | none => exact fresh_run hs step hd hold hhouse
  | some d₀ =>
    obtain ⟨e, hde, -, hfresh⟩ := leads_run hs step hold
    rw [hd] at hde
    cases hde
    refine (hfresh hhouse).resolve_left fun hhouse₀ => ?_
    have hlow := hissues.1
    have hlt := (hs.document hold).1.arena.toTenancy.serial_lt hhouse₀
    rw [issued_eq hold] at hlow
    rw [he] at hlt
    omega

end

end Session

end LiveDocument
