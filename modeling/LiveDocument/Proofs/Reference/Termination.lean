import Mathlib.Data.List.Dedup
import LiveDocument.Proofs.Document.Cache
import LiveDocument.Proofs.Document.Running
import LiveDocument.Proofs.Reference.Following

/-!
# Expansion ends

Each reference starts the expansion of another part of the document over again, which may be larger
than the one it stands in, so no value gets smaller on the way. What ends the expansion is the stack
of the addresses that are being expanded: no address is entered twice, and all of them are named by
references of the document or of the value, since a value that is read from the document names
nothing else and a text that was put in is never scanned again.

The expansion is told here with the stack as a part of what it works on, with every moment of it
kept, and with no answer at all if it does not end within a given depth.

* `Progress`, `Pursuit`: where an expansion stands, and operations on that.
* `pursue`, `pursueAll`: following references with the stack in sight.
* `Tracks`: an operation on documents and its counterpart with the stack in sight.
  `passes_tracks`: the counterpart of what is composed.
* `Room`: an address that is asked for, and the depth that is left.
* `tracks_dereference`: following a reference ends. `expansion_ends`: so does an expansion.
-/

namespace LiveDocument.Reference

/-! ## Expansion with its stack in sight -/

/-- Where an expansion stands: the document, the addresses that are being expanded, the innermost
first, and what these were at all earlier moments, the latest first. -/
structure Progress where
  document : Document
  active : List String
  earlier : List (List String)

namespace Progress

def start (d : Document) (active : List String) : Progress :=
  ⟨d, active, []⟩

/-- The addresses being expanded, now and at each moment before. -/
def moments (p : Progress) : List (List String) :=
  p.active :: p.earlier

/-- The next moment, at which other addresses are being expanded. -/
def turn (p : Progress) (active : List String) : Progress :=
  ⟨p.document, active, p.moments⟩

end Progress

/-- An operation that may have no answer, because it does not end within its depth. -/
abbrev Pursuit (α : Type) := ExceptT Failure (StateT Progress Option) α

namespace Pursuit

variable {α β : Type}

def runOn (x : Pursuit α) (p : Progress) : Option (Except Failure α × Progress) :=
  x.run.run p

def unfinished : Pursuit α :=
  ExceptT.mk fun _ => none

/-- An operation on the document. -/
def live (x : Live α) : Pursuit α :=
  ExceptT.mk fun p => some ((x.runOn p.document).1, ⟨(x.runOn p.document).2, p.active, p.earlier⟩)

/-- An operation during which one more address is being expanded. It is taken off the stack at the
end of the operation, also if that fails. -/
def within (address : String) (x : Pursuit α) : Pursuit α :=
  ExceptT.mk fun p =>
    (x.runOn (p.turn (address :: p.active))).map fun (r, q) => (r, q.turn q.active.tail)

end Pursuit

/-- The expanded value at the place that a query names, with the addresses being expanded on a
stack. -/
def pursue (env : Environment) : (depth : Nat) → String → Pursuit Value
  | 0, _ => Pursuit.unfinished
  | depth + 1, query => do
    let p ← get
    let d := p.document
    let a := d.addressOf (.text query)
    let canonical := a.canonical []
    if p.active.contains canonical then throw (.referenceCycle canonical)
    else
      match ← Pursuit.live (Live.resolve a [] d.settings.useCache) with
      | [] => return .null
      | hs =>
        let raw ← Pursuit.live (rawTogether hs)
        let expanded ←
          Pursuit.within canonical (raw.substitute (expandText env (pursue env depth)))
        Pursuit.live (release d.arena.held)
        return expanded

/-- Expands every reference in a value. -/
def pursueAll (env : Environment) (depth : Nat) (v : Value) : Pursuit Value :=
  v.substitute (expandText env (pursue env depth))

namespace Pursuit

variable {α β : Type}

theorem runOn_bind (x : Pursuit α) (f : α → Pursuit β) (p : Progress) :
    (x >>= f).runOn p =
      (x.runOn p).bind fun
        | (.ok a, q) => (f a).runOn q
        | (.error e, q) => some (.error e, q) := by
  simp only [runOn, ExceptT.run, StateT.run, bind, ExceptT.bind, ExceptT.mk, StateT.bind,
    ExceptT.bindCont]
  cases x p with
  | none => rfl
  | some found =>
    obtain ⟨r, q⟩ := found
    cases r <;> rfl

end Pursuit

/-! ## Operations side by side -/

/-- The document has a given value and given settings, and the addresses being expanded have always
been as they may be. -/
structure Stands (root : Value) (settings : Settings) (fits : List String → Prop)
    (active : List String) (p : Progress) : Prop where
  value : p.document.value = root
  settings : p.document.settings = settings
  active : p.active = active
  fits : ∀ moment ∈ p.moments, fits moment

section

variable {root : Value} {settings : Settings} {fits : List String → Prop} {active : List String}
  {α β : Type}

theorem Stands.turn {p : Progress} (hp : Stands root settings fits active p)
    {next : List String} (hnext : fits next) : Stands root settings fits next (p.turn next) :=
  ⟨hp.value, hp.settings, rfl, List.forall_mem_cons.mpr ⟨hnext, hp.fits⟩⟩

/-- The operation with the stack in sight ends, with the result and the document of the other one
and with the stack that it began with. -/
def Tracks (root : Value) (settings : Settings) (fits : List String → Prop) (active : List String)
    (α : Type) (x : Live α) (y : Pursuit α) : Prop :=
  ∀ p : Progress, Stands root settings fits active p →
    ∃ q : Progress, y.runOn p = some ((x.runOn p.document).1, q) ∧
      q.document = (x.runOn p.document).2 ∧ Stands root settings fits active q

/-- What is carried out on the result of an operation tracks if it does so for the results that the
operation has. -/
theorem tracks_bind (given : α → Prop) {x : Live α} {y : Pursuit α} {f : α → Live β}
    {g : α → Pursuit β} (hx : Tracks root settings fits active α x y)
    (hgiven : ∀ (d : Document) (a : α), d.value = root → (x.runOn d).1 = .ok a → given a)
    (hf : ∀ a, given a → Tracks root settings fits active β (f a) (g a)) :
    Tracks root settings fits active β (x >>= f) (y >>= g) := by
  intro p hp
  obtain ⟨q, hy, hq, hstands⟩ := hx p hp
  rw [Live.runOn_bind, Pursuit.runOn_bind, hy, Option.bind_some]
  have hresult := hgiven p.document
  cases hrun : x.runOn p.document with
  | mk r d' =>
    rw [hrun] at hq hresult
    cases r with
    | error e => exact ⟨q, rfl, hq, hstands⟩
    | ok a =>
      obtain rfl : q.document = d' := hq
      exact hf a (hresult a hp.value rfl) q hstands

theorem passes_tracks (root : Value) (settings : Settings) (fits : List String → Prop)
    (active : List String) : Passes (Tracks root settings fits active) where
  pure := fun _ p hp => ⟨p, rfl, rfl, hp⟩
  bind := fun hx hf => tracks_bind (fun _ => True) hx (fun _ _ _ _ => trivial) fun a _ => hf a

theorem tracks_throw (e : Failure) :
    Tracks root settings fits active α (throw e) (throw e) :=
  fun p hp => ⟨p, rfl, rfl, hp⟩

theorem tracks_get {f : Document → Live α} {g : Progress → Pursuit α}
    (h : ∀ p, Stands root settings fits active p →
      Tracks root settings fits active α (f p.document) (g p)) :
    Tracks root settings fits active α (get >>= f) (get >>= g) := by
  intro p hp
  rw [Live.runOn_get_bind, Pursuit.runOn_bind]
  exact h p hp p hp

/-- An operation on the document that leaves the value and the settings as they are. -/
theorem tracks_live {x : Live α} (hvalue : ∀ d, (x.runOn d).2.value = d.value)
    (hsettings : ∀ d, (x.runOn d).2.settings = d.settings) :
    Tracks root settings fits active α x (Pursuit.live x) := by
  intro p hp
  refine ⟨_, rfl, rfl, ?_, ?_, hp.active, hp.fits⟩
  · exact (hvalue p.document).trans hp.value
  · exact (hsettings p.document).trans hp.settings

theorem tracks_within {x : Live α} {y : Pursuit α} {address : String}
    (hnext : fits (address :: active))
    (h : Tracks root settings fits (address :: active) α x y) :
    Tracks root settings fits active α x (y.within address) := by
  intro p hp
  have hturned : Stands root settings fits (address :: active) (p.turn (address :: p.active)) := by
    rw [hp.active]
    exact hp.turn hnext
  obtain ⟨q, hy, hq, hstands⟩ := h _ hturned
  have hactive : q.active.tail = active := by rw [hstands.active, List.tail_cons]
  have hfits : fits active := hp.active ▸ hp.fits p.active List.mem_cons_self
  refine ⟨q.turn q.active.tail, ?_, hq, ?_⟩
  · exact congrArg (Option.map fun found => (found.1, found.2.turn found.2.active.tail)) hy
  · rw [hactive]
    exact hstands.turn hfits

end

/-! ## What is read from the document -/

/-- The stored value of a handle names nothing that the document does not name. -/
theorem queries_of_rawValue {h : Handle} {d : Document} {v : Value}
    (hv : (h.rawValue.runOn d).1 = .ok v) : v.queries ⊆ d.value.queries := by
  rw [Live.runOn_rawValue] at hv
  dsimp only at hv
  split at hv
  · split at hv
    · rename_i w hw
      obtain rfl := Except.ok.inj hv
      exact Value.queries_subset_of_walk? hw
    · cases hv
  · cases hv

theorem runOn_rawValues (hs : List Handle) (d : Document) :
    ((rawValues hs).runOn d).2 = d ∧ ∀ vs, ((rawValues hs).runOn d).1 = .ok vs →
      ∀ v ∈ vs, v.queries ⊆ d.value.queries := by
  induction hs with
  | nil =>
    refine ⟨rfl, fun vs hvs v hv => ?_⟩
    obtain rfl := Except.ok.inj hvs
    cases hv
  | cons h rest ih =>
    obtain ⟨hsame, hqueries⟩ := ih
    have hfirst : (h.rawValue.runOn d).2 = d := by rw [Live.runOn_rawValue]
    rw [rawValues, Live.runOn_bind]
    cases hrun : h.rawValue.runOn d with
    | mk r d' =>
      rw [hrun] at hfirst
      obtain rfl : d' = d := hfirst
      cases r with
      | error e => exact ⟨rfl, fun vs hvs => by cases hvs⟩
      | ok first =>
        dsimp only
        rw [Live.runOn_told]
        refine ⟨hsame, fun vs hvs v hv => ?_⟩
        cases hothers : ((rawValues rest).runOn d').1 with
        | error e =>
          rw [hothers] at hvs
          cases hvs
        | ok others =>
          rw [hothers] at hvs
          obtain rfl := Except.ok.inj hvs
          rcases List.mem_cons.mp hv with rfl | hv
          · exact queries_of_rawValue (congrArg Prod.fst hrun)
          · exact hqueries others hothers v hv

/-- The stored values of handles, together, name nothing that the document does not name. -/
theorem runOn_rawTogether (hs : List Handle) (d : Document) :
    ((rawTogether hs).runOn d).2 = d ∧ ∀ v, ((rawTogether hs).runOn d).1 = .ok v →
      v.queries ⊆ d.value.queries := by
  unfold rawTogether
  split
  · exact ⟨by rw [Live.runOn_rawValue], fun v hv => queries_of_rawValue hv⟩
  · obtain ⟨hsame, hqueries⟩ := runOn_rawValues hs d
    rw [Live.runOn_told]
    refine ⟨hsame, fun v hv q hq => ?_⟩
    cases hvs : ((rawValues hs).runOn d).1 with
    | error e =>
      rw [hvs] at hv
      cases hv
    | ok vs =>
      rw [hvs] at hv
      obtain rfl := Except.ok.inj hv
      obtain ⟨item, hitem, hq⟩ := queries_sequence.mp hq
      exact hqueries vs hvs item hitem hq

/-! ## Room on the stack -/

section

variable {env : Environment} {d : Document} {v : Value} {base : List String}

/-- The number of different addresses that references of the document or of a value name. -/
def namedCount (root : Value) (delimiter : String) (v : Value) : Nat :=
  (named root delimiter v).dedup.length

/-- No address is being expanded twice, and apart from one at the outset there are at most as many
as references name. -/
def Fits (root : Value) (delimiter : String) (v : Value) (active : List String) : Prop :=
  active.Nodup ∧ active.length ≤ 1 + namedCount root delimiter v

/-- The addresses being expanded are those that were entered on top of those at the outset, and
there is more depth than addresses left to enter. -/
structure Room (root : Value) (delimiter : String) (v : Value) (base active : List String)
    (depth : Nat) : Prop where
  nodup : active.Nodup
  entered : ∃ entered : List String, active = entered ++ base ∧
    entered ⊆ named root delimiter v ∧
      namedCount root delimiter v < depth + entered.length

variable {root : Value} {delimiter : String} {active : List String} {depth : Nat}

theorem nodup_of_length_le_one {active : List String} (h : active.length ≤ 1) : active.Nodup := by
  match active, h with
  | [], _ => exact List.nodup_nil
  | [a], _ => exact List.nodup_singleton a

theorem length_le_namedCount {entered : List String} (hnodup : entered.Nodup)
    (hnamed : entered ⊆ named root delimiter v) :
    entered.length ≤ namedCount root delimiter v :=
  hnodup.length_le_of_subset fun _ ha => List.mem_dedup.mpr (hnamed ha)

namespace Room

/-- There is always depth to enter one more address. -/
theorem depth_ne_zero (h : Room root delimiter v base active depth) : depth ≠ 0 := by
  rintro rfl
  obtain ⟨entered, rfl, hnamed, hlt⟩ := h.entered
  have hle := length_le_namedCount h.nodup.of_append_left hnamed
  omega

theorem enter (h : Room root delimiter v base active (depth + 1)) {a : String}
    (ha : a ∈ named root delimiter v) (hnew : a ∉ active) :
    Room root delimiter v base (a :: active) depth where
  nodup := List.nodup_cons.mpr ⟨hnew, h.nodup⟩
  entered := by
    obtain ⟨entered, rfl, hnamed, hlt⟩ := h.entered
    refine ⟨a :: entered, rfl, List.cons_subset.mpr ⟨ha, hnamed⟩, ?_⟩
    rw [List.length_cons]
    omega

theorem fits (h : Room root delimiter v base active depth) (hbase : base.length ≤ 1) :
    Fits root delimiter v active := by
  refine ⟨h.nodup, ?_⟩
  obtain ⟨entered, rfl, hnamed, -⟩ := h.entered
  have hle := length_le_namedCount h.nodup.of_append_left hnamed
  rw [List.length_append]
  omega

end Room

/-! ## The end of an expansion -/

/-- Following a reference ends, in either telling, if there is room for all that can be entered. -/
theorem tracks_dereference (env : Environment) (root : Value) (settings : Settings) (v : Value)
    {base : List String} (hbase : base.length ≤ 1) {depth fuel : Nat} {active : List String}
    (hdepth : Room root settings.delimiter v base active depth)
    (hfuel : Room root settings.delimiter v base active fuel) {q : String}
    (hq : node settings.delimiter q ∈ named root settings.delimiter v) :
    Tracks root settings (Fits root settings.delimiter v) active Value
      (dereference env fuel active q) (pursue env depth q) := by
  induction depth generalizing fuel active q with
  | zero => exact absurd rfl hdepth.depth_ne_zero
  | succ depth ih =>
    obtain ⟨fuel, rfl⟩ := Nat.exists_eq_succ_of_ne_zero hfuel.depth_ne_zero
    rw [dereference, pursue]
    refine tracks_get fun p hp => ?_
    have hcanonical :
        (p.document.addressOf (.text q)).canonical [] = node settings.delimiter q := by
      rw [Document.addressOf, Document.delimiter, hp.settings]
      rfl
    dsimp only
    rw [hcanonical, hp.active]
    split
    · exact tracks_throw _
    · rename_i hnew
      have hnotMem : node settings.delimiter q ∉ active :=
        fun hm => hnew (List.contains_iff_mem.mpr hm)
      have hinner := hdepth.enter hq hnotMem
      refine (passes_tracks _ _ _ _).bind ?_ fun hs => ?_
      · exact tracks_live (fun d => Document.value_resolve d _ _ _)
          fun d => Document.settings_resolve d _ _ _
      cases hs with
      | nil => exact (passes_tracks _ _ _ _).pure _
      | cons h rest =>
        -- The value that was found names nothing but what the document names.
        refine tracks_bind (fun raw : Value => raw.queries ⊆ root.queries) ?_ ?_
          fun raw hraw => ?_
        · exact tracks_live (fun d => by rw [(runOn_rawTogether _ d).1])
            fun d => by rw [(runOn_rawTogether _ d).1]
        · exact fun d raw hd hok => hd ▸ (runOn_rawTogether _ d).2 raw hok
        refine (passes_tracks _ _ _ _).bind (tracks_within (hinner.fits hbase) ?_) fun w => ?_
        · refine (passes_tracks _ _ _ _).expand fun q' hq' =>
            ih hinner (hfuel.enter hq hnotMem) ?_
          exact List.mem_append_left _ (mem_nodes.mpr ⟨q', hraw hq', rfl⟩)
        · refine (passes_tracks _ _ _ _).bind ?_ fun _ => (passes_tracks _ _ _ _).pure w
          exact tracks_live (fun _ => rfl) fun _ => rfl

/-- The expansion of a value that stands at one place of the document, or at none, ends within a
depth that exceeds the number of addresses that there are to enter, with the result that it has in
either telling. At no moment is an address being expanded twice, and apart from the place where the
value stands there are never more of them than references of the document and of the value name. -/
theorem expansion_ends (env : Environment) (d : Document) (origin : Option Path) (v : Value)
    (more : Nat) :
    let active := (origin.map fun path => path.text d.delimiter).toList
    let count := namedCount d.value d.delimiter v
    ∃ p : Progress,
      (pursueAll env (count + 1 + more) v).runOn (Progress.start d active) =
          some (((expand env active v).runOn d).1, p) ∧
        p.document = ((expand env active v).runOn d).2 ∧ p.active = active ∧
          ∀ moment ∈ p.moments, moment.Nodup ∧ moment.length ≤ 1 + count := by
  intro active count
  have hbase : active.length ≤ 1 := Option.length_toList_le
  have hroom : ∀ {depth : Nat}, count < depth →
      Room d.value d.settings.delimiter v active active depth := fun hlt =>
    ⟨nodup_of_length_le_one hbase, [], rfl, List.nil_subset _, hlt⟩
  have hfuel : count < d.value.referenceCount + v.referenceCount + 1 := by
    have hle : count ≤ (named d.value d.delimiter v).length :=
      (List.dedup_sublist _).length_le
    rw [named, List.length_append, length_nodes, length_nodes] at hle
    omega
  have hstart : Stands d.value d.settings (Fits d.value d.settings.delimiter v) active
      (Progress.start d active) := by
    refine ⟨rfl, rfl, rfl, fun moment hm => ?_⟩
    rw [List.mem_singleton.mp hm]
    exact (hroom hfuel).fits hbase
  have htracks : Tracks d.value d.settings (Fits d.value d.settings.delimiter v) active Value
      (v.substitute (expandText env
        (dereference env (d.value.referenceCount + v.referenceCount + 1) active)))
      (pursueAll env (count + 1 + more) v) := by
    refine (passes_tracks _ _ _ _).expand fun q hq => ?_
    exact tracks_dereference env d.value d.settings v hbase (hroom (by omega)) (hroom hfuel)
      (List.mem_append_right _ (mem_nodes.mpr ⟨q, hq, rfl⟩))
  rw [expand, Live.runOn_get_bind]
  obtain ⟨p, hrun, hdocument, hp⟩ := htracks (Progress.start d active) hstart
  exact ⟨p, hrun, hdocument, hp.active, hp.fits⟩

end

end LiveDocument.Reference
