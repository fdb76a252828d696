import LiveDocument.Proofs.Session.Invariant
import LiveDocument.Proofs.Tree.Throughout

/-!
# What documents are made of

A condition that containers keep, whatever is stored in them, holds of everything in the documents
of a session if it holds of everything in the first value and in the values that the steps bring.
Lookups and expansions leave the value alone; edits put together what was there and what is brought.
So no mapping ever has a key twice if those that come from outside do not.

* `invariant_throughout`: elementary operations keep the condition.
* `throughout_after`: the documents of a run.
-/

namespace LiveDocument

variable {P : Value → Prop}

/-- Elementary operations keep a condition on everything in the value that containers keep. -/
theorem invariant_throughout (hP : Value.Stable P) :
    Invariant (fun d => d.value.Throughout P) (fun _ => True) (Value.Throughout P) where
  nil := trivial
  resolve := by
    intro d context hd _ q useCache
    rw [Document.value_resolve]
    exact ⟨hd, fun _ _ => trivial⟩
  root := by
    intro d hd
    rw [Document.root, Document.value_obtain]
    exact ⟨hd, trivial⟩
  write := fun hd hv hw => hd.write? hP hv (Document.value_write? hw)
  remove := fun hd hr => hd.remove? hP (Document.value_remove? hr)
  append := by
    intro d path items v hd hwalk hv
    have hitems := (Value.throughout_sequence.mp (hd.walk? hP hwalk)).2
    refine Value.throughout_sequence.mpr ⟨hP.sequence _, fun item hitem => ?_⟩
    rcases List.mem_append.mp hitem with hold | hnew
    · exact hitems item hold
    · exact List.mem_singleton.mp hnew ▸ hv
  hold := fun hd _ => hd
  retire := fun hd _ => hd
  fresh := fun _ hv => hv

theorem descends_throughout : Descends (fun d => d.value.Throughout P) (fun _ => True) := by
  intro d path hd _ s useCache
  dsimp only
  rw [Document.value_resolve]
  exact ⟨hd, fun _ _ => trivial⟩

namespace Session

/-- The condition holds of everything in the documents of the session. -/
def Throughout (P : Value → Prop) (s : Session) : Prop :=
  ∀ (n : Nat) (d : Document), s.document? n = some d → d.value.Throughout P

/-- Everything in the documents of a run satisfies a condition that containers keep, if everything
in the first value and in the values that the steps bring does. -/
theorem throughout_after (hP : Value.Stable P) (env : Environment) {value : Value}
    (hv : value.Throughout P) (settings : Settings) {steps : List Step}
    (hsteps : ∀ step ∈ steps, ∀ v ∈ step.action.brought, v.Throughout P) :
    ((opening env value settings).after steps).Throughout P :=
  have hupheld := upheld_after (invariant_throughout hP) env settings hv
    fun step hstep => ⟨hsteps step hstep, fun _ => descends_throughout⟩
  fun _ _ hd => hupheld.document hd

end Session

end LiveDocument
