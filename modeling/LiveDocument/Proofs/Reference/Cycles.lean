import LiveDocument.Proofs.Reference.Agreement
import LiveDocument.Proofs.Session.Run

/-!
# Expansion reports exactly the cycles

On a document of which no handle is held, expanding a value fails if and only if a cycle of the
graph of references can be reached from it, and then the failure says so; otherwise it gives what
the value stands for. An address that is reached twice on different ways is no cycle.

* `expand_of_settled`: one or the other, on a document whose held handles resolve.
* `Session.expand_reports_cycles`: in every state that a session reaches.
-/

namespace LiveDocument

open Reference

namespace Document

variable {T : String → Prop} {d : Document} {active : List String} {v : Value}

/-- Expanding a value gives what it stands for, or reports a cycle that the value leads to. -/
theorem expand_of_settled (env : Environment) (hs : Settled T d)
    (hT : d.settings.useCache = true → Apart T)
    (hnamed : ∀ q, q ∈ d.value.queries ∨ q ∈ v.queries → T (node d.delimiter q))
    (hactive : ∀ a ∈ active, valueAt? d.value d.delimiter a = some v) :
    (∃ w, ((Reference.expand env active v).runOn d).1 = .ok w ∧
        Expands env d.value d.delimiter v w) ∨
      (∃ a, ((Reference.expand env active v).runOn d).1 = .error (.referenceCycle a)) ∧
        LeadsToCycle d.value d.delimiter v := by
  obtain ⟨hresult, -⟩ :=
    Live.computes_expand env hT hs hnamed active d (Returned.refl hs.sound)
  rw [hresult]
  cases hr : followAll env d.value d.delimiter active v with
  | ok w => exact Or.inl ⟨w, rfl, expands_of_followAll_ok hr⟩
  | error e =>
    obtain ⟨⟨a, rfl⟩, hcycle⟩ := cycle_of_followAll_error hactive hr
    exact Or.inr ⟨⟨a, rfl⟩, hcycle⟩

end Document

namespace Session

open Document

/-- In every state that a session reaches, and on every document of which no handle is held,
expanding a value fails with a cycle if and only if the value leads to one, and otherwise succeeds
with what the value stands for, provided that no two texts that the references name have one
digest. -/
theorem expand_reports_cycles (env₀ env : Environment) (value : Value) (settings : Settings)
    (steps : List Step) {n : Nat} {d : Document}
    (hd : ((opening env₀ value settings).after steps).document? n = some d)
    (hheld : d.arena.held = []) (v : Value)
    (hdigest : d.settings.useCache = true → ∀ x ∈ named d.value d.delimiter v,
      ∀ y ∈ named d.value d.delimiter v, Digest.ofText x = Digest.ofText y → x = y) :
    ((∃ a, ((Reference.expand env [] v).runOn d).1 = .error (.referenceCycle a)) ↔
        LeadsToCycle d.value d.delimiter v) ∧
      (¬ LeadsToCycle d.value d.delimiter v →
        ∃ w, ((Reference.expand env [] v).runOn d).1 = .ok w ∧
          Expands env d.value d.delimiter v w) := by
  have hsound : d.Sound := ((sound_after (sound_opening env₀ value settings) steps).document hd).1
  have hsettled : Settled (· ∈ named d.value d.delimiter v) d :=
    settled_of_held_nil hsound hheld
  have hnamed : ∀ q, q ∈ d.value.queries ∨ q ∈ v.queries →
      node d.delimiter q ∈ named d.value d.delimiter v := by
    intro q hq
    rcases hq with hq | hq
    · exact List.mem_append_left _ (mem_nodes.mpr ⟨q, hq, rfl⟩)
    · exact List.mem_append_right _ (mem_nodes.mpr ⟨q, hq, rfl⟩)
  have hcases := expand_of_settled env hsettled
    (fun hcache x y hx hy => hdigest hcache x hx y hy) hnamed (List.forall_mem_nil _)
  rcases hcases with ⟨w, hok, hexpands⟩ | ⟨⟨a, herror⟩, hcycle⟩
  · have hnone := hexpands.not_leadsToCycle
    refine ⟨⟨?_, fun hcycle => absurd hcycle hnone⟩, fun _ => ⟨w, hok, hexpands⟩⟩
    rintro ⟨a, herror⟩
    rw [hok] at herror
    cases herror
  · exact ⟨⟨fun _ => hcycle, fun _ => ⟨a, herror⟩⟩, fun hnone => absurd hcycle hnone⟩

/-- A mapping with a reference to itself inside leads to a cycle, however it is spelled. -/
theorem expand_reports_cycles_self :
    LeadsToCycle (.mapping [("a", .mapping [("b", .string "$r\x7ba\x7d")])]) "/"
      (.string "x $r\x7b/a/b\x7d") := by
  have hexpand := expand_reports_cycles [] []
    (.mapping [("a", .mapping [("b", .string "$r\x7ba\x7d")])]) {} [] (n := 0) rfl rfl
    (.string "x $r\x7b/a/b\x7d") (fun _ => by decide +kernel)
  apply Classical.byContradiction
  intro hnone
  obtain ⟨w, hok, -⟩ := hexpand.2 hnone
  have hfails : ((Reference.expand [] [] (.string "x $r\x7b/a/b\x7d")).runOn
      (Document.ofValue (.mapping [("a", .mapping [("b", .string "$r\x7ba\x7d")])]) {})).1.isOk =
        false := by decide +kernel
  replace hok : ((Reference.expand [] [] (.string "x $r\x7b/a/b\x7d")).runOn
      (Document.ofValue (.mapping [("a", .mapping [("b", .string "$r\x7ba\x7d")])]) {})).1 =
        .ok w := hok
  rw [hok] at hfails
  cases hfails

end Session

end LiveDocument
