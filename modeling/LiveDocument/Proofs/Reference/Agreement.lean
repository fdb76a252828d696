import LiveDocument.Proofs.Document.Ensures
import LiveDocument.Proofs.Document.Settled
import LiveDocument.Proofs.Reference.Following

/-!
# Expansion on a document

On a document, a reference is followed by looking its address up, which issues a handle or finds one
in the cache, and the handle is let go of when the reference has been followed. As long as the held
handles resolve and no two texts that are asked for have one digest, this comes to what following
references in the stored value gives.

* `Computes`: an operation that gives a result and returns the document.
* `resolve_of_valueAt?_eq_none`, `resolve_of_valueAt?_eq_some`: what the address of a reference
  finds.
* `computes_dereference`, `computes_expand`: following references on a document.
-/

namespace LiveDocument

namespace Live

open Document Reference

/-- The operation gives the result, and if that is a success it returns the document. -/
def Computes (start : Document) (α : Type) (x : Live α) (y : Except Failure α) : Prop :=
  ∀ d : Document, Returned start d →
    (x.runOn d).1 = y ∧ ∀ a, y = .ok a → Returned start (x.runOn d).2

variable {start : Document}

theorem passes_computes (start : Document) : Passes (Computes start) where
  pure := by
    intro α a d hd
    exact ⟨rfl, fun _ _ => hd⟩
  bind := by
    intro α β x y f g hx hf d hd
    obtain ⟨hresult, hreturned⟩ := hx d hd
    rw [runOn_bind]
    cases hrun : x.runOn d with
    | mk r d' =>
      rw [hrun] at hresult hreturned
      obtain rfl : r = y := hresult
      cases r with
      | error e =>
        refine ⟨rfl, fun b hb => ?_⟩
        cases hb
      | ok a => exact hf a d' (hreturned a rfl)

theorem computes_throw {α : Type} (f : Failure) :
    Computes start α (throw f) (.error f) := by
  intro d _
  refine ⟨rfl, fun a ha => ?_⟩
  cases ha

/-! ## Following one reference -/

variable {T : String → Prop} {env : Environment}

/-- A text of query characters asks for its own canonical path. -/
structure Asks (T : String → Prop) (delimiter q : String) : Prop where
  minus : '-' ∉ q.toList
  colon : ':' ∉ q.toList
  text : T (node delimiter q)

theorem asks_of_mem_queries {delimiter q : String} {v : Value} (hq : q ∈ v.queries)
    (hT : T (node delimiter q)) : Asks T delimiter q := by
  obtain ⟨s, -, hplaces⟩ := Value.mem_queries.mp hq
  obtain ⟨hminus, hcolon⟩ := notMem_of_mem_places hplaces
  exact ⟨hminus, hcolon, hT⟩

theorem node_eq_text (delimiter q : String) :
    node delimiter q = Path.text (Address.parse (.text q) delimiter).segments delimiter := by
  rw [node, Address.canonical, Address.fullPath_nil, Address.delimiter_parse]

namespace Asks

variable {delimiter q : String}

theorem endsWithSlice_eq_false (h : Asks T delimiter q) :
    (Address.parse (.text q) delimiter).endsWithSlice = false := by
  unfold Address.endsWithSlice
  split
  · rename_i s hs
    exact Address.isSlice_of_mem_parse_text h.colon (List.mem_of_getLast? hs)
  · rfl

theorem readsBack (h : Asks T delimiter q) :
    (Address.parse (.text q) delimiter).segments.ReadsBack delimiter :=
  Address.readsBack_parse_text delimiter h.minus h.colon

/-- The value at the canonical text is the one at the path. -/
theorem valueAt?_eq (h : Asks T delimiter q) (root : Value) :
    valueAt? root delimiter (node delimiter q) =
      root.walk? (Address.parse (.text q) delimiter).segments := by
  have hback := h.readsBack
  rw [Path.ReadsBack, ← node_eq_text] at hback
  rw [valueAt?, hback]

end Asks

/-- What is computed on the way, after the handle of a reference was issued, is returned to the
document from before when the handle is let go of. -/
theorem returned_release {d d₁ d₂ : Document} (hd : Returned start d)
    (hfollows : Follows d.settings.useCache d d₁) (hvalue : d₁.value = d.value)
    (hspared : ∀ {t : Tenant Digest}, d.arena.Houses t →
      d.arena.isHeld t.ticket.serial = true → d₁.arena.Houses t)
    (h : Returned d₁ d₂) : Returned start ((Reference.release d.arena.held).runOn d₂).2 := by
  have hsettings : d₁.settings = d.settings := hfollows.settings
  have hall : Follows d.settings.useCache d d₂ := by
    have hinner := h.follows
    rw [hsettings] at hinner
    exact hfollows.trans hinner
  refine hd.trans ⟨follows_release hall, h.value.trans hvalue, rfl, fun ht hheld => ?_⟩
  exact h.spared (hspared ht hheld) (isHeld_of_follows hfollows hheld)

/-- The address of a reference is looked up as its path is, if there is a value at its canonical
text. -/
theorem Asks.resolve_eq {d : Document} (hs : Settled T d)
    (hT : d.settings.useCache = true → Apart T) {q : String} (hq : Asks T d.delimiter q) :
    d.resolve (d.addressOf (.text q)) [] d.settings.useCache =
      match valueAt? d.value d.delimiter (node d.delimiter q) with
      | some v => ([(d.obtain (d.addressOf (.text q)).segments v.kind d.settings.useCache).1],
          (d.obtain (d.addressOf (.text q)).segments v.kind d.settings.useCache).2)
      | none => ([], d) := by
  have hback : ((d.addressOf (.text q)).fullPath []).ReadsBack d.delimiter := by
    rw [Address.fullPath_nil]
    exact hq.readsBack
  have hwhole : (d.addressOf (.text q)).endsWithSlice = false := hq.endsWithSlice_eq_false
  rw [hs.resolve_eq hwhole (Address.delimiter_parse _ _) hT hback hq.text, hq.valueAt?_eq,
    Address.fullPath_nil]
  rfl

/-- Where there is nothing, a reference finds nothing. -/
theorem resolve_of_valueAt?_eq_none {d : Document} (hs : Settled T d)
    (hT : d.settings.useCache = true → Apart T) {q : String} (hq : Asks T d.delimiter q)
    (hv : valueAt? d.value d.delimiter (node d.delimiter q) = none) :
    d.resolve (d.addressOf (.text q)) [] d.settings.useCache = ([], d) := by
  rw [hq.resolve_eq hs hT, hv]

/-- Where there is a value, a reference finds one handle, which reads this value. -/
theorem resolve_of_valueAt?_eq_some {d : Document} (hs : Settled T d)
    (hT : d.settings.useCache = true → Apart T) {q : String} (hq : Asks T d.delimiter q) {v : Value}
    (hv : valueAt? d.value d.delimiter (node d.delimiter q) = some v) :
    ∃ h d', d.resolve (d.addressOf (.text q)) [] d.settings.useCache = ([h], d') ∧
      h.rawValue.runOn d' = (.ok v, d') ∧ Settled T d' ∧ d'.value = d.value ∧
        Follows d.settings.useCache d d' ∧ ∀ {t : Tenant Digest}, d.arena.Houses t →
          d.arena.isHeld t.ticket.serial = true → d'.arena.Houses t := by
  have hfound := hq.resolve_eq hs hT
  rw [hv] at hfound
  rw [hq.valueAt?_eq] at hv
  have hresolves : Resolves T d (d.addressOf (.text q)).segments :=
    ⟨hq.readsBack, node_eq_text d.delimiter q ▸ hq.text, v, hv⟩
  obtain ⟨hsettled, hpath, hvalid⟩ := hs.obtain hresolves v.kind hT
  have hvalue := value_obtain d (d.addressOf (.text q)).segments v.kind d.settings.useCache
  refine ⟨_, _, hfound, ?_, hsettled, hvalue, (follows_obtain hs.sound _ _ _).1,
    houses_obtain hs.sound _ _ _⟩
  rw [runOn_rawValue, if_pos hvalid, hpath, hvalue]
  simp only [Document.addressOf, hv]

/-- Following a reference on a document gives what following it in the stored value gives. -/
theorem computes_dereference (env : Environment) (hT : start.settings.useCache = true → Apart T)
    (hs : Settled T start)
    (hnamed : ∀ q ∈ start.value.queries, Asks T start.delimiter q) (fuel : Nat)
    (active : List String) {q : String} (hq : Asks T start.delimiter q) :
    Computes start Value (Reference.dereference env fuel active q)
      (follow env start.value start.delimiter fuel active q) := by
  induction fuel generalizing start active q with
  | zero => exact computes_throw _
  | succ fuel ih =>
    intro d hd
    have hvalue : d.value = start.value := hd.value
    have hsettings : d.settings = start.settings := hd.follows.settings
    have hdelimiter : d.delimiter = start.delimiter := congrArg Settings.delimiter hsettings
    have hsettled : Settled T d := hs.of_returned hd
    rw [← hdelimiter] at hq hnamed
    rw [← hvalue] at hnamed
    rw [← hsettings] at hT
    have hcanonical : (d.addressOf (.text q)).canonical [] = node d.delimiter q := rfl
    rw [← hvalue, ← hdelimiter, Reference.dereference, runOn_get_bind, follow]
    dsimp only
    rw [hcanonical]
    split
    · exact computes_throw _ d hd
    · rw [runOn_bind, runOn_resolve]
      cases hv : valueAt? d.value d.delimiter (node d.delimiter q) with
      | none =>
        rw [resolve_of_valueAt?_eq_none hsettled hT hq hv]
        exact ⟨rfl, fun _ _ => hd⟩
      | some v =>
        obtain ⟨h, d₁, hresolve, hraw, hsettled₁, hvalue₁, hfollows₁, hspared₁⟩ :=
          resolve_of_valueAt?_eq_some hsettled hT hq hv
        have hdelimiter₁ : d₁.delimiter = d.delimiter := hfollows₁.delimiter
        -- The references in the value are followed on the document that has the new handle.
        have hinner : Computes d₁ Value
            (v.substitute (expandText env
              (Reference.dereference env fuel (node d.delimiter q :: active))))
            (v.substitute (expandText env
              (follow env d₁.value d₁.delimiter fuel (node d.delimiter q :: active)))) := by
          refine (passes_computes d₁).expand fun q' hq' => ih ?_ hsettled₁ ?_ _ ?_
          · rw [hfollows₁.settings]
            exact hT
          · rw [hvalue₁, hdelimiter₁]
            exact hnamed
          · rw [hdelimiter₁]
            exact hnamed q' (Value.queries_subset_of_walk? hv hq')
        obtain ⟨hresult, hreturned⟩ := hinner d₁ (Returned.refl hsettled₁.sound)
        rw [hvalue₁, hdelimiter₁] at hresult hreturned
        rw [hresolve]
        dsimp only
        rw [runOn_bind, Reference.rawTogether, hraw]
        dsimp only
        rw [runOn_bind, ← hresult]
        cases hrun : (v.substitute (expandText env
            (Reference.dereference env fuel (node d.delimiter q :: active)))).runOn d₁ with
        | mk r d₂ =>
          rw [hrun] at hresult hreturned
          cases r with
          | error e =>
            refine ⟨rfl, fun a ha => ?_⟩
            cases ha
          | ok w =>
            have hback :=
              returned_release hd hfollows₁ hvalue₁ hspared₁ (hreturned w hresult.symm)
            exact ⟨rfl, fun _ _ => hback⟩

/-- Expanding a value on a document comes to following its references in the stored value. -/
theorem computes_expand (env : Environment) (hT : start.settings.useCache = true → Apart T)
    (hs : Settled T start) {v : Value}
    (hnamed : ∀ q, q ∈ start.value.queries ∨ q ∈ v.queries → T (node start.delimiter q))
    (active : List String) :
    Computes start Value (Reference.expand env active v)
      (followAll env start.value start.delimiter active v) := by
  intro d hd
  have hasks : ∀ q ∈ start.value.queries, Asks T start.delimiter q := fun q hq =>
    asks_of_mem_queries hq (hnamed q (.inl hq))
  rw [Reference.expand, runOn_get_bind, hd.value]
  refine (passes_computes start).expand (fun q hq => ?_) d hd
  exact computes_dereference env hT hs hasks _ active
    (asks_of_mem_queries hq (hnamed q (.inr hq)))

end Live

end LiveDocument
