import LiveDocument.Proofs.Document.Naming
import LiveDocument.Proofs.Session.Invariant

/-!
# The names of the handles of a session

Whatever a session does, a handle that it keeps was found by queries, one from the place of the other,
also where the cache gave it. Only the children of views are found by segments instead of queries. So
as long as no view is asked for its children, the address of every handle names its path.

* `Arena.houses_of_lookup?`, `Arena.path_of_houses_issue`: where tenants come from.
* `Document.Surveyed`: every handle that was issued watches a place that queries lead to.
* `invariant_surveyed`: elementary operations keep this.
* `Session.reached_register`, `Session.parse_address_register`: the handles of a run.
-/

namespace LiveDocument

namespace Arena

variable {κ : Type} [DecidableEq κ] {a : Arena κ} {t : Tenant κ}

/-- What is found by a key occupies a slot. -/
theorem houses_of_lookup? {key : κ} (h : a.lookup? key = some t) : a.Houses t := by
  unfold lookup? at h
  obtain ⟨slot, -, h⟩ := Option.bind_eq_some_iff.mp h
  obtain ⟨s, hs, h⟩ := Option.bind_eq_some_iff.mp h
  obtain ⟨u, hu, h⟩ := Option.bind_eq_some_iff.mp h
  rw [Option.ite_none_right_eq_some] at h
  cases h.2
  exact ⟨slot, tenant?_eq_some.mpr ⟨s, hs, hu⟩⟩

/-- Finding a slot brings no tenant. -/
theorem houses_of_allocate (h : a.allocate.2.Houses t) : a.Houses t := by
  have hswept : ∀ {b : Arena κ}, b.slots = a.sweep.slots → b.Houses t → a.Houses t := by
    rintro b hslots ⟨i, hi⟩
    refine (houses_retireWhere.mp (show a.sweep.Houses t from ⟨i, ?_⟩)).1
    rwa [tenant?, ← hslots]
  unfold allocate at h
  split at h
  · exact h
  · split at h
    · dsimp only at h
      split at h
      · exact hswept rfl h
      · exact hswept rfl (houses_grow.mp h)
    · exact houses_grow.mp h

/-- Issuing a handle brings one tenant, with the path it was issued for. -/
theorem path_of_houses_issue {path : Path} {kind : Kind} {key : κ} {cache : Bool}
    (h : (a.issue path kind key cache).2.Houses t) : t.path = path ∨ a.Houses t := by
  obtain ⟨i, hi⟩ := h
  obtain ⟨s, hs, ht⟩ := tenant?_eq_some.mp hi
  unfold issue at hs
  dsimp only at hs
  rw [List.getElem?_set] at hs
  split at hs
  · split at hs
    · cases hs
      cases ht
      exact Or.inl rfl
    · cases hs
  · exact Or.inr (houses_of_allocate ⟨i, tenant?_eq_some.mpr ⟨s, hs, ht⟩⟩)

theorem houses_of_retireTicket {ticket : Ticket} (h : (a.retireTicket ticket).2.Houses t) :
    a.Houses t := by
  unfold retireTicket at h
  split at h
  · exact houses_of_retire h
  · exact h

end Arena

namespace Document

variable {delimiter : String} {d : Document} {path : Path}

/-- The document spells addresses with this delimiter, and every handle that it has issued and that is
still valid watches a place that queries lead to. -/
structure Surveyed (delimiter : String) (d : Document) : Prop where
  spells : d.delimiter = delimiter
  reached : ∀ {t : Tenant Digest}, d.arena.Houses t → Reached delimiter t.path

theorem surveyed_ofValue (value : Value) (settings : Settings) :
    Surveyed settings.delimiter (ofValue value settings) where
  spells := rfl
  reached := by
    rintro t ⟨slot, h⟩
    simp [ofValue, Arena.empty, Arena.tenant?] at h

theorem Surveyed.of_houses (hd : d.Surveyed delimiter) {d' : Document}
    (hdelimiter : d'.delimiter = d.delimiter)
    (h : ∀ {t : Tenant Digest}, d'.arena.Houses t → d.arena.Houses t) : d'.Surveyed delimiter where
  spells := hdelimiter.trans hd.spells
  reached := fun ht => hd.reached (h ht)

theorem Surveyed.cached? (hd : d.Surveyed delimiter) {key : Digest} {h : Handle}
    (hh : d.cached? key = some h) : Reached delimiter h.path := by
  obtain ⟨t, ht, rfl⟩ := Option.map_eq_some_iff.mp hh
  exact hd.reached (Arena.houses_of_lookup? ht)

theorem Surveyed.obtain (hd : d.Surveyed delimiter) (hpath : Reached delimiter path) (kind : Kind)
    (useCache : Bool) :
    (d.obtain path kind useCache).2.Surveyed delimiter ∧
      Reached delimiter (d.obtain path kind useCache).1.path := by
  unfold Document.obtain
  split
  · rename_i h hh
    refine ⟨hd, ?_⟩
    cases useCache with
    | false => cases hh
    | true => exact hd.cached? hh
  · refine ⟨⟨hd.spells, fun ht => ?_⟩, hpath⟩
    rcases Arena.path_of_houses_issue ht with hnew | hold
    · rw [hnew]
      exact hpath
    · exact hd.reached hold

theorem Surveyed.obtainAll (hd : d.Surveyed delimiter) (useCache : Bool) {targets : List Target}
    (htargets : ∀ t ∈ targets, Reached delimiter t.path) :
    (d.obtainAll useCache targets).2.Surveyed delimiter ∧
      ∀ h ∈ (d.obtainAll useCache targets).1, Reached delimiter h.path := by
  induction targets generalizing d with
  | nil => exact ⟨hd, List.forall_mem_nil _⟩
  | cons t rest ih =>
    obtain ⟨ht, hrest⟩ := List.forall_mem_cons.mp htargets
    obtain ⟨hnext, hfirst⟩ := hd.obtain ht t.kind useCache
    obtain ⟨hlast, hall⟩ := ih hnext hrest
    exact ⟨hlast, List.forall_mem_cons.mpr ⟨hfirst, hall⟩⟩

/-- A query from a place that queries lead to gives handles for such places. -/
theorem Surveyed.resolve (hd : d.Surveyed delimiter) {context : Path}
    (hcontext : Reached delimiter context) (q : Query) (useCache : Bool) :
    (d.resolve (d.addressOf q) context useCache).2.Surveyed delimiter ∧
      ∀ h ∈ (d.resolve (d.addressOf q) context useCache).1, Reached delimiter h.path := by
  unfold Document.resolve
  dsimp only
  split
  · rename_i h hh
    refine ⟨hd, fun k hk => ?_⟩
    rw [List.mem_singleton.mp hk]
    exact hd.cached? (known_eq_some hh).2.2
  · split
    · rename_i targets htargets
      rw [addressOf, hd.spells] at htargets
      exact hd.obtainAll useCache fun t ht => hcontext.step htargets ht
    · exact ⟨hd, List.forall_mem_nil _⟩

theorem Surveyed.cascadeBelow (hd : d.Surveyed delimiter) (top : Path) :
    (d.cascadeBelow top).Surveyed delimiter := by
  unfold Document.cascadeBelow
  split
  · exact hd.of_houses rfl fun ht => (Arena.houses_retireWhere.mp ht).1
  · exact hd

theorem Surveyed.invalidatePath (hd : d.Surveyed delimiter) (path : Path) :
    (d.invalidatePath path).Surveyed delimiter :=
  hd.of_houses rfl fun ht => (Arena.houses_retireWhere.mp ht).1

theorem Surveyed.write? (hd : d.Surveyed delimiter) {d' : Document} {v : Value}
    (h : d.write? path v = some d') : d'.Surveyed delimiter := by
  obtain ⟨changed, -, rfl⟩ := Option.map_eq_some_iff.mp h
  have hwritten : Surveyed delimiter { d with value := changed } := hd.of_houses rfl fun ht => ht
  dsimp only
  split
  · exact hwritten.cascadeBelow path
  · exact (hwritten.invalidatePath path).cascadeBelow path

theorem Surveyed.remove? (hd : d.Surveyed delimiter) {d' : Document} {old : Value}
    (h : d.remove? path = some (old, d')) : d'.Surveyed delimiter := by
  obtain ⟨⟨w, changed⟩, -, he⟩ := Option.map_eq_some_iff.mp h
  cases he
  have hremoved : Surveyed delimiter { d with value := changed } := hd.of_houses rfl fun ht => ht
  exact (hremoved.invalidatePath path).cascadeBelow _

end Document

/-- Elementary operations issue handles for places that queries lead to, and for no others. -/
theorem invariant_surveyed (delimiter : String) :
    Invariant (Document.Surveyed delimiter) (Reached delimiter) fun _ => True where
  nil := .root
  resolve := fun hd hcontext q useCache => hd.resolve hcontext q useCache
  root := fun hd => hd.obtain .root _ _
  write := fun hd _ hw => hd.write? hw
  remove := fun hd hr => hd.remove? hr
  append := fun _ _ _ => trivial
  hold := fun hd _ => hd.of_houses rfl fun ht => ht
  retire := fun hd _ => hd.of_houses rfl Arena.houses_of_retireTicket
  fresh := by
    intro d v hd _
    rw [← hd.spells]
    exact Document.surveyed_ofValue v d.settings

namespace Session

variable {env : Environment} {value : Value} {settings : Settings} {steps : List Step}
  {entry : String × Register}

/-- As long as no view is asked for its children, every handle that a session keeps watches a place
that queries lead to. -/
theorem reached_register (hsteps : ∀ step ∈ steps, ¬ step.action.AsksChildren)
    (hentry : entry ∈ ((opening env value settings).after steps).registers) :
    Reached settings.delimiter entry.2.watched.path :=
  (upheld_after (invariant_surveyed settings.delimiter) env settings
    (Document.surveyed_ofValue value settings) fun step hstep =>
      ⟨fun _ _ => trivial, fun hasks => (hsteps step hstep hasks).elim⟩).register hentry

/-- Then the address of the handle is read back as the path that it watches. -/
theorem parse_address_register {c : Char} (hd : settings.delimiter.toList = [c])
    (hblank : Text.isBlank c = false) (hdigit : c.isDigit = false) (hminus : c ≠ '-')
    (hcolon : c ≠ ':') (hsteps : ∀ step ∈ steps, ¬ step.action.AsksChildren)
    (hentry : entry ∈ ((opening env value settings).after steps).registers) :
    Address.parse (.text (entry.2.watched.address settings.delimiter)) settings.delimiter =
      ⟨entry.2.watched.path, true, settings.delimiter⟩ :=
  ((reached_register hsteps hentry).nameable hdigit hminus hcolon hd).parse_address hd hblank

end Session

end LiveDocument
