import LiveDocument.Document.Edit
import LiveDocument.Proofs.Arena.Issue

/-!
# The course of a document

What every operation on a document keeps: the invariant of its arena, the handles that somebody
has, and their paths. Nothing here depends on what the value is or on whether edits cascade.

* `Sound`: the invariant of a document. `Has`: a handle that has been issued and is held.
* `Follows`: the second document comes from the first by operations; its new handles were issued
  with or without the cache.
* `follows_resolve`, `follows_write?`, `follows_remove?`, `follows_invalidate`: every operation
  makes a document that follows.
-/

namespace LiveDocument

namespace Document

/-- The invariant of a document: that of its arena, and every key is that of its tenant's path. -/
structure Sound (d : Document) : Prop where
  arena : d.arena.Sound
  indexed : d.arena.Indexed
  key : ∀ {t : Tenant Digest} {k : Digest}, d.arena.Houses t → t.key = some k →
    k = keyOf t.path d.delimiter

/-- The handle has been issued, somebody holds it, and its path is that of its tenant. -/
structure Has (d : Document) (h : Handle) : Prop where
  known : d.arena.Knows h.ticket
  held : h.ticket.serial ∈ d.arena.held
  path : ∀ {t : Tenant Digest}, d.arena.Houses t → t.ticket = h.ticket → t.path = h.path

/-- The second document comes from the first by operations that let go of no handle and look up
with or without the cache. -/
structure Follows (useCache : Bool) (d d' : Document) : Prop where
  sound : d'.Sound
  settings : d'.settings = d.settings
  leads : d.arena.Leads d'.arena
  held : d.arena.held ⊆ d'.arena.held
  fresh : ∀ {t : Tenant Digest}, d'.arena.Houses t →
    d.arena.Houses t ∨ t.key.isSome = useCache

namespace Follows

variable {useCache : Bool} {d d' d'' : Document}

theorem refl (hd : d.Sound) : Follows useCache d d :=
  ⟨hd, rfl, Arena.Leads.refl _, List.Subset.refl _, Or.inl⟩

theorem trans (h : Follows useCache d d') (k : Follows useCache d' d'') :
    Follows useCache d d'' where
  sound := k.sound
  settings := k.settings.trans h.settings
  leads := h.leads.trans k.leads
  held := fun _ hn => k.held (h.held hn)
  fresh := by
    intro t ht
    rcases k.fresh ht with hold | hnew
    · exact h.fresh hold
    · exact Or.inr hnew

theorem delimiter (h : Follows useCache d d') : d'.delimiter = d.delimiter := by
  rw [Document.delimiter, h.settings, Document.delimiter]

end Follows

/-- A handle that somebody has stays known, and keeps its path. -/
theorem Has.of_leads {d d' : Document} {h : Handle} (hh : d.Has h)
    (hl : d.arena.Leads d'.arena) (hheld : h.ticket.serial ∈ d'.arena.held) : d'.Has h where
  known := hh.known.of_leads hl
  held := hheld
  path := by
    intro t ht he
    rcases hl.houses ht with hold | hnew
    · exact hh.path hold he
    · have := hh.known.serial_lt
      rw [he] at hnew
      omega

theorem Has.of_follows {useCache : Bool} {d d' : Document} {h : Handle} (hh : d.Has h)
    (hf : Follows useCache d d') : d'.Has h :=
  hh.of_leads hf.leads (hf.held hh.held)

/-- A handle that somebody has is valid if and only if its tenant is housed. -/
theorem Has.isValid_iff {d : Document} {h : Handle} (hh : d.Has h) (hd : d.Sound) :
    d.isValid h = true ↔ ∃ t, d.arena.Houses t ∧ t.ticket = h.ticket :=
  hh.known.isLive_iff hd.arena.toTenancy

/-- A valid handle is told from others by its serial number. -/
theorem Has.eq_of_serial {d : Document} {h k : Handle} (hh : d.Has h) (hk : d.Has k)
    {t : Tenant Digest} (ht : d.arena.Houses t) (he : t.ticket = h.ticket)
    (hserial : k.ticket.serial = h.ticket.serial) : k = h := by
  have hsame : t.ticket = k.ticket := hk.known.serial ht (by rw [he, hserial])
  have hpath : k.path = h.path := (hk.path ht hsame).symm.trans (hh.path ht he)
  rw [he] at hsame
  cases h
  cases k
  exact congr (congrArg Handle.mk hsame.symm) hpath

theorem has_of_houses {d : Document} (hd : d.Sound) {t : Tenant Digest} (ht : d.arena.Houses t)
    (hheld : d.arena.isHeld t.ticket.serial = true) : d.Has ⟨t.ticket, t.path⟩ where
  known := Arena.Knows.of_houses hd.arena.toTenancy ht
  held := List.contains_iff_mem.mp hheld
  path := by
    intro u hu he
    rw [hd.arena.serial_inj hu ht (by rw [he])]

theorem sound_ofValue (value : Value) (settings : Settings) : (ofValue value settings).Sound where
  arena := Arena.sound_empty
  indexed := Arena.indexed_empty
  key := by
    rintro t k ⟨slot, h⟩
    simp [ofValue, Arena.empty, Arena.tenant?] at h

/-! ## Lookups -/

theorem cached?_eq_some {d : Document} (hd : d.Sound) {key : Digest} {h : Handle}
    (hc : d.cached? key = some h) :
    ∃ t, d.arena.Houses t ∧ t.key = some key ∧ d.arena.isHeld t.ticket.serial = true ∧
      h = ⟨t.ticket, t.path⟩ := by
  obtain ⟨t, ht, rfl⟩ := Option.map_eq_some_iff.mp hc
  obtain ⟨hhouse, hk, hheld⟩ := Arena.lookup?_eq_some hd.arena.toTenancy ht
  exact ⟨t, hhouse, hk, hheld, rfl⟩

theorem cached?_eq_none {d : Document} {key : Digest} (hc : d.cached? key = none) :
    d.arena.lookup? key = none :=
  Option.map_eq_none_iff.mp hc

/-- Issuing a handle, for the cache only if the cache has none for its path. -/
theorem follows_issue {d : Document} (hd : d.Sound) (path : Path) (kind : Kind) (useCache : Bool)
    (hnone : useCache = true → d.cached? (keyOf path d.delimiter) = none) :
    Follows useCache d (d.issue path kind useCache).2 ∧
      (d.issue path kind useCache).2.Has (d.issue path kind useCache).1 := by
  have hsound := hd.arena.issue path kind (keyOf path d.delimiter) useCache
  have hhouse := Arena.houses_issue_self path kind (keyOf path d.delimiter) useCache hd.arena
  have hcases : ∀ {t : Tenant Digest}, (d.issue path kind useCache).2.arena.Houses t →
      t = d.arena.nextTenant path kind (keyOf path d.delimiter) useCache ∨ d.arena.Houses t := by
    intro t ht
    rcases Arena.houses_of_issue path kind (keyOf path d.delimiter) useCache hd.arena ht with
      he | hold
    · exact Or.inl he
    · exact Or.inr ((Arena.allocate_spec hd.arena).2.houses hold)
  have hfollows : Follows useCache d (d.issue path kind useCache).2 := by
    refine ⟨⟨hsound, ?_, ?_⟩, rfl, ?_, ?_, ?_⟩
    · exact Arena.Indexed.issue path kind _ useCache hd.arena hd.indexed fun hc =>
        cached?_eq_none (hnone hc)
    · intro t k ht hk
      rcases hcases ht with rfl | hold
      · cases useCache with
        | false => cases hk
        | true => exact (Option.some.inj hk).symm
      · exact hd.key hold hk
    · exact Arena.leads_issue path kind _ useCache hd.arena
    · intro n hn
      show n ∈ d.arena.allocate.2.issued :: d.arena.allocate.2.held
      rw [(Arena.allocate_spec hd.arena).2.held]
      exact List.mem_cons_of_mem _ hn
    · intro t ht
      rcases hcases ht with rfl | hold
      · exact Or.inr (by cases useCache <;> rfl)
      · exact Or.inl hold
  refine ⟨hfollows, ?_⟩
  exact has_of_houses hfollows.sound hhouse (List.contains_iff_mem.mpr List.mem_cons_self)

theorem follows_obtain {d : Document} (hd : d.Sound) (path : Path) (kind : Kind)
    (useCache : Bool) :
    Follows useCache d (d.obtain path kind useCache).2 ∧
      (d.obtain path kind useCache).2.Has (d.obtain path kind useCache).1 := by
  unfold obtain
  cases hc : (if useCache then d.cached? (keyOf path d.delimiter) else none) with
  | some h =>
    have hcached : d.cached? (keyOf path d.delimiter) = some h := by
      cases useCache with
      | true => exact hc
      | false => cases hc
    obtain ⟨t, ht, -, hheld, rfl⟩ := cached?_eq_some hd hcached
    exact ⟨Follows.refl hd, has_of_houses hd ht hheld⟩
  | none =>
    refine follows_issue hd path kind useCache fun hu => ?_
    rwa [hu] at hc

theorem follows_obtainAll {d : Document} (hd : d.Sound) (useCache : Bool) (targets : List Target) :
    Follows useCache d (d.obtainAll useCache targets).2 ∧
      ∀ h ∈ (d.obtainAll useCache targets).1, (d.obtainAll useCache targets).2.Has h := by
  induction targets generalizing d with
  | nil => exact ⟨Follows.refl hd, fun h hh => by cases hh⟩
  | cons t rest ih =>
    obtain ⟨hfirst, hhas⟩ := follows_obtain hd t.path t.kind useCache
    obtain ⟨hrest, hall⟩ := ih hfirst.sound
    refine ⟨hfirst.trans hrest, fun h hh => ?_⟩
    rcases List.mem_cons.mp hh with rfl | hh
    · exact hhas.of_follows hrest
    · exact hall h hh

/-- What an address finds in the cache before the value is walked. -/
theorem known_eq_some {d : Document} {a : Address} {context : Path} {useCache : Bool} {h : Handle}
    (hk : (if useCache && !a.endsWithSlice then d.cached? (keyOf (a.fullPath context) a.delimiter)
      else none) = some h) :
    useCache = true ∧ a.endsWithSlice = false ∧
      d.cached? (keyOf (a.fullPath context) a.delimiter) = some h := by
  cases useCache with
  | false => cases hk
  | true =>
    cases hs : a.endsWithSlice with
    | true =>
      rw [hs] at hk
      cases hk
    | false =>
      rw [hs] at hk
      exact ⟨rfl, rfl, hk⟩

theorem follows_resolve {d : Document} (hd : d.Sound) (a : Address) (context : Path)
    (useCache : Bool) :
    Follows useCache d (d.resolve a context useCache).2 ∧
      ∀ h ∈ (d.resolve a context useCache).1, (d.resolve a context useCache).2.Has h := by
  unfold resolve
  dsimp only
  split
  · rename_i h hk
    obtain ⟨t, ht, -, hheld, rfl⟩ := cached?_eq_some hd (known_eq_some hk).2.2
    refine ⟨Follows.refl hd, fun k hkm => ?_⟩
    rw [List.mem_singleton.mp hkm]
    exact has_of_houses hd ht hheld
  · split
    · exact follows_obtainAll hd useCache _
    · exact ⟨Follows.refl hd, fun h hh => by cases hh⟩

/-! ## Edits -/

/-- Ending the validity of tenants by a condition, under any value. -/
theorem follows_retireWhere {d : Document} (hd : d.Sound) (useCache : Bool) (value : Value)
    (p : Tenant Digest → Bool) :
    Follows useCache d ⟨value, d.settings, d.arena.retireWhere p⟩ where
  sound :=
    ⟨hd.arena.retireWhere p, Arena.Indexed.retireWhere hd.arena hd.indexed p,
      fun ht hk => hd.key (Arena.houses_retireWhere.mp ht).1 hk⟩
  settings := rfl
  leads := Arena.leads_retireWhere _ _
  held := fun n hn => by rwa [Arena.held_retireWhere]
  fresh := fun ht => Or.inl (Arena.houses_retireWhere.mp ht).1

theorem follows_value {d : Document} (hd : d.Sound) (useCache : Bool) (value : Value) :
    Follows useCache d { d with value := value } :=
  ⟨⟨hd.arena, hd.indexed, hd.key⟩, rfl, Arena.Leads.refl _, List.Subset.refl _, Or.inl⟩

theorem follows_invalidatePath {d : Document} (hd : d.Sound) (useCache : Bool) (path : Path) :
    Follows useCache d (d.invalidatePath path) :=
  follows_retireWhere hd useCache d.value _

theorem follows_cascadeBelow {d : Document} (hd : d.Sound) (useCache : Bool) (top : Path) :
    Follows useCache d (d.cascadeBelow top) := by
  unfold cascadeBelow
  split
  · exact follows_retireWhere hd useCache d.value _
  · exact Follows.refl hd

theorem follows_write? {d d' : Document} (hd : d.Sound) (useCache : Bool) {path : Path} {v : Value}
    (h : d.write? path v = some d') : Follows useCache d d' := by
  obtain ⟨changed, -, rfl⟩ := Option.map_eq_some_iff.mp h
  have hwritten := follows_value hd useCache changed
  have hended : Follows useCache d
      (if d.value.kindAt? path = some v.kind then { d with value := changed }
        else ({ d with value := changed } : Document).invalidatePath path) := by
    split
    · exact hwritten
    · exact hwritten.trans (follows_invalidatePath hwritten.sound useCache path)
  exact hended.trans (follows_cascadeBelow hended.sound useCache path)

theorem follows_remove? {d d' : Document} (hd : d.Sound) (useCache : Bool) {path : Path}
    {old : Value} (h : d.remove? path = some (old, d')) : Follows useCache d d' := by
  obtain ⟨⟨o, changed⟩, -, he⟩ := Option.map_eq_some_iff.mp h
  cases he
  have hwritten := follows_value hd useCache changed
  have hended := hwritten.trans (follows_invalidatePath hwritten.sound useCache path)
  exact hended.trans (follows_cascadeBelow hended.sound useCache path.dropLast)

/-- Ending the validity of one handle. -/
theorem follows_invalidate {d : Document} (hd : d.Sound) (useCache : Bool) (t : Ticket) :
    Follows useCache d { d with arena := (d.arena.retireTicket t).2 } := by
  unfold Arena.retireTicket
  split
  · exact
      ⟨⟨hd.arena.retire t.slot, Arena.Indexed.retire hd.arena.toTenancy hd.indexed t.slot,
          fun ht hk => hd.key (Arena.houses_of_retire ht) hk⟩,
        rfl, Arena.leads_retire _ _, fun n hn => by rwa [Arena.held_retire],
        fun ht => Or.inl (Arena.houses_of_retire ht)⟩
  · exact Follows.refl hd

/-! ## Letting go -/

theorem Sound.hold {d : Document} (hd : d.Sound) {held : List Nat} (h : held ⊆ d.arena.held) :
    Sound { d with arena := { d.arena with held := held } } :=
  ⟨hd.arena.hold h, Arena.Indexed.hold hd.indexed h, hd.key⟩

end Document

end LiveDocument
