import LiveDocument.Proofs.Document.Cache
import LiveDocument.Proofs.Document.Running
import LiveDocument.Proofs.Tree.Targets

/-!
# Handles that lead to what they were issued for

With cascading, and as long as paths come from queries whose slices come last, every tenant's path
leads to a value of the kind that its handle was issued for. An operation ends the validity of a
handle that somebody holds for three reasons only: it says so, it removes the entry at exactly the
handle's path, or the path no longer leads to a value of that kind.

* `Faithful`: every tenant's path leads to a value of its kind.
* `Exact`: which held tenants an operation leaves.
* `exact_resolve`, `exact_writes`, `exact_remove?`, `exact_invalidate`: every operation is exact.
* `Found`, `found_resolve`: what a lookup gives is valid, and was held before or is new.
-/

namespace LiveDocument

namespace Document

/-- Every tenant's path is parsed and leads to a value of the tenant's kind. -/
structure Faithful (d : Document) : Prop where
  cascade : d.settings.cascade = true
  sized : d.value.Sized
  parsed : ∀ {t : Tenant Digest}, d.arena.Houses t → t.path.IsParsed
  kind : ∀ {t : Tenant Digest}, d.arena.Houses t → d.value.kindAt? t.path = some t.kind

/-- The second document comes from the first by an operation that ends the validity of the handles
that satisfy a condition, and of those whose paths do not lead to a value of their kind any more. -/
structure Exact (ended : Handle → Prop) (d d' : Document) : Prop where
  faithful : d'.Faithful
  houses : ∀ {t : Tenant Digest}, d.arena.Houses t → d.arena.isHeld t.ticket.serial = true →
    (d'.arena.Houses t ↔ ¬ ended ⟨t.ticket, t.path⟩ ∧ d'.value.kindAt? t.path = some t.kind)

theorem faithful_ofValue {value : Value} (hv : value.Sized) {settings : Settings}
    (hc : settings.cascade = true) : (ofValue value settings).Faithful where
  cascade := hc
  sized := hv
  parsed := by
    rintro t ⟨slot, h⟩
    simp [ofValue, Arena.empty, Arena.tenant?] at h
  kind := by
    rintro t ⟨slot, h⟩
    simp [ofValue, Arena.empty, Arena.tenant?] at h

theorem Exact.refl {d : Document} (hf : d.Faithful) : Exact (fun _ => False) d d where
  faithful := hf
  houses := fun ht _ => ⟨fun _ => ⟨not_false, hf.kind ht⟩, fun _ => ht⟩

theorem Exact.congr {ended ended' : Handle → Prop} {d d' : Document} (h : Exact ended d d')
    (he : ∀ k, ended' k ↔ ended k) : Exact ended' d d' where
  faithful := h.faithful
  houses := by
    intro t ht hheld
    rw [he]
    exact h.houses ht hheld

/-! ## Lookups -/

section

variable {d : Document}

theorem houses_of_obtain (hd : d.Sound) {path : Path} {kind : Kind} {useCache : Bool}
    {t : Tenant Digest} (ht : (d.obtain path kind useCache).2.arena.Houses t) :
    d.arena.Houses t ∨ (t.path = path ∧ t.kind = kind) := by
  unfold obtain at ht
  split at ht
  · exact Or.inl ht
  · rcases Arena.houses_of_issue path kind _ useCache hd.arena ht with rfl | hold
    · exact Or.inr ⟨rfl, rfl⟩
    · exact Or.inl ((Arena.allocate_spec hd.arena).2.houses hold)

theorem Faithful.obtain (hf : d.Faithful) (hd : d.Sound) {path : Path} {kind : Kind}
    (hp : path.IsParsed) (hk : d.value.kindAt? path = some kind) (useCache : Bool) :
    (d.obtain path kind useCache).2.Faithful where
  cascade := by
    rw [(follows_obtain hd path kind useCache).1.settings]
    exact hf.cascade
  sized := by
    rw [value_obtain]
    exact hf.sized
  parsed := by
    intro t ht
    rcases houses_of_obtain hd ht with hold | ⟨rfl, -⟩
    · exact hf.parsed hold
    · exact hp
  kind := by
    intro t ht
    rw [value_obtain]
    rcases houses_of_obtain hd ht with hold | ⟨rfl, rfl⟩
    · exact hf.kind hold
    · exact hk

theorem Faithful.obtainAll (hf : d.Faithful) (hd : d.Sound) {targets : List Target}
    (hp : ∀ t ∈ targets, t.path.IsParsed ∧ d.value.kindAt? t.path = some t.kind)
    (useCache : Bool) : (d.obtainAll useCache targets).2.Faithful := by
  induction targets generalizing d with
  | nil => exact hf
  | cons target rest ih =>
    obtain ⟨hpath, hkind⟩ := hp target List.mem_cons_self
    refine ih (hf.obtain hd hpath hkind useCache)
      (follows_obtain hd target.path target.kind useCache).1.sound fun t ht => ?_
    obtain ⟨hrest, hrestKind⟩ := hp t (List.mem_cons_of_mem _ ht)
    refine ⟨hrest, ?_⟩
    rwa [← value_obtain d target.path target.kind useCache] at hrestKind

theorem Faithful.resolve (hf : d.Faithful) (hd : d.Sound) {a : Address} (ha : a.Plain)
    {context : Path} (hc : context.IsParsed) (useCache : Bool) :
    (d.resolve a context useCache).2.Faithful := by
  unfold Document.resolve
  dsimp only
  split
  · exact hf
  · split
    · rename_i targets hl
      exact hf.obtainAll hd (fun t ht =>
        ⟨Value.isParsed_of_mem_locate? ha hc hl ht,
          Value.kindAt?_of_mem_locate? hf.sized hl ht⟩) useCache
    · exact hf

/-- A lookup ends the validity of nothing that is held. -/
theorem exact_resolve (hf : d.Faithful) (hd : d.Sound) {a : Address} (ha : a.Plain)
    {context : Path} (hc : context.IsParsed) (useCache : Bool) :
    Exact (fun _ => False) d (d.resolve a context useCache).2 where
  faithful := hf.resolve hd ha hc useCache
  houses := by
    intro t ht hheld
    rw [value_resolve]
    exact ⟨fun _ => ⟨not_false, hf.kind ht⟩, fun _ => houses_resolve hd a context useCache ht hheld⟩

end

/-! ## Writes -/

/-- Writes of one value at paths one after the other, each of which succeeds. -/
inductive Writes (v : Value) : List Path → Document → Document → Prop where
  | nil (d : Document) : Writes v [] d d
  | cons {d d₁ d₂ : Document} {path : Path} {rest : List Path} (h : d.write? path v = some d₁)
      (hrest : Writes v rest d₁ d₂) : Writes v (path :: rest) d d₂

section

variable {d d' : Document} {path : Path} {v : Value}

@[simp] theorem value_cascadeBelow (d : Document) (top : Path) :
    (d.cascadeBelow top).value = d.value := by
  unfold cascadeBelow
  split <;> rfl

theorem value_write? (h : d.write? path v = some d') : d.value.write? v path = some d'.value := by
  obtain ⟨changed, hw, rfl⟩ := Option.map_eq_some_iff.mp h
  rw [hw, value_cascadeBelow]
  split <;> rfl

@[simp] theorem settings_cascadeBelow (d : Document) (top : Path) :
    (d.cascadeBelow top).settings = d.settings := by
  unfold cascadeBelow
  split <;> rfl

theorem settings_write? (h : d.write? path v = some d') : d'.settings = d.settings := by
  obtain ⟨changed, hw, rfl⟩ := Option.map_eq_some_iff.mp h
  rw [settings_cascadeBelow]
  split <;> rfl

theorem value_remove? {old : Value} (h : d.remove? path = some (old, d')) :
    d.value.remove? path = some (old, d'.value) := by
  obtain ⟨⟨o, changed⟩, hr, he⟩ := Option.map_eq_some_iff.mp h
  cases he
  rw [hr, value_cascadeBelow]
  rfl

theorem houses_cascadeBelow (hc : d.settings.cascade = true) {top : Path} {t : Tenant Digest} :
    (d.cascadeBelow top).arena.Houses t ↔ d.arena.Houses t ∧
      (leadsBelow d.value t.path top = false ∨ d.value.kindAt? t.path = some t.kind) := by
  unfold cascadeBelow
  rw [if_pos hc]
  unfold revalidateBelow
  rw [Arena.houses_retireWhere, Bool.and_eq_false_iff, decide_eq_false_iff_not, ne_eq,
    Classical.not_not]

theorem concrete_of_leadsBelow_eq_false {value : Value} {path top : Path}
    (h : leadsBelow value path top = false) : ¬ value.concrete top <+: value.concrete path := by
  intro hp
  have hpre := List.isPrefixOf_iff_prefix.mpr hp
  unfold leadsBelow at h
  rw [hpre, Bool.or_true] at h
  cases h

/-- Which tenants a write leaves: not those at its path if it changes the kind there, and not those
below whose paths do not lead to a value of their kind any more. -/
theorem houses_write_iff (hc : d.settings.cascade = true) (h : d.write? path v = some d')
    {t : Tenant Digest} :
    d'.arena.Houses t ↔ d.arena.Houses t ∧ (d.value.kindAt? path = some v.kind ∨ t.path ≠ path) ∧
      (leadsBelow d'.value t.path path = false ∨ d'.value.kindAt? t.path = some t.kind) := by
  obtain ⟨changed, hchanged, rfl⟩ := Option.map_eq_some_iff.mp h
  have hended : ∀ {e : Document}, e = (if d.value.kindAt? path = some v.kind
      then { d with value := changed }
      else ({ d with value := changed } : Document).invalidatePath path) →
      e.value = changed ∧ e.settings = d.settings ∧ (e.arena.Houses t ↔ d.arena.Houses t ∧
        (d.value.kindAt? path = some v.kind ∨ t.path ≠ path)) := by
    rintro e rfl
    split
    · rename_i hk
      exact ⟨rfl, rfl, fun ht => ⟨ht, Or.inl hk⟩, And.left⟩
    · rename_i hk
      refine ⟨rfl, rfl, ?_⟩
      unfold invalidatePath
      rw [Arena.houses_retireWhere, decide_eq_false_iff_not]
      exact ⟨fun ht => ⟨ht.1, Or.inr ht.2⟩, fun ht => ⟨ht.1, ht.2.resolve_left hk⟩⟩
  obtain ⟨hvalue, hset, hhouses⟩ := hended rfl
  rw [houses_cascadeBelow (by rw [hset]; exact hc), value_cascadeBelow, hvalue, hhouses, and_assoc]

/-- In a faithful document, a write leaves the tenants whose paths still lead to their kind. -/
theorem houses_write? (hf : d.Faithful) (hp : path.IsParsed) (h : d.write? path v = some d')
    {t : Tenant Digest} :
    d'.arena.Houses t ↔ d.arena.Houses t ∧ d'.value.kindAt? t.path = some t.kind := by
  have hchanged := value_write? h
  rw [houses_write_iff hf.cascade h]
  constructor
  · rintro ⟨ht, -, hbelow | hk⟩
    · refine ⟨ht, ?_⟩
      rw [Value.kindAt?_write_of_not_prefix hchanged hp (hf.parsed ht)
        (concrete_of_leadsBelow_eq_false hbelow), hf.kind ht]
    · exact ⟨ht, hk⟩
  · rintro ⟨ht, hk⟩
    refine ⟨ht, ?_, Or.inr hk⟩
    by_cases he : t.path = path
    · have hself : d'.value.kindAt? path = some v.kind := by
        rw [Value.kindAt?, Value.walk?_write_self hchanged]
        rfl
      have hold := hf.kind ht
      rw [he, hself] at hk
      rw [he, ← Option.some.inj hk] at hold
      exact Or.inl hold
    · exact Or.inr he

/-- Which tenants a removal leaves. -/
theorem houses_remove? (hf : d.Faithful) (hp : path.IsParsed) {old : Value}
    (h : d.remove? path = some (old, d')) {t : Tenant Digest} :
    d'.arena.Houses t ↔ d.arena.Houses t ∧ t.path ≠ path ∧
      d'.value.kindAt? t.path = some t.kind := by
  obtain ⟨⟨o, changed⟩, hchanged, he⟩ := Option.map_eq_some_iff.mp h
  cases he
  rw [houses_cascadeBelow
    (d := ({ d with value := changed } : Document).invalidatePath path) hf.cascade,
    value_cascadeBelow]
  unfold invalidatePath
  rw [Arena.houses_retireWhere, decide_eq_false_iff_not]
  constructor
  · rintro ⟨⟨ht, hne⟩, hbelow | hk⟩
    · refine ⟨ht, hne, ?_⟩
      show changed.kindAt? t.path = some t.kind
      rw [Value.kindAt?_remove_of_not_prefix hchanged hp (hf.parsed ht)
        (concrete_of_leadsBelow_eq_false hbelow), hf.kind ht]
    · exact ⟨ht, hne, hk⟩
  · rintro ⟨ht, hne, hk⟩
    exact ⟨⟨ht, hne⟩, Or.inr hk⟩

theorem Faithful.write? (hf : d.Faithful) (hd : d.Sound) (hp : path.IsParsed) (hv : v.Sized)
    (h : d.write? path v = some d') : d'.Faithful where
  cascade := by
    rw [(follows_write? hd true h).settings]
    exact hf.cascade
  sized := hf.sized.write? hv (value_write? h)
  parsed := fun ht => hf.parsed ((houses_write? hf hp h).mp ht).1
  kind := fun ht => ((houses_write? hf hp h).mp ht).2

theorem kindAt?_writes {paths : List Path} (h : Writes v paths d d') {n : Nat}
    (hn : ∀ p ∈ paths, p.length = n) {q : Path} (hq : ∀ s ∈ q, s.isSlice = false) :
    d'.value.kindAt? q = d.value.kindAt? q ∨ d'.value.kindAt? q = v.kindAt? (q.drop n) := by
  induction h with
  | nil d => exact Or.inl rfl
  | cons h hrest ih =>
    rcases ih fun p hp => hn p (List.mem_cons_of_mem _ hp) with hsame | hnew
    · rw [hsame, ← hn _ List.mem_cons_self]
      exact Value.kindAt?_write (value_write? h) hq
    · exact Or.inr hnew

/-- Paths at which a write succeeds have no slices. -/
theorem isSlice_of_writes {paths : List Path} (h : Writes v paths d d') {p : Path} (hp : p ∈ paths)
    {s : Segment} (hs : s ∈ p) : s.isSlice = false := by
  induction h with
  | nil d => cases hp
  | cons h hrest ih =>
    rcases List.mem_cons.mp hp with rfl | hp
    · exact Value.isSlice_of_write? (value_write? h) hs
    · exact ih hp

/-- Writes at paths of one length are exact: a kind that one of them changes is never changed
back. -/
theorem exact_writes (hf : d.Faithful) (hd : d.Sound) (hv : v.Sized) {paths : List Path} {n : Nat}
    (hp : ∀ p ∈ paths, p.IsParsed ∧ p.length = n) (h : Writes v paths d d') :
    Exact (fun _ => False) d d' := by
  induction h with
  | nil d => exact Exact.refl hf
  | @cons d d₁ d₂ path rest h hrest ih =>
    obtain ⟨hpath, hlen⟩ := hp path List.mem_cons_self
    have hrestPaths : ∀ p ∈ rest, p.IsParsed ∧ p.length = n :=
      fun p hm => hp p (List.mem_cons_of_mem _ hm)
    have hfollows := follows_write? hd true h
    obtain ⟨hfaithful, hhouses⟩ := ih (hf.write? hd hpath hv h) hfollows.sound hrestPaths
    refine ⟨hfaithful, fun {t} ht hheld => ⟨fun ht₂ => ⟨not_false, hfaithful.kind ht₂⟩, ?_⟩⟩
    rintro ⟨-, hk⟩
    have hslice : ∀ s ∈ t.path, s.isSlice = false := fun s hs => (hf.parsed ht s hs).isSlice
    have hmiddle : d₁.value.kindAt? t.path = some t.kind := by
      rcases Value.kindAt?_write (value_write? h) hslice with hsame | hnew
      · rw [hsame, hf.kind ht]
      · rw [hlen] at hnew
        rw [hnew, ← hk]
        rcases kindAt?_writes hrest (fun p hm => (hrestPaths p hm).2) hslice with hs | hn
        · rw [hs, hnew]
        · exact hn.symm
    have ht₁ := (houses_write? hf hpath h).mpr ⟨ht, hmiddle⟩
    exact (hhouses ht₁ (isHeld_of_follows hfollows hheld)).mpr ⟨not_false, hk⟩

theorem exact_remove? (hf : d.Faithful) (hd : d.Sound) (hp : path.IsParsed) {old : Value}
    (h : d.remove? path = some (old, d')) : Exact (fun k => k.path = path) d d' where
  faithful :=
    { cascade := by
        rw [(follows_remove? hd true h).settings]
        exact hf.cascade
      sized := hf.sized.remove? (value_remove? h)
      parsed := fun ht => hf.parsed ((houses_remove? hf hp h).mp ht).1
      kind := fun ht => ((houses_remove? hf hp h).mp ht).2.2 }
  houses := fun ht _ => ⟨fun ht' => ((houses_remove? hf hp h).mp ht').2,
    fun hk => (houses_remove? hf hp h).mpr ⟨ht, hk⟩⟩

end

/-! ## Ending the validity of one handle -/

section

variable {d : Document}

theorem exact_invalidate (hf : d.Faithful) (hd : d.Sound) {h : Handle} (hh : d.Has h) :
    Exact (fun k => k.ticket.serial = h.ticket.serial) d
      { d with arena := (d.arena.retireTicket h.ticket).2 } := by
  have hhouses := fun t => Arena.houses_retireTicket (u := t) hd.arena.toTenancy hh.known
  refine ⟨⟨hf.cascade, hf.sized, fun ht => hf.parsed ((hhouses _).mp ht).1,
    fun ht => hf.kind ((hhouses _).mp ht).1⟩, fun {t} ht _ => ?_⟩
  rw [hhouses]
  constructor
  · rintro ⟨-, hne⟩
    exact ⟨fun he => hne (hh.known.serial ht he), hf.kind ht⟩
  · rintro ⟨hne, -⟩
    exact ⟨ht, fun he => hne (by rw [he])⟩

/-! ## What lookups give -/

/-- The handle is valid and held after a lookup, and was held before it or is new. -/
structure Found (d d' : Document) (k : Handle) : Prop where
  has : d'.Has k
  valid : ∃ t, d'.arena.Houses t ∧ t.ticket = k.ticket
  origin : d.arena.isHeld k.ticket.serial = true ∨ d.arena.issued ≤ k.ticket.serial

theorem found_obtain (hd : d.Sound) (path : Path) (kind : Kind) (useCache : Bool) :
    Found d (d.obtain path kind useCache).2 (d.obtain path kind useCache).1 := by
  have hhas := (follows_obtain hd path kind useCache).2
  unfold obtain at hhas ⊢
  split
  · rename_i h hc
    have hcached : d.cached? (keyOf path d.delimiter) = some h := by
      cases useCache with
      | true => exact hc
      | false => cases hc
    rw [hc] at hhas
    obtain ⟨t, ht, -, hheld, rfl⟩ := cached?_eq_some hd hcached
    exact ⟨hhas, ⟨t, ht, rfl⟩, Or.inl hheld⟩
  · rename_i hc
    rw [hc] at hhas
    refine ⟨hhas, ⟨_, Arena.houses_issue_self path kind _ useCache hd.arena, rfl⟩, Or.inr ?_⟩
    exact Nat.le_of_eq (Arena.allocate_spec hd.arena).2.issued.symm

theorem held_obtain (hd : d.Sound) {path : Path} {kind : Kind} {useCache : Bool} {k : Nat}
    (h : (d.obtain path kind useCache).2.arena.isHeld k = true) :
    d.arena.isHeld k = true ∨ d.arena.issued ≤ k := by
  unfold obtain at h
  split at h
  · exact Or.inl h
  · have hm : k ∈ d.arena.allocate.2.issued :: d.arena.allocate.2.held := List.contains_iff_mem.mp h
    have hkeeps := (Arena.allocate_spec hd.arena).2
    rw [hkeeps.held, hkeeps.issued] at hm
    rcases List.mem_cons.mp hm with rfl | hm
    · exact Or.inr (Nat.le_refl _)
    · exact Or.inl (List.contains_iff_mem.mpr hm)

theorem found_obtainAll (hd : d.Sound) (useCache : Bool) (targets : List Target) :
    ∀ k ∈ (d.obtainAll useCache targets).1, Found d (d.obtainAll useCache targets).2 k := by
  induction targets generalizing d with
  | nil =>
    intro k hk
    cases hk
  | cons target rest ih =>
    intro k hk
    have hfirst := found_obtain hd target.path target.kind useCache
    have hf := (follows_obtain hd target.path target.kind useCache).1
    have hrest := (follows_obtainAll hf.sound useCache rest).1
    rcases List.mem_cons.mp hk with rfl | hk
    · obtain ⟨t, ht, he⟩ := hfirst.valid
      refine ⟨hfirst.has.of_follows hrest, ⟨t, ?_, he⟩, hfirst.origin⟩
      exact houses_obtainAll hf.sound useCache rest ht
        (he ▸ List.contains_iff_mem.mpr hfirst.has.held)
    · obtain ⟨hhas, hvalid, horigin⟩ := ih hf.sound k hk
      refine ⟨hhas, hvalid, ?_⟩
      rcases horigin with hheld | hnew
      · exact held_obtain hd hheld
      · exact Or.inr (Nat.le_trans hf.leads.issued_le hnew)

theorem found_resolve (hd : d.Sound) (a : Address) (context : Path) (useCache : Bool) :
    ∀ k ∈ (d.resolve a context useCache).1, Found d (d.resolve a context useCache).2 k := by
  intro k hk
  unfold resolve at hk ⊢
  dsimp only at hk ⊢
  split at hk
  · rename_i h hknown
    obtain ⟨t, ht, -, hheld, rfl⟩ := cached?_eq_some hd (known_eq_some hknown).2.2
    rw [List.mem_singleton.mp hk]
    exact ⟨has_of_houses hd ht hheld, ⟨t, ht, rfl⟩, Or.inl hheld⟩
  · split at hk
    · rename_i targets hl
      exact found_obtainAll hd useCache targets k hk
    · cases hk

end

end Document

end LiveDocument
