import LiveDocument.Proofs.Address.Decoding
import LiveDocument.Proofs.Document.Faithful

/-!
# Lookups in a document whose handles resolve

When every held handle leads to a value, along a path that is read back from its canonical text, and
no two texts that are asked for have one digest, the cache never answers with a handle for another
path: two paths with one digest have one text, and from that both are read back. A lookup then gives
valid handles for exactly the paths that the address names.

* `Apart`: no two texts have one digest. `Resolves`: a path that leads to a value and is read back.
* `Settled`: all held handles resolve. `Settled.obtain`, `Settled.obtainAll`: lookups keep this.
* `Settled.resolve_eq`, `Settled.resolve_slice`: what an address finds.
* `Returned`: a document after lookups whose handles were let go of.
-/

namespace LiveDocument

namespace Document

/-- No two of the texts have one digest. -/
def Apart (T : String → Prop) : Prop :=
  ∀ x y, T x → T y → Digest.ofText x = Digest.ofText y → x = y

/-- The path is read back from its text, which is one of the given ones, and leads to a value. -/
structure Resolves (T : String → Prop) (d : Document) (path : Path) : Prop where
  readsBack : path.ReadsBack d.delimiter
  text : T (path.text d.delimiter)
  value : ∃ v, d.value.walk? path = some v

/-- The paths of all held handles resolve. -/
structure Settled (T : String → Prop) (d : Document) : Prop where
  sound : d.Sound
  resolves : ∀ {t : Tenant Digest}, d.arena.Houses t → d.arena.isHeld t.ticket.serial = true →
    Resolves T d t.path

/-- The second document is the first one after lookups whose handles were let go of. -/
structure Returned (d d' : Document) : Prop where
  follows : Follows d.settings.useCache d d'
  value : d'.value = d.value
  held : d'.arena.held = d.arena.held
  spared : ∀ {t : Tenant Digest}, d.arena.Houses t → d.arena.isHeld t.ticket.serial = true →
    d'.arena.Houses t

section

variable {T : String → Prop} {d d' : Document} {path : Path}

theorem settled_of_held_nil (hd : d.Sound) (hheld : d.arena.held = []) : Settled T d where
  sound := hd
  resolves := by
    intro t _ ht
    rw [Arena.isHeld, hheld] at ht
    cases ht

theorem Resolves.congr (h : Resolves T d path) (hvalue : d'.value = d.value)
    (hsettings : d'.settings = d.settings) : Resolves T d' path := by
  have hdelimiter : d'.delimiter = d.delimiter := congrArg Settings.delimiter hsettings
  obtain ⟨hback, htext, hv⟩ := h
  refine ⟨?_, ?_, ?_⟩
  · rwa [hdelimiter]
  · rwa [hdelimiter]
  · rwa [hvalue]

theorem Returned.refl (hd : d.Sound) : Returned d d :=
  ⟨Follows.refl hd, rfl, rfl, fun ht _ => ht⟩

theorem Returned.trans {d'' : Document} (h : Returned d d') (k : Returned d' d'') :
    Returned d d'' where
  follows := by
    have hk := k.follows
    rw [h.follows.settings] at hk
    exact h.follows.trans hk
  value := k.value.trans h.value
  held := k.held.trans h.held
  spared := by
    intro t ht hheld
    refine k.spared (h.spared ht hheld) ?_
    rwa [Arena.isHeld, h.held]

/-- A held handle of a document that was returned was held before. -/
theorem Returned.houses (h : Returned d d') (hd : d.Sound) {t : Tenant Digest}
    (ht : d'.arena.Houses t) (hheld : d'.arena.isHeld t.ticket.serial = true) :
    d.arena.Houses t ∧ d.arena.isHeld t.ticket.serial = true := by
  rw [Arena.isHeld, h.held] at hheld
  rcases h.follows.leads.houses ht with hold | hnew
  · exact ⟨hold, hheld⟩
  · have hlt := hd.arena.held_lt (List.contains_iff_mem.mp hheld)
    omega

theorem Settled.of_returned (hs : Settled T d) (h : Returned d d') : Settled T d' where
  sound := h.follows.sound
  resolves := by
    intro t ht hheld
    obtain ⟨hold, hheldOld⟩ := h.houses hs.sound ht hheld
    exact (hs.resolves hold hheldOld).congr h.value h.follows.settings

/-- A held handle that is valid stays so. -/
theorem Returned.isValid (h : Returned d d') (hd : d.Sound) {k : Handle} (hk : d.Has k)
    (hvalid : d.isValid k = true) : d'.isValid k = true := by
  obtain ⟨t, ht, he⟩ := (hk.isValid_iff hd).mp hvalid
  refine ((hk.of_follows h.follows).isValid_iff h.follows.sound).mpr ⟨t, ?_, he⟩
  exact h.spared ht (he ▸ List.contains_iff_mem.mpr hk.held)

/-! ## Lookups -/

/-- What the cache finds for a path that is read back has this path. -/
theorem Settled.cached?_eq_some (hs : Settled T d) (hT : Apart T)
    (hback : path.ReadsBack d.delimiter) (htext : T (path.text d.delimiter)) {h : Handle}
    (hc : d.cached? (keyOf path d.delimiter) = some h) :
    h.path = path ∧ d.Has h ∧ d.isValid h = true ∧ Resolves T d path := by
  obtain ⟨t, ht, hkey, hheld, rfl⟩ := Document.cached?_eq_some hs.sound hc
  have hresolves := hs.resolves ht hheld
  have hdigest : keyOf path d.delimiter = keyOf t.path d.delimiter := hs.sound.key ht hkey
  have htexts := hT _ _ htext hresolves.text hdigest
  obtain rfl : path = t.path := hback.inj hresolves.readsBack htexts
  have hhas := has_of_houses hs.sound ht hheld
  exact ⟨rfl, hhas, (hhas.isValid_iff hs.sound).mpr ⟨t, ht, rfl⟩, hresolves⟩

/-- Looking up a path that resolves gives a valid handle with this path. -/
theorem Settled.obtain (hs : Settled T d) (hp : Resolves T d path) (kind : Kind)
    {useCache : Bool} (hT : useCache = true → Apart T) :
    Settled T (d.obtain path kind useCache).2 ∧ (d.obtain path kind useCache).1.path = path ∧
      (d.obtain path kind useCache).2.isValid (d.obtain path kind useCache).1 = true := by
  have hfollows := (follows_obtain hs.sound path kind useCache).1
  have hfound := found_obtain hs.sound path kind useCache
  refine ⟨⟨hfollows.sound, fun {t} ht hheld => ?_⟩, ?_,
    (hfound.has.isValid_iff hfollows.sound).mpr hfound.valid⟩
  · have hresolves : Resolves T d t.path := by
      rcases houses_of_obtain hs.sound ht with hold | ⟨rfl, -⟩
      · rcases held_obtain hs.sound hheld with hheldOld | hnew
        · exact hs.resolves hold hheldOld
        · have hlt := hs.sound.arena.toTenancy.serial_lt hold
          omega
      · exact hp
    exact hresolves.congr (value_obtain d path kind useCache) hfollows.settings
  · unfold Document.obtain
    cases hc : (if useCache then d.cached? (keyOf path d.delimiter) else none) with
    | none => rfl
    | some h =>
      cases useCache with
      | false => cases hc
      | true => exact (hs.cached?_eq_some (hT rfl) hp.readsBack hp.text hc).1

variable {a : Address} {useCache : Bool}

/-- An address without a slice at its end that leads to a value is looked up as its path is, and one
that leads nowhere finds nothing. -/
theorem Settled.resolve_eq (hs : Settled T d) (ha : a.endsWithSlice = false)
    (hdelimiter : a.delimiter = d.delimiter) (hT : useCache = true → Apart T)
    (hback : (a.fullPath []).ReadsBack d.delimiter) (htext : T (a.canonical [])) :
    d.resolve a [] useCache =
      match d.value.walk? (a.fullPath []) with
      | some v => ([(d.obtain (a.fullPath []) v.kind useCache).1],
          (d.obtain (a.fullPath []) v.kind useCache).2)
      | none => ([], d) := by
  rw [Address.canonical, hdelimiter] at htext
  have hlocate := Value.locate?_of_not_slice ha d.value []
  rw [Value.kindAt?] at hlocate
  unfold Document.resolve
  rw [ha, Bool.not_false, Bool.and_true, hdelimiter]
  cases hc : (if useCache then d.cached? (keyOf (a.fullPath []) d.delimiter) else none) with
  | some h =>
    have hu : useCache = true := by
      cases useCache with
      | true => rfl
      | false => cases hc
    subst hu
    obtain ⟨v, hv⟩ := (hs.cached?_eq_some (hT rfl) hback htext hc).2.2.2.value
    rw [hv]
    unfold Document.obtain
    rw [hc]
  | none =>
    cases hv : d.value.walk? (a.fullPath []) with
    | none =>
      rw [hv] at hlocate
      simp only [hlocate, Option.map_none]
    | some v =>
      rw [hv] at hlocate
      simp only [hlocate, Option.map_some]
      rfl

/-- Looking places up that resolve gives valid handles with their paths. -/
theorem Settled.obtainAll (hs : Settled T d) {targets : List Target}
    (htargets : ∀ t ∈ targets, Resolves T d t.path) (hT : useCache = true → Apart T) :
    Settled T (d.obtainAll useCache targets).2 ∧
      (d.obtainAll useCache targets).1.map Handle.path = targets.map Target.path := by
  induction targets generalizing d with
  | nil => exact ⟨hs, rfl⟩
  | cons t rest ih =>
    obtain ⟨hfirst, hpath, -⟩ := hs.obtain (htargets t List.mem_cons_self) t.kind hT
    have hsettings := (follows_obtain hs.sound t.path t.kind useCache).1.settings
    have hvalue := value_obtain d t.path t.kind useCache
    obtain ⟨hrest, hpaths⟩ := ih hfirst fun u hu =>
      (htargets u (List.mem_cons_of_mem _ hu)).congr hvalue hsettings
    exact ⟨hrest, congr (congrArg List.cons hpath) hpaths⟩

/-- An address with a slice at its end finds the places that it names. -/
theorem resolve_of_endsWithSlice (d : Document) (ha : a.endsWithSlice = true) (context : Path)
    (useCache : Bool) : d.resolve a context useCache =
      d.obtainAll useCache ((d.value.locate? a context).getD []) := by
  unfold Document.resolve
  rw [ha, Bool.not_true, Bool.and_false]
  cases d.value.locate? a context <;> rfl

/-- An address whose places resolve finds valid handles with exactly their paths. -/
theorem Settled.resolve (hs : Settled T d) (hdelimiter : a.delimiter = d.delimiter)
    (hT : useCache = true → Apart T)
    (htargets : ∀ t ∈ (d.value.locate? a []).getD [], Resolves T d t.path)
    (hwhole : a.endsWithSlice = false →
      (a.fullPath []).ReadsBack d.delimiter ∧ T (a.canonical [])) :
    Settled T (d.resolve a [] useCache).2 ∧
      (d.resolve a [] useCache).1.map Handle.path =
        ((d.value.locate? a []).getD []).map Target.path := by
  cases ha : a.endsWithSlice with
  | true =>
    rw [resolve_of_endsWithSlice d ha]
    exact hs.obtainAll htargets hT
  | false =>
    obtain ⟨hback, htext⟩ := hwhole ha
    have hlocate := Value.locate?_of_not_slice ha d.value []
    rw [hs.resolve_eq ha hdelimiter hT hback htext]
    cases hv : d.value.walk? (a.fullPath []) with
    | none =>
      rw [Value.kindAt?, hv] at hlocate
      rw [hlocate]
      exact ⟨hs, rfl⟩
    | some v =>
      rw [Value.kindAt?, hv] at hlocate
      rw [hlocate] at htargets ⊢
      obtain ⟨hsettled, hpath, -⟩ := hs.obtain (htargets _ List.mem_cons_self) v.kind hT
      exact ⟨hsettled, congrArg (fun path => [path]) hpath⟩

end

end Document

end LiveDocument
