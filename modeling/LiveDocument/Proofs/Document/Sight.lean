import LiveDocument.Proofs.Address.Canonical
import LiveDocument.Proofs.Document.Faithful

/-!
# What is seen of handles

Of a handle that is not told from others, its path and its validity are seen. With canonical paths,
and no two asked texts with one digest, a lookup through the cache is seen to give what a walk
through the value gives, and so is a lookup without the cache.

* `Sight`: what is seen of a handle.
* `Exact.isValid_iff`: whether a handle is seen to stay valid depends on the values alone.
* `Spelled`: the tenants' paths are canonical, and their texts have been asked for.
* `sights_resolve`: a lookup is seen to give the located places, each with a valid handle.
-/

namespace LiveDocument

/-- What is seen of a handle: its path, and whether it is valid. -/
structure Sight where
  path : Path
  valid : Bool

namespace Document

/-- What is seen of a handle. -/
def sight (d : Document) (h : Handle) : Sight :=
  ⟨h.path, d.isValid h⟩

/-- A handle stays valid if the operation does not end it and its path leads to the old kind. -/
theorem Exact.isValid_iff {ended : Handle → Prop} {d d' : Document} (he : Exact ended d d')
    (hf : d.Faithful) (hd : d.Sound) (hd' : d'.Sound) (hleads : d.arena.Leads d'.arena)
    {h : Handle} (hh : d.Has h) :
    d'.isValid h = true ↔ d.isValid h = true ∧ ¬ ended h ∧
      d'.value.kindAt? h.path = d.value.kindAt? h.path := by
  have hheld : ∀ {t : Tenant Digest}, t.ticket = h.ticket →
      d.arena.isHeld t.ticket.serial = true := by
    intro t hticket
    rw [hticket]
    exact List.contains_iff_mem.mpr hh.held
  have hself : ∀ {t : Tenant Digest}, d.arena.Houses t → t.ticket = h.ticket →
      (⟨t.ticket, t.path⟩ : Handle) = h := by
    intro t ht hticket
    rw [hticket, hh.path ht hticket]
  have hvalid' : d'.isValid h = true ↔ ∃ t, d'.arena.Houses t ∧ t.ticket = h.ticket :=
    (hh.known.of_leads hleads).isLive_iff hd'.arena.toTenancy
  rw [hvalid', hh.isValid_iff hd]
  constructor
  · rintro ⟨t, ht', hticket⟩
    have hlt := hh.known.serial_lt
    rw [← hticket] at hlt
    have ht := (hleads.houses ht').resolve_right (Nat.not_le.mpr hlt)
    obtain ⟨hnot, hkind⟩ := (he.houses ht (hheld hticket)).mp ht'
    rw [hself ht hticket] at hnot
    refine ⟨⟨t, ht, hticket⟩, hnot, ?_⟩
    rw [← hh.path ht hticket, hkind, hf.kind ht]
  · rintro ⟨⟨t, ht, hticket⟩, hnot, hkind⟩
    refine ⟨t, (he.houses ht (hheld hticket)).mpr ⟨?_, ?_⟩, hticket⟩
    · rw [hself ht hticket]
      exact hnot
    · rw [hh.path ht hticket, hkind, ← hh.path ht hticket, hf.kind ht]

/-- Tenants have canonical paths, and the texts of those in the cache satisfy a condition. -/
structure Spelled (c : Char) (T : String → Prop) (d : Document) : Prop where
  delimiter : d.delimiter.toList = [c]
  canonical : ∀ {t : Tenant Digest}, d.arena.Houses t → Path.Canonical c t.path
  text : ∀ {t : Tenant Digest}, d.arena.Houses t → t.key.isSome = true →
    T (t.path.text d.delimiter)

section

variable {d d' : Document} {c : Char} {T : String → Prop}

theorem spelled_ofValue (value : Value) {settings : Settings}
    (hd : settings.delimiter.toList = [c]) : (ofValue value settings).Spelled c T where
  delimiter := hd
  canonical := by
    rintro t ⟨slot, h⟩
    simp [ofValue, Arena.empty, Arena.tenant?] at h
  text := by
    rintro t ⟨slot, h⟩
    simp [ofValue, Arena.empty, Arena.tenant?] at h

/-- Operations that bring no tenant keep the spelling. -/
theorem Spelled.of_houses (hs : d.Spelled c T) (hdelimiter : d'.delimiter = d.delimiter)
    (h : ∀ {t : Tenant Digest}, d'.arena.Houses t → d.arena.Houses t) : d'.Spelled c T where
  delimiter := by
    rw [hdelimiter]
    exact hs.delimiter
  canonical := fun ht => hs.canonical (h ht)
  text := by
    intro t ht hkey
    rw [hdelimiter]
    exact hs.text (h ht) hkey

/-! ## Lookups -/

section

variable (hinj : ∀ {x y : String}, T x → T y → Digest.ofText x = Digest.ofText y → x = y)

include hinj

/-- The handle that the cache has for the text of a path has this path. -/
theorem path_of_cached? (hf : d.Faithful) (hd : d.Sound) (hs : d.Spelled c T) {path : Path}
    (hp : path.IsParsed) (hcanonical : Path.Canonical c path) (hT : T (path.text d.delimiter))
    {h : Handle} (hc : d.cached? (keyOf path d.delimiter) = some h) :
    ∃ t, d.arena.Houses t ∧ h = ⟨t.ticket, path⟩ ∧ t.path = path := by
  obtain ⟨t, ht, hkey, -, rfl⟩ := cached?_eq_some hd hc
  have htext := hinj hT (hs.text ht (by rw [hkey]; rfl)) (hd.key ht hkey)
  have hpath := (hs.canonical ht).text_inj hcanonical (hf.parsed ht) hp hs.delimiter htext.symm
  exact ⟨t, ht, by rw [hpath], hpath⟩

theorem path_obtain (hf : d.Faithful) (hd : d.Sound) (hs : d.Spelled c T) {path : Path}
    (hp : path.IsParsed) (hcanonical : Path.Canonical c path) (hT : T (path.text d.delimiter))
    (kind : Kind) (useCache : Bool) : (d.obtain path kind useCache).1.path = path := by
  unfold obtain
  split
  · rename_i h hc
    cases useCache with
    | false => cases hc
    | true =>
      obtain ⟨t, -, rfl, -⟩ := path_of_cached? hinj hf hd hs hp hcanonical hT hc
      rfl
  · rfl

end

theorem Spelled.obtain (hd : d.Sound) (hs : d.Spelled c T) {path : Path}
    (hcanonical : Path.Canonical c path) (hT : T (path.text d.delimiter)) (kind : Kind)
    (useCache : Bool) : (d.obtain path kind useCache).2.Spelled c T := by
  have hdelimiter := (follows_obtain hd path kind useCache).1.delimiter
  refine ⟨by rw [hdelimiter]; exact hs.delimiter, fun {t} ht => ?_, fun {t} ht hkey => ?_⟩
  · rcases houses_of_obtain hd ht with hold | ⟨hpath, -⟩
    · exact hs.canonical hold
    · rw [hpath]
      exact hcanonical
  · rw [hdelimiter]
    rcases houses_of_obtain hd ht with hold | ⟨hpath, -⟩
    · exact hs.text hold hkey
    · rw [hpath]
      exact hT

/-- What a lookup needs of the places that it finds. -/
structure Findable (c : Char) (T : String → Prop) (d : Document) (t : Target) : Prop where
  parsed : t.path.IsParsed
  canonical : Path.Canonical c t.path
  kind : d.value.kindAt? t.path = some t.kind
  text : T (t.path.text d.delimiter)

theorem paths_obtainAll
    (hinj : ∀ {x y : String}, T x → T y → Digest.ofText x = Digest.ofText y → x = y)
    (hf : d.Faithful) (hd : d.Sound) (hs : d.Spelled c T) (useCache : Bool) {targets : List Target}
    (ht : ∀ t ∈ targets, Findable c T d t) :
    (d.obtainAll useCache targets).1.map Handle.path = targets.map Target.path ∧
      (d.obtainAll useCache targets).2.Spelled c T := by
  induction targets generalizing d with
  | nil => exact ⟨rfl, hs⟩
  | cons target rest ih =>
    obtain ⟨hparsed, hcanonical, hkind, hT⟩ := ht target List.mem_cons_self
    have hfollows := (follows_obtain hd target.path target.kind useCache).1
    obtain ⟨hpaths, hspelled⟩ := ih (hf.obtain hd hparsed hkind useCache) hfollows.sound
      (hs.obtain hd hcanonical hT target.kind useCache) (fun t hm => by
        obtain ⟨hparsed', hcanonical', hkind', hT'⟩ := ht t (List.mem_cons_of_mem _ hm)
        refine ⟨hparsed', hcanonical', ?_, ?_⟩
        · rw [value_obtain]
          exact hkind'
        · rw [hfollows.delimiter]
          exact hT')
    have hfirst := path_obtain hinj hf hd hs hparsed hcanonical hT target.kind useCache
    exact ⟨congr (congrArg List.cons hfirst) hpaths, hspelled⟩

/-- An address and a context as queries make them; what they ask for satisfies the condition. -/
structure Asks (c : Char) (T : String → Prop) (d : Document) (a : Address) (context : Path) :
    Prop where
  plain : a.Plain
  canonical : a.Canonical c
  delimiter : a.delimiter = d.delimiter
  parsed : context.IsParsed
  place : Path.Canonical c context
  text : ∀ x ∈ d.asked a context, T x

theorem mem_asked {a : Address} {context : Path} {targets : List Target}
    (hl : d.value.locate? a context = some targets) {t : Target} (ht : t ∈ targets) :
    t.path.text a.delimiter ∈ d.asked a context := by
  unfold asked
  rcases Value.of_mem_locate? hl ht with ⟨hs, hp, -⟩ | ⟨hs, -⟩
  · rw [hs, if_neg Bool.false_ne_true, hp]
    exact List.mem_singleton.mpr rfl
  · rw [hs, if_pos rfl, hl]
    exact List.mem_map.mpr ⟨t, ht, rfl⟩

theorem findable_of_mem_locate? (hdigit : c.isDigit = false) (hminus : c ≠ '-') (hf : d.Faithful)
    {a : Address} {context : Path} (hasks : Asks c T d a context) {targets : List Target}
    (hl : d.value.locate? a context = some targets) {t : Target} (ht : t ∈ targets) :
    Findable c T d t where
  parsed := Value.isParsed_of_mem_locate? hasks.plain hasks.parsed hl ht
  canonical := hasks.canonical.of_mem_locate? hdigit hminus hasks.plain hasks.parsed
    hasks.place hl ht
  kind := Value.kindAt?_of_mem_locate? hf.sized hl ht
  text := by
    rw [← hasks.delimiter]
    exact hasks.text _ (mem_asked hl ht)

/-- A lookup gives the located places in their order, and keeps the spelling. -/
theorem paths_resolve (hdigit : c.isDigit = false) (hminus : c ≠ '-')
    (hinj : ∀ {x y : String}, T x → T y → Digest.ofText x = Digest.ofText y → x = y)
    (hf : d.Faithful) (hd : d.Sound) (hs : d.Spelled c T) {a : Address} {context : Path}
    (hasks : Asks c T d a context) (useCache : Bool) :
    (d.resolve a context useCache).1.map Handle.path =
        ((d.value.locate? a context).getD []).map Target.path ∧
      (d.resolve a context useCache).2.Spelled c T := by
  unfold resolve
  dsimp only
  split
  · rename_i h hknown
    obtain ⟨-, hslice, hc⟩ := known_eq_some hknown
    rw [hasks.delimiter] at hc
    have hT : T ((a.fullPath context).text d.delimiter) := by
      rw [← hasks.delimiter]
      refine hasks.text _ ?_
      rw [asked, hslice, if_neg Bool.false_ne_true]
      exact List.mem_singleton.mpr rfl
    obtain ⟨t, ht, rfl, hpath⟩ := path_of_cached? hinj hf hd hs
      (hasks.plain.isParsed hasks.parsed hslice)
      (hasks.canonical.fullPath hasks.plain hasks.parsed hasks.place hslice) hT hc
    -- A valid handle leads somewhere, so a walk would have found the place as well.
    have hkind := hf.kind ht
    rw [hpath] at hkind
    refine ⟨?_, hs⟩
    rw [Value.locate?_of_not_slice hslice, hkind]
    rfl
  · split
    · rename_i targets hl
      rw [hl]
      exact paths_obtainAll hinj hf hd hs useCache fun t ht =>
        findable_of_mem_locate? hdigit hminus hf hasks hl ht
    · rename_i hl
      rw [hl]
      exact ⟨rfl, hs⟩

/-- Valid handles are seen as their paths. -/
theorem map_sight {hs : List Handle} (h : ∀ k ∈ hs, d.isValid k = true) :
    hs.map d.sight = (hs.map Handle.path).map fun path => ⟨path, true⟩ := by
  rw [List.map_map]
  refine List.map_congr_left fun k hk => ?_
  rw [sight, h k hk]
  rfl

/-- A lookup is seen to give the located places, each with a valid handle. -/
theorem sights_resolve (hdigit : c.isDigit = false) (hminus : c ≠ '-')
    (hinj : ∀ {x y : String}, T x → T y → Digest.ofText x = Digest.ofText y → x = y)
    (hf : d.Faithful) (hd : d.Sound) (hs : d.Spelled c T) {a : Address} {context : Path}
    (hasks : Asks c T d a context) (useCache : Bool) :
    (d.resolve a context useCache).1.map (d.resolve a context useCache).2.sight =
      ((d.value.locate? a context).getD []).map fun t => ⟨t.path, true⟩ := by
  rw [map_sight, (paths_resolve hdigit hminus hinj hf hd hs hasks useCache).1, List.map_map]
  · rfl
  · intro k hk
    obtain ⟨hhas, hvalid, -⟩ := found_resolve hd a context useCache k hk
    exact (hhas.isValid_iff (follows_resolve hd a context useCache).1.sound).mpr hvalid

end

end Document

end LiveDocument
