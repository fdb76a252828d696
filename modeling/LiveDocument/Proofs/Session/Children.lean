import LiveDocument.Proofs.Session.Contents
import LiveDocument.Proofs.Session.Lookups

/-!
# The children of a container

A view gives one handle for each entry of a mapping or element of a sequence, in their order. They
are looked up through the cache, where a path is known by the digest of its canonical text. A handle
that is held already stands in for every child with its key, whatever its own path leads to, and
only then a child reads something else than its entry.

* `Value.members`: the entries or elements of a container, each under its segment.
* `Document.Serves`: the handle that is answered for a path.
* `resolve_eq_obtain`, `runOn_childrenAt`: the children are obtained one after the other.
* `Serves.walk?_eq_some_iff`: when a handle that serves leads to what its place has.
  `exists_rawValue_obtainAll`: when handles that are obtained one after the other read it.
* `children_read_entries_iff`: the children in every state that a session reaches.
-/

namespace LiveDocument

namespace Value

/-- The entries of a mapping or the elements of a sequence in their order, each under the segment
that leads to it. -/
def members : Value → List (Segment × Value)
  | .sequence items => items.zipIdx.map fun (item, p) => (.index (Int64.ofInt p), item)
  | .mapping entries => entries.map fun (key, value) => (.key key, value)
  | _ => []

theorem segments_eq_members {v : Value} (hv : v.kind.isContainer = true) :
    View.segments v = some (v.members.map Prod.fst) := by
  cases v with
  | sequence items =>
    have hnames : (items.zipIdx.map fun (item, p) => ((.index (Int64.ofInt p) : Segment), item)).map
        Prod.fst = (items.zipIdx.map Prod.snd).map fun p : Nat => .index (Int64.ofInt p) := by
      rw [List.map_map, List.map_map]
      rfl
    rw [members, hnames, List.zipIdx_map_snd, ← List.range_eq_range']
    rfl
  | mapping entries =>
    have hnames : (entries.map fun (key, value) => ((.key key : Segment), value)).map Prod.fst =
        (entries.map Prod.fst).map .key := by
      rw [List.map_map, List.map_map]
      rfl
    rw [members, hnames]
    rfl
  | _ => cases hv

/-- Every segment leads to its own entry if no key comes twice and places fit into a word. -/
theorem step?_of_mem_members {v : Value} (hv : v.Distinct)
    (hlength : v.members.length < 9223372036854775808) {m : Segment × Value}
    (hm : m ∈ v.members) : m.1.isSlice = false ∧ v.step? m.1 = some m.2 := by
  cases v with
  | sequence items =>
    obtain ⟨⟨item, p⟩, hitem, rfl⟩ := List.mem_map.mp hm
    rw [members, List.length_map, List.length_zipIdx] at hlength
    have hp : items[p]? = some item := List.mem_zipIdx_iff_getElem?.mp hitem
    have hlt : p < items.length := (List.getElem?_eq_some_iff.mp hp).1
    refine ⟨rfl, ?_⟩
    simp only [step?, Position.within?_ofInt hlt hlength, Option.bind_some, hp]
  | mapping entries =>
    obtain ⟨e, he, rfl⟩ := List.mem_map.mp hm
    exact ⟨rfl, Entries.get?_of_mem hv.self he⟩
  | _ => cases hm

end Value

namespace Document

/-! ## What the cache knows -/

section

variable {d : Document}

theorem cached?_eq_some_iff (hd : d.Sound) {key : Digest} {k : Handle} :
    d.cached? key = some k ↔ d.Caches k ∧ keyOf k.path d.delimiter = key := by
  constructor
  · intro hc
    obtain ⟨t, ht, hkey, hheld, rfl⟩ := cached?_eq_some hd hc
    exact ⟨⟨hheld, t, ht, rfl, rfl, by rw [hkey]; rfl⟩, (hd.key ht hkey).symm⟩
  · rintro ⟨hk, rfl⟩
    exact hk.cached?_eq hd

/-- What is in the cache after a handle has been obtained was there before or has its path. -/
theorem Caches.of_obtain (hd : d.Sound) {path : Path} {kind : Kind} {useCache : Bool} {k : Handle}
    (hk : (d.obtain path kind useCache).2.Caches k) : d.Caches k ∨ k.path = path := by
  obtain ⟨t, ht, hticket, hpath, hkey⟩ := hk.tenant
  rcases houses_of_obtain hd ht with hold | ⟨hnew, -⟩
  · refine Or.inl ⟨?_, t, hold, hticket, hpath, hkey⟩
    rcases held_obtain hd hk.held with hheld | hissued
    · exact hheld
    · obtain ⟨slot, htenant⟩ := hold
      obtain ⟨s, hs, hst⟩ := Arena.tenant?_eq_some.mp htenant
      have hlt := (hd.arena.ticket hs hst).2.2
      rw [hticket] at hlt
      omega
  · exact Or.inr (hpath ▸ hnew)

/-- Obtaining a handle leaves what the cache knows under other keys. -/
theorem cached?_obtain_of_ne (hd : d.Sound) {path : Path} {kind : Kind} {useCache : Bool}
    {key : Digest} (hne : keyOf path d.delimiter ≠ key) :
    (d.obtain path kind useCache).2.cached? key = d.cached? key := by
  have hf := (follows_obtain hd path kind useCache).1
  refine Option.ext fun k => ?_
  rw [cached?_eq_some_iff hf.sound, cached?_eq_some_iff hd, hf.delimiter]
  constructor
  · rintro ⟨hk, hkey⟩
    rcases hk.of_obtain hd with hold | hpath
    · exact ⟨hold, hkey⟩
    · rw [hpath] at hkey
      exact (hne hkey).elim
  · rintro ⟨hk, hkey⟩
    exact ⟨hk.obtain hd path kind useCache, hkey⟩

/-! ## Serving a path -/

/-- The handle is what is answered for a path: if the cache is asked and knows the key of the path,
the handle that it has, else one for this path. -/
def Serves (d : Document) (useCache : Bool) (path : Path) (k : Handle) : Prop :=
  match if useCache then d.cached? (keyOf path d.delimiter) else none with
  | some known => k = known
  | none => k.path = path

theorem serves_obtain (d : Document) (path : Path) (kind : Kind) (useCache : Bool) :
    d.Serves useCache path (d.obtain path kind useCache).1 := by
  unfold Serves obtain
  cases (if useCache then d.cached? (keyOf path d.delimiter) else none) <;> rfl

theorem Serves.of_obtain (hd : d.Sound) {other path : Path} {kind : Kind} {useCache : Bool}
    (hne : useCache = true → keyOf other d.delimiter ≠ keyOf path d.delimiter) {k : Handle}
    (h : (d.obtain other kind useCache).2.Serves useCache path k) :
    d.Serves useCache path k := by
  cases useCache with
  | false => exact h
  | true =>
    unfold Serves at h ⊢
    rwa [(follows_obtain hd other kind true).1.delimiter, cached?_obtain_of_ne hd (hne rfl)] at h

/-- A handle that is answered for a path leads to what is there unless the cache has one for the key
of the path that leads to something else. -/
theorem Serves.walk?_eq_some_iff (hd : d.Sound) {useCache : Bool} {path : Path} {k : Handle}
    (h : d.Serves useCache path k) {w : Value} (hw : d.value.walk? path = some w) :
    d.value.walk? k.path = some w ↔ (useCache = true → ∀ known : Handle, d.Caches known →
      keyOf known.path d.delimiter = keyOf path d.delimiter →
        d.value.walk? known.path = some w) := by
  unfold Serves at h
  split at h
  · rename_i known hc
    subst h
    cases useCache with
    | false => cases hc
    | true =>
      rw [if_pos rfl] at hc
      constructor
      · intro hk _ other hother hkey
        have hsame := hother.cached?_eq hd
        rw [hkey, hc] at hsame
        rw [← Option.some.inj hsame]
        exact hk
      · intro hall
        obtain ⟨hcaches, hkey⟩ := (cached?_eq_some_iff hd).mp hc
        exact hall rfl k hcaches hkey
  · rename_i hc
    rw [h]
    refine ⟨fun _ hcache other hother hkey => ?_, fun _ => hw⟩
    rw [if_pos hcache, ← hkey, hother.cached?_eq hd] at hc
    cases hc

/-- Looking up the only place that an address names is obtaining a handle for it. -/
theorem resolve_eq_obtain (d : Document) {a : Address} (ha : a.endsWithSlice = false)
    (hdelimiter : a.delimiter = d.delimiter) {context path : Path}
    (hpath : a.fullPath context = path) {kind : Kind} (hk : d.value.kindAt? path = some kind)
    (useCache : Bool) : d.resolve a context useCache =
      ([(d.obtain path kind useCache).1], (d.obtain path kind useCache).2) := by
  have hlocate : d.value.locate? a context = some [⟨path, kind⟩] := by
    rw [Value.locate?_of_not_slice ha, hpath, hk, Option.map_some]
  unfold resolve obtain
  dsimp only
  rw [hpath, ha, hdelimiter, Bool.not_false, Bool.and_true]
  cases hc : (if useCache then d.cached? (keyOf path d.delimiter) else none) with
  | some known => rfl
  | none =>
    rw [hlocate]
    dsimp only
    rw [obtainAll, obtain, hc]
    rfl

/-- If the keys of paths differ, each of the handles that are obtained for them serves its own. -/
theorem serves_obtainAll (hd : d.Sound) {useCache : Bool} {targets : List Target}
    (hkeys : useCache = true → (targets.map fun t => keyOf t.path d.delimiter).Nodup) {i : Nat}
    {t : Target} {k : Handle} (ht : targets[i]? = some t)
    (hk : (d.obtainAll useCache targets).1[i]? = some k) : d.Serves useCache t.path k := by
  induction targets generalizing d i with
  | nil => cases ht
  | cons first rest ih =>
    cases i with
    | zero =>
      cases ht
      cases hk
      exact serves_obtain d t.path t.kind useCache
    | succ i =>
      have hf := (follows_obtain hd first.path first.kind useCache).1
      have hdiffer := fun hcache => List.nodup_cons.mp (hkeys hcache)
      have hlater : (d.obtain first.path first.kind useCache).2.Serves useCache t.path k := by
        refine ih hf.sound (fun hcache => ?_) ht hk
        rw [hf.delimiter]
        exact (hdiffer hcache).2
      refine hlater.of_obtain hd fun hcache he => (hdiffer hcache).1 ?_
      exact List.mem_map.mpr ⟨t, List.mem_of_getElem? ht, he.symm⟩

theorem length_obtainAll (d : Document) (useCache : Bool) (targets : List Target) :
    (d.obtainAll useCache targets).1.length = targets.length := by
  induction targets generalizing d with
  | nil => rfl
  | cons t rest ih => exact congrArg Nat.succ (ih _)

end

end Document

namespace Live

open Document

theorem rawValue_eq_ok_iff {d : Document} {h : Handle} {v : Value} :
    (h.rawValue.runOn d).1 = .ok v ↔ d.isValid h = true ∧ d.value.walk? h.path = some v := by
  rw [runOn_rawValue]
  cases d.isValid h <;> cases d.value.walk? h.path <;> simp

/-- Handles that are obtained one after the other, one for each place. If the keys of their paths
differ, then each of them reads what is at its path unless the cache has a handle for the path's key
that leads to something else. -/
theorem exists_rawValue_obtainAll {d : Document} (hd : d.Sound) {useCache : Bool}
    {targets : List Target} {i : Nat} {t : Target} {w : Value} (ht : targets[i]? = some t)
    (hw : d.value.walk? t.path = some w) :
    ∃ k, (d.obtainAll useCache targets).1[i]? = some k ∧
      ((useCache = true → (targets.map fun t => keyOf t.path d.delimiter).Nodup) →
        ((k.rawValue.runOn (d.obtainAll useCache targets).2).1 = .ok w ↔
          (useCache = true → ∀ known : Handle, d.Caches known →
            keyOf known.path d.delimiter = keyOf t.path d.delimiter →
              d.value.walk? known.path = some w))) := by
  have hlt : i < targets.length := (List.getElem?_eq_some_iff.mp ht).1
  rw [← length_obtainAll d useCache targets] at hlt
  obtain ⟨k, hk⟩ : ∃ k, (d.obtainAll useCache targets).1[i]? = some k :=
    ⟨_, List.getElem?_eq_getElem hlt⟩
  refine ⟨k, hk, fun hkeys => ?_⟩
  have hsound := (follows_obtainAll hd useCache targets).1.sound
  have hserves : d.Serves useCache t.path k := serves_obtainAll hd hkeys ht hk
  have hnew := found_obtainAll hd useCache targets k (List.mem_of_getElem? hk)
  rw [rawValue_eq_ok_iff, value_obtainAll, hserves.walk?_eq_some_iff hd hw]
  exact and_iff_right ((hnew.has.isValid_iff hsound).mpr hnew.valid)

/-- What the child under a segment is looked up as. -/
def childTarget (path : Path) (m : Segment × Value) : Target :=
  ⟨path ++ [m.1], m.2.kind⟩

/-- The children of a valid handle are obtained one after the other. -/
theorem runOn_childrenAt {d : Document} (hd : d.Sound) {h : Handle} (hh : d.Has h)
    (hvalid : d.isValid h = true) {members : List (Segment × Value)}
    (hmembers : ∀ m ∈ members, m.1.isSlice = false ∧
      d.value.walk? (h.path ++ [m.1]) = some m.2) :
    (View.childrenAt h (members.map Prod.fst)).runOn d =
      (.ok (d.obtainAll d.settings.useCache (members.map (childTarget h.path))).1,
        (d.obtainAll d.settings.useCache (members.map (childTarget h.path))).2) := by
  induction members generalizing d with
  | nil => rfl
  | cons m rest ih =>
    obtain ⟨hslice, hwalk⟩ := hmembers m List.mem_cons_self
    have hkind : d.value.kindAt? (h.path ++ [m.1]) = some m.2.kind := by
      rw [Value.kindAt?, hwalk, Option.map_some]
    let a : Address := ⟨[m.1], false, d.delimiter⟩
    have hresolve : d.resolve a h.path d.settings.useCache =
        ([(d.obtain (h.path ++ [m.1]) m.2.kind d.settings.useCache).1],
          (d.obtain (h.path ++ [m.1]) m.2.kind d.settings.useCache).2) :=
      resolve_eq_obtain d (show a.endsWithSlice = false from hslice) rfl rfl hkind _
    have hf := (follows_obtain hd (h.path ++ [m.1]) m.2.kind d.settings.useCache).1
    have hstill := hh.isValid_resolve hd hvalid a h.path d.settings.useCache
    rw [hresolve] at hstill
    have hrest := ih hf.sound (hh.of_follows hf) hstill fun u hu => by
      rw [value_obtain]
      exact hmembers u (List.mem_cons_of_mem _ hu)
    rw [hf.settings] at hrest
    rw [List.map_cons, View.childrenAt, runOn_bind, runOn_child?, if_pos hvalid, hresolve]
    dsimp only
    rw [runOn_bind, hrest]
    rfl

/-- Every entry of a container is found under its segment. -/
theorem walk?_member {d : Document} {path : Path} {w : Value} (hw : d.value.walk? path = some w)
    (hdistinct : w.Distinct) (hlength : w.members.length < 9223372036854775808)
    {m : Segment × Value} (hm : m ∈ w.members) :
    d.value.walk? (path ++ [m.1]) = some m.2 := by
  rw [Value.walk?_append, hw, Option.bind_some, Value.walk?,
    (Value.step?_of_mem_members hdistinct hlength hm).2]
  rfl

/-- The children of a view of a container. -/
theorem runOn_children_members {d : Document} (hd : d.Sound) {v : View} (hh : d.Has v.handle)
    (hvalid : d.isValid v.handle = true) {w : Value} (hw : d.value.walk? v.handle.path = some w)
    (hcontainer : w.kind.isContainer = true) (hdistinct : w.Distinct)
    (hlength : w.members.length < 9223372036854775808) :
    v.children.runOn d =
      (.ok (d.obtainAll d.settings.useCache (w.members.map (childTarget v.handle.path))).1,
        (d.obtainAll d.settings.useCache (w.members.map (childTarget v.handle.path))).2) := by
  rw [runOn_children v hvalid hw (Value.segments_eq_members hcontainer)]
  exact runOn_childrenAt hd hh hvalid fun m hm =>
    ⟨(Value.step?_of_mem_members hdistinct hlength hm).1, walk?_member hw hdistinct hlength hm⟩

/-- The children of a view of a container: one valid handle for each entry, in order. If the keys of
the children differ, then a child reads the value of its entry unless the cache has a handle for the
child's key that leads to something else. -/
theorem exists_children {d : Document} (hd : d.Sound) {v : View} (hh : d.Has v.handle)
    (hvalid : d.isValid v.handle = true) {w : Value} (hw : d.value.walk? v.handle.path = some w)
    (hcontainer : w.kind.isContainer = true) (hdistinct : w.Distinct)
    (hlength : w.members.length < 9223372036854775808) :
    ∃ hs d', v.children.runOn d = (.ok hs, d') ∧ hs.length = w.members.length ∧
      ((d.settings.useCache = true → (w.members.map fun m =>
          keyOf (v.handle.path ++ [m.1]) d.delimiter).Nodup) →
        ∀ (i : Nat) (m : Segment × Value), w.members[i]? = some m →
          ∃ k, hs[i]? = some k ∧ ((k.rawValue.runOn d').1 = .ok m.2 ↔
            (d.settings.useCache = true → ∀ known : Handle, d.Caches known →
              keyOf known.path d.delimiter = keyOf (v.handle.path ++ [m.1]) d.delimiter →
                d.value.walk? known.path = some m.2))) := by
  have hrun := runOn_children_members hd hh hvalid hw hcontainer hdistinct hlength
  generalize htargets : w.members.map (childTarget v.handle.path) = targets at hrun
  have hcount := length_obtainAll d d.settings.useCache targets
  refine ⟨_, _, hrun, by rw [hcount, ← htargets, List.length_map], fun hkeys i m hm => ?_⟩
  have htarget : targets[i]? = some (childTarget v.handle.path m) := by
    rw [← htargets, List.getElem?_map, hm, Option.map_some]
  have hmember := walk?_member hw hdistinct hlength (List.mem_of_getElem? hm)
  obtain ⟨k, hk, hreads⟩ := exists_rawValue_obtainAll hd htarget hmember
  refine ⟨k, hk, hreads fun hcache => ?_⟩
  rw [← htargets, List.map_map]
  exact hkeys hcache

end Live

namespace Session

/-- In every state that a session reaches, the children of a view whose handle is valid and whose
value is a container are one handle for each entry, in order. If no two of their paths have one
digest, then a child reads the value of its entry exactly if no handle in the cache has the digest
of the child's path and leads to something else. -/
theorem children_read_entries_iff (env : Environment) {value : Value} (hv : value.Distinct)
    (settings : Settings) {steps : List Step}
    (hsteps : ∀ step ∈ steps, ∀ v ∈ step.action.brought, v.Distinct) {name : String} {n : Nat}
    {v : View}
    (hr : ((opening env value settings).after steps).register? name = some (.view n v))
    {d : Document} (hd : ((opening env value settings).after steps).document? n = some d)
    (hvalid : d.isValid v.handle = true) {w : Value} (hw : d.value.walk? v.handle.path = some w)
    (hcontainer : w.kind.isContainer = true) (hlength : w.members.length < 9223372036854775808)
    (store : Option String) :
    ∃ reports : List HandleReport,
      (((opening env value settings).after steps).run ⟨.view name .children, store⟩).1.answer =
          .ok (.handles reports) ∧
        reports.length = w.members.length ∧
        ((settings.useCache = true → (w.members.map fun m =>
            Document.keyOf (v.handle.path ++ [m.1]) settings.delimiter).Nodup) →
          ∀ (i : Nat) (m : Segment × Value), w.members[i]? = some m →
            ∃ r, reports[i]? = some r ∧ (r.raw = .ok m.2 ↔
              (settings.useCache = true → ∀ k : Handle, d.Caches k →
                Document.keyOf k.path settings.delimiter =
                    Document.keyOf (v.handle.path ++ [m.1]) settings.delimiter →
                  d.value.walk? k.path = some m.2))) := by
  have hopening := sound_opening env value settings
  have hsound := sound_after hopening steps
  obtain ⟨hsd, hset⟩ := hsound.document hd
  rw [settings_after hopening steps] at hset
  obtain ⟨e, he, hh⟩ := hsound.register (mem_of_register? hr)
  rw [show (Register.view n v).document = n from rfl, hd] at he
  cases he
  have hdistinct : w.Distinct :=
    (throughout_after Value.stable_keysDiffer env hv settings hsteps n d hd).walk?
      Value.stable_keysDiffer hw
  obtain ⟨hs, d', hrun, hcount, hreads⟩ :=
    Live.exists_children hsd hh hvalid hw hcontainer hdistinct hlength
  rw [Document.delimiter, show d.settings = settings from hset] at hreads
  have hcall : (ViewCall.children.run v).runOn d = (.ok (.handles hs), d') := by
    rw [ViewCall.run, Live.runOn_told, hrun]
    rfl
  generalize (opening env value settings).after steps = s at hr hd
  refine ⟨hs.map ((s.setDocument n d').report n d'), ?_, ?_, fun hkeys i m hm => ?_⟩
  · show (s.act ⟨.view name .children, store⟩).1 = _
    rw [act_view hr, perform_of_ok hd hcall]
    cases store <;> rfl
  · rw [List.length_map, hcount]
  · obtain ⟨k, hk, hraw⟩ := hreads hkeys i m hm
    exact ⟨_, by rw [List.getElem?_map, hk, Option.map_some], hraw⟩

/-- A mapping with a key that reads like the way to another place. -/
def delimitedKey : Value :=
  .mapping [("a/b", .null), ("a", .mapping [("b", .boolean true)])]

/-- Somebody holds the other place, and a view of the whole mapping. -/
def delimitedSteps : List Step :=
  [⟨.document (.member (.text "a/b")), some "x"⟩,
    ⟨.document (.queryWith (.text "") false), some "y"⟩, ⟨.handle "y0" .view, some "v"⟩]

/-- The first child reads what is at the other place. -/
theorem children_read_entries_iff_delimited :
    ∃ reports : List HandleReport,
      (((opening [] delimitedKey {}).after delimitedSteps).run
          ⟨.view "v" .children, none⟩).1.answer = .ok (.handles reports) ∧
        reports.length = 2 ∧ ∃ r, reports[0]? = some r ∧ r.raw ≠ .ok .null := by
  have hdistinct : delimitedKey.Distinct := by
    simp [delimitedKey, Value.Distinct, Value.Throughout, Value.ThroughoutEntries,
      Value.KeysDiffer, Entries.keys]
  have hsteps : ∀ step ∈ delimitedSteps, ∀ v ∈ step.action.brought, v.Distinct := by
    simp [delimitedSteps, Action.brought, DocumentCall.brought, HandleCall.brought]
  have hregister : ((opening [] delimitedKey {}).after delimitedSteps).register? "v" =
      some (.view 0 ⟨⟨⟨1, 1, 0⟩, []⟩, .mapping⟩) := by
    decide +kernel
  have hcached : ((opening [] delimitedKey {}).after delimitedSteps).document.cached?
      (Document.keyOf [.key "a/b"] "/") = some ⟨⟨0, 0, 0⟩, [.key "a", .key "b"]⟩ := by
    decide +kernel
  obtain ⟨reports, hanswer, hlength, hall⟩ := children_read_entries_iff [] hdistinct {} hsteps
    hregister rfl (by decide +kernel) (w := delimitedKey) (by rfl) rfl (by decide) none
  refine ⟨reports, hanswer, hlength, ?_⟩
  obtain ⟨r, hr, hiff⟩ := hall (fun _ => by decide +kernel) 0 (.key "a/b", .null) rfl
  refine ⟨r, hr, fun hraw => ?_⟩
  have hsound := (sound_after (sound_opening [] delimitedKey {}) delimitedSteps).own
  have hheld := ((Document.cached?_eq_some_iff hsound).mp hcached).1
  have hnull := hiff.mp hraw rfl _ hheld (by decide +kernel)
  cases hnull

end Session

end LiveDocument
