import Everywhere.Share.Objects

/-!
# Checkpoints with their objects

A checkpoint is a directory with a copy of the index, copies of all objects that it names, and a manifest. `capture`
makes one, `openCheckpoint` and `verify` check one, and a recovery or an import takes its index and its objects over.
A checkpoint lies outside the program's reach, so whatever passes the check may be taken over.

* `validate_exact` — **the check is exact**: it accepts the copies of indexes whose tables are in order, no others.
* `objects_complete` — **no object is missing**: in every state of a share, imports and recoveries from any checkpoint
  that passes included, every hash of a revision is the name of an object with that hash.
* `checkpoint_complete` — **a checkpoint can be made at any time**: nothing but the folder's marker can stop it, it
  passes the check, and its objects can be copied back.
-/

namespace Everywhere

open Library

/-! ### The check of the tables -/

section check

variable {P : Platform} {i : Index}

theorem canonical_of_validateVersions {v : Versions} {nonempty : Bool} (h : validateVersions P v nonempty = .ok ()) :
    v.Canonical P ∧ (nonempty = false ∨ v.heads ≠ []) := by
  obtain ⟨-, h⟩ := ensure_bind_eq_ok.mp h
  obtain ⟨hne, h⟩ := ensure_bind_eq_ok.mp h
  obtain ⟨joined, hj, h⟩ := bind_eq_ok.mp h
  obtain rfl := ensure_eq_ok.mp h
  exact ⟨Versions.canonical_join hj, hne⟩

/-- A line that passes comes from a row that is in order. -/
theorem EntryRow.validate_iff {path : String} {l : Row} {ceiling : ℕ} :
    EntryRow.validate P ceiling ⟨path, collisionKey P path, l.versions, l.materialized, l.observed, l.seq⟩ = .ok () ↔
      validatePath path = .ok () ∧ l.Sound P ∧ 0 < l.seq ∧ l.seq ≤ ceiling := by
  refine ⟨fun h => ?_, fun h => EntryRow.validate_ok h.1 h.2.1 h.2.2⟩
  obtain ⟨⟨⟩, hpath, h⟩ := bind_eq_ok.mp h
  obtain ⟨-, h⟩ := ensure_bind_eq_ok.mp h
  obtain ⟨⟨⟩, hversions, h⟩ := bind_eq_ok.mp h
  obtain ⟨⟨⟩, hobserved, h⟩ := bind_eq_ok.mp h
  obtain ⟨hdeleted, h⟩ := ensure_bind_eq_ok.mp h
  obtain ⟨hv, hne⟩ := canonical_of_validateVersions hversions
  have hproper : l.versions.Proper P := ⟨hv, hne.resolve_left (by simp)⟩
  have ho := (canonical_of_validateVersions hobserved).1
  dsimp only at h hdeleted
  split at h
  next hash hm =>
    obtain ⟨hhash, h⟩ := ensure_bind_eq_ok.mp h
    refine ⟨hpath, ⟨hproper, ho, hdeleted, fun k hk => ?_⟩, ensure_eq_ok.mp h⟩
    rw [hm] at hk
    rw [← Content.file.inj (Option.some.inj hk)]
    exact hhash
  next hm =>
    exact ⟨hpath, ⟨hproper, ho, hdeleted, fun k hk => absurd hk (hm k)⟩, ensure_eq_ok.mp h⟩

/-- A revision that passes is in order. -/
theorem Retained.validate_iff {e : Retained} : Retained.validate P e = .ok () ↔ e.Sound P := by
  refine ⟨fun h => ?_, Retained.validate_ok⟩
  obtain ⟨⟨⟩, hpath, h⟩ := bind_eq_ok.mp h
  obtain ⟨hid, h⟩ := ensure_bind_eq_ok.mp h
  obtain ⟨joined, hj, -⟩ := bind_eq_ok.mp h
  have hfits := (Versions.join_eq_ok.mp hj).2.1
  refine ⟨hpath, hid.symm, ⟨hfits, by simp, ?_, ?_⟩⟩
  · exact Set.Subsingleton.isAntichain (fun a ha b hb => by
      rw [List.mem_singleton.mp ha, List.mem_singleton.mp hb]) _
  · intro a ha b hb _
    rw [List.mem_singleton.mp ha, List.mem_singleton.mp hb]

theorem row_of_snapshot {r : EntryRow} : r ∈ (i.snapshot P).entries ↔ ∃ (path : String) (l : Row),
    i.entries[path]? = some l ∧ r = ⟨path, collisionKey P path, l.versions, l.materialized, l.observed, l.seq⟩ := by
  simp only [Index.snapshot, List.mem_map, ← Std.ExtTreeMap.mem_toList_iff_getElem?_eq_some, Prod.exists,
      eq_comm (a := r)]

theorem mem_paths_snapshot {path : String} : path ∈ (i.snapshot P).entries.map (·.path) ↔ path ∈ i.entries := by
  rw [Std.ExtTreeMap.mem_iff_isSome_getElem?, Option.isSome_iff_exists, List.mem_map]
  constructor
  · rintro ⟨r, hr, rfl⟩
    obtain ⟨q, l, hl, rfl⟩ := row_of_snapshot.mp hr
    exact ⟨l, hl⟩
  · rintro ⟨l, hl⟩
    exact ⟨_, row_of_snapshot.mpr ⟨path, l, hl, rfl⟩, rfl⟩

/-- Different numbers are what the check demands. -/
theorem numbered_iff (P : Platform)
    (hrange : ∀ (path : String) (l : Row), i.entries[path]? = some l → 0 < l.seq ∧ l.seq ≤ i.seq) :
    ((i.snapshot P).entries.map (·.seq)).Nodup ↔ i.Numbered := by
  refine ⟨fun h => ⟨hrange, fun path path' l l' hl hl' heq => ?_⟩, nodup_seq⟩
  have hrow := row_of_snapshot (P := P).mpr ⟨path, l, hl, rfl⟩
  have hrow' := row_of_snapshot (P := P).mpr ⟨path', l', hl', rfl⟩
  exact congrArg EntryRow.path (List.inj_on_of_nodup_map h hrow hrow' heq)

end check

/-- The copy that a checkpoint takes of an index: nothing that was taken in goes with it. -/
def Index.copied (i : Index) : Index := { i with incoming := ∅, needed := ∅ }

/-- **The check is exact.** It accepts a copy of an index if and only if its lines are not too long, it belongs to the
generation, and its tables are in order: portable paths, canonical version sets, contents that can stand in a folder,
revisions under their own identifiers, reviews of paths that have rows, and numbers that tell the rows apart. -/
theorem validate_exact (P : Platform) (i : Index) (epoch : String) :
    (i.snapshot P).validate P epoch = .ok () ↔
      (i.snapshot P).bounded = true ∧ i.epoch = epoch ∧ i.copied.Sound P ∧ i.Numbered := by
  constructor
  · intro h
    rw [Snapshot.validate, ensure_bind_eq_ok, ensure_bind_eq_ok, ensure_bind_eq_ok, ensure_bind_eq_ok] at h
    obtain ⟨hbounded, hepoch, -, hceiling, h⟩ := h
    obtain ⟨⟨⟩, hrows, h⟩ := bind_eq_ok.mp h
    rw [ensure_bind_eq_ok, ensure_bind_eq_ok] at h
    obtain ⟨hseq, hpending, hhistory⟩ := h
    have hrow : ∀ (path : String) (l : Row), i.entries[path]? = some l →
        validatePath path = .ok () ∧ l.Sound P ∧ 0 < l.seq ∧ l.seq ≤ i.seq := fun path l hl =>
      EntryRow.validate_iff.mp (forM_eq_ok.mp hrows _ (row_of_snapshot.mpr ⟨path, l, hl, rfl⟩))
    refine ⟨hbounded, hepoch, ⟨fun path l hl => ⟨(hrow path l hl).1, (hrow path l hl).2.1⟩, ?_, ?_, ?_, hceiling⟩, ?_⟩
    · exact fun _ _ h => by simp [Index.copied] at h
    · exact fun e he => Retained.validate_iff.mp (forM_eq_ok.mp hhistory e he)
    · exact fun path hp => mem_paths_snapshot.mp (hpending path (Std.ExtTreeSet.mem_toList.mpr hp))
    · exact (numbered_iff P fun path l hl => (hrow path l hl).2.2).mp hseq
  · rintro ⟨hbounded, hepoch, hi, hn⟩
    refine ensure_bind_eq_ok.mpr ⟨hbounded, ensure_bind_eq_ok.mpr ⟨hepoch, ensure_bind_eq_ok.mpr ⟨rfl,
      ensure_bind_eq_ok.mpr ⟨hi.ceiling, bind_eq_ok.mpr ⟨(), forM_eq_ok.mpr fun r hr => ?_,
        ensure_bind_eq_ok.mpr ⟨nodup_seq hn, ensure_bind_eq_ok.mpr ⟨fun path hp => ?_,
          forM_eq_ok.mpr fun e he => ?_⟩⟩⟩⟩⟩⟩⟩
    · obtain ⟨path, l, hl, rfl⟩ := row_of_snapshot.mp hr
      obtain ⟨hpath, hrow⟩ := hi.rows path l hl
      exact EntryRow.validate_ok hpath hrow (hn.range path l hl)
    · exact mem_paths_snapshot.mpr (hi.pending path (Std.ExtTreeSet.mem_toList.mp hp))
    · exact Retained.validate_ok (hi.history e he)

/-! ### The objects of a checkpoint -/

/-- A checkpoint. -/
structure Checkpoint where
  /-- The configuration of the share. -/
  config : Config
  /-- The copy of its index. -/
  index : Index
  /-- The directory of the objects. -/
  objects : Std.ExtTreeMap String Bytes
  /-- How many objects the index names. -/
  count : ℕ

namespace Backup

variable (P : Platform)

/-- Copy an object to a directory that has none of that name. -/
def copyPrivate (source target : Std.ExtTreeMap String Bytes) (hash : String) :
    Result (Std.ExtTreeMap String Bytes) :=
  match source[hash]? with
  | none => .error (.io .notFound)
  | some bytes => do
    if hash ∈ target then .error (.io .alreadyExists)
    let found ← Share.digest P bytes
    ensure (found = hash) ("checkpoint content changed or is corrupt: " ++ hash)
    pure (target.insert hash bytes)

/-- Check an object of a checkpoint. -/
def checkObject (objects : Std.ExtTreeMap String Bytes) (hash : String) : Result Unit :=
  match objects[hash]? with
  | none => .error (.io .notFound)
  | some bytes => do
    let found ← Share.digest P bytes
    ensure (found = hash) ("checkpoint object is corrupt: " ++ hash)

/-- Put an object in its place, unless it is there; a corrupt one gives way. -/
def repairObject (source target : Std.ExtTreeMap String Bytes) (hash : String) :
    Result (Std.ExtTreeMap String Bytes) :=
  match target[hash]? with
  | none => copyPrivate P source target hash
  | some bytes => do
    let found ← Share.digest P bytes
    if found = hash then pure target else copyPrivate P source (target.erase hash) hash

variable {P}

/-- Visit the objects that an index names, and count them. -/
def objectHashes {σ : Type} (i : Index) (visit : σ → String → Result σ) (s : σ) : Result (σ × ℕ) :=
  i.objectHashes.foldlM (fun (s, count) hash => do
    ensure (isHash hash = true) "invalid peer fingerprint"
    let s ← visit s hash
    pure (s, count + 1)) (s, 0)

variable (P)

/-- Check a checkpoint. -/
def openCheckpoint (c : Checkpoint) : Result Unit := do
  ensure (isHash c.config.epoch = true) "invalid peer fingerprint"
  (c.index.snapshot P).validate P c.config.epoch
  let (_, count) ← objectHashes c.index (fun _ => checkObject P c.objects) ()
  ensure (count = c.count) "checkpoint object count mismatch"

/-- Check a checkpoint, and that no other objects are in it. -/
def verify (c : Checkpoint) : Result Config := do
  openCheckpoint P c
  ensure (c.objects.size = c.count) "unexpected checkpoint objects"
  pure c.config

/-- Write the copies of an index and of its objects. -/
def store (config : Config) (i : Index) (objects : Std.ExtTreeMap String Bytes) : Result Checkpoint := do
  (i.copied.snapshot P).validate P config.epoch
  let (copies, count) ← objectHashes i.copied (copyPrivate P objects) ∅
  pure ⟨config, i.copied, copies, count⟩

variable {β : Type}

/-- Make a checkpoint of a share. -/
def capture : Io (Share β) Checkpoint := do
  let (config, index, objects) ← Fallible.look fun s : Share β => (s.config, s.index, s.objects)
  let c ← store P config index objects
  Share.checkRoot
  pure c

/-! ### What the visits do -/

variable {P} {i : Index} {source target copies : Std.ExtTreeMap String Bytes} {hash : String} {bytes : Bytes}

/-- An object with its own hash as its name. -/
def Intact (P : Platform) (objects : Std.ExtTreeMap String Bytes) (hash : String) : Prop :=
  ∃ bytes, objects[hash]? = some bytes ∧ Share.digest P bytes = .ok hash

/-- All objects have their own hashes as their names. -/
def Right (P : Platform) (objects : Std.ExtTreeMap String Bytes) : Prop :=
  ∀ (hash : String) (bytes : Bytes), objects[hash]? = some bytes → Share.digest P bytes = .ok hash

theorem checkObject_eq_ok : checkObject P source hash = .ok () ↔ Intact P source hash := by
  unfold checkObject Intact
  cases source[hash]? with
  | none => simp
  | some bytes =>
    simp only [bind_eq_ok, ensure_eq_ok, Option.some.injEq, exists_eq_left']
    exact ⟨by rintro ⟨found, h, rfl⟩; exact h, fun h => ⟨hash, h, rfl⟩⟩

theorem copyPrivate_eq_ok : copyPrivate P source target hash = .ok copies ↔
    ∃ bytes, source[hash]? = some bytes ∧ hash ∉ target ∧ Share.digest P bytes = .ok hash ∧
      copies = target.insert hash bytes := by
  unfold copyPrivate
  cases source[hash]? with
  | none => simp
  | some bytes =>
    simp only [Option.some.injEq, exists_eq_left']
    by_cases h : hash ∈ target
    · simp [h, bind, Except.bind]
    · simp only [h, if_false, not_false_iff, true_and, bind_eq_ok, pure_eq_ok, eq_comm (a := copies)]
      constructor
      · rintro ⟨found, hd, ⟨⟩, he, hc⟩
        obtain rfl := ensure_eq_ok.mp he
        exact ⟨hd, hc⟩
      · rintro ⟨hd, hc⟩
        exact ⟨hash, hd, (), ensure_eq_ok.mpr rfl, hc⟩

/-- What each visit makes true stays true. -/
theorem visits {σ : Type} {visit : σ → String → Result σ} {s s' : σ} {n : ℕ} {I : σ → Prop} {D : String → σ → Prop}
    (hvisit : ∀ s hash s', hash ∈ i.objectHashes → isHash hash = true → I s → visit s hash = .ok s' →
      I s' ∧ D hash s' ∧ ∀ k, D k s → D k s')
    (hs : I s) (h : objectHashes i visit s = .ok (s', n)) :
    I s' ∧ n = i.objectHashes.length ∧ ∀ hash ∈ i.objectHashes, isHash hash = true ∧ D hash s' := by
  have hall : ∀ (l : List String) (s : σ) (m : ℕ), (∀ hash ∈ l, hash ∈ i.objectHashes) → I s →
      l.foldlM (fun (s, count) hash => do
        ensure (isHash hash = true) "invalid peer fingerprint"
        let s ← visit s hash
        pure (s, count + 1)) (s, m) = Except.ok (ε := Error) (s', n) →
      I s' ∧ n = m + l.length ∧ (∀ k, D k s → D k s') ∧ ∀ hash ∈ l, isHash hash = true ∧ D hash s' := by
    intro l
    induction l with
    | nil =>
      intro s m _ hs h
      obtain ⟨rfl, rfl⟩ := Prod.mk.inj (pure_eq_ok.mp h)
      exact ⟨hs, rfl, fun _ h => h, by simp⟩
    | cons hash l ih =>
      intro s m hl hs h
      rw [List.foldlM_cons] at h
      obtain ⟨⟨t, m'⟩, ht, h⟩ := bind_eq_ok.mp h
      obtain ⟨hhash, ht⟩ := ensure_bind_eq_ok.mp ht
      obtain ⟨u, hu, ht⟩ := bind_eq_ok.mp ht
      obtain ⟨rfl, rfl⟩ := Prod.mk.inj (pure_eq_ok.mp ht)
      obtain ⟨hI, hD, hkeep⟩ := hvisit s hash u (hl hash (by simp)) hhash hs hu
      obtain ⟨hI', hn, hkeep', hrest⟩ := ih u (m + 1) (fun k hk => hl k (by simp [hk])) hI h
      refine ⟨hI', by rw [hn, List.length_cons]; omega, fun k hk => hkeep' k (hkeep k hk), ?_⟩
      rintro k (_ | ⟨_, hk⟩)
      · exact ⟨hhash, hkeep' _ hD⟩
      · exact hrest k hk
  obtain ⟨hI, hn, -, hD⟩ := hall i.objectHashes s 0 (fun _ h => h) hs h
  exact ⟨hI, by rw [hn, zero_add], hD⟩

/-- The visits succeed if each does in its turn. -/
theorem visits_ok {σ : Type} {visit : σ → String → Result σ} {s : σ} {I : List String → σ → Prop}
    (hhash : ∀ hash ∈ i.objectHashes, isHash hash = true)
    (hvisit : ∀ s hash l, hash ∈ i.objectHashes → I (hash :: l) s → ∃ s', visit s hash = .ok s' ∧ I l s')
    (hs : I i.objectHashes s) : ∃ s', objectHashes i visit s = .ok (s', i.objectHashes.length) := by
  have hall : ∀ (l : List String) (s : σ) (m : ℕ), (∀ hash ∈ l, hash ∈ i.objectHashes) → I l s →
      ∃ s', l.foldlM (fun (s, count) hash => do
        ensure (isHash hash = true) "invalid peer fingerprint"
        let s ← visit s hash
        pure (s, count + 1)) (s, m) = Except.ok (ε := Error) (s', m + l.length) := by
    intro l
    induction l with
    | nil => exact fun s m _ _ => ⟨s, rfl⟩
    | cons hash l ih =>
      intro s m hl hs
      obtain ⟨u, hu, hI⟩ := hvisit s hash l (hl hash (by simp)) hs
      obtain ⟨s', hs'⟩ := ih u (m + 1) (fun k hk => hl k (by simp [hk])) hI
      refine ⟨s', ?_⟩
      rw [List.foldlM_cons, bind_eq_ok]
      refine ⟨(u, m + 1), ensure_bind_eq_ok.mpr ⟨hhash hash (hl hash (by simp)), bind_eq_ok.mpr ⟨u, hu, rfl⟩⟩, ?_⟩
      rw [hs', List.length_cons]
      congr 2
      omega
  obtain ⟨s', hs'⟩ := hall i.objectHashes s 0 (fun _ h => h) hs
  exact ⟨s', by rw [objectHashes, hs', zero_add]⟩

/-- An index whose tables are in order names objects by their hashes. -/
theorem isHash_of_mem (hi : i.Sound P) (h : hash ∈ i.objectHashes) : isHash hash = true := by
  have hobject : ∀ {r : Revision}, r.Valid → Index.object r.content = some hash → isHash hash = true := by
    intro r hr h
    cases hc : r.content with
    | file hash' =>
      rw [hc] at h
      exact Option.some.inj h ▸ hr.isHash hc
    | directory | deleted =>
      rw [hc] at h
      cases h
  rcases Index.named_iff.mp (Index.mem_objectHashes.mp h) with ⟨path, l, hl, hn⟩ | ⟨e, he, hr⟩
  · have hl := (hi.rows path l hl).2
    rcases hn with ⟨r, hr, hr'⟩ | ⟨-, hm⟩
    · rcases List.mem_append.mp hr with hr | hr
      · exact hobject (hl.versions.canonical.valid r hr) hr'
      · exact hobject (hl.observed.valid r hr) hr'
    · obtain ⟨content, hm, hc⟩ := Option.bind_eq_some_iff.mp hm
      cases content with
      | file hash' => exact Option.some.inj hc ▸ hl.plain.2 hash' hm
      | directory | deleted => cases hc
  · exact hobject ((hi.history e he).canonical.valid e.revision (by simp)) hr

theorem nodup_objectHashes : i.objectHashes.Nodup := (pairwise_canon id _).imp fun h => ne_of_lt h

/-- What the check of a checkpoint demands. -/
theorem openCheckpoint_eq_ok {c : Checkpoint} : openCheckpoint P c = .ok () ↔
    isHash c.config.epoch = true ∧ (c.index.snapshot P).validate P c.config.epoch = .ok () ∧
      (∀ hash ∈ c.index.objectHashes, Intact P c.objects hash) ∧ c.count = c.index.objectHashes.length := by
  constructor
  · intro h
    obtain ⟨hepoch, h⟩ := ensure_bind_eq_ok.mp h
    obtain ⟨⟨⟩, hvalid, h⟩ := bind_eq_ok.mp h
    obtain ⟨⟨⟨⟩, n⟩, hvisit, h⟩ := bind_eq_ok.mp h
    obtain ⟨-, hn, hD⟩ := visits (I := fun _ => True) (D := fun hash _ => Intact P c.objects hash)
      (fun _ hash _ _ _ _ h => ⟨trivial, checkObject_eq_ok.mp h, fun _ h => h⟩) trivial hvisit
    exact ⟨hepoch, hvalid, fun hash hh => (hD hash hh).2, (ensure_eq_ok.mp h).symm.trans hn⟩
  · rintro ⟨hepoch, hvalid, hobjects, hcount⟩
    have hi := ((validate_exact P c.index _).mp hvalid).2.2.1
    have hvisits : ∃ s, objectHashes c.index (fun _ => checkObject P c.objects) () =
        .ok (s, c.index.objectHashes.length) :=
      visits_ok (I := fun _ _ => True) (fun hash hh => isHash_of_mem hi hh)
        (fun _ hash _ hh _ => ⟨(), checkObject_eq_ok.mpr (hobjects hash hh), trivial⟩) trivial
    obtain ⟨⟨⟩, hvisit⟩ := hvisits
    exact ensure_bind_eq_ok.mpr ⟨hepoch, bind_eq_ok.mpr ⟨(), hvalid, bind_eq_ok.mpr ⟨_, hvisit,
        ensure_eq_ok.mpr hcount.symm⟩⟩⟩

/-- Copies are the objects that the index names, and all of them. -/
theorem copies_eq_ok {n : ℕ} (h : objectHashes i (copyPrivate P source) ∅ = .ok (copies, n)) :
    (∀ hash bytes, copies[hash]? = some bytes ↔ hash ∈ i.objectHashes ∧ source[hash]? = some bytes) ∧
      n = i.objectHashes.length ∧ ∀ hash ∈ i.objectHashes, Intact P source hash := by
  have hvisit : ∀ t hash t', hash ∈ i.objectHashes → isHash hash = true →
      (∀ k b, t[k]? = some b → k ∈ i.objectHashes ∧ source[k]? = some b) → copyPrivate P source t hash = .ok t' →
      (∀ k b, t'[k]? = some b → k ∈ i.objectHashes ∧ source[k]? = some b) ∧
        (Intact P source hash ∧ t'[hash]? = source[hash]?) ∧
        ∀ k, Intact P source k ∧ t[k]? = source[k]? → Intact P source k ∧ t'[k]? = source[k]? := by
    intro t hash t' hh _ ht h
    obtain ⟨bytes, hb, -, hdigest, rfl⟩ := copyPrivate_eq_ok.mp h
    refine ⟨fun k b hk => ?_, ⟨⟨bytes, hb, hdigest⟩, by simp [hb]⟩, fun k hk => ⟨hk.1, ?_⟩⟩
    · rw [Std.ExtTreeMap.getElem?_insert] at hk
      split_ifs at hk with hkh
      · obtain rfl := Std.LawfulEqCmp.compare_eq_iff_eq.mp hkh
        obtain rfl := Option.some.inj hk
        exact ⟨hh, hb⟩
      · exact ht k b hk
    · rw [Std.ExtTreeMap.getElem?_insert]
      split_ifs with hkh
      · obtain rfl := Std.LawfulEqCmp.compare_eq_iff_eq.mp hkh
        exact hb.symm
      · exact hk.2
  obtain ⟨hI, hn, hD⟩ := visits hvisit (fun _ _ h => by simp at h) h
  refine ⟨fun hash bytes => ⟨hI hash bytes, fun ⟨hh, hb⟩ => ?_⟩, hn, fun hash hh => (hD hash hh).2.1⟩
  rw [(hD hash hh).2.2, hb]

/-- Copying succeeds when all objects are intact. -/
theorem copies_ok (hhash : ∀ hash ∈ i.objectHashes, isHash hash = true)
    (h : ∀ hash ∈ i.objectHashes, Intact P source hash) :
    ∃ copies, objectHashes i (copyPrivate P source) ∅ = .ok (copies, i.objectHashes.length) := by
  refine visits_ok (I := fun l t => l.Nodup ∧ ∀ hash ∈ l, hash ∉ t) hhash (fun t hash l hh ht => ?_)
    ⟨nodup_objectHashes, fun _ _ => by simp⟩
  obtain ⟨bytes, hb, hdigest⟩ := h hash hh
  refine ⟨_, copyPrivate_eq_ok.mpr ⟨bytes, hb, ht.2 hash (by simp), hdigest, rfl⟩, (List.nodup_cons.mp ht.1).2,
      fun k hk hmem => ?_⟩
  rcases Std.ExtTreeMap.mem_insert.mp hmem with hkh | hmem
  · obtain rfl := Std.LawfulEqCmp.compare_eq_iff_eq.mp hkh
    exact (List.nodup_cons.mp ht.1).1 hk
  · exact ht.2 k (by simp [hk]) hmem

theorem repairObject_ok (h : repairObject P source target hash = .ok copies) :
    Intact P copies hash ∧ ∀ k, k ≠ hash → copies[k]? = target[k]? := by
  have hcopy : ∀ {t : Std.ExtTreeMap String Bytes}, copyPrivate P source t hash = .ok copies →
      Intact P copies hash ∧ ∀ k, k ≠ hash → copies[k]? = t[k]? := by
    intro t h
    obtain ⟨bytes, -, -, hdigest, rfl⟩ := copyPrivate_eq_ok.mp h
    exact ⟨⟨bytes, by simp, hdigest⟩, fun k hk => by simp [Std.ExtTreeMap.getElem?_insert, hk.symm]⟩
  unfold repairObject at h
  cases hp : target[hash]? with
  | none =>
    simp only [hp] at h
    exact hcopy h
  | some bytes =>
    simp only [hp] at h
    obtain ⟨found, hfound, h⟩ := bind_eq_ok.mp h
    split_ifs at h with heq
    · obtain rfl := pure_eq_ok.mp h
      exact ⟨⟨bytes, hp, heq ▸ hfound⟩, fun _ _ => rfl⟩
    · obtain ⟨hintact, hrest⟩ := hcopy h
      exact ⟨hintact, fun k hk => by rw [hrest k hk, Std.ExtTreeMap.getElem?_erase]; simp [hk.symm]⟩

/-- After a repair, all objects that the index names are intact, whatever was there before, and no other object has
changed. -/
theorem repairs {n : ℕ} (h : objectHashes i (repairObject P source) target = .ok (copies, n)) :
    (∀ hash ∈ i.objectHashes, Intact P copies hash) ∧ ∀ hash ∉ i.objectHashes, copies[hash]? = target[hash]? := by
  have hvisit : ∀ t hash t', hash ∈ i.objectHashes → isHash hash = true → (∀ k ∉ i.objectHashes, t[k]? = target[k]?) →
      repairObject P source t hash = .ok t' →
      (∀ k ∉ i.objectHashes, t'[k]? = target[k]?) ∧ Intact P t' hash ∧ ∀ k, Intact P t k → Intact P t' k := by
    intro t hash t' hh _ ht h
    obtain ⟨hintact, hrest⟩ := repairObject_ok h
    refine ⟨fun k hk => ?_, hintact, fun k hk => ?_⟩
    · rw [hrest k (fun hkh => hk (hkh ▸ hh)), ht k hk]
    · by_cases hkh : k = hash
      · exact hkh ▸ hintact
      · obtain ⟨bytes, hb, hdigest⟩ := hk
        exact ⟨bytes, (hrest k hkh).trans hb, hdigest⟩
  obtain ⟨hI, -, hD⟩ := visits (D := fun hash t => Intact P t hash) hvisit (fun _ _ => rfl) h
  exact ⟨fun hash hh => (hD hash hh).2, hI⟩

end Backup

namespace Backup

variable {P : Platform} {i : Index} {objects : Std.ExtTreeMap String Bytes} {config : Config} {c : Checkpoint}

/-- What `store` has written passes the check, and can be copied back. -/
theorem store_eq_ok (hepoch : isHash config.epoch = true) (h : store P config i objects = .ok c) :
    verify P c = .ok config ∧ c.index = i.copied ∧
      (∀ hash bytes, c.objects[hash]? = some bytes ↔ hash ∈ i.objectHashes ∧ objects[hash]? = some bytes) ∧
      ∃ n, objectHashes c.index (copyPrivate P c.objects) ∅ = .ok (c.objects, n) := by
  obtain ⟨⟨⟩, hvalid, h⟩ := bind_eq_ok.mp h
  obtain ⟨⟨copies, n⟩, hcopies, h⟩ := bind_eq_ok.mp h
  obtain rfl := pure_eq_ok.mp h
  obtain ⟨hexact, rfl, hintact⟩ := copies_eq_ok hcopies
  have hi := ((validate_exact P i.copied _).mp hvalid).2.2.1
  have hmine : ∀ hash ∈ i.copied.objectHashes, Intact P copies hash := fun hash hh => by
    obtain ⟨bytes, hb, hdigest⟩ := hintact hash hh
    exact ⟨bytes, (hexact hash bytes).mpr ⟨hh, hb⟩, hdigest⟩
  have hsize : copies.size = i.copied.objectHashes.length := by
    rw [← Std.ExtTreeMap.length_keys]
    refine ((List.perm_ext_iff_of_nodup Std.ExtTreeMap.nodup_keys nodup_objectHashes).mpr fun hash => ?_).length_eq
    rw [Std.ExtTreeMap.mem_keys, Std.ExtTreeMap.mem_iff_isSome_getElem?, Option.isSome_iff_exists]
    exact ⟨fun ⟨bytes, hb⟩ => ((hexact hash bytes).mp hb).1, fun hh => (hmine hash hh).imp fun _ h => h.1⟩
  refine ⟨bind_eq_ok.mpr ⟨(), openCheckpoint_eq_ok.mpr ⟨hepoch, hvalid, hmine, rfl⟩,
    ensure_bind_eq_ok.mpr ⟨hsize, rfl⟩⟩, rfl, hexact, ?_⟩
  obtain ⟨again, hagain⟩ := copies_ok (fun hash hh => isHash_of_mem hi hh) hmine
  obtain ⟨hexact', -, -⟩ := copies_eq_ok hagain
  have : again = copies := Std.ExtTreeMap.ext_getElem? fun hash => Option.ext fun bytes => by
    rw [hexact', hexact]
    exact ⟨fun h => h.2, fun h => ⟨h.1, h⟩⟩
  exact ⟨_, this ▸ hagain⟩

/-- Nothing stops `store` when the tables are in order and the objects there. -/
theorem store_ok (hvalid : (i.copied.snapshot P).validate P config.epoch = .ok ())
    (h : ∀ hash ∈ i.objectHashes, Intact P objects hash) :
    ∃ c, store P config i objects = .ok c := by
  have hi := ((validate_exact P i.copied _).mp hvalid).2.2.1
  obtain ⟨copies, hcopies⟩ := copies_ok (i := i.copied) (fun hash hh => isHash_of_mem hi hh) h
  exact ⟨_, bind_eq_ok.mpr ⟨(), hvalid, bind_eq_ok.mpr ⟨_, hcopies, rfl⟩⟩⟩

end Backup

/-! ### The states of a share, with its objects -/

namespace Share

variable {β : Type} {P : Platform} {W : Wire β} {shown : Bool} {s s' : Share β} {hash : String}

variable (P W shown) in
/-- The states that a share may be in. Any checkpoint that passes the check may be taken over. Where what stands in
the folder counts, there are no decisions. -/
inductive Stored : Share β → Prop where
  /-- It was just created. -/
  | create {s : Share β} : Created s → s.objects = ∅ → Stored s
  /-- It was just imported from a checkpoint. -/
  | import_ {s : Share β} {c : Checkpoint} {n : ℕ} : Backup.openCheckpoint P c = .ok () →
      Backup.objectHashes c.index (Backup.copyPrivate P c.objects) ∅ = .ok (s.objects, n) →
      Restored c.index true s → s.config.mode = .receiveOnly → Stored s
  /-- Its index was just replaced by that of a checkpoint. -/
  | recover {s s' : Share β} {c : Checkpoint} {n : ℕ} : Stored s → Backup.openCheckpoint P c = .ok () →
      Backup.objectHashes c.index (Backup.repairObject P c.objects) s.objects = .ok (s'.objects, n) →
      Restored c.index (decide (s.config.mode ≠ .sendOnly)) s' → s'.config.mode = s.config.mode → Stored s'
  /-- A program runs, and may stop here. -/
  | run {s s' : Share β} (op : Op) {q : Io (Share β) Unit} : Stored s →
      (shown = true → ∀ path revision historical, op ≠ .choose path revision historical) →
      Prog.Reaches Outside (op.program P W) s q s' → Stored s'

/-- Taking over an index whose objects are there. -/
theorem stock_restored {c : Index} {pending : Bool} (h : Restored c pending s) (hright : Backup.Right P s.objects)
    (hnamed : ∀ hash ∈ c.objectHashes, hash ∈ s.objects) : Stock P shown false s := by
  have hindex := h.index
  refine ⟨hright, fun hash hn => ?_, ?_, ?_, fun path => ?_⟩
  · rw [hindex] at hn
    refine hnamed hash (Index.mem_objectHashes.mpr ?_)
    have hn : c.Named shown hash := hn
    exact hn.imp_right fun h => ⟨rfl, h.2⟩
  · rintro hash ⟨path, v, hv, -⟩
    rw [hindex] at hv
    simp [Index.restore] at hv
  · intro path hash hs
    rw [h.seen] at hs
    simp at hs
  · rw [h.seen]
    simp

/-- The objects are in order in every state. -/
theorem Stored.stock (h : Stored P W shown s) : Stock P shown false s := by
  induction h with
  | create h ho =>
    refine ⟨fun hash bytes hb => by simp [ho] at hb, fun hash hn => ?_, ?_, ?_, fun path => ?_⟩
    · rw [h.index] at hn
      rcases Index.named_iff.mp hn with ⟨path, l, hl, -⟩ | ⟨e, he, -⟩
      · simp [Index.create] at hl
      · simp [Index.create] at he
    · rintro hash ⟨path, v, hv, -⟩
      rw [h.index] at hv
      simp [Index.create] at hv
    · intro path hash hs
      rw [h.seen] at hs
      simp at hs
    · rw [h.seen]
      simp
  | import_ hc ho h _ =>
    obtain ⟨hcopies, -, hintact⟩ := Backup.copies_eq_ok ho
    refine stock_restored h (fun hash bytes hb => ?_) fun hash hh => ?_
    · obtain ⟨hh, hb⟩ := (hcopies hash bytes).mp hb
      obtain ⟨bytes', hb', hdigest⟩ := hintact hash hh
      obtain rfl := Option.some.inj (hb.symm.trans hb')
      exact hdigest
    · obtain ⟨bytes, hb, -⟩ := hintact hash hh
      exact Std.ExtTreeMap.mem_iff_isSome_getElem?.mpr (by rw [(hcopies hash bytes).mpr ⟨hh, hb⟩]; rfl)
  | @recover s s' c n _ hc ho h _ ih =>
    obtain ⟨hintact, hrest⟩ := Backup.repairs ho
    refine stock_restored h (fun hash bytes hb => ?_) fun hash hh => ?_
    · by_cases hh : hash ∈ c.index.objectHashes
      · obtain ⟨bytes', hb', hdigest⟩ := hintact hash hh
        obtain rfl := Option.some.inj (hb.symm.trans hb')
        exact hdigest
      · exact ih.right hash bytes (hrest hash hh ▸ hb)
    · obtain ⟨bytes, hb, -⟩ := hintact hash hh
      exact Std.ExtTreeMap.mem_iff_isSome_getElem?.mpr (by rw [hb]; rfl)
  | run op _ hop h ih => exact ((stocks_program op hop _ ih).reaches h).inv

/-- The tables are in order in every state. -/
theorem Stored.tables (hhash : ∀ bytes, isHash (P.blake3 bytes) = true) (h : Stored P W shown s) :
    s.index.Sound P ∧ s.index.Numbered := by
  have hrestored : ∀ {s : Share β} {c : Checkpoint} {pending : Bool}, Backup.openCheckpoint P c = .ok () →
      Restored c.index pending s → s.index.Sound P ∧ s.index.Numbered := by
    intro s c pending hc h
    obtain ⟨-, -, hi, hn⟩ := (validate_exact P c.index _).mp (Backup.openCheckpoint_eq_ok.mp hc).2.1
    rw [h.index]
    exact ⟨⟨hi.rows, fun _ _ h => by simp [Index.restore] at h, hi.history, hi.pending, hi.ceiling⟩, hn.range, hn.inj⟩
  induction h with
  | create h _ =>
    rw [h.index]
    exact ⟨⟨fun _ _ h => by simp [Index.create] at h, fun _ _ h => by simp [Index.create] at h,
      fun _ h => by simp [Index.create] at h, fun _ h => by simp [Index.create] at h, Nat.zero_le _⟩,
      fun _ _ h => by simp [Index.create] at h, fun _ _ _ _ h => by simp [Index.create] at h⟩
  | import_ hc _ h _ => exact hrestored hc h
  | recover _ hc _ h _ => exact hrestored hc h
  | run op hs _ h ih =>
    obtain ⟨hchain, -⟩ := (works_program op).chain ⟨rfl, hs.stock.plain⟩ h
    exact ⟨hchain.sound hhash ih.1, hchain.numbered ih.2⟩

/-- The configuration and the index name one generation. -/
theorem Stored.epoch (h : Stored P W shown s) : s.index.epoch = s.config.epoch := by
  induction h with
  | create h _ => rw [h.index]; rfl
  | import_ _ _ h _ | recover _ _ _ h _ => rw [h.index]; rfl
  | run op hs _ h ih => exact (works_program op).epoch ⟨rfl, hs.stock.plain⟩ h ih

theorem Stored.intact (h : Stored P W shown s) (hn : s.index.Named shown hash) : Backup.Intact P s.objects hash := by
  obtain ⟨bytes, hb⟩ := Option.isSome_iff_exists.mp (Std.ExtTreeMap.mem_iff_isSome_getElem?.mp (h.stock.named hash hn))
  exact ⟨bytes, hb, h.stock.right hash bytes hb⟩

end Share

/-- **No object is missing.** In every state of a share, whatever checkpoints were imported or recovered from, every
revision of a file has its bytes among the objects, under their hash. Without decisions the same is true of the files
that stand in the folder according to the index. -/
theorem objects_complete {β : Type} (P : Platform) (W : Wire β) (shown : Bool) (s : Share β)
    (h : Share.Stored P W shown s)
    (hash : String) (hn : hash ∈ s.index.revisionHashes ∨ shown = true ∧ hash ∈ s.index.objectHashes) :
    ∃ bytes, s.objects[hash]? = some bytes ∧ P.blake3 bytes = hash := by
  have hnamed : s.index.Named shown hash := by
    rcases hn with hn | ⟨rfl, hn⟩
    · exact .inl hn
    · exact Index.mem_objectHashes.mp hn
  obtain ⟨bytes, hb, hdigest⟩ := h.intact hnamed
  exact ⟨bytes, hb, (Share.digest_eq_ok.mp hdigest).2⟩

/-- A share like `generated`, with a file in the folder, after a scan. -/
def Share.stocked : Share Unit :=
  (Fallible.run ((Share.Op.scan false).program .padded Share.silent)
    { Share.generated with files := (Share.generated.files.setInode 1 ⟨utf8 "x", 0⟩).add ["n"] (.file 1) }).2

theorem Share.stored_stocked : Share.Stored .padded Share.silent true Share.stocked :=
  .run (.scan false) (.create ⟨rfl, rfl⟩ rfl) (fun _ _ _ _ => by simp) (Prog.reaches_run _ _ _)

/-- The file that was scanned has its bytes. -/
theorem objects_complete_scanned : ∃ bytes, Share.stocked.objects[Platform.padded.blake3 (utf8 "x")]? = some bytes ∧
    Platform.padded.blake3 bytes = Platform.padded.blake3 (utf8 "x") :=
  objects_complete .padded Share.silent true Share.stocked Share.stored_stocked _ (.inl (by decide +kernel))

/-- **A checkpoint can be made at any time.** In every state of a share without decisions, a checkpoint is made if the
folder is where it should be. Whatever others do meanwhile, one that is made passes the check, holds exactly the
objects that the index names, and an import copies all of them. -/
theorem checkpoint_complete {β : Type} (P : Platform) (hhash : ∀ bytes, isHash (P.blake3 bytes) = true)
    (hexpand : ∀ path, (collisionKey P path).utf8ByteSize ≤ 8 * path.utf8ByteSize) (W : Wire β) (s : Share β)
    (h : Share.Stored P W true s) (hgeneration : isHash s.config.epoch = true) :
    ((∃ c, (Library.Fallible.run (Backup.capture P) s).1 = .ok c) ↔ (Library.Fallible.run Share.checkRoot s).1 = .ok ()) ∧
      ∀ c s', Prog.Reaches Share.Outside (Backup.capture P) s (.ret (.ok c)) s' →
        Backup.verify P c = .ok c.config ∧ c.index = s.index.copied ∧
          (∀ hash bytes, c.objects[hash]? = some bytes ↔ hash ∈ s.index.objectHashes ∧ s.objects[hash]? = some bytes) ∧
          ∃ n, Backup.objectHashes c.index (Backup.copyPrivate P c.objects) ∅ = .ok (c.objects, n) := by
  have hepoch := h.epoch
  obtain ⟨hi, hn⟩ := h.tables hhash
  have hcopied : s.index.copied.Sound P := ⟨hi.rows, fun _ _ h => by simp [Index.copied] at h, hi.history,
      hi.pending, hi.ceiling⟩
  have hvalid : (s.index.copied.snapshot P).validate P s.config.epoch = .ok () :=
    (validate_exact P s.index.copied _).mpr ⟨bounded_snapshot hhash hexpand hcopied (hepoch ▸ hgeneration), hepoch,
      hcopied, ⟨hn.range, hn.inj⟩⟩
  have hintact : ∀ hash ∈ s.index.objectHashes, Backup.Intact P s.objects hash := fun hash hh =>
    h.intact (Index.mem_objectHashes.mp hh)
  constructor
  · obtain ⟨c, hc⟩ := Backup.store_ok hvalid hintact
    have hrun : (Fallible.run (Backup.capture P) s).1 = (Fallible.run Share.checkRoot s).1.map fun _ => c := by
      simp only [Backup.capture, Fallible.run_bind, Fallible.run_look, Fallible.lift_eq, Fallible.run_ofExcept, hc]
      rcases Fallible.run Share.checkRoot s with ⟨e | ⟨⟨⟩⟩, t⟩ <;> rfl
    rw [hrun]
    rcases (Fallible.run Share.checkRoot s).1 with e | ⟨⟨⟩⟩
    · simp [Except.map]
    · simp [Except.map]
  · intro c s' hr
    have hcapture : Triple (Share.stocking P true) (Share.Holds P true false s.index s.objects)
        (Backup.capture P : Io (Share β) Checkpoint)
        (outcome (fun c s' => Share.Holds P true false s.index s.objects s' ∧ ∃ config,
          Backup.store P config s.index s.objects = .ok c)
          fun _ => Share.Stock P true false) := by
      refine Triple.seq (Share.holds_look (V := fun read => read.2 = (s.index, s.objects)) fun s' hs => ?_)
          fun read hread => ?_
      · rw [← hs.index, ← hs.objects]
      · obtain ⟨config, index, objects⟩ := read
        obtain ⟨rfl, rfl⟩ := Prod.mk.inj hread
        refine Triple.seq Share.holds_lift fun c hc => Triple.seq (Share.holds_still Share.still_checkRoot) fun _ _ => ?_
        exact Triple.ofExcept Share.stable_holds (fun _ h => h.stock) fun _ hs => ⟨hs, config, hc⟩
    obtain ⟨-, config, hc⟩ := ((hcapture s ⟨h.stock, rfl, rfl⟩).reaches hr).post_of_ret
    have hsame : s.index.epoch = config.epoch := by
      obtain ⟨⟨⟩, hvalid, -⟩ := bind_eq_ok.mp hc
      exact ((validate_exact P s.index.copied _).mp hvalid).2.1
    obtain ⟨hverify, hrest⟩ := Backup.store_eq_ok (hsame ▸ hepoch ▸ hgeneration) hc
    obtain rfl : c.config = config := by
      obtain ⟨⟨⟩, -, hverify⟩ := bind_eq_ok.mp hverify
      exact pure_eq_ok.mp (ensure_bind_eq_ok.mp hverify).2
    exact ⟨hverify, hrest⟩

/-- A checkpoint of the share that was scanned. -/
theorem checkpoint_complete_scanned : ∃ c, (Fallible.run (Backup.capture .padded) Share.stocked).1 = .ok c :=
  (checkpoint_complete .padded Platform.padded_isHash collisionKey_padded Share.silent Share.stocked Share.stored_stocked
    (by decide +kernel)).1.mpr (by decide +kernel)

end Everywhere

