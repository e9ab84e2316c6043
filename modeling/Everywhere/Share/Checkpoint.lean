import Everywhere.Share.Reachable

/-!
# Checkpoints

A checkpoint holds a copy of the index (`Index.snapshot`). Before it is used, and when it is made, the copy is checked
(`Snapshot.validate`): a checkpoint may have been changed by others. What the check demands is stated nowhere else in
the program.

* `Sound` — what the tables of an index have in common at all times, with `Chain.sound` for one transaction.
* `snapshot_valid` — **the check accepts every index of a share**, in every state that the share may be in.
-/

namespace Everywhere

open Library

/-! ### The tables of a checkpoint -/

/-- A line of the table of the paths. -/
structure EntryRow where
  /-- The path. -/
  path : String
  /-- Its collision key. -/
  alias_ : String
  /-- The version set. -/
  versions : Versions
  /-- What stands in the folder. -/
  materialized : Option Content
  /-- What the user has seen. -/
  observed : Versions
  /-- The number of the last change. -/
  seq : ℕ
  deriving DecidableEq

/-- A copy of an index. -/
structure Snapshot where
  /-- The version of the tables. -/
  schema : String
  /-- The generation of the index. -/
  epoch : String
  /-- The number of the last change. -/
  seq : ℕ
  /-- The paths. -/
  entries : List EntryRow
  /-- The missing paths that await a decision. -/
  pending : List String
  /-- The revisions that are kept. -/
  history : List Retained
  deriving DecidableEq

/-- The text of what stands in the folder. -/
def shown (m : Option Content) : Bytes := (m.elim Json.null Content.toJson).render

variable (P : Platform)

/-- The copy of an index. -/
def Index.snapshot (i : Index) : Snapshot where
  schema := "1"
  epoch := i.epoch
  seq := i.seq
  entries := i.entries.toList.map fun e =>
    ⟨e.1, collisionKey P e.1, e.2.versions, e.2.materialized, e.2.observed, e.2.seq⟩
  pending := i.pending.toList
  history := i.history

/-- The check of a version set. -/
def validateVersions (v : Versions) (nonempty : Bool) : Result Unit := do
  ensure (v.size ≤ 64 * 1024) "checkpoint version metadata exceeds 64 KiB"
  ensure (nonempty = false ∨ v.heads ≠ []) "empty checkpoint version set"
  let joined ← Versions.default.join P v
  ensure (joined = v) "invalid checkpoint causal heads"

/-- No line of a table is too long. -/
def Snapshot.bounded (d : Snapshot) : Bool :=
  (d.entries.all fun r => r.versions.size ≤ 65536 ∧ r.observed.size ≤ 65536 ∧
    (shown r.materialized).length ≤ 1024 ∧ r.path.utf8ByteSize ≤ 16384 ∧ r.alias_.utf8ByteSize ≤ 32768) &&
  (d.history.all fun e => e.revision.toJson.render.length ≤ 65536 ∧ e.path.utf8ByteSize ≤ 16384 ∧ e.id.length ≤ 64) &&
  ([d.schema, d.epoch, toString d.seq].all fun value => value.length ≤ 128)

/-- The check of a line of the table of the paths. -/
def EntryRow.validate (ceiling : ℕ) (r : EntryRow) : Result Unit := do
  validatePath r.path
  ensure (r.alias_ = collisionKey P r.path) "checkpoint path alias mismatch"
  validateVersions P r.versions true
  validateVersions P r.observed false
  ensure (r.materialized ≠ some .deleted) "invalid checkpoint materialization"
  match r.materialized with
  | some (.file hash) => ensure (isHash hash) "invalid peer fingerprint"
  | _ => pure ()
  ensure (0 < r.seq ∧ r.seq ≤ ceiling) "checkpoint entry sequence is out of range"

/-- The check of a revision that is kept. -/
def Retained.validate (e : Retained) : Result Unit := do
  validatePath e.path
  ensure (e.revision.id P = e.id) "checkpoint historical revision hash mismatch"
  let _ ← Versions.default.join P ⟨[e.revision]⟩
  pure ()

/-- The check of the tables of a checkpoint. -/
def Snapshot.validate (d : Snapshot) (epoch : String) : Result Unit := do
  ensure (d.bounded = true) "checkpoint row exceeds metadata limits"
  ensure (d.epoch = epoch) "checkpoint epoch mismatch"
  ensure (d.schema = "1") "unsupported checkpoint schema version"
  ensure (d.seq ≤ i64Max) "invalid checkpoint sequence"
  d.entries.forM (EntryRow.validate P d.seq)
  ensure (d.entries.map (·.seq)).Nodup "duplicate checkpoint entry sequences"
  ensure (∀ path ∈ d.pending, path ∈ d.entries.map (·.path)) "orphaned checkpoint deletion review"
  d.history.forM (Retained.validate P)

variable {P}

/-! ### One revision of a version set -/

namespace Versions

variable {v : Versions} {r : Revision}

theorem size_singleton_le (hr : r ∈ v.heads) : (⟨[r]⟩ : Versions).size ≤ v.size ∧
    r.toJson.render.length ≤ v.size := by
  have hle := Json.length_render_le_renderItems (List.mem_map_of_mem (f := Revision.toJson) hr)
  simp only [size, toJson, Json.render, Json.renderMembers, List.length_cons, List.length_append, List.length_nil,
    List.map_cons, List.map_nil, Json.renderItems]
  omega

/-- Each head is a version set by itself. -/
theorem Canonical.singleton (h : v.Canonical P) (hr : r ∈ v.heads) : (⟨[r]⟩ : Versions).Canonical P := by
  refine ⟨⟨(size_singleton_le hr).1.trans h.size_le, by simp, ?_⟩, by simp, ?_, ?_⟩
  · rintro x hx
    rw [List.mem_singleton.mp hx]
    exact h.valid r hr
  · exact h.antichain.subset fun x (hx : x ∈ [r]) => List.mem_singleton.mp hx ▸ hr
  · exact h.consistent.mono fun x (hx : x ∈ [r]) => List.mem_singleton.mp hx ▸ hr

/-- A merge with something is something. -/
theorem join_ne_nil {a b c : Versions} (h : a.join P b = .ok c) (ha : a.heads ++ b.heads ≠ []) : c.heads ≠ [] := by
  obtain ⟨-, -, -, hc, -, -⟩ := join_eq_ok.mp h
  obtain ⟨x, hx⟩ := List.exists_mem_of_ne_nil _ ha
  obtain ⟨y, hy, -⟩ := exists_mem_canon (Revision.id P) hx
  obtain ⟨z, hz, -⟩ := exists_frontier_ge (s := {x | x ∈ canon (Revision.id P) (a.heads ++ b.heads)})
    (List.finite_toSet _) hy
  rw [hc]
  exact List.ne_nil_of_mem (mem_maximal.mpr hz)

end Versions

/-! ### What the tables have in common at all times -/

/-- What stands in the folder is no deletion, and if it is a file, its hash is one. -/
def Plain (m : Option Content) : Prop := m ≠ some .deleted ∧ ∀ hash, m = some (.file hash) → isHash hash = true

/-- A row is in order. -/
structure Row.Sound (P : Platform) (l : Row) : Prop where
  /-- The version set is in canonical form, and not empty. -/
  versions : l.versions.Proper P
  /-- What the user has seen is in canonical form. -/
  observed : l.observed.Canonical P
  /-- What stands in the folder. -/
  plain : Plain l.materialized

/-- A kept revision is in order. -/
structure Retained.Sound (P : Platform) (e : Retained) : Prop where
  /-- Its path is portable. -/
  path : validatePath e.path = .ok ()
  /-- Its identifier is its own. -/
  id : e.id = e.revision.id P
  /-- It is a version set by itself. -/
  canonical : (⟨[e.revision]⟩ : Versions).Canonical P

namespace Index

/-- The tables of an index are in order. -/
structure Sound (P : Platform) (i : Index) : Prop where
  /-- The rows are, and their paths are portable. -/
  rows : ∀ (path : String) (l : Row), i.entries[path]? = some l → validatePath path = .ok () ∧ l.Sound P
  /-- What was taken in is in its proper form. -/
  incoming : ∀ (path : String) (v : Versions), i.incoming[path]? = some v → v.Proper P
  /-- The revisions kept are in order. -/
  history : ∀ e ∈ i.history, e.Sound P
  /-- Only a path that has a row awaits a decision. -/
  pending : ∀ path ∈ i.pending, path ∈ i.entries
  /-- The number of the last change is one of 64 bits. -/
  ceiling : i.seq ≤ i64Max

variable {replica path : String} {approve settle : Bool} {i i' : Index} {v o : Versions} {m : Option Content}

theorem plain_visible {r : Revision} (hr : r.Valid) : Plain (visible r.content) := by
  refine ⟨visible_ne _, fun hash h => ?_⟩
  cases hc : r.content with
  | file hash' =>
    rw [hc] at h
    obtain rfl : hash' = hash := by simpa [visible] using h
    exact hr.isHash hc
  | directory | deleted => simp [hc, visible] at h

theorem plain_some {r : Revision} {content : Content} (hr : r.Valid) (h : r.content = content)
    (hc : content ≠ .deleted) : Plain (some content) := by
  rw [← visible_of_ne hc, ← h]
  exact plain_visible hr

theorem plain_of_hashed (hhash : ∀ bytes, isHash (P.blake3 bytes) = true) (h : Hashed P m) : Plain m := by
  refine ⟨by rintro rfl; exact h, fun hash hm => ?_⟩
  subst hm
  obtain ⟨bytes, rfl⟩ := h
  exact hhash bytes

theorem nil_append_ne {α : Type} {a b : List α} (ha : a ≠ []) : a ++ b ≠ [] := by simp [ha]

/-- Every call of `save` writes a row that is in order. -/
theorem Saves.sound_row (hhash : ∀ bytes, isHash (P.blake3 bytes) = true) (hi : i.Sound P)
    (h : Saves P replica approve i path i') :
    ∃ v m o, i.save P path v m o = .ok i' ∧ (⟨v, m, o, i.nextSeq path v⟩ : Row).Sound P := by
  cases h with
  | adopt hp _ hhead hc h =>
    have hl := (hi.rows _ _ hp).2
    obtain ⟨r, hr, hrc⟩ := hhead
    refine ⟨_, _, _, h, hl.versions, ?_, plain_some (hl.versions.canonical.valid r hr) hrc hc⟩
    dsimp only
    split_ifs
    · exact hl.versions.canonical
    · exact hl.observed
  | found _ hc hm h =>
    obtain ⟨e, rfl, he, -, hmine⟩ := Versions.edit_ok hm
    exact ⟨_, _, _, h, ⟨hmine, by simp⟩, hmine, plain_some (hmine.valid e (by simp)) he hc⟩
  | edit hp _ hm hj h =>
    obtain ⟨e, rfl, rfl, -, hmine⟩ := Versions.edit_ok hm
    have hne := Versions.join_ne_nil hj (nil_append_ne (hi.rows _ _ hp).2.versions.nonempty)
    exact ⟨_, _, _, h, ⟨Versions.canonical_join hj, hne⟩, hmine, plain_visible (hmine.valid e (by simp))⟩
  | applied hp hr h =>
    have hl := (hi.rows _ _ hp).2
    exact ⟨_, _, _, h, hl.versions, hl.versions.canonical,
      plain_visible (hl.versions.canonical.valid _ (Versions.selected_mem hr))⟩
  | learned _ hin h =>
    exact ⟨_, _, _, h, hi.incoming _ _ hin, Versions.canonical_default P, by simp [Plain]⟩
  | merged hp _ hj h =>
    have hl := (hi.rows _ _ hp).2
    have hne := Versions.join_ne_nil hj (nil_append_ne hl.versions.nonempty)
    exact ⟨_, _, _, h, ⟨Versions.canonical_join hj, hne⟩, hl.observed, hl.plain⟩
  | chosen hp _ he ha h =>
    obtain ⟨e, rfl, -, -, hv⟩ := Versions.edit_ok he
    exact ⟨_, _, _, h, ⟨hv, by simp⟩, (hi.rows _ _ hp).2.observed, plain_of_hashed hhash ha⟩

theorem mem_of_foldl_retain {rs : List Revision} {history : List Retained} {e : Retained}
    (h : e ∈ rs.foldl (retain P path) history) : e ∈ history ∨ ∃ r ∈ rs, e = ⟨path, r.id P, r⟩ := by
  induction rs generalizing history with
  | nil => exact .inl h
  | cons r rs ih =>
    rcases ih h with h | ⟨r', hr', rfl⟩
    · unfold retain at h
      split_ifs at h
      · exact .inl h
      · rcases List.mem_append.mp h with h | h
        · exact .inl h
        · exact .inr ⟨r, by simp, List.mem_singleton.mp h⟩
    · exact .inr ⟨r', by simp [hr'], rfl⟩

/-- Writing a row that is in order keeps the tables in order. -/
theorem Sound.save (hi : i.Sound P) (hl : (⟨v, m, o, i.nextSeq path v⟩ : Row).Sound P)
    (h : i.save P path v m o = .ok i') : i'.Sound P := by
  have hentries := save_entries h
  have hincoming := save_incoming h
  obtain ⟨hpath, hseq, -, hi'⟩ := save_eq_ok.mp h
  have hmem : ∀ q, q ∈ i'.entries ↔ q = path ∨ q ∈ i.entries := by
    intro q
    rw [hi', Std.ExtTreeMap.mem_insert, Std.LawfulEqCmp.compare_eq_iff_eq, eq_comm]
  refine ⟨fun q l hq => ?_, fun q w hw => hi.incoming q w (by rwa [← hincoming]),
    fun e he => ?_, fun q hq => ?_, ?_⟩
  · rw [hentries] at hq
    split_ifs at hq with hqp
    · obtain rfl := Option.some.inj hq
      exact ⟨hqp ▸ hpath, hl⟩
    · exact hi.rows q l hq
  · rw [hi'] at he
    rcases mem_of_foldl_retain he with he | ⟨r, hr, rfl⟩
    · exact hi.history e he
    · refine ⟨hpath, rfl, ?_⟩
      rcases List.mem_append.mp hr with hr | hr
      · cases hp : i.entries[path]? with
        | none => simp [hp] at hr
        | some l => exact (hi.rows path l hp).2.versions.canonical.singleton (by simpa [hp] using hr)
      · exact hl.versions.canonical.singleton hr
  · rw [hi'] at hq
    exact (hmem q).mpr (.inr (hi.pending q hq))
  · rw [hi']
    change (if _ then _ else _) ≤ _
    split_ifs with hc
    · exact hseq hc
    · exact hi.ceiling

theorem Sound.apart (hi : i.Sound P) (h : Apart P i i') : i'.Sound P := by
  obtain ⟨-, hentries, hhistory, hseq, hincoming, hpending⟩ := h
  refine ⟨by rw [hentries]; exact hi.rows, fun q w hw => (hincoming q w hw).elim (hi.incoming q w) id, by rw [hhistory]; exact hi.history,
    fun q hq => ?_, by rw [hseq]; exact hi.ceiling⟩
  rw [hentries]
  exact (hpending q hq).elim (hi.pending q) id

/-- Transactions keep the tables in order. -/
theorem Chain.sound (hhash : ∀ bytes, isHash (P.blake3 bytes) = true) (hi : i.Sound P)
    (h : Chain P replica approve settle i i') : i'.Sound P := by
  induction h with
  | refl => exact hi
  | tail _ h ih =>
    cases h with
    | save h =>
      obtain ⟨v, m, o, hs, hl⟩ := h.sound_row hhash ih
      exact ih.save hl hs
    | aside h | settle _ h => exact ih.apart h.toApart

end Index

theorem Share.Reachable.sound {β : Type} {W : Wire β} {s : Share β}
    (hhash : ∀ bytes, isHash (P.blake3 bytes) = true) (h : Reachable P W s) : s.index.Sound P := by
  refine (h.induction (I := Index.Sound P) (fun epoch => ?_) (fun i epoch pending hi => ?_)
    fun _ _ _ hi hc => hc.sound hhash hi).1
  · exact ⟨fun _ _ h => by simp [Index.create] at h, fun _ _ h => by simp [Index.create] at h, fun _ h => by simp [Index.create] at h,
      fun _ h => by simp [Index.create] at h, Nat.zero_le _⟩
  · exact ⟨hi.rows, fun _ _ h => by simp [Index.restore] at h, hi.history, hi.pending, hi.ceiling⟩

/-! ### The check accepts them -/

section check

variable {i : Index}

theorem length_le_utf8ByteSize (s : String) : s.length ≤ s.utf8ByteSize := by
  obtain ⟨l, rfl⟩ : ∃ l, s = String.ofList l := ⟨s.toList, by simp⟩
  induction l with
  | nil => simp
  | cons c l ih =>
    have hc := c.utf8Size_pos
    rw [String.ofList_cons, String.length_append, String.utf8ByteSize_append, String.length_singleton,
      String.utf8ByteSize_singleton]
    omega

theorem length_le_of_isHash {s : String} (h : isHash s = true) : s.utf8ByteSize = 64 ∧ s.length ≤ 64 :=
  ⟨size_of_isHash h, size_of_isHash h ▸ length_le_utf8ByteSize s⟩

theorem length_shown_le {m : Option Content} (h : Plain m) : (shown m).length ≤ 1024 := by
  match m with
  | none => decide
  | some .directory => decide
  | some .deleted => exact absurd rfl h.1
  | some (.file hash) =>
    have hlen := Json.length_quoted_le hash
    rw [(length_le_of_isHash (h.2 hash rfl)).1] at hlen
    have hfile : (Json.quoted "kind").length + (Json.quoted "file").length + (Json.quoted "hash").length ≤ 18 := by decide
    simp only [shown, Option.elim_some, Content.toJson, Json.render, Json.renderMembers, List.length_cons,
      List.length_append, List.length_nil]
    omega

theorem size_le_of_validatePath {path : String} (h : validatePath path = .ok ()) : path.utf8ByteSize ≤ 4096 :=
  (ensure_bind_eq_ok.mp h).1.2

theorem validateVersions_ok {v : Versions} (h : v.Canonical P) {nonempty : Bool} (hne : nonempty = false ∨ v.heads ≠ []) :
    validateVersions P v nonempty = .ok () :=
  ensure_bind_eq_ok.mpr ⟨h.size_le, ensure_bind_eq_ok.mpr ⟨hne, bind_eq_ok.mpr ⟨v, Versions.join_default.mpr h,
    ensure_eq_ok.mpr rfl⟩⟩⟩

theorem EntryRow.validate_ok {path : String} {l : Row} {ceiling : ℕ} (hpath : validatePath path = .ok ())
    (hl : l.Sound P) (hseq : 0 < l.seq ∧ l.seq ≤ ceiling) :
    EntryRow.validate P ceiling ⟨path, collisionKey P path, l.versions, l.materialized, l.observed, l.seq⟩ = .ok () := by
  refine bind_eq_ok.mpr ⟨(), hpath, ensure_bind_eq_ok.mpr ⟨rfl, bind_eq_ok.mpr ⟨(), ?_, bind_eq_ok.mpr ⟨(), ?_,
    ensure_bind_eq_ok.mpr ⟨hl.plain.1, ?_⟩⟩⟩⟩⟩
  · exact validateVersions_ok hl.versions.canonical (.inr hl.versions.nonempty)
  · exact validateVersions_ok hl.observed (.inl rfl)
  · dsimp only
    split
    next hash hm => exact ensure_bind_eq_ok.mpr ⟨hl.plain.2 hash hm, ensure_eq_ok.mpr hseq⟩
    next => exact ensure_eq_ok.mpr hseq

theorem Retained.validate_ok {e : Retained} (h : e.Sound P) : Retained.validate P e = .ok () :=
  bind_eq_ok.mpr ⟨(), h.path, ensure_bind_eq_ok.mpr ⟨h.id.symm, bind_eq_ok.mpr ⟨_,
    Versions.join_default.mpr h.canonical, rfl⟩⟩⟩

theorem bounded_snapshot (hhash : ∀ bytes, isHash (P.blake3 bytes) = true)
    (hexpand : ∀ path, (collisionKey P path).utf8ByteSize ≤ 8 * path.utf8ByteSize) (hi : i.Sound P)
    (hepoch : isHash i.epoch = true) : (i.snapshot P).bounded = true := by
  simp only [Snapshot.bounded, Bool.and_eq_true, List.all_eq_true, decide_eq_true_iff]
  refine ⟨⟨fun r hr => ?_, fun e he => ?_⟩, ?_⟩
  · obtain ⟨⟨path, l⟩, hmem, rfl⟩ := List.mem_map.mp hr
    obtain ⟨hpath, hl⟩ := hi.rows path l (Std.ExtTreeMap.mem_toList_iff_getElem?_eq_some.mp hmem)
    have hsize := size_le_of_validatePath hpath
    have halias := hexpand path
    exact ⟨hl.versions.canonical.size_le, hl.observed.size_le, length_shown_le hl.plain, by dsimp only; omega,
      by dsimp only; omega⟩
  · have he := hi.history e he
    have hsize := size_le_of_validatePath he.path
    refine ⟨(Versions.size_singleton_le (v := ⟨[e.revision]⟩) (by simp)).2.trans he.canonical.size_le, by omega, ?_⟩
    rw [he.id]
    exact (length_le_of_isHash (hhash _)).2
  · have hdigits : (toString i.seq).length ≤ 19 := by
      refine (Nat.length_repr_le_iff (by omega)).mpr (hi.ceiling.trans_lt ?_)
      decide
    have := (length_le_of_isHash hepoch).2
    simp only [Index.snapshot, List.mem_cons, List.not_mem_nil, or_false]
    rintro value (rfl | rfl | rfl)
    · decide
    · omega
    · omega

theorem nodup_seq (hi : i.Numbered) : ((i.snapshot P).entries.map (·.seq)).Nodup := by
  have hnodup : i.entries.toList.Nodup :=
    Std.ExtTreeMap.distinct_keys_toList.imp fun {a b} h he => h (by rw [he]; exact Std.ReflCmp.compare_self)
  rw [Index.snapshot, List.map_map]
  refine hnodup.map_on fun a ha b hb hab => ?_
  have ha := Std.ExtTreeMap.mem_toList_iff_getElem?_eq_some.mp ha
  have hb := Std.ExtTreeMap.mem_toList_iff_getElem?_eq_some.mp hb
  obtain ⟨path, l⟩ := a
  obtain ⟨path', l'⟩ := b
  obtain rfl : path = path' := hi.inj _ _ _ _ ha hb hab
  exact congrArg (Prod.mk path) (Option.some.inj (ha.symm.trans hb))

end check

/-- **The check accepts every index of a share.** In every state that a share may be in, the copy of its index passes
the check of checkpoints. The generation of an index is a random identifier, and collision keys are at most eight
times as long as the paths. -/
theorem snapshot_valid {β : Type} (P : Platform) (hhash : ∀ bytes, isHash (P.blake3 bytes) = true)
    (hexpand : ∀ path, (collisionKey P path).utf8ByteSize ≤ 8 * path.utf8ByteSize) (W : Wire β) (s : Share β)
    (h : Share.Reachable P W s) (hepoch : isHash s.index.epoch = true) :
    (s.index.snapshot P).validate P s.index.epoch = .ok () := by
  have hi := h.sound hhash
  have hn := h.numbered
  refine ensure_bind_eq_ok.mpr ⟨bounded_snapshot hhash hexpand hi hepoch, ensure_bind_eq_ok.mpr ⟨rfl,
    ensure_bind_eq_ok.mpr ⟨rfl, ensure_bind_eq_ok.mpr ⟨hi.ceiling, bind_eq_ok.mpr ⟨(), forM_eq_ok.mpr fun r hr => ?_,
      ensure_bind_eq_ok.mpr ⟨nodup_seq hn, ensure_bind_eq_ok.mpr ⟨fun path hp => ?_, forM_eq_ok.mpr fun e he => ?_⟩⟩⟩⟩⟩⟩⟩
  · obtain ⟨⟨path, l⟩, hmem, rfl⟩ := List.mem_map.mp hr
    have hl := Std.ExtTreeMap.mem_toList_iff_getElem?_eq_some.mp hmem
    obtain ⟨hpath, hrow⟩ := hi.rows path l hl
    exact EntryRow.validate_ok hpath hrow (hn.range path l hl)
  · have hrow := hi.pending path (Std.ExtTreeSet.mem_toList.mp hp)
    obtain ⟨l, hl⟩ := Option.isSome_iff_exists.mp (Std.ExtTreeMap.mem_iff_isSome_getElem?.mp hrow)
    rw [List.mem_map]
    exact ⟨_, List.mem_map.mpr ⟨(path, l), Std.ExtTreeMap.mem_toList_iff_getElem?_eq_some.mpr hl, rfl⟩, rfl⟩
  · exact Retained.validate_ok (hi.history e he)

/-- A new share like `fresh`, whose generation is a digest. -/
def Share.generated : Share Unit where
  __ := fresh
  index := Index.create (String.ofList (List.replicate 64 '0'))
  config := { fresh.config with epoch := String.ofList (List.replicate 64 '0') }

theorem collisionKey_padded (path : String) :
    (collisionKey .padded path).utf8ByteSize ≤ 8 * path.utf8ByteSize := by
  have size (l : List Char) : (String.ofList (l.map Char.toUpper)).utf8ByteSize ≤
      4 * (String.ofList l).utf8ByteSize := by
    induction l with
    | nil => simp
    | cons c l ih =>
      have hc := c.utf8Size_pos
      have hu := c.toUpper.utf8Size_le_four
      rw [List.map_cons, String.ofList_cons, String.ofList_cons, String.utf8ByteSize_append,
        String.utf8ByteSize_append, String.utf8ByteSize_singleton, String.utf8ByteSize_singleton]
      omega
  have hkey : collisionKey .padded path = String.ofList (path.toList.map Char.toUpper) :=
    congrArg String.ofList (List.flatMap_pure_eq_map _ _)
  have hsize := size path.toList
  rw [hkey]
  rw [String.ofList_toList] at hsize
  omega

/-- After a first scan, the copy of the index passes. -/
theorem snapshot_valid_generated : ∃ s : Share Unit, (s.index.entries["d"]?).isSome ∧
    (s.index.snapshot .padded).validate .padded s.index.epoch = .ok () :=
  ⟨(Fallible.run ((Share.Op.scan false).program .padded Share.silent) Share.generated).2, by decide +kernel,
    snapshot_valid .padded Platform.padded_isHash collisionKey_padded Share.silent _
      (.run (.scan false) (.create ⟨rfl, rfl⟩) (Prog.reaches_run _ _ _)) (by decide +kernel)⟩

end Everywhere
