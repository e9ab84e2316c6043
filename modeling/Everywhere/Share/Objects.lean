import Everywhere.Share.Checkpoint

/-!
# The objects

The index names contents by their hashes, and the bytes are in the objects. A user who wants a revision back, a peer
that asks for an object and a checkpoint all rely on finding them there.

* `Gains` — what a transaction adds to the names, for each of them.
* `Stock` — the objects are in order: their names are their hashes, and what the index names is there.
* `stocks_program` — **every operation keeps the objects in order**, at every step and whatever others do.

What stands in the folder is counted among the names only as long as no decision was made: `choose` writes down what it
finds there without making an object of it, and when others change the file after the scan, the row names a content
that was never captured.
-/

namespace Everywhere

open Library

/-! ### The names -/

/-- A row names an object. -/
def Row.Names (shown : Bool) (l : Row) (hash : String) : Prop :=
  (∃ r ∈ l.versions.heads ++ l.observed.heads, Index.object r.content = some hash) ∨
    shown = true ∧ l.materialized.bind Index.object = some hash

namespace Index

/-- The revisions of an index. -/
def allRevisions (i : Index) : List Revision :=
  (i.entries.toList.flatMap fun e => e.2.versions.heads ++ e.2.observed.heads) ++ i.history.map (·.revision)

/-- The objects of the revisions. -/
def revisionHashes (i : Index) : List String := i.allRevisions.filterMap fun r => object r.content

/-- The objects of what stands in the folder. -/
def shownHashes (i : Index) : List String := i.entries.toList.filterMap fun e => e.2.materialized.bind object

/-- All objects that the index names, in order. -/
def objectHashes (i : Index) : List String := canon id (i.revisionHashes ++ i.shownHashes)

/-- The index names an object; what stands in the folder counts only if it is `shown`. -/
def Named (shown : Bool) (i : Index) (hash : String) : Prop :=
  hash ∈ i.revisionHashes ∨ shown = true ∧ hash ∈ i.shownHashes

variable {P : Platform} {shown approve : Bool} {replica path hash : String} {i i' i'' : Index} {l : Row}
  {v o : Versions} {m : Option Content} {new : String → Prop}

theorem named_iff : i.Named shown hash ↔
    (∃ (path : String) (l : Row), i.entries[path]? = some l ∧ l.Names shown hash) ∨
      ∃ e ∈ i.history, object e.revision.content = some hash := by
  simp only [Named, revisionHashes, shownHashes, allRevisions, List.mem_filterMap, List.mem_append, List.mem_flatMap,
    List.mem_map, Row.Names, ← Std.ExtTreeMap.mem_toList_iff_getElem?_eq_some]
  constructor
  · rintro (⟨r, ⟨e, he, hr⟩ | ⟨e, he, rfl⟩, hhash⟩ | ⟨hshown, e, he, hhash⟩)
    · exact .inl ⟨e.1, e.2, he, .inl ⟨r, hr, hhash⟩⟩
    · exact .inr ⟨e, he, hhash⟩
    · exact .inl ⟨e.1, e.2, he, .inr ⟨hshown, hhash⟩⟩
  · rintro (⟨path, l, he, ⟨r, hr, hhash⟩ | ⟨hshown, hhash⟩⟩ | ⟨e, he, hhash⟩)
    · exact .inl ⟨r, .inl ⟨(path, l), he, hr⟩, hhash⟩
    · exact .inr ⟨hshown, (path, l), he, hhash⟩
    · exact .inl ⟨e.revision, .inr ⟨e, he, rfl⟩, hhash⟩

theorem Named.row (hl : i.entries[path]? = some l) (h : l.Names shown hash) : i.Named shown hash :=
  named_iff.mpr (.inl ⟨path, l, hl, h⟩)

theorem mem_objectHashes : hash ∈ i.objectHashes ↔ i.Named true hash := by
  rw [objectHashes, mem_canon id fun _ _ _ _ h => h, List.mem_append]
  simp [Named]

/-! ### What transactions add to them -/

/-- Only new names are added, and what is taken in stays. -/
structure Gains (shown : Bool) (new : String → Prop) (i i' : Index) : Prop where
  /-- The names. -/
  named : ∀ hash, i'.Named shown hash → i.Named shown hash ∨ new hash
  /-- What was taken in. -/
  incoming : i'.incoming = i.incoming
  /-- What is to be fetched. -/
  needed : i'.needed = i.needed

theorem Gains.refl : Gains shown new i i := ⟨fun _ h => .inl h, rfl, rfl⟩

theorem Gains.trans (h : Gains shown new i i') (h' : Gains shown new i' i'') : Gains shown new i i'' :=
  ⟨fun hash hn => (h'.named hash hn).elim (h.named hash) .inr, h'.incoming.trans h.incoming, h'.needed.trans h.needed⟩

theorem Gains.mono {new' : String → Prop} (h : Gains shown new i i') (hnew : ∀ hash, new hash → new' hash) :
    Gains shown new' i i' :=
  ⟨fun hash hn => (h.named hash hn).imp_right (hnew hash), h.incoming, h.needed⟩

theorem gains_forget (i : Index) (path : String) : Gains shown new i (i.forget path) := ⟨fun _ h => .inl h, rfl, rfl⟩

/-- Writing a row adds what the row names. -/
theorem gains_save (h : i.save P path v m o = .ok i')
    (hnew : ∀ hash, (∃ r ∈ v.heads ++ o.heads, object r.content = some hash) ∨ shown = true ∧ m.bind object = some hash →
      i.Named shown hash ∨ new hash) : Gains shown new i i' := by
  refine ⟨fun hash hn => ?_, save_incoming h, by rw [(save_eq_ok.mp h).2.2.2]⟩
  rcases named_iff.mp hn with ⟨q, l, hl, hhash⟩ | ⟨e, he, hhash⟩
  · rw [save_entries h] at hl
    split_ifs at hl
    · obtain rfl := Option.some.inj hl
      exact hnew hash hhash
    · exact .inl (.row hl hhash)
  · rw [(save_eq_ok.mp h).2.2.2] at he
    rcases mem_of_foldl_retain he with he | ⟨r, hr, rfl⟩
    · exact .inl (named_iff.mpr (.inr ⟨e, he, hhash⟩))
    · rcases List.mem_append.mp hr with hr | hr
      · cases hp : i.entries[path]? with
        | none => simp [hp] at hr
        | some l =>
          have hr : r ∈ l.versions.heads := by simpa [hp] using hr
          exact .inl (.row hp (.inl ⟨r, by simp [hr], hhash⟩))
      · exact hnew hash (.inl ⟨r, by simp [hr], hhash⟩)

/-- The heads of a merge are heads of what was merged. -/
theorem heads_of_join {a b c : Versions} (h : a.join P b = .ok c) {r : Revision} (hr : r ∈ c.heads) :
    r ∈ a.heads ∨ r ∈ b.heads := by
  obtain ⟨-, -, -, hc, -, -⟩ := Versions.join_eq_ok.mp h
  rw [hc, Versions.mem_maximal] at hr
  have hmem : r ∈ {x | x ∈ canon (Revision.id P) (a.heads ++ b.heads)} := frontier_subset hr
  exact List.mem_append.mp (mem_of_mem_canon (Revision.id P) hmem)

theorem object_visible (c : Content) : (visible c).bind object = object c := by cases c <;> rfl

/-- A local change adds what was found. -/
theorem gains_edit {mine combined : Versions} {content : Content} (hl : i.entries[path]? = some l)
    (hm : l.observed.edit P replica content = .ok mine) (hj : l.versions.join P mine = .ok combined)
    (h : i.save P path combined (visible content) mine = .ok i') :
    Gains shown (fun hash => object content = some hash) i i' := by
  obtain ⟨e, rfl, rfl, -, -⟩ := Versions.edit_ok hm
  refine gains_save h fun hash hhash => ?_
  rw [object_visible] at hhash
  rcases hhash with ⟨r, hr, hhash⟩ | ⟨-, hhash⟩
  · rcases List.mem_append.mp hr with hr | hr
    · rcases heads_of_join hj hr with hr | hr
      · exact .inl (.row hl (.inl ⟨r, by simp [hr], hhash⟩))
      · exact .inr (List.mem_singleton.mp hr ▸ hhash)
    · exact .inr (List.mem_singleton.mp hr ▸ hhash)
  · exact .inr hhash

/-- Taking note that a row stands in the folder adds nothing. -/
theorem gains_applied {r : Revision} (hl : i.entries[path]? = some l) (hr : l.versions.selected P = some r)
    (h : i.applied P path l.versions r.content = .ok i') : Gains shown new i i' := by
  refine gains_save h fun hash hhash => .inl (.row hl (.inl ?_))
  rw [object_visible] at hhash
  rcases hhash with ⟨r', hr', hhash⟩ | ⟨-, hhash⟩
  · rw [List.mem_append, or_self] at hr'
    exact ⟨r', by simp [hr'], hhash⟩
  · exact ⟨r, by simp [Versions.selected_mem hr], hhash⟩

theorem gains_scanSeen {content : Content} {n : ℕ} (hc : content ≠ .deleted)
    (h : i.scanSeen P replica path content = .ok (i', n)) :
    Gains shown (fun hash => object content = some hash) i i' := by
  refine (gains_forget i path).trans ?_
  have hentries : (i.forget path).entries = i.entries := rfl
  rw [scanSeen, ← hentries] at h
  generalize i.forget path = j at h ⊢
  cases hp : j.entries[path]? with
  | none =>
    simp only [hp, Option.bind_none, Option.elim_none, reduceCtorEq, if_false] at h
    obtain ⟨mine, hm, h⟩ := bind_eq_ok.mp h
    obtain ⟨combined, hv, h⟩ := bind_eq_ok.mp h
    obtain rfl := pure_eq_ok.mp hv
    obtain ⟨k, hk, h⟩ := bind_eq_ok.mp h
    obtain ⟨rfl, -⟩ := Prod.mk.inj (pure_eq_ok.mp h)
    obtain ⟨e, rfl, rfl, -, -⟩ := Versions.edit_ok hm
    refine gains_save hk fun hash hhash => .inr ?_
    rcases hhash with ⟨r, hr, hhash⟩ | ⟨-, hhash⟩
    · obtain rfl : r = e := by simpa using hr
      exact hhash
    · exact hhash
  | some l =>
    simp only [hp, Option.bind_some, Option.elim_some] at h
    by_cases hadopt : l.versions ≠ l.observed ∧ ∃ r ∈ l.versions.heads, r.content = content
    · rw [if_pos hadopt] at h
      obtain ⟨k, hk, h⟩ := bind_eq_ok.mp h
      obtain ⟨rfl, -⟩ := Prod.mk.inj (pure_eq_ok.mp h)
      refine gains_save hk fun hash hhash => ?_
      rcases hhash with ⟨r, hr, hhash⟩ | ⟨-, hhash⟩
      · refine .inl (.row hp (.inl ⟨r, ?_, hhash⟩))
        rcases List.mem_append.mp hr with hr | hr
        · simp [hr]
        · split_ifs at hr
          · simp [hr]
          · simp [hr]
      · exact .inr hhash
    rw [if_neg hadopt] at h
    split_ifs at h with hmat
    · obtain ⟨rfl, -⟩ := Prod.mk.inj (pure_eq_ok.mp h)
      exact .refl
    · obtain ⟨mine, hm, h⟩ := bind_eq_ok.mp h
      obtain ⟨combined, hj, h⟩ := bind_eq_ok.mp h
      obtain ⟨k, hk, h⟩ := bind_eq_ok.mp h
      obtain ⟨rfl, -⟩ := Prod.mk.inj (pure_eq_ok.mp h)
      rw [← visible_of_ne hc] at hk
      exact gains_edit hp hm hj hk

theorem gains_scanMissing {n : ℕ} (h : i.scanMissing P replica approve path = .ok (i', n)) : Gains shown new i i' := by
  rw [scanMissing] at h
  cases hp : i.entries[path]? with
  | none =>
    rw [hp] at h
    obtain ⟨rfl, -⟩ := Prod.mk.inj (pure_eq_ok.mp h)
    exact .refl
  | some l =>
    simp only [hp] at h
    split_ifs at h with hadopt hmat happ
    · obtain ⟨k, hk, h⟩ := bind_eq_ok.mp h
      obtain ⟨rfl, -⟩ := Prod.mk.inj (pure_eq_ok.mp h)
      obtain ⟨r, hr, hrc⟩ := (Option.any_eq_true _ _).mp hadopt.2
      refine (gains_applied hp hr ?_).trans (gains_forget k path)
      rw [applied, of_decide_eq_true hrc]
      exact hk
    · obtain ⟨rfl, -⟩ := Prod.mk.inj (pure_eq_ok.mp h)
      exact .refl
    · obtain ⟨mine, hm, h⟩ := bind_eq_ok.mp h
      obtain ⟨combined, hj, h⟩ := bind_eq_ok.mp h
      obtain ⟨k, hk, h⟩ := bind_eq_ok.mp h
      obtain ⟨rfl, -⟩ := Prod.mk.inj (pure_eq_ok.mp h)
      exact ((gains_edit hp hm hj hk).mono fun _ h => by cases h).trans (gains_forget k path)
    · obtain ⟨rfl, -⟩ := Prod.mk.inj (pure_eq_ok.mp h)
      exact ⟨fun _ h => .inl h, rfl, rfl⟩

theorem gains_forEach {α : Type} {f : Index → α → Result (Index × ℕ)} {l : List α} {n n' : ℕ}
    (hf : ∀ i a i' m, a ∈ l → f i a = .ok (i', m) → Gains shown new i i')
    (h : forEach f l (i, n) = .ok (i', n')) : Gains shown new i i' := by
  induction l generalizing i n with
  | nil =>
    obtain ⟨rfl, -⟩ := Prod.mk.inj (Except.ok.inj h)
    exact .refl
  | cons a l ih =>
    obtain ⟨⟨j, m⟩, ha, hl⟩ := bind_eq_ok.mp h
    exact (hf _ _ _ _ (by simp) ha).trans (ih (fun i b i' m hb => hf i b i' m (by simp [hb])) hl)

/-- A scan adds what it has seen. -/
theorem gains_scan {seen : Std.ExtTreeMap String Content} {report : ScanReport}
    (hseen : ∀ path : String, seen[path]? ≠ some Content.deleted) (h : i.scan P replica approve seen = .ok (i', report)) :
    Gains shown (fun hash => ∃ path : String, seen[path]? = some (Content.file hash)) i i' := by
  obtain ⟨⟨j, n⟩, h1, h⟩ := bind_eq_ok.mp h
  obtain ⟨⟨k, m⟩, h2, h⟩ := bind_eq_ok.mp h
  obtain ⟨rfl, -⟩ := Prod.mk.inj (pure_eq_ok.mp h)
  refine (gains_forEach (fun i e i' m he h => ?_) h1).trans (gains_forEach
      (fun i path i' m _ h => gains_scanMissing h) h2)
  have hmem := Std.ExtTreeMap.mem_toList_iff_getElem?_eq_some.mp he
  refine (gains_scanSeen (fun hc => hseen e.1 (hc ▸ hmem)) h).mono fun hash hhash => ⟨e.1, ?_⟩
  rw [hmem]
  cases he2 : e.2 with
  | file hash' =>
    rw [he2] at hhash
    rw [Option.some.inj hhash]
  | directory | deleted =>
    rw [he2] at hhash
    cases hhash

theorem gains_joinRow {remote : Versions} (h : i.joinRow P path remote = .ok i') :
    Gains shown (fun hash => ∃ r ∈ remote.heads, object r.content = some hash) i i' := by
  rw [joinRow] at h
  cases hp : i.entries[path]? with
  | none =>
    simp only [hp] at h
    obtain ⟨v, hv, h⟩ := bind_eq_ok.mp h
    obtain rfl := pure_eq_ok.mp hv
    refine gains_save h fun hash hhash => .inr ?_
    rcases hhash with ⟨r, hr, hhash⟩ | ⟨-, hhash⟩
    · exact ⟨r, by simpa [Versions.default] using hr, hhash⟩
    · cases hhash
  | some l =>
    simp only [hp] at h
    obtain ⟨v, hv, h⟩ := bind_eq_ok.mp h
    refine gains_save h fun hash hhash => ?_
    rcases hhash with ⟨r, hr, hhash⟩ | ⟨hshown, hhash⟩
    · rcases List.mem_append.mp hr with hr | hr
      · rcases heads_of_join hv hr with hr | hr
        · exact .inl (.row hp (.inl ⟨r, by simp [hr], hhash⟩))
        · exact .inr ⟨r, hr, hhash⟩
      · exact .inl (.row hp (.inl ⟨r, by simpa using .inr hr, hhash⟩))
    · exact .inl (.row hp (.inr ⟨hshown, hhash⟩))

/-- The version sets that were taken in name an object. -/
def Heard (i : Index) (hash : String) : Prop :=
  ∃ (path : String) (v : Versions), i.incoming[path]? = some v ∧ ∃ r ∈ v.heads, object r.content = some hash

/-- Merging adds what was taken in. -/
theorem named_joinIncoming (h : i.joinIncoming P = .ok i') :
    (∀ hash, i'.Named shown hash → i.Named shown hash ∨ i.Heard hash) ∧ i'.incoming = ∅ := by
  obtain ⟨j, hj, h⟩ := bind_eq_ok.mp h
  obtain rfl := pure_eq_ok.mp h
  refine ⟨fun hash hn => ?_, rfl⟩
  have hgains : ∀ (l : List (String × Versions)) (k : Index), (∀ e ∈ l, e ∈ i.incoming.toList) →
      l.foldlM (fun i e => joinRow P i e.1 e.2) k = .ok j → Gains shown i.Heard k j := by
    intro l
    induction l with
    | nil =>
      intro k _ h
      obtain rfl := pure_eq_ok.mp h
      exact .refl
    | cons e l ih =>
      intro k hl h
      rw [List.foldlM_cons] at h
      obtain ⟨k', hk', h⟩ := bind_eq_ok.mp h
      refine ((gains_joinRow hk').mono fun hash hhash => ?_).trans (ih k' (fun e he => hl e (by simp [he])) h)
      exact ⟨e.1, e.2, Std.ExtTreeMap.mem_toList_iff_getElem?_eq_some.mp (hl e (by simp)), hhash⟩
  exact (hgains _ i (fun _ h => h) hj).named hash hn

theorem gains_approve {l : Row} (hp : i.entries[path]? = some l) (h : i.approve P replica path l = .ok i') :
    Gains shown new i i' := by
  obtain ⟨mine, hmine, h⟩ := bind_eq_ok.mp h
  obtain ⟨combined, hj, h⟩ := bind_eq_ok.mp h
  obtain ⟨k, hk, h⟩ := bind_eq_ok.mp h
  obtain rfl := pure_eq_ok.mp h
  have hedit : Gains shown (fun hash => object .deleted = some hash) i k := gains_edit hp hmine hj hk
  exact (hedit.mono fun _ h => by cases h).trans (gains_forget k path)

/-- A decision adds what was decided on; what stands in the folder is not captured. -/
theorem gains_choose {content : Content} {actual : Option Content} (hp : i.entries[path]? = some l)
    (hv : l.versions.edit P replica content = .ok v) (h : i.choose P path v actual l.observed = .ok i') :
    Gains false (fun hash => object content = some hash) i i' := by
  obtain ⟨k, hk, h⟩ := bind_eq_ok.mp h
  obtain rfl := pure_eq_ok.mp h
  obtain ⟨e, rfl, rfl, -, -⟩ := Versions.edit_ok hv
  refine (gains_save hk fun hash hhash => ?_).trans (gains_forget k path)
  rcases hhash with ⟨r, hr, hhash⟩ | ⟨hshown, -⟩
  · rcases List.mem_append.mp hr with hr | hr
    · exact .inr (List.mem_singleton.mp hr ▸ hhash)
    · exact .inl (.row hp (.inl ⟨r, by simp [hr], hhash⟩))
  · cases hshown

theorem mem_foldl_insert {l : List String} {t : Std.ExtTreeSet String} :
    hash ∈ l.foldl (fun needed hash => needed.insert hash) t ↔ hash ∈ t ∨ hash ∈ l := by
  induction l generalizing t with
  | nil => simp
  | cons a l ih =>
    rw [List.foldl_cons, ih, Std.ExtTreeSet.mem_insert, Std.LawfulEqCmp.compare_eq_iff_eq, List.mem_cons]
    tauto

/-- Everything that was taken in is there, or to be fetched. -/
def Expected (i : Index) (present : String → Prop) : Prop := ∀ hash, i.Heard hash → present hash ∨ hash ∈ i.needed

/-- What is taken in and not there is to be fetched. -/
theorem expected_stage {present : String → Bool} {records : List Record} (hi : i.Expected fun hash => present hash = true)
    (h : i.stage P present records = .ok i') : i'.Expected (fun hash => present hash = true) := by
  induction records generalizing i with
  | nil =>
    obtain rfl := pure_eq_ok.mp h
    exact hi
  | cons r records ih =>
    rw [stage, List.foldlM_cons] at h
    obtain ⟨j, hj, h⟩ := bind_eq_ok.mp h
    refine ih (fun hash hhash => ?_) h
    obtain ⟨⟨⟩, -, hj⟩ := bind_eq_ok.mp hj
    obtain ⟨v, -, hj⟩ := bind_eq_ok.mp hj
    rw [ensure_bind_eq_ok, ensure_bind_eq_ok, pure_eq_ok] at hj
    obtain ⟨-, -, rfl⟩ := hj
    obtain ⟨path, w, hw, r', hr', hobject⟩ := hhash
    rw [mem_foldl_insert]
    rw [Std.ExtTreeMap.getElem?_insert] at hw
    split_ifs at hw
    · obtain rfl := Option.some.inj hw
      rcases hp : present hash with _ | _
      · refine .inr (.inr (List.mem_filter.mpr ⟨List.mem_filterMap.mpr ⟨r', hr', hobject⟩, by simp [hp]⟩))
      · exact .inl hp
    · exact (hi hash ⟨path, w, hw, r', hr', hobject⟩).imp_right .inl

theorem named_apart (h : Apart P i i') : i'.Named shown hash ↔ i.Named shown hash := by
  rw [named_iff, named_iff, h.entries, h.history]

end Index

/-! ### The objects of a share -/

namespace Share

variable {β : Type} {P : Platform} {W : Wire β} {shown ready : Bool} {i : Index} {o : Std.ExtTreeMap String Bytes}
  {s s' : Share β} {α γ : Type}

/-- The hash of a file. -/
def digest (P : Platform) (bytes : Bytes) : Result String := do
  ensure (bytes.length ≤ maxSize) "file exceeds 1 TiB alpha limit"
  pure (P.blake3 bytes)

theorem digest_eq_ok {bytes : Bytes} {hash : String} :
    digest P bytes = .ok hash ↔ bytes.length ≤ maxSize ∧ P.blake3 bytes = hash := by
  rw [digest, ensure_bind_eq_ok, pure_eq_ok]

/-- Bytes with the manifest of a file of proper size. -/
theorem digest_of_manifest {bytes : Bytes} {m : Manifest} (h : Manifest.ofBytes P bytes = m) (hm : m.size ≤ maxSize) :
    digest P bytes = .ok m.hash := by
  subst h
  exact digest_eq_ok.mpr ⟨hm, rfl⟩

/-- The objects of a share are in order. When it is `ready` to merge, nothing is missing of what was taken in. -/
structure Stock (P : Platform) (shown ready : Bool) (s : Share β) : Prop where
  /-- The name of an object is its hash. -/
  right : ∀ (hash : String) (bytes : Bytes), s.objects[hash]? = some bytes → digest P bytes = .ok hash
  /-- What the index names is there. -/
  named : ∀ hash, s.index.Named shown hash → hash ∈ s.objects
  /-- What was taken in is there, or to be fetched. -/
  expected : ∀ hash, s.index.Heard hash → hash ∈ s.objects ∨ ready = false ∧ hash ∈ s.index.needed
  /-- What was seen is there. -/
  seen : ∀ (path hash : String), s.seen[path]? = some (Content.file hash) → hash ∈ s.objects
  /-- No deletion was seen. -/
  plain : SeenOk s

theorem Stock.weaken (h : Stock P shown ready s) : Stock P shown false s :=
  ⟨h.right, h.named, fun hash hh => (h.expected hash hh).imp_right fun hn => ⟨rfl, hn.2⟩, h.seen, h.plain⟩

theorem Stock.outside (hs : Stock P shown ready s) (h : Outside s s') : Stock P shown ready s' := by
  refine ⟨?_, ?_, ?_, ?_, fun path => ?_⟩
  · rw [h.objects]
    exact hs.right
  · rw [h.index, h.objects]
    exact hs.named
  · rw [h.index, h.objects]
    exact hs.expected
  · rw [h.seen, h.objects]
    exact hs.seen
  · rw [h.seen]
    exact hs.plain path

variable (P shown) in
/-- The terms: the objects are in order. -/
def stocking : Contract (Share β) := ⟨Outside, fun _ _ => True, Stock P shown false⟩

theorem stable_stock : Stable (stocking (β := β) P shown) (Stock P shown ready) := fun _ _ h hs => hs.outside h

variable (P shown ready i o) in
/-- The objects are in order, and what the program has read of index and objects still holds. -/
structure Holds (s : Share β) : Prop where
  /-- The objects are in order. -/
  stock : Stock P shown ready s
  /-- The index. -/
  index : s.index = i
  /-- The objects. -/
  objects : s.objects = o

theorem stable_holds : Stable (stocking (β := β) P shown) (Holds P shown ready i o) :=
  fun _ _ h hs => ⟨hs.stock.outside h, h.index.trans hs.index, h.objects.trans hs.objects⟩

variable (P shown ready) in
/-- The program keeps the objects in order. -/
def Stocks (p : Io (Share β) α) : Prop :=
  Triple (stocking P shown) (Stock P shown ready) p
    (outcome (fun _ => Stock P shown ready) fun _ => Stock P shown ready)

variable (P shown ready i o) in
/-- The program keeps the objects in order when it begins with a given index and objects. -/
def StocksOn (p : Io (Share β) α) : Prop :=
  Triple (stocking P shown) (Holds P shown ready i o) p
    (outcome (fun _ => Stock P shown ready) fun _ => Stock P shown ready)

theorem triple_stock_iff {p : Io (Share β) α} {Q : Result α → Share β → Prop} :
    Triple (stocking P shown) (Stock P shown ready) p Q ↔
      ∀ i o, Triple (stocking P shown) (Holds P shown ready i o) p Q :=
  ⟨fun h _ _ s hs => h s hs.stock, fun h s hs => h s.index s.objects s ⟨hs, rfl, rfl⟩⟩

theorem stocks_iff {p : Io (Share β) α} : Stocks P shown ready p ↔ ∀ i o, StocksOn P shown ready i o p := triple_stock_iff

theorem Stocks.on {p : Io (Share β) α} (h : Stocks P shown ready p) : StocksOn P shown ready i o p := stocks_iff.mp h i o

theorem Stocks.andThen {p : Io (Share β) α} {f : α → Io (Share β) γ} (h : Stocks P shown ready p)
    (hf : ∀ a, Stocks P shown ready (f a)) : Stocks P shown ready (p >>= f) := Triple.andThen h hf

theorem StocksOn.andThen {p : Io (Share β) α} {f : α → Io (Share β) γ} (h : StocksOn P shown ready i o p)
    (hf : ∀ a, Stocks P shown ready (f a)) : StocksOn P shown ready i o (p >>= f) := Triple.andThen h hf

/-! ### Programs that leave index and objects alone -/

/-- A step that leaves the index, the objects and what was seen alone. -/
structure Still (s s' : Share β) : Prop where
  /-- The index. -/
  index : s'.index = s.index
  /-- The objects. -/
  objects : s'.objects = s.objects
  /-- What was seen. -/
  seen : s'.seen = s.seen

theorem still_files (s : Share β) (fs : Files) : Still s (HasFiles.setFiles fs s) := ⟨rfl, rfl, rfl⟩

theorem Talk.still {may : Message → Prop} {hear : ∀ α : Type, (β → Result α × β) → Prop} {act : Share β → γ × Share β}
    (h : Talk may hear γ act) (s : Share β) : Still s (act s).2 := by
  cases h with
  | look f => exact ⟨rfl, rfl, rfl⟩
  | send m _ => exact ⟨rfl, rfl, rfl⟩
  | read f _ => exact ⟨rfl, rfl, rfl⟩

/-- Who only looks and talks leaves everything alone. -/
theorem still_talk {p : Io (Share β) α} (h : Only (Talk (fun _ => True) anyhow) p) : Tries Still (fun _ => True) p :=
  Tries.ofOnly (h.mono fun _ _ ha => ha.still)

theorem still_checkRoot : Tries Still (fun _ => True) (checkRoot : Io (Share β) Unit) :=
  Tries.ofOnly (only_checkRoot (fun _ _ _ => ⟨rfl, rfl, rfl⟩) fun _ s => still_files s _)

theorem still_open : Tries Still (fun _ => True) (open_ P : Io (Share β) Unit) :=
  Tries.ofOnly (only_open (fun _ _ _ => ⟨rfl, rfl, rfl⟩) fun _ s => still_files s _)

theorem still_recover : Tries Still (fun _ => True) (Root.recover P : Io (Share β) Unit) :=
  Tries.ofOnly (only_recover P fun _ s => still_files s _)

theorem still_apply (id path : String) (before : Option Content) (after : Content) (object : Option String) :
    Tries Still (fun _ => True) (Root.apply P id path before after (object.map readObject) : Io (Share β) Unit) := by
  refine Tries.ofOnly (only_apply P (fun _ s => still_files s _) id path before after fun input hin => ?_)
  obtain ⟨hash, -, rfl⟩ := Option.mem_map.mp hin
  exact (@talk_readObject _ (fun _ => True) anyhow hash).mono fun _ _ ha => ha.still

theorem Holds.still (hs : Holds P shown ready i o s) (h : Still s s') : Holds P shown ready i o s' := by
  obtain ⟨hstock, rfl, rfl⟩ := hs
  refine ⟨⟨?_, ?_, ?_, ?_, fun path => ?_⟩, h.index, h.objects⟩
  · rw [h.objects]
    exact hstock.right
  · rw [h.index, h.objects]
    exact hstock.named
  · rw [h.index, h.objects]
    exact hstock.expected
  · rw [h.seen, h.objects]
    exact hstock.seen
  · rw [h.seen]
    exact hstock.plain path

/-- What was read still holds afterwards. -/
theorem holds_still {V : α → Prop} {p : Io (Share β) α} (h : Tries Still V p) :
    Triple (stocking P shown) (Holds P shown ready i o) p
      (outcome (fun a s => Holds P shown ready i o s ∧ V a) fun _ => Stock P shown ready) :=
  (h.triple stable_holds (fun _ h => h.stock.weaken) fun s s' hs hq => ⟨trivial, hs.still hq⟩).conseq (fun _ h => h)
    fun r s hr => by
      cases r with
      | error e => exact hr.stock
      | ok a => exact hr

theorem holds_look {V : α → Prop} {f : Share β → α} (h : ∀ s, Holds P shown ready i o s → V (f s)) :
    Triple (stocking P shown) (Holds P shown ready i o) (Fallible.look f : Io (Share β) α)
      (outcome (fun a s => Holds P shown ready i o s ∧ V a) fun _ => Stock P shown ready) :=
  (Triple.look stable_holds (fun _ h => h.stock.weaken) (fun _ => trivial) h).conseq (fun _ h => h) fun r s hr => by
    cases r with
    | error e => exact hr.stock
    | ok a => exact hr

theorem holds_lift {r : Result α} :
    Triple (stocking P shown) (Holds (β := β) P shown ready i o) (Fallible.ofExcept r : Io (Share β) α)
      (outcome (fun a s => Holds P shown ready i o s ∧ r = .ok a) fun _ => Stock P shown ready) :=
  Triple.ofExcept stable_holds (fun _ h => h.stock.weaken) fun s hs => by
    cases r with
    | error e => exact hs.stock
    | ok a => exact ⟨hs, rfl⟩

theorem stocks_still {V : α → Prop} {p : Io (Share β) α} (h : Tries Still V p) : Stocks P shown ready p :=
  stocks_iff.mpr fun _ _ => (holds_still h).conseq (fun _ h => h) fun r s hr => by
    cases r with
    | error e => exact hr
    | ok a => exact hr.1.stock

theorem stocks_talk {p : Io (Share β) α} (h : Only (Talk (fun _ => True) anyhow) p) : Stocks P shown ready p :=
  stocks_still (still_talk h)

theorem stocks_pure (a : α) : Stocks P shown ready (pure a : Io (Share β) α) := stocks_talk (only_pure a)

theorem stocks_forM {l : List α} {f : α → Io (Share β) Unit} (hf : ∀ a, Stocks P shown ready (f a)) :
    Stocks P shown ready (l.forM f) := by
  induction l with
  | nil => exact stocks_pure _
  | cons a l ih => exact (hf a).andThen fun _ => ih

/-! ### Programs that change the index -/

/-- A transaction, after which the objects are still in order. -/
theorem holds_transaction {ready' : Bool} {f : Index → Result Index}
    (h : ∀ (s : Share β) (i' : Index), Holds P shown ready i o s → f i = .ok i' →
      Stock P shown ready' { s with index := i' }) :
    Triple (stocking P shown) (Holds P shown ready i o) (transaction f : Io (Share β) Unit)
      (outcome (fun _ => Stock P shown ready') fun _ => Stock P shown ready) := by
  refine Triple.act stable_holds (fun _ h => h.stock.weaken) (fun r => ?_) (fun r s hr => ?_) fun s hs => ⟨trivial, ?_⟩
  · rcases r with e | a
    · exact stable_stock
    · exact stable_stock
  · rcases r with e | a
    · exact hr.weaken
    · exact hr.weaken
  · rw [hs.index]
    cases hf : f i with
    | error e => exact hs.stock
    | ok i' => exact h s i' hs hf

/-- New names of objects that are there. -/
theorem Holds.gains {new : String → Prop} {i' : Index} (hs : Holds P shown ready i o s) (h : i.Gains shown new i')
    (hnew : ∀ hash, new hash → hash ∈ o) : Stock P shown ready { s with index := i' } := by
  obtain ⟨hstock, rfl, rfl⟩ := hs
  refine ⟨hstock.right, fun hash hn => (h.named hash hn).elim (hstock.named hash) (hnew hash), fun hash hh => ?_,
    hstock.seen, hstock.plain⟩
  change hash ∈ s.objects ∨ ready = false ∧ hash ∈ i'.needed
  rw [h.needed]
  refine hstock.expected hash ?_
  obtain ⟨path, v, hv, hr⟩ := hh
  exact ⟨path, v, h.incoming ▸ hv, hr⟩

theorem stocksOn_gains {new : String → Prop} {f : Index → Result Index}
    (h : ∀ i', f i = .ok i' → i.Gains shown new i') (hnew : ∀ hash, new hash → hash ∈ o) :
    StocksOn P shown ready i o (transaction f : Io (Share β) Unit) :=
  holds_transaction fun _ _ hs hf => hs.gains (h _ hf) hnew

/-- A transaction that names nothing new. -/
theorem stocks_aside {f : Index → Index} (h : ∀ i, Index.Gains shown (fun _ => False) i (f i)) :
    Stocks P shown ready (transaction fun i => .ok (f i) : Io (Share β) Unit) :=
  stocks_iff.mpr fun i _ => stocksOn_gains (fun i' hi' => by
    obtain rfl := Except.ok.inj hi'
    exact h i) fun _ => False.elim

/-! ### Objects that are made -/

/-- Another object whose name is its hash. -/
theorem Stock.insert {hash : String} {bytes : Bytes} (hs : Stock P shown ready s) (hhash : digest P bytes = .ok hash) :
    Stock P shown ready { s with objects := s.objects.insert hash bytes } := by
  have hmem : ∀ k ∈ s.objects, k ∈ s.objects.insert hash bytes := fun k hk => Std.ExtTreeMap.mem_insert.mpr (.inr hk)
  refine ⟨fun k b hb => ?_, fun k hk => hmem k (hs.named k hk), fun k hk => (hs.expected k hk).imp_left (hmem k),
    fun path k hk => hmem k (hs.seen path k hk), hs.plain⟩
  rw [Std.ExtTreeMap.getElem?_insert] at hb
  split_ifs at hb with hk
  · rw [← Std.LawfulEqCmp.compare_eq_iff_eq.mp hk, ← Option.some.inj hb]
    exact hhash
  · exact hs.right k b hb

/-- A content that may stand in a row: it is no deletion, and if it is a file, its object is there. -/
def Captured (c : Content) (s : Share β) : Prop := c ≠ .deleted ∧ ∀ hash, c = .file hash → hash ∈ s.objects

theorem stable_captured {c : Content} :
    Stable (stocking (β := β) P shown) fun s => Stock P shown ready s ∧ Captured c s := fun s s' h hs => by
  refine ⟨hs.1.outside h, hs.2.1, fun hash hc => ?_⟩
  rw [h.objects]
  exact hs.2.2 hash hc

/-- A file that is hashed is of proper size. -/
theorem still_fromFile (file : ℕ) :
    Tries Still (fun m => m.size ≤ maxSize) (Manifest.fromFile P file : Io (Share β) Manifest) := by
  have hstat : Tries Still (fun _ => True) (call (Files.stat file) : Io (Share β) _) := Tries.act fun s => still_files s _
  have hsize : ∀ n : ℕ, Tries Still (fun _ => n ≤ maxSize)
      (ensure (n ≤ maxSize) "file exceeds 1 TiB alpha limit" : Io (Share β) Unit) := fun n =>
    Tries.ofExcept fun _ h => ensure_eq_ok.mp h
  refine hstat.andThen fun before _ => (hsize before.1).andThen fun _ hbefore => ?_
  refine Tries.andThen (Tries.ofOnly (only_readBlocks (fun _ s => still_files s _) _ _ _ _)) fun blocks _ =>
    hstat.andThen fun after _ => (still_talk (only_lift _)).andThen fun _ _ => ?_
  refine Tries.ofExcept fun m hm => ?_
  rw [← Except.ok.inj hm]
  exact hbefore

/-- A capture yields a file whose object is there. -/
theorem stocks_capture (path : String) : Triple (stocking P shown) (Stock P shown ready)
    (capture P path : Io (Share β) Content)
    (outcome (fun c s => Stock P shown ready s ∧ Captured c s) fun _ => Stock P shown ready) := by
  have hfile : Tries Still (fun _ => True) (Root.file path : Io (Share β) ℕ) :=
    Tries.ofOnly (only_file (fun _ s => still_files s _) path)
  have hend : ∀ hash, Triple (stocking P shown) (fun s => Stock P shown ready s ∧ hash ∈ s.objects)
      (pure (.file hash) : Io (Share β) Content)
      (outcome (fun c s => Stock P shown ready s ∧ Captured c s) fun _ => Stock P shown ready) := by
    intro hash
    refine Triple.ofExcept (fun s s' h hs => ⟨hs.1.outside h, ?_⟩) (fun _ h => h.1.weaken) fun s hs =>
      ⟨hs.1, by simp, fun k hk => ?_⟩
    · rw [h.objects]
      exact hs.2
    · rw [← Content.file.inj hk]
      exact hs.2
  refine triple_stock_iff.mpr fun i o => Triple.seq (holds_still hfile) fun file _ => ?_
  refine Triple.seq (holds_still (still_fromFile file)) fun manifest hsize => ?_
  refine Triple.seq holds_lift fun object hobject => ?_
  obtain ⟨-, hobject⟩ := ensure_bind_eq_ok.mp hobject
  obtain rfl := pure_eq_ok.mp hobject
  refine Triple.seq (holds_look (V := fun found => o[manifest.hash]? = found) fun s hs => by rw [← hs.objects])
      fun found hfound => ?_
  cases found with
  | some bytes =>
    refine Triple.seq (holds_still (still_talk (talk_objectManifest _))) fun _ _ => Triple.seq holds_lift fun _ _ => ?_
    refine (hend manifest.hash).conseq (fun s hs => ⟨hs.stock, ?_⟩) fun _ _ h => h
    rw [hs.objects, Std.ExtTreeMap.mem_iff_isSome_getElem?, hfound]
    rfl
  | none =>
    refine Triple.seq (holds_still hfile) fun input _ =>
      Triple.seq (holds_still (Tries.act fun s => still_files s _)) fun bytes _ => ?_
    refine Triple.seq holds_lift fun _ hbytes => ?_
    have hhash : digest P bytes = .ok manifest.hash := digest_of_manifest (ensure_eq_ok.mp hbytes) hsize
    refine Triple.andThen (?_ : Triple _ _ (createObject manifest.hash bytes) (outcome (fun _ s => Stock P shown ready s ∧
      manifest.hash ∈ s.objects) fun _ => Stock P shown ready)) fun _ => hend manifest.hash
    refine Triple.act stable_holds (fun _ h => h.stock.weaken) (fun r => ?_) (fun r s hr => ?_) fun s hs => ⟨trivial, ?_⟩
    · rcases r with e | a
      · exact stable_stock
      · intro s s' h hs
        refine ⟨hs.1.outside h, ?_⟩
        rw [h.objects]
        exact hs.2
    · rcases r with e | a
      · exact hr.weaken
      · exact hr.1.weaken
    · cases hk : s.objects[manifest.hash]? with
      | some _ => exact hs.stock
      | none => exact ⟨hs.stock.insert hhash, Std.ExtTreeMap.mem_insert_self⟩

/-! ### Scanning -/

theorem stocks_recordSeen (path : String) (content : Content) :
    Triple (stocking P shown) (fun s => Stock P shown ready s ∧ Captured content s)
      (recordSeen P path content : Io (Share β) Unit)
      (outcome (fun _ => Stock P shown ready) fun _ => Stock P shown ready) := by
  refine Triple.act stable_captured (fun _ h => h.1.weaken) (fun r => ?_) (fun r s hr => ?_) fun s hs => ⟨trivial, ?_⟩
  · rcases r with e | a
    · exact stable_stock
    · exact stable_stock
  · rcases r with e | a
    · exact hr.weaken
    · exact hr.weaken
  · obtain ⟨hstock, hne, hhash⟩ := hs
    split_ifs
    · refine ⟨hstock.right, hstock.named, hstock.expected, fun q hash hq => ?_, fun q hq => ?_⟩
      · rw [Std.ExtTreeMap.getElem?_insert] at hq
        split_ifs at hq
        · exact hhash hash (Option.some.inj hq)
        · exact hstock.seen q hash hq
      · rw [Std.ExtTreeMap.getElem?_insert] at hq
        split_ifs at hq
        · exact hne (Option.some.inj hq)
        · exact hstock.plain q hq
    · exact hstock

theorem stocks_call {α : Type} (op : Files → Files.Outcome α) : Stocks P shown ready (call op : Io (Share β) α) :=
  stocks_still (V := fun _ => True) (Tries.act fun s => still_files s _)

/-- Visiting keeps the objects in order when what is done at each path does. -/
theorem stocks_walk {visit : String → Bool → Io (Share β) Unit}
    (hvisit : ∀ path isDir, Stocks P shown ready (visit path isDir))
    (depth : ℕ) (relative : FilePath) : Stocks P shown ready (Root.walk visit depth relative) := by
  have hlift : ∀ {α : Type} (r : Result α), Stocks P shown ready (Fallible.ofExcept r : Io (Share β) α) :=
    fun r => stocks_talk (only_lift r)
  induction depth generalizing relative with
  | zero => exact stocks_pure _
  | succ depth ih =>
    refine (stocks_call _).andThen fun items => stocks_forM fun item => ?_
    split
    · exact stocks_pure _
    · refine (hlift _).andThen fun _ => (hlift _).andThen fun _ => (hlift _).andThen fun _ =>
        (hvisit _ _).andThen fun _ => ?_
      split
      · exact ih _
      · exact stocks_pure _

theorem stocks_scanInner (approveDeletes : Bool) :
    Stocks P shown ready (scanInner P approveDeletes : Io (Share β) ScanReport) := by
  have hforget : Stocks P shown ready (Fallible.act fun s => (.ok (), { s with seen := ∅ }) : Io (Share β) Unit) := by
    refine (Triple.act (Q := fun _ => Stock P shown ready) stable_stock (fun _ h => h.weaken) (fun _ => stable_stock)
      (fun _ _ h => h.weaken) fun s hs => ⟨trivial, hs.right, hs.named, hs.expected, fun path hash h => ?_,
        fun path h => ?_⟩).conseq
      (fun _ h => h) fun r s hr => ?_
    · simp at h
    · simp at h
    · rcases r with e | a
      · exact hr
      · exact hr
  have hvisit : ∀ (path : String) (isDir : Bool), Stocks P shown ready (do
      let content ← if isDir then pure Content.directory else capture P path
      recordSeen P path content : Io (Share β) Unit) := by
    intro path isDir
    split
    · refine Triple.andThen (Triple.ofExcept stable_stock (fun _ h => h.weaken) fun s hs => ?_)
        fun c => stocks_recordSeen path c
      exact ⟨hs, by simp, fun _ h => by cases h⟩
    · exact Triple.andThen (stocks_capture path) fun c => stocks_recordSeen path c
  refine (stocks_still still_checkRoot).andThen fun _ => (stocks_still still_recover).andThen
      fun _ => hforget.andThen fun _ =>
    (stocks_walk hvisit _ _).andThen fun _ => (stocks_still still_checkRoot).andThen fun _ => stocks_iff.mpr fun i o => ?_
  refine Triple.seq (holds_look (f := fun s : Share β => (s.config, s.index, s.seen))
    (V := fun r : Config × Index × Std.ExtTreeMap String Content => r.2.1 = i ∧
      (∀ path hash : String, r.2.2[path]? = some (Content.file hash) → hash ∈ o) ∧
      ∀ path : String, r.2.2[path]? ≠ some Content.deleted) fun s hs =>
      ⟨hs.index, fun path hash h => ?_, fun path => hs.stock.plain path⟩) fun r hr => ?_
  · rw [← hs.objects]
    exact hs.stock.seen path hash h
  obtain ⟨config, index, seen⟩ := r
  obtain ⟨rfl, hseen, hplain⟩ := hr
  refine Triple.seq holds_lift fun r hscan => ?_
  obtain ⟨index', report⟩ := r
  replace hscan : index.scan P config.replica approveDeletes seen = .ok (index', report) := hscan
  refine Triple.seq (holds_still still_checkRoot) fun _ _ => ?_
  have hgains : ∀ i', (.ok index' : Result Index) = .ok i' →
      index.Gains shown (fun hash => ∃ path : String, seen[path]? = some (Content.file hash)) i' := by
    intro i' hi
    obtain rfl := Except.ok.inj hi
    exact Index.gains_scan hplain hscan
  exact StocksOn.andThen (stocksOn_gains hgains fun hash h => h.elim fun path h => hseen path hash h)
      fun _ => stocks_pure _

theorem stocks_scan (approveDeletes : Bool) : Stocks P shown ready (scan P approveDeletes : Io (Share β) ScanReport) :=
  (stocks_talk (talk_look _)).andThen fun _ => (stocks_talk (only_lift _)).andThen
    fun _ => stocks_scanInner approveDeletes

/-! ### Taking in -/

theorem stocks_beginIncoming : Stocks P shown ready (beginIncoming : Io (Share β) Unit) :=
  stocks_iff.mpr fun i o => holds_transaction fun s i' hs hi => by
    obtain rfl := Except.ok.inj hi
    obtain ⟨hstock, rfl, rfl⟩ := hs
    refine ⟨hstock.right, hstock.named, fun hash hh => ?_, hstock.seen, hstock.plain⟩
    obtain ⟨path, v, hv, -⟩ := hh
    simp [Index.beginIncoming] at hv

theorem stocks_stage (peer : String) (records : List Record) :
    Stocks P shown false (stage P peer records : Io (Share β) Unit) := by
  refine (stocks_talk (talk_authorize _ _)).andThen fun _ => (stocks_talk (only_lift _)).andThen
      fun _ => stocks_iff.mpr fun i o => ?_
  refine Triple.seq (holds_look (V := fun objects => objects = o) fun s hs => hs.objects) fun objects hobjects => ?_
  obtain rfl := hobjects
  refine holds_transaction fun s i' hs hi => ?_
  obtain ⟨hstock, rfl, rfl⟩ := hs
  refine ⟨hstock.right, fun hash hn => hstock.named hash ((Index.named_apart (Index.aside_stage hi).toApart).mp hn),
    fun hash hh => ?_, hstock.seen, hstock.plain⟩
  have hexpected := Index.expected_stage (fun hash hh => ?_) hi hash hh
  · exact hexpected.imp of_decide_eq_true fun h => ⟨rfl, h⟩
  · exact (hstock.expected hash hh).imp (fun h => decide_eq_true h) And.right

/-- The manifest of an object is that of one that is there. -/
theorem holds_objectManifest (hash : String) : Triple (stocking P shown) (Holds P shown ready i o)
    (objectManifest P hash : Io (Share β) Manifest)
    (outcome (fun _ s => Holds P shown ready i o s ∧ hash ∈ o) fun _ => Stock P shown ready) := by
  refine Triple.seq (Triple.seq (holds_look (V := fun found => o[hash]? = found) fun s hs => by rw [← hs.objects])
    fun found hfound => ?_) (V := fun _ => hash ∈ o) fun bytes hmem => ?_
  · cases found with
    | none => exact Triple.ofExcept stable_holds (fun _ h => h.stock.weaken) fun _ hs => hs.stock
    | some bytes =>
      refine Triple.ofExcept stable_holds (fun _ h => h.stock.weaken) fun _ hs => ⟨hs, ?_⟩
      rw [Std.ExtTreeMap.mem_iff_isSome_getElem?, hfound]
      rfl
  · refine Triple.seq holds_lift fun _ _ => Triple.ofExcept stable_holds (fun _ h => h.stock.weaken)
      fun _ hs => ⟨hs, hmem⟩

theorem stocks_objectReceived (hash : String) : Stocks P shown false (objectReceived P hash : Io (Share β) Unit) := by
  refine stocks_iff.mpr fun i o => Triple.seq holds_lift fun object hobject => ?_
  obtain ⟨-, hobject⟩ := ensure_bind_eq_ok.mp hobject
  obtain rfl := pure_eq_ok.mp hobject
  refine Triple.seq (holds_objectManifest hash) fun manifest hmem => Triple.seq holds_lift fun _ _ => ?_
  refine holds_transaction fun s i' hs hi => ?_
  obtain rfl := Except.ok.inj hi
  obtain ⟨hstock, rfl, rfl⟩ := hs
  refine ⟨hstock.right, hstock.named, fun k hk => ?_, hstock.seen, hstock.plain⟩
  rcases hstock.expected k hk with h | ⟨-, h⟩
  · exact .inl h
  · by_cases hkh : hash = k
    · exact .inl (hkh ▸ hmem)
    · exact .inr ⟨rfl, Std.ExtTreeSet.mem_erase.mpr ⟨by simpa using hkh, h⟩⟩

/-- What is fetched has the hash that was asked for. -/
theorem stocks_receiveObject (peer hash : String) (basis : Option String) :
    Stocks P shown ready (receiveObject P W peer hash basis) := by
  refine (stocks_talk (talk_read trivial)).andThen fun manifest => stocks_iff.mpr fun i o => ?_
  refine Triple.seq holds_lift fun _ hvalid => Triple.seq holds_lift fun _ hhash => ?_
  refine Triple.seq (holds_still (still_talk (talk_authorize _ _))) fun _ _ =>
    Triple.seq (holds_still (still_talk (talk_look _))) fun known _ => ?_
  refine Triple.seq (holds_still (still_talk (talk_send trivial))) fun _ _ => ?_
  refine Triple.seq (holds_still (still_talk (talk_fetchBlocks W.all (fun _ => trivial) _ _ _))) fun blocks _ => ?_
  refine Triple.seq (holds_still (still_talk (talk_read trivial))) fun commit _ => Triple.seq holds_lift fun _ _ => ?_
  refine Triple.seq holds_lift fun _ hbytes => Triple.seq (holds_still (still_talk (talk_authorize _ _))) fun _ _ => ?_
  have hright := digest_of_manifest (ensure_eq_ok.mp hbytes) (Manifest.validate_eq_ok.mp hvalid).1
  rw [ensure_eq_ok.mp hhash] at hright
  refine StocksOn.andThen ?_ fun _ => stocks_talk (talk_send trivial)
  refine (Triple.act (Q := fun _ => Stock P shown ready) stable_holds (fun _ h => h.stock.weaken) (fun _ => stable_stock)
    (fun _ _ h => h.weaken) fun s hs => ⟨trivial, hs.stock.insert hright⟩).conseq (fun _ h => h) fun r s hr => ?_
  rcases r with e | a
  · exact hr
  · exact hr

/-! ### Applying -/

theorem stocksOn_applyLocal {path : String} {l : Row} (hl : i.entries[path]? = some l) :
    StocksOn P shown ready i o (applyLocal P path l : Io (Share β) Unit) := by
  have hrest : ∀ (r : Revision) (object : Option String), l.versions.selected P = some r → StocksOn P shown ready i o (do
      checkRoot
      let id ← randomId
      Root.apply P id path l.materialized r.content (object.map readObject)
      transaction fun i => i.applied P path l.versions r.content : Io (Share β) Unit) := by
    intro r object hr
    refine Triple.seq (holds_still still_checkRoot) fun _ _ =>
      Triple.seq (V := fun _ => True) (holds_still (Tries.act fun _ => ⟨rfl, rfl, rfl⟩)) fun id _ => ?_
    exact Triple.seq (holds_still (still_apply _ _ _ _ _)) fun _ _ =>
      stocksOn_gains (fun i' h => Index.gains_applied hl hr h) fun _ => False.elim
  unfold applyLocal
  split
  next r hr =>
    refine Triple.seq holds_lift fun selected hsel => ?_
    obtain rfl := Except.ok.inj hsel
    beta_reduce
    split
    · exact Triple.seq (holds_still (still_talk (only_lift _))) fun object _ =>
        Triple.seq (holds_still (still_talk (only_pure _))) fun _ _ => hrest r _ hr
    · exact Triple.seq (holds_still (still_talk (only_pure _))) fun _ _ => hrest r _ hr
  next => exact Triple.seq holds_lift fun _ h => by cases h

theorem stocks_applyPages (peer : String) (fuel : ℕ) :
    Stocks P shown ready (applyPages P peer fuel : Io (Share β) Unit) := by
  induction fuel with
  | zero => exact stocks_talk (only_fail _)
  | succ fuel ih =>
    refine (stocks_talk (talk_look _)).andThen fun paths => ?_
    split
    · exact stocks_pure _
    · refine Stocks.andThen (stocks_forM fun path => stocks_iff.mpr fun i o => ?_) fun _ => ih
      refine Triple.seq (holds_look (V := fun found => i.entries[path]? = found) fun s hs => by rw [← hs.index])
        fun found hfound => ?_
      split
      · exact Triple.seq (holds_still (still_talk (talk_authorize _ _))) fun _ _ => stocksOn_applyLocal hfound
      · exact (stocks_pure _).on

theorem stocks_applyPending (peer : String) : Stocks P shown ready (applyPending P peer : Io (Share β) Unit) :=
  (stocks_talk (talk_look _)).andThen fun _ => stocks_applyPages _ _

/-- Merging names only what is there when the share is ready. -/
theorem stocks_joinStaged : Stocks P shown true (joinStaged P : Io (Share β) Unit) :=
  stocks_iff.mpr fun i o => holds_transaction fun s i' hs hi => by
    obtain ⟨hstock, rfl, rfl⟩ := hs
    have hnamed : ∀ hash, i'.Named shown hash → s.index.Named shown hash ∨ s.index.Heard hash :=
      (Index.named_joinIncoming hi).1
    have hincoming : i'.incoming = ∅ := (@Index.named_joinIncoming P shown s.index i' hi).2
    refine ⟨hstock.right, fun hash hn => (hnamed hash hn).elim (hstock.named hash) fun hh => ?_, fun hash hh => ?_,
      hstock.seen, hstock.plain⟩
    · exact (hstock.expected hash hh).resolve_right fun h => by cases h.1
    · obtain ⟨path, v, hv, -⟩ := hh
      rw [hincoming] at hv
      simp at hv

/-- A share that need not be ready afterwards. -/
theorem Stocks.weaken {p : Io (Share β) α} (h : Stocks P shown true p) :
    Triple (stocking P shown) (Stock P shown true) p
      (outcome (fun _ => Stock P shown false) fun _ => Stock P shown false) :=
  Triple.conseq h (fun _ h => h) fun r s hr => by
    rcases r with e | a
    · exact Stock.weaken hr
    · exact Stock.weaken hr

theorem stocks_commitIncoming (peer : String) : Stocks P shown false (commitIncoming P peer : Io (Share β) Unit) := by
  refine (stocks_talk (talk_authorize _ _)).andThen fun _ => (stocks_still still_checkRoot).andThen
      fun _ => stocks_iff.mpr fun i o => ?_
  refine Triple.seq (Triple.seq holds_lift fun _ _ => holds_look (V := fun missing => missing = i.needed.toList.take 1)
    fun s hs => by rw [← hs.index]) fun missing hmissing => Triple.seq holds_lift fun _ hnone => ?_
  -- nothing is missing, so the share is ready to merge
  have hready : ∀ s : Share β, Holds P shown false i o s → Holds P shown true i o s := by
    rintro s ⟨hstock, rfl, rfl⟩
    refine ⟨⟨hstock.right, hstock.named, fun hash hh => ?_, hstock.seen, hstock.plain⟩, rfl, rfl⟩
    rcases hstock.expected hash hh with h | ⟨-, h⟩
    · exact .inl h
    · rw [ensure_eq_ok.mp hnone] at hmissing
      have hnil : s.index.needed.toList = [] := by simpa using hmissing.symm
      rw [← Std.ExtTreeSet.mem_toList, hnil] at h
      cases h
  refine Triple.conseq (?_ : Triple (stocking P shown) (Holds P shown true i o) _ _) hready fun _ _ h => h
  have hclear : Stocks P shown true
      (transaction fun i => .ok { i with recoveryPending := false } : Io (Share β) Unit) :=
    stocks_aside fun i => ⟨fun _ h => .inl h, rfl, rfl⟩
  refine (Stocks.weaken ((stocks_talk (talk_look _)).andThen fun recovering => ?_)).conseq (fun _ h => h.stock)
      fun _ _ h => h
  cases recovering with
  | true =>
    exact (stocks_pure ()).andThen fun _ => stocks_joinStaged.andThen fun _ => (stocks_scanInner false).andThen fun _ =>
      (stocks_pure ()).andThen fun _ => (stocks_applyPending peer).andThen fun _ => hclear
  | false =>
    exact (stocks_scan false).andThen fun _ => (stocks_pure ()).andThen fun _ => stocks_joinStaged.andThen fun _ =>
      (stocks_pure ()).andThen fun _ => (stocks_applyPending peer).andThen fun _ => stocks_pure ()

/-! ### Sessions and decisions -/

theorem stocks_readPages (peer : String) (theirs : Hello) (fuel last : ℕ) :
    Stocks P shown false (readPages P W peer theirs fuel last) := by
  induction fuel generalizing last with
  | zero => exact stocks_talk (only_fail _)
  | succ fuel ih =>
    refine (stocks_talk (talk_authorize _ _)).andThen fun _ => (stocks_talk (talk_read trivial)).andThen fun m => ?_
    split
    · exact stocks_pure _
    · exact (stocks_talk (only_lift _)).andThen fun _ => (stocks_talk (only_lift _)).andThen fun _ =>
        (stocks_stage _ _).andThen fun _ => ih _

theorem stocks_pullPages (peer : String) (fuel : ℕ) : Stocks P shown false (pullPages P W peer fuel) := by
  induction fuel with
  | zero => exact stocks_talk (only_fail _)
  | succ fuel ih =>
    refine (stocks_talk (talk_missingObjects _)).andThen fun missing => (stocks_talk (talk_send trivial)).andThen
        fun _ => ?_
    split
    · exact stocks_pure _
    · refine Stocks.andThen (stocks_forM fun hash => ?_) fun _ => ih
      exact (stocks_talk (talk_basisObject _)).andThen fun _ => (stocks_receiveObject _ _ _).andThen fun _ =>
        stocks_objectReceived _

theorem stocks_opening (peer : String) : Stocks P shown false (opening P peer : Io (Share β) Unit) := by
  refine (stocks_talk (talk_authorize _ _)).andThen fun _ => (stocks_still still_open).andThen fun _ =>
    (stocks_talk (talk_authorize _ _)).andThen fun _ => (stocks_talk (talk_look _)).andThen fun pending => ?_
  split
  · exact (stocks_pure ()).andThen fun _ => stocks_beginIncoming
  · exact (stocks_scan false).andThen fun _ => (stocks_pure ()).andThen fun _ => stocks_beginIncoming

theorem stocks_transfer (peer : String) (client : Bool) (rounds : ℕ) (mine theirs : Hello) :
    Stocks P shown false (transfer P W peer client rounds mine theirs) := by
  have hsend : Stocks P shown false (sendMetadata peer mine theirs : Io (Share β) Unit) :=
    stocks_talk (talk_sendMetadata (fun _ => trivial) _ _ _)
  have hserve : Stocks P shown false (serveObjects P W peer rounds) :=
    stocks_talk (talk_serveObjects W.all (fun _ => trivial) _ _)
  have hpull : Stocks P shown false (pullObjects P W peer) :=
    (stocks_talk (talk_look _)).andThen fun _ => stocks_pullPages _ _
  unfold transfer readMetadata
  split
  · exact hsend.andThen fun _ => (stocks_readPages _ _ _ _).andThen fun _ => hserve.andThen fun _ => hpull
  · exact (stocks_readPages _ _ _ _).andThen fun _ => hsend.andThen fun _ => hpull.andThen fun _ => hserve

theorem stocks_conclude (peer : String) (theirs : Hello) : Stocks P shown false (conclude P W peer theirs) := by
  have hend : Stocks P shown false (do
      authorize peer false
      send (.text "applied")
      let applied ← read W.text
      ensure (applied = "applied") "peer did not apply changes"
      transaction fun i => .ok (i.setCursor peer theirs.epoch theirs.sequence) : Io (Share β) Unit) :=
    (stocks_talk (talk_authorize _ _)).andThen fun _ => (stocks_talk (talk_send trivial)).andThen fun _ =>
      (stocks_talk (talk_read trivial)).andThen fun _ => (stocks_talk (only_lift _)).andThen fun _ =>
        stocks_aside fun i => ⟨fun _ h => .inl h, rfl, rfl⟩
  refine (stocks_talk (talk_look _)).andThen fun config => ?_
  split
  · exact (stocks_commitIncoming _).andThen fun _ => hend
  · exact (stocks_pure ()).andThen fun _ => hend

theorem stocks_session (peer : String) (client : Bool) (rounds : ℕ) :
    Stocks P shown false (session P W peer client rounds) :=
  (stocks_opening _).andThen fun _ => (stocks_talk (talk_handshake W.all (fun _ => trivial) _)).andThen fun _ =>
    (stocks_transfer _ _ _ _ _).andThen fun _ => stocks_conclude _ _

/-- The row that is read is the one of the index. -/
theorem holds_local (path text : String) : Triple (stocking P shown) (Holds P shown ready i o)
    (local_ path text : Io (Share β) Row)
    (outcome (fun l s => Holds P shown ready i o s ∧ i.entries[path]? = some l) fun _ => Stock P shown ready) := by
  refine Triple.seq (holds_look (V := fun found => i.entries[path]? = found) fun s hs => by rw [← hs.index])
      fun found hfound => ?_
  cases found with
  | none => exact Triple.ofExcept stable_holds (fun _ h => h.stock.weaken) fun _ hs => hs.stock
  | some l => exact Triple.ofExcept stable_holds (fun _ h => h.stock.weaken) fun _ hs => ⟨hs, hfound⟩

theorem stocks_choose (path revision : String) (historical : Bool) :
    Stocks P false false (choose P path revision historical : Io (Share β) Unit) := by
  refine (stocks_talk (only_lift _)).andThen fun _ => (stocks_scan false).andThen fun _ => stocks_iff.mpr fun i o => ?_
  refine Triple.seq (holds_local _ _) fun l hl =>
    Triple.seq (holds_still (still_talk (talk_findRevision _ _ _ _))) fun chosen _ => ?_
  have hrest : (∀ hash, Index.object chosen.content = some hash → hash ∈ o) → StocksOn P false false i o (do
      let config ← Fallible.look fun s : Share β => s.config
      let versions ← l.versions.edit P config.replica chosen.content
      let actual ← Root.content P path
      transaction fun i => i.choose P path versions actual l.observed
      let l ← local_ path "unknown path"
      applyLocal P path l : Io (Share β) Unit) := by
    intro hobject
    refine Triple.seq (holds_still (still_talk (talk_look _))) fun config _ => Triple.seq holds_lift fun versions hv =>
      Triple.seq (holds_still (tries_content P still_files path)) fun actual _ => ?_
    refine StocksOn.andThen (stocksOn_gains (fun i' h => Index.gains_choose hl hv h) hobject)
        fun _ => stocks_iff.mpr fun j o' => ?_
    exact Triple.seq (holds_local _ _) fun l' hl' => stocksOn_applyLocal hl'
  split
  next hash hhash =>
    refine Triple.seq holds_lift fun object hobject => Triple.seq (holds_objectManifest object) fun _ hmem =>
      Triple.seq holds_lift fun _ _ => hrest fun k hk => ?_
    obtain ⟨-, hobject⟩ := ensure_bind_eq_ok.mp hobject
    obtain rfl := pure_eq_ok.mp hobject
    obtain rfl := Option.some.inj (hhash.symm.trans hk)
    exact hmem
  next hnone => exact hrest fun k hk => by rw [hnone] at hk; cases hk

theorem stocks_approveDeletion (path : String) (expected : Versions) :
    Stocks P shown ready (approveDeletion P path expected : Io (Share β) Unit) := by
  refine (stocks_talk (only_lift _)).andThen fun _ => (stocks_scan false).andThen fun _ => stocks_iff.mpr fun i o => ?_
  refine Triple.seq (holds_local _ _) fun l hl => Triple.seq (holds_still (still_talk (talk_look _))) fun pending _ =>
    Triple.seq holds_lift fun _ _ => Triple.seq (holds_still still_checkRoot) fun _ _ =>
      Triple.seq (holds_still (tries_content P still_files path)) fun actual _ => Triple.seq holds_lift fun _ _ =>
        Triple.seq (holds_still (still_talk (talk_look _))) fun config _ => ?_
  exact stocksOn_gains (fun i' h => Index.gains_approve hl h) fun _ => False.elim

theorem stocks_activateDevice (mode : Mode) (offline : Bool) :
    Stocks P shown ready (activateDevice P mode offline : Io (Share β) Unit) := by
  have hmode : Stocks P shown ready
      (Fallible.act fun s => (.ok (), { s with config := { s.config with mode := mode } }) : Io (Share β) Unit) :=
    stocks_still (V := fun _ => True) (Tries.act fun _ => ⟨rfl, rfl, rfl⟩)
  refine (stocks_still still_open).andThen fun _ => (stocks_talk (talk_look _)).andThen fun pending =>
    (stocks_talk (only_lift _)).andThen fun _ => ?_
  split
  · exact (stocks_aside (f := fun i => { i with recoveryPending := false }) fun i =>
      ⟨fun _ h => .inl h, rfl, rfl⟩).andThen fun _ => hmode
  · exact (stocks_pure ()).andThen fun _ => hmode

/-- **Every operation keeps the objects in order.** A decision does so only as far as the revisions go. -/
theorem stocks_program (op : Op) (hop : shown = true → ∀ path revision historical,
    op ≠ .choose path revision historical) :
    Stocks P shown false (op.program P W) := by
  cases op with
  | scan approveDeletes =>
    exact (stocks_still still_open).andThen fun _ => (stocks_scan _).andThen fun _ => stocks_pure _
  | session peer client rounds => exact stocks_session _ _ _
  | choose path revision historical =>
    cases shown with
    | false => exact (stocks_still still_open).andThen fun _ => stocks_choose _ _ _
    | true => exact absurd rfl (hop rfl path revision historical)
  | approveDeletion path expected => exact (stocks_still still_open).andThen fun _ => stocks_approveDeletion _ _
  | activateDevice mode offline => exact stocks_activateDevice _ _

end Share
end Everywhere
