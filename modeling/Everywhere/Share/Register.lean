import Everywhere.Folder.Root
import Everywhere.Share.Index

/-!
# The causal register

Every change of a row is a call of `save`, and there are seven kinds of calls (`Saves`). A row is well formed
(`Row.Wf`) when what the user has seen is part of what is known, and when, if the user has seen all of it, the
selected content is what stands in the folder. Each kind of call keeps the rows well formed
(`Saves.wf`), whatever the other transactions do in between.

That a merge cannot by itself make the two version sets equal is antisymmetry: a version set that
lies between two equal ones is equal to both (`Versions.Canonical.ext`).
-/

namespace Everywhere

open Library

/-! ### Editing -/

namespace Versions

variable {P : Platform} {v r : Versions} {device : String} {content : Content}

theorem get_foldl_merge (l : List Revision) (c : Clock) :
    c.get ≤ (l.foldl (fun v h => v.merge h.clock) c).get ∧
      ∀ h ∈ l, h.clock.get ≤ (l.foldl (fun v h => v.merge h.clock) c).get := by
  induction l generalizing c with
  | nil => simp
  | cons h l ih =>
    obtain ⟨hc, hl⟩ := ih (c.merge h.clock)
    rw [Clock.get_merge] at hc
    refine ⟨le_sup_left.trans hc, List.forall_mem_cons.mpr ⟨le_sup_right.trans hc, hl⟩⟩

/-- The clock of a version set has seen every head. -/
theorem clock_le {h : Revision} (hh : h ∈ v.heads) : h.clock.get ≤ v.clock.get := (get_foldl_merge _ _).2 h hh

/-- What an edit makes: one revision, which supersedes all heads. -/
theorem edit_ok (h : v.edit P device content = .ok r) : ∃ e : Revision, r = ⟨[e]⟩ ∧ e.content = content ∧
    e.clock.get = Function.update v.clock.get device (v.clock.get device + 1) ∧ r.Canonical P := by
  obtain ⟨clock, hclock, rfl, hr⟩ := edit_eq_ok.mp h
  exact ⟨⟨clock, content⟩, rfl, rfl, Clock.get_advance hclock, hr⟩

theorem lt_update (f : String → ℕ) (d : String) : f < Function.update f d (f d + 1) := by
  refine lt_of_le_of_ne (fun x => ?_) fun he => ?_
  · rw [Function.update_apply]
    split_ifs with hx
    · rw [hx]; exact Nat.le_succ _
    · exact le_rfl
  · have := congrFun he d
    rw [Function.update_self] at this
    exact absurd this (Nat.lt_succ_self _).ne

/-- The new revision supersedes every head. -/
theorem lt_of_edit (h : v.edit P device content = .ok r) {e x : Revision} (he : e ∈ r.heads) (hx : x ∈ v.heads) :
    x < e := by
  obtain ⟨e', rfl, -, hclock, -⟩ := edit_ok h
  obtain rfl : e = e' := by simpa using he
  rw [Revision.lt_iff, hclock]
  exact (clock_le hx).trans_lt (lt_update _ _)

theorem known_le_edit (h : v.edit P device content = .ok r) : v.known ≤ r.known := by
  obtain ⟨e, rfl, -, -, -⟩ := edit_ok h
  rintro x ⟨y, hy, hxy⟩
  exact ⟨e, by simp, hxy.trans (lt_of_edit h (by simp) hy).le⟩

/-- Nothing below the heads of a version set knows an edit of it. -/
theorem edit_not_known (h : v.edit P device content = .ok r) : ¬ r.known ≤ v.known := by
  obtain ⟨e, rfl, -, -, -⟩ := edit_ok h
  intro hle
  obtain ⟨x, hx, hex⟩ := hle (show e ∈ (⟨[e]⟩ : Versions).known from ⟨e, by simp, le_rfl⟩)
  exact (hex.trans_lt (lt_of_edit h (by simp) hx)).ne rfl

theorem ne_nil_of_known {w : Versions} (h : v.known ≤ w.known) (hv : v.heads ≠ []) : w.heads ≠ [] := by
  obtain ⟨x, hx⟩ := List.exists_mem_of_ne_nil _ hv
  obtain ⟨y, hy, -⟩ := h (show x ∈ v.known from ⟨x, hx, le_rfl⟩)
  exact List.ne_nil_of_mem hy

/-! ### The selected head -/

theorem foldl_min_mem {α κ : Type} [LinearOrder κ] (key : α → κ) (l : List α) (a : α) :
    l.foldl (fun best b => if key b < key best then b else best) a ∈ a :: l := by
  induction l generalizing a with
  | nil => simp
  | cons b l ih =>
    rw [List.foldl_cons]
    split_ifs
    · exact List.mem_cons_of_mem _ (ih b)
    · rcases List.mem_cons.mp (ih a) with h | h
      · rw [h]; simp
      · exact List.mem_cons_of_mem _ (List.mem_cons_of_mem _ h)

theorem selected_mem {e : Revision} (h : v.selected P = some e) : e ∈ v.heads := by
  rw [selected] at h
  cases hl : v.heads with
  | nil => rw [hl] at h; cases h
  | cons a l =>
    rw [hl, minByKey, Option.some.injEq] at h
    rw [← h]
    exact foldl_min_mem _ _ _

@[simp] theorem selected_singleton (e : Revision) : (⟨[e]⟩ : Versions).selected P = some e := rfl

end Versions

/-! ### Rows -/

/-- A row is as it should be. -/
structure Row.Wf (P : Platform) (l : Row) : Prop where
  /-- The version set is in its canonical form. -/
  versions : l.versions.Canonical P
  /-- So is what the user has seen. -/
  observed : l.observed.Canonical P
  /-- There is a revision. -/
  nonempty : l.versions.heads ≠ []
  /-- What the user has seen is known. -/
  known_le : l.observed.known ≤ l.versions.known
  /-- A deletion does not stand in the folder. -/
  not_deleted : l.materialized ≠ some .deleted
  /-- Where the user has seen everything, the selected content stands in the folder. -/
  visible : l.observed = l.versions →
    l.materialized = (l.versions.selected P).bind fun r => Index.visible r.content

/-- What a peer may have sent: a version set in canonical form, with a head. -/
structure Versions.Proper (P : Platform) (v : Versions) : Prop where
  /-- The form. -/
  canonical : v.Canonical P
  /-- There is a revision. -/
  nonempty : v.heads ≠ []

namespace Index

/-- An index whose rows are as they should be. -/
structure Wf (P : Platform) (i : Index) : Prop where
  /-- The rows. -/
  rows : ∀ (path : String) (l : Row), i.entries[path]? = some l → l.Wf P
  /-- What was taken in. -/
  incoming : ∀ (path : String) (v : Versions), i.incoming[path]? = some v → v.Proper P

variable {P : Platform} {replica path : String} {approve settle : Bool} {i i' i'' : Index} {l : Row} {v o : Versions} {m : Option Content}

/-! ### What save does -/

/-- The number of the row that `save` writes. -/
def nextSeq (i : Index) (path : String) (v : Versions) : ℕ :=
  if (i.entries[path]?.all fun l => l.versions ≠ v) then i.seq + 1 else i.entries[path]?.elim 0 fun l => l.seq

/-- The revisions kept after `save`. -/
def nextHistory (P : Platform) (i : Index) (path : String) (v : Versions) : List Retained :=
  ((i.entries[path]?.elim [] fun l => l.versions.heads) ++ v.heads).foldl (retain P path) i.history

theorem save_eq_ok : i.save P path v m o = .ok i' ↔ validatePath path = .ok () ∧
    ((i.entries[path]?.all fun l => l.versions ≠ v) → i.seq + 1 ≤ i64Max) ∧
    (∀ other ∈ i.entries.keys, other ≠ path → collisionKey P other ≠ collisionKey P path) ∧
    i' = { i with
      seq := if (i.entries[path]?.all fun l => l.versions ≠ v) then i.seq + 1 else i.seq
      history := nextHistory P i path v
      entries := i.entries.insert path ⟨v, m, o, i.nextSeq path v⟩ } := by
  rw [save, bind_eq_ok]
  simp only [ensure_bind_eq_ok, pure_eq_ok]
  constructor
  · rintro ⟨⟨⟩, hp, hs, hu, rfl⟩
    exact ⟨hp, hs, hu, rfl⟩
  · rintro ⟨hp, hs, hu, rfl⟩
    exact ⟨(), hp, hs, hu, rfl⟩

theorem save_entries (h : i.save P path v m o = .ok i') (q : String) :
    i'.entries[q]? = if q = path then some ⟨v, m, o, i.nextSeq path v⟩ else i.entries[q]? := by
  obtain ⟨-, -, -, rfl⟩ := save_eq_ok.mp h
  simp only [Std.ExtTreeMap.getElem?_insert, Std.LawfulEqCmp.compare_eq_iff_eq]
  exact if_congr eq_comm rfl rfl

theorem save_incoming (h : i.save P path v m o = .ok i') : i'.incoming = i.incoming := by
  obtain ⟨-, -, -, rfl⟩ := save_eq_ok.mp h
  rfl

/-- Writing a well-formed row keeps the index well formed. -/
theorem Wf.save (hi : i.Wf P) (hl : (⟨v, m, o, i.nextSeq path v⟩ : Row).Wf P) (h : i.save P path v m o = .ok i') :
    i'.Wf P := by
  refine ⟨fun q l hq => ?_, fun q w hq => hi.incoming q w (by rwa [save_incoming h] at hq)⟩
  rw [save_entries h] at hq
  split_ifs at hq with hp
  · obtain rfl := Option.some.inj hq
    exact hl
  · exact hi.rows q l hq

/-! ### The calls of save -/

/-- The calls of `save`, with what the program has made sure of, and whether a deletion was approved. -/
inductive Saves (P : Platform) (replica : String) (approve : Bool) (i : Index) (path : String) : Index → Prop where
  /-- A head stands in the folder, put there before the index could take note. -/
  | adopt {l : Row} {content : Content} {i' : Index} : i.entries[path]? = some l → l.versions ≠ l.observed →
      (∃ r ∈ l.versions.heads, r.content = content) → content ≠ .deleted →
      i.save P path l.versions (some content)
        (if (l.versions.selected P).any (fun r => r.content = content) then l.versions else l.observed) = .ok i' →
      Saves P replica approve i path i'
  /-- A new path. -/
  | found {mine : Versions} {content : Content} {i' : Index} : i.entries[path]? = none → content ≠ .deleted →
      Versions.default.edit P replica content = .ok mine →
      i.save P path mine (some content) mine = .ok i' → Saves P replica approve i path i'
  /-- A local change, or an approved deletion. -/
  | edit {l : Row} {mine combined : Versions} {content : Content} {i' : Index} : i.entries[path]? = some l →
      (content = .deleted → approve = true) → l.observed.edit P replica content = .ok mine →
      l.versions.join P mine = .ok combined →
      i.save P path combined (visible content) mine = .ok i' → Saves P replica approve i path i'
  /-- The selected content has been put into the folder, or taken out of it. -/
  | applied {l : Row} {r : Revision} {i' : Index} : i.entries[path]? = some l →
      l.versions.selected P = some r → i.applied P path l.versions r.content = .ok i' → Saves P replica approve i path i'
  /-- The version set of a peer for a path that is not known. -/
  | learned {remote : Versions} {i' : Index} : i.entries[path]? = none → i.incoming[path]? = some remote →
      i.save P path remote none .default = .ok i' → Saves P replica approve i path i'
  /-- The version set of a peer. -/
  | merged {l : Row} {remote versions : Versions} {i' : Index} : i.entries[path]? = some l →
      i.incoming[path]? = some remote → l.versions.join P remote = .ok versions →
      i.save P path versions l.materialized l.observed = .ok i' → Saves P replica approve i path i'
  /-- The resolution of a conflict. -/
  | chosen {l : Row} {versions : Versions} {content : Content} {actual : Option Content} {i' : Index} :
      i.entries[path]? = some l → (content = .deleted → approve = true) →
      l.versions.edit P replica content = .ok versions → Hashed P actual →
      i.save P path versions actual l.observed = .ok i' → Saves P replica approve i path i'

theorem visible_of_ne {c : Content} (hc : c ≠ .deleted) : visible c = some c := by
  cases c with
  | deleted => exact absurd rfl hc
  | _ => rfl

theorem visible_ne (c : Content) : visible c ≠ some .deleted := by cases c <;> simp [visible]

section

variable (hid : Function.Injective (Revision.id P))
include hid

theorem known_merge {a b r : Versions} (h : a.join P b = .ok r) : r.known = a.known ⊔ b.known :=
  Versions.known_join hid.injOn h

/-- What a local change does to a row. -/
theorem wf_edit {mine combined : Versions} {content : Content} {seq : ℕ} (hl : l.Wf P)
    (hm : l.observed.edit P replica content = .ok mine) (hc : l.versions.join P mine = .ok combined) :
    (⟨combined, visible content, mine, seq⟩ : Row).Wf P := by
  obtain ⟨e, rfl, rfl, -, hmine⟩ := Versions.edit_ok hm
  have hk := known_merge hid hc
  refine ⟨Versions.canonical_join hc, hmine, ?_, hk ▸ le_sup_right, visible_ne _, fun he => ?_⟩
  · exact Versions.ne_nil_of_known (hk ▸ le_sup_left) hl.nonempty
  · change (⟨[e]⟩ : Versions) = combined at he
    change visible e.content = _
    rw [← he]
    rfl

/-- What a merge does to a row. -/
theorem wf_merge {remote versions : Versions} {seq : ℕ} (hl : l.Wf P)
    (h : l.versions.join P remote = .ok versions) : (⟨versions, l.materialized, l.observed, seq⟩ : Row).Wf P := by
  have hk := known_merge hid h
  have hle : l.versions.known ≤ versions.known := hk ▸ le_sup_left
  have hcan := Versions.canonical_join h
  refine ⟨hcan, hl.observed, Versions.ne_nil_of_known hle hl.nonempty, hl.known_le.trans hle, hl.not_deleted, ?_⟩
  intro he
  change l.observed = versions at he
  -- the old version set lies between what was observed and the new one
  obtain rfl : l.versions = versions :=
    hl.versions.ext hcan (le_antisymm hle (he ▸ hl.known_le))
  exact hl.visible he

/-- **The step lemma of the register**: every call of `save` keeps the index well formed. -/
theorem Saves.wf (hi : i.Wf P) (h : Saves P replica approve i path i') : i'.Wf P := by
  cases h with
  | adopt hp hne _ hc h =>
    have hl := hi.rows _ _ hp
    refine hi.save ?_ h
    split_ifs with hsel
    · refine ⟨hl.versions, hl.versions, hl.nonempty, le_rfl, by simpa using hc, fun _ => ?_⟩
      obtain ⟨r, hr, hrc⟩ := (Option.any_eq_true _ _).mp hsel
      change some _ = _
      rw [hr, Option.bind_some, of_decide_eq_true hrc, visible_of_ne hc]
    · exact ⟨hl.versions, hl.observed, hl.nonempty, hl.known_le, by simpa using hc, fun he => absurd he.symm hne⟩
  | found hp hc hm h =>
    obtain ⟨e, rfl, rfl, -, hmine⟩ := Versions.edit_ok hm
    refine hi.save ⟨hmine, hmine, by simp, le_rfl, by simpa using hc, fun _ => ?_⟩ h
    change some _ = _
    rw [Versions.selected_singleton, Option.bind_some, visible_of_ne hc]
  | edit hp _ hm hj h => exact hi.save (wf_edit hid (hi.rows _ _ hp) hm hj) h
  | applied hp hr h =>
    have hl := hi.rows _ _ hp
    refine hi.save ⟨hl.versions, hl.versions, hl.nonempty, le_rfl, visible_ne _, fun _ => ?_⟩ h
    change visible _ = _
    rw [hr, Option.bind_some]
  | learned hp hin h =>
    have hremote := hi.incoming _ _ hin
    refine hi.save ⟨hremote.canonical, Versions.canonical_default P, hremote.nonempty, ?_, by simp, fun he => ?_⟩ h
    · exact Versions.known_default.trans_le bot_le
    exact absurd (congrArg Versions.heads he.symm) hremote.nonempty
  | merged hp hin hj h => exact hi.save (wf_merge hid (hi.rows _ _ hp) hj) h
  | @chosen l _ _ _ _ hp _ he ha h =>
    have hl := hi.rows _ _ hp
    have hk := hl.known_le.trans (Versions.known_le_edit he)
    obtain ⟨e, rfl, -, -, hv⟩ := Versions.edit_ok he
    refine hi.save ⟨hv, hl.observed, by simp, hk, by rintro rfl; exact ha, fun heq => ?_⟩ h
    -- what was observed cannot contain the new revision
    change l.observed = ⟨[e]⟩ at heq
    exact absurd (heq ▸ hl.known_le) (Versions.edit_not_known he)

end

/-! ### What is kept -/

/-- The revisions kept for a path. -/
def revisions (i : Index) (path : String) : Set Revision := {r | ∃ e ∈ i.history, e.path = path ∧ e.revision = r}

theorem finite_revisions (i : Index) (path : String) : (i.revisions path).Finite := by
  refine ((List.finite_toSet i.history).image Retained.revision).subset ?_
  rintro r ⟨e, he, -, rfl⟩
  exact ⟨e, he, rfl⟩

/-- What the kept revisions say of the rows. -/
structure Kept (P : Platform) (i : Index) : Prop where
  /-- Each is found by its identifier. -/
  ids : ∀ e ∈ i.history, e.id = e.revision.id P
  /-- The heads of a path are the maximal ones. -/
  heads : ∀ (path : String) (l : Row), i.entries[path]? = some l → l.versions.headSet = frontier (i.revisions path)

theorem prefix_retain (history : List Retained) (r : Revision) : history <+: retain P path history r := by
  unfold retain
  split_ifs
  · exact List.prefix_rfl
  · exact List.prefix_append _ _

theorem prefix_foldl_retain (rs : List Revision) (history : List Retained) :
    history <+: rs.foldl (retain P path) history := by
  induction rs generalizing history with
  | nil => exact List.prefix_rfl
  | cons r rs ih => exact (prefix_retain history r).trans (ih _)

/-- Kept revisions are never removed or changed by `save`. -/
theorem save_history (h : i.save P path v m o = .ok i') : i.history <+: i'.history := by
  obtain ⟨-, -, -, rfl⟩ := save_eq_ok.mp h
  exact prefix_foldl_retain _ _

/-- After `retain`, the revision is kept. -/
theorem mem_retain (hid : Function.Injective (Revision.id P)) {history : List Retained} {r : Revision}
    (hids : ∀ e ∈ history, e.id = e.revision.id P) {e : Retained} : e ∈ retain P path history r ↔
      e ∈ history ∨ e = ⟨path, r.id P, r⟩ := by
  unfold retain
  split_ifs with hex
  · refine ⟨.inl, fun he => he.elim id ?_⟩
    rintro rfl
    obtain ⟨k, hk, rfl, hr⟩ := hex
    -- the identifier tells revisions apart
    obtain rfl : k.revision = r := hid ((hids k hk).symm.trans hr)
    rw [← hr]
    exact hk
  · simp

theorem mem_foldl_retain (hid : Function.Injective (Revision.id P)) (rs : List Revision) {history : List Retained}
    (hids : ∀ e ∈ history, e.id = e.revision.id P) {e : Retained} : e ∈ rs.foldl (retain P path) history ↔
      e ∈ history ∨ ∃ r ∈ rs, e = ⟨path, r.id P, r⟩ := by
  induction rs generalizing history with
  | nil => simp
  | cons r rs ih =>
    rw [List.foldl_cons, ih, mem_retain hid hids]
    · simp [or_assoc]
    · intro e he
      rcases (mem_retain hid hids).mp he with he | rfl
      · exact hids e he
      · rfl

/-- A version set that follows another one in the causal order takes its place among the kept revisions. -/
theorem Kept.save (hid : Function.Injective (Revision.id P)) (hk : i.Kept P) (hv : v.Canonical P)
    (hle : ∀ l, i.entries[path]? = some l → l.versions.known ≤ v.known)
    (hnew : i.entries[path]? = none → i.revisions path = ∅)
    (h : i.save P path v m o = .ok i') : i'.Kept P ∧
      i'.revisions path = i.revisions path ∪ v.headSet ∧ ∀ q ≠ path, i'.revisions q = i.revisions q := by
  obtain ⟨-, -, -, hi'⟩ := save_eq_ok.mp h
  have hmem : ∀ e, e ∈ i'.history ↔ e ∈ i.history ∨
      ∃ r ∈ (i.entries[path]?.elim [] fun l => l.versions.heads) ++ v.heads, e = ⟨path, r.id P, r⟩ := fun e => by
    rw [hi']
    exact mem_foldl_retain hid _ hk.ids
  -- the heads so far are among the kept revisions
  have hprior : ∀ r ∈ (i.entries[path]?.elim [] fun l => l.versions.heads), r ∈ i.revisions path := by
    cases hp : i.entries[path]? with
    | none => simp
    | some l => exact fun r hr => frontier_subset (hk.heads path l hp ▸ (show r ∈ l.versions.headSet from hr))
  have hrev : i'.revisions path = i.revisions path ∪ v.headSet := by
    ext r
    constructor
    · rintro ⟨e, he, hpath, rfl⟩
      rcases (hmem e).mp he with he | ⟨r, hr, rfl⟩
      · exact .inl ⟨e, he, hpath, rfl⟩
      · rcases List.mem_append.mp hr with hr | hr
        · exact .inl (hprior r hr)
        · exact .inr hr
    · rintro (⟨e, he, hpath, rfl⟩ | hr)
      · exact ⟨e, (hmem e).mpr (.inl he), hpath, rfl⟩
      · exact ⟨_, (hmem _).mpr (.inr ⟨r, List.mem_append_right _ hr, rfl⟩), rfl, rfl⟩
  have hother : ∀ q ≠ path, i'.revisions q = i.revisions q := by
    intro q hq
    ext r
    constructor
    · rintro ⟨e, he, hpath, rfl⟩
      rcases (hmem e).mp he with he | ⟨r, hr, rfl⟩
      · exact ⟨e, he, hpath, rfl⟩
      · exact absurd hpath.symm hq
    · rintro ⟨e, he, hpath, rfl⟩
      exact ⟨e, (hmem e).mpr (.inl he), hpath, rfl⟩
  refine ⟨⟨fun e he => ?_, fun q l hq => ?_⟩, hrev, hother⟩
  · rcases (hmem e).mp he with he | ⟨r, hr, rfl⟩
    · exact hk.ids e he
    · rfl
  · rw [save_entries h] at hq
    split_ifs at hq with hp
    · obtain rfl := Option.some.inj hq
      rw [hp, hrev]
      -- everything kept so far is known to the new version set
      have hknown : lowerClosure (i.revisions path) ≤ v.known := by
        cases hrow : i.entries[path]? with
        | none => rw [hnew hrow, lowerClosure_empty]; exact bot_le
        | some l =>
          rw [← lowerClosure_frontier (finite_revisions i path), ← hk.heads path l hrow]
          exact hle l hrow
      refine (frontier_of_isAntichain hv.antichain).symm.trans (frontier_eq_of_lowerClosure ?_)
      rw [lowerClosure_union]
      exact (sup_eq_right.mpr hknown).symm
    · rw [hother q hp]
      exact hk.heads q l hq

/-- Version sets and kept revisions grow. -/
structure Grows (i i' : Index) : Prop where
  /-- Nothing known is forgotten. -/
  known : ∀ (path : String) (l : Row), i.entries[path]? = some l →
    ∃ l', i'.entries[path]? = some l' ∧ l.versions.known ≤ l'.versions.known
  /-- Kept revisions stay as they are. -/
  history : i.history <+: i'.history

theorem Grows.refl (i : Index) : Grows i i := ⟨fun _ l h => ⟨l, h, le_rfl⟩, List.prefix_rfl⟩

theorem Grows.trans (h : Grows i i') (h' : Grows i' i'') : Grows i i'' := by
  refine ⟨fun path l hl => ?_, h.history.trans h'.history⟩
  obtain ⟨l', hl', hle⟩ := h.known path l hl
  obtain ⟨l'', hl'', hle'⟩ := h'.known path l' hl'
  exact ⟨l'', hl'', hle.trans hle'⟩

theorem Saves.saved (h : Saves P replica approve i path i') : ∃ v m o, i.save P path v m o = .ok i' := by
  cases h with
  | adopt _ _ _ _ h | found _ _ _ h | edit _ _ _ _ h | applied _ _ h | learned _ _ h | merged _ _ _ h
  | chosen _ _ _ _ h => exact ⟨_, _, _, h⟩

/-- What every call of `save` has in common: the new version set is in canonical form and follows the old one. -/
theorem Saves.follows (hid : Function.Injective (Revision.id P)) (hi : i.Wf P) (h : Saves P replica approve i path i') :
    ∃ v m o, i.save P path v m o = .ok i' ∧ v.Canonical P ∧
      ∀ l, i.entries[path]? = some l → l.versions.known ≤ v.known := by
  have hsame : ∀ {l : Row} {v : Versions}, i.entries[path]? = some l → l.versions.known ≤ v.known →
      ∀ l', i.entries[path]? = some l' → l'.versions.known ≤ v.known := by
    intro l v hl hle l' hl'
    obtain rfl : l = l' := by simpa [hl] using hl'
    exact hle
  have hnone : ∀ {v : Versions}, i.entries[path]? = none → ∀ l, i.entries[path]? = some l →
      l.versions.known ≤ v.known := by
    intro v hp l hl
    rw [hp] at hl
    cases hl
  cases h with
  | adopt hp _ _ _ h => exact ⟨_, _, _, h, (hi.rows _ _ hp).versions, hsame hp le_rfl⟩
  | found hp _ hm h =>
    obtain ⟨e, rfl, -, -, hmine⟩ := Versions.edit_ok hm
    exact ⟨_, _, _, h, hmine, hnone hp⟩
  | edit hp _ hm hj h =>
    exact ⟨_, _, _, h, Versions.canonical_join hj, hsame hp (known_merge hid hj ▸ le_sup_left)⟩
  | applied hp _ h => exact ⟨_, _, _, h, (hi.rows _ _ hp).versions, hsame hp le_rfl⟩
  | learned hp hin h => exact ⟨_, _, _, h, (hi.incoming _ _ hin).canonical, hnone hp⟩
  | merged hp _ hj h =>
    exact ⟨_, _, _, h, Versions.canonical_join hj, hsame hp (known_merge hid hj ▸ le_sup_left)⟩
  | chosen hp _ he _ h =>
    obtain ⟨e, rfl, -, -, hv⟩ := Versions.edit_ok he
    exact ⟨_, _, _, h, hv, hsame hp (Versions.known_le_edit he)⟩

theorem Saves.grows (hid : Function.Injective (Revision.id P)) (hi : i.Wf P) (h : Saves P replica approve i path i') :
    Grows i i' := by
  obtain ⟨v, m, o, hs, -, hle⟩ := h.follows hid hi
  refine ⟨fun q l hq => ?_, save_history hs⟩
  rw [save_entries hs]
  split_ifs with hp
  · obtain rfl := hp
    exact ⟨_, rfl, hle l hq⟩
  · exact ⟨l, hq, le_rfl⟩

/-- The kept revisions belong to paths that have a row. -/
def Listed (i : Index) : Prop := ∀ path : String, i.entries[path]? = none → i.revisions path = ∅

theorem Saves.kept (hid : Function.Injective (Revision.id P)) (hi : i.Wf P) (hk : i.Kept P) (hl : i.Listed)
    (h : Saves P replica approve i path i') : i'.Kept P ∧ i'.Listed := by
  obtain ⟨v, m, o, hs, hv, hle⟩ := h.follows hid hi
  obtain ⟨hk', -, hother⟩ := hk.save hid hv hle (hl path) hs
  refine ⟨hk', fun q hq => ?_⟩
  rw [save_entries hs] at hq
  split_ifs at hq with hp
  rw [hother q hp]
  exact hl q hq

/-! ### Transactions -/

/-- A change that writes no row. -/
structure Apart (P : Platform) (i i' : Index) : Prop where
  /-- The generation stays. -/
  epoch : i'.epoch = i.epoch
  /-- The rows stay. -/
  entries : i'.entries = i.entries
  /-- So do the revisions kept. -/
  history : i'.history = i.history
  /-- Nothing is numbered. -/
  seq : i'.seq = i.seq
  /-- What is taken in is in its proper form. -/
  incoming : ∀ (path : String) (v : Versions), i'.incoming[path]? = some v →
    i.incoming[path]? = some v ∨ v.Proper P
  /-- Only a path that has a row awaits a decision. -/
  pending : ∀ path ∈ i'.pending, path ∈ i.pending ∨ path ∈ i.entries

/-- One that does not concern peers. -/
structure Aside (P : Platform) (i i' : Index) : Prop extends Apart P i i' where
  /-- Whether a peer is awaited stays. -/
  awaited : i'.recoveryPending = i.recoveryPending
  /-- So does what is known of peers. -/
  cursors : i'.cursors = i.cursors

/-- One after which a peer is awaited only if it was before. -/
structure Settles (P : Platform) (i i' : Index) : Prop extends Apart P i i' where
  /-- A peer may be awaited no more. -/
  awaited : i'.recoveryPending = true → i.recoveryPending = true

/-- A call of `save`, or a change that writes no row. -/
inductive Micro (P : Platform) (replica : String) (approve settle : Bool) (i i' : Index) : Prop where
  /-- A call of `save`. -/
  | save {path : String} : Saves P replica approve i path i' → Micro P replica approve settle i i'
  /-- Another change. -/
  | aside : Aside P i i' → Micro P replica approve settle i i'
  /-- A change of what is known of peers. -/
  | settle : settle = true → Settles P i i' → Micro P replica approve settle i i'

/-- A transaction: calls of `save` and other changes. -/
abbrev Chain (P : Platform) (replica : String) (approve settle : Bool) : Index → Index → Prop :=
  Relation.ReflTransGen (Micro P replica approve settle)

theorem Apart.wf (hi : i.Wf P) (h : Apart P i i') : i'.Wf P :=
  ⟨fun q l hq => hi.rows q l (by rwa [h.entries] at hq), fun q v hq => (h.incoming q v hq).elim (hi.incoming q v) id⟩

/-- Transactions keep the generation. -/
theorem Chain.epoch (h : Chain P replica approve settle i i') : i'.epoch = i.epoch := by
  induction h with
  | refl => rfl
  | tail _ h ih =>
    cases h with
    | save h =>
      obtain ⟨v, m, o, hs⟩ := h.saved
      obtain ⟨-, -, -, rfl⟩ := save_eq_ok.mp hs
      exact ih
    | aside h | settle _ h => exact h.toApart.epoch.trans ih

/-- Transactions keep the index well formed. -/
theorem Chain.wf (hid : Function.Injective (Revision.id P)) (hi : i.Wf P) (h : Chain P replica approve settle i i') :
    i'.Wf P := by
  induction h with
  | refl => exact hi
  | tail _ h ih =>
    cases h with
    | save h => exact h.wf hid ih
    | aside h | settle _ h => exact h.toApart.wf ih

theorem Apart.revisions (h : Apart P i i') : i'.revisions = i.revisions := by
  unfold Index.revisions
  rw [h.history]

/-- Transactions lose nothing. -/
theorem Chain.grows (hid : Function.Injective (Revision.id P)) (hi : i.Wf P) (h : Chain P replica approve settle i i') :
    Grows i i' := by
  induction h with
  | refl => exact .refl i
  | tail hc h ih =>
    cases h with
    | save h => exact ih.trans (h.grows hid (Chain.wf hid hi hc))
    | aside h | settle _ h => exact ih.trans ⟨fun path l hl => ⟨l, by rwa [h.entries], le_rfl⟩, by rw [h.history]⟩

theorem Chain.kept (hid : Function.Injective (Revision.id P)) (hi : i.Wf P) (hk : i.Kept P) (hl : i.Listed)
    (h : Chain P replica approve settle i i') : i'.Kept P ∧ i'.Listed := by
  induction h with
  | refl => exact ⟨hk, hl⟩
  | tail hc h ih =>
    cases h with
    | save h => exact h.kept hid (Chain.wf hid hi hc) ih.1 ih.2
    | aside h | settle _ h =>
      refine ⟨⟨by rw [h.history]; exact ih.1.ids, fun path l hp => ?_⟩, fun path hp => ?_⟩
      · rw [h.toApart.revisions]
        exact ih.1.heads path l (by rwa [← h.entries])
      · rw [h.toApart.revisions]
        exact ih.2 path (by rwa [← h.entries])

/-- A peer is not awaited from some time on. -/
theorem Chain.awaited (h : Chain P replica approve settle i i') (hi : i'.recoveryPending = true) :
    i.recoveryPending = true := by
  induction h with
  | refl => exact hi
  | tail _ h ih =>
    refine ih ?_
    cases h with
    | save h =>
      obtain ⟨v, m, o, h⟩ := h.saved
      obtain ⟨-, -, -, rfl⟩ := save_eq_ok.mp h
      exact hi
    | aside h => exact h.awaited.symm.trans hi
    | settle _ h => exact h.awaited hi

theorem Saves.chain (h : Saves P replica approve i path i') : Chain P replica approve settle i i' := .single (.save h)

theorem Aside.chain (h : Aside P i i') : Chain P replica approve settle i i' := .single (.aside h)

theorem aside_forget (i : Index) (path : String) : Aside P i (i.forget path) :=
  ⟨⟨rfl, rfl, rfl, rfl, fun _ _ h => .inl h, fun _ h => .inl (Std.ExtTreeSet.mem_of_mem_erase h)⟩, rfl, rfl⟩

theorem aside_beginIncoming (i : Index) : Aside P i i.beginIncoming :=
  ⟨⟨rfl, rfl, rfl, rfl, fun _ _ h => by simp [beginIncoming] at h, fun _ h => .inl h⟩, rfl, rfl⟩

/-- What is done for each of many is a chain when what is done for one is. -/
theorem forEach_chain {α : Type} {f : Index → α → Result (Index × ℕ)} {l : List α} {n n' : ℕ}
    (hf : ∀ i a i' m, a ∈ l → f i a = .ok (i', m) → Chain P replica approve settle i i')
    (h : forEach f l (i, n) = .ok (i', n')) : Chain P replica approve settle i i' := by
  induction l generalizing i n with
  | nil =>
    obtain ⟨rfl, -⟩ := Prod.mk.inj (Except.ok.inj h)
    exact .refl
  | cons a l ih =>
    obtain ⟨⟨j, m⟩, ha, hl⟩ := bind_eq_ok.mp h
    exact (hf _ _ _ _ (by simp) ha).trans (ih (fun i b i' m hb => hf i b i' m (by simp [hb])) hl)

theorem scanSeen_chain {content : Content} {n : ℕ} (hc : content ≠ .deleted)
    (h : i.scanSeen P replica path content = .ok (i', n)) : Chain P replica approve settle i i' := by
  refine (aside_forget i path).chain.trans ?_
  have hentries : (i.forget path).entries = i.entries := rfl
  rw [scanSeen, ← hentries] at h
  generalize i.forget path = j at h ⊢
  cases hp : j.entries[path]? with
  | none =>
    simp only [hp, Option.bind_none, Option.elim_none, reduceCtorEq, if_false] at h
    obtain ⟨mine, hm, h⟩ := bind_eq_ok.mp h
    obtain ⟨combined, hv, h⟩ := bind_eq_ok.mp h
    obtain rfl := pure_eq_ok.mp hv
    obtain ⟨k, hk, h⟩ := bind_eq_ok.mp h
    obtain ⟨rfl, -⟩ := Prod.mk.inj (pure_eq_ok.mp h)
    exact (Saves.found hp hc hm hk).chain
  | some l =>
    simp only [hp, Option.bind_some, Option.elim_some] at h
    by_cases hadopt : l.versions ≠ l.observed ∧ ∃ r ∈ l.versions.heads, r.content = content
    · rw [if_pos hadopt] at h
      obtain ⟨k, hk, h⟩ := bind_eq_ok.mp h
      obtain ⟨rfl, -⟩ := Prod.mk.inj (pure_eq_ok.mp h)
      exact (Saves.adopt hp hadopt.1 hadopt.2 hc hk).chain
    rw [if_neg hadopt] at h
    split_ifs at h with hmat
    · obtain ⟨rfl, -⟩ := Prod.mk.inj (pure_eq_ok.mp h)
      exact .refl
    · obtain ⟨mine, hm, h⟩ := bind_eq_ok.mp h
      obtain ⟨combined, hj, h⟩ := bind_eq_ok.mp h
      obtain ⟨k, hk, h⟩ := bind_eq_ok.mp h
      obtain ⟨rfl, -⟩ := Prod.mk.inj (pure_eq_ok.mp h)
      rw [← visible_of_ne hc] at hk hmat
      exact (Saves.edit hp (fun h => absurd h hc) hm hj hk).chain

theorem scanMissing_chain {approveDeletes : Bool} {n : ℕ} (happrove : approveDeletes = true → approve = true)
    (h : i.scanMissing P replica approveDeletes path = .ok (i', n)) : Chain P replica approve settle i i' := by
  rw [scanMissing] at h
  cases hp : i.entries[path]? with
  | none =>
    rw [hp] at h
    obtain ⟨rfl, -⟩ := Prod.mk.inj (pure_eq_ok.mp h)
    exact .refl
  | some l =>
    simp only [hp] at h
    split_ifs at h with hadopt hmat happ
    · obtain ⟨k, hk, h⟩ := bind_eq_ok.mp h
      obtain ⟨rfl, -⟩ := Prod.mk.inj (pure_eq_ok.mp h)
      obtain ⟨r, hr, hrc⟩ := (Option.any_eq_true _ _).mp hadopt.2
      have hrc := of_decide_eq_true hrc
      refine (Saves.applied (r := r) hp hr ?_).chain.trans (aside_forget k path).chain
      rw [applied, hrc]
      exact hk
    · obtain ⟨rfl, -⟩ := Prod.mk.inj (pure_eq_ok.mp h)
      exact .refl
    · obtain ⟨mine, hm, h⟩ := bind_eq_ok.mp h
      obtain ⟨combined, hj, h⟩ := bind_eq_ok.mp h
      obtain ⟨k, hk, h⟩ := bind_eq_ok.mp h
      obtain ⟨rfl, -⟩ := Prod.mk.inj (pure_eq_ok.mp h)
      exact (Saves.edit hp (fun _ => happrove happ) hm hj hk).chain.trans
        (aside_forget k path).chain
    · obtain ⟨rfl, -⟩ := Prod.mk.inj (pure_eq_ok.mp h)
      have hpending : ∀ q ∈ i.pending.insert path, q ∈ i.pending ∨ q ∈ i.entries := by
        intro q hq
        rcases Std.ExtTreeSet.mem_insert.mp hq with heq | hq
        · rw [Std.LawfulEqCmp.compare_eq_iff_eq.mp heq] at hp
          exact .inr (Std.ExtTreeMap.mem_iff_isSome_getElem?.mpr (by rw [hp]; rfl))
        · exact .inl hq
      exact (show Aside P i { i with pending := i.pending.insert path } from
        ⟨⟨rfl, rfl, rfl, rfl, fun _ _ h => .inl h, hpending⟩, rfl, rfl⟩).chain

/-- A scan is a chain of calls of `save`. -/
theorem scan_chain {approveDeletes : Bool} {seen : Std.ExtTreeMap String Content} {report : ScanReport}
    (happrove : approveDeletes = true → approve = true) (hseen : ∀ path : String, seen[path]? ≠ some Content.deleted) 
    (h : i.scan P replica approveDeletes seen = .ok (i', report)) : Chain P replica approve settle i i' := by
  obtain ⟨⟨j, n⟩, h1, h⟩ := bind_eq_ok.mp h
  obtain ⟨⟨k, m⟩, h2, h⟩ := bind_eq_ok.mp h
  obtain ⟨rfl, -⟩ := Prod.mk.inj (pure_eq_ok.mp h)
  refine (forEach_chain (fun i e i' m he h => ?_) h1).trans
    (forEach_chain (fun i path i' m _ h => scanMissing_chain happrove h) h2)
  refine scanSeen_chain (fun hc => hseen e.1 ?_) h
  rw [← hc]
  exact Std.ExtTreeMap.mem_toList_iff_getElem?_eq_some.mp he

theorem joinRow_incoming {remote : Versions} (h : i.joinRow P path remote = .ok i') : i'.incoming = i.incoming := by
  rw [joinRow] at h
  cases hp : i.entries[path]? with
  | none | some l =>
    simp only [hp] at h
    obtain ⟨v, -, h⟩ := bind_eq_ok.mp h
    exact save_incoming h

theorem joinRow_saves {remote : Versions} (hin : i.incoming[path]? = some remote)
    (h : i.joinRow P path remote = .ok i') : Saves P replica approve i path i' := by
  rw [joinRow] at h
  cases hp : i.entries[path]? with
  | none =>
    simp only [hp] at h
    obtain ⟨v, hv, h⟩ := bind_eq_ok.mp h
    obtain rfl := pure_eq_ok.mp hv
    exact .learned hp hin h
  | some l =>
    simp only [hp] at h
    obtain ⟨v, hv, h⟩ := bind_eq_ok.mp h
    exact .merged hp hin hv h

theorem foldlM_joinRow {l : List (String × Versions)} (hl : ∀ e ∈ l, i.incoming[e.1]? = some e.2)
    (h : l.foldlM (fun i e => joinRow P i e.1 e.2) i = .ok i') :
    Chain P replica approve settle i i' ∧ i'.incoming = i.incoming := by
  induction l generalizing i with
  | nil =>
    obtain rfl := pure_eq_ok.mp h
    exact ⟨.refl, rfl⟩
  | cons e l ih =>
    rw [List.foldlM_cons] at h
    obtain ⟨j, hj, h⟩ := bind_eq_ok.mp h
    have hin := joinRow_incoming hj
    obtain ⟨hc, hin'⟩ := ih (fun e he => by rw [hin]; exact hl e (by simp [he])) h
    exact ⟨(joinRow_saves (hl e (by simp)) hj).chain.trans hc, hin'.trans hin⟩

/-- Merging what was taken in is a chain of calls of `save`. -/
theorem joinIncoming_chain (h : i.joinIncoming P = .ok i') : Chain P replica approve settle i i' := by
  obtain ⟨j, hj, h⟩ := bind_eq_ok.mp h
  obtain rfl := pure_eq_ok.mp h
  refine (foldlM_joinRow (fun e he => Std.ExtTreeMap.mem_toList_iff_getElem?_eq_some.mp he) hj).1.trans ?_
  exact (show Aside P j { j with incoming := ∅ } from ⟨⟨rfl, rfl, rfl, rfl, fun _ _ h => by simp at h, fun _ h => .inl h⟩, rfl, rfl⟩).chain

/-- Taking in records writes no row. -/
theorem aside_stage {present : String → Bool} {records : List Record} (h : i.stage P present records = .ok i') :
    Aside P i i' := by
  induction records generalizing i with
  | nil =>
    obtain rfl := pure_eq_ok.mp h
    exact ⟨⟨rfl, rfl, rfl, rfl, fun _ _ h => .inl h, fun _ h => .inl h⟩, rfl, rfl⟩
  | cons r records ih =>
    rw [stage, List.foldlM_cons] at h
    obtain ⟨j, hj, h⟩ := bind_eq_ok.mp h
    have hrest := ih h
    obtain ⟨⟨⟩, -, hj⟩ := bind_eq_ok.mp hj
    obtain ⟨v, hv, hj⟩ := bind_eq_ok.mp hj
    rw [ensure_bind_eq_ok, ensure_bind_eq_ok, pure_eq_ok] at hj
    obtain ⟨hne, -, rfl⟩ := hj
    refine ⟨⟨hrest.epoch, hrest.entries, hrest.history, hrest.seq, fun q w hq => ?_, hrest.pending⟩, hrest.awaited, hrest.cursors⟩
    rcases hrest.incoming q w hq with hq | hq
    · rw [Std.ExtTreeMap.getElem?_insert] at hq
      split_ifs at hq
      · obtain rfl := Option.some.inj hq
        exact .inr ⟨Versions.canonical_join hv, hne⟩
      · exact .inl hq
    · exact .inr hq

/-! ### The numbers of the rows -/

/-- The rows carry different numbers, from one to the number of the last change. -/
structure Numbered (i : Index) : Prop where
  /-- The range. -/
  range : ∀ (path : String) (l : Row), i.entries[path]? = some l → 0 < l.seq ∧ l.seq ≤ i.seq
  /-- No two rows carry the same. -/
  inj : ∀ (path path' : String) (l l' : Row), i.entries[path]? = some l → i.entries[path']? = some l' →
    l.seq = l'.seq → path = path'

/-- A changed row gets a new number, the others keep theirs. -/
theorem Numbered.save (hi : i.Numbered) (h : i.save P path v m o = .ok i') : i'.Numbered := by
  have hentries := save_entries h
  obtain ⟨-, -, -, hi'⟩ := save_eq_ok.mp h
  have hseq : i'.seq = if (i.entries[path]?.all fun l => l.versions ≠ v) then i.seq + 1 else i.seq := by rw [hi']
  have hnext : 0 < i.nextSeq path v ∧ i.nextSeq path v ≤ i'.seq ∧
      ∀ q ≠ path, ∀ l : Row, i.entries[q]? = some l → l.seq ≠ i.nextSeq path v := by
    unfold nextSeq
    rw [hseq]
    split_ifs with hc
    · exact ⟨Nat.succ_pos _, le_rfl, fun q _ l hl he => by have := (hi.range q l hl).2; omega⟩
    · cases hp : i.entries[path]? with
      | none => simp [hp] at hc
      | some k =>
        exact ⟨(hi.range path k hp).1, (hi.range path k hp).2, fun q hq l hl he => hq (hi.inj q path l k hl hp he)⟩
  have hle : i.seq ≤ i'.seq := by
    rw [hseq]
    split_ifs <;> omega
  refine ⟨fun q l hq => ?_, fun q q' l l' hq hq' he => ?_⟩
  · rw [hentries] at hq
    split_ifs at hq with hp
    · obtain rfl := Option.some.inj hq
      exact ⟨hnext.1, hnext.2.1⟩
    · exact ⟨(hi.range q l hq).1, (hi.range q l hq).2.trans hle⟩
  · rw [hentries] at hq hq'
    split_ifs at hq hq' with hp hp' hp'
    · exact hp.trans hp'.symm
    · obtain rfl := Option.some.inj hq
      exact absurd he.symm (hnext.2.2 q' hp' l' hq')
    · obtain rfl := Option.some.inj hq'
      exact absurd he (hnext.2.2 q hp l hq)
    · exact hi.inj q q' l l' hq hq' he

/-- Transactions keep the numbers apart. -/
theorem Chain.numbered (hi : i.Numbered) (h : Chain P replica approve settle i i') : i'.Numbered := by
  induction h with
  | refl => exact hi
  | tail _ h ih =>
    cases h with
    | save h =>
      obtain ⟨v, m, o, h⟩ := h.saved
      exact ih.save h
    | aside h | settle _ h =>
      refine ⟨fun path l hl => ?_, fun path path' l l' hl hl' => ?_⟩
      · rw [h.seq]
        exact ih.range path l (by rwa [← h.entries])
      · exact ih.inj path path' l l' (by rwa [← h.entries]) (by rwa [← h.entries])

section records

variable {since ceiling limit : ℕ} {r : Record}

/-- The records in a range, in their order. -/
theorem records_eq (i : Index) (since ceiling limit : ℕ) : ∃ full : List Record,
    i.records since ceiling limit = full.take limit ∧ full.Pairwise (fun a b => a.seq ≤ b.seq) ∧
      ∀ r, r ∈ full ↔ (∃ l : Row, i.entries[r.path]? = some l ∧ l.versions = r.versions ∧ l.seq = r.seq) ∧
        since < r.seq ∧ r.seq ≤ ceiling := by
  let le (a b : Record) : Prop := a.seq ≤ b.seq
  have : Std.Total le := ⟨fun a b => le_total a.seq b.seq⟩
  have : IsTrans Record le := ⟨fun a b c (h : a.seq ≤ b.seq) (h' : b.seq ≤ c.seq) => h.trans h'⟩
  refine ⟨_, rfl, List.pairwise_insertionSort le _, fun r => ?_⟩
  rw [List.mem_insertionSort, List.mem_filter, decide_eq_true_iff, List.mem_map]
  refine and_congr_left fun _ => ⟨?_, ?_⟩
  · rintro ⟨⟨path, l⟩, hl, rfl⟩
    exact ⟨l, Std.ExtTreeMap.mem_toList_iff_getElem?_eq_some.mp hl, rfl, rfl⟩
  · rintro ⟨l, hl, hv, hs⟩
    exact ⟨(r.path, l), Std.ExtTreeMap.mem_toList_iff_getElem?_eq_some.mpr hl, by rw [hv, hs]⟩

/-- A record is that of a row. -/
theorem mem_records (h : r ∈ i.records since ceiling limit) :
    (∃ l : Row, i.entries[r.path]? = some l ∧ l.versions = r.versions ∧ l.seq = r.seq) ∧
      since < r.seq ∧ r.seq ≤ ceiling := by
  obtain ⟨full, hfull, -, hmem⟩ := i.records_eq since ceiling limit
  rw [hfull] at h
  exact (hmem r).mp (List.mem_of_mem_take h)

/-- No row up to the last record of a page is left out of it; after an empty page, none is left. -/
theorem records_complete (hi : i.Numbered) (hlimit : 0 < limit) {path : String} {l : Row}
    (hl : i.entries[path]? = some l) (hsince : since < l.seq) (hceiling : l.seq ≤ ceiling)
    (hlast : ∀ last, (i.records since ceiling limit).getLast? = some last → l.seq ≤ last.seq) :
    (⟨path, l.versions, l.seq⟩ : Record) ∈ i.records since ceiling limit := by
  obtain ⟨full, hfull, hsorted, hmem⟩ := i.records_eq since ceiling limit
  have hr : (⟨path, l.versions, l.seq⟩ : Record) ∈ full := (hmem _).mpr ⟨⟨l, hl, rfl, rfl⟩, hsince, hceiling⟩
  rw [hfull] at hlast ⊢
  by_contra hnot
  obtain ⟨last, hget⟩ : ∃ last, (full.take limit).getLast? = some last := by
    refine Option.isSome_iff_exists.mp (List.getLast?_isSome.mpr fun hnil => ?_)
    rcases List.take_eq_nil_iff.mp hnil with h | h
    · omega
    · rw [h] at hr
      cases hr
  have hin := List.mem_of_getLast? hget
  have hdrop : (⟨path, l.versions, l.seq⟩ : Record) ∈ full.drop limit :=
    (List.mem_append.mp ((List.take_append_drop limit full).symm ▸ hr)).resolve_left hnot
  -- the last record of the page carries the same number, so it is this one
  have hle := (List.pairwise_append.mp ((List.take_append_drop limit full).symm ▸ hsorted)).2.2 last hin _ hdrop
  obtain ⟨⟨k, hk, hkv, hks⟩, -⟩ := (hmem last).mp (List.mem_of_mem_take hin)
  have hseq : l.seq = last.seq := le_antisymm (hlast last hget) hle
  obtain rfl : path = last.path := hi.inj _ _ _ _ hl hk (hseq.trans hks.symm)
  obtain rfl : l = k := Option.some.inj (hl.symm.trans hk)
  rw [hkv, hks] at hnot
  exact hnot hin

end records

/-- An approved deletion is a chain. -/
theorem approve_chain {l : Row} (hp : i.entries[path]? = some l)
    (h : i.approve P replica path l = .ok i') : Chain P replica true settle i i' := by
  obtain ⟨mine, hmine, h⟩ := bind_eq_ok.mp h
  obtain ⟨combined, hj, h⟩ := bind_eq_ok.mp h
  obtain ⟨k, hk, h⟩ := bind_eq_ok.mp h
  obtain rfl := pure_eq_ok.mp h
  exact (Saves.edit hp (fun _ => rfl) hmine hj hk).chain.trans (aside_forget k path).chain

/-- A decision is a chain. -/
theorem choose_chain {l : Row} {content : Content} {actual : Option Content} (hp : i.entries[path]? = some l)
    (happ : content = .deleted → approve = true) (hv : l.versions.edit P replica content = .ok v)
    (ha : Hashed P actual) (h : i.choose P path v actual l.observed = .ok i') : Chain P replica approve settle i i' := by
  obtain ⟨k, hk, h⟩ := bind_eq_ok.mp h
  obtain rfl := pure_eq_ok.mp h
  exact (Saves.chosen hp happ hv ha hk).chain.trans (aside_forget k path).chain

end Index
end Everywhere

