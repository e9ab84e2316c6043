import Everywhere.Share.Steps

/-!
# The states of a share

A share is created, or imported from a checkpoint of another one. Then programs follow each other, each of them
stopped anywhere, while others act on the folder and peers send what they like; and now and then the index is
replaced by that of a checkpoint. Whatever the checkpoint was made of was the index of a share in such a state.

* `register_consistent` — **the rows are consistent**, in every such state: what the user has seen is known,
  a deletion does not stand in the folder, and where the user has seen everything the selected content does.
* `nothing_lost` — **nothing is lost**: the heads of a path are the maximal ones of all revisions ever kept
  for it, and as long as no checkpoint replaces the index, version sets and kept revisions only grow.
-/

namespace Everywhere

open Library

namespace Share

variable {β : Type} {P : Platform} {W : Wire β} {replica : String}

/-- What may be asked of a share. -/
inductive Op where
  /-- Look for local changes. -/
  | scan (approveDeletes : Bool)
  /-- Meet a peer. -/
  | session (peer : String) (client : Bool) (rounds : ℕ)
  /-- Resolve a conflict. -/
  | choose (path revision : String) (historical : Bool)
  /-- Approve a deletion. -/
  | approveDeletion (path : String) (expected : Versions)
  /-- Give a recovered share its former mode. -/
  | activateDevice (mode : Mode) (offline : Bool)

/-- The program that does it. -/
def Op.program (P : Platform) (W : Wire β) : Op → Io (Share β) Unit
  | scan approveDeletes => do
    open_ P
    let _ ← Share.scan P approveDeletes
    pure ()
  | session peer client rounds => Share.session P W peer client rounds
  | choose path revision historical => do
    open_ P
    Share.choose P path revision historical
  | approveDeletion path expected => do
    open_ P
    Share.approveDeletion P path expected
  | activateDevice mode offline => Share.activateDevice P mode offline

/-- A share that was just created. -/
structure Created (s : Share β) : Prop where
  /-- Its index is empty. -/
  index : s.index = Index.create s.config.epoch
  /-- Nothing was seen. -/
  seen : s.seen = ∅

/-- A share whose index is that of a checkpoint: a new generation that awaits a peer, or not. The folder and the
objects may be anything. -/
structure Restored (checkpoint : Index) (pending : Bool) (s : Share β) : Prop where
  /-- Its index. -/
  index : s.index = checkpoint.restore s.config.epoch pending
  /-- Nothing was seen. -/
  seen : s.seen = ∅

/-- The states a share may be in. -/
inductive Reachable (P : Platform) (W : Wire β) : Share β → Prop where
  /-- It was just created. -/
  | create {s : Share β} : Created s → Reachable P W s
  /-- It was just imported from a checkpoint of another one. -/
  | import_ {s t : Share β} : Reachable P W t → Restored t.index true s → s.config.mode = .receiveOnly → Reachable P W s
  /-- Its index was just replaced by that of a checkpoint. -/
  | recover {s s' t : Share β} : Reachable P W s → Reachable P W t →
      Restored t.index (decide (s.config.mode ≠ .sendOnly)) s' → s'.config.mode = s.config.mode → Reachable P W s'
  /-- A program runs, and may stop here. -/
  | run {s s' : Share β} (op : Op) {q : Io (Share β) Unit} : Reachable P W s →
      Prog.Reaches Outside (op.program P W) s q s' → Reachable P W s'

/-- A stretch of runs without a replacement of the index. -/
inductive Stretch (P : Platform) (W : Wire β) (s : Share β) : Share β → Prop where
  /-- Nothing has happened. -/
  | refl : Stretch P W s s
  /-- A program runs, and may stop here. -/
  | run {s' s'' : Share β} (op : Op) {q : Io (Share β) Unit} : Stretch P W s s' →
      Prog.Reaches Outside (op.program P W) s' q s'' → Stretch P W s s''

/-! ### Runs -/

/-- Every operation works through transactions. -/
theorem works_program (op : Op) : Works P replica true true (op.program P W) := by
  cases op with
  | scan approveDeletes =>
    exact (works_quiet quiet_open).andThen fun _ => (works_scan _ fun _ => rfl).andThen fun _ => works_pure _
  | session peer client rounds => exact works_session _ _ _
  | choose path revision historical => exact (works_quiet quiet_open).andThen fun _ => works_choose _ _ _
  | approveDeletion path expected => exact (works_quiet quiet_open).andThen fun _ => works_approveDeletion _ _
  | activateDevice mode offline => exact works_activateDevice _ _

/-- What a program relies on that says nothing of its own steps. -/
def relying : Contract (Share β) := ⟨Outside, fun _ _ => True, fun _ => True⟩

theorem relying_act {α : Type} {pre : Share β → Prop} {post : α → Share β → Prop} {f : Share β → Result α × Share β}
    (hpre : Stable relying pre) (hpost : ∀ a, Stable relying (post a))
    (h : ∀ s, pre s → outcome post (fun _ _ => True) (f s).1 (f s).2) :
    Triple relying pre (Fallible.act f) (outcome post fun _ _ => True) := by
  refine Triple.act hpre (fun _ _ => trivial) (fun r => ?_) (fun _ _ _ => trivial) fun s hs => ⟨trivial, h s hs⟩
  cases r with
  | error e => exact fun _ _ _ _ => trivial
  | ok a => exact hpost a

/-- What every step keeps holds at the end. -/
theorem relying_tries {α : Type} {a : Share β → Prop} {step : Share β → Share β → Prop} {V : α → Prop} {p : Io (Share β) α}
    (h : Tries step V p) (ha : Stable relying a) (hstep : ∀ s s', a s → step s s' → a s') :
    Triple relying a p (outcome (fun _ => a) fun _ _ => True) :=
  (h.triple ha (fun _ _ => trivial) fun s s' hs hs' => ⟨trivial, hstep s s' hs hs'⟩).conseq (fun _ h => h) fun r _ hr => by
    cases r with
    | error e => trivial
    | ok _ => exact hr.1

/-- What a program has made of the index is a chain of calls of `save`. -/
theorem Works.chain {approve : Bool} {p q : Io (Share β) Unit} {s s' : Share β} (hp : Works P replica approve settle p)
    (hs : Held replica s) (h : Prog.Reaches Outside p s q s') :
    Index.Chain P replica approve settle s.index s'.index ∧ Held replica s' := by
  have hmeets := hp s hs
  refine ⟨?_, (hmeets.reaches h).inv⟩
  have htrace := hmeets.trace h
  clear h hmeets hs
  induction htrace with
  | refl => exact .refl
  | tail _ hstep ih =>
    rcases hstep with hstep | hstep
    · rw [hstep.index]; exact ih
    · exact ih.trans hstep.1

/-- No program changes the generation. -/
theorem Works.epoch {approve : Bool} {p q : Io (Share β) Unit} {s s' : Share β} (hp : Works P replica approve settle p)
    (hs : Held replica s) (h : Prog.Reaches Outside p s q s') (he : s.index.epoch = s.config.epoch) :
    s'.index.epoch = s'.config.epoch := by
  have htrace := (hp s hs).trace h
  clear h
  induction htrace with
  | refl => exact he
  | tail _ hstep ih =>
    rcases hstep with hstep | hstep
    · rw [hstep.index, hstep.epoch, ih]
    · rw [hstep.1.epoch, hstep.2.2, ih]

theorem held_of_seen {s : Share β} (h : s.seen = ∅) : Held s.config.replica s :=
  ⟨rfl, fun path => by rw [h]; simp⟩

/-- What every transaction keeps, and every restoration, holds in every reachable state. -/
theorem Reachable.induction {s : Share β} (h : Reachable P W s) {I : Index → Prop}
    (hcreate : ∀ epoch, I (Index.create epoch))
    (hrestore : ∀ i epoch pending, I i → I (i.restore epoch pending))
    (hchain : ∀ replica i i', I i → Index.Chain P replica true true i i' → I i') : I s.index ∧ SeenOk s := by
  induction h with
  | create h =>
    rw [h.index]
    exact ⟨hcreate _, (held_of_seen h.seen).2⟩
  | import_ _ h _ ih =>
    rw [h.index]
    exact ⟨hrestore _ _ _ ih.1, (held_of_seen h.seen).2⟩
  | recover _ _ h _ _ ih =>
    rw [h.index]
    exact ⟨hrestore _ _ _ ih.1, (held_of_seen h.seen).2⟩
  | run op _ h ih =>
    obtain ⟨hc, hheld⟩ := (works_program op).chain ⟨rfl, ih.2⟩ h
    exact ⟨hchain _ _ _ ih.1 hc, hheld.2⟩

theorem Stretch.chain {s s' : Share β} (h : Stretch P W s s') (hs : SeenOk s) {R : Index → Index → Prop}
    (hrefl : ∀ i, R i i) (htrans : ∀ i j k, R i j → R j k → R i k)
    (hchain : ∀ replica i i', Index.Chain P replica true true i i' → R i i') : R s.index s'.index ∧ SeenOk s' := by
  induction h with
  | refl => exact ⟨hrefl _, hs⟩
  | run op _ h ih =>
    obtain ⟨hc, hheld⟩ := (works_program op).chain ⟨rfl, ih.2⟩ h
    exact ⟨htrans _ _ _ ih.1 (hchain _ _ _ hc), hheld.2⟩

/-! ### The register -/

theorem wf_create (epoch : String) : (Index.create epoch).Wf P :=
  ⟨fun path l h => by simp [Index.create] at h, fun path v h => by simp [Index.create] at h⟩

theorem wf_restore {i : Index} (h : i.Wf P) (epoch : String) (pending : Bool) : (i.restore epoch pending).Wf P :=
  ⟨h.rows, fun path v h => by simp [Index.restore] at h⟩

theorem Reachable.seenOk {s : Share β} (h : Reachable P W s) : SeenOk s :=
  (h.induction (I := fun _ => True) (fun _ => trivial) (fun _ _ _ _ => trivial) fun _ _ _ _ _ => trivial).2

theorem Reachable.wf (hid : Function.Injective (Revision.id P)) {s : Share β} (h : Reachable P W s) : s.index.Wf P :=
  (h.induction wf_create (fun _ _ _ h => wf_restore h _ _) fun _ _ _ hi hc => hc.wf hid hi).1

theorem Reachable.numbered {s : Share β} (h : Reachable P W s) : s.index.Numbered :=
  (h.induction (I := Index.Numbered)
    (fun _ => ⟨fun _ _ h => by simp [Index.create] at h, fun _ _ _ _ h => by simp [Index.create] at h⟩)
    (fun _ _ _ h => ⟨h.range, h.inj⟩) fun _ _ _ hi hc => hc.numbered hi).1

theorem mem_candidates {i : Index} {path : String} {l : Row} (hl : i.entries[path]? = some l)
    (hne : l.versions ≠ l.observed) (hp : path ∉ i.pending) : path ∈ i.candidates := by
  refine List.mem_map.mpr ⟨(path, l), (List.mem_insertionSort _).mpr (List.mem_filter.mpr ⟨?_, ?_⟩), rfl⟩
  · exact Std.ExtTreeMap.mem_toList_iff_getElem?_eq_some.mpr hl
  · simpa using ⟨hne, hp⟩

/-- **The rows are consistent.** In every state of a share and for every path: merging what the user has seen into
the version set changes nothing; a deletion does not stand in the folder; where the user has seen everything, the
selected content stands there, or nothing if it is a deletion; so every path that stands otherwise and is not awaiting
a decision is among those that are brought to their version sets. -/
theorem register_consistent (P : Platform) (hid : Function.Injective (Revision.id P)) (W : Wire β) (s : Share β)
    (h : Reachable P W s) (path : String) (l : Row) (hl : s.index.entries[path]? = some l) :
    l.versions.join P l.observed = .ok l.versions ∧ l.materialized ≠ some .deleted ∧
      (l.observed = l.versions → l.materialized = (l.versions.selected P).bind fun r => Index.visible r.content) ∧
      (path ∉ s.index.pending → l.materialized ≠ ((l.versions.selected P).bind fun r => Index.visible r.content) →
        path ∈ s.index.candidates) := by
  have hrow := (h.wf hid).rows path l hl
  refine ⟨?_, hrow.not_deleted, hrow.visible, fun hp hm => mem_candidates hl (fun he => hm (hrow.visible he.symm)) hp⟩
  exact Versions.join_eq_left hid.injOn hrow.versions hrow.observed.toFits hrow.observed.consistent hrow.known_le

/-- A peer that never says anything. -/
def silent : Wire Unit :=
  let nothing {α : Type} (s : Unit) : Result α × Unit := (.error (.io .unexpectedEof), s)
  ⟨nothing, nothing, nothing, nothing, nothing, fun _ => nothing, nothing, nothing⟩

/-- A new share, of a folder with one directory. -/
def fresh : Share Unit where
  files := ((Files.empty.setInode 0 ⟨utf8 "marker", 0⟩).add [".everywhere-folder"] (.file 0)).add ["d"] .dir
  mounted := true
  objects := ∅
  index := Index.create "e"
  seen := ∅
  config := ⟨"folder", "device", "e", "marker", .bidirectional, ["peer"]⟩
  random _ := "random"
  input := ()
  output := []

theorem created_fresh : Created fresh := ⟨rfl, rfl⟩

/-- The share after a scan. -/
def scanned : Share Unit := (Fallible.run ((Op.scan false).program .sample silent) fresh).2

theorem reachable_scanned : Reachable .sample silent scanned :=
  .run (.scan false) (.create created_fresh) (Prog.reaches_run _ _ _)

/-- After a scan, the directory is a row. -/
theorem register_consistent_scanned : ∃ l : Row, scanned.index.entries["d"]? = some l ∧
    l.versions.join .sample l.observed = .ok l.versions := by
  obtain ⟨l, hl⟩ := Option.isSome_iff_exists.mp (show scanned.index.entries["d"]?.isSome = true by decide +kernel)
  exact ⟨l, hl, (register_consistent .sample (Revision.id_injective Platform.sample_blake3_injective) silent scanned
    reachable_scanned "d" l hl).1⟩

/-! ### What is kept -/

theorem Reachable.kept (hid : Function.Injective (Revision.id P)) {s : Share β} (h : Reachable P W s) :
    s.index.Wf P ∧ s.index.Kept P ∧ s.index.Listed := by
  refine (h.induction (I := fun i => i.Wf P ∧ i.Kept P ∧ i.Listed) (fun epoch => ?_) (fun i _ _ hi => ?_)
    fun _ i i' hi hc => ⟨hc.wf hid hi.1, hc.kept hid hi.1 hi.2.1 hi.2.2⟩).1
  · refine ⟨wf_create epoch, ⟨fun e he => ?_, fun path l hl => ?_⟩, fun path _ => ?_⟩
    · cases he
    · simp [Index.create] at hl
    · rw [Set.eq_empty_iff_forall_notMem]
      rintro r ⟨e, he, -⟩
      cases he
  · exact ⟨wf_restore hi.1 _ _, ⟨hi.2.1.ids, hi.2.1.heads⟩, hi.2.2⟩

/-- Two heads of a canonical version set are concurrent. -/
theorem concurrent_heads {v : Versions} (h : v.Canonical P) :
    v.heads.Pairwise fun a b => a.clock.relation b.clock = .concurrent := by
  refine h.sorted.imp_of_mem fun {a b} ha hb hlt => ?_
  have hne : a ≠ b := by rintro rfl; exact lt_irrefl _ hlt
  rw [Clock.relation_eq_concurrent]
  constructor <;> intro hle
  · rcases hle.lt_or_eq with hlt | heq
    · exact h.antichain.not_lt ha hb (Revision.lt_iff.mpr hlt)
    · exact hne (h.consistent.eq ha hb (h.valid a ha) (h.valid b hb) heq)
  · rcases hle.lt_or_eq with hlt | heq
    · exact h.antichain.not_lt hb ha (Revision.lt_iff.mpr hlt)
    · exact hne (h.consistent.eq ha hb (h.valid a ha) (h.valid b hb) heq.symm)

/-- **Nothing is lost.** In every state of a share the heads of a path are pairwise concurrent, and they are the
revisions kept for it that are before no other one; and along any stretch of runs without a replacement of the
index, merging an earlier version set of a path into the later one changes nothing, and kept revisions stay. -/
theorem nothing_lost (P : Platform) (hid : Function.Injective (Revision.id P)) (W : Wire β) (s : Share β)
    (h : Reachable P W s) :
    (∀ (path : String) (l : Row), s.index.entries[path]? = some l →
      (l.versions.heads.Pairwise fun a b => a.clock.relation b.clock = .concurrent) ∧
      ∀ r, r ∈ l.versions.heads ↔ (∃ e ∈ s.index.history, e.path = path ∧ e.revision = r) ∧
        ∀ e ∈ s.index.history, e.path = path → r.clock.relation e.revision.clock ≠ .before) ∧
    ∀ s', Stretch P W s s' → s.index.history <+: s'.index.history ∧
      ∀ (path : String) (l : Row), s.index.entries[path]? = some l →
        ∃ l' : Row, s'.index.entries[path]? = some l' ∧ l'.versions.join P l.versions = .ok l'.versions := by
  obtain ⟨hwf, hkept, -⟩ := h.kept hid
  refine ⟨fun path l hl => ⟨concurrent_heads (hwf.rows path l hl).versions, fun r => ?_⟩, fun s' hs => ?_⟩
  · rw [← Versions.mem_headSet, hkept.heads path l hl, mem_frontier]
    refine and_congr_right fun _ => ⟨fun hmax e he hp => ?_, fun hmax b hb => ?_⟩
    · rw [ne_eq, Clock.relation_eq_before, ← Revision.lt_iff]
      exact hmax e.revision ⟨e, he, hp, rfl⟩
    · obtain ⟨e, he, hp, rfl⟩ := hb
      rw [Revision.lt_iff, ← Clock.relation_eq_before]
      exact hmax e he hp
  · obtain ⟨hgrows, hwf'⟩ := (hs.chain (R := fun i i' => i.Wf P → i.Grows i' ∧ i'.Wf P) (h.seenOk)
      (fun i hi => ⟨.refl i, hi⟩) (fun i j k hij hjk hi => ⟨(hij hi).1.trans (hjk (hij hi).2).1, (hjk (hij hi).2).2⟩)
      fun _ i i' hc hi => ⟨hc.grows hid hi, hc.wf hid hi⟩).1 hwf
    refine ⟨hgrows.history, fun path l hl => ?_⟩
    obtain ⟨l', hl', hle⟩ := hgrows.known path l hl
    have hrow := hwf.rows path l hl
    exact ⟨l', hl', Versions.join_eq_left hid.injOn (hwf'.rows path l' hl').versions hrow.versions.toFits
      hrow.versions.consistent hle⟩

/-- Nothing is lost by a scan. -/
theorem nothing_lost_scanned :
    scanned.index.history <+: (Fallible.run ((Op.scan true).program .sample silent) scanned).2.index.history :=
  ((nothing_lost .sample (Revision.id_injective Platform.sample_blake3_injective) silent scanned
    reachable_scanned).2 _ (.run (.scan true) .refl (Prog.reaches_run _ _ _))).1

end Share
end Everywhere
