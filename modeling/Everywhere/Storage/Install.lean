import Everywhere.Storage.Attempt

/-!
# Interrupted installs

To publish a new version of a file, the receiver moves the old file aside and then links the new one to its name. If it is
stopped in between, the destination is missing, and the intent that it has left says how the old file is put back. The intent
is found by the hash of the content that was to be published: a receiver of another content does not look at it.

* `triple_finishChecked` — what holds wherever the publication is stopped.
* `shows_open` — what is at the destination after a receiver was opened, from any state.
* `install_interrupted` — the destination holds the old or the new file after that **exactly when** it did before, or when the
  receiver is of the same content.
* `install_interrupted_newer` — a receiver of a newer version leaves the destination missing.
-/

namespace Everywhere.Place

open Library

variable {P : Platform} {s s' : Place} {m m' : Manifest} {O : Bytes} {i : ℕ}

/-! ### Names and files -/

/-- A name leads to the file. -/
def Named (s : Place) (j : ℕ) : Prop :=
  s.target = some j ∨ (∃ hash, s.part hash = some j) ∨
    ∃ id dir, s.recovery id = some dir ∧ (dir.incoming = some j ∨ dir.previous = some j)

/-- Every name leads to a file that exists. -/
def Wf (s : Place) : Prop := ∀ j, s.Named j → j < s.fresh

/-- The bytes are at the destination, or next to it. -/
def Retained (s : Place) (O : Bytes) : Prop := ∃ j, (s.target = some j ∨ ∃ id, s.previous id = some j) ∧ s.inode j = O

/-- At the destination are the bytes, or those of the manifest. -/
def Shows (P : Platform) (s : Place) (O : Bytes) (m : Manifest) : Prop :=
  ∃ bytes, s.shown = some bytes ∧ (bytes = O ∨ Manifest.ofBytes P bytes = m)

/-- What a receiver that is opened may do to the files. -/
structure Mild (s s' : Place) : Prop where
  /-- The recovery directories stay. -/
  recovery : s'.recovery = s.recovery
  /-- Files are added only. -/
  fresh : s.fresh ≤ s'.fresh
  /-- What there is stays as it is. -/
  inode : ∀ j < s.fresh, s'.inode j = s.inode j
  /-- A destination that is there stays there; one that is not may be put back. -/
  target : s'.target = s.target ∨ s.target = none ∧ ∃ id, s'.target = s.previous id
  /-- A staging file that is not there may be made. -/
  part : ∀ hash j, s'.part hash = some j → s.part hash = some j ∨ j < s'.fresh

theorem Mild.refl (s : Place) : Mild s s := ⟨rfl, le_rfl, fun _ _ => rfl, .inl rfl, fun _ _ h => .inl h⟩

theorem named_previous {id : String} {j : ℕ} (h : s.previous id = some j) : s.Named j := by
  obtain ⟨dir, hdir, hprev⟩ := Option.bind_eq_some_iff.mp h
  exact .inr (.inr ⟨id, dir, hdir, .inr hprev⟩)

theorem Mild.previous (h : Mild s s') (id : String) : s'.previous id = s.previous id := by
  rw [Place.previous, Place.previous, h.recovery]

theorem Mild.wf (h : Mild s s') (hwf : s.Wf) : s'.Wf := by
  rintro j (hj | ⟨hash, hj⟩ | ⟨id, dir, hdir, hj⟩)
  · rcases h.target with ht | ⟨-, id, ht⟩
    · exact (hwf j (.inl (ht ▸ hj))).trans_le h.fresh
    · exact (hwf j (named_previous (ht ▸ hj))).trans_le h.fresh
  · rcases h.part hash j hj with hp | hp
    · exact (hwf j (.inr (.inl ⟨hash, hp⟩))).trans_le h.fresh
    · exact hp
  · rw [h.recovery] at hdir
    exact (hwf j (.inr (.inr ⟨id, dir, hdir, hj⟩))).trans_le h.fresh

theorem Mild.retained (h : Mild s s') (hwf : s.Wf) (hr : s.Retained O) : s'.Retained O := by
  obtain ⟨j, hj | ⟨id, hj⟩, hO⟩ := hr
  · refine ⟨j, .inl ?_, ?_⟩
    · rcases h.target with ht | ⟨hnone, -⟩
      · rw [ht, hj]
      · rw [hnone] at hj
        cases hj
    · rw [h.inode j (hwf j (.inl hj)), hO]
  · refine ⟨j, .inr ⟨id, by rw [h.previous, hj]⟩, ?_⟩
    rw [h.inode j (hwf j (named_previous hj)), hO]

/-! ### What opening does -/

theorem mild_look {α : Type} {f : Place → Except Error α × Place} (h : ∀ s, (f s).2 = s) :
    Tries Mild (fun _ => True) (Fallible.act f : Io α) :=
  Tries.act fun s => by
    rw [h]
    exact .refl s

theorem mild_linkTarget (id : String) :
    Tries Mild (fun _ => True) (Fallible.act (linkTarget fun s => s.previous id) : Io Unit) :=
  Tries.act fun s => by
    rw [linkTarget]
    split
    · exact .refl s
    · exact .refl s
    · rename_i k hk hnone
      exact ⟨rfl, le_rfl, fun _ _ => rfl, .inr ⟨hnone, id, hk.symm⟩, fun _ _ h => .inl h⟩

theorem mild_restore (id : String) : Tries Mild (fun _ => True) (restore id) := by
  refine (mild_look fun _ => rfl).andThen fun there _ => ?_
  split
  · exact Tries.ofExcept fun _ _ => trivial
  · refine (mild_look fun _ => rfl).andThen fun _ _ => (Tries.ofExcept fun _ _ => trivial).andThen fun _ _ => ?_
    refine (mild_linkTarget id).attempt.andThen fun r _ => ?_
    split
    · exact Tries.ofExcept fun _ _ => trivial
    · exact Tries.ofExcept fun _ _ => trivial
    · exact Tries.fail

theorem mild_removeIntent (hash : String) : Tries Mild (fun _ => True) (removeIntent hash) :=
  Tries.act fun s => by
    split
    · exact .refl s
    · exact ⟨rfl, le_rfl, fun _ _ => rfl, .inl rfl, fun _ _ h => .inl h⟩

theorem mild_removePart (hash : String) : Tries Mild (fun _ => True) (removePart hash) :=
  Tries.act fun s => by
    split
    · exact .refl s
    · refine ⟨rfl, le_rfl, fun _ _ => rfl, .inl rfl, fun other j hj => .inl ?_⟩
      change Function.update s.part hash none other = some j at hj
      by_cases hother : other = hash
      · subst hother
        rw [Function.update_self] at hj
        cases hj
      · rwa [Function.update_of_ne hother] at hj

theorem mild_removeJournal (hash : String) : Tries Mild (fun _ => True) (removeJournal hash) :=
  Tries.act fun s => by
    split
    · exact .refl s
    · exact ⟨rfl, le_rfl, fun _ _ => rfl, .inl rfl, fun _ _ h => .inl h⟩

/-- What is no longer needed goes. -/
theorem mild_cleanUp (hash : String) : Tries Mild (fun _ => True) (cleanUp hash) := by
  refine (mild_look fun _ => rfl).andThen fun there _ => ?_
  dsimp only
  split_ifs
  · exact (mild_removeIntent hash).andThen fun _ _ => (mild_removePart hash).andThen fun _ _ => mild_removeJournal hash
  · exact (mild_removePart hash).andThen fun _ _ => mild_removeJournal hash

theorem mild_undo (m : Manifest) : Tries Mild (fun _ => True) (undo P m) := by
  refine (mild_look fun _ => rfl).andThen fun intent _ => (Tries.ofExcept fun _ _ => trivial).andThen fun _ _ =>
    (Tries.ofExcept fun _ _ => trivial).andThen fun _ _ => (Tries.ofExcept fun _ _ => trivial).andThen fun _ _ =>
    (mild_look fun _ => rfl).andThen fun _ _ => (mild_restore _).andThen fun _ _ =>
    (mild_look fun _ => rfl).andThen fun _ _ => (Tries.ofExcept fun _ _ => trivial).andThen fun _ _ => mild_removeIntent _

theorem mild_recoverInstall (m : Manifest) : Tries Mild (fun _ => True) (recoverInstall P m) := by
  refine (mild_look fun _ => rfl).andThen fun there _ => ?_
  split
  · exact mild_undo m
  · exact Tries.ofExcept fun _ _ => trivial

theorem mild_createJournal (t : Transfer) : Tries Mild (fun _ => True) (createJournal t) := by
  refine (Tries.act fun s => ?_).andThen fun _ _ => Tries.act fun s => ?_
  · split
    · exact .refl s
    · exact ⟨rfl, le_rfl, fun _ _ => rfl, .inl rfl, fun _ _ h => .inl h⟩
  · exact ⟨rfl, le_rfl, fun _ _ => rfl, .inl rfl, fun _ _ h => .inl h⟩

theorem mild_resume (m : Manifest) (original : Option Manifest) : Tries Mild (fun _ => True) (resume m original) := by
  refine (mild_look fun _ => rfl).andThen fun there _ => ?_
  split
  · exact (mild_look fun _ => rfl).andThen fun _ _ => (Tries.ofExcept fun _ _ => trivial).andThen fun _ _ =>
      Tries.ofExcept fun _ _ => trivial
  · exact (mild_look fun _ => rfl).andThen fun _ _ => (Tries.ofExcept fun _ _ => trivial).andThen fun _ _ =>
      mild_createJournal _

theorem mild_openPart (hash : String) : Tries Mild (fun _ => True) (openPart hash) :=
  Tries.act fun s => by
    split
    · exact .refl s
    · refine ⟨rfl, Nat.le_succ _, fun j hj => Function.update_of_ne hj.ne _ _, .inl rfl, fun other j hj => ?_⟩
      change Function.update s.part hash (some s.fresh) other = some j at hj
      by_cases hother : other = hash
      · subst hother
        rw [Function.update_self] at hj
        exact .inr (by cases hj; exact Nat.lt_succ_self _)
      · rw [Function.update_of_ne hother] at hj
        exact .inl hj

/-- What `open_` does after it has undone an install. -/
def openRest (P : Platform) (m : Manifest) : Io Receiver := do
  let original ← snapshot P shown
  resume m original
  let part ← openPart m.hash
  let length ← Fallible.look fun s => (s.inode part).length
  ensure (length ≤ m.size) "partial file larger than manifest"
  pure ⟨part, m, original, false⟩

theorem open_eq (m : Manifest) : open_ P m = (do
    m.validate
    recoverInstall P m
    openRest P m) := rfl

theorem mild_openRest (m : Manifest) : Tries Mild (fun _ => True) (openRest P m) :=
  (mild_look fun _ => rfl).andThen fun _ _ => (mild_resume m _).andThen fun _ _ => (mild_openPart m.hash).andThen fun _ _ =>
    (mild_look fun _ => rfl).andThen fun _ _ => (Tries.ofExcept fun _ _ => trivial).andThen fun _ _ =>
    Tries.ofExcept fun _ _ => trivial

theorem mild_open (m : Manifest) : Tries Mild (fun _ => True) (open_ P m) :=
  (Tries.ofExcept fun _ _ => trivial).andThen fun _ _ => (mild_recoverInstall m).andThen fun _ _ => mild_openRest m

/-! ### Where the destination is afterwards -/

/-- The destination stays as it is. -/
def Fixed (s s' : Place) : Prop := s'.target = s.target

theorem fixed_act {α : Type} {f : Place → Except Error α × Place} (h : ∀ s, (f s).2.target = s.target) :
    Tries Fixed (fun _ => True) (Fallible.act f : Io α) := Tries.act h

theorem fixed_resume (m : Manifest) (original : Option Manifest) : Tries Fixed (fun _ => True) (resume m original) := by
  refine (fixed_act fun _ => rfl).andThen fun there _ => ?_
  split
  · exact (fixed_act fun _ => rfl).andThen fun _ _ => (Tries.ofExcept fun _ _ => trivial).andThen fun _ _ =>
      Tries.ofExcept fun _ _ => trivial
  · refine (fixed_act fun _ => rfl).andThen fun _ _ => (Tries.ofExcept fun _ _ => trivial).andThen fun _ _ =>
      (fixed_act fun s => ?_).andThen fun _ _ => fixed_act fun _ => rfl
    split <;> rfl

theorem fixed_openRest (m : Manifest) : Tries Fixed (fun _ => True) (openRest P m) := by
  refine (fixed_act fun _ => rfl).andThen fun _ _ => (fixed_resume m _).andThen fun _ _ =>
    (fixed_act fun s => ?_).andThen fun _ _ => (fixed_act fun _ => rfl).andThen fun _ _ =>
    (Tries.ofExcept fun _ _ => trivial).andThen fun _ _ => Tries.ofExcept fun _ _ => trivial
  split <;> rfl

/-- What a program does that leaves the destination alone. -/
theorem target_run {α : Type} {p : Io α} {V : α → Prop} (h : Tries Fixed V p) (s : Place) :
    (Fallible.run p s).2.target = s.target := by
  have hsteps := (Does.run h s).1
  change (Prog.run p s).2.target = s.target
  generalize (Prog.run p s).2 = t at hsteps
  induction hsteps with
  | refl => rfl
  | tail _ hstep ih => exact hstep.trans ih

/-- A sequence whose second part leaves the destination alone. -/
theorem target_run_bind {α β : Type} {p : Io α} {f : α → Io β} (h : ∀ a, Tries Fixed (fun _ => True) (f a)) (s : Place) :
    (Fallible.run (p >>= f) s).2.target = (Fallible.run p s).2.target := by
  rw [Fallible.run_bind]
  rcases Fallible.run p s with ⟨_ | a, t⟩
  · rfl
  · exact target_run (h a) t

/-- Opening puts this file back. -/
def Restores (s : Place) (m : Manifest) (k : ℕ) : Prop :=
  ∃ intent : InstallIntent, s.intent m.hash = some (.whole intent) ∧ isHash intent.recoveryId = true ∧ intent.incoming = m ∧
    intent.original.validate = .ok () ∧ s.previous intent.recoveryId = some k

theorem target_restore (hnone : s.target = none) (id : String) :
    (Fallible.run (restore id) s).2.target = s.previous id := by
  rw [restore, taken, Fallible.run_bind, Fallible.run_look]
  simp only [hnone, Option.isSome_none, Bool.false_eq_true, if_false]
  rw [taken, Fallible.run_bind, Fallible.run_look]
  simp only [Fallible.lift_eq]
  rw [Fallible.run_bind, Fallible.run_ofExcept]
  cases hprev : s.previous id with
  | none => simp [ensure, hnone]
  | some k =>
    simp only [Option.isSome_some, ensure, if_true]
    rw [target_run_bind]
    · rw [Fallible.run_attempt, Fallible.run_act, linkTarget, hprev, hnone]
    · intro r
      split
      · exact Tries.ofExcept fun _ _ => trivial
      · exact Tries.ofExcept fun _ _ => trivial
      · exact Tries.fail

theorem mild_afterRestore (intent : InstallIntent) (m : Manifest) : Tries Mild (fun _ => True) (do
    let current ← snapshot P shown
    ensure (current = some intent.original ∨ current = some m)
      ("local change during interrupted install; target and recovery files preserved at .everywhere-recovery/" ++
        intent.recoveryId)
    removeIntent m.hash : Io Unit) :=
  (mild_look fun _ => rfl).andThen fun _ _ => (Tries.ofExcept fun _ _ => trivial).andThen fun _ _ => mild_removeIntent _

theorem fixed_afterRestore (intent : InstallIntent) (m : Manifest) : Tries Fixed (fun _ => True) (do
    let current ← snapshot P shown
    ensure (current = some intent.original ∨ current = some m)
      ("local change during interrupted install; target and recovery files preserved at .everywhere-recovery/" ++
        intent.recoveryId)
    removeIntent m.hash : Io Unit) := by
  refine (fixed_act fun _ => rfl).andThen fun _ _ => (Tries.ofExcept fun _ _ => trivial).andThen fun _ _ =>
    fixed_act fun s => ?_
  split <;> rfl

/-- A check that holds is passed. -/
theorem run_ensure_bind {β : Type} {c : Prop} [Decidable c] {text : String} {f : Unit → Io β} (s : Place) :
    Fallible.run (liftM (ensure c text) >>= f) s = if c then Fallible.run (f ()) s else (.error (.message text), s) := by
  rw [Fallible.lift_eq, Fallible.run_bind, Fallible.run_ofExcept, ensure]
  split_ifs <;> rfl

theorem target_undo (hnone : s.target = none) {intent : InstallIntent} (hintent : s.intent m.hash = some (.whole intent))
    (k : ℕ) : (Fallible.run (undo P m) s).2.target = some k ↔ isHash intent.recoveryId = true ∧ intent.incoming = m ∧
      intent.original.validate = .ok () ∧ s.previous intent.recoveryId = some k := by
  rw [undo, Fallible.run_bind, Fallible.run_act, hintent]
  simp only [Document.read, run_ensure_bind]
  split_ifs with hid hincoming
  · cases hvalid : intent.original.validate with
    | error e => simp [Fallible.lift_eq, Fallible.run_bind, hnone]
    | ok u =>
      obtain ⟨⟩ := u
      rw [Fallible.lift_eq, Fallible.run_bind, Fallible.run_ofExcept]
      dsimp only
      rw [Fallible.run_bind, Fallible.run_act]
      cases hdir : s.recovery intent.recoveryId with
      | none => simp [hnone, Place.previous, hdir]
      | some dir =>
        simp only [Option.isSome_some, if_true]
        rw [target_run_bind fun _ => fixed_afterRestore intent m, target_restore hnone]
        simp [hid, hincoming]
  · simp [hnone, hincoming]
  · simp [hnone, hid]

/-- A destination that is not there is put back by its own intent only. -/
theorem target_open_none (hm : m.validate = .ok ()) (hnone : s.target = none) (k : ℕ) :
    (Fallible.run (open_ P m) s).2.target = some k ↔ s.Restores m k := by
  rw [open_eq, Fallible.lift_eq, hm, Fallible.run_bind, Fallible.run_ofExcept]
  dsimp only
  rw [target_run_bind fun _ => fixed_openRest m, recoverInstall, taken, Fallible.run_bind, Fallible.run_look]
  cases hintent : s.intent m.hash with
  | none => simp [hnone, Restores, hintent]
  | some doc =>
    cases doc with
    | torn =>
      simp [Restores, hintent, undo, Fallible.run_bind, Document.read, hnone]
    | whole intent =>
      simp only [Option.isSome_some, if_true]
      rw [target_undo hnone hintent]
      constructor
      · rintro ⟨h1, h2, h3, h4⟩
        exact ⟨intent, hintent, h1, h2, h3, h4⟩
      · rintro ⟨intent', hintent', h1, h2, h3, h4⟩
        obtain rfl : intent = intent' := by simpa [hintent] using hintent'
        exact ⟨h1, h2, h3, h4⟩

theorem Mild.trans {t : Place} (h : Mild s s') (h' : Mild s' t) : Mild s t where
  recovery := h'.recovery.trans h.recovery
  fresh := h.fresh.trans h'.fresh
  inode j hj := (h'.inode j (hj.trans_le h.fresh)).trans (h.inode j hj)
  target := by
    rcases h'.target with ht | ⟨hnone, id, ht⟩
    · rw [ht]
      exact h.target
    · rcases h.target with ht' | ⟨hnone', id', ht'⟩
      · exact .inr ⟨ht' ▸ hnone, id, ht.trans (h.previous id)⟩
      · exact .inr ⟨hnone', id, ht.trans (h.previous id)⟩
  part hash j hj := by
    rcases h'.part hash j hj with hp | hp
    · exact (h.part hash j hp).imp_right fun hlt => hlt.trans_le h'.fresh
    · exact .inr hp

theorem mild_run (m : Manifest) (s : Place) : Mild s (Fallible.run (open_ P m) s).2 := by
  have hsteps := (Does.run (mild_open (P := P) m) s).1
  change Mild s (Prog.run (open_ P m) s).2
  generalize (Prog.run (open_ P m) s).2 = t at hsteps
  induction hsteps with
  | refl => exact .refl s
  | tail _ hstep ih => exact ih.trans hstep

/-- Opening with a manifest leaves the bytes, or those of the other manifest, at the destination. -/
def Keeps (P : Platform) (s : Place) (O : Bytes) (m m' : Manifest) : Prop :=
  s.Shows P O m ∨ s.target = none ∧ ∃ k, s.Restores m' k ∧ (s.inode k = O ∨ Manifest.ofBytes P (s.inode k) = m)

theorem shows_iff : s.Shows P O m ↔ ∃ k, s.target = some k ∧ (s.inode k = O ∨ Manifest.ofBytes P (s.inode k) = m) := by
  constructor
  · rintro ⟨bytes, hbytes, h⟩
    obtain ⟨k, hk, rfl⟩ := Option.map_eq_some_iff.mp hbytes
    exact ⟨k, hk, h⟩
  · rintro ⟨k, hk, h⟩
    exact ⟨s.inode k, by rw [shown, hk, Option.map_some], h⟩

/-- **What opening leaves at the destination**, from any state. -/
theorem shows_open (hwf : s.Wf) (hm' : m'.validate = .ok ()) :
    (Fallible.run (open_ P m') s).2.Shows P O m ↔ s.Keeps P O m m' := by
  have hmild := mild_run (P := P) m' s
  rw [Keeps, shows_iff, shows_iff]
  cases htarget : s.target with
  | some j =>
    have hafter : (Fallible.run (open_ P m') s).2.target = some j := by
      rcases hmild.target with ht | ⟨hnone, -⟩
      · rw [ht, htarget]
      · rw [htarget] at hnone
        cases hnone
    rw [hafter]
    simp only [Option.some.injEq, exists_eq_left', reduceCtorEq, false_and, or_false]
    rw [hmild.inode j (hwf j (.inl htarget))]
  | none =>
    simp only [target_open_none hm' htarget, reduceCtorEq, false_and, exists_false, true_and, false_or]
    refine exists_congr fun k => and_congr_right fun hk => ?_
    obtain ⟨intent, -, -, -, -, hprev⟩ := hk
    rw [hmild.inode k (hwf k (named_previous hprev))]

/-! ### Publishing, step by step -/

/-- All but the archive stays as it is. -/
structure Quiet (s s' : Place) : Prop where
  /-- The files. -/
  inode : s'.inode = s.inode
  /-- The next file. -/
  fresh : s'.fresh = s.fresh
  /-- The destination. -/
  target : s'.target = s.target
  /-- The staging files. -/
  part : s'.part = s.part
  /-- The intents. -/
  intent : s'.intent = s.intent
  /-- The recovery directories. -/
  recovery : s'.recovery = s.recovery

theorem Quiet.refl (s : Place) : Quiet s s := ⟨rfl, rfl, rfl, rfl, rfl, rfl⟩

theorem Quiet.mild (h : Quiet s s') : Mild s s' where
  recovery := h.recovery
  fresh := h.fresh.ge
  inode _ _ := by rw [h.inode]
  target := .inl h.target
  part hash j hj := .inl (by rwa [h.part] at hj)

theorem quiet_writeVersion (hash : String) (bytes : Bytes) : Tries Quiet (fun _ => True) (writeVersion hash bytes) := by
  induction bytes with
  | nil => exact Tries.ofExcept fun _ _ => trivial
  | cons b rest ih => exact (Tries.act fun s => ⟨rfl, rfl, rfl, rfl, rfl, rfl⟩).andThen fun _ _ => ih

theorem quiet_look {α : Type} {f : Place → Except Error α × Place} (h : ∀ s, (f s).2 = s) :
    Tries Quiet (fun _ => True) (Fallible.act f : Io α) :=
  Tries.act fun s => by
    rw [h]
    exact .refl s

theorem quiet_fromPath (name : Place → Option Bytes) : Tries Quiet (fun _ => True) (fromPath P name) := by
  refine (quiet_look fun _ => rfl).andThen fun m _ => ?_
  split
  · exact Tries.ofExcept fun _ _ => trivial
  · exact Tries.fail

theorem quiet_archive (original : Option Manifest) : Tries Quiet (fun _ => True) (archive P original) := by
  cases original with
  | none => exact Tries.ofExcept fun _ _ => trivial
  | some old =>
    have hretire : Tries Quiet (fun _ => True) (retire P old) := by
      refine (quiet_look fun _ => rfl).andThen fun kept _ => ?_
      split_ifs
      · exact Tries.act fun s => ⟨rfl, rfl, rfl, rfl, rfl, rfl⟩
      · exact Tries.ofExcept fun _ _ => trivial
    refine hretire.andThen fun _ _ => (quiet_look fun _ => rfl).andThen fun there _ => ?_
    split
    · exact Tries.ofExcept fun _ _ => trivial
    · refine (quiet_look fun _ => rfl).andThen fun _ _ => (Tries.act fun s => ⟨rfl, rfl, rfl, rfl, rfl, rfl⟩).andThen fun _ _ =>
        (quiet_look fun _ => rfl).andThen fun bytes _ => (quiet_writeVersion _ bytes).andThen fun _ _ =>
        (quiet_fromPath _).andThen fun _ _ => Tries.ofExcept fun _ _ => trivial

section finish

variable (P) (r : Receiver) (rid : String) (i : ℕ) (O : Bytes)

/-- The file is at the destination. -/
structure There (s : Place) : Prop where
  /-- The destination. -/
  target : s.target = some i
  /-- The bytes. -/
  bytes : s.inode i = O
  /-- Names lead to files. -/
  wf : s.Wf

/-- The staging file is what is to be published. -/
def Received (s : Place) : Prop := ∃ k, s.part r.manifest.hash = some k ∧ Manifest.ofBytes P (s.inode k) = r.manifest

/-- The file was moved aside. -/
structure Displaced (s : Place) : Prop where
  /-- Nothing is at the destination. -/
  target : s.target = none
  /-- The intent says what is to be done. -/
  intent : s.intent r.manifest.hash = some (.whole ⟨rid, Manifest.ofBytes P O, r.manifest⟩)
  /-- It can be done. -/
  valid : isHash rid = true ∧ (Manifest.ofBytes P O).validate = .ok ()
  /-- The file. -/
  previous : s.previous rid = some i
  /-- The bytes. -/
  bytes : s.inode i = O
  /-- Names lead to files. -/
  wf : s.Wf

/-- The new file is at the destination. -/
structure Published (s : Place) : Prop where
  /-- The destination. -/
  target : ∃ k, s.target = some k ∧ Manifest.ofBytes P (s.inode k) = r.manifest
  /-- The old file. -/
  previous : s.previous rid = some i
  /-- The bytes. -/
  bytes : s.inode i = O
  /-- Names lead to files. -/
  wf : s.Wf

/-- What holds wherever the publication is stopped. -/
structure Interrupted (s : Place) : Prop where
  /-- Names lead to files. -/
  wf : s.Wf
  /-- The bytes are somewhere. -/
  retained : s.Retained O
  /-- A destination that is there is the old or the new file. -/
  shows : s.target ≠ none → s.Shows P O r.manifest
  /-- One that is not there is put back by the receiver of the same content. -/
  restores : s.target = none → ∃ k, s.Restores r.manifest k ∧ s.inode k = O

variable {P} {r} {rid} {i} {O}

theorem There.interrupted (h : There i O s) : Interrupted P r O s where
  wf := h.wf
  retained := ⟨i, .inl h.target, h.bytes⟩
  shows _ := shows_iff.mpr ⟨i, h.target, .inl h.bytes⟩
  restores hnone := by
    rw [h.target] at hnone
    cases hnone

theorem Displaced.interrupted (h : Displaced P r rid i O s) : Interrupted P r O s where
  wf := h.wf
  retained := ⟨i, .inr ⟨rid, h.previous⟩, h.bytes⟩
  shows hsome := absurd h.target hsome
  restores _ := ⟨i, ⟨_, h.intent, h.valid.1, rfl, h.valid.2, h.previous⟩, h.bytes⟩

theorem Published.interrupted (h : Published P r rid i O s) : Interrupted P r O s where
  wf := h.wf
  retained := ⟨i, .inr ⟨rid, h.previous⟩, h.bytes⟩
  shows _ := by
    obtain ⟨k, hk, hm⟩ := h.target
    exact shows_iff.mpr ⟨k, hk, .inr hm⟩
  restores hnone := by
    obtain ⟨k, hk, -⟩ := h.target
    rw [hk] at hnone
    cases hnone

theorem There.mild (h : There i O s) (hm : Mild s s') : There i O s' where
  target := by
    rcases hm.target with ht | ⟨hnone, -⟩
    · rw [ht, h.target]
    · rw [h.target] at hnone
      cases hnone
  bytes := by rw [hm.inode i (h.wf i (.inl h.target)), h.bytes]
  wf := hm.wf h.wf

theorem Received.quiet (h : Received P r s) (hq : Quiet s s') : Received P r s' := by
  obtain ⟨k, hk, hm⟩ := h
  exact ⟨k, by rw [hq.part, hk], by rw [hq.inode, hm]⟩

/-- The terms of a receiver that nobody disturbs. -/
abbrev terms (P : Platform) (r : Receiver) (O : Bytes) : Contract Place := alone (Interrupted P r O)

variable {A : Place → Prop}

theorem triple_tries {α : Type} {p : Io α} {step : Place → Place → Prop} {V : α → Prop} (h : Tries step V p)
    (hA : ∀ s, A s → Interrupted P r O s) (hstep : ∀ s s', A s → step s s' → A s') :
    Triple (terms P r O) A p (outcome (fun _ => A) fun _ => Interrupted P r O) :=
  (h.triple (alone_stable _) hA fun s s' ha hs => ⟨trivial, hstep s s' ha hs⟩).conseq (fun _ h => h) fun v s hs => by
    rcases v with e | a
    · exact hA s hs
    · exact hs.1

theorem triple_check {c : Prop} [Decidable c] {text : String} (hA : ∀ s, A s → Interrupted P r O s) :
    Triple (terms P r O) A (liftM (ensure c text) : Io Unit)
      (outcome (fun _ s => A s ∧ c) fun _ => Interrupted P r O) :=
  Triple.ofExcept (alone_stable _) hA fun s hs => by
    rw [ensure]
    split_ifs with hc
    · exact ⟨hs, hc⟩
    · exact hA s hs

/-- A program that changes nothing tells what it has read. -/
theorem triple_read {α : Type} {p : Io α} (h : Tries (fun s s' => s' = s) (fun _ => True) p)
    (hA : ∀ s, A s → Interrupted P r O s) :
    Triple (terms P r O) A p
      (outcome (fun a s => A s ∧ Fallible.run p s = (.ok a, s)) fun _ => Interrupted P r O) :=
  (Does.alone h hA).conseq (fun _ h => h) fun v s hs => by
    rcases v with e | a
    · exact hA s hs.1
    · exact hs

/-- One step. -/
theorem triple_act {α : Type} {f : Place → Except Error α × Place} {Q : α → Place → Prop}
    (hA : ∀ s, A s → Interrupted P r O s) (hQ : ∀ a s, Q a s → Interrupted P r O s)
    (h : ∀ s, A s → outcome Q (fun _ => Interrupted P r O) (f s).1 (f s).2) :
    Triple (terms P r O) A (Fallible.act f : Io α) (outcome Q fun _ => Interrupted P r O) :=
  Triple.alone_act hA (fun v s hv => by
    rcases v with e | a
    · exact hv
    · exact hQ a s hv) h

theorem wf_setAside {dir : RecoveryDir} (hwf : s.Wf)
    (h : ∀ j, dir.incoming = some j ∨ dir.previous = some j → j < s.fresh) (id : String) : (s.setAside id dir).Wf := by
  rintro j (hj | hj | ⟨id', dir', hdir, hj⟩)
  · exact hwf j (.inl hj)
  · exact hwf j (.inr (.inl hj))
  · change Function.update s.recovery id (some dir) id' = some dir' at hdir
    by_cases hid : id' = id
    · subst hid
      rw [Function.update_self] at hdir
      cases hdir
      exact h j hj
    · rw [Function.update_of_ne hid] at hdir
      exact hwf j (.inr (.inr ⟨id', dir', hdir, hj⟩))

/-- The file is there, and what is to be published. -/
def Poised (P : Platform) (r : Receiver) (i : ℕ) (O : Bytes) (s : Place) : Prop := There i O s ∧ Received P r s

theorem Poised.interrupted (h : Poised P r i O s) : Interrupted P r O s := h.1.interrupted

theorem Poised.setAside (h : Poised P r i O s) {dir : RecoveryDir}
    (hdir : ∀ j, dir.incoming = some j ∨ dir.previous = some j → j < s.fresh) : Poised P r i O (s.setAside rid dir) :=
  ⟨⟨h.1.target, h.1.bytes, wf_setAside h.1.wf hdir rid⟩, h.2⟩

theorem Poised.setIntent (h : Poised P r i O s) (intent : String → Option (Document InstallIntent)) :
    Poised P r i O { s with intent } := ⟨⟨h.1.target, h.1.bytes, h.1.wf⟩, h.2⟩

/-- The file is moved aside. -/
theorem triple_prepareInstall (hid : isHash rid = true) (hvalid : (Manifest.ofBytes P O).validate = .ok ()) :
    Triple (terms P r O) (Poised P r i O) (prepareInstall rid (Manifest.ofBytes P O) r.manifest)
      (outcome (fun _ s => Displaced P r rid i O s ∧ Received P r s) fun _ => Interrupted P r O) := by
  have hpoised : ∀ s, Poised P r i O s → Interrupted P r O s := fun s hs => hs.interrupted
  refine Triple.andThen (Q := fun _ => Poised P r i O) (triple_act hpoised (fun _ => hpoised) fun s hs => ?_) fun _ => ?_
  · split
    · exact hpoised s hs
    · exact hs.setAside (by simp)
  refine Triple.andThen (Q := fun _ => Poised P r i O) (triple_act hpoised (fun _ => hpoised) fun s hs => ?_) fun _ => ?_
  · split
    · exact hpoised s hs
    · rename_i k hk
      refine hs.setAside fun j hj => ?_
      obtain rfl : k = j := by simpa using hj
      exact hs.1.wf k (.inr (.inl ⟨_, hk⟩))
  let intent : InstallIntent := ⟨rid, Manifest.ofBytes P O, r.manifest⟩
  have hwritten : Triple (terms P r O) (Poised P r i O) (createIntent intent)
      (outcome (fun _ s => Poised P r i O s ∧ s.intent r.manifest.hash = some (.whole intent)) fun _ => Interrupted P r O) := by
    refine Triple.andThen (Q := fun _ => Poised P r i O) (triple_act hpoised (fun _ => hpoised) fun s hs => ?_) fun _ => ?_
    · split
      · exact hpoised s hs
      · exact hs.setIntent _
    · exact triple_act hpoised (fun _ s hs => hpoised s hs.1) fun s hs => ⟨hs.setIntent _, Function.update_self _ _ _⟩
  refine hwritten.andThen fun _ => triple_act (fun s hs => hpoised s hs.1) (fun _ s hs => hs.1.interrupted) fun s hs => ?_
  obtain ⟨⟨hthere, hreceived⟩, hintent⟩ := hs
  rw [hthere.target]
  have hwf : (s.setAside rid ⟨(s.recovery rid).bind RecoveryDir.incoming, some i⟩).Wf := by
    refine wf_setAside hthere.wf (fun j hj => ?_) rid
    rcases hj with hj | hj
    · obtain ⟨dir, hdir, hin⟩ := Option.bind_eq_some_iff.mp hj
      exact hthere.wf j (.inr (.inr ⟨rid, dir, hdir, .inl hin⟩))
    · obtain rfl : i = j := by simpa using hj
      exact hthere.wf i (.inl hthere.target)
  refine ⟨⟨rfl, hintent, ⟨hid, hvalid⟩, ?_, hthere.bytes, ?_⟩, hreceived⟩
  · simp [Place.previous, setAside]
  · rintro j (hj | hj)
    · cases hj
    · exact hwf j (.inr hj)

theorem There.snapshot (h : There i O s) {current : Option Manifest}
    (hrun : Fallible.run (Place.snapshot P shown) s = (.ok current, s)) :
    current = some (Manifest.ofBytes P O) ∧ O.length ≤ maxSize := by
  rw [Place.snapshot, Fallible.run_act] at hrun
  have hread := (Prod.mk.inj hrun).1
  rw [shown, h.target, Option.map_some, h.bytes, manifestOf] at hread
  split_ifs at hread with hsize
  exact ⟨(Except.ok.inj hread).symm, hsize⟩

theorem validate_ofBytes (hhash : ∀ bytes, isHash (P.blake3 bytes) = true) (hsize : O.length ≤ maxSize) :
    (Manifest.ofBytes P O).validate = .ok () := by
  refine Manifest.validate_eq_ok.mpr ⟨hsize, ?_, hhash O, fun b hb => ?_⟩
  · rw [Manifest.ofBytes, List.length_map, blocksOf, List.length_map, List.length_range]
  · obtain ⟨block, -, rfl⟩ := List.mem_map.mp hb
    exact hhash block

/-- The file that was moved aside is the one that was to be. -/
theorem triple_displace (hid : isHash rid = true) (hvalid : (Manifest.ofBytes P O).validate = .ok ()) :
    Triple (terms P r O) (Poised P r i O) (displace P rid r.manifest (some (Manifest.ofBytes P O)))
      (outcome (fun _ s => Displaced P r rid i O s ∧ Received P r s) fun _ => Interrupted P r O) := by
  have hmid : ∀ s, Displaced P r rid i O s ∧ Received P r s → Interrupted P r O s := fun s hs => hs.1.interrupted
  refine (triple_prepareInstall hid hvalid).andThen fun _ => ?_
  refine Triple.andThen (Q := fun displaced s => (Displaced P r rid i O s ∧ Received P r s) ∧
    displaced = some (Manifest.ofBytes P O)) (triple_act hmid (fun _ s hs => hmid s hs.1) fun s hs => ?_) fun displaced => ?_
  · have hsize : O.length ≤ maxSize := (Manifest.validate_eq_ok.mp hvalid).1
    dsimp only
    rw [hs.1.previous, Option.map_some, hs.1.bytes, manifestOf, if_pos hsize]
    exact ⟨hs, rfl⟩
  · refine Triple.fact fun hd => ?_
    rw [if_pos hd]
    exact Triple.ofExcept (alone_stable _) hmid fun s hs => hs

/-- What was moved aside is put back. -/
theorem triple_restore : Triple (terms P r O) (Displaced P r rid i O) (restore rid)
    (outcome (fun _ => There i O) fun _ => Interrupted P r O) := by
  have hdisplaced : ∀ s, Displaced P r rid i O s → Interrupted P r O s := fun s hs => hs.interrupted
  refine Triple.andThen (Q := fun there s => Displaced P r rid i O s ∧ there = false)
    (triple_act hdisplaced (fun _ s hs => hdisplaced s hs.1) fun s hs => ⟨hs, ?_⟩) fun there => Triple.fact fun hthere => ?_
  · change s.target.isSome = false
    rw [hs.target]
    rfl
  subst hthere
  refine Triple.andThen (Q := fun _ => Displaced P r rid i O)
    (triple_act hdisplaced (fun _ => hdisplaced) fun s hs => hs) fun there => ?_
  refine (triple_check hdisplaced).andThen fun _ => Triple.fact fun _ => ?_
  have hlink : Triple (terms P r O) (Displaced P r rid i O)
      (Fallible.act (linkTarget fun s => s.previous rid) : Io Unit)
      (outcome (fun _ => There i O) fun _ => There i O) := by
    refine Triple.alone_act hdisplaced (fun v s hv => ?_) fun s hs => ?_
    · rcases v with e | a <;> exact hv.interrupted
    · rw [linkTarget, hs.previous, hs.target]
      refine ⟨rfl, hs.bytes, ?_⟩
      rintro j (hj | hj)
      · obtain rfl : i = j := by simpa using hj
        exact hs.wf i (named_previous hs.previous)
      · exact hs.wf j (.inr hj)
  have hthere : ∀ s, There i O s → Interrupted P r O s := fun s hs => hs.interrupted
  have hattempt : Triple (terms P r O) (Displaced P r rid i O)
      (Fallible.attempt (Fallible.act (linkTarget fun s => s.previous rid) : Io Unit))
      (outcome (outcome (fun _ => There i O) fun _ => There i O) fun _ => Interrupted P r O) := hlink.attempt
  refine hattempt.andThen fun v => ?_
  rcases v with e | ⟨⟩
  · split
    · exact Triple.ofExcept (alone_stable _) hthere fun s hs => hs
    · exact Triple.ofExcept (alone_stable _) hthere fun s hs => hs
    · exact Triple.ofExcept (alone_stable _) hthere fun s hs => hthere s hs
  · exact Triple.ofExcept (alone_stable _) hthere fun s hs => hs

/-- An install is undone. -/
theorem triple_undo : Triple (terms P r O) (Displaced P r rid i O) (undo P r.manifest)
    (outcome (fun _ => There i O) fun _ => Interrupted P r O) := by
  have hdisplaced : ∀ s, Displaced P r rid i O s → Interrupted P r O s := fun s hs => hs.interrupted
  refine Triple.andThen (Q := fun intent s => Displaced P r rid i O s ∧ intent = ⟨rid, Manifest.ofBytes P O, r.manifest⟩)
    (triple_act hdisplaced (fun _ s hs => hdisplaced s hs.1) fun s hs => ?_) fun intent => Triple.fact fun hintent => ?_
  · rw [hs.intent]
    exact ⟨hs, rfl⟩
  subst hintent
  refine (triple_check hdisplaced).andThen fun _ => Triple.fact fun _ => ?_
  refine (triple_check hdisplaced).andThen fun _ => Triple.fact fun _ => ?_
  refine Triple.andThen (Q := fun _ => Displaced P r rid i O) (Triple.ofExcept (alone_stable _) hdisplaced fun s hs => ?_)
    fun _ => ?_
  · rw [hs.valid.2]
    exact hs
  refine Triple.andThen (Q := fun _ => Displaced P r rid i O) (triple_act hdisplaced (fun _ => hdisplaced) fun s hs => ?_)
    fun _ => ?_
  · dsimp only
    split_ifs
    · exact hs
    · exact hdisplaced s hs
  refine triple_restore.andThen fun _ => ?_
  exact triple_tries (mild_afterRestore _ _) (fun s hs => hs.interrupted) fun s s' hs hm => hs.mild hm

theorem triple_recoverInstall : Triple (terms P r O) (Displaced P r rid i O) (recoverInstall P r.manifest)
    (outcome (fun _ => Interrupted P r O) fun _ => Interrupted P r O) := by
  have hdisplaced : ∀ s, Displaced P r rid i O s → Interrupted P r O s := fun s hs => hs.interrupted
  refine Triple.andThen (Q := fun _ => Displaced P r rid i O)
    (triple_act hdisplaced (fun _ => hdisplaced) fun s hs => hs) fun there => ?_
  split
  · exact triple_undo.conseq (fun _ h => h) fun v s hs => by
      rcases v with e | a
      · exact hs
      · exact hs.interrupted
  · exact Triple.ofExcept (alone_stable _) hdisplaced fun s hs => hdisplaced s hs

/-- The staging file gets the name of the destination, or all is as before. -/
theorem triple_publish (refused : Option IoError) : Triple (terms P r O)
    (fun s => Displaced P r rid i O s ∧ Received P r s) (publish P r refused)
    (outcome (fun _ => Published P r rid i O) fun _ => Interrupted P r O) := by
  have hdisplaced : ∀ s, Displaced P r rid i O s → Interrupted P r O s := fun s hs => hs.interrupted
  have hpublished : ∀ s, Published P r rid i O s → Interrupted P r O s := fun s hs => hs.interrupted
  have hlink : Triple (terms P r O) (fun s => Displaced P r rid i O s ∧ Received P r s) (Fallible.act fun s =>
      refused.elim (linkTarget (fun s => s.part r.manifest.hash) s) fun e => (.error (.io e), s) : Io Unit)
      (outcome (fun _ => Published P r rid i O) fun _ => Displaced P r rid i O) := by
    refine Triple.alone_act (fun s hs => hdisplaced s hs.1) (fun v s hv => ?_) fun s hs => ?_
    · rcases v with e | a
      · exact hdisplaced s hv
      · exact hpublished s hv
    · cases refused with
      | some e => exact hs.1
      | none =>
        obtain ⟨hd, k, hk, hm⟩ := hs
        rw [Option.elim_none, linkTarget, hk, hd.target]
        refine ⟨⟨k, rfl, hm⟩, hd.previous, hd.bytes, ?_⟩
        rintro j (hj | hj)
        · obtain rfl : k = j := by simpa using hj
          exact hd.wf k (.inr (.inl ⟨_, hk⟩))
        · exact hd.wf j (.inr hj)
  have hattempt : Triple (terms P r O) (fun s => Displaced P r rid i O s ∧ Received P r s) (Fallible.attempt (Fallible.act fun s =>
      refused.elim (linkTarget (fun s => s.part r.manifest.hash) s) fun e => (.error (.io e), s) : Io Unit))
      (outcome (outcome (fun _ => Published P r rid i O) fun _ => Displaced P r rid i O) fun _ => Interrupted P r O) :=
    hlink.attempt
  refine hattempt.andThen fun v => ?_
  rcases v with e | ⟨⟩
  · have hany : ∀ s, Interrupted P r O s → Interrupted P r O s := fun s hs => hs
    have hrecover : Triple (terms P r O) (Displaced P r rid i O) (Fallible.attempt (recoverInstall P r.manifest))
        (outcome (outcome (fun _ => Interrupted P r O) fun _ => Interrupted P r O) fun _ => Interrupted P r O) :=
      triple_recoverInstall.attempt
    dsimp only
    split_ifs
    · refine hrecover.andThen fun v => ?_
      rcases v with e | a <;> exact Triple.ofExcept (alone_stable _) hany fun s hs => hs
    · exact Triple.ofExcept (alone_stable _) hdisplaced fun s hs => hdisplaced s hs
  · exact Triple.ofExcept (alone_stable _) hpublished fun s hs => hs

theorem Published.mild (h : Published P r rid i O s) (hm : Mild s s') : Published P r rid i O s' where
  target := by
    obtain ⟨k, hk, hbytes⟩ := h.target
    refine ⟨k, ?_, by rw [hm.inode k (h.wf k (.inl hk)), hbytes]⟩
    rcases hm.target with ht | ⟨hnone, -⟩
    · rw [ht, hk]
    · rw [hk] at hnone
      cases hnone
  previous := by rw [hm.previous, h.previous]
  bytes := by rw [hm.inode i (h.wf i (named_previous h.previous)), h.bytes]
  wf := hm.wf h.wf

theorem tries_same_fromPath (name : Place → Option Bytes) :
    Tries (fun s s' => s' = s) (fun _ => True) (fromPath P name) := by
  refine Tries.andThen (V := fun _ => True) (Tries.act fun s => rfl) fun m _ => ?_
  split
  · exact Tries.ofExcept fun _ _ => trivial
  · exact Tries.fail

theorem run_fromPath {name : Place → Option Bytes} {received : Manifest}
    (hrun : Fallible.run (fromPath P name) s = (.ok received, s)) :
    ∃ bytes, name s = some bytes ∧ received = Manifest.ofBytes P bytes := by
  rw [fromPath, Place.snapshot, Fallible.run_bind, Fallible.run_act] at hrun
  cases hname : name s with
  | none => simp [hname, manifestOf, Fallible.fail] at hrun
  | some bytes =>
    rw [hname, manifestOf] at hrun
    split_ifs at hrun with hsize
    · exact ⟨bytes, rfl, (Except.ok.inj (Prod.mk.inj hrun).1).symm⟩
    · cases (Prod.mk.inj hrun).1

/-- **Wherever the publication is stopped**, the old bytes are kept, and a destination that is not there is put back by the
receiver of the same content. -/
theorem triple_finishChecked (hhash : ∀ bytes, isHash (P.blake3 bytes) = true) (hid : isHash rid = true)
    (authorize : Result Unit) (refused : Option IoError) :
    Triple (terms P r O) (There i O) (finishChecked P r rid authorize refused)
      (outcome (fun _ => Interrupted P r O) fun _ => Interrupted P r O) := by
  have hthere : ∀ s, There i O s → Interrupted P r O s := fun s hs => hs.interrupted
  have hpoised : ∀ s, Poised P r i O s → Interrupted P r O s := fun s hs => hs.interrupted
  refine (triple_check hthere).andThen fun _ => Triple.fact fun _ => ?_
  refine (triple_tries (mild_recoverInstall r.manifest) hthere fun s s' hs hm => hs.mild hm).andThen fun _ => ?_
  -- What is received.
  refine (triple_read (tries_same_fromPath _) hthere).andThen fun received => ?_
  refine Triple.andThen (Q := fun _ => Poised P r i O) ?_ fun _ => ?_
  · refine (triple_check fun s hs => hthere s hs.1).conseq (fun _ h => h) fun v s hs => ?_
    rcases v with e | a
    · exact hs
    · obtain ⟨⟨hs, hrun⟩, heq⟩ := hs
      obtain ⟨bytes, hname, rfl⟩ := run_fromPath hrun
      obtain ⟨k, hk, rfl⟩ := Option.map_eq_some_iff.mp hname
      exact ⟨hs, k, hk, heq⟩
  -- What is at the destination.
  refine (triple_read (p := Place.snapshot P shown) (Tries.act fun _ => rfl) hpoised).andThen fun current => ?_
  refine Triple.andThen (Q := fun _ s => Poised P r i O s ∧
    (r.original = some (Manifest.ofBytes P O) ∧ O.length ≤ maxSize)) ?_ fun _ => Triple.fact fun horiginal => ?_
  · refine (triple_check fun s hs => hpoised s hs.1).conseq (fun _ h => h) fun v s hs => ?_
    rcases v with e | a
    · exact hs
    · obtain ⟨⟨hs, hrun⟩, heq⟩ := hs
      obtain ⟨rfl, hsize⟩ := hs.1.snapshot hrun
      exact ⟨hs, heq.symm, hsize⟩
  obtain ⟨horiginal, hsize⟩ := horiginal
  have hvalid := validate_ofBytes hhash hsize
  refine (triple_tries (quiet_archive r.original) hpoised fun s s' hs hq => ⟨hs.1.mild hq.mild, hs.2.quiet hq⟩).andThen
    fun _ => ?_
  refine (triple_tries (quiet_look (f := fun s => (manifestOf P s.shown, s)) fun _ => rfl) hpoised
    fun s s' hs hq => ⟨hs.1.mild hq.mild, hs.2.quiet hq⟩).andThen fun current => ?_
  refine (triple_check hpoised).andThen fun _ => Triple.fact fun _ => ?_
  refine Triple.andThen (Q := fun _ => Poised P r i O) (Triple.ofExcept (alone_stable _) hpoised fun s hs => ?_) fun _ => ?_
  · cases authorize with
    | error e => exact hpoised s hs
    | ok u => exact hs
  rw [horiginal]
  refine (triple_displace hid hvalid).andThen fun _ => (triple_publish refused).andThen fun _ => ?_
  refine (triple_tries (mild_cleanUp _) (fun s hs => hs.interrupted) fun s s' hs hm => hs.mild hm).andThen fun _ => ?_
  exact Triple.ofExcept (alone_stable _) (fun s hs => hs.interrupted) fun s hs => hs.interrupted

end finish

/-! ### Later receivers -/

/-- What a destination may be like after the publication was stopped and receivers were opened, each to its end or not. -/
inductive After (P : Platform) (r : Receiver) (rid : String) (authorize : Result Unit) (refused : Option IoError) (s₀ : Place) :
    Place → Prop where
  /-- The publication was stopped. -/
  | stopped {q : Io Receiver} {s : Place} :
      Prog.Reaches (fun _ _ => False) (finishChecked P r rid authorize refused) s₀ q s → After P r rid authorize refused s₀ s
  /-- A receiver was opened. -/
  | opened {m : Manifest} {q : Io Receiver} {s s' : Place} : After P r rid authorize refused s₀ s →
      Prog.Reaches (fun _ _ => False) (open_ P m) s q s' → After P r rid authorize refused s₀ s'

section after

variable {r : Receiver} {rid : String} {authorize : Result Unit} {refused : Option IoError} {s₀ : Place}

theorem interrupted_of_reaches (hhash : ∀ bytes, isHash (P.blake3 bytes) = true) (hid : isHash rid = true) (hwf : s₀.Wf)
    (htarget : s₀.target = some i) {q : Io Receiver}
    (h : Prog.Reaches (fun _ _ => False) (finishChecked P r rid authorize refused) s₀ q s) :
    Interrupted P r (s₀.inode i) s :=
  ((triple_finishChecked hhash hid authorize refused s₀ ⟨htarget, rfl, hwf⟩).reaches h).inv

/-- The old bytes are kept all along. -/
theorem After.retained (hhash : ∀ bytes, isHash (P.blake3 bytes) = true) (hid : isHash rid = true) (hwf : s₀.Wf)
    (htarget : s₀.target = some i) (h : After P r rid authorize refused s₀ s) : s.Wf ∧ s.Retained (s₀.inode i) := by
  induction h with
  | stopped h =>
    have hs := interrupted_of_reaches hhash hid hwf htarget h
    exact ⟨hs.wf, hs.retained⟩
  | opened _ h ih =>
    exact (mild_open _).reaches (a := fun s => s.Wf ∧ s.Retained (s₀.inode i)) (fun _ _ he => he.elim)
      (fun s s' hs hm => ⟨hm.wf hs.1, hm.retained hs.1 hs.2⟩) h ih

/-- **A receiver of the same content puts the destination back, and no other does.** After the publication was stopped at
any step, and receivers were opened since, opening leaves the old or the new file at the destination, and the old bytes
next to it, exactly when one of them is there or is put back by an intent of the same content. Right after the publication
was stopped, that is so if the destination is there or the receiver is of the same content. -/
theorem install_interrupted (hhash : ∀ bytes, isHash (P.blake3 bytes) = true) (hid : isHash rid = true) (hwf : s₀.Wf)
    (htarget : s₀.target = some i) (h : After P r rid authorize refused s₀ s) (hm' : m'.validate = .ok ()) :
    ((Fallible.run (open_ P m') s).2.Shows P (s₀.inode i) r.manifest ∧ (Fallible.run (open_ P m') s).2.Retained (s₀.inode i) ↔
      s.Keeps P (s₀.inode i) r.manifest m') ∧
    ∀ q : Io Receiver, Prog.Reaches (fun _ _ => False) (finishChecked P r rid authorize refused) s₀ q s →
      s.target ≠ none ∨ m' = r.manifest → s.Keeps P (s₀.inode i) r.manifest m' := by
  obtain ⟨hs, hretained⟩ := h.retained hhash hid hwf htarget
  refine ⟨?_, fun q hq hcase => ?_⟩
  · rw [shows_open hs hm']
    exact and_iff_left ((mild_run m' s).retained hs hretained)
  · have hstopped := interrupted_of_reaches hhash hid hwf htarget hq
    by_cases hnone : s.target = none
    · obtain rfl := hcase.resolve_left fun hsome => hsome hnone
      obtain ⟨k, hk, hO⟩ := hstopped.restores hnone
      exact .inr ⟨hnone, k, hk, .inl hO⟩
    · exact .inl (hstopped.shows hnone)

end after

/-! ### A newer version -/

/-- A destination with one byte, and the staging file of a transfer of another one. -/
def waiting : Place where
  inode i := if i = 0 then [1] else [2]
  fresh := 2
  target := some 0
  part hash := if hash = Platform.padded.blake3 [2] then some 1 else none
  journal hash := if hash = Platform.padded.blake3 [2] then
    some (.whole ⟨Manifest.ofBytes .padded [2], some (Manifest.ofBytes .padded [1])⟩) else none
  intent _ := none
  version _ := none
  quarantine := []
  recovery _ := none

/-- The receiver of the transfer. -/
def receiver : Receiver := ⟨1, Manifest.ofBytes .padded [2], some (Manifest.ofBytes .padded [1]), false⟩

/-- The file is moved aside and the new one is not there. -/
def stoppedAt : Io Receiver × Place :=
  (finishChecked .padded receiver (Platform.padded.blake3 []) (.ok ()) none).runFor 16 waiting

theorem reaches_stoppedAt : Prog.Reaches (fun _ _ => False)
    (finishChecked .padded receiver (Platform.padded.blake3 []) (.ok ()) none) waiting stoppedAt.1 stoppedAt.2 :=
  Prog.reaches_runFor _ 16 _ _

theorem wf_waiting : waiting.Wf := by
  rintro j (hj | ⟨hash, hj⟩ | ⟨id, dir, hdir, -⟩)
  · obtain rfl : 0 = j := by simpa [waiting] using hj
    decide
  · change (if hash = Platform.padded.blake3 [2] then some 1 else none) = some j at hj
    split_ifs at hj
    obtain rfl : 1 = j := by simpa using hj
    decide
  · cases hdir

/-- The receiver of a newer version is opened, and the destination is still missing. -/
theorem install_interrupted_newer : waiting.Wf ∧ waiting.shown = some [1] ∧
    Prog.Reaches (fun _ _ => False) (finishChecked .padded receiver (Platform.padded.blake3 []) (.ok ()) none) waiting
      stoppedAt.1 stoppedAt.2 ∧
    (Manifest.ofBytes .padded [3]).validate = .ok () ∧
    (Fallible.run (open_ .padded (Manifest.ofBytes .padded [3])) stoppedAt.2).1.toOption.isSome ∧
    ¬ (Fallible.run (open_ .padded (Manifest.ofBytes .padded [3])) stoppedAt.2).2.Shows .padded [1] receiver.manifest := by
  have hnone : (Fallible.run (open_ .padded (Manifest.ofBytes .padded [3])) stoppedAt.2).2.shown = none := by decide +kernel
  refine ⟨wf_waiting, rfl, reaches_stoppedAt, by decide +kernel, by decide +kernel, ?_⟩
  rintro ⟨bytes, hbytes, -⟩
  rw [hnone] at hbytes
  cases hbytes

/-- The receiver of the same version is opened, and the destination is put back. -/
theorem install_interrupted_same :
    (Fallible.run (open_ .padded receiver.manifest) stoppedAt.2).2.Shows .padded (waiting.inode 0) receiver.manifest ∧
      (Fallible.run (open_ .padded receiver.manifest) stoppedAt.2).2.Retained (waiting.inode 0) := by
  have hvalid : receiver.manifest.validate = .ok () := by decide +kernel
  obtain ⟨hiff, hdirect⟩ := install_interrupted Platform.padded_isHash (Platform.padded_isHash []) wf_waiting rfl
    (.stopped reaches_stoppedAt) hvalid
  exact hiff.mpr (hdirect _ reaches_stoppedAt (.inr rfl))

end Everywhere.Place

