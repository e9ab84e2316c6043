import Everywhere.Storage.Install

/-!
# The staging file is the receiver's own

The receiver writes blocks to a staging file and publishes it by a second name. The name of the staging file is removed after
that, and when the receiver is stopped in between, the next one for the same content finds a staging file that is the
destination. What it writes then, it writes to the destination, which somebody may have edited in the meantime.

A `Run` is made of calls of one receiver after the other, of edits of the destination in place, and of calls that fail or are
stopped anywhere. What each step changes is on its record.

A file that was at the destination is never lost, whatever is called and wherever it is stopped: what the receiver takes away
is in a recovery directory.

* `triple_program` — what the steps of each call may do to the destination.
* `displaced_kept` — a file that was at the destination at any time is there, or was moved aside.
* `staging_private` — in a run in which blocks are received only while the staging file is not the destination, the bytes at
  the destination change only by edits and by the publication of what was verified.
* `staging_shared` — a stopped publication, a new receiver, an edit, and a block that is written over the edit.
-/

namespace Everywhere.Place

open Library

variable {P : Platform} {s s' s₀ : Place} {m : Manifest} {r : Receiver} {i : ℕ}

/-! ### Runs -/

/-- Somebody edits the destination in place. -/
def Edit (s s' : Place) : Prop := ∃ i bytes, s.target = some i ∧ s' = s.setInode i bytes

/-- A call. -/
inductive Call where
  /-- A receiver is opened. -/
  | open_ (m : Manifest)
  /-- The missing blocks are asked for. -/
  | missingFrom (basis : Option Bytes)
  /-- A block is received. -/
  | put (index : ℕ) (data : Bytes)
  /-- The file is published. -/
  | finishChecked (recoveryId : String) (authorize : Result Unit) (refused : Option IoError)

/-- The call as a program, which returns the receiver. While there is one, its locks keep others from being opened. -/
def Call.program (P : Platform) : Call → Option Receiver → Io (Option Receiver)
  | .open_ m, none => do
    let r ← Place.open_ P m
    pure (some r)
  | .open_ m, some _ => do
    m.validate
    Fallible.fail (.message "another receiver owns a destination alias")
  | .missingFrom basis, some r => do
    let _ ← Place.missingFrom P r basis
    pure (some r)
  | .put index data, some r => do
    Place.put P r index data
    pure (some r)
  | .finishChecked recoveryId authorize refused, some r => do
    let r ← Place.finishChecked P r recoveryId authorize refused
    pure (some r)
  | _, none => pure none

/-- The content that a call is about. -/
def Call.manifest : Call → Option Receiver → Option Manifest
  | .open_ m, _ => some m
  | _, o => o.map Receiver.manifest

/-- Who has made a change. -/
inductive Who where
  /-- Somebody else. -/
  | other
  /-- The receiver of a content, in a call. -/
  | receiver (c : Call) (m : Manifest)

/-- A call that is being made, the content that it is about, and what is left to do. -/
structure Busy where
  /-- The call. -/
  call : Call
  /-- The content. -/
  manifest : Manifest
  /-- The rest of the program. -/
  rest : Io (Option Receiver)

/-- What has happened, and where it has led: the changes, the receiver, the call that is being made and the place. -/
inductive Run (P : Platform) (allowed : Place → Call → Option Receiver → Prop) (s₀ : Place) :
    List (Who × Place × Place) → Option Receiver → Option Busy → Place → Prop where
  /-- Nothing has happened. -/
  | start : Run P allowed s₀ [] none none s₀
  /-- Somebody edits the destination. -/
  | edit {trace : List (Who × Place × Place)} {o : Option Receiver} {busy : Option Busy} {s s' : Place} :
      Run P allowed s₀ trace o busy s → Edit s s' → Run P allowed s₀ (trace ++ [(.other, s, s')]) o busy s'
  /-- A call is made. -/
  | call {trace : List (Who × Place × Place)} {o : Option Receiver} {s : Place} {c : Call} {m : Manifest} :
      Run P allowed s₀ trace o none s → c.manifest o = some m → allowed s c o →
      Run P allowed s₀ trace o (some ⟨c, m, c.program P o⟩) s
  /-- It takes a step. -/
  | step {trace : List (Who × Place × Place)} {o : Option Receiver} {c : Call} {m : Manifest} {β : Type}
      {act : Place → β × Place} {next : β → Prog Place (Except Error (Option Receiver))} {s : Place} :
      Run P allowed s₀ trace o (some ⟨c, m, .step act next⟩) s →
      Run P allowed s₀ (trace ++ [(.receiver c m, s, (act s).2)]) o (some ⟨c, m, next (act s).1⟩) (act s).2
  /-- It returns. -/
  | returned {trace : List (Who × Place × Place)} {o o' : Option Receiver} {c : Call} {m : Manifest} {s : Place} :
      Run P allowed s₀ trace o (some ⟨c, m, .ret (.ok o')⟩) s → Run P allowed s₀ trace o' none s
  /-- It fails, at its end or by an error of the system, and the receiver is kept. -/
  | failed {trace : List (Who × Place × Place)} {o : Option Receiver} {b : Busy} {s : Place} :
      Run P allowed s₀ trace o (some b) s → Run P allowed s₀ trace o none s
  /-- The program ends, or the receiver is given up. -/
  | stopped {trace : List (Who × Place × Place)} {o : Option Receiver} {busy : Option Busy} {s : Place} :
      Run P allowed s₀ trace o busy s → Run P allowed s₀ trace none none s

/-- Blocks are received only while the staging file is not the destination. -/
def Call.Clear (s : Place) : Call → Option Receiver → Prop
  | .missingFrom _, some r => r.finished = true ∨ s.target ≠ some r.part
  | .put _ _, some r => r.finished = true ∨ s.target ≠ some r.part
  | _, _ => True

/-! ### What a step may do -/

/-- A file is at the destination, or was moved aside. -/
def Held (s : Place) (i : ℕ) : Prop := s.target = some i ∨ ∃ id, s.previous id = some i

/-- No file is lost. -/
def Holding (s s' : Place) : Prop := ∀ i, s.Held i → s'.Held i

/-- What is at the destination stays as it is. -/
def Same (s s' : Place) : Prop := s'.target = s.target ∧ s'.shown = s.shown

/-- The bytes at the destination stay, its name is taken away, what was moved aside is put back, or what was verified is
published. -/
structure Private (P : Platform) (m : Manifest) (s s' : Place) : Prop where
  /-- The bytes stay, and no other file takes the place of one that is there. -/
  bytes : ∀ i, s.target = some i → s'.inode i = s.inode i ∧ (s'.target = some i ∨ s'.target = none)
  /-- A file that appears was moved aside before, or is the one of the manifest. -/
  appears : s.target = none → ∀ k, s'.target = some k →
    (∃ id, s.previous id = some k) ∨ Manifest.ofBytes P (s'.inode k) = m
  /-- No file is lost. -/
  held : Holding s s'

/-- What a step of a call may do to the destination. -/
def Call.Guarantee (P : Platform) (m : Manifest) : Call → Place → Place → Prop
  | .open_ _ => Private P m
  | .missingFrom _ => Same
  | .put _ _ => Same
  | .finishChecked _ _ _ => Private P m

/-- What a recorded change may be. -/
def Change (guarantee : Manifest → Call → Place → Place → Prop) : Who × Place × Place → Prop
  | (.other, s, s') => Edit s s'
  | (.receiver c m, s, s') => guarantee m c s s'

/-- The terms of a receiver among edits. -/
def among (guar : Place → Place → Prop) : Contract Place := ⟨Edit, guar, Wf⟩

theorem holding_of_eq (htarget : s'.target = s.target) (hprevious : ∀ id i, s.previous id = some i → s'.previous id = some i) :
    Holding s s' := by
  rintro i (hi | ⟨id, hi⟩)
  · exact .inl (htarget.trans hi)
  · exact .inr ⟨id, hprevious id i hi⟩

theorem private_of_eq (hinode : s'.inode = s.inode) (htarget : s'.target = s.target)
    (hprevious : ∀ id i, s.previous id = some i → s'.previous id = some i) : Private P m s s' where
  bytes i hi := ⟨by rw [hinode], .inl (by rw [htarget, hi])⟩
  appears hnone k hk := by
    rw [htarget, hnone] at hk
    cases hk
  held := holding_of_eq htarget hprevious

theorem private_refl (s : Place) : Private P m s s := private_of_eq rfl rfl fun _ _ h => h

theorem Mild.holding (h : Mild s s') : Holding s s' := by
  rintro i (hi | ⟨id, hi⟩)
  · rcases h.target with ht | ⟨hnone, -⟩
    · exact .inl (ht.trans hi)
    · rw [hnone] at hi
      cases hi
  · exact .inr ⟨id, by rw [h.previous, hi]⟩

theorem Mild.private (h : Mild s s') (hwf : s.Wf) : Private P m s s' where
  bytes i hi := by
    refine ⟨h.inode i (hwf i (.inl hi)), ?_⟩
    rcases h.target with ht | ⟨hnone, -⟩
    · exact .inl (ht.trans hi)
    · rw [hnone] at hi
      cases hi
  appears hnone k hk := by
    rcases h.target with ht | ⟨-, id, ht⟩
    · rw [ht, hnone] at hk
      cases hk
    · exact .inl ⟨id, ht ▸ hk⟩
  held := h.holding

/-! ### Rules -/

section rules

variable {guar : Place → Place → Prop} {A : Place → Prop}

theorem stable_among (h : ∀ s i bytes, s.target = some i → A s → A (s.setInode i bytes)) : Stable (among guar) A := by
  rintro s s' ⟨i, bytes, hi, rfl⟩ hs
  exact h s i bytes hi hs

theorem stable_wf : Stable (among guar) Wf := stable_among fun _ _ _ _ h => h

/-- One step among edits. -/
theorem act_rule {α : Type} {f : Place → Except Error α × Place} {Q : α → Place → Prop} (hA : Stable (among guar) A)
    (hAwf : ∀ s, A s → s.Wf) (hQ : ∀ a, Stable (among guar) (Q a)) (hQwf : ∀ a s, Q a s → s.Wf)
    (h : ∀ s, A s → guar s (f s).2 ∧ outcome Q (fun _ => Wf) (f s).1 (f s).2) :
    Triple (among guar) A (Fallible.act f : Io α) (outcome Q fun _ => Wf) := by
  refine Triple.act hA hAwf (fun v => ?_) (fun v s hv => ?_) h
  · rcases v with e | a
    · exact stable_wf
    · exact hQ a
  · rcases v with e | a
    · exact hv
    · exact hQwf a s hv

/-- A check among edits. -/
theorem check_rule {c : Prop} [Decidable c] {text : String} (hA : Stable (among guar) A) (hAwf : ∀ s, A s → s.Wf) :
    Triple (among guar) A (liftM (ensure c text) : Io Unit) (outcome (fun _ s => A s ∧ c) fun _ => Wf) := by
  refine Triple.ofExcept hA hAwf fun s hs => ?_
  rw [ensure]
  split_ifs with hc
  · exact ⟨hs, hc⟩
  · exact hAwf s hs

/-- Steps of a kind among edits. -/
theorem tries_rule {α : Type} {p : Io α} {step : Place → Place → Prop} {V : α → Prop} (h : Tries step V p)
    (hA : Stable (among guar) A) (hAwf : ∀ s, A s → s.Wf) (hstep : ∀ s s', A s → step s s' → guar s s' ∧ A s') :
    Triple (among guar) A p (outcome (fun _ => A) fun _ => Wf) :=
  (h.triple hA hAwf hstep).conseq (fun _ h => h) fun v s hs => by
    rcases v with e | a
    · exact hAwf s hs
    · exact hs.1

theorem mild_rule {α : Type} {p : Io α} (h : Tries Mild (fun _ => True) p) :
    Triple (among (Private P m)) Wf p (outcome (fun _ => Wf) fun _ => Wf) :=
  tries_rule h stable_wf (fun _ h => h) fun _ _ hwf hm => ⟨hm.private hwf, hm.wf hwf⟩

/-- Mild steps that end in an error. -/
theorem fails_rule {α : Type} {p : Io α} {Q : α → Place → Prop} (h : Tries Mild (fun _ => False) p) :
    Triple (among (Private P m)) Wf p (outcome Q fun _ => Wf) :=
  (h.triple (C := among (Private P m)) stable_wf (fun _ h => h) fun _ _ hwf hm => ⟨hm.private hwf, hm.wf hwf⟩).conseq
    (fun _ h => h) fun v s hs => by
      rcases v with e | a
      · exact hs
      · exact hs.2.elim

end rules

/-! ### Receiving blocks -/

/-- Only the staging file of an open receiver is written. -/
def Writes (r : Receiver) (s s' : Place) : Prop := s' = s ∨ r.finished = false ∧ ∃ bytes, s' = s.setInode r.part bytes

theorem writes_look {α : Type} {f : Place → Except Error α × Place} (h : ∀ s, (f s).2 = s) :
    Tries (Writes r) (fun _ => True) (Fallible.act f : Io α) := Tries.act fun s => .inl (h s)

theorem writes_writeFrom (hfinished : r.finished = false) (data : Bytes) :
    ∀ offset, Tries (Writes r) (fun _ => True) (writeFrom r.part offset data) := by
  induction data with
  | nil => exact fun _ => Tries.ofExcept fun _ _ => trivial
  | cons b rest ih => exact fun offset => (Tries.act fun s => .inr ⟨hfinished, _, rfl⟩).andThen fun _ _ => ih _

theorem writes_put (r : Receiver) (index : ℕ) (data : Bytes) : Tries (Writes r) (fun _ => True) (put P r index data) := by
  refine Tries.andThen (V := fun _ => r.finished = false) (Tries.ofExcept fun _ h => ?_) fun _ hfinished => ?_
  · rw [ensure] at h
    split_ifs at h with hc
    exact hc
  · refine (Tries.ofExcept fun _ _ => trivial).andThen fun len _ => (Tries.ofExcept fun _ _ => trivial).andThen fun _ _ => ?_
    exact (Tries.ofExcept fun _ _ => trivial).andThen fun _ _ => writes_writeFrom hfinished _ _

theorem writes_missingBlocks (r : Receiver) (file : Option ℕ) (basis : Option Bytes) (indices : List ℕ) :
    Tries (Writes r) (fun _ => True) (missingBlocks P r file basis indices) := by
  induction indices with
  | nil => exact Tries.ofExcept fun _ _ => trivial
  | cons index rest ih =>
    refine (writes_look fun _ => rfl).andThen fun valid _ => ?_
    split
    · exact ih
    · refine (writes_look fun _ => rfl).andThen fun found _ => ?_
      split
      · exact (writes_put r index _).andThen fun _ _ => ih
      · exact ih.andThen fun _ _ => Tries.ofExcept fun _ _ => trivial

theorem writes_missingFrom (r : Receiver) (basis : Option Bytes) :
    Tries (Writes r) (fun _ => True) (missingFrom P r basis) :=
  (writes_look fun _ => rfl).andThen fun _ _ => writes_missingBlocks r _ basis _

theorem same_refl (s : Place) : Same s s := ⟨rfl, rfl⟩

theorem Writes.holding (h : Writes r s s') : Holding s s' := by
  rcases h with rfl | ⟨-, bytes, rfl⟩
  · exact fun _ h => h
  · exact fun _ h => h

/-- A write to the staging file is not seen at the destination, unless this is the staging file. -/
theorem Writes.same (h : Writes r s s') (hclear : r.finished = true ∨ s.target ≠ some r.part) : Same s s' := by
  rcases h with rfl | ⟨hopen, bytes, rfl⟩
  · exact same_refl _
  · have hpart : s.target ≠ some r.part := hclear.resolve_left fun hfinished => by simp [hopen] at hfinished
    refine ⟨rfl, ?_⟩
    change s.target.map (Function.update s.inode r.part bytes) = s.target.map s.inode
    refine Option.map_congr fun k hk => Function.update_of_ne ?_ _ _
    rintro rfl
    exact hpart hk

/-! ### Publishing -/

/-- The staging file was verified, and nobody has changed it since, unless it is the destination. -/
def Checked (P : Platform) (m received : Manifest) (s : Place) : Prop :=
  s.Wf ∧ ∃ k, s.part m.hash = some k ∧ (s.target = some k ∨ Manifest.ofBytes P (s.inode k) = received)

/-- The staging file was verified and nobody has changed it since, unless it was the destination and was moved aside. -/
def Ready (P : Platform) (m : Manifest) (s : Place) : Prop :=
  s.Wf ∧ ∃ k, s.part m.hash = some k ∧
    (s.target = some k ∨ (∃ id, s.previous id = some k) ∨ Manifest.ofBytes P (s.inode k) = m)

variable {guar : Place → Place → Prop} {received : Manifest}

theorem Checked.wf (h : Checked P m received s) : s.Wf := h.1

theorem Checked.ready (h : Checked P m m s) : Ready P m s := by
  obtain ⟨hwf, k, hk, hcase⟩ := h
  exact ⟨hwf, k, hk, hcase.imp_right .inr⟩

theorem stable_checked : Stable (among guar) (Checked P m received) := by
  refine stable_among fun s i bytes hi ⟨hwf, k, hk, hcase⟩ => ⟨hwf, k, hk, ?_⟩
  by_cases hki : k = i
  · exact .inl (hki ▸ hi)
  · refine hcase.imp_right fun hm => ?_
    change Manifest.ofBytes P (Function.update s.inode i bytes k) = received
    rw [Function.update_of_ne hki, hm]

theorem stable_ready : Stable (among guar) (Ready P m) := by
  refine stable_among fun s i bytes hi ⟨hwf, k, hk, hcase⟩ => ⟨hwf, k, hk, ?_⟩
  by_cases hki : k = i
  · exact .inl (hki ▸ hi)
  · refine hcase.imp_right fun hm => hm.imp_right fun hm => ?_
    change Manifest.ofBytes P (Function.update s.inode i bytes k) = m
    rw [Function.update_of_ne hki, hm]

theorem Quiet.checked (h : Quiet s s') (hs : Checked P m received s) : Checked P m received s' := by
  obtain ⟨hwf, k, hk, hcase⟩ := hs
  exact ⟨h.mild.wf hwf, k, by rw [h.part, hk], by rwa [h.target, h.inode]⟩

theorem Checked.setAside (h : Checked P m received s) {dir : RecoveryDir}
    (hdir : ∀ j, dir.incoming = some j ∨ dir.previous = some j → j < s.fresh) (id : String) :
    Checked P m received (s.setAside id dir) := ⟨wf_setAside h.1 hdir id, h.2⟩

theorem Checked.setIntent (h : Checked P m received s) (intent : String → Option (Document InstallIntent)) :
    Checked P m received { s with intent } := h

/-- The staging file is read. -/
theorem triple_fromPath : Triple (among (Private P m)) Wf (fromPath P fun s => (s.part m.hash).map s.inode)
    (outcome (fun received => Checked P m received) fun _ => Wf) := by
  refine Triple.andThen (Q := fun read s => s.Wf ∧ ∀ received, read = some received → Checked P m received s)
    (act_rule stable_wf (fun _ h => h) (fun read => ?_) (fun _ _ h => h.1) fun s hs => ?_) fun read => ?_
  · refine stable_wf.and ?_
    rintro s s' hedit h received rfl
    exact stable_checked _ _ hedit (h received rfl)
  · refine ⟨private_refl s, ?_⟩
    dsimp only
    cases hpart : s.part m.hash with
    | none =>
      refine ⟨hs, ?_⟩
      rintro received ⟨⟩
    | some k =>
      rw [Option.map_some, manifestOf]
      split_ifs
      · refine ⟨hs, ?_⟩
        rintro received ⟨⟩
        exact ⟨hs, k, hpart, .inr rfl⟩
      · exact hs
  · have hstable : Stable (among (Private P m)) fun s : Place =>
        s.Wf ∧ ∀ received, read = some received → Checked P m received s := by
      refine stable_wf.and ?_
      rintro s s' hedit h received hread
      exact stable_checked _ _ hedit (h received hread)
    cases read with
    | none => exact Triple.ofExcept hstable (fun _ h => h.1) fun s hs => hs.1
    | some received => exact Triple.ofExcept hstable (fun _ h => h.1) fun s hs => hs.2 received rfl

/-- A recovery directory that holds no old file yet is written. -/
theorem previous_setAside {id : String} (hnone : s.previous id = none) (dir : RecoveryDir) {other : String}
    (hi : s.previous other = some i) : (s.setAside id dir).previous other = some i := by
  have hother : other ≠ id := by
    rintro rfl
    rw [hnone] at hi
    cases hi
  change (Function.update s.recovery id (some dir) other).bind RecoveryDir.previous = some i
  rwa [Function.update_of_ne hother]

theorem private_setAside {id : String} (hnone : s.previous id = none) (dir : RecoveryDir) :
    Private P m s (s.setAside id dir) := private_of_eq rfl rfl fun _ _ hi => previous_setAside hnone dir hi

/-- The old file is moved aside. -/
theorem triple_moveAside (id : String) (original : Manifest) :
    Triple (among (Private P m)) (Checked P m m) (prepareInstall id original m) (outcome (fun _ => Ready P m) fun _ => Wf) := by
  -- Until the file is moved, the recovery directory holds none.
  let Poised (s : Place) : Prop := Checked P m m s ∧ s.previous id = none
  have hstable : Stable (among (Private P m)) Poised := stable_checked.and (stable_among fun _ _ _ _ h => h)
  have hwf : ∀ s, Poised s → s.Wf := fun _ h => h.1.wf
  have hstep : ∀ {f : Place → Result Unit × Place}, (∀ s, Poised s → Private P m s (f s).2 ∧
      outcome (fun _ => Poised) (fun _ => Wf) (f s).1 (f s).2) →
      Triple (among (Private P m)) Poised (Fallible.act f : Io Unit) (outcome (fun _ => Poised) fun _ => Wf) := fun h =>
    act_rule hstable hwf (fun _ => hstable) (fun _ => hwf) h
  refine Triple.andThen (Q := fun _ => Poised) (act_rule stable_checked (fun _ h => h.wf) (fun _ => hstable) (fun _ => hwf)
    fun s hs => ?_) fun _ => ?_
  · split
    · exact ⟨private_refl s, hs.wf⟩
    · rename_i hnone
      exact ⟨private_setAside (by rw [Place.previous, hnone]; rfl) _, hs.setAside (by simp) id, by simp [Place.previous, setAside]⟩
  refine (hstep fun s hs => ?_).andThen fun _ => ?_
  · split
    · exact ⟨private_refl s, hwf s hs⟩
    · rename_i k hk
      refine ⟨private_setAside hs.2 _, hs.1.setAside (fun j hj => ?_) id, by simp [Place.previous, setAside]⟩
      obtain rfl : k = j := by simpa using hj
      exact hs.1.wf k (.inr (.inl ⟨_, hk⟩))
  refine Triple.andThen (Q := fun _ => Poised) ((hstep fun s hs => ?_).andThen fun _ => hstep fun s hs => ?_) fun _ => ?_
  · split
    · exact ⟨private_refl s, hwf s hs⟩
    · exact ⟨private_of_eq rfl rfl fun _ _ h => h, hs.1.setIntent _, hs.2⟩
  · exact ⟨private_of_eq rfl rfl fun _ _ h => h, hs.1.setIntent _, hs.2⟩
  -- The name is taken away; a staging file that had it is where it was moved to.
  refine act_rule hstable hwf (fun _ => stable_ready) (fun _ s hs => hs.1) fun s hs => ?_
  obtain ⟨⟨hwfs, k, hk, hcase⟩, hnone⟩ := hs
  cases htarget : s.target with
  | none => exact ⟨private_refl s, hwfs⟩
  | some j =>
    have hmoved : (s.setAside id ⟨(s.recovery id).bind RecoveryDir.incoming, some j⟩).Wf := by
      refine wf_setAside hwfs (fun l hl => ?_) id
      rcases hl with hl | hl
      · obtain ⟨dir, hdir, hin⟩ := Option.bind_eq_some_iff.mp hl
        exact hwfs l (.inr (.inr ⟨id, dir, hdir, .inl hin⟩))
      · obtain rfl : j = l := by simpa using hl
        exact hwfs j (.inl htarget)
    have hid : ∀ t : Option ℕ, Place.previous { s.setAside id ⟨(s.recovery id).bind RecoveryDir.incoming, some j⟩ with target := t }
        id = some j := fun _ => by simp [Place.previous, setAside]
    refine ⟨⟨fun _ _ => ⟨rfl, .inr rfl⟩, fun hnone => ?_, ?_⟩, ?_, k, hk, ?_⟩
    · rw [htarget] at hnone
      cases hnone
    · rintro l (hl | ⟨other, hl⟩)
      · obtain rfl : j = l := by simpa [htarget] using hl
        exact .inr ⟨id, hid none⟩
      · exact .inr ⟨other, previous_setAside hnone _ hl⟩
    · rintro l (hl | hl)
      · cases hl
      · exact hmoved l (.inr hl)
    · rcases hcase with hkt | hm
      · obtain rfl : j = k := by simpa [htarget] using hkt
        exact .inr (.inl ⟨id, hid none⟩)
      · exact .inr (.inr hm)

/-- The old file is moved aside, if there is one. -/
theorem triple_displaced (id : String) (original : Option Manifest) :
    Triple (among (Private P m)) (Checked P m m) (displace P id m original) (outcome (fun _ => Ready P m) fun _ => Wf) := by
  cases original with
  | none => exact Triple.ofExcept stable_checked (fun _ h => h.wf) fun s hs => hs.ready
  | some old =>
    refine (triple_moveAside id old).andThen fun _ => ?_
    refine Triple.andThen (Q := fun _ => Ready P m) (tries_rule (quiet_look fun _ => rfl) stable_ready (fun _ h => h.1)
      fun s s' hs hq => ⟨hq.mild.private hs.1, hq.mild.wf hs.1, ?_⟩) fun moved => ?_
    · obtain ⟨-, k, hk, hcase⟩ := hs
      refine ⟨k, by rw [hq.part, hk], ?_⟩
      rw [hq.target, hq.inode]
      exact hcase.imp_right fun h => h.imp_left fun ⟨id, hid⟩ => ⟨id, by rw [hq.mild.previous, hid]⟩
    · split
      · exact Triple.ofExcept stable_ready (fun _ h => h.1) fun s hs => hs
      · exact (fails_rule ((mild_linkTarget id).attempt.andThen fun _ _ => Tries.fail)).conseq (fun _ h => h.1) fun _ _ h => h

/-- What is linked to the destination was verified or moved aside. -/
theorem triple_linked (refused : Option IoError) :
    Triple (among (Private P m)) (Ready P m) (Fallible.act fun s =>
      refused.elim (linkTarget (fun s => s.part m.hash) s) fun e => (.error (.io e), s) : Io Unit)
      (outcome (fun _ => Wf) fun _ => Wf) := by
  refine act_rule stable_ready (fun _ h => h.1) (fun _ => stable_wf) (fun _ _ h => h) fun s hs => ?_
  cases refused with
  | some e => exact ⟨private_refl s, hs.1⟩
  | none =>
    obtain ⟨hwf, k, hk, hcase⟩ := hs
    rw [Option.elim_none, linkTarget, hk]
    cases htarget : s.target with
    | some j => exact ⟨private_refl s, hwf⟩
    | none =>
      refine ⟨⟨fun j hj => ?_, fun _ j hj => ?_, ?_⟩, ?_⟩
      · rw [htarget] at hj
        cases hj
      · obtain rfl : k = j := by simpa using hj
        refine hcase.resolve_left fun h => ?_
        rw [htarget] at h
        cases h
      · rintro j (hj | ⟨id, hj⟩)
        · rw [htarget] at hj
          cases hj
        · exact .inr ⟨id, hj⟩
      · rintro j (hj | hj)
        · obtain rfl : k = j := by simpa using hj
          exact hwf k (.inr (.inl ⟨_, hk⟩))
        · exact hwf j (.inr hj)

theorem triple_given (r : Receiver) (refused : Option IoError) :
    Triple (among (Private P r.manifest)) (Ready P r.manifest) (publish P r refused)
      (outcome (fun _ => Wf) fun _ => Wf) := by
  have hattempt : Triple (among (Private P r.manifest)) (Ready P r.manifest) (Fallible.attempt (Fallible.act fun s =>
      refused.elim (linkTarget (fun s => s.part r.manifest.hash) s) fun e => (.error (.io e), s) : Io Unit))
      (outcome (outcome (fun _ => Wf) fun _ => Wf) fun _ => Wf) := (triple_linked refused).attempt
  refine hattempt.andThen fun v => ?_
  rcases v with e | ⟨⟩
  · refine mild_rule ?_
    dsimp only
    split_ifs
    · exact (mild_recoverInstall r.manifest).attempt.andThen fun _ _ => Tries.fail
    · exact Tries.fail
  · exact mild_rule (Tries.ofExcept fun _ _ => trivial)

/-- **Publishing is private**, wherever the staging file is. -/
theorem triple_private (r : Receiver) (id : String) (authorize : Result Unit) (refused : Option IoError) :
    Triple (among (Private P r.manifest)) Wf (finishChecked P r id authorize refused)
      (outcome (fun _ => Wf) fun _ => Wf) := by
  refine (mild_rule (Tries.ofExcept fun _ _ => trivial)).andThen fun _ => ?_
  refine (mild_rule (mild_recoverInstall r.manifest)).andThen fun _ => triple_fromPath.andThen fun received => ?_
  refine (check_rule stable_checked fun _ h => h.wf).andThen fun _ => Triple.fact fun hreceived => ?_
  subst hreceived
  have hquiet : ∀ {α : Type} {p : Io α} {V : α → Prop}, Tries Quiet V p →
      Triple (among (Private P r.manifest)) (Checked P r.manifest r.manifest) p
        (outcome (fun _ => Checked P r.manifest r.manifest) fun _ => Wf) := fun h =>
    tries_rule h stable_checked (fun _ h => h.wf) fun s s' hs hq => ⟨hq.mild.private hs.wf, hq.checked hs⟩
  have hcheck : ∀ {c : Prop} [Decidable c] {text : String}, Triple (among (Private P r.manifest))
      (Checked P r.manifest r.manifest) (liftM (ensure c text) : Io Unit)
      (outcome (fun _ => Checked P r.manifest r.manifest) fun _ => Wf) := hquiet (Tries.ofExcept fun _ _ => trivial)
  refine (hquiet (quiet_look fun _ => rfl)).andThen fun current => hcheck.andThen fun _ => ?_
  refine (hquiet (quiet_archive r.original)).andThen fun _ => ?_
  refine (hquiet (quiet_look fun _ => rfl)).andThen fun current => hcheck.andThen fun _ => ?_
  refine (hquiet (Tries.ofExcept fun _ _ => trivial)).andThen fun _ => ?_
  refine (triple_displaced id r.original).andThen fun _ => (triple_given r refused).andThen fun _ => ?_
  exact mild_rule ((mild_cleanUp r.manifest.hash).andThen fun _ _ => Tries.ofExcept fun _ _ => trivial)

/-! ### All calls -/

theorem wf_of_outcome {α : Type} (v : Except Error α) (s : Place) (h : outcome (fun _ => Wf) (fun _ => Wf) v s) : s.Wf := by
  rcases v with e | a
  · exact h
  · exact h

/-- The receiver is returned. -/
theorem triple_back (o : Option Receiver) :
    Triple (among guar) Wf (pure o : Io (Option Receiver)) (outcome (fun _ => Wf) fun _ => Wf) :=
  Triple.ofExcept stable_wf (fun _ h => h) fun _ hs => hs

theorem triple_open {o : Option Receiver} :
    Triple (among (Private P m)) Wf ((Call.open_ m).program P o) fun _ => Wf := by
  cases o with
  | none => exact ((mild_rule (mild_open m)).andThen fun r => triple_back (some r)).conseq (fun _ h => h) wf_of_outcome
  | some r =>
    have hfail : Triple (among (Private P m)) Wf ((Call.open_ m).program P (some r)) (outcome (fun _ => Wf) fun _ => Wf) :=
      mild_rule ((Tries.ofExcept fun _ _ => trivial).andThen fun _ _ => Tries.fail)
    exact hfail.conseq (fun _ h => h) wf_of_outcome

theorem triple_finish (id : String) (authorize : Result Unit) (refused : Option IoError) :
    Triple (among (Private P r.manifest)) Wf ((Call.finishChecked id authorize refused).program P (some r)) fun _ => Wf :=
  ((triple_private r id authorize refused).andThen fun r => triple_back (some r)).conseq (fun _ h => h) wf_of_outcome

/-- The calls that receive blocks. -/
theorem triple_blocks {α : Type} {p : Io α} {A : Place → Prop} (h : Tries (Writes r) (fun _ => True) p)
    (hA : Stable (among guar) A) (hAwf : ∀ s, A s → s.Wf)
    (hstep : ∀ s s', A s → Writes r s s' → guar s s' ∧ A s') :
    Triple (among guar) A (p >>= fun _ => pure (some r) : Io (Option Receiver)) fun _ => Wf :=
  ((tries_rule h hA hAwf hstep).andThen fun _ => (triple_back (some r)).conseq hAwf fun _ _ h => h).conseq
    (fun _ h => h) wf_of_outcome

/-- Blocks are received while the staging file is not the destination. -/
theorem triple_clear {α : Type} {p : Io α} (h : Tries (Writes r) (fun _ => True) p) :
    Triple (among Same) (fun s => s.Wf ∧ (r.finished = true ∨ s.target ≠ some r.part))
      (p >>= fun _ => pure (some r) : Io (Option Receiver)) fun _ => Wf := by
  refine triple_blocks h (stable_among fun _ _ _ _ h => h) (fun _ h => h.1) fun s s' hs hw => ⟨hw.same hs.2, ?_⟩
  rcases hw with rfl | ⟨-, bytes, rfl⟩
  · exact hs
  · exact hs

/-- **What a call may do to the destination.** -/
theorem triple_program {c : Call} {o : Option Receiver} (hm : c.manifest o = some m) :
    Triple (among (Call.Guarantee P m c)) (fun s => s.Wf ∧ c.Clear s o) (c.program P o) fun _ => Wf := by
  cases c with
  | open_ m' =>
    obtain rfl : m' = m := Option.some.inj hm
    exact triple_open.conseq (fun _ h => h.1) fun _ _ h => h
  | missingFrom basis =>
    cases o with
    | none => cases hm
    | some r => exact triple_clear (writes_missingFrom r basis)
  | put index data =>
    cases o with
    | none => cases hm
    | some r => exact triple_clear (writes_put r index data)
  | finishChecked id authorize refused =>
    cases o with
    | none => cases hm
    | some r =>
      obtain rfl : r.manifest = m := Option.some.inj hm
      exact (triple_finish id authorize refused).conseq (fun _ h => h.1) fun _ _ h => h

theorem triple_held {α : Type} {p : Io α} (h : Tries (Writes r) (fun _ => True) p) :
    Triple (among Holding) Wf (p >>= fun _ => pure (some r) : Io (Option Receiver)) fun _ => Wf := by
  refine triple_blocks h stable_wf (fun _ h => h) fun s s' hs hw => ⟨hw.holding, ?_⟩
  rcases hw with rfl | ⟨-, bytes, rfl⟩
  · exact hs
  · exact hs

/-- No call loses a file. -/
theorem triple_holding {c : Call} {o : Option Receiver} (hm : c.manifest o = some m) :
    Triple (among Holding) Wf (c.program P o) fun _ => Wf := by
  have hheld : ∀ {m : Manifest} s s', (among (Private P m)).guar s s' → Holding s s' := fun _ _ h => h.held
  cases c with
  | open_ m' =>
    obtain rfl : m' = m := Option.some.inj hm
    exact triple_open.weaken hheld
  | missingFrom basis =>
    cases o with
    | none => cases hm
    | some r => exact triple_held (writes_missingFrom r basis)
  | put index data =>
    cases o with
    | none => cases hm
    | some r => exact triple_held (writes_put r index data)
  | finishChecked id authorize refused =>
    cases o with
    | none => cases hm
    | some r =>
      obtain rfl : r.manifest = m := Option.some.inj hm
      exact (triple_finish id authorize refused).weaken hheld

section run

variable {allowed : Place → Call → Option Receiver → Prop} {guarantee : Manifest → Call → Place → Place → Prop}
  {trace : List (Who × Place × Place)} {o : Option Receiver} {busy : Option Busy}

/-- What holds all along. -/
structure Kept (guarantee : Manifest → Call → Place → Place → Prop) (trace : List (Who × Place × Place))
    (busy : Option Busy) (s : Place) : Prop where
  /-- All changes are allowed. -/
  trace : ∀ e ∈ trace, Change guarantee e
  /-- Names lead to files. -/
  wf : s.Wf
  /-- The call keeps its terms. -/
  busy : ∀ b, busy = some b → Meets (among (guarantee b.manifest b.call)) b.rest (fun _ => Wf) s

theorem change_concat {e : Who × Place × Place} (h : ∀ e ∈ trace, Change guarantee e) (he : Change guarantee e) :
    ∀ e' ∈ trace ++ [e], Change guarantee e' := by
  intro e' h'
  rcases List.mem_append.mp h' with h' | h'
  · exact h e' h'
  · obtain rfl := List.mem_singleton.mp h'
    exact he

/-- What all calls keep, a run keeps. -/
theorem Run.kept (hcalls : ∀ {c : Call} {o : Option Receiver} {m : Manifest}, c.manifest o = some m →
      Triple (among (guarantee m c)) (fun s => s.Wf ∧ allowed s c o) (c.program P o) fun _ => Wf) (hwf : s₀.Wf)
    (h : Run P allowed s₀ trace o busy s) : Kept guarantee trace busy s := by
  induction h with
  | start => exact ⟨by simp, hwf, by simp⟩
  | edit _ hedit ih =>
    refine ⟨change_concat ih.trace hedit, ?_, fun b hb => (ih.busy b hb).rely hedit⟩
    obtain ⟨i, bytes, -, rfl⟩ := hedit
    exact ih.wf
  | call _ hm hallowed ih =>
    refine ⟨ih.trace, ih.wf, ?_⟩
    rintro b ⟨⟩
    exact hcalls hm _ ⟨ih.wf, hallowed⟩
  | step _ ih =>
    have hmeets := ih.busy _ rfl
    refine ⟨change_concat ih.trace hmeets.guar, (hmeets _ .refl).2.2.inv, ?_⟩
    rintro b ⟨⟩
    exact (hmeets _ .refl).2.2
  | returned _ ih => exact ⟨ih.trace, ih.wf, by simp⟩
  | failed _ ih => exact ⟨ih.trace, ih.wf, by simp⟩
  | stopped _ ih => exact ⟨ih.trace, ih.wf, by simp⟩

/-- **No file is lost.** Whatever is called in whatever order, and wherever it fails or is stopped, a file that was at the
destination at any time is there now, or was moved aside. -/
theorem displaced_kept (hwf : s₀.Wf) (h : Run P (fun _ _ _ => True) s₀ trace o busy s) :
    ∀ e ∈ trace, ∀ i, e.2.1.Held i ∨ e.2.2.Held i → s.Held i := by
  induction h with
  | start => simp
  | @edit trace o busy s s' _ hedit ih =>
    obtain ⟨j, bytes, -, rfl⟩ := hedit
    intro e he i hi
    rcases List.mem_append.mp he with he | he
    · exact ih e he i hi
    · obtain rfl := List.mem_singleton.mp he
      exact hi.elim id id
  | call _ _ _ ih => exact ih
  | step h ih =>
    have hstep : Holding _ _ := ((h.kept (fun hm => (triple_holding hm).conseq (fun _ h => h.1) fun _ _ h => h) hwf).busy _ rfl).guar
    intro e he i hi
    rcases List.mem_append.mp he with he | he
    · exact hstep i (ih e he i hi)
    · obtain rfl := List.mem_singleton.mp he
      exact hi.elim (hstep i) id
  | returned _ ih => exact ih
  | failed _ ih => exact ih
  | stopped _ ih => exact ih

/-- **Staging writes stay private** in every run in which blocks are received only while the staging file is not the
destination: the bytes there change by edits and by the publication of what was verified, and never by a block. -/
theorem staging_private (hwf : s₀.Wf) (h : Run P Call.Clear s₀ trace o busy s) :
    ∀ e ∈ trace, Change (Call.Guarantee P) e := (h.kept triple_program hwf).trace

end run

/-! ### A staging file that is the destination -/

instance (s : Place) : (c : Call) → (o : Option Receiver) → Decidable (c.Clear s o)
  | .open_ _, _ => isTrue trivial
  | .missingFrom _, none => isTrue trivial
  | .missingFrom _, some r => inferInstanceAs (Decidable (r.finished = true ∨ s.target ≠ some r.part))
  | .put _ _, none => isTrue trivial
  | .put _ _, some r => inferInstanceAs (Decidable (r.finished = true ∨ s.target ≠ some r.part))
  | .finishChecked _ _ _, _ => isTrue trivial

/-- The changes that the first steps of a program make. -/
def changes : ℕ → Io (Option Receiver) → Place → List (Place × Place)
  | n + 1, .step act next, s => (s, (act s).2) :: changes n (next (act s).1) (act s).2
  | _, _, _ => []

section runs

variable {allowed : Place → Call → Option Receiver → Prop} {trace : List (Who × Place × Place)} {o : Option Receiver}
  {c : Call}

/-- A call goes on for some steps. -/
theorem Run.steps {p : Io (Option Receiver)} (n : ℕ) (h : Run P allowed s₀ trace o (some ⟨c, m, p⟩) s) :
    Run P allowed s₀ (trace ++ (changes n p s).map fun x => (.receiver c m, x)) o (some ⟨c, m, (Prog.runFor n p s).1⟩)
      (Prog.runFor n p s).2 := by
  induction n generalizing p s trace with
  | zero => cases p <;> simpa [changes, Prog.runFor] using h
  | succ n ih =>
    cases p with
    | ret a => simpa [changes, Prog.runFor] using h
    | step act next =>
      rw [changes, List.map_cons, List.append_cons]
      exact ih h.step

/-- A call goes to its end. -/
theorem Run.whole {p : Io (Option Receiver)} (h : Run P allowed s₀ trace o (some ⟨c, m, p⟩) s) :
    ∃ trace', Run P allowed s₀ trace' o (some ⟨c, m, .ret (Prog.run p s).1⟩) (Prog.run p s).2 := by
  induction p generalizing s trace with
  | ret a => exact ⟨trace, h⟩
  | step act next ih => exact ih _ h.step

/-- The receiver and the place after a call. -/
def after (c : Call) (x : Option Receiver × Place) : Option Receiver × Place :=
  ((Fallible.run (c.program .padded x.1) x.2).1.toOption.getD x.1, (Fallible.run (c.program .padded x.1) x.2).2)

theorem Run.after (h : Run .padded allowed s₀ trace o none s) (hm : c.manifest o = some m) (hallowed : allowed s c o) :
    ∃ trace', Run .padded allowed s₀ trace' (after c (o, s)).1 none (after c (o, s)).2 := by
  obtain ⟨trace', h'⟩ := (h.call hm hallowed).whole
  refine ⟨trace', ?_⟩
  rw [Place.after]
  change Run .padded allowed s₀ trace' ((Prog.run (c.program .padded o) s).1.toOption.getD o) none
    (Prog.run (c.program .padded o) s).2
  cases hv : (Prog.run (c.program .padded o) s).1 with
  | error e => exact h'.failed
  | ok o' =>
    rw [hv] at h'
    exact h'.returned

end runs

/-- A receiver is opened. -/
def opened : Option Receiver × Place := after (.open_ receiver.manifest) (none, waiting)

/-- The program of the publication. -/
def publication : Io (Option Receiver) :=
  (Call.finishChecked (Platform.padded.blake3 []) (.ok ()) none).program .padded opened.1

/-- The file is published, and the receiver is stopped before it removes the staging name. -/
def shared : Place := (Prog.runFor 18 publication opened.2).2

/-- The next receiver of the same content. -/
def reopened : Option Receiver × Place := after (.open_ receiver.manifest) (none, shared)

/-- Somebody edits the file. -/
def edited : Place := reopened.2.setInode 1 [9]

theorem run_opened (allowed : Place → Call → Option Receiver → Prop) (h : allowed waiting (.open_ receiver.manifest) none) :
    ∃ trace, Run .padded allowed waiting trace opened.1 none opened.2 :=
  Run.start.after rfl h

/-- **The condition is needed**: the block that the next receiver writes replaces what was edited. -/
theorem staging_shared : ∃ trace o busy s, Run .padded (fun _ _ _ => True) waiting trace o busy s ∧
    edited.shown = some [9] ∧ ∃ e ∈ trace, ¬ Change (Call.Guarantee .padded) e := by
  obtain ⟨trace, hopened⟩ := run_opened (fun _ _ _ => True) trivial
  have hshared := ((hopened.call (c := .finishChecked (Platform.padded.blake3 []) (.ok ()) none)
    (m := receiver.manifest) (by decide +kernel) trivial).steps 18).stopped
  obtain ⟨trace', hreopened⟩ := hshared.after (c := .open_ receiver.manifest) rfl trivial
  have htarget : reopened.2.target = some 1 := by decide +kernel
  have hedited := hreopened.edit ⟨1, [9], htarget, rfl⟩
  have hput := (hedited.call (c := .put 0 [2]) (m := receiver.manifest) (by decide +kernel) trivial).steps 1
  refine ⟨_, _, _, _, hput, by decide +kernel, ?_⟩
  have hchange : ∃ x ∈ changes 1 ((Call.put 0 [2]).program .padded reopened.1) edited, x.2.shown ≠ x.1.shown := by
    decide +kernel
  obtain ⟨x, hx, hshown⟩ := hchange
  exact ⟨_, List.mem_append_right _ (List.mem_map_of_mem hx), fun hsame => hshown hsame.2⟩

/-- A receiver that publishes, and one that is stopped when the old file is moved aside. -/
theorem staging_private_waiting : ∃ trace o busy s, Run .padded Call.Clear waiting trace o busy s ∧
    s.shown = some [2] ∧ ∀ e ∈ trace, Change (Call.Guarantee .padded) e := by
  obtain ⟨trace, hopened⟩ := run_opened Call.Clear trivial
  obtain ⟨trace', hput⟩ := hopened.after (c := .put 0 [2]) (m := receiver.manifest) (by decide +kernel) (by decide +kernel)
  obtain ⟨trace'', hfinished⟩ := hput.after (c := .finishChecked (Platform.padded.blake3 []) (.ok ()) none)
    (m := receiver.manifest) (by decide +kernel) (by decide +kernel)
  exact ⟨_, _, _, _, hfinished, by decide +kernel, staging_private wf_waiting hfinished⟩

theorem displaced_kept_waiting : ∃ trace o busy s, Run .padded (fun _ _ _ => True) waiting trace o busy s ∧
    s.target = none ∧ ∀ e ∈ trace, ∀ i, e.2.1.Held i ∨ e.2.2.Held i → s.Held i := by
  obtain ⟨trace, hopened⟩ := run_opened (fun _ _ _ => True) trivial
  have hmoved := ((hopened.call (c := .finishChecked (Platform.padded.blake3 []) (.ok ()) none)
    (m := receiver.manifest) (by decide +kernel) trivial).steps 16).stopped
  exact ⟨_, _, _, _, hmoved, by decide +kernel, displaced_kept wf_waiting hmoved⟩

end Everywhere.Place
