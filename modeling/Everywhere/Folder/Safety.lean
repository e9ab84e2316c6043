import Everywhere.Folder.Root

/-!
# Applying never destroys

`Root.apply` and `Root.recover` work on a folder that others work on, too. This module
proves that whatever the others do to the path in the meantime, and wherever the program is
stopped, no file is lost that the program did not write itself.

To say so, the state is watched: `Watched.owed` are the inodes that stood at the path when
the program began or were put there by others since, less those that others took away
again. `External` is what others may do: anything outside `.everywhere-recovery`. `Kept`
says of an inode that it is still linked, at the path or as the displaced file of some
transaction, and `Harmless` is what a single step of the program may do: make names that
are free, move what stands at the path aside to a name that is free, remove the path
if it is an empty directory.

* `apply_keeps`, `recover_keeps` — both programs meet the contract `keeping`.
* `apply_never_destroys` — **every file is kept**, in every run of `apply` and of any number of
  recoveries after it, at every step.
-/

namespace Everywhere

open Library

/-- A folder, and the files at the path in question that the program must not lose. -/
structure Watched where
  /-- The folder. -/
  files : Files
  /-- The inodes that are not the program's own. -/
  owed : Set ℕ

instance : HasFiles Watched where
  files := Watched.files
  setFiles f w := { w with files := f }
  files_setFiles _ _ := rfl
  setFiles_files _ := rfl
  setFiles_setFiles _ _ _ := rfl

section

variable (p : FilePath)

/-- The inode is linked at the path or as a displaced file. -/
def Kept (fs : Files) (i : ℕ) : Prop :=
  fs.node p = some (.file i) ∨ ∃ id, fs.node (Root.previous id) = some (.file i)

/-- Everything owed is kept. -/
def Safe (w : Watched) : Prop := ∀ i ∈ w.owed, Kept p w.files i

/-- What others may do, in one step, to the folder: anything outside the directory of the records. Of the
files at the path, the one that they take away is not owed any more, and the one that they bring is. -/
structure External (w w' : Watched) : Prop where
  /-- The directory of the records is left alone. -/
  own : ∀ q, recovery <+: q → w'.files.node q = w.files.node q
  /-- A file that is brought to the path is not one of the program's. -/
  foreign : ∀ i, w'.files.node p = some (.file i) → w.files.node p ≠ some (.file i) →
    ∀ q, recovery <+: q → w.files.node q ≠ some (.file i)
  /-- What is owed then. -/
  owed : ∀ i, i ∈ w'.owed ↔
    (i ∈ w.owed ∧ ¬ (w.files.node p = some (.file i) ∧ w'.files.node p ≠ some (.file i))) ∨
      (w'.files.node p = some (.file i) ∧ w.files.node p ≠ some (.file i))

/-- What a step of the program may do. -/
structure Harmless (w w' : Watched) : Prop where
  /-- It does not change what is owed. -/
  owed : w'.owed = w.owed
  /-- It does not write to a file that is owed. -/
  bytes : ∀ i ∈ w.owed, w'.files.inode i = w.files.inode i
  /-- A displaced file stays. -/
  displaced : ∀ id, w.files.node (Root.previous id) ≠ none →
    w'.files.node (Root.previous id) = w.files.node (Root.previous id)
  /-- Outside the directory of the records a name is never given to something else, and taken away only at
  the path: by moving it and what is in it aside, or if it is an empty directory. -/
  names : ∀ q, ¬ recovery <+: q → w.files.node q ≠ none → w'.files.node q = w.files.node q ∨
    w'.files.node q = none ∧
      ((∃ id r, q = p ++ r ∧ w.files.node (Root.previous id) = none ∧
          w'.files.node (Root.previous id ++ r) = w.files.node q) ∨
        (q = p ∧ w.files.node p = some .dir ∧ w.files.children p = []))

/-- The terms: others do what they may, the program does no harm, and everything owed is kept. -/
def keeping : Contract Watched := ⟨External p, Harmless p, Safe p⟩

/-- The displaced files of these transactions are not there yet. -/
def Free (ids : Set String) (w : Watched) : Prop := ∀ id ∈ ids, w.files.node (Root.previous id) = none

/-- The inode is one of the program's own. -/
def Own (i : ℕ) (w : Watched) : Prop := i ∉ w.owed ∧ ∃ q, recovery <+: q ∧ w.files.node q = some (.file i)

end

theorem recovery_prefix_previous (id : String) : recovery <+: Root.previous id := ⟨[id, "previous"], rfl⟩

section contract

variable {p : FilePath} {ids : Set String} {w w' : Watched}

theorem stable_safe : Stable (keeping p) (Safe p) := by
  intro w w' h hs i hi
  rcases (h.owed i).mp hi with ⟨hi, hp⟩ | ⟨hp, -⟩
  · rcases hs i hi with hk | ⟨id, hk⟩
    · exact .inl (by_contra fun hn => hp ⟨hk, hn⟩)
    · exact .inr ⟨id, by rw [h.own _ (recovery_prefix_previous id), hk]⟩
  · exact .inl hp

theorem stable_free : Stable (keeping p) (Free ids) :=
  fun w w' h hf id hid => by rw [h.own _ (recovery_prefix_previous id), hf id hid]

theorem stable_own {i : ℕ} : Stable (keeping p) (Own i) := by
  rintro w w' h ⟨hi, q, hq, hn⟩
  refine ⟨fun hi' => ?_, q, hq, by rw [h.own q hq, hn]⟩
  rcases (h.owed i).mp hi' with ⟨hi', -⟩ | ⟨hp, hne⟩
  · exact hi hi'
  · exact h.foreign i hp hne q hq hn

/-- Whatever is owed is an inode in use. -/
theorem Safe.lt_fresh (h : Safe p w) {i : ℕ} (hi : i ∈ w.owed) : i < w.files.fresh := by
  rcases h i hi with hk | ⟨id, hk⟩
  · exact w.files.lt_fresh _ i hk
  · exact w.files.lt_fresh _ i hk

/-- After a harmless step everything owed is still kept. -/
theorem Harmless.safe (h : Harmless p w w') (hp : ¬ recovery <+: p) (hs : Safe p w) : Safe p w' := by
  intro i hi
  rcases hs i (h.owed ▸ hi) with hk | ⟨id, hk⟩
  · rcases h.names p hp (by simp [hk]) with hn | ⟨-, ⟨id, r, hr, -, hn⟩ | ⟨-, hd, -⟩⟩
    · exact .inl (hn.trans hk)
    · obtain rfl : r = [] := by simpa using hr
      exact .inr ⟨id, by simpa [hk] using hn⟩
    · rw [hk] at hd
      cases hd
  · exact .inr ⟨id, by rw [h.displaced id (by simp [hk]), hk]⟩

theorem Harmless.refl : Harmless p w w :=
  ⟨rfl, fun _ _ => rfl, fun _ _ => rfl, fun _ _ _ => .inl rfl⟩

/-- Making a name is harmless. -/
theorem harmless_adds {q : FilePath} {fs : Files} (hs : Safe p w) (h : Files.Adds q w.files fs) :
    Harmless p w { w with files := fs } where
  owed := rfl
  bytes i hi := h.2 i (hs.lt_fresh hi)
  displaced _ hid := (h.1 _).resolve_right fun hq => hid hq.2
  names q' _ hq' := .inl ((h.1 q').resolve_right fun hq => hq' hq.2)

theorem free_adds {q : FilePath} {fs : Files} (h : Files.Adds q w.files fs) (hq : ∀ id ∈ ids, q ≠ Root.previous id)
    (hf : Free ids w) : Free ids { w with files := fs } := by
  intro id hid
  rcases h.1 (Root.previous id) with he | ⟨he, -⟩
  · exact he.trans (hf id hid)
  · exact absurd he.symm (hq id hid)

/-- Removing one of the program's own names is harmless. -/
theorem harmless_removeFile {q : FilePath} (hq : recovery <+: q) (hne : ∀ id, q ≠ Root.previous id) :
    Harmless p w { w with files := (w.files.removeFile q).2 } where
  owed := rfl
  bytes i _ := by rw [Files.inode_removeFile]
  displaced _ _ := Files.removeFile_ne (hne _).symm
  names q' hq' _ := .inl (Files.removeFile_ne fun he => hq' (he ▸ hq))

/-- Removing the path as an empty directory is harmless. -/
theorem harmless_removeDir (hp : ¬ recovery <+: p) : Harmless p w { w with files := (w.files.removeDir p).2 } where
  owed := rfl
  bytes i _ := by rw [Files.inode_removeDir]
  displaced id _ := by
    rcases @Files.node_removeDir w.files p (Root.previous id) with h | h
    · exact h
    · exact absurd (h.1 ▸ recovery_prefix_previous id) hp
  names q _ _ := by
    rcases @Files.node_removeDir w.files p q with h | ⟨rfl, h⟩
    · exact .inl h
    · exact .inr ⟨h.2.2, .inr ⟨rfl, h.1, h.2.1⟩⟩

/-- Moving the path aside to a free name is harmless. -/
theorem harmless_rename (hp : ¬ recovery <+: p) (hne : p ≠ []) {id : String}
    (hf : w.files.node (Root.previous id) = none) :
    Harmless p w { w with files := (w.files.rename p (Root.previous id)).2 } := by
  rcases Files.rename_cases p _ _ with h | ⟨h, hpre, ha⟩
  · rw [h]
    exact .refl
  · have hnode : ∀ q, (w.files.rename p (Root.previous id)).2.node q =
        if Root.previous id <+: q then w.files.node (p ++ q.drop (Root.previous id).length)
        else if p <+: q then none else w.files.node q := by
      intro q
      rw [h]
      exact Files.node_move (p := Root.transaction id) hne hpre (Files.ancestors_concat.mp ha)
    -- the directory of the records and the path are apart
    have hapart : ∀ q, recovery <+: q → ¬ p <+: q := by
      intro q hq hpq
      rcases List.prefix_or_prefix_of_prefix hq hpq with h' | h'
      · exact hp h'
      · have : p = recovery := by
          obtain ⟨r, hr⟩ := h'
          cases p with
          | nil => exact absurd rfl hne
          | cons x l => simp_all [recovery]
        exact hp (this ▸ List.prefix_rfl)
    refine ⟨rfl, fun i _ => by rw [h, Files.inode_move], fun id' hid' => ?_, fun q hq hqn => ?_⟩
    · change (w.files.rename p (Root.previous id)).2.node _ = _
      rw [hnode, if_neg, if_neg (hapart _ (recovery_prefix_previous id'))]
      intro hpre'
      have : id = id' := by simpa [Root.previous, Root.transaction, recovery] using hpre'
      exact hid' (this ▸ hf)
    · change (w.files.rename p (Root.previous id)).2.node q = _ ∨ (w.files.rename p (Root.previous id)).2.node q = none ∧ _
      have hq' : ¬ Root.previous id <+: q := fun h' => hq ((recovery_prefix_previous id).trans h')
      rw [hnode q, if_neg hq']
      by_cases hpq : p <+: q
      · obtain ⟨r, rfl⟩ := hpq
        refine .inr ⟨if_pos (List.prefix_append p r), .inl ⟨id, r, rfl, hf, ?_⟩⟩
        change (w.files.rename p (Root.previous id)).2.node _ = _
        rw [hnode, if_pos (List.prefix_append _ r), List.drop_left]
      · exact .inl (if_neg hpq)

/-- Writing to one of the program's own files is harmless. -/
theorem harmless_append {i : ℕ} {b : UInt8} (h : Own i w) :
    Harmless p w { w with files := (w.files.append i b).2 } where
  owed := rfl
  bytes j hj := by
    have hne : j ≠ i := by rintro rfl; exact h.1 hj
    simp [Files.append, Files.inode_setInode, Function.update_of_ne hne]
  displaced _ _ := rfl
  names _ _ _ := .inl rfl

end contract

/-! ### Programs that keep the terms -/

section programs

variable {p : FilePath} {ids : Set String} {α β : Type}

/-- The program meets the contract, and leaves the displaced files of some transactions free. -/
def Keeps (p : FilePath) (ids : Set String) (x : Io Watched α) : Prop :=
  Triple (keeping p) (fun w => Safe p w ∧ Free ids w) x
    (outcome (fun _ w => Safe p w ∧ Free ids w) fun _ w => Safe p w ∧ Free ids w)

theorem stable_keeps : Stable (keeping p) fun w => Safe p w ∧ Free ids w := stable_safe.and stable_free

theorem Keeps.andThen {x : Io Watched α} {f : α → Io Watched β} (hx : Keeps p ids x) (hf : ∀ a, Keeps p ids (f a)) :
    Keeps p ids (x >>= f) := Triple.andThen hx hf

theorem Keeps.attempt {x : Io Watched α} (hx : Keeps p ids x) : Keeps p ids (Fallible.attempt x) :=
  (Triple.attempt hx).conseq (fun _ h => h) fun r w h => by
    rcases r with e | e | a
    all_goals exact h

theorem keeps_ofExcept (r : Result α) : Keeps p ids (Fallible.ofExcept r : Io Watched α) :=
  Triple.ofExcept stable_keeps (fun _ h => h.1) fun w h => by
    rcases r with e | a
    all_goals exact h

theorem keeps_pure (a : α) : Keeps p ids (pure a : Io Watched α) := keeps_ofExcept (.ok a)

theorem keeps_fail (e : Error) : Keeps p ids (Fallible.fail e : Io Watched α) := keeps_ofExcept (.error e)

theorem keeps_forM {l : List α} {f : α → Io Watched Unit} (hf : ∀ a, Keeps p ids (f a)) : Keeps p ids (l.forM f) := by
  induction l with
  | nil => exact keeps_pure ()
  | cons a l ih => exact (hf a).andThen fun _ => ih

/-- A call, where it may be relied on that everything owed is kept. -/
theorem triple_call {P : Watched → Prop} {Q : α → Watched → Prop} {op : Files → Files.Outcome α}
    (hp : ¬ recovery <+: p) (hpre : Stable (keeping p) P) (hsafe : ∀ w, P w → Safe p w ∧ Free ids w)
    (hpost : ∀ a, Stable (keeping p) (Q a))
    (h : ∀ w, P w → Harmless p w { w with files := (op w.files).2 } ∧
      Free ids { w with files := (op w.files).2 } ∧
      ∀ a, (op w.files).1 = .ok a → Q a { w with files := (op w.files).2 }) :
    Triple (keeping p) P (call op) (outcome (fun a w => (Safe p w ∧ Free ids w) ∧ Q a w)
      fun _ w => Safe p w ∧ Free ids w) := by
  refine Triple.act hpre (fun w hw => (hsafe w hw).1) (fun r => ?_) (fun r w hw => ?_) fun w hw => ?_
  · rcases r with e | a
    · exact stable_keeps
    · exact stable_keeps.and (hpost a)
  · rcases r with e | a
    · exact hw.1
    · exact hw.1.1
  · obtain ⟨hh, hf, ha⟩ := h w hw
    refine ⟨hh, ?_⟩
    have hs := hh.safe hp (hsafe w hw).1
    change outcome _ _ ((op w.files).1.mapError Error.io) { w with files := (op w.files).2 }
    rcases hr : (op w.files).1 with e | a
    · exact ⟨hs, hf⟩
    · exact ⟨⟨hs, hf⟩, ha a hr⟩

theorem keeps_call {op : Files → Files.Outcome α} (hp : ¬ recovery <+: p)
    (h : ∀ w, Safe p w → Free ids w → Harmless p w { w with files := (op w.files).2 } ∧
      Free ids { w with files := (op w.files).2 }) : Keeps p ids (call op) :=
  (triple_call (Q := fun _ _ => True) hp stable_keeps (fun _ hw => hw) (fun _ _ _ _ _ => trivial)
    fun w hw => ⟨(h w hw.1 hw.2).1, (h w hw.1 hw.2).2, fun _ _ => trivial⟩).conseq (fun _ h => h) fun r w h => by
      rcases r with e | a
      · exact h
      · exact h.1

/-- A call that only looks. -/
theorem keeps_look {op : Files → Files.Outcome α} (hp : ¬ recovery <+: p) (h : ∀ fs, (op fs).2 = fs) :
    Keeps p ids (call op) := by
  refine keeps_call hp fun w _ hf => ?_
  rw [h]
  exact ⟨.refl, hf⟩

/-- A call that makes a name. -/
theorem keeps_adds {op : Files → Files.Outcome α} {q : FilePath} (hp : ¬ recovery <+: p)
    (h : ∀ fs, Files.Adds q fs (op fs).2) (hq : ∀ id ∈ ids, q ≠ Root.previous id) : Keeps p ids (call op) :=
  keeps_call hp fun w hs hf => ⟨harmless_adds hs (h w.files), free_adds (h w.files) hq hf⟩

/-- A call that removes one of the program's own names. -/
theorem keeps_removeFile {q : FilePath} (hp : ¬ recovery <+: p) (hq : recovery <+: q)
    (hne : ∀ id, q ≠ Root.previous id) : Keeps p ids (call (Files.removeFile q)) :=
  keeps_call hp fun _ _ hf => ⟨harmless_removeFile hq hne, fun id hid => by
    rw [← hf id hid]
    exact Files.removeFile_ne (hne id).symm⟩

theorem keeps_removeDir (hp : ¬ recovery <+: p) : Keeps p ∅ (call (Files.removeDir p)) :=
  keeps_call hp fun _ _ _ => ⟨harmless_removeDir hp, fun _ h => h.elim⟩

theorem keeps_sync (hp : ¬ recovery <+: p) (d : FilePath) : Keeps p ids (sync d) := keeps_look hp fun _ => rfl

theorem keeps_syncParent (hp : ¬ recovery <+: p) (d : FilePath) : Keeps p ids (syncParent d) := keeps_sync hp _

/-- Writing to a file of one's own. -/
theorem triple_writeAll (hp : ¬ recovery <+: p) (file : ℕ) (bytes : Bytes) :
    Triple (keeping p) (fun w => (Safe p w ∧ Free ids w) ∧ Own file w) (writeAll file bytes)
      (outcome (fun _ w => (Safe p w ∧ Free ids w) ∧ Own file w) fun _ w => Safe p w ∧ Free ids w) := by
  have hst : Stable (keeping p) fun w => (Safe p w ∧ Free ids w) ∧ Own file w := stable_keeps.and stable_own
  induction bytes with
  | nil => exact Triple.ofExcept hst (fun _ h => h.1.1) fun _ h => h
  | cons b bytes ih =>
    refine Triple.andThen (?_ : Triple _ _ (call (Files.append file b)) _) fun _ => ih
    exact triple_call hp hst (fun _ h => h.1) (fun _ => stable_own) fun w h =>
      ⟨harmless_append h.2, h.1.2, fun _ _ => h.2⟩

/-- A new file among the program's own names. -/
theorem triple_createNew (hp : ¬ recovery <+: p) {q : FilePath} (hq : recovery <+: q)
    (hne : ∀ id ∈ ids, q ≠ Root.previous id) :
    Triple (keeping p) (fun w => Safe p w ∧ Free ids w) (call (Files.createNew q))
      (outcome (fun i w => (Safe p w ∧ Free ids w) ∧ Own i w) fun _ w => Safe p w ∧ Free ids w) := by
  refine triple_call hp stable_keeps (fun _ h => h) (fun _ => stable_own) fun w h => ?_
  refine ⟨harmless_adds h.1 Files.adds_createNew, free_adds Files.adds_createNew hne h.2, fun i hi => ?_⟩
  have hnew : i = w.files.fresh ∧ (w.files.createNew q).2.node q = some (.file i) := Files.createNew_ok hi
  exact ⟨fun ho => (h.1.lt_fresh ho).ne hnew.1, q, hq, hnew.2⟩

/-- Programs that only look keep the terms. -/
theorem keeps_of_looks {V : α → Prop} {x : Io Watched α} (h : Tries Looks V x) : Keeps p ids x :=
  (h.triple stable_keeps (fun _ h => h.1) fun w w' hw hl => by
    obtain rfl : w' = w := hl
    exact ⟨.refl, hw⟩).conseq (fun _ h => h) fun r w h => by
      rcases r with e | a
      · exact h
      · exact h.1

theorem keeps_readContent (P : Platform) (path : FilePath) : Keeps p ids (readContent P path) :=
  keeps_of_looks (looks_readContent P path)

theorem keeps_content (P : Platform) (path : String) : Keeps p ids (Root.content P path) := keeps_of_looks (looks_content P path)

/-! ### The functions of the folder -/

section functions

variable (P : Platform) (hp : ¬ recovery <+: p)
include hp

theorem keeps_ensureParents (path : FilePath) : Keeps p ∅ (Root.ensureParents path) :=
  ((tries_ensureParents path).triple stable_keeps (fun _ h => h.1) fun w w' hw => by
    rintro ⟨q, fs, -, hadds, -, rfl⟩
    have hh := harmless_adds hw.1 hadds
    exact ⟨hh, hh.safe hp hw.1, fun _ h => h.elim⟩).conseq (fun _ h => h) fun r w h => by
      rcases r with e | a
      · exact h
      · exact h.1

theorem keeps_finishRecord (id : String) : Keeps p ∅ (Root.finishRecord id) := by
  refine (keeps_adds hp (fun _ => Files.adds_createNew) fun _ h => h.elim).andThen fun _ => ?_
  refine (keeps_look hp fun _ => rfl).attempt.andThen fun r => ?_
  split
  · exact (keeps_removeFile hp ⟨[id, "incoming"], rfl⟩ (by simp [Root.previous, Root.transaction])).andThen
      fun _ => keeps_sync hp _
  · exact (keeps_pure _).andThen fun _ => keeps_sync hp _

theorem keeps_openRecovery : Keeps p ∅ Root.openRecovery := by
  refine (keeps_adds hp (fun _ => Files.adds_createDir) fun _ h => h.elim).attempt.andThen fun r => ?_
  have hrest : Keeps p ∅ (do
      let kind ← call (Files.metadata recovery)
      ensure (kind = .dir) "unsafe recovery directory"
      sync recovery : Io Watched Unit) :=
    (keeps_look hp fun _ => rfl).andThen fun _ => (keeps_ofExcept _).andThen fun _ => keeps_sync hp _
  split
  · exact (keeps_sync hp _).andThen fun _ => hrest
  · exact hrest
  · exact (keeps_fail _).andThen fun _ => hrest

/-- Writing a new file of one's own, and going on. -/
theorem keeps_newFile {q : FilePath} (hq : recovery <+: q) (hne : ∀ id ∈ ids, q ≠ Root.previous id) (bytes : Bytes)
    {rest : Io Watched α} (hrest : Keeps p ids rest) :
    Keeps p ids (do
      let file ← call (Files.createNew q)
      writeAll file bytes
      rest) :=
  Triple.andThen (triple_createNew hp hq hne) fun file => Triple.andThen (triple_writeAll hp file bytes) fun _ =>
    hrest.conseq (fun _ h => h.1) fun _ _ h => h

theorem keeps_stageIncoming (id hash : String) (object : Option (Result Bytes)) :
    Keeps p {id} (Root.stageIncoming P id hash (object.map Fallible.ofExcept)) := by
  have hne : ∀ x, x ≠ "previous" → ∀ i ∈ ({id} : Set String), Root.transaction id ++ [x] ≠ Root.previous i := by
    rintro x hx i rfl he
    exact hx (by simpa [Root.previous] using he)
  rcases object with _ | input
  · exact keeps_fail _
  · refine (keeps_ofExcept input).andThen fun bytes => ?_
    refine keeps_newFile hp ⟨[id, "incoming"], rfl⟩ (hne _ (by decide)) bytes ?_
    refine (keeps_readContent P _).andThen fun _ => (keeps_ofExcept _).andThen fun _ => ?_
    refine (keeps_adds hp (fun _ => Files.adds_link) (hne _ (by decide))).andThen fun _ => ?_
    exact keeps_removeFile hp ⟨[id, "link-probe"], rfl⟩ (by simp [Root.linkProbe, Root.previous, Root.transaction])

theorem keeps_writeRecord (id : String) (intent : Root.Intent) : Keeps p {id} (Root.writeRecord id intent) := by
  refine keeps_newFile hp ⟨[id, "record.json"], rfl⟩ ?_ _ ?_
  · rintro i rfl
    simp [Root.previous, Root.transaction]
  · exact (keeps_sync hp _).andThen fun _ => (keeps_sync hp _).andThen fun _ => keeps_sync hp _

/-- A link to a visible name, whether it can be made or not. -/
theorem keeps_tryLink (src dst : FilePath) :
    Keeps p ∅ (Fallible.attempt (call (Files.link src dst)) : Io Watched _) :=
  (keeps_adds hp (fun _ => Files.adds_link) fun _ h => h.elim).attempt

theorem keeps_publish (id path : String) (current : Option Content) (after : Content) :
    Keeps p ∅ (Root.publish P id path current after) := by
  have hfinal : Keeps p ∅ (do
      sync []
      Fallible.fail (.message "destination appeared during publication; data preserved") : Io Watched Unit) :=
    (keeps_sync hp _).andThen fun _ => keeps_fail _
  cases after with
  | file hash =>
    refine (keeps_tryLink hp _ _).andThen fun r => ?_
    split
    · exact keeps_pure _
    · split
      · exact ((keeps_tryLink hp _ _).andThen fun _ => keeps_pure _).andThen fun _ => hfinal
      · exact hfinal
  | directory => exact (keeps_content P _).andThen fun _ => keeps_ofExcept _
  | deleted => exact (keeps_content P _).andThen fun _ => keeps_ofExcept _

theorem keeps_settle (id : String) (intent : Root.Intent) : Keeps p ∅ (Root.settle P id intent) := by
  refine (keeps_ofExcept _).andThen fun _ => (keeps_content P _).andThen fun actual => ?_
  split
  · exact keeps_finishRecord hp id
  · split
    · refine (keeps_look hp fun _ => rfl).attempt.andThen fun r => ?_
      split
      · exact (keeps_adds hp (fun _ => Files.adds_link) fun _ h => h.elim).andThen fun _ =>
          (keeps_sync hp _).andThen fun _ => keeps_finishRecord hp id
      · exact keeps_fail _
    · exact keeps_fail _

theorem keeps_recoverOne (id : String) : Keeps p ∅ (Root.recoverOne P id) := by
  refine (keeps_of_looks (looks_inspect id)).andThen fun found => ?_
  split
  · exact keeps_pure _
  · exact keeps_settle P hp id _

/-- Recovering meets the contract. -/
theorem recover_keeps : Keeps p ∅ (Root.recover P) := by
  refine (keeps_look hp fun _ => rfl).attempt.andThen fun r => ?_
  split
  · exact keeps_pure _
  · exact keeps_fail _
  · refine (keeps_look hp fun _ => rfl).andThen fun items => keeps_forM fun item => ?_
    split
    · exact keeps_recoverOne P hp _
    · exact keeps_pure _

/-- Moving the path aside uses up the free name. -/
theorem triple_displace (hne : p ≠ []) (id path : String) (hpath : filePath path = p) (current : Option Content) :
    Triple (keeping p) (fun w => Safe p w ∧ Free {id} w) (Root.displace P id path current)
      (outcome (fun _ w => Safe p w ∧ Free ∅ w) fun _ w => Safe p w ∧ Free ∅ w) := by
  have hrename : Triple (keeping p) (fun w => Safe p w ∧ Free {id} w)
      (call (Files.rename (filePath path) (Root.previous id)))
      (outcome (fun _ w => Safe p w ∧ Free ∅ w) fun _ w => Safe p w ∧ Free ∅ w) := by
    rw [hpath]
    refine (@triple_call p ∅ _ _ (fun _ _ => True) _ hp stable_keeps (fun w h => ⟨h.1, fun _ h => h.elim⟩)
      (fun _ _ _ _ _ => trivial) fun w h => ⟨harmless_rename hp hne (h.2 id (Set.mem_singleton id)), fun _ h => h.elim,
        fun _ _ => trivial⟩).conseq (fun _ h => h) fun r w h => ?_
    rcases r with e | a
    · exact h
    · exact h.1
  refine Triple.andThen hrename fun _ => ?_
  refine (keeps_sync hp _).andThen fun _ => (keeps_syncParent hp _).andThen fun _ => ?_
  refine (keeps_readContent P _).andThen fun displaced => ?_
  split
  · exact (keeps_tryLink hp _ _).andThen fun _ => (keeps_sync hp _).andThen fun _ => keeps_fail _
  · exact keeps_pure _

/-- A new directory has no displaced file in it. -/
theorem triple_createTransaction (id : String) :
    Triple (keeping p) (fun w => Safe p w ∧ Free ∅ w) (call (Files.createDir (Root.transaction id)))
      (outcome (fun _ w => Safe p w ∧ Free {id} w) fun _ w => Safe p w ∧ Free ∅ w) := by
  refine (@triple_call p ∅ _ _ (fun _ => Free {id}) _ hp stable_keeps (fun _ h => h) (fun _ => stable_free)
    fun w h => ⟨harmless_adds h.1 Files.adds_createDir, fun _ h => h.elim, fun _ hok => ?_⟩).conseq
      (fun _ h => h) fun r w h => ?_
  · have hnone := Files.createDir_ok hok
    rintro i rfl
    refine ((Files.adds_createDir.1 _).resolve_right fun h => ?_).trans ?_
    · simp [Root.previous] at h
    · by_contra hn
      rw [w.files.parent (Root.transaction i) "previous" hn] at hnone
      cases hnone
  · rcases r with e | a
    · exact h
    · exact ⟨h.1.1, h.2⟩

theorem keeps_transact (hne : p ≠ []) (id path : String) (hpath : filePath path = p) (current : Option Content)
    (after : Content) (object : Option (Result Bytes)) :
    Keeps p ∅ (Root.transact P id path current after (object.map Fallible.ofExcept)) := by
  -- what is not free any more need not be kept free
  have hweak : ∀ {α : Type} {x : Io Watched α}, Keeps p {id} x → Triple (keeping p) (fun w => Safe p w ∧ Free {id} w) x
      (outcome (fun _ w => Safe p w ∧ Free {id} w) fun _ w => Safe p w ∧ Free ∅ w) := by
    refine fun h => h.conseq (fun _ h => h) fun r w h => ?_
    rcases r with e | a
    · exact ⟨h.1, fun _ h => h.elim⟩
    · exact h
  have hend : Keeps p ∅ (do
      Root.publish P id path current after
      syncParent (filePath path)
      Root.finishRecord id : Io Watched Unit) :=
    (keeps_publish P hp _ _ _ _).andThen fun _ => (keeps_syncParent hp _).andThen fun _ => keeps_finishRecord hp _
  have hmiddle : Triple (keeping p) (fun w => Safe p w ∧ Free {id} w) (do
      Root.writeRecord id ⟨path, current, after⟩
      if current.isSome then Root.displace P id path current else pure ()
      Root.publish P id path current after
      syncParent (filePath path)
      Root.finishRecord id : Io Watched Unit)
      (outcome (fun _ w => Safe p w ∧ Free ∅ w) fun _ w => Safe p w ∧ Free ∅ w) := by
    refine Triple.andThen (hweak (keeps_writeRecord hp _ _)) fun _ => ?_
    split
    · exact Triple.andThen (triple_displace P hp hne id path hpath current) fun _ => hend
    · exact hend.conseq (fun _ h => ⟨h.1, fun _ h => h.elim⟩) fun _ _ h => h
  refine (keeps_openRecovery hp).andThen fun _ => Triple.andThen (triple_createTransaction hp id) fun _ => ?_
  refine Triple.andThen (hweak (keeps_look hp fun _ => rfl)) fun _ => ?_
  cases after with
  | file hash => exact Triple.andThen (hweak (keeps_stageIncoming P hp _ _ _)) fun _ => hmiddle
  | directory => exact hmiddle
  | deleted => exact hmiddle

/-- Applying meets the contract. -/
theorem apply_keeps (hne : p ≠ []) (id path : String) (hpath : filePath path = p) (before : Option Content)
    (after : Content) (object : Option (Result Bytes)) :
    Keeps p ∅ (Root.apply P id path before after (object.map Fallible.ofExcept)) := by
  refine (keeps_ofExcept _).andThen fun _ => (keeps_content P _).andThen fun current => ?_
  split
  · exact keeps_pure _
  · refine (keeps_ofExcept _).andThen fun _ => (keeps_ensureParents hp _).andThen fun _ => ?_
    split
    · exact (keeps_ofExcept _).andThen fun _ =>
        (keeps_adds hp (fun _ => Files.adds_createDir) fun _ h => h.elim).andThen fun _ => keeps_syncParent hp _
    · split
      · rw [hpath]
        exact (keeps_ofExcept _).andThen fun _ => (keeps_removeDir hp).andThen fun _ => keeps_syncParent hp _
      · exact keeps_transact P hp hne id path hpath _ _ _

end functions

end programs

/-- **Applying never destroys.** Let others do what they want outside the directory of the records, and let
`apply`, and after it any number of recoveries, be stopped anywhere. At all times every file that stood at the
path when `apply` began, or that others have put there since, is still linked, at the path or as a displaced
file, unless others took it away; and the next step of the program does no harm: it writes to no such file,
gives no name outside to something else, and removes no directory that is not empty. -/
theorem apply_never_destroys (P : Platform) (id path : String) (before : Option Content) (after : Content)
    (object : Option (Result Bytes)) (hpath : validatePath path = .ok ()) (fs : Files) (q : Io Watched Unit)
    (w : Watched)
    (hrun : Prog.Life (External (filePath path)) (fun w => w) (fun _ r => r = Root.recover P)
      (Root.apply P id path before after (object.map Fallible.ofExcept))
      ⟨fs, {i | fs.node (filePath path) = some (.file i)}⟩ q w) :
    (∀ i ∈ w.owed, Kept (filePath path) w.files i) ∧
      ∀ (β : Type) (act : Watched → β × Watched) (next : β → Io Watched Unit), q = .step act next →
        Harmless (filePath path) w (act w).2 := by
  have hp := recovery_outside hpath
  have hstart : Safe (filePath path) ⟨fs, {i | fs.node (filePath path) = some (.file i)}⟩ := fun i hi => .inl hi
  have hmeets : Meets (keeping (filePath path)) q (fun _ _ => True) w := by
    refine Meets.life (C := keeping (filePath path)) (fun t r ht hr => ?_)
      ((apply_keeps P hp (filePath_ne_nil path) id path rfl before after object _
        ⟨hstart, fun _ h => h.elim⟩).mono fun _ _ _ => trivial) hrun
    rw [hr]
    exact (recover_keeps P hp t ⟨ht, fun _ h => h.elim⟩).mono fun _ _ _ => trivial
  refine ⟨hmeets.inv, ?_⟩
  rintro β act next rfl
  exact hmeets.guar

/-- A file is replaced and nobody interferes: the old one is kept. -/
theorem apply_never_destroys_replace :
    let fs := (Files.empty.setInode 0 ⟨[1, 2, 3], 0⟩).add ["a"] (.file 0)
    let run := Fallible.run (Root.apply .sample "id" "a" (some (.file "010203")) (.file "0405")
      ((some (.ok [4, 5]) : Option (Result Bytes)).map Fallible.ofExcept)) (⟨fs, {i | fs.node ["a"] = some (.file i)}⟩ : Watched)
    ∀ i ∈ run.2.owed, Kept ["a"] run.2.files i := by
  intro fs run
  exact (apply_never_destroys .sample "id" "a" (some (.file "010203")) (.file "0405") (some (.ok [4, 5]))
    (by decide +kernel) fs _ run.2 (.of_reaches (Prog.reaches_run _ _ _))).1

end Everywhere
