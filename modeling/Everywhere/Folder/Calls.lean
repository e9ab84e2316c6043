import Everywhere.Folder.Root

/-!
# Programs on the folder

The functions of `Root` are made of system calls on the folder, and of nothing else (`only_apply`, `only_recover`,
`only_visit`). So what may be said of every change of the files, whatever it is, may be said of each of their
steps, such as that it leaves alone what else is part of the state.
-/

namespace Everywhere

open Library

section

variable {σ : Type} [HasFiles σ] (P : Platform) {allowed : ∀ γ : Type, (σ → γ × σ) → Prop}
  (hcall : ∀ {α : Type} (op : Files → Files.Outcome α),
    allowed (Except Error α) fun s => ((op (HasFiles.files s)).1.mapError .io, HasFiles.setFiles (op (HasFiles.files s)).2 s))
include hcall

theorem only_call {α : Type} (op : Files → Files.Outcome α) : Only allowed (call op : Io σ α) := Only.act (hcall op)

theorem only_sync (dir : FilePath) : Only allowed (sync dir : Io σ Unit) := only_call hcall _

theorem only_syncParent (path : FilePath) : Only allowed (syncParent path : Io σ Unit) := only_sync hcall _

omit [HasFiles σ] hcall in
theorem only_pure {α : Type} (a : α) : Only allowed (pure a : Io σ α) := trivial

omit [HasFiles σ] hcall in
theorem only_lift {α : Type} (r : Result α) : Only allowed (Fallible.ofExcept r : Io σ α) := trivial

omit [HasFiles σ] hcall in
theorem only_fail {α : Type} (e : Error) : Only allowed (Fallible.fail e : Io σ α) := trivial

theorem only_readBlocks (file n offset remaining : ℕ) :
    Only allowed (readBlocks file n offset remaining : Io σ (List Bytes)) := by
  induction n generalizing offset remaining with
  | zero => trivial
  | succ n ih => exact (only_call hcall _).andThen fun _ => (ih _ _).andThen fun _ => only_pure _

theorem only_fromFile (file : ℕ) : Only allowed (Manifest.fromFile P file : Io σ Manifest) :=
  (only_call hcall _).andThen fun _ => (only_lift _).andThen fun _ => (only_readBlocks hcall _ _ _ _).andThen fun _ =>
    (only_call hcall _).andThen fun _ => (only_lift _).andThen fun _ => only_pure _

theorem only_readContent (path : FilePath) : Only allowed (readContent P path : Io σ (Option Content)) := by
  refine (only_call hcall _).attempt.andThen fun r => ?_
  split
  · exact only_pure _
  · exact only_fail _
  · exact only_fail _
  · exact only_pure _
  · exact only_fail _
  · exact (only_call hcall _).andThen fun _ => (only_fromFile P hcall _).andThen fun _ => only_pure _

theorem only_content (path : String) : Only allowed (Root.content P path : Io σ (Option Content)) :=
  (only_lift _).andThen fun _ => only_readContent P hcall _

theorem only_inspect (id : String) : Only allowed (Root.inspect id : Io σ (Option Root.Intent)) := by
  refine (only_call hcall _).andThen fun _ => (only_call hcall _).attempt.andThen fun r => ?_
  split
  · exact only_pure _
  · refine (only_call hcall _).attempt.andThen fun r => ?_
    split
    · exact only_pure _
    · exact only_fail _
    · refine (only_lift _).andThen fun _ => (only_lift _).andThen fun value => ?_
      split
      · exact only_pure _
      · split
        · exact only_fail _
        · exact only_pure _

theorem only_file (path : String) : Only allowed (Root.file path : Io σ ℕ) :=
  (only_lift _).andThen fun _ => (only_call hcall _).andThen fun _ => (only_lift _).andThen fun _ =>
    only_call hcall _

theorem only_writeAll (file : ℕ) (bytes : Bytes) : Only allowed (writeAll file bytes : Io σ Unit) :=
  Only.forM fun _ _ => only_call hcall _

theorem only_finishRecord (id : String) : Only allowed (Root.finishRecord id : Io σ Unit) := by
  refine (only_call hcall _).andThen fun _ => (only_call hcall _).attempt.andThen fun r => ?_
  split
  · exact (only_call hcall _).andThen fun _ => only_call hcall _
  · exact only_call hcall _

theorem only_openRecovery : Only allowed (Root.openRecovery : Io σ Unit) := by
  have hrest : Only allowed (do
      let kind ← call (Files.metadata recovery)
      ensure (kind = .dir) "unsafe recovery directory"
      sync recovery : Io σ Unit) :=
    (only_call hcall _).andThen fun _ => (only_lift _).andThen fun _ => only_call hcall _
  refine (only_call hcall _).attempt.andThen fun r => ?_
  split
  · exact (only_call hcall _).andThen fun _ => hrest
  · exact hrest
  · exact (only_fail _).andThen fun _ => hrest

theorem only_stageIncoming (id hash : String) {object : Option (Io σ Bytes)}
    (hobject : ∀ input ∈ object, Only allowed input) :
    Only allowed (Root.stageIncoming P id hash object) := by
  cases object with
  | none => exact only_fail _
  | some input =>
    refine (hobject input rfl).andThen fun bytes => (only_call hcall _).andThen fun file => ?_
    refine (only_writeAll hcall file bytes).andThen fun _ => (only_readContent P hcall _).andThen
      fun _ => (only_lift _).andThen fun _ => ?_
    exact (only_call hcall _).andThen fun _ => only_call hcall _

theorem only_writeRecord (id : String) (intent : Root.Intent) :
    Only allowed (Root.writeRecord id intent : Io σ Unit) :=
  (only_call hcall _).andThen fun _ => (only_writeAll hcall _ _).andThen fun _ =>
    (only_call hcall _).andThen fun _ => (only_call hcall _).andThen fun _ => only_call hcall _

theorem only_displace (id path : String) (current : Option Content) :
    Only allowed (Root.displace P id path current : Io σ Unit) := by
  refine (only_call hcall _).andThen fun _ => (only_sync hcall _).andThen fun _ =>
    (only_syncParent hcall _).andThen fun _ => (only_readContent P hcall _).andThen fun _ => ?_
  split
  · exact (only_call hcall _).attempt.andThen fun _ => (only_call hcall _).andThen fun _ => only_fail _
  · exact only_pure _

theorem only_publish (id path : String) (current : Option Content) (after : Content) :
    Only allowed (Root.publish P id path current after : Io σ Unit) := by
  have hfinal : Only allowed (do
      sync []
      Fallible.fail (.message "destination appeared during publication; data preserved") : Io σ Unit) :=
    (only_call hcall _).andThen fun _ => only_fail _
  cases after with
  | file hash =>
    refine (only_call hcall _).attempt.andThen fun r => ?_
    split
    · exact only_pure _
    · split
      · exact (only_call hcall _).attempt.andThen fun _ => hfinal
      · exact hfinal
  | directory | deleted => exact (only_content P hcall _).andThen fun _ => only_lift _

theorem only_transact (id path : String) (current : Option Content) (after : Content) {object : Option (Io σ Bytes)}
    (hobject : ∀ input ∈ object, Only allowed input) :
    Only allowed (Root.transact P id path current after object) := by
  have hend : Only allowed (do
      Root.publish P id path current after
      syncParent (filePath path)
      Root.finishRecord id : Io σ Unit) :=
    (only_publish P hcall _ _ _ _).andThen fun _ => (only_syncParent hcall _).andThen fun _ =>
      only_finishRecord hcall _
  have hmiddle : Only allowed (do
      Root.writeRecord id ⟨path, current, after⟩
      if current.isSome then Root.displace P id path current else pure ()
      Root.publish P id path current after
      syncParent (filePath path)
      Root.finishRecord id : Io σ Unit) := by
    refine (only_writeRecord hcall _ _).andThen fun _ => ?_
    split
    · exact (only_displace P hcall _ _ _).andThen fun _ => hend
    · exact hend
  refine (only_openRecovery hcall).andThen fun _ => (only_call hcall _).andThen fun _ =>
    (only_call hcall _).andThen fun _ => ?_
  cases after with
  | file hash => exact (only_stageIncoming P hcall _ _ hobject).andThen fun _ => hmiddle
  | directory | deleted => exact hmiddle

theorem only_parents (path : FilePath) : Only allowed (Root.ensureParents path : Io σ Unit) := by
  refine Only.forM fun current _ => ?_
  have hrest : Only allowed (do
      let kind ← call (Files.metadata current)
      ensure (kind = .dir) "unsafe parent directory" : Io σ Unit) :=
    (only_call hcall _).andThen fun _ => only_lift _
  refine (only_call hcall _).attempt.andThen fun r => ?_
  split
  · exact (only_syncParent hcall _).andThen fun _ => hrest
  · exact hrest
  · exact (only_fail _).andThen fun _ => hrest

/-- Applying is made of calls on the folder. -/
theorem only_apply (id path : String) (before : Option Content) (after : Content) {object : Option (Io σ Bytes)}
    (hobject : ∀ input ∈ object, Only allowed input) :
    Only allowed (Root.apply P id path before after object) := by
  refine (only_lift _).andThen fun _ => (only_content P hcall _).andThen fun current => ?_
  split
  · exact only_pure _
  · refine (only_lift _).andThen fun _ => (only_parents hcall _).andThen fun _ => ?_
    split
    · exact (only_lift _).andThen fun _ => (only_call hcall _).andThen fun _ => only_syncParent hcall _
    · split
      · exact (only_lift _).andThen fun _ => (only_call hcall _).andThen fun _ => only_syncParent hcall _
      · exact only_transact P hcall _ _ _ _ hobject

theorem only_settle (id : String) (intent : Root.Intent) :
    Only allowed (Root.settle P id intent : Io σ Unit) := by
  refine (only_lift _).andThen fun _ => (only_content P hcall _).andThen fun actual => ?_
  split
  · exact only_finishRecord hcall _
  · split
    · refine (only_call hcall _).attempt.andThen fun r => ?_
      split
      · exact (only_call hcall _).andThen fun _ => (only_call hcall _).andThen fun _ =>
          only_finishRecord hcall _
      · exact only_fail _
    · exact only_fail _

/-- Recovering is made of calls on the folder. -/
theorem only_recover : Only allowed (Root.recover P : Io σ Unit) := by
  refine (only_call hcall _).attempt.andThen fun r => ?_
  split
  · exact only_pure _
  · exact only_fail _
  · refine (only_call hcall _).andThen fun items => Only.forM fun item _ => ?_
    split
    · refine (only_inspect hcall _).andThen fun found => ?_
      split
      · exact only_pure _
      · exact only_settle P hcall _ _
    · exact only_pure _

theorem only_walk {visit : String → Bool → Io σ Unit}
    (hvisit : ∀ path isDir, Only allowed (visit path isDir)) (depth : ℕ) (relative : FilePath) :
    Only allowed (Root.walk visit depth relative) := by
  induction depth generalizing relative with
  | zero => exact only_pure _
  | succ depth ih =>
    refine (only_call hcall _).andThen fun items => Only.forM fun item _ => ?_
    split
    · exact only_pure _
    · refine (only_lift _).andThen fun _ => (only_lift _).andThen fun _ => (only_lift _).andThen fun _ =>
        (hvisit _ _).andThen fun _ => ?_
      split
      · exact ih _
      · exact only_pure _

/-- Visiting is made of calls on the folder and what is done at each path. -/
theorem only_visit {visit : String → Bool → Io σ Unit}
    (hvisit : ∀ path isDir, Only allowed (visit path isDir)) :
    Only allowed (Root.visit visit) :=
  only_walk hcall hvisit _ _

end

section

variable {σ : Type} [HasFiles σ] (P : Platform) {step : σ → σ → Prop}
  (hfiles : ∀ s fs, step s (HasFiles.setFiles fs s))
include hfiles

theorem tries_call {α : Type} (op : Files → Files.Outcome α) : Tries step (fun _ => True) (call op : Io σ α) :=
  Tries.act fun s => hfiles s _

/-- What a path holds is no deletion. -/
theorem tries_content (path : String) : Tries step (Hashed P) (Root.content P path : Io σ (Option Content)) :=
  Does.weaken (looks_content P path) fun s s' hs => by
    obtain rfl : s' = s := hs
    simpa using hfiles s' (HasFiles.files s')

theorem tries_walk {visit : String → Bool → Io σ Unit}
    (hvisit : ∀ path isDir, Tries step (fun _ => True) (visit path isDir)) (depth : ℕ) (relative : FilePath) :
    Tries step (fun _ => True) (Root.walk visit depth relative) := by
  have hlift : ∀ {α : Type} (r : Result α), Tries step (fun _ => True) (Fallible.ofExcept r : Io σ α) :=
    fun _ => Tries.ofExcept fun _ _ => trivial
  induction depth generalizing relative with
  | zero => exact hlift _
  | succ depth ih =>
    refine (tries_call hfiles _).andThen fun items _ => Tries.forM fun item _ => ?_
    split
    · exact hlift _
    · refine (hlift _).andThen fun _ _ => (hlift _).andThen fun _ _ => (hlift _).andThen fun _ _ =>
        (hvisit _ _).andThen fun _ _ => ?_
      split
      · exact ih _
      · exact hlift _

/-- What is done at each path may depend on what was found there. -/
theorem tries_visit {visit : String → Bool → Io σ Unit}
    (hvisit : ∀ path isDir, Tries step (fun _ => True) (visit path isDir)) :
    Tries step (fun _ => True) (Root.visit visit) :=
  tries_walk hfiles hvisit _ _

end
/-! ### The folder as a part of a state -/

section

variable {σ : Type} [HasFiles σ] (P : Platform) {α β : Type}

/-- A program does to the folder in a larger state what one does to a folder alone. -/
def Lifts (x : Io σ α) (y : Io Files α) : Prop :=
  ∀ s, Fallible.run x s = ((Fallible.run y (HasFiles.files s)).1, HasFiles.setFiles (Fallible.run y (HasFiles.files s)).2 s)

theorem lifts_call (op : Files → Files.Outcome α) : Lifts (call op : Io σ α) (call op) := fun _ => rfl

theorem lifts_lift (r : Result α) : Lifts (Fallible.ofExcept r : Io σ α) (Fallible.ofExcept r) := fun s =>
  Prod.ext rfl (HasFiles.setFiles_files s).symm

theorem lifts_pure (a : α) : Lifts (pure a : Io σ α) (pure a) := lifts_lift (.ok a)

theorem lifts_fail (e : Error) : Lifts (Fallible.fail e : Io σ α) (Fallible.fail e) := lifts_lift (.error e)

theorem Lifts.andThen {x : Io σ α} {y : Io Files α} {f : α → Io σ β} {g : α → Io Files β} (h : Lifts x y)
    (hf : ∀ a, Lifts (f a) (g a)) : Lifts (x >>= f) (y >>= g) := by
  intro s
  rw [Fallible.run_bind, Fallible.run_bind, h s]
  rcases Fallible.run y (HasFiles.files s) with ⟨e | a, fs⟩
  · rfl
  · change Fallible.run (f a) (HasFiles.setFiles fs s) = _
    rw [hf a, HasFiles.files_setFiles, HasFiles.setFiles_setFiles]

theorem Lifts.attempt {x : Io σ α} {y : Io Files α} (h : Lifts x y) :
    Lifts (Fallible.attempt x) (Fallible.attempt y) := by
  intro s
  rw [Fallible.run_attempt, Fallible.run_attempt, h s]

theorem Lifts.forM {l : List β} {f : β → Io σ Unit} {g : β → Io Files Unit} (h : ∀ b ∈ l, Lifts (f b) (g b)) :
    Lifts (l.forM f) (l.forM g) := by
  induction l with
  | nil => exact lifts_pure ()
  | cons b l ih => exact (h b List.mem_cons_self).andThen fun _ => ih fun b hb => h b (List.mem_cons_of_mem _ hb)

theorem lifts_readBlocks (file n offset remaining : ℕ) :
    Lifts (readBlocks file n offset remaining : Io σ (List Bytes)) (readBlocks file n offset remaining) := by
  induction n generalizing offset remaining with
  | zero => exact lifts_pure []
  | succ n ih => exact (lifts_call _).andThen fun _ => (ih _ _).andThen fun _ => lifts_pure _

theorem lifts_fromFile (file : ℕ) : Lifts (Manifest.fromFile P file : Io σ Manifest) (Manifest.fromFile P file) :=
  (lifts_call _).andThen fun _ => (lifts_lift _).andThen fun _ => (lifts_readBlocks _ _ _ _).andThen fun _ =>
    (lifts_call _).andThen fun _ => (lifts_lift _).andThen fun _ => lifts_pure _

theorem lifts_readContent (path : FilePath) :
    Lifts (readContent P path : Io σ (Option Content)) (readContent P path) := by
  refine (lifts_call _).attempt.andThen fun r => ?_
  split
  · exact lifts_pure _
  · exact lifts_fail _
  · exact lifts_fail _
  · exact lifts_pure _
  · exact lifts_fail _
  · exact (lifts_call _).andThen fun _ => (lifts_fromFile P _).andThen fun _ => lifts_pure _

theorem lifts_finishRecord (id : String) : Lifts (Root.finishRecord id : Io σ Unit) (Root.finishRecord id) := by
  refine (lifts_call _).andThen fun _ => (lifts_call _).attempt.andThen fun r => ?_
  split
  · exact (lifts_call _).andThen fun _ => lifts_call _
  · exact lifts_call _

theorem lifts_inspect (id : String) : Lifts (Root.inspect id : Io σ (Option Root.Intent)) (Root.inspect id) := by
  refine (lifts_call _).andThen fun _ => (lifts_call _).attempt.andThen fun r => ?_
  split
  · exact lifts_pure _
  · refine (lifts_call _).attempt.andThen fun r => ?_
    split
    · exact lifts_pure _
    · exact lifts_fail _
    · refine (lifts_lift _).andThen fun _ => (lifts_lift _).andThen fun value => ?_
      split_ifs
      · exact lifts_pure _
      · split
        · exact lifts_fail _
        · exact lifts_pure _

theorem lifts_settle (id : String) (intent : Root.Intent) :
    Lifts (Root.settle P id intent : Io σ Unit) (Root.settle P id intent) := by
  refine (lifts_lift _).andThen fun _ => ((lifts_lift _).andThen fun _ => lifts_readContent P _).andThen fun actual => ?_
  split_ifs
  · exact lifts_finishRecord _
  · refine (lifts_call _).attempt.andThen fun r => ?_
    split
    · exact (lifts_call _).andThen fun _ => (lifts_call _).andThen fun _ => lifts_finishRecord _
    · exact lifts_fail _
  · exact lifts_fail _

/-- Recovering the folder of a larger state is recovering the folder. -/
theorem lifts_recover : Lifts (Root.recover P : Io σ Unit) (Root.recover P) := by
  refine (lifts_call _).attempt.andThen fun r => ?_
  split
  · exact lifts_pure _
  · exact lifts_fail _
  · refine (lifts_call _).andThen fun items => Lifts.forM fun item _ => ?_
    split_ifs
    · refine (lifts_inspect _).andThen fun found => ?_
      split
      · exact lifts_pure _
      · exact lifts_settle P _ _
    · exact lifts_pure _

end

end Everywhere
