import Everywhere.Folder.Root

/-!
# What is left alone

`apply` and `recover` change names in the folder. Whatever others do at the same time, and wherever the
program is stopped, they change no other names than these, and the bytes of no other file:

* `apply_confined` — **applying touches its path only**: the path and what is below it, the directory of its
  transaction, and missing directories on the way to them, which are made.
* `recover_confined` — **recovering takes staging names away and nothing else**: what stands anywhere else
  stays, and names are added only as marks of finished transactions and at paths that pass the check.

Both are about folders in which no symbolic link gets onto the way to the paths that the program uses, for a link that leads
to another directory of the folder would be followed.
-/

namespace Everywhere

open Library

/-! ### What stands at a name -/

/-- The same stands at a name: nothing, the same directory, or the same file with the same bytes. -/
def Same (n : FilePath) (fs fs' : Files) : Prop :=
  fs'.node n = fs.node n ∧ ∀ i, fs.node n = some (.file i) → fs'.inode i = fs.inode i

/-- The same stands at a name, or it is a directory that was missing on the way to a path or to the records,
and was made. -/
def Spared (path n : FilePath) (fs fs' : Files) : Prop :=
  Same n fs fs' ∨ (n <+: path ∨ n = recovery) ∧ fs.node n = none ∧ fs'.node n = some .dir

/-- The same stands at a name, or nothing stood there and it is the mark of a transaction or a path that passes
the check. -/
def Resumed (n : FilePath) (fs fs' : Files) : Prop :=
  Same n fs fs' ∨
    fs.node n = none ∧ ((∃ id, n = Root.done id) ∨ ∃ path, validatePath path = .ok () ∧ n = filePath path)

section

variable {path n p src dst : FilePath} {fs fs' fs'' : Files}

theorem Same.refl : Same n fs fs := ⟨rfl, fun _ _ => rfl⟩

theorem Same.trans (h : Same n fs fs') (h' : Same n fs' fs'') : Same n fs fs'' :=
  ⟨h'.1.trans h.1, fun i hi => (h'.2 i (h.1.trans hi)).trans (h.2 i hi)⟩

theorem Spared.trans (h : Spared path n fs fs') (h' : Spared path n fs' fs'') : Spared path n fs fs'' := by
  rcases h with h | ⟨hn, hnone, hdir⟩
  · rcases h' with h' | ⟨hn, hnone, hdir⟩
    · exact .inl (h.trans h')
    · exact .inr ⟨hn, h.1.symm.trans hnone, hdir⟩
  · rcases h' with h' | ⟨-, hnone', -⟩
    · exact .inr ⟨hn, hnone, h'.1.trans hdir⟩
    · rw [hdir] at hnone'
      cases hnone'

theorem Resumed.trans (h : Resumed n fs fs') (h' : Resumed n fs' fs'') : Resumed n fs fs'' := by
  rcases h with h | h
  · rcases h' with h' | ⟨hnone, hn⟩
    · exact .inl (h.trans h')
    · exact .inr ⟨h.1.symm.trans hnone, hn⟩
  · exact .inr h

/-- A name that is added: every other one is as it was. -/
theorem same_or_of_adds (n : FilePath) (h : Files.Adds p fs fs') : Same n fs fs' ∨ n = p ∧ fs.node n = none :=
  (h.1 n).imp_left fun heq => ⟨heq, fun i hi => h.2 i (fs.lt_fresh n i hi)⟩

/-- A directory that is made on the way to the path or to the records. -/
theorem spared_of_dir (hp : p <+: path ∨ p = recovery) (h : Files.Adds p fs fs')
    (hdir : fs'.node p = fs.node p ∨ fs'.node p = some .dir) : Spared path n fs fs' := by
  rcases same_or_of_adds n h with hsame | ⟨rfl, hnone⟩
  · exact .inl hsame
  · rcases hdir with heq | hdir
    · exact .inl ⟨heq, fun i hi => h.2 i (fs.lt_fresh n i hi)⟩
    · exact .inr ⟨hp, hnone, hdir⟩

theorem same_removeFile (hn : n ≠ p) : Same n fs (fs.removeFile p).2 :=
  ⟨Files.removeFile_ne hn, fun i _ => by rw [Files.inode_removeFile]⟩

theorem same_removeDir (hn : n ≠ p) : Same n fs (fs.removeDir p).2 :=
  ⟨Files.node_removeDir.resolve_right fun h => hn h.1, fun i _ => by rw [Files.inode_removeDir]⟩

/-- Moving changes names at and below the two ends only. -/
theorem same_rename (hsrc : ¬ src <+: n) (hdst : ¬ dst <+: n) : Same n fs (fs.rename src dst).2 := by
  rcases Files.rename_cases src dst fs with heq | ⟨heq, -, -⟩
  · rw [heq]
    exact .refl
  · rw [heq]
    refine ⟨?_, fun i _ => by rw [Files.inode_move]⟩
    rw [Files.move]
    split_ifs with h
    · simp only [if_neg hsrc, if_neg hdst]
    · rfl

end

section

variable {σ : Type} [HasFiles σ] (P : Platform) {s s' : σ}

/-- A change at a path, below it, or in a transaction; a directory that was missing on the way to the path or to
the records may be new. -/
def Confined (path : FilePath) (id : String) (s s' : σ) : Prop :=
  ∀ n, ¬ path <+: n → ¬ Root.transaction id <+: n → Spared path n (HasFiles.files s) (HasFiles.files s')

variable {path : FilePath} {id : String}

theorem confined_of_looks (h : Looks s s') : Confined path id s s' := fun n _ _ => .inl (by rw [h]; exact .refl)

theorem confined_of_makesParent (h : MakesParent path s s') : Confined path id s s' := by
  obtain ⟨p, fs, ⟨hp, -, -⟩, hadds, hdir, rfl⟩ := h
  intro n _ _
  rw [HasFiles.files_setFiles]
  exact spared_of_dir (.inl hp) hadds hdir

/-- A name that is added at the path or in the transaction. -/
theorem confined_of_adds {p : FilePath} {fs : Files} (hp : path <+: p ∨ Root.transaction id <+: p)
    (h : Files.Adds p (HasFiles.files s) fs) : Confined path id s (HasFiles.setFiles fs s) := by
  intro n hn hn'
  rw [HasFiles.files_setFiles]
  refine .inl ((same_or_of_adds n h).resolve_right ?_)
  rintro ⟨rfl, -⟩
  exact hp.elim hn hn'

theorem transaction_within (id : String) (l : FilePath) : Root.transaction id <+: Root.transaction id ++ l :=
  List.prefix_append _ _

/-! ### Applying -/

/-- Every step of the program is confined. -/
abbrev Touches {α : Type} (path : FilePath) (id : String) (x : Io σ α) : Prop :=
  Tries (Confined path id) (fun _ => True) x

section steps

variable (path : FilePath) (id : String)

theorem touches_call {α : Type} {op : Files → Files.Outcome α}
    (h : ∀ s : σ, Confined path id s (HasFiles.setFiles (op (HasFiles.files s)).2 s)) :
    Touches path id (call op : Io σ α) := Tries.act h

theorem touches_looks {α : Type} {V : α → Prop} {x : Io σ α} (h : Tries Looks V x) : Touches path id x :=
  Does.mono (Does.weaken h fun _ _ => confined_of_looks) fun _ _ _ _ => trivial

theorem touches_look {α : Type} {op : Files → Files.Outcome α} (h : ∀ fs, (op fs).2 = fs) :
    Touches path id (call op : Io σ α) := touches_looks path id (looks_call h)

theorem touches_sync (dir : FilePath) : Touches path id (sync dir : Io σ Unit) := touches_look path id fun _ => rfl

theorem touches_lift {α : Type} (r : Result α) : Touches path id (Fallible.ofExcept r : Io σ α) :=
  Tries.ofExcept fun _ _ => trivial

theorem touches_pure {α : Type} (a : α) : Touches path id (pure a : Io σ α) := touches_lift path id _

theorem touches_fail {α : Type} (e : Error) : Touches path id (Fallible.fail e : Io σ α) := touches_lift path id _

theorem touches_adds {α : Type} {op : Files → Files.Outcome α} {p : FilePath}
    (hp : path <+: p ∨ Root.transaction id <+: p) (h : ∀ fs, Files.Adds p fs (op fs).2) :
    Touches path id (call op : Io σ α) :=
  touches_call path id fun _ => confined_of_adds hp (h _)

theorem touches_removeFile (l : FilePath) :
    Touches path id (call (Files.removeFile (Root.transaction id ++ l)) : Io σ Unit) := by
  refine touches_call path id fun s n _ hn => .inl ?_
  rw [HasFiles.files_setFiles]
  refine same_removeFile ?_
  rintro rfl
  exact hn (transaction_within id l)

theorem touches_finishRecord : Touches path id (Root.finishRecord id : Io σ Unit) := by
  refine (touches_adds path id (.inr (transaction_within id _)) fun _ => Files.adds_createNew).andThen fun _ _ => ?_
  refine (touches_look path id fun _ => rfl).attempt.andThen fun r _ => ?_
  split
  · exact (touches_removeFile path id _).andThen fun _ _ => touches_sync path id _
  · exact touches_sync path id _

theorem touches_openRecovery : Touches path id (Root.openRecovery : Io σ Unit) := by
  have hrest : Touches path id (do
      let kind ← call (Files.metadata recovery)
      ensure (kind = .dir) "unsafe recovery directory"
      sync recovery : Io σ Unit) :=
    (touches_look path id fun _ => rfl).andThen fun _ _ => (touches_lift path id _).andThen fun _ _ => touches_sync path id _
  have hcreate : Touches path id (call (Files.createDir recovery) : Io σ Unit) := by
    refine touches_call path id fun s n _ _ => ?_
    rw [HasFiles.files_setFiles]
    exact spared_of_dir (.inr rfl) Files.adds_createDir Files.node_createDir
  refine hcreate.attempt.andThen fun r _ => ?_
  split
  · exact (touches_sync path id _).andThen fun _ _ => hrest
  · exact hrest
  · exact (touches_fail path id (α := Unit) _).andThen fun _ _ => hrest

end steps

theorem touches_content (id path : String) : Touches (filePath path) id (Root.content P path : Io σ (Option Content)) :=
  touches_looks _ id (looks_content P path)

theorem touches_displace (id path : String) (current : Option Content) :
    Touches (filePath path) id (Root.displace P id path current : Io σ Unit) := by
  have hrename : Touches (filePath path) id (call (Files.rename (filePath path) (Root.previous id)) : Io σ Unit) := by
    refine touches_call _ id fun s n hn hn' => .inl ?_
    rw [HasFiles.files_setFiles]
    exact same_rename hn fun h => hn' ((transaction_within id _).trans h)
  refine hrename.andThen fun _ _ => (touches_sync _ id _).andThen fun _ _ => (touches_sync _ id _).andThen fun _ _ =>
    (touches_looks _ id (looks_readContent P _)).andThen fun _ _ => ?_
  split
  · exact (touches_adds _ id (.inl List.prefix_rfl) fun _ => Files.adds_link).attempt.andThen fun _ _ =>
      (touches_sync _ id _).andThen fun _ _ => touches_fail _ id _
  · exact touches_pure _ id _

theorem touches_publish (id path : String) (current : Option Content) (after : Content) :
    Touches (filePath path) id (Root.publish P id path current after : Io σ Unit) := by
  have hfinal : Touches (filePath path) id (do
      sync []
      Fallible.fail (.message "destination appeared during publication; data preserved") : Io σ Unit) :=
    (touches_sync _ id _).andThen fun _ _ => touches_fail _ id _
  have hlink : ∀ src, Touches (filePath path) id (call (Files.link src (filePath path)) : Io σ Unit) :=
    fun _ => touches_adds _ id (.inl List.prefix_rfl) fun _ => Files.adds_link
  cases after with
  | file hash =>
    refine (hlink _).attempt.andThen fun r _ => ?_
    split
    · exact touches_pure _ id _
    · split
      · exact (hlink _).attempt.andThen fun _ _ => hfinal
      · exact hfinal
  | directory | deleted => exact (touches_content P id path).andThen fun _ _ => touches_lift _ id _

/-! Writing is confined, too, but that a file is one's own shows only in the run: `createNew` has made it. -/

section writing

variable {env : σ → σ → Prop} {α β : Type} {n : FilePath} {fs : Files}

/-- The terms: others do what they do, and the name is spared. -/
def sparing (env : σ → σ → Prop) (path n : FilePath) (fs : Files) : Contract σ :=
  ⟨env, fun _ _ => True, fun s => Spared path n fs (HasFiles.files s)⟩

/-- Wherever it has got to, and whatever it has been told, the program has spared the name. -/
def Spares (env : σ → σ → Prop) (path n : FilePath) (fs : Files) (x : Io σ α) : Prop :=
  Triple (sparing env path n fs) (sparing env path n fs).inv x
    (outcome (fun _ => (sparing env path n fs).inv) fun _ => (sparing env path n fs).inv)

/-- Others leave alone what stands at the name. -/
def Leave (env : σ → σ → Prop) (n : FilePath) : Prop :=
  ∀ s s', env s s' → Same n (HasFiles.files s) (HasFiles.files s')

theorem Leave.spared (henv : Leave env n) (henv' : env s s') (h : Spared path n fs (HasFiles.files s)) :
    Spared path n fs (HasFiles.files s') := h.trans (.inl (henv _ _ henv'))

theorem Spares.andThen {x : Io σ α} {f : α → Io σ β} (h : Spares env path n fs x)
    (hf : ∀ a, Spares env path n fs (f a)) : Spares env path n fs (x >>= f) := Triple.andThen h hf

/-- Steps that spare the name. -/
theorem spares_tries {step : σ → σ → Prop} {x : Io σ α} (henv : Leave env n)
    (hstep : ∀ s s', Spared path n fs (HasFiles.files s) → step s s' → Spared path n fs (HasFiles.files s'))
    (h : Tries step (fun _ => True) x) : Spares env path n fs x := by
  refine (Tries.triple (a := fun s => Spared path n fs (HasFiles.files s)) h (fun _ _ he hs => henv.spared he hs)
    (fun _ h => h) fun s s' hs h => ⟨trivial, hstep s s' hs h⟩).conseq (fun _ h => h) fun r s hr => ?_
  rcases r with e | a
  · exact hr
  · exact hr.1

/-- What is confined spares every name elsewhere. -/
theorem Spares.ofTouches {x : Io σ α} (henv : Leave env n) (hn : ¬ path <+: n) (hn' : ¬ Root.transaction id <+: n)
    (h : Touches path id x) : Spares env path n fs x :=
  spares_tries henv (fun _ _ hs hstep => hs.trans (hstep n hn hn')) h

/-- The file did not stand at the name. -/
def Elsewhere (n : FilePath) (fs : Files) (file : ℕ) : Prop := fs.node n ≠ some (.file file)

/-- Writing to a file that did not stand at the name. -/
theorem spares_writeAll (henv : Leave env n) {file : ℕ} (hfile : Elsewhere n fs file) (bytes : Bytes) :
    Spares env path n fs (writeAll file bytes : Io σ Unit) := by
  have hwrites : Tries (fun s s' : σ => (∀ p, (HasFiles.files s').node p = (HasFiles.files s).node p) ∧
      ∀ i ≠ file, (HasFiles.files s').inode i = (HasFiles.files s).inode i) (fun _ => True)
      (writeAll file bytes : Io σ Unit) := by
    refine Tries.forM fun b _ => Tries.act fun s => ?_
    simp only [HasFiles.files_setFiles]
    exact ⟨fun _ => rfl, fun i hi => by simp [Files.append, Files.inode_setInode, Function.update_of_ne hi]⟩
  refine spares_tries henv ?_ hwrites
  rintro s s' (⟨hnode, hinode⟩ | ⟨hn, hnone, hdir⟩) ⟨hnode', hinode'⟩
  · refine .inl ⟨(hnode' n).trans hnode, fun i hi => (hinode' i ?_).trans (hinode i hi)⟩
    rintro rfl
    exact hfile hi
  · exact .inr ⟨hn, hnone, (hnode' n).trans hdir⟩

/-- A new file stood nowhere. -/
theorem spares_createNew {p : FilePath} (henv : Leave env n) (hp : ¬ p <+: n) :
    Triple (sparing env path n fs) (sparing env path n fs).inv (call (Files.createNew p) : Io σ ℕ)
      (outcome (fun file s => (sparing env path n fs).inv s ∧ Elsewhere n fs file) fun _ =>
        (sparing env path n fs).inv) := by
  have hstable : ∀ s s', env s s' → Spared path n fs (HasFiles.files s) → Spared path n fs (HasFiles.files s') :=
    fun _ _ he hs => henv.spared he hs
  refine Triple.act hstable (fun _ h => h) (fun r => ?_) (fun r s h => ?_) fun s hs => ⟨trivial, ?_⟩
  · rcases r with e | file
    · exact hstable
    · exact fun _ _ he h => ⟨hstable _ _ he h.1, h.2⟩
  · rcases r with e | file
    · exact h
    · exact h.1
  · have hsame : Same n (HasFiles.files s) (Files.createNew p (HasFiles.files s)).2 := by
      refine (same_or_of_adds n Files.adds_createNew).resolve_right ?_
      rintro ⟨rfl, -⟩
      exact hp List.prefix_rfl
    have hspared : Spared path n fs (HasFiles.files (HasFiles.setFiles (Files.createNew p (HasFiles.files s)).2 s)) := by
      rw [HasFiles.files_setFiles]
      exact hs.trans (.inl hsame)
    change outcome _ _ ((Files.createNew p (HasFiles.files s)).1.mapError Error.io) _
    rcases hr : (Files.createNew p (HasFiles.files s)).1 with e | file
    · exact hspared
    · refine ⟨hspared, fun hfile => ?_⟩
      -- a file at the name is in use, and the new one was not
      rcases hs with ⟨hnode, -⟩ | ⟨-, hnone, -⟩
      · exact ((HasFiles.files s).lt_fresh n file (hnode.trans hfile)).ne (Files.createNew_ok hr).1
      · rw [hnone] at hfile
        cases hfile

/-- Writing to a new file spares every other one. -/
theorem spares_newFile {p : FilePath} (henv : Leave env n) (hp : ¬ p <+: n) (bytes : Bytes) {rest : Io σ β}
    (hrest : Spares env path n fs rest) :
    Spares env path n fs (do
      let file ← call (Files.createNew p)
      writeAll file bytes
      rest) :=
  Triple.seq (spares_createNew henv hp) fun _ hfile => (spares_writeAll henv hfile bytes).andThen fun _ => hrest

end writing

section apply

variable {env : σ → σ → Prop} {id path : String} {n : FilePath} {fs : Files} (henv : Leave env n)
  (hn : ¬ filePath path <+: n) (hn' : ¬ Root.transaction id <+: n)
include henv hn hn'

theorem spares_stageIncoming (hash : String) {object : Option (Io σ Bytes)}
    (hobject : ∀ input ∈ object, Tries Looks (fun _ => True) input) :
    Spares env (filePath path) n fs (Root.stageIncoming P id hash object) := by
  have hlink : Touches (filePath path) id (do
      let staged ← readContent P (Root.incoming id)
      ensure (staged = some (.file hash)) "content object is corrupt"
      call (Files.link (Root.incoming id) (Root.linkProbe id))
      call (Files.removeFile (Root.linkProbe id)) : Io σ Unit) := by
    refine (touches_looks _ id (looks_readContent P _)).andThen fun _ _ => (touches_lift _ id _).andThen fun _ _ => ?_
    exact (touches_adds _ id (.inr (transaction_within id _)) fun _ => Files.adds_link).andThen fun _ _ =>
      touches_removeFile _ id _
  cases object with
  | none => exact .ofTouches henv hn hn' (touches_fail _ id _)
  | some input =>
    refine Spares.andThen (.ofTouches henv hn hn' (touches_looks _ id (hobject input rfl))) fun bytes => ?_
    refine spares_newFile henv (fun h => hn' ((transaction_within id _).trans h)) bytes ?_
    exact .ofTouches henv hn hn' hlink

theorem spares_writeRecord (intent : Root.Intent) :
    Spares env (filePath path) n fs (Root.writeRecord id intent : Io σ Unit) := by
  have hsyncs : Touches (filePath path) id (do
      sync (Root.transaction id)
      sync recovery
      sync [] : Io σ Unit) :=
    (touches_sync _ id _).andThen fun _ _ => (touches_sync _ id _).andThen fun _ _ => touches_sync _ id _
  exact spares_newFile henv (fun h => hn' ((transaction_within id _).trans h)) _ (.ofTouches henv hn hn' hsyncs)

theorem spares_transact (current : Option Content) (after : Content) {object : Option (Io σ Bytes)}
    (hobject : ∀ input ∈ object, Tries Looks (fun _ => True) input) :
    Spares env (filePath path) n fs (Root.transact P id path current after object) := by
  have hend : Touches (filePath path) id (do
      Root.publish P id path current after
      syncParent (filePath path)
      Root.finishRecord id : Io σ Unit) :=
    (touches_publish P id path _ _).andThen fun _ _ => (touches_sync _ id _).andThen fun _ _ => touches_finishRecord _ id
  have hmiddle : Spares env (filePath path) n fs (do
      Root.writeRecord id ⟨path, current, after⟩
      if current.isSome then Root.displace P id path current else pure ()
      Root.publish P id path current after
      syncParent (filePath path)
      Root.finishRecord id : Io σ Unit) := by
    refine (spares_writeRecord henv hn hn' _).andThen fun _ => .ofTouches henv hn hn' ?_
    split
    · exact (touches_displace P id path _).andThen fun _ _ => hend
    · exact hend
  have hcreate : Touches (filePath path) id (call (Files.createDir (Root.transaction id)) : Io σ Unit) :=
    touches_adds _ id (.inr List.prefix_rfl) fun _ => Files.adds_createDir
  refine Spares.andThen (.ofTouches henv hn hn' (touches_openRecovery _ id)) fun _ => ?_
  refine Spares.andThen (.ofTouches henv hn hn' hcreate) fun _ => ?_
  refine Spares.andThen (.ofTouches henv hn hn' (touches_look _ id fun _ => rfl)) fun _ => ?_
  cases after with
  | file hash => exact (spares_stageIncoming P henv hn hn' hash hobject).andThen fun _ => hmiddle
  | directory | deleted => exact hmiddle

theorem spares_apply (before : Option Content) (after : Content) {object : Option (Io σ Bytes)}
    (hobject : ∀ input ∈ object, Tries Looks (fun _ => True) input) :
    Spares env (filePath path) n fs (Root.apply P id path before after object) := by
  have hof : ∀ {α : Type} {x : Io σ α}, Touches (filePath path) id x → Spares env (filePath path) n fs x :=
    Spares.ofTouches henv hn hn'
  have hparents : Touches (filePath path) id (Root.ensureParents (filePath path) : Io σ Unit) :=
    Does.weaken (tries_ensureParents _) fun _ _ => confined_of_makesParent
  have hremove : Touches (filePath path) id (call (Files.removeDir (filePath path)) : Io σ Unit) := by
    refine touches_call _ id fun s n hn _ => .inl ?_
    rw [HasFiles.files_setFiles]
    refine same_removeDir ?_
    rintro rfl
    exact hn List.prefix_rfl
  refine (hof (touches_lift _ id _)).andThen fun _ => (hof (touches_content P id path)).andThen fun current => ?_
  split
  · exact hof (touches_pure _ id _)
  · refine (hof (touches_lift _ id _)).andThen fun _ => (hof hparents).andThen fun _ => ?_
    split
    · exact hof ((touches_lift _ id _).andThen fun _ _ =>
        (touches_adds _ id (.inl List.prefix_rfl) fun _ => Files.adds_createDir).andThen fun _ _ => touches_sync _ id _)
    · split
      · exact hof ((touches_lift _ id _).andThen fun _ _ => hremove.andThen fun _ _ => touches_sync _ id _)
      · exact spares_transact P henv hn hn' _ _ hobject

end apply

/-- No symbolic link is on the way to the path, or to what is put into a transaction. -/
def Reached (path id : String) (fs : Files) : Prop :=
  Files.Direct (filePath path) fs ∧ Files.Direct (Root.record id) fs

/-- **Applying touches its path only.** Let `apply` be stopped anywhere, and let others do at the same time what
they want except to what stands at some name that is neither the path nor below it, and not in the directory of
the transaction, and except to put a symbolic link onto the way. Then the same stands there as before, if it is a file with the same bytes, or it is a directory
that was missing on the way to the path or to the records. -/
theorem apply_confined {env : σ → σ → Prop} {id path : String} {before : Option Content} {after : Content}
    {object : Option (Io σ Bytes)} {x : Io σ Unit} {n : FilePath}
    (hobject : ∀ input ∈ object, Tries Looks (fun _ => True) input)
    (henv : Leave env n) (_ : Reached path id (HasFiles.files s))
    (_ : ∀ t t', env t t' → Reached path id (HasFiles.files t')) (hn : ¬ filePath path <+: n)
    (hn' : ¬ Root.transaction id <+: n) (hrun : Prog.Reaches env (Root.apply P id path before after object) s x s') :
    Spared (filePath path) n (HasFiles.files s) (HasFiles.files s') :=
  ((spares_apply P henv hn hn' before after hobject s (.inl .refl)).reaches hrun).inv

/-- A folder with notes. -/
def notesFolder : Files := (Files.empty.setInode 0 ⟨[1, 2, 3], 0⟩).add ["notes"] (.file 0)

/-- A program that makes a new file next to the notes. -/
def besideNotes : Io Files Unit :=
  Root.apply .sample "id" "a/b" none (.file "0405") (some (Fallible.ofExcept (.ok [4, 5])))

/-- The new file is made, and the notes are as before. -/
theorem apply_confined_notes : Spared (filePath "a/b") ["notes"] notesFolder (Prog.run besideNotes notesFolder).2 := by
  have hobject : ∀ input ∈ some (Fallible.ofExcept (.ok [4, 5]) : Io Files Bytes),
      Tries Looks (fun _ => True) input := by
    intro input hinput
    obtain rfl := Option.some.inj hinput
    exact Tries.ofExcept fun _ _ => trivial
  have hdirect : ∀ p, Files.Direct p notesFolder := Files.direct_of_names (by decide)
  exact apply_confined .sample hobject (fun _ _ h => h.elim) ⟨hdirect _, hdirect _⟩ (fun _ _ h => h.elim)
    (by decide +kernel) (by decide +kernel)
    (Prog.reaches_run (fun _ _ => False) besideNotes notesFolder)

/-! ### Recovering -/

/-- A change that leaves every name but the staging names alone, and adds marks and paths that pass the check. -/
def Sparing (s s' : σ) : Prop :=
  ∀ n, (∀ id, n ≠ Root.incoming id) → Resumed n (HasFiles.files s) (HasFiles.files s')

theorem sparing_of_looks (h : Looks s s') : Sparing s s' := fun n _ => .inl (by rw [h]; exact .refl)

theorem sparing_adds {α : Type} {op : Files → Files.Outcome α} {p : FilePath}
    (hp : (∃ id, p = Root.done id) ∨ ∃ path, validatePath path = .ok () ∧ p = filePath path)
    (h : ∀ fs, Files.Adds p fs (op fs).2) : Tries Sparing (fun _ => True) (call op : Io σ α) := by
  refine Tries.act fun s n _ => ?_
  simp only [HasFiles.files_setFiles]
  rcases same_or_of_adds n (h (HasFiles.files s)) with hsame | ⟨rfl, hnone⟩
  · exact .inl hsame
  · exact .inr ⟨hnone, hp⟩

theorem sparing_looks {α : Type} {V : α → Prop} {x : Io σ α} (h : Tries Looks V x) :
    Tries Sparing (fun _ => True) x :=
  Does.mono (Does.weaken h fun _ _ => sparing_of_looks) fun _ _ _ _ => trivial

theorem sparing_sync (dir : FilePath) : Tries Sparing (fun _ => True) (sync dir : Io σ Unit) :=
  sparing_looks (looks_call fun _ => rfl)

theorem sparing_fail {α : Type} (e : Error) : Tries Sparing (fun _ => True) (Fallible.fail e : Io σ α) := Tries.fail

theorem sparing_finishRecord (id : String) : Tries Sparing (fun _ => True) (Root.finishRecord id : Io σ Unit) := by
  have hremove : Tries Sparing (fun _ => True) (call (Files.removeFile (Root.incoming id)) : Io σ Unit) := by
    refine Tries.act fun s n hn => .inl ?_
    simp only [HasFiles.files_setFiles]
    exact same_removeFile (hn id)
  refine (sparing_adds (.inl ⟨id, rfl⟩) fun _ => Files.adds_createNew).andThen fun _ _ => ?_
  refine (sparing_looks (looks_call fun _ => rfl)).attempt.andThen fun r _ => ?_
  split
  · exact hremove.andThen fun _ _ => sparing_sync _
  · exact sparing_sync _

theorem sparing_settle (id : String) (intent : Root.Intent) :
    Tries Sparing (fun _ => True) (Root.settle P id intent : Io σ Unit) := by
  have hvalid : Tries Sparing (fun _ => validatePath intent.path = .ok ())
      (Fallible.ofExcept (validatePath intent.path) : Io σ Unit) := Tries.ofExcept fun _ h => h
  refine hvalid.andThen fun _ hpath => (sparing_looks (looks_content P _)).andThen fun actual _ => ?_
  split
  · exact sparing_finishRecord id
  · split
    · refine (sparing_looks (looks_call fun _ => rfl)).attempt.andThen fun r _ => ?_
      split
      · exact (sparing_adds (.inr ⟨_, hpath, rfl⟩) fun _ => Files.adds_link).andThen fun _ _ =>
          (sparing_sync _).andThen fun _ _ => sparing_finishRecord id
      · exact sparing_fail _
    · exact sparing_fail _

theorem sparing_recover : Tries Sparing (fun _ => True) (Root.recover P : Io σ Unit) := by
  have hpure : Tries Sparing (fun _ => True) (pure () : Io σ Unit) := Tries.ofExcept fun _ _ => trivial
  refine (sparing_looks (looks_call fun _ => rfl)).attempt.andThen fun r _ => ?_
  split
  · exact hpure
  · exact sparing_fail _
  · refine (sparing_looks (looks_call fun _ => rfl)).andThen fun items _ => Tries.forM fun item _ => ?_
    split
    · refine (sparing_looks (looks_inspect _)).andThen fun found _ => ?_
      split
      · exact hpure
      · exact sparing_settle P _ _
    · exact hpure

/-- No symbolic link is on the way to a record, or to the path that a record names. -/
def RecordsReached (fs : Files) : Prop :=
  ∀ id, Files.Direct (Root.record id) fs ∧ ∀ i j intent, fs.opened (Root.record id) = some i →
    Json.parse (fs.inode i).bytes = some j → Root.Intent.ofJson j = some intent → Files.Direct (filePath intent.path) fs

/-- **Recovering takes staging names away and nothing else.** Let `recover` be stopped anywhere, and let others do
at the same time what they want except to what stands at some name that is no staging name, and except to put a symbolic
link onto the way to a record or to the path it names. Then the same stands
there as before, a displaced file or a record no less than a file of the user's; or nothing stood there, and it
is the mark of a transaction or a path that passes the check. -/
theorem recover_confined {env : σ → σ → Prop} {x : Io σ Unit} {n : FilePath} (henv : Leave env n)
    (_ : RecordsReached (HasFiles.files s)) (_ : ∀ t t', env t t' → RecordsReached (HasFiles.files t'))
    (hn : ∀ id, n ≠ Root.incoming id) (hrun : Prog.Reaches env (Root.recover P) s x s') :
    Resumed n (HasFiles.files s) (HasFiles.files s') :=
  Does.reaches (a := fun t => Resumed n (HasFiles.files s) (HasFiles.files t)) (sparing_recover P)
    (fun _ _ he h => h.trans (.inl (henv _ _ he))) (fun _ _ h hstep => h.trans (hstep n hn)) hrun (.inl .refl)

/-- Replacing the notes, interrupted when the old ones are displaced and the new ones have no visible name yet. -/
@[irreducible] def interruptedFolder : Files :=
  (Prog.runFor 124 (Root.apply .sample "id" "notes" (some (.file "010203")) (.file "0405")
    (some (Fallible.ofExcept (.ok [4, 5])))) notesFolder).2

/-- The notes are put back. -/
theorem recover_confined_notes :
    Resumed ["notes"] interruptedFolder (Prog.run (Root.recover .sample) interruptedFolder).2 := by
  have hn : ∀ id, ["notes"] ≠ Root.incoming id := fun id => by simp [Root.incoming, Root.transaction, recovery]
  have hdirect : ∀ p, Files.Direct p interruptedFolder := Files.direct_of_names (by decide +kernel)
  exact recover_confined (σ := Files) (s := interruptedFolder) .sample (fun _ _ h => h.elim)
    (fun id => ⟨hdirect _, fun _ _ _ _ _ _ => hdirect _⟩) (fun _ _ h => h.elim) hn
    (Prog.reaches_run (fun _ _ => False) (Root.recover .sample) interruptedFolder)

end

end Everywhere
