import Everywhere.Library.Interleaving
import Everywhere.Versions.Model

/-!
# The folder

`Root` is the part of the program that touches the user's files. Reading is hashing
(`readContent`), looking around is `walk`, and changing is `apply`: bring a path from one
content to another without ever overwriting anything. A file that is replaced is moved
aside, into a fresh directory of `.everywhere-recovery`, and stays there; the new file is
written next to it first and gets its visible name by a hard link, which fails if the name is
taken. A record of the intent is written before the first change, and `recover` reads the
records that were left behind and finishes them or puts things back.

Every function is a program of single system calls, so that the other programs of the
machine may act between any two of them and a crash may come at any of them. A file is
written byte by byte. What makes writes durable (`sync`) has no effect on the tree; it is
modelled as the opening of the directory that it contains. The random identifiers are
arguments.

A program works in any state that has files in it (`HasFiles`).
-/

namespace Everywhere

open Library

/-- A program of the application, on a state of type `σ`. -/
abbrev Io (σ α : Type) := Fallible Error σ α

section

variable {σ : Type} [HasFiles σ]

/-- A system call. -/
def call {α : Type} (op : Files → Files.Outcome α) : Io σ α :=
  Fallible.act fun s =>
    let (r, f) := op (HasFiles.files s)
    (r.mapError .io, HasFiles.setFiles f s)

/-- The path in the tree of a path as the program writes it. -/
def filePath (path : String) : FilePath := components path

/-- The directory of the records. -/
def recovery : FilePath := [".everywhere-recovery"]

theorem filePath_ne_nil (path : String) : filePath path ≠ [] := by
  simp [filePath, components]

/-- A path that passes the check is not one of the program's own. -/
theorem recovery_outside {path : String} (h : validatePath path = .ok ()) : ¬ recovery <+: filePath path := by
  rintro ⟨r, hr⟩
  rw [validatePath, ensure_bind_eq_ok, forM_eq_ok] at h
  have hname := h.2 ".everywhere-recovery" (by rw [← filePath, ← hr]; simp [recovery])
  exact absurd hname (by decide)

/-- Make a directory durable. -/
def sync (dir : FilePath) : Io σ Unit := call (Files.openDir dir)

/-- Make the directory of a path durable. -/
def syncParent (path : FilePath) : Io σ Unit := sync path.dropLast

/-- Write to a new file. -/
def writeAll (file : ℕ) (bytes : Bytes) : Io σ Unit := bytes.forM fun b => call (Files.append file b)

end

/-! ### Reading -/

/-- The length of the blocks in which a file is read. -/
def blockSize : ℕ := 1024 * 1024

/-- The largest file. -/
def maxSize : ℕ := 2 ^ 40

/-- What is known of the bytes of a file. -/
structure Manifest where
  /-- Their number. -/
  size : ℕ
  /-- Their hash. -/
  hash : String
  /-- The hashes of the blocks. -/
  blocks : List String
  deriving DecidableEq

section

variable {σ : Type} [HasFiles σ] (P : Platform)

/-- Read a number of blocks of an open file, the last one only as far as it goes. -/
def readBlocks (file : ℕ) : ℕ → ℕ → ℕ → Io σ (List Bytes)
  | 0, _, _ => pure []
  | n + 1, offset, remaining => do
    let len := min remaining blockSize
    let block ← call (Files.readExact file offset len)
    let blocks ← readBlocks file n (offset + len) (remaining - len)
    pure (block :: blocks)

/-- Hash an open file, and notice if it changed meanwhile. -/
def Manifest.fromFile (file : ℕ) : Io σ Manifest := do
  let before ← call (Files.stat file)
  ensure (before.1 ≤ maxSize) "file exceeds 1 TiB alpha limit"
  let blocks ← readBlocks file ((before.1 + blockSize - 1) / blockSize) 0 before.1
  let after ← call (Files.stat file)
  ensure (before = after) "source changed during hashing"
  pure ⟨before.1, P.blake3 blocks.flatten, blocks.map P.blake3⟩

/-- The content at a path. -/
def readContent (path : FilePath) : Io σ (Option Content) := do
  match ← Fallible.attempt (call (Files.metadata path)) with
  | .error (.io .notFound) => pure none
  | .error e => Fallible.fail e
  | .ok (.link _) => Fallible.fail (.message "links are not supported")
  | .ok .dir => pure (some .directory)
  | .ok .special => Fallible.fail (.message "special files are not supported")
  | .ok (.file _) => do
    let file ← call (Files.openFile path)
    let manifest ← Manifest.fromFile P file
    pure (some (.file manifest.hash))

namespace Root

/-- The content at a path that was checked. -/
def content (path : String) : Io σ (Option Content) := do
  validatePath path
  readContent P (filePath path)

/-- Open the file at a path. -/
def file (path : String) : Io σ ℕ := do
  validatePath path
  let kind ← call (Files.metadata (filePath path))
  ensure (kind.isFile = true) "not a regular file"
  call (Files.openFile (filePath path))

/-- A path as it is shown. -/
def portable (path : FilePath) : String :=
  String.ofList (("/".intercalate path).toList.map fun c => if c = '\\' then '/' else c)

/-- Visit everything below a directory. A path that passes the check has at most 4096 names, so that many
levels are all there are. -/
def walk (visit : String → Bool → Io σ Unit) : ℕ → FilePath → Io σ Unit
  | 0, _ => pure ()
  | depth + 1, relative => do
    let items ← call (Files.entries relative)
    items.forM fun item => do
      if ".everywhere-".toList <+: item.1.toList.map Char.toLower then pure ()
      else do
        let path := relative ++ [item.1]
        validatePath (portable path)
        ensure ('\\' ∉ item.1.toList) "backslash filename is not portable"
        ensure (item.2.isFile = true ∨ item.2 = .dir) "links and special files are not supported"
        visit (portable path) (item.2 = .dir)
        if item.2 = .dir then walk visit depth path else pure ()

/-- Visit everything in the folder. -/
def visit (visit : String → Bool → Io σ Unit) : Io σ Unit := walk visit 4096 []

/-! ### Changing -/

/-- Make the directories on the way to a path. -/
def ensureParents (path : FilePath) : Io σ Unit :=
  path.inits.dropLast.tail.forM fun current => do
    match ← Fallible.attempt (call (Files.createDir current)) with
    | .ok () => syncParent current
    | .error (.io .alreadyExists) => pure ()
    | .error e => Fallible.fail e
    let kind ← call (Files.metadata current)
    ensure (kind = .dir) "unsafe parent directory"

/-- What is going to be done to a path. -/
structure Intent where
  /-- The path. -/
  path : String
  /-- What stands there. -/
  before : Option Content
  /-- What is to stand there. -/
  after : Content
  deriving DecidableEq

/-- An intent as JSON. -/
def Intent.toJson (i : Intent) : Json :=
  .obj [("path", .str i.path), ("before", i.before.elim .null Content.toJson), ("after", i.after.toJson)]

theorem Intent.depth_toJson (i : Intent) : i.toJson.depth ≤ Json.maxDepth := by
  have hdepth : i.toJson.depth ≤ 2 := by
    refine Json.depth_obj_le.mpr fun m hm => ?_
    simp only [List.mem_cons, List.not_mem_nil, or_false] at hm
    rcases hm with rfl | rfl | rfl
    · exact Nat.zero_le _
    · cases hb : i.before with
      | none => exact Nat.zero_le _
      | some c => exact c.depth_toJson
    · exact i.after.depth_toJson
  exact hdepth.trans (by decide)

/-- An intent read from JSON. -/
def Intent.ofJson : Json → Option Intent
  | .obj members => do
    guard (∀ m ∈ members, m.1 ∈ ["path", "before", "after"])
    let .str path ← Json.get "path" (.obj members) | none
    let before ← match Json.get "before" (.obj members) with
      | none | some .null => some none
      | some j => (Content.ofJson j).map some
    let after ← (Json.get "after" (.obj members)).bind Content.ofJson
    pure ⟨path, before, after⟩
  | _ => none

/-- The directory of a transaction. -/
def transaction (id : String) : FilePath := recovery ++ [id]

/-- The new file, before it has its visible name. -/
def incoming (id : String) : FilePath := transaction id ++ ["incoming"]

/-- The file that was displaced. -/
def previous (id : String) : FilePath := transaction id ++ ["previous"]

/-- The record of the intent. -/
def record (id : String) : FilePath := transaction id ++ ["record.json"]

/-- The mark of a transaction that is finished. -/
def done (id : String) : FilePath := transaction id ++ ["done"]

/-- The name on which linking is tried out. -/
def linkProbe (id : String) : FilePath := transaction id ++ ["link-probe"]

/-- Mark a transaction as finished. The displaced file stays; the staging name must go, so that a later edit
of the user's file does not show in a second place. -/
def finishRecord (id : String) : Io σ Unit := do
  let _ ← call (Files.createNew (done id))
  match ← Fallible.attempt (call (Files.metadata (incoming id))) with
  | .ok _ => call (Files.removeFile (incoming id))
  | .error _ => pure ()
  sync (transaction id)

/-- Make the directory of the records. -/
def openRecovery : Io σ Unit := do
  match ← Fallible.attempt (call (Files.createDir recovery)) with
  | .ok () => sync []
  | .error (.io .alreadyExists) => pure ()
  | .error e => Fallible.fail e
  let kind ← call (Files.metadata recovery)
  ensure (kind = .dir) "unsafe recovery directory"
  sync recovery

/-- Write the new file next to the others of its transaction, and try whether it can be linked. -/
def stageIncoming (id : String) (hash : String) (object : Option (Io σ Bytes)) : Io σ Unit := do
  match object with
  | none => Fallible.fail (.message "missing content object")
  | some input => do
    let bytes ← input
    let output ← call (Files.createNew (incoming id))
    writeAll output bytes
    let staged ← readContent P (incoming id)
    ensure (staged = some (.file hash)) "content object is corrupt"
    call (Files.link (incoming id) (linkProbe id))
    call (Files.removeFile (linkProbe id))

/-- Write the record of the intent. -/
def writeRecord (id : String) (intent : Intent) : Io σ Unit := do
  let file ← call (Files.createNew (record id))
  writeAll file intent.toJson.render
  sync (transaction id)
  sync recovery
  sync []

/-- Move what stands at the path aside, and check that it is what was expected. -/
def displace (id path : String) (current : Option Content) : Io σ Unit := do
  call (Files.rename (filePath path) (previous id))
  sync (transaction id)
  syncParent (filePath path)
  let displaced ← readContent P (previous id)
  if displaced ≠ current then do
    let _ ← Fallible.attempt (call (Files.link (previous id) (filePath path)))
    sync []
    Fallible.fail (.message ("local edit preserved in recovery for " ++ path))
  else pure ()

/-- Give the new file its visible name, or check that nothing has that name. -/
def publish (id path : String) (current : Option Content) (after : Content) : Io σ Unit :=
  match after with
  | .file _ => do
    match ← Fallible.attempt (call (Files.link (incoming id) (filePath path))) with
    | .ok () => pure ()
    | .error _ => do
      if current.isSome then do
        let _ ← Fallible.attempt (call (Files.link (previous id) (filePath path)))
        pure ()
      else pure ()
      sync []
      Fallible.fail (.message "destination appeared during publication; data preserved")
  | .directory | .deleted => do
    let now ← content P path
    ensure (now = none) "local file appeared during deletion; content preserved"

/-- Replace or delete a file, or make one, by a transaction. -/
def transact (id path : String) (current : Option Content) (after : Content) (object : Option (Io σ Bytes)) :
    Io σ Unit := do
  openRecovery
  call (Files.createDir (transaction id))
  call (Files.openDir (transaction id))
  match after with
  | .file hash => stageIncoming P id hash object
  | .directory | .deleted => pure ()
  writeRecord id ⟨path, current, after⟩
  if current.isSome then displace P id path current else pure ()
  publish P id path current after
  syncParent (filePath path)
  finishRecord id

/-- Bring a path from one content to another. -/
def apply (id path : String) (before : Option Content) (after : Content) (object : Option (Io σ Bytes)) :
    Io σ Unit := do
  validatePath path
  let current ← content P path
  if current = some after ∨ (current = none ∧ after = .deleted) then pure ()
  else do
    ensure (current = before) ("local file changed before application: " ++ path)
    ensureParents (filePath path)
    if after = .directory then do
      ensure (current = none) ("file/directory conflict needs explicit resolution: " ++ path)
      call (Files.createDir (filePath path))
      syncParent (filePath path)
    else if current = some .directory then do
      ensure (after = .deleted) ("file/directory conflict needs explicit resolution: " ++ path)
      -- a directory that is not empty is neither removed nor moved
      call (Files.removeDir (filePath path))
      syncParent (filePath path)
    else transact P id path current after object

/-! ### Recovering -/

/-- Finish a transaction, or put the displaced file back. -/
def settle (id : String) (intent : Intent) : Io σ Unit := do
  validatePath intent.path
  let actual ← content P intent.path
  if actual = some intent.after ∨ (actual = none ∧ intent.after = .deleted) ∨ actual = intent.before then
    finishRecord id
  else if actual = none then do
    match ← Fallible.attempt (call (Files.metadata (previous id))) with
    | .ok _ => do
      call (Files.link (previous id) (filePath intent.path))
      sync []
      finishRecord id
    | .error _ => Fallible.fail (.message ("ambiguous interrupted application for " ++ intent.path ++
        "; local content and recovery retained"))
  else Fallible.fail (.message ("ambiguous interrupted application for " ++ intent.path ++
    "; local content and recovery retained"))

/-- Whether a record is one of the journal of single files, which has its own recovery. -/
def isReceivers (j : Json) : Bool := (j.get "intent").isSome && (j.get "target").isSome

/-- The bytes of a record read back. -/
def parseRecord (bytes : Bytes) : Result Json :=
  match Json.parse bytes with
  | some j => .ok j
  | none => .error .json

/-- Look at one transaction: the intent that is to be settled, or none if there is nothing to do. -/
def inspect (id : String) : Io σ (Option Intent) := do
  call (Files.openDir (transaction id))
  match ← Fallible.attempt (call (Files.metadata (done id))) with
  | .ok _ => pure none
  | .error _ => do
    match ← Fallible.attempt (call (Files.read (record id))) with
    | .error (.io .notFound) => pure none
    | .error e => Fallible.fail e
    | .ok bytes => do
      ensure (bytes.length ≤ 64 * 1024) "oversized recovery record"
      let value ← parseRecord bytes
      if isReceivers value then pure none
      else match Intent.ofJson value with
        | none => Fallible.fail .json
        | some intent => pure (some intent)

/-- Recover one transaction. -/
def recoverOne (id : String) : Io σ Unit := do
  match ← inspect id with
  | none => pure ()
  | some intent => settle P id intent

/-- Recover every transaction left behind. -/
def recover : Io σ Unit := do
  match ← Fallible.attempt (call (Files.openDir recovery)) with
  | .error (.io .notFound) => pure ()
  | .error e => Fallible.fail e
  | .ok () => do
    let items ← call (Files.entries recovery)
    items.forM fun item => do
      if item.2 = .dir then recoverOne P item.1 else pure ()

end Root

/-! ### What the functions do -/

section

variable {p : FilePath}

/-- Nothing changes. -/
def Looks (s s' : σ) : Prop := s' = s

/-- At most a directory on the way to a path is new. -/
def MakesParent (p : FilePath) (s s' : σ) : Prop :=
  ∃ q fs, (q <+: p ∧ q ≠ p ∧ q ≠ []) ∧ Files.Adds q (HasFiles.files s) fs ∧
    (fs.node q = (HasFiles.files s).node q ∨ fs.node q = some .dir) ∧ s' = HasFiles.setFiles fs s

/-- The content is a deletion or a hash. -/
def Hashed : Option Content → Prop
  | some (.file hash) => ∃ bytes, hash = P.blake3 bytes
  | some .deleted => False
  | _ => True

theorem looks_call {α : Type} {op : Files → Files.Outcome α} (h : ∀ fs, (op fs).2 = fs) :
    Tries Looks (fun _ => True) (call op : Io σ α) := by
  refine Tries.act fun s => ?_
  change HasFiles.setFiles (op (HasFiles.files s)).2 s = s
  rw [h, HasFiles.setFiles_files]

theorem looks_readBlocks (file n offset remaining : ℕ) :
    Tries Looks (fun _ => True) (readBlocks file n offset remaining : Io σ (List Bytes)) := by
  induction n generalizing offset remaining with
  | zero => exact Tries.ofExcept fun _ _ => trivial
  | succ n ih =>
    exact (looks_call fun _ => rfl).andThen fun _ _ => (ih _ _).andThen fun _ _ => Tries.ofExcept fun _ _ => trivial

theorem looks_fromFile (file : ℕ) :
    Tries Looks (fun m => ∃ bytes, m.hash = P.blake3 bytes) (Manifest.fromFile P file : Io σ Manifest) := by
  refine (looks_call fun _ => rfl).andThen fun _ _ => (Tries.ofExcept fun _ _ => trivial).andThen fun _ _ => ?_
  refine (looks_readBlocks _ _ _ _).andThen fun blocks _ => (looks_call fun _ => rfl).andThen fun _ _ => ?_
  refine (Tries.ofExcept fun _ _ => trivial).andThen fun _ _ => Tries.ofExcept fun m hm => ?_
  obtain rfl := Except.ok.inj hm
  exact ⟨_, rfl⟩

theorem looks_readContent (path : FilePath) : Tries Looks (Hashed P) (readContent P path : Io σ (Option Content)) := by
  refine (looks_call fun _ => rfl).attempt.andThen fun r _ => ?_
  split
  · exact Tries.ofExcept fun c hc => by obtain rfl := Except.ok.inj hc; trivial
  · exact Tries.fail
  · exact Tries.fail
  · exact Tries.ofExcept fun c hc => by obtain rfl := Except.ok.inj hc; trivial
  · exact Tries.fail
  · refine (looks_call fun _ => rfl).andThen fun _ _ => (looks_fromFile P _).andThen fun m hm => ?_
    exact Tries.ofExcept fun c hc => by obtain rfl := Except.ok.inj hc; exact hm

theorem looks_content (path : String) : Tries Looks (Hashed P) (Root.content P path : Io σ (Option Content)) :=
  (Tries.ofExcept fun _ _ => trivial).andThen fun _ _ => looks_readContent P _

theorem looks_inspect (id : String) : Tries Looks (fun _ => True) (Root.inspect id : Io σ (Option Root.Intent)) := by
  have hpure : ∀ r : Option Root.Intent, Tries Looks (fun _ => True) (pure r : Io σ (Option Root.Intent)) :=
    fun _ => Tries.ofExcept fun _ _ => trivial
  refine (looks_call fun _ => rfl).andThen fun _ _ => (looks_call fun _ => rfl).attempt.andThen fun r _ => ?_
  split
  · exact hpure _
  · refine (looks_call (Files.read_snd _)).attempt.andThen fun r _ => ?_
    split
    · exact hpure _
    · exact Tries.fail
    · refine (Tries.ofExcept fun _ _ => trivial).andThen fun _ _ => (Tries.ofExcept fun _ _ => trivial).andThen
        fun value _ => ?_
      split
      · exact hpure _
      · split
        · exact Tries.fail
        · exact hpure _

theorem mem_parents {path current : FilePath} (h : current ∈ path.inits.dropLast.tail) :
    current <+: path ∧ current ≠ path ∧ current ≠ [] := by
  obtain ⟨hp, hne⟩ := Files.mem_inits_dropLast.mp (List.mem_of_mem_tail h)
  refine ⟨hp, hne, ?_⟩
  rintro rfl
  cases path with
  | nil => exact hne rfl
  | cons x l =>
    rw [List.inits, List.dropLast_cons_of_ne_nil (by cases l <;> simp), List.tail_cons] at h
    simpa using List.mem_of_mem_dropLast h

theorem tries_ensureParents (path : FilePath) :
    Tries (MakesParent path) (fun _ => True) (Root.ensureParents path : Io σ Unit) := by
  refine Tries.forM fun current hcur => ?_
  have hq := mem_parents hcur
  have hlook : ∀ {α : Type} {op : Files → Files.Outcome α}, (∀ fs, (op fs).2 = fs) →
      Tries (MakesParent path) (fun _ => True) (call op : Io σ α) :=
    fun h => Tries.act fun s => ⟨current, _, hq, by rw [h]; exact .refl, by rw [h]; exact .inl rfl, rfl⟩
  have hrest : Tries (MakesParent path) (fun _ => True) (do
      let kind ← call (Files.metadata current)
      ensure (kind = .dir) "unsafe parent directory" : Io σ Unit) :=
    (hlook fun _ => rfl).andThen fun _ _ => Tries.ofExcept fun _ _ => trivial
  have hcreate : Tries (MakesParent path) (fun _ => True) (call (Files.createDir current) : Io σ Unit) :=
    Tries.act fun s => ⟨current, _, hq, Files.adds_createDir, Files.node_createDir, rfl⟩
  refine hcreate.attempt.andThen fun r _ => ?_
  split
  · exact (hlook fun _ => rfl).andThen fun _ _ => hrest
  · exact hrest
  · exact (Tries.fail (V := fun _ => True)).andThen fun _ _ => hrest

end
end
end Everywhere

