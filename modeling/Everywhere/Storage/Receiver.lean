import Everywhere.Folder.Root

/-!
# The receiver of single files

`Receiver` takes a file block by block into a staging file next to its destination (`put`), and when all
blocks are there it publishes the staging file by a hard link (`finishChecked`). What stood at the destination
is copied to the archive of versions and then moved aside, into a fresh directory of
`.everywhere-recovery`, as the folders' own transactions are; the record that is written there has another
format. An intent, a file next to the destination, says which move is to be undone after a crash
(`recoverInstall`). Both the intent and the journal of the transfer are found by a name that is derived from
the destination and the hash of the new content.

As in `Folder.Root`, a program is cut into single system calls, and what only makes writes durable is left out. So
are the locks, which keep two receivers of one destination apart. The random identifier is an argument.
-/

namespace Everywhere

open Library

/-! ### Manifests -/

/-- The check of a manifest. -/
def Manifest.validate (m : Manifest) : Result Unit := do
  ensure (m.size ≤ maxSize) "file exceeds 1 TiB alpha limit"
  ensure (m.blocks.length = (m.size + blockSize - 1) / blockSize) "block count mismatch"
  ensure (isHash m.hash = true ∧ ∀ h ∈ m.blocks, isHash h = true) "invalid hash"

theorem Manifest.validate_eq_ok {m : Manifest} : m.validate = .ok () ↔ m.size ≤ maxSize ∧
    m.blocks.length = (m.size + blockSize - 1) / blockSize ∧ isHash m.hash = true ∧ ∀ h ∈ m.blocks, isHash h = true := by
  rw [validate, ensure_bind_eq_ok, ensure_bind_eq_ok, ensure_eq_ok]

/-- The length of a block. -/
def blockLen (m : Manifest) (index : ℕ) : Result ℕ := do
  ensure (index < m.blocks.length) "block out of range"
  pure (min (m.size - index * blockSize) blockSize)

/-- A manifest as JSON. -/
def Manifest.toJson (m : Manifest) : Json :=
  .obj [("size", .num m.size), ("hash", .str m.hash), ("blocks", .arr (m.blocks.map .str))]

/-- A manifest as a JSON value in a document that is made of values: the members are in the order of their names. -/
def Manifest.toValue (m : Manifest) : Json :=
  .obj [("blocks", .arr (m.blocks.map .str)), ("hash", .str m.hash), ("size", .num m.size)]

/-- A string read from JSON. -/
def stringOfJson : Json → Option String
  | .str s => some s
  | _ => none

/-- A manifest read from JSON. -/
def Manifest.ofJson (j : Json) : Option Manifest := do
  let .obj members := j | none
  guard (∀ m ∈ members, m.1 ∈ ["size", "hash", "blocks"])
  let .num size ← j.get "size" | none
  let .str hash ← j.get "hash" | none
  let .arr items ← j.get "blocks" | none
  let blocks ← items.mapM stringOfJson
  pure ⟨size, hash, blocks⟩

theorem Manifest.depth_toJson (m : Manifest) : m.toJson.depth ≤ 2 ∧ m.toValue.depth ≤ 2 := by
  have hblocks : (Json.arr (m.blocks.map .str)).depth ≤ 1 := by
    refine Json.depth_arr_le.mpr fun j hj => ?_
    obtain ⟨b, -, rfl⟩ := List.mem_map.mp hj
    exact le_rfl
  constructor <;>
  · refine Json.depth_obj_le.mpr fun e he => ?_
    simp only [List.mem_cons, List.not_mem_nil, or_false] at he
    rcases he with rfl | rfl | rfl <;> first | exact hblocks | exact Nat.zero_le _

/-- What is going to be installed. -/
structure InstallIntent where
  /-- The directory in which the old file is kept. -/
  recoveryId : String
  /-- The old file. -/
  original : Manifest
  /-- The new file. -/
  incoming : Manifest
  deriving DecidableEq

/-- An intent as JSON. -/
def InstallIntent.toJson (i : InstallIntent) : Json :=
  .obj [("recovery_id", .str i.recoveryId), ("original", i.original.toJson), ("incoming", i.incoming.toJson)]

/-- An intent as a JSON value. -/
def InstallIntent.toValue (i : InstallIntent) : Json :=
  .obj [("incoming", i.incoming.toValue), ("original", i.original.toValue), ("recovery_id", .str i.recoveryId)]

/-- An intent read from JSON. -/
def InstallIntent.ofJson (j : Json) : Option InstallIntent := do
  let .obj members := j | none
  guard (∀ m ∈ members, m.1 ∈ ["recovery_id", "original", "incoming"])
  let .str recoveryId ← j.get "recovery_id" | none
  let original ← (j.get "original").bind Manifest.ofJson
  let incoming ← (j.get "incoming").bind Manifest.ofJson
  pure ⟨recoveryId, original, incoming⟩

/-- A file name as JSON. -/
def nameToJson (name : String) : Json := .obj [("Unix", .arr ((utf8 name).map fun b => .num b.toNat))]

/-- The record of an install in the directory of the old file. -/
def installRecord (name : String) (intent : InstallIntent) : Json :=
  .obj [("intent", intent.toValue), ("target", nameToJson name)]

theorem InstallIntent.depth_toJson (i : InstallIntent) : i.toJson.depth ≤ 3 ∧ i.toValue.depth ≤ 3 := by
  constructor <;>
  · refine Json.depth_obj_le.mpr fun e he => ?_
    simp only [List.mem_cons, List.not_mem_nil, or_false] at he
    rcases he with rfl | rfl | rfl <;>
      first | exact Nat.zero_le _ | exact (Manifest.depth_toJson _).1

theorem depth_installRecord (name : String) (intent : InstallIntent) :
    (installRecord name intent).depth ≤ Json.maxDepth := by
  have hname : (nameToJson name).depth ≤ 2 := by
    refine Json.depth_obj_le.mpr fun e he => ?_
    rw [List.mem_singleton.mp he]
    refine Json.depth_arr_le.mpr fun j hj => ?_
    obtain ⟨b, -, rfl⟩ := List.mem_map.mp hj
    exact le_rfl
  have hdepth : (installRecord name intent).depth ≤ 4 := by
    refine Json.depth_obj_le.mpr fun e he => ?_
    simp only [List.mem_cons, List.not_mem_nil, or_false] at he
    rcases he with rfl | rfl
    · exact intent.depth_toJson.2
    · exact hname.trans (by decide)
  exact hdepth.trans (by decide)

/-- The journal of a transfer. -/
structure Transfer where
  /-- The new file. -/
  manifest : Manifest
  /-- What was at the destination when the transfer began. -/
  original : Option Manifest
  deriving DecidableEq

/-- A journal as JSON. -/
def Transfer.toJson (t : Transfer) : Json :=
  .obj [("manifest", t.manifest.toJson), ("original", t.original.elim .null Manifest.toJson)]

theorem Transfer.depth_toJson (t : Transfer) : t.toJson.depth ≤ 3 := by
  refine Json.depth_obj_le.mpr fun e he => ?_
  simp only [List.mem_cons, List.not_mem_nil, or_false] at he
  rcases he with rfl | rfl
  · exact t.manifest.depth_toJson.1
  · cases h : t.original with
    | none => exact Nat.zero_le _
    | some m => exact m.depth_toJson.1

/-- A journal read from JSON. -/
def Transfer.ofJson (j : Json) : Option Transfer := do
  let .obj _ := j | none
  let manifest ← (j.get "manifest").bind Manifest.ofJson
  let original ← match j.get "original" with
    | none | some .null => some none
    | some m => (Manifest.ofJson m).map some
  pure ⟨manifest, original⟩

section

variable {σ : Type} [HasFiles σ] (P : Platform)

/-! ### Looking -/

/-- Whether a file is there. -/
def regular (path : FilePath) : Io σ Bool := do
  match ← Fallible.attempt (call (Files.metadata path)) with
  | .ok (.file _) => pure true
  | .ok _ => Fallible.fail (.message ("not a regular file: " ++ "/".intercalate path))
  | .error (.io .notFound) => pure false
  | .error e => Fallible.fail e

/-- The manifest of the file at a path. -/
def Manifest.fromPath (path : FilePath) : Io σ Manifest := do
  let there ← regular path
  ensure there "source missing"
  let file ← call (Files.openFile path)
  Manifest.fromFile P file

/-- The manifest of the file at a path, if there is one. -/
def snapshot (path : FilePath) : Io σ (Option Manifest) := do
  if ← regular path then do
    let m ← Manifest.fromPath P path
    pure (some m)
  else pure none

/-- Read a JSON file of limited length. -/
def readJson {α : Type} (ofJson : Json → Option α) (path : FilePath) : Io σ α := do
  let bytes ← call (Files.read path)
  match (Json.parse (bytes.take (160 * 1024 * 1024))).bind ofJson with
  | some a => pure a
  | none => Fallible.fail .json

/-- Make a directory of the program's own. -/
def privateDirectory (parent : FilePath) (name : String) : Io σ FilePath := do
  let path := parent ++ [name]
  match ← Fallible.attempt (call (Files.createDir path)) with
  | .ok () => sync parent
  | .error (.io .alreadyExists) => pure ()
  | .error e => Fallible.fail e
  let kind ← call (Files.metadata path)
  ensure (kind = .dir) "unsafe private history directory"
  sync path
  pure path

/-! ### Installing -/

/-- Record the intent and move the old file aside. -/
def prepareInstall (recoveryId : String) (target part intentPath : FilePath) (original incoming : Manifest) :
    Io σ FilePath := do
  let parent := target.dropLast
  let recovery ← privateDirectory parent ".everywhere-recovery"
  let directory := recovery ++ [recoveryId]
  call (Files.createDir directory)
  call (Files.link part (directory ++ ["incoming"]))
  let intent : InstallIntent := ⟨recoveryId, original, incoming⟩
  let record ← call (Files.createNew (directory ++ ["record.json"]))
  writeAll record (installRecord (target.getLast?.getD "") intent).render
  sync directory
  sync recovery
  let file ← call (Files.createNew intentPath)
  writeAll file intent.toJson.render
  sync parent
  let displaced := directory ++ ["previous"]
  call (Files.rename target displaced)
  sync directory
  sync parent
  pure displaced

/-- Undo the move of an install that did not come to its end. -/
def recoverInstall (target intentPath : FilePath) (incoming : Manifest) : Io σ Unit := do
  if ← regular intentPath then do
    let intent ← readJson InstallIntent.ofJson intentPath
    ensure (isHash intent.recoveryId = true) "invalid recovery identifier"
    ensure (intent.incoming = incoming) "install intent manifest mismatch"
    intent.original.validate
    let parent := target.dropLast
    let recovery ← privateDirectory parent ".everywhere-recovery"
    let directory := recovery ++ [intent.recoveryId]
    let kind ← call (Files.metadata directory)
    ensure (kind = .dir) "unsafe recovery entry"
    let displaced := directory ++ ["previous"]
    if !(← regular target) then do
      let there ← regular displaced
      ensure there "interrupted install has no recoverable original"
      match ← Fallible.attempt (call (Files.link displaced target)) with
      | .ok () => sync parent
      | .error (.io .alreadyExists) => pure ()
      | .error e => Fallible.fail e
    else pure ()
    let current ← snapshot P target
    ensure (current = some intent.original ∨ current = some incoming)
      ("local change during interrupted install; target and recovery files preserved at " ++ "/".intercalate directory)
    call (Files.removeFile intentPath)
    sync parent
  else pure ()

end

end Everywhere
