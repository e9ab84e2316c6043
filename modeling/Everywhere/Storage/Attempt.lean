import Everywhere.Storage.Exchange

/-!
# Attempts at one destination

All that `Receiver` does to one destination, call by call: `open_`, `missingFrom`, `put` and `finishChecked`. What
matters here is which names lead to the same file, so a `Place` holds the inodes and the names that the receiver
uses next to a destination, each under what it is derived from: the staging file, the journal and the intent of a
transfer by the hash of the content, what was moved aside by the identifier of its recovery directory. Other names
are not touched.

A call is a program of single steps, and may be stopped at any of them. A file is hashed in one step, and written byte by
byte. A document is torn until its last byte is written, and a torn document cannot be read (`Json.parse_truncated`).
The recovery identifier is an argument, as is what `authorize` answers, and an error of the system in the
publication; any other error of the system ends a call as a crash at that step does.
-/

namespace Everywhere

open Library

/-- A document on the disk. -/
inductive Document (α : Type) where
  /-- Not all of it is there. -/
  | torn
  /-- It is there. -/
  | whole (a : α)
  deriving DecidableEq

/-- Read a document. -/
def Document.read {α : Type} : Option (Document α) → Result α
  | none => .error (.io .notFound)
  | some .torn => .error .json
  | some (.whole a) => .ok a

/-- A directory in which a file is kept that was moved aside. -/
structure RecoveryDir where
  /-- The staging file. -/
  incoming : Option ℕ
  /-- The file. -/
  previous : Option ℕ
  deriving DecidableEq

/-- What is next to a destination. -/
structure Place where
  /-- The files. -/
  inode : ℕ → Bytes
  /-- The next file. -/
  fresh : ℕ
  /-- The destination. -/
  target : Option ℕ
  /-- The staging files. -/
  part : String → Option ℕ
  /-- The journals. -/
  journal : String → Option (Document Transfer)
  /-- The intents. -/
  intent : String → Option (Document InstallIntent)
  /-- The archive, by the hash of the content. -/
  version : String → Option Bytes
  /-- What was taken out of the archive because it was corrupt. -/
  quarantine : List Bytes
  /-- The recovery directories. -/
  recovery : String → Option RecoveryDir

/-- An open receiver. -/
structure Receiver where
  /-- The staging file. -/
  part : ℕ
  /-- What is received. -/
  manifest : Manifest
  /-- What was at the destination. -/
  original : Option Manifest
  /-- It has been published. -/
  finished : Bool

namespace Place

/-- A program on a place. -/
abbrev Io (α : Type) := Fallible Error Place α

/-- The bytes at the destination. -/
def shown (s : Place) : Option Bytes := s.target.map s.inode

/-- What was moved into a recovery directory. -/
def previous (s : Place) (recoveryId : String) : Option ℕ := (s.recovery recoveryId).bind RecoveryDir.previous

section

variable (P : Platform)

/-! ### Single steps -/

/-- A name is taken. -/
def taken {α : Type} (name : Place → Option α) : Io Bool := Fallible.look fun s => (name s).isSome

/-- The manifest of some bytes, if there are any. -/
def manifestOf : Option Bytes → Result (Option Manifest)
  | none => .ok none
  | some bytes =>
    if bytes.length ≤ maxSize then .ok (some (Manifest.ofBytes P bytes))
    else .error (.message "file exceeds 1 TiB alpha limit")

/-- The manifest of what is at a name, if there is something. -/
def snapshot (name : Place → Option Bytes) : Io (Option Manifest) :=
  Fallible.act fun s => (manifestOf P (name s), s)

/-- The manifest of what is at a name. -/
def fromPath (name : Place → Option Bytes) : Io Manifest := do
  match ← snapshot P name with
  | some m => pure m
  | none => Fallible.fail (.message "source missing")

/-- Write the contents of a file. -/
def setInode (i : ℕ) (bytes : Bytes) (s : Place) : Place := { s with inode := Function.update s.inode i bytes }

/-- Write to a file, from an offset. -/
def writeFrom (i : ℕ) : ℕ → Bytes → Io Unit
  | _, [] => pure ()
  | offset, b :: rest => do
    Fallible.act fun s => (.ok (), s.setInode i (writeAt (s.inode i) offset [b]))
    writeFrom i (offset + 1) rest

/-- Write into a recovery directory. -/
def setAside (recoveryId : String) (a : RecoveryDir) (s : Place) : Place :=
  { s with recovery := Function.update s.recovery recoveryId (some a) }

/-- Link a file to the destination. -/
def linkTarget (name : Place → Option ℕ) (s : Place) : Result Unit × Place :=
  match name s, s.target with
  | none, _ => (.error (.io .notFound), s)
  | some _, some _ => (.error (.io .alreadyExists), s)
  | some i, none => (.ok (), { s with target := some i })

/-- Remove an intent. -/
def removeIntent (hash : String) : Io Unit :=
  Fallible.act fun s => match s.intent hash with
    | none => (.error (.io .notFound), s)
    | some _ => (.ok (), { s with intent := Function.update s.intent hash none })

/-! ### Recovery -/

/-- Put back what was moved aside, if nothing is at the destination. -/
def restore (recoveryId : String) : Io Unit := do
  if ← taken Place.target then pure ()
  else do
    let there ← taken fun s => s.previous recoveryId
    ensure (there = true) "interrupted install has no recoverable original"
    match ← Fallible.attempt (Fallible.act (linkTarget fun s => s.previous recoveryId)) with
    | .ok () => pure ()
    | .error (.io .alreadyExists) => pure ()
    | .error e => Fallible.fail e

/-- Undo the move of an install that did not come to its end. -/
def undo (incoming : Manifest) : Io Unit := do
  let intent ← Fallible.act fun s => (Document.read (s.intent incoming.hash), s)
  ensure (isHash intent.recoveryId = true) "invalid recovery identifier"
  ensure (intent.incoming = incoming) "install intent manifest mismatch"
  intent.original.validate
  Fallible.act fun s => (if (s.recovery intent.recoveryId).isSome then .ok () else .error (.io .notFound), s)
  restore intent.recoveryId
  let current ← snapshot P shown
  ensure (current = some intent.original ∨ current = some incoming)
    ("local change during interrupted install; target and recovery files preserved at .everywhere-recovery/" ++
      intent.recoveryId)
  removeIntent incoming.hash

/-- Undo the move if there is an intent. -/
def recoverInstall (incoming : Manifest) : Io Unit := do
  if ← taken fun s => s.intent incoming.hash then undo P incoming else pure ()

/-! ### The receiver -/

/-- Write the journal of a new transfer. -/
def createJournal (t : Transfer) : Io Unit := do
  Fallible.act fun s => match s.journal t.manifest.hash with
    | some _ => (.error (.io .alreadyExists), s)
    | none => (.ok (), { s with journal := Function.update s.journal t.manifest.hash (some .torn) })
  Fallible.act fun s =>
    (.ok (), { s with journal := Function.update s.journal t.manifest.hash (some (.whole t)) })

/-- Go on with a transfer, or begin it. -/
def resume (m : Manifest) (original : Option Manifest) : Io Unit := do
  if ← taken fun s => s.journal m.hash then do
    let journal ← Fallible.act fun s => (Document.read (s.journal m.hash), s)
    ensure (journal.manifest = m) "resume manifest mismatch"
    ensure (journal.original = original ∨ original = some m) "target changed while offline; resume blocked"
  else do
    let left ← taken fun s => s.part m.hash
    ensure (left = false) "partial data has no recovery journal"
    createJournal ⟨m, original⟩

/-- Open the staging file, and make it if it is not there. -/
def openPart (hash : String) : Io ℕ :=
  Fallible.act fun s => match s.part hash with
    | some i => (.ok i, s)
    | none => (.ok s.fresh, { s with
        inode := Function.update s.inode s.fresh []
        fresh := s.fresh + 1
        part := Function.update s.part hash (some s.fresh) })

/-- Open a receiver. -/
def open_ (m : Manifest) : Io Receiver := do
  m.validate
  recoverInstall P m
  let original ← snapshot P shown
  resume m original
  let part ← openPart m.hash
  let length ← Fallible.look fun s => (s.inode part).length
  ensure (length ≤ m.size) "partial file larger than manifest"
  pure ⟨part, m, original, false⟩

/-- Receive a block. -/
def put (r : Receiver) (index : ℕ) (data : Bytes) : Io Unit := do
  ensure (r.finished = false) "receiver already complete"
  let len ← blockLen r.manifest index
  ensure (data.length = len) "block length mismatch"
  ensure (r.manifest.blocks[index]? = some (P.blake3 data)) "block hash mismatch"
  writeFrom r.part (index * blockSize) data

/-- The block of the destination, or of another file if there is no destination, if it is the one of the manifest. -/
def reusable (m : Manifest) (file : Option ℕ) (basis : Option Bytes) (index : ℕ) (s : Place) : Option Bytes :=
  (file.elim basis fun i => some (s.inode i)).bind fun bytes => validBlock P m bytes index

/-- Go through some blocks: those that are not in the staging file are reused, or are missing. -/
def missingBlocks (r : Receiver) (file : Option ℕ) (basis : Option Bytes) : List ℕ → Io (List ℕ)
  | [] => pure []
  | index :: rest => do
    match ← Fallible.look fun s => validBlock P r.manifest (s.inode r.part) index with
    | some _ => missingBlocks r file basis rest
    | none => do
      match ← Fallible.look (reusable P r.manifest file basis index) with
      | some data => do
        put P r index data
        missingBlocks r file basis rest
      | none => do
        let missing ← missingBlocks r file basis rest
        pure (index :: missing)

/-- The blocks that are missing. -/
def missingFrom (r : Receiver) (basis : Option Bytes) : Io (List ℕ) := do
  let file ← Fallible.look Place.target
  missingBlocks P r file basis (List.range r.manifest.blocks.length)

/-! ### The archive -/

/-- Take a corrupt version out of the archive. -/
def retire (old : Manifest) : Io Unit := do
  let kept ← snapshot P fun s => s.version old.hash
  if kept.isSome ∧ kept ≠ some old then
    Fallible.act fun s => (.ok (), { s with
      version := Function.update s.version old.hash none
      quarantine := (s.version old.hash).toList ++ s.quarantine })
  else pure ()

/-- Write a version to its end. -/
def writeVersion (hash : String) : Bytes → Io Unit
  | [] => pure ()
  | b :: rest => do
    Fallible.act fun s =>
      (.ok (), { s with version := Function.update s.version hash ((s.version hash).map (· ++ [b])) })
    writeVersion hash rest

/-- Copy what is at the destination to the archive. -/
def saveVersion (old : Manifest) : Io Unit := do
  retire P old
  if ← taken fun s => s.version old.hash then pure ()
  else do
    let input ← Fallible.act fun s => (s.target.elim (.error (.io .notFound)) .ok, s)
    Fallible.act fun s => (.ok (), { s with version := Function.update s.version old.hash (some []) })
    let bytes ← Fallible.look fun s => s.inode input
    writeVersion old.hash bytes
    let saved ← fromPath P fun s => s.version old.hash
    ensure (saved = old) "target changed while saving version"

/-- Copy what is at the destination to the archive, if there is something. -/
def archive : Option Manifest → Io Unit
  | none => pure ()
  | some old => saveVersion P old

/-! ### Installing -/

/-- Write the intent of an install. -/
def createIntent (intent : InstallIntent) : Io Unit := do
  Fallible.act fun s => match s.intent intent.incoming.hash with
    | some _ => (.error (.io .alreadyExists), s)
    | none => (.ok (), { s with intent := Function.update s.intent intent.incoming.hash (some .torn) })
  Fallible.act fun s =>
    (.ok (), { s with intent := Function.update s.intent intent.incoming.hash (some (.whole intent)) })

/-- Record the intent and move the old file aside. -/
def prepareInstall (recoveryId : String) (original incoming : Manifest) : Io Unit := do
  Fallible.act fun s => match s.recovery recoveryId with
    | some _ => (.error (.io .alreadyExists), s)
    | none => (.ok (), s.setAside recoveryId ⟨none, none⟩)
  Fallible.act fun s => match s.part incoming.hash with
    | none => (.error (.io .notFound), s)
    | some i => (.ok (), s.setAside recoveryId ⟨some i, none⟩)
  createIntent ⟨recoveryId, original, incoming⟩
  Fallible.act fun s => match s.target with
    | none => (.error (.io .notFound), s)
    | some i => (.ok (), { s.setAside recoveryId ⟨(s.recovery recoveryId).bind RecoveryDir.incoming, some i⟩ with target := none })

/-- Move the old file aside, and put it back if it is another one. -/
def displace (recoveryId : String) (incoming : Manifest) : Option Manifest → Io Unit
  | none => pure ()
  | some old => do
    prepareInstall recoveryId old incoming
    let displaced ← snapshot P fun s => (s.previous recoveryId).map s.inode
    if displaced = some old then pure ()
    else do
      let _ ← Fallible.attempt (Fallible.act (linkTarget fun s => s.previous recoveryId))
      Fallible.fail (.message
        ("target changed at install; local content preserved at .everywhere-recovery/" ++ recoveryId ++ "/previous"))

/-- Give the staging file its name. The system may refuse. -/
def publish (r : Receiver) (refused : Option IoError) : Io Unit := do
  match ← Fallible.attempt (Fallible.act fun s =>
      refused.elim (linkTarget (fun s => s.part r.manifest.hash) s) fun e => (.error (.io e), s)) with
  | .ok () => pure ()
  | .error _ => do
    if r.original.isSome then do
      let _ ← Fallible.attempt (recoverInstall P r.manifest)
    else pure ()
    Fallible.fail (.message "could not publish destination; all versions preserved")

/-- Remove the name of a staging file. -/
def removePart (hash : String) : Io Unit :=
  Fallible.act fun s => match s.part hash with
    | none => (.error (.io .notFound), s)
    | some _ => (.ok (), { s with part := Function.update s.part hash none })

/-- Remove a journal. -/
def removeJournal (hash : String) : Io Unit :=
  Fallible.act fun s => match s.journal hash with
    | none => (.error (.io .notFound), s)
    | some _ => (.ok (), { s with journal := Function.update s.journal hash none })

/-- Remove what is no longer needed. -/
def cleanUp (hash : String) : Io Unit := do
  if ← taken fun s => s.intent hash then removeIntent hash else pure ()
  removePart hash
  removeJournal hash

/-- Publish what was received. -/
def finishChecked (r : Receiver) (recoveryId : String) (authorize : Result Unit) (refused : Option IoError) :
    Io Receiver := do
  ensure (r.finished = false) "receiver already complete"
  recoverInstall P r.manifest
  let received ← fromPath P fun s => (s.part r.manifest.hash).map s.inode
  ensure (received = r.manifest) "incomplete or corrupt transfer"
  let current ← snapshot P shown
  ensure (current = r.original) "target changed during transfer; local content preserved"
  archive P r.original
  let current ← snapshot P shown
  ensure (current = r.original) "target changed before install"
  authorize
  displace P recoveryId r.manifest r.original
  publish P r refused
  cleanUp r.manifest.hash
  pure { r with finished := true }

end

end Place

end Everywhere
