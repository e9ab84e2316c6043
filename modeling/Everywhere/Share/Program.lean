import Everywhere.Folder.Root
import Everywhere.Share.Index
import Everywhere.Storage.Receiver

/-!
# The share

A share is a folder, its index and the objects, which are copies of the contents of all files by their hash.
The functions of this module are the program's: `scan` looks for local changes, a `session` with a peer
exchanges version sets and the objects that they name and brings the folder to the merged ones
(`commitIncoming`), `choose` and `approveDeletion` carry out decisions of the user.

A step is a system call on the folder, one on the objects, a transaction of the index, or the sending or reading of a
message. The index and the objects are locked: only the running program changes them. So an object, which
gets its name when it is complete, appears in one step. The folder, what the peer sends and the list of approved
peers change at will. What a peer sends is a value of some type `β` with functions that read from it (`Wire`):
bytes, or the messages of a peer that follows the protocol. The heartbeats, the time limits
and the checks of the certificates are the transport's and are left out.
-/

namespace Everywhere

open Library

/-! ### Messages -/

/-- What a share says of itself at the start of a session. -/
structure Hello where
  /-- The folder. -/
  folder : String
  /-- The generation of the index. -/
  epoch : String
  /-- The number of the last change. -/
  sequence : ℕ
  /-- The generation of the peer's index that is known here. -/
  seenEpoch : String
  /-- How many of its changes are known. -/
  seenSequence : ℕ
  /-- Which way changes flow. -/
  mode : Mode
  deriving DecidableEq

/-- A message about the index. -/
inductive Metadata where
  /-- Some records. -/
  | page (records : List Record)
  /-- There are no more. -/
  | end_
  deriving DecidableEq

/-- A message that a share sends. -/
inductive Message where
  /-- The start of a session. -/
  | hello (h : Hello)
  /-- Records of the index, or their end. -/
  | metadata (m : Metadata)
  /-- The objects that are wanted. -/
  | objects (hashes : List String)
  /-- What is known of an object. -/
  | manifest (m : Manifest)
  /-- The blocks of it that are wanted. -/
  | wanted (blocks : List ℕ)
  /-- A block. -/
  | block (index : ℕ) (bytes : Bytes)
  /-- A block has arrived. -/
  | received (index : ℕ)
  /-- The end of a step of the protocol. -/
  | text (text : String)
  deriving DecidableEq

/-- How messages are read from what the peer has sent. -/
structure Wire (β : Type) where
  /-- The start of a session. -/
  hello : β → Result Hello × β
  /-- Records of the index, or their end. -/
  metadata : β → Result Metadata × β
  /-- The objects that the peer wants. -/
  objects : β → Result (List String) × β
  /-- What the peer knows of an object. -/
  manifest : β → Result Manifest × β
  /-- The blocks of it that the peer wants. -/
  wanted : β → Result (List ℕ) × β
  /-- A block of a given length, with its number. -/
  block : ℕ → β → Result (ℕ × Bytes) × β
  /-- The number of a block that has arrived. -/
  received : β → Result ℕ × β
  /-- The end of a step of the protocol. -/
  text : β → Result String × β

/-- The messages that a peer has sent so far, and how many of them are read. -/
structure Mail where
  /-- The messages. -/
  log : List Message
  /-- The number of those read. -/
  pos : ℕ
  deriving DecidableEq

/-- Read the next message, if it is of the kind that is expected. -/
def Mail.next {α : Type} (expect : Message → Option α) (m : Mail) : Result α × Mail :=
  match m.log[m.pos]? with
  | none => (.error (.io .unexpectedEof), m)
  | some message => match expect message with
    | some a => (.ok a, { m with pos := m.pos + 1 })
    | none => (.error (.message "unexpected message"), m)

/-- How messages are read from the list of them. -/
def mail : Wire Mail where
  hello := Mail.next fun | .hello h => some h | _ => none
  metadata := Mail.next fun | .metadata m => some m | _ => none
  objects := Mail.next fun | .objects hashes => some hashes | _ => none
  manifest := Mail.next fun | .manifest m => some m | _ => none
  wanted := Mail.next fun | .wanted blocks => some blocks | _ => none
  block len := Mail.next fun
    | .block index bytes => if bytes.length = len then some (index, bytes) else none
    | _ => none
  received := Mail.next fun | .received index => some index | _ => none
  text := Mail.next fun | .text text => some text | _ => none

/-- The hash of 32 zeros on the sample platform. -/
def zeroHash : String := String.ofList (List.replicate 64 '0')

/-! ### The state -/

/-- The configuration of a share. -/
structure Config where
  /-- The name of the folder. -/
  id : String
  /-- The device. -/
  identity : String
  /-- The generation of the index. -/
  epoch : String
  /-- What stands in the marker of the folder. -/
  marker : String
  /-- Which way changes flow. -/
  mode : Mode
  /-- The approved peers. -/
  peers : List String
  deriving DecidableEq

/-- A share, with the connection of the running session. -/
structure Share (β : Type) where
  /-- The folder. -/
  files : Files
  /-- The configured path leads to the folder. -/
  mounted : Bool
  /-- The copies of the contents, by hash. -/
  objects : Std.ExtTreeMap String Bytes
  /-- The index. -/
  index : Index
  /-- What the running scan has seen. -/
  seen : Std.ExtTreeMap String Content
  /-- The configuration. -/
  config : Config
  /-- The random identifiers to come. -/
  random : ℕ → String
  /-- What the peer has sent and is not read. -/
  input : β
  /-- What was sent to the peer. -/
  output : List Message

instance {β : Type} : HasFiles (Share β) where
  files := Share.files
  setFiles f s := { s with files := f }
  files_setFiles _ _ := rfl
  setFiles_files _ := rfl
  setFiles_setFiles _ _ _ := rfl

/-- The name under which a share makes its changes. -/
def Config.replica (c : Config) : String := c.identity ++ ":" ++ String.ofList (c.epoch.toList.take 16)

/-- The blocks of some bytes. -/
def blocksOf (bytes : Bytes) : List Bytes :=
  (List.range ((bytes.length + blockSize - 1) / blockSize)).map fun k => (bytes.drop (k * blockSize)).take blockSize

/-- The manifest of some bytes. -/
def Manifest.ofBytes (P : Platform) (bytes : Bytes) : Manifest :=
  ⟨bytes.length, P.blake3 bytes, (blocksOf bytes).map P.blake3⟩

namespace Share

variable {β : Type} (P : Platform) (W : Wire β)

/-- A transaction of the index. -/
def transaction (f : Index → Result Index) : Io (Share β) Unit :=
  Fallible.act fun s => match f s.index with
    | .ok i => (.ok (), { s with index := i })
    | .error e => (.error e, s)

/-- A random identifier. -/
def randomId : Io (Share β) String :=
  Fallible.act fun s => (.ok (s.random 0), { s with random := fun n => s.random (n + 1) })

/-- Send a message. -/
def send (m : Message) : Io (Share β) Unit := Fallible.act fun s => (.ok (), { s with output := s.output ++ [m] })

/-- Read a message. -/
def read {α : Type} (f : β → Result α × β) : Io (Share β) α :=
  Fallible.act fun s => ((f s.input).1, { s with input := (f s.input).2 })

/-- The configuration allows what a peer is about to do. -/
def authorize (peer : String) (writing : Bool) : Io (Share β) Unit := do
  let config ← Fallible.look fun s : Share β => s.config
  ensure (peer ∈ config.peers) "peer is not approved for this share"
  ensure (writing = false ∨ config.mode ≠ .sendOnly) "share is send-only"

/-- The folder is the one that belongs to the share. -/
def checkRoot : Io (Share β) Unit := do
  let mounted ← Fallible.look fun s : Share β => s.mounted
  ensure (mounted = true) "share root directory changed during this session; reconnect to reopen it"
  let kind ← call (Files.metadata [".everywhere-folder"])
  ensure (kind.isFile = true) "share marker unavailable"
  let marker ← call (Files.read [".everywhere-folder"])
  let config ← Fallible.look fun s : Share β => s.config
  ensure (marker = utf8 config.marker) "share mount identity changed; synchronization paused"

/-- Open the share. -/
def open_ : Io (Share β) Unit := do
  let (index, config) ← Fallible.look fun s : Share β => (s.index, s.config)
  ensure (index.epoch = config.epoch) "share index epoch mismatch"
  checkRoot
  Root.recover P

/-! ### Objects -/

/-- The identifier of an object is one. -/
def objectPath (hash : String) : Result String := do
  ensure (isHash hash = true) "invalid object identifier"
  pure hash

/-- Read an object. -/
def readObject (hash : String) : Io (Share β) Bytes := do
  let bytes ← Fallible.look fun s : Share β => s.objects[hash]?
  match bytes with
  | some bytes => pure bytes
  | none => Fallible.fail (.io .notFound)

/-- The manifest of an object. -/
def objectManifest (hash : String) : Io (Share β) Manifest := do
  let bytes ← readObject hash
  ensure (bytes.length ≤ maxSize) "file exceeds 1 TiB alpha limit"
  pure (Manifest.ofBytes P bytes)

/-- Give an object its name. -/
def createObject (hash : String) (bytes : Bytes) : Io (Share β) Unit :=
  Fallible.act fun s => match s.objects[hash]? with
    | some _ => (.error (.io .alreadyExists), s)
    | none => (.ok (), { s with objects := s.objects.insert hash bytes })

/-- Make an object of a file. -/
def capture (path : String) : Io (Share β) Content := do
  let file ← Root.file path
  let manifest ← Manifest.fromFile P file
  let object ← objectPath manifest.hash
  match ← Fallible.look fun s : Share β => s.objects[object]? with
  | some _ => do
    let cached ← objectManifest P object
    ensure (cached.hash = manifest.hash) "content cache corrupted"
  | none => do
    let input ← Root.file path
    let bytes ← call fun fs => (.ok (fs.inode input).bytes, fs)
    ensure (Manifest.ofBytes P bytes = manifest) "source changed while capturing content"
    createObject object bytes
  pure (.file manifest.hash)

/-! ### Scanning -/

/-- Take note of a path that was seen. -/
def recordSeen (path : String) (content : Content) : Io (Share β) Unit :=
  Fallible.act fun s =>
    if ∀ other ∈ s.seen.keys, collisionKey P other ≠ collisionKey P path then
      (.ok (), { s with seen := s.seen.insert path content })
    else (.error (.message "cannot record scanned path; check case/Unicode aliases and free space"), s)

/-- Look for local changes, when there is nothing to recover. -/
def scanVisible (approveDeletes : Bool) : Io (Share β) ScanReport := do
  Fallible.act fun s => (.ok (), { s with seen := ∅ })
  Root.visit fun path isDir => do
    let content ← if isDir then pure Content.directory else capture P path
    recordSeen P path content
  checkRoot
  let (config, index, seen) ← Fallible.look fun s : Share β => (s.config, s.index, s.seen)
  let (index', report) ← index.scan P config.replica approveDeletes seen
  checkRoot
  transaction fun _ => .ok index'
  pure report

/-- Look for local changes. -/
def scanInner (approveDeletes : Bool) : Io (Share β) ScanReport := do
  checkRoot
  Root.recover P
  scanVisible P approveDeletes

/-- The index was restored and awaits a peer. -/
def recoveryPending : Io (Share β) Bool := Fallible.look fun s => s.index.recoveryPending

/-- Look for local changes, unless the index awaits a peer. -/
def scan (approveDeletes : Bool) : Io (Share β) ScanReport := do
  let pending ← recoveryPending
  ensure (pending = false)
    "restored state awaits full reconciliation with an approved peer; connect before scanning or approving deletions"
  scanInner P approveDeletes

/-! ### Taking in -/

/-- Start to take in what a peer sends. -/
def beginIncoming : Io (Share β) Unit := transaction fun i => .ok i.beginIncoming

/-- Take in records. -/
def stage (peer : String) (records : List Record) : Io (Share β) Unit := do
  authorize peer true
  ensure (records.length ≤ 256) "metadata page too large"
  let objects ← Fallible.look fun s : Share β => s.objects
  transaction fun i => i.stage P (fun hash => hash ∈ objects) records

/-- Some of the objects that are to be fetched. -/
def missingObjects (limit : ℕ) : Io (Share β) (List String) := do
  ensure (limit ≤ 64) "object request page too large"
  Fallible.look fun s => s.index.needed.toList.take limit

/-- An object has been fetched. -/
def objectReceived (hash : String) : Io (Share β) Unit := do
  let object ← objectPath hash
  let manifest ← objectManifest P object
  ensure (manifest.hash = hash) "received object hash mismatch"
  transaction fun i => .ok { i with needed := i.needed.erase hash }

/-- Bring a path to its version set. -/
def applyLocal (path : String) (l : Row) : Io (Share β) Unit := do
  let selected ← match l.versions.selected P with
    | some r => pure r.content
    | none => Fallible.fail (.message "empty version set")
  let object ← match Index.object selected with
    | some hash => do
      let object ← objectPath hash
      pure (some object)
    | none => pure none
  checkRoot
  let id ← randomId
  Root.apply P id path l.materialized selected (object.map readObject)
  transaction fun i => i.applied P path l.versions selected

/-- Bring some paths to their version sets. -/
def applyPage (peer : String) (paths : List String) : Io (Share β) Unit :=
  paths.forM fun path => do
    match ← Fallible.look fun s : Share β => s.index.entries[path]? with
    | some l => do
      authorize peer true
      applyLocal P path l
    | none => pure ()

/-- A turn of the loop that brings all paths to their version sets, a page at a time. -/
def applyTurn (peer : String) (again : Io (Share β) Unit) : Io (Share β) Unit := do
  let paths ← Fallible.look fun s : Share β => s.index.candidates.take 256
  if paths = [] then pure ()
  else do
    applyPage P peer paths
    again

/-- Bring all paths to their version sets. Each page that succeeds leaves fewer of them. -/
def applyPages (peer : String) : ℕ → Io (Share β) Unit
  | 0 => Fallible.fail (.message "unfinished application")
  | fuel + 1 => applyTurn P peer (applyPages peer fuel)

/-- Bring all paths to their version sets. -/
def applyPending (peer : String) : Io (Share β) Unit := do
  let n ← Fallible.look fun s : Share β => s.index.candidates.length
  applyPages P peer (n + 1)

/-- Merge what was taken in. -/
def joinStaged : Io (Share β) Unit := transaction fun i => i.joinIncoming P

/-- Merge what was taken in, and bring the folder to the result. -/
def commitIncoming (peer : String) : Io (Share β) Unit := do
  authorize peer true
  checkRoot
  let missing ← missingObjects 1
  ensure (missing = []) "content objects are still missing"
  -- changes made meanwhile are captured before the merge, and stay concurrent with the peer's
  let recovering ← recoveryPending
  if recovering then pure ()
  else do
    let _ ← scan P false
    pure ()
  joinStaged P
  if recovering then do
    let _ ← scanInner P false
    pure ()
  else pure ()
  applyPending P peer
  if recovering then transaction fun i => .ok { i with recoveryPending := false }
  else pure ()

/-! ### Sessions -/

/-- Send the records that the peer does not know, a page at a time. -/
def sendPages (peer : String) (ceiling : ℕ) : ℕ → ℕ → Io (Share β) Unit
  | 0, _ => pure ()
  | fuel + 1, since => do
    authorize peer false
    let page ← Fallible.look fun s : Share β => s.index.records since ceiling 32
    match page.getLast? with
    | none => pure ()
    | some last => do
      send (.metadata (.page page))
      sendPages peer ceiling fuel last.seq

/-- Send the records that the peer does not know. -/
def sendMetadata (peer : String) (mine theirs : Hello) : Io (Share β) Unit := do
  if mine.mode ≠ .receiveOnly ∧ theirs.mode ≠ .sendOnly then do
    let since := if theirs.seenEpoch = mine.epoch then theirs.seenSequence else 0
    ensure (since ≤ mine.sequence) "peer cursor exceeds local sequence; index rollback requires a new epoch"
    sendPages peer mine.sequence (mine.sequence + 1 - since) since
  else pure ()
  send (.metadata .end_)

/-- The numbers of records increase, from one after the first number to at most the second. -/
def ordered (ceiling : ℕ) : ℕ → List Record → Bool
  | _, [] => true
  | last, r :: rs => decide (last < r.seq ∧ r.seq ≤ ceiling) && ordered ceiling r.seq rs

/-- A turn of the loop that takes in the records that the peer sends, a page at a time. -/
def readTurn (peer : String) (theirs : Hello) (again : ℕ → Io (Share β) Unit) (last : ℕ) : Io (Share β) Unit := do
  authorize peer false
  match ← read W.metadata with
  | .end_ => pure ()
  | .page page => do
    ensure (page ≠ [] ∧ page.length ≤ 32) "invalid metadata page"
    ensure (ordered theirs.sequence last page = true) "unordered metadata sequence"
    stage P peer page
    again ((page.getLast?.elim last) fun r => r.seq)

/-- Take in the records that the peer sends. Each page raises the number of the last record. -/
def readPages (peer : String) (theirs : Hello) : ℕ → ℕ → Io (Share β) Unit
  | 0 => fun _ => Fallible.fail (.message "unordered metadata sequence")
  | fuel + 1 => readTurn P W peer theirs (readPages peer theirs fuel)

/-- Take in the records that the peer sends. -/
def readMetadata (peer : String) (theirs : Hello) : Io (Share β) Unit :=
  readPages P W peer theirs (theirs.sequence + 1) 0

/-- An object of which the blocks of the wanted one may be taken. -/
def basisObject (hash : String) : Io (Share β) (Option String) := do
  let _ ← objectPath hash
  Fallible.look fun s => s.index.incoming.toList.findSome? fun e =>
    if ∃ r ∈ e.2.heads, r.content = .file hash then
      (s.index.entries[e.1]?.bind fun l => l.materialized).bind Index.object
    else none

/-- Fetch the blocks of an object that are wanted. -/
def fetchBlocks (peer : String) (manifest : Manifest) : List ℕ → Io (Share β) (List (ℕ × Bytes))
  | [] => pure []
  | index :: rest => do
    authorize peer true
    let len ← blockLen manifest index
    let (received, bytes) ← read (W.block len)
    ensure (received = index) "unexpected object block"
    ensure (manifest.blocks[index]? = some (P.blake3 bytes)) "block hash mismatch"
    send (.received index)
    let blocks ← fetchBlocks peer manifest rest
    pure ((index, bytes) :: blocks)

/-- Fetch an object. Blocks are taken from another object where their hashes agree. -/
def receiveObject (peer hash : String) (basis : Option String) : Io (Share β) Unit := do
  let manifest ← read W.manifest
  manifest.validate
  ensure (manifest.hash = hash) "unrequested content object"
  authorize peer true
  let known ← Fallible.look fun s : Share β => (basis.bind fun b => s.objects[b]?).elim [] blocksOf
  let missing := (List.range manifest.blocks.length).filter fun k =>
    (known[k]?).map P.blake3 ≠ manifest.blocks[k]?
  send (.wanted missing)
  let blocks ← fetchBlocks P W peer manifest missing
  let commit ← read W.text
  ensure (commit = "commit") "uncommitted content object"
  let bytes := (List.range manifest.blocks.length).flatMap fun k =>
    ((blocks.lookup k).orElse fun _ => known[k]?).getD []
  ensure (Manifest.ofBytes P bytes = manifest) "final hash mismatch"
  authorize peer true
  -- what has the name is moved to the archive
  Fallible.act fun s => (.ok (), { s with objects := s.objects.insert hash bytes })
  send (.text "complete")

/-- Fetch objects. -/
def pullPage (peer : String) (missing : List String) : Io (Share β) Unit :=
  missing.forM fun hash => do
    let basis ← basisObject hash
    receiveObject P W peer hash basis
    objectReceived P hash

/-- A turn of the loop that fetches the objects that are missing, a page at a time. -/
def pullTurn (peer : String) (again : Io (Share β) Unit) : Io (Share β) Unit := do
  let missing ← missingObjects 16
  send (.objects missing)
  if missing = [] then pure ()
  else do
    pullPage P W peer missing
    again

/-- Fetch the objects that are missing. Each page that succeeds leaves fewer of them. -/
def pullPages (peer : String) : ℕ → Io (Share β) Unit
  | 0 => Fallible.fail (.message "unfinished transfer")
  | fuel + 1 => pullTurn P W peer (pullPages peer fuel)

/-- Fetch the objects that are missing. -/
def pullObjects (peer : String) : Io (Share β) Unit := do
  let n ← Fallible.look fun s : Share β => s.index.needed.size
  pullPages P W peer (n + 1)

/-- Send the blocks of an object that the peer wants. -/
def sendBlocks (peer : String) (manifest : Manifest) (object : String) (missing : List ℕ) : Io (Share β) Unit :=
  missing.forM fun index => do
    authorize peer false
    let _ ← blockLen manifest index
    let bytes ← readObject object
    let block := (bytes.drop (index * blockSize)).take blockSize
    ensure (manifest.blocks[index]? = some (P.blake3 block)) "source changed during transfer"
    send (.block index block)
    let acknowledged ← read W.received
    authorize peer false
    ensure (acknowledged = index) "unexpected acknowledgement"

/-- Send an object. -/
def sendObject (peer hash : String) : Io (Share β) Unit := do
  let object ← objectPath hash
  authorize peer false
  let manifest ← objectManifest P object
  ensure (manifest.hash = hash) "shared content object is corrupt"
  send (.manifest manifest)
  let missing ← read W.wanted
  ensure (missing.length ≤ manifest.blocks.length ∧ missing.Pairwise (· < ·)) "invalid block request"
  sendBlocks P W peer manifest object missing
  let again ← objectManifest P object
  ensure (again = manifest) "shared object changed during transfer"
  authorize peer false
  send (.text "commit")
  let result ← read W.text
  ensure (result = "complete") "object receiver did not complete"

/-- Send the objects that the peer asks for, for a number of rounds. -/
def serveObjects (peer : String) : ℕ → Io (Share β) Unit
  | 0 => Fallible.fail (.message "connection closed")
  | rounds + 1 => do
    let requested ← read W.objects
    ensure (requested.length ≤ 16) "too many requested objects"
    if requested = [] then pure ()
    else do
      let config ← Fallible.look fun s : Share β => s.config
      ensure (config.mode ≠ .receiveOnly) "receive-only share cannot export content objects"
      requested.forM fun hash => do
        authorize peer false
        sendObject P W peer hash
      serveObjects peer rounds

/-- Open the share for a session. -/
def opening (peer : String) : Io (Share β) Unit := do
  authorize peer false
  open_ P
  authorize peer false
  let pending ← recoveryPending
  if pending then pure ()
  else do
    let _ ← scan P false
    pure ()
  beginIncoming

/-- What the share says of itself to a peer. -/
def greeting (peer : String) (s : Share β) : Hello :=
  ⟨s.config.id, s.config.epoch, s.index.seq, (s.index.cursor peer).1, (s.index.cursor peer).2, s.config.mode⟩

/-- The first messages of both sides. -/
def handshake (peer : String) : Io (Share β) (Hello × Hello) := do
  let mine ← Fallible.look (greeting peer)
  send (.hello mine)
  let theirs ← read W.hello
  ensure (theirs.folder = mine.folder ∧ theirs.epoch.utf8ByteSize = 64 ∧ theirs.sequence ≤ i64Max)
    "invalid share handshake"
  let pending ← recoveryPending
  ensure (pending = false ∨ theirs.mode ≠ .receiveOnly)
    "state recovery requires a peer permitted to export full folder metadata"
  pure (mine, theirs)

/-- Exchange version sets and objects. -/
def transfer (peer : String) (client : Bool) (rounds : ℕ) (mine theirs : Hello) : Io (Share β) Unit :=
  if client then do
    sendMetadata peer mine theirs
    readMetadata P W peer theirs
    serveObjects P W peer rounds
    pullObjects P W peer
  else do
    readMetadata P W peer theirs
    sendMetadata peer mine theirs
    pullObjects P W peer
    serveObjects P W peer rounds

/-- Bring the folder to the merged version sets, and remember how far the peer is known. -/
def conclude (peer : String) (theirs : Hello) : Io (Share β) Unit := do
  let config ← Fallible.look fun s : Share β => s.config
  if config.mode ≠ .sendOnly then commitIncoming P peer else pure ()
  authorize peer false
  send (.text "applied")
  let applied ← read W.text
  ensure (applied = "applied") "peer did not apply changes"
  transaction fun i => .ok (i.setCursor peer theirs.epoch theirs.sequence)

/-- What follows when the share is open. -/
def exchange (peer : String) (client : Bool) (rounds : ℕ) : Io (Share β) Unit := do
  let (mine, theirs) ← handshake W peer
  transfer P W peer client rounds mine theirs
  conclude P W peer theirs

/-- A session with a peer. -/
def session (peer : String) (client : Bool) (rounds : ℕ) : Io (Share β) Unit := do
  opening P peer
  exchange P W peer client rounds

/-! ### Decisions -/

/-- Find the revision that was chosen: among those kept, or among the heads. -/
def findRevision (path revision : String) (historical : Bool) (l : Row) : Io (Share β) Revision :=
  if historical then do
    let kept ← Fallible.look fun s : Share β => s.index.history.find? fun e => e.path = path ∧ e.id = revision
    match kept with
    | some e => pure e.revision
    | none => Fallible.fail (.message "unknown historical revision")
  else match l.versions.heads.find? fun r => r.id P = revision with
    | some r => pure r
    | none => Fallible.fail (.message "revision is no longer a current conflict head")

/-- The row of a path. -/
def local_ (path text : String) : Io (Share β) Row := do
  match ← Fallible.look fun s : Share β => s.index.entries[path]? with
  | some l => pure l
  | none => Fallible.fail (.message text)

/-- Resolve a path to a revision that was chosen. -/
def choose (path revision : String) (historical : Bool) : Io (Share β) Unit := do
  validatePath path
  let _ ← scan P false
  let l ← local_ path "unknown path"
  let chosen ← findRevision P path revision historical l
  match Index.object chosen.content with
  | some hash => do
    let object ← objectPath hash
    let manifest ← objectManifest P object
    ensure (manifest.hash = hash) "historical content is corrupt"
  | none => pure ()
  let config ← Fallible.look fun s : Share β => s.config
  let versions ← l.versions.edit P config.replica chosen.content
  let actual ← Root.content P path
  transaction fun i => i.choose P path versions actual l.observed
  let l ← local_ path "unknown path"
  applyLocal P path l

/-- Record that the user approved a deletion after having seen a version set. -/
def approveDeletion (path : String) (expected : Versions) : Io (Share β) Unit := do
  validatePath path
  let _ ← scan P false
  let l ← local_ path "unknown deletion path"
  let pending ← Fallible.look fun s : Share β => s.index.pending
  ensure (path ∈ pending ∧ l.versions = expected) "deletion review is stale; review the current state again"
  checkRoot
  let actual ← Root.content P path
  ensure (actual = none) "local path reappeared after deletion review"
  let config ← Fallible.look fun s : Share β => s.config
  transaction fun i => i.approve P config.replica path l

/-- Give a recovered share its former mode. -/
def activateDevice (mode : Mode) (offline : Bool) : Io (Share β) Unit := do
  open_ P
  let pending ← recoveryPending
  ensure (offline = true ∨ pending = false)
    "restored device must fully reconcile first; offline authority is an explicit override"
  -- an interrupted activation retains the previous mode
  if offline then transaction fun i => .ok { i with recoveryPending := false } else pure ()
  Fallible.act fun s => (.ok (), { s with config := { s.config with mode := mode } })

end Share
end Everywhere
