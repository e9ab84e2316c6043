import Everywhere.Versions.Merge

/-!
# The index of a share

The index remembers, for each path of a folder, the version set that the devices have agreed on so far
(`versions`), what was last seen in the folder or put there (`materialized`), and the version set that the
user of this device has seen (`observed`): a local change is made on top of the latter. It also keeps every
revision that was ever a head (`history`), the paths that are missing and await a decision (`pending`), what a
peer has sent so far (`incoming`), the objects still to be fetched (`needed`), and how much of each peer's
index is known here (`cursors`).

Each function here is one transaction of the program, or the part of a transaction that deals with one path: it
reads an index and returns the next one. A transaction that fails leaves the index as it was.

What the transactions do to the rows is said once: `Micro` lists the ways in which the program calls
`save`, and `scan_chain` and `joinIncoming_chain` show that nothing else happens.
-/

namespace Everywhere

open Library

/-- The bound of a signed number of 64 bits. -/
def i64Max : ℕ := 2 ^ 63 - 1

/-- What the index knows of a path. -/
structure Row where
  /-- The version set. -/
  versions : Versions
  /-- What stands in the folder, as far as the program knows. -/
  materialized : Option Content
  /-- The version set on top of which local changes are made. -/
  observed : Versions
  /-- The number of the last change of the version set. -/
  seq : ℕ
  deriving DecidableEq

/-- A revision that is kept. -/
structure Retained where
  /-- Its path. -/
  path : String
  /-- Its identifier. -/
  id : String
  /-- The revision. -/
  revision : Revision
  deriving DecidableEq

/-- The index. -/
structure Index where
  /-- The name of this generation of the index. -/
  epoch : String
  /-- The number of the last change. -/
  seq : ℕ
  /-- The index was restored and has not been reconciled with a peer since. -/
  recoveryPending : Bool
  /-- The paths. -/
  entries : Std.ExtTreeMap String Row
  /-- The revisions that are kept. -/
  history : List Retained
  /-- The missing paths that await a decision. -/
  pending : Std.ExtTreeSet String
  /-- What the peer of the running session has sent. -/
  incoming : Std.ExtTreeMap String Versions
  /-- The objects that are to be fetched for it. -/
  needed : Std.ExtTreeSet String
  /-- For each peer, an epoch of its index and how many of its changes are known. -/
  cursors : Std.ExtTreeMap String (String × ℕ)
  deriving DecidableEq

/-- What a scan has found. -/
structure ScanReport where
  /-- The number of local changes. -/
  changed : ℕ
  /-- The number of missing paths. -/
  pendingDeletions : ℕ
  deriving DecidableEq

/-- The record of a path as it is sent to a peer. -/
structure Record where
  /-- The path. -/
  path : String
  /-- The version set. -/
  versions : Versions
  /-- The number of the change. -/
  seq : ℕ
  deriving DecidableEq

namespace Index

variable (P : Platform)

/-- The index of a new share. -/
def create (epoch : String) : Index :=
  ⟨epoch, 0, false, ∅, [], ∅, ∅, ∅, ∅⟩

/-- Keep a revision, unless one of that path and identifier is kept already. -/
def retain (path : String) (history : List Retained) (r : Revision) : List Retained :=
  if ∃ e ∈ history, e.path = path ∧ e.id = r.id P then history else history ++ [⟨path, r.id P, r⟩]

/-- Write the row of a path. -/
def save (i : Index) (path : String) (versions : Versions) (materialized : Option Content)
    (observed : Versions) : Result Index := do
  validatePath path
  let prior := i.entries[path]?
  -- the superseded revisions are kept before the version set is replaced
  let history := ((prior.elim [] fun l => l.versions.heads) ++ versions.heads).foldl (retain P path) i.history
  let changed := prior.all fun l => l.versions ≠ versions
  ensure (changed → i.seq + 1 ≤ i64Max) "share sequence exhausted"
  let sequence := if changed then i.seq + 1 else prior.elim 0 fun l => l.seq
  -- the column with the collision key is unique
  ensure (∀ other ∈ i.entries.keys, other ≠ path → collisionKey P other ≠ collisionKey P path)
    "UNIQUE constraint failed: entries.alias"
  pure { i with
    seq := if changed then i.seq + 1 else i.seq
    history := history
    entries := i.entries.insert path ⟨versions, materialized, observed, sequence⟩ }

/-- Records with a number in a range, in their order, at most as many as given. -/
def records (i : Index) (since ceiling limit : ℕ) : List Record :=
  (((i.entries.toList.map fun e => (⟨e.1, e.2.versions, e.2.seq⟩ : Record)).filter fun r =>
    since < r.seq ∧ r.seq ≤ ceiling).insertionSort fun a b => a.seq ≤ b.seq).take limit

/-- Forget that a path is missing. -/
def forget (i : Index) (path : String) : Index := { i with pending := i.pending.erase path }

/-! ### Scanning -/

/-- What a scan does about a path that it has seen: the index, and the number of changes. -/
def scanSeen (replica : String) (i : Index) (path : String) (content : Content) : Result (Index × ℕ) := do
  let old := i.entries[path]?
  let i := i.forget path
  if let some previous := old then
    if previous.versions ≠ previous.observed ∧ ∃ r ∈ previous.versions.heads, r.content = content then
      -- the file was put there, but the index has not taken note of it
      let selected := (previous.versions.selected P).any fun r => r.content = content
      let i ← i.save P path previous.versions (some content)
        (if selected then previous.versions else previous.observed)
      return (i, 0)
  if (old.bind fun l => l.materialized) = some content then
    return (i, 0)
  let observed := old.elim Versions.default fun l => l.observed
  let mine ← observed.edit P replica content
  let combined ← match old with
    | some l => l.versions.join P mine
    | none => pure mine
  let i ← i.save P path combined (some content) mine
  return (i, 1)

/-- What a scan does about a path that it has not seen. -/
def scanMissing (replica : String) (approve : Bool) (i : Index) (path : String) : Result (Index × ℕ) :=
  match i.entries[path]? with
  | none => pure (i, 0)
  | some old => do
    if old.versions ≠ old.observed ∧ (old.versions.selected P).any (fun r => r.content = .deleted) then
      let i ← i.save P path old.versions none old.versions
      return (i.forget path, 0)
    if old.materialized = none then
      return (i, 0)
    if approve then
      let deleted ← old.observed.edit P replica .deleted
      let combined ← old.versions.join P deleted
      let i ← i.save P path combined none deleted
      return (i.forget path, 1)
    return ({ i with pending := i.pending.insert path }, 0)

/-- Do something for each of many, and count the changes. -/
def forEach {α : Type} (f : Index → α → Result (Index × ℕ)) : List α → Index × ℕ → Result (Index × ℕ)
  | [], r => pure r
  | a :: l, (i, n) => do
    let (i, m) ← f i a
    forEach f l (i, n + m)

/-- A scan, given what is in the folder. -/
def scan (replica : String) (approve : Bool) (seen : Std.ExtTreeMap String Content) (i : Index) :
    Result (Index × ScanReport) := do
  let (i, n) ← forEach (fun i e => i.scanSeen P replica e.1 e.2) seen.toList (i, 0)
  let missing := i.entries.keys.filter fun path => path ∉ seen
  let (i, n) ← forEach (scanMissing P replica approve) missing (i, n)
  pure (i, ⟨n, i.pending.size⟩)

/-! ### Sessions -/

/-- Start to take in what a peer sends. -/
def beginIncoming (i : Index) : Index := { i with incoming := ∅, needed := ∅ }

/-- The object that a content needs. -/
def object : Content → Option String
  | .file hash => some hash
  | .directory | .deleted => none

/-- Take in a record. -/
def stageRecord (present : String → Bool) (i : Index) (r : Record) : Result Index := do
  validatePath r.path
  let validated ← Versions.default.join P r.versions
  ensure (validated.heads ≠ []) "empty remote version set"
  let objects := validated.heads.filterMap fun h => object h.content
  ensure (objects.all isHash) "invalid object identifier"
  pure { i with
    incoming := i.incoming.insert r.path validated
    needed := (objects.filter fun hash => !present hash).foldl (fun needed hash => needed.insert hash) i.needed }

/-- Take in records. -/
def stage (present : String → Bool) (i : Index) (records : List Record) : Result Index :=
  records.foldlM (stageRecord P present) i

/-- Merge what was taken in for a path. -/
def joinRow (i : Index) (path : String) (remote : Versions) : Result Index := do
  let old := i.entries[path]?
  let versions ← match old with
    | some l => l.versions.join P remote
    | none => pure remote
  i.save P path versions (old.bind fun l => l.materialized) (old.elim Versions.default fun l => l.observed)

/-- Merge everything that was taken in. -/
def joinIncoming (i : Index) : Result Index := do
  let i ← i.incoming.toList.foldlM (fun i e => joinRow P i e.1 e.2) i
  pure { i with incoming := ∅ }

/-- What stands in the folder when a content has been put there. -/
def visible : Content → Option Content
  | .deleted => none
  | .file hash => some (.file hash)
  | .directory => some .directory

/-- Take note that a content was put into the folder. -/
def applied (i : Index) (path : String) (versions : Versions) (selected : Content) : Result Index :=
  i.save P path versions (visible selected) versions

/-- The number of directories that a path is in. -/
def depth (path : String) : ℕ := path.toList.count '/'

/-- Whether all that is left of a path is its deletion. -/
def removing (r : Row) : Bool := r.versions.heads.all fun h => h.content = .deleted

/-- The order in which paths are brought to their version sets: directories before what is in them, and then
deletions, from the inside out. -/
def applyBefore (a b : String × Row) : Prop :=
  let key (e : String × Row) : ℕ ×ₗ ℤ ×ₗ String :=
    toLex ((removing e.2).toNat, toLex (if removing e.2 then -(depth e.1 : ℤ) else depth e.1, e.1))
  key a ≤ key b

instance (a b : String × Row) : Decidable (applyBefore a b) := inferInstanceAs (Decidable (_ ≤ _))

/-- The paths that are to be brought to their version sets, in order. -/
def candidates (i : Index) : List String :=
  ((i.entries.toList.filter fun e => e.2.versions ≠ e.2.observed ∧ e.1 ∉ i.pending).insertionSort
    applyBefore).map (·.1)

/-! ### Decisions -/

/-- Resolve a path to a content that was chosen, given what stands in the folder. -/
def choose (i : Index) (path : String) (versions : Versions) (actual : Option Content) (observed : Versions) :
    Result Index := do
  let i ← i.save P path versions actual observed
  pure (i.forget path)

/-- Record an approved deletion. -/
def approve (replica : String) (i : Index) (path : String) (l : Row) : Result Index := do
  let deletion ← l.observed.edit P replica .deleted
  let versions ← l.versions.join P deletion
  let i ← i.save P path versions none deletion
  pure (i.forget path)

/-- What is known of a peer's index. -/
def cursor (i : Index) (peer : String) : String × ℕ := i.cursors[peer]?.getD ("", 0)

/-- Remember how much of a peer's index is known. -/
def setCursor (i : Index) (peer epoch : String) (seq : ℕ) : Index :=
  { i with cursors := i.cursors.insert peer (epoch, seq) }

/-- The index of a checkpoint, made ready to be used again. -/
def restore (checkpoint : Index) (epoch : String) (pending : Bool) : Index :=
  { checkpoint with epoch := epoch, recoveryPending := pending, cursors := ∅, incoming := ∅, needed := ∅ }

end Index
end Everywhere
