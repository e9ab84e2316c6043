import Everywhere.Versions.Model

/-!
# The central registry

The central server keeps a registry of devices and a queue of commands, and the devices ask it for work. All it knows
is in a database: an operation is one transaction, which fails and changes nothing or is committed whole. Devices are
enrolled with an invitation (`enroll`), approved and revoked (`setDevice`); commands are queued (`queue`) and, as long
as they were not handed out, cancelled (`cancel`); a device that asks (`poll`) reports results and takes the
first command that is open.

A table is the list of its rows in the order in which they were inserted. A column in which the program keeps the
text of a JSON document holds the document. Columns that are only shown to the operator are left out.
-/

namespace Everywhere.Central

open Library

/-! ### Tables -/

/-- What a device may do. -/
inductive DeviceState where
  /-- It has enrolled. -/
  | pending
  /-- It may take commands. -/
  | approved
  /-- It may not take commands any more. -/
  | revoked
  deriving DecidableEq

/-- How far a command has got. -/
inductive Status where
  /-- It waits. -/
  | queued
  /-- It was handed out. -/
  | delivered
  /-- It was executed. -/
  | completed
  /-- Its execution failed. -/
  | failed
  /-- Its execution was interrupted. -/
  | uncertain
  /-- It was withdrawn before it was handed out. -/
  | cancelled
  deriving DecidableEq

/-- An invitation. -/
structure Invite where
  /-- The hash of its token. -/
  hash : String
  /-- When it ends. -/
  expires : ℕ
  /-- The device that used it. -/
  device : Option String
  deriving DecidableEq

/-- The execution has ended, one way or another. -/
def Status.terminal : Status → Bool
  | .completed | .failed | .uncertain => true
  | .queued | .delivered | .cancelled => false

/-- The command was handed out. -/
def Status.sent : Status → Bool
  | .delivered | .completed | .failed | .uncertain => true
  | .queued | .cancelled => false

/-- The command will not be handed out again. -/
def Status.closed : Status → Bool
  | .completed | .failed | .uncertain | .cancelled => true
  | .queued | .delivered => false

/-- A device. -/
structure Device where
  /-- The fingerprint of its certificate. -/
  id : String
  /-- The hash of its credential. -/
  credential : String
  /-- Its certificate. -/
  certificate : Bytes
  /-- What it may do. -/
  state : DeviceState
  deriving DecidableEq

/-- A command. -/
structure Command where
  /-- Its identifier. -/
  id : String
  /-- The device it is for. -/
  device : String
  /-- What is to be done. -/
  body : Json
  /-- How far it has got. -/
  status : Status
  /-- What came out. -/
  result : Option Json

/-- The registry. -/
structure Store where
  /-- The invitations. -/
  invites : List Invite
  /-- The devices. -/
  devices : List Device
  /-- The commands, in the order in which they were queued. -/
  commands : List Command

/-- The registry of a new server. -/
def Store.empty : Store := ⟨[], [], []⟩

/-! ### Messages -/

/-- A command on its way. -/
structure Envelope where
  /-- The command. -/
  id : String
  /-- What is to be done. -/
  operation : Json

/-- How an execution ended. -/
inductive ResultState where
  /-- Without an error. -/
  | completed
  /-- With an error. -/
  | failed
  /-- Nobody knows. -/
  | uncertain
  deriving DecidableEq

/-- The status of a command whose execution has ended so. -/
def ResultState.toStatus : ResultState → Status
  | .completed => .completed
  | .failed => .failed
  | .uncertain => .uncertain

/-- The result of a command. -/
structure CommandResult where
  /-- The command. -/
  id : String
  /-- How it ended. -/
  status : ResultState
  /-- What came out. -/
  value : Json

/-- What a device asks. -/
inductive Request where
  /-- To be registered. -/
  | enroll (invitation credential name : String) (certificate : Bytes)
  /-- For work. -/
  | poll (device credential : String) (results : List CommandResult) (active : Option String)

/-- What the server says of a device. -/
inductive Standing where
  /-- It is registered now. -/
  | registered
  /-- It is known, and this is what it may do. -/
  | known (state : DeviceState)
  /-- The request failed. -/
  | rejected
  deriving DecidableEq

/-- An answer. -/
structure Reply where
  /-- What the server says of the device. -/
  state : Standing
  /-- A command to execute. -/
  command : Option Envelope
  /-- The results that are recorded. -/
  acknowledged : List String
  /-- Why the request failed. -/
  error : Option Error

/-- An answer that says nothing else. -/
def Reply.ofState (state : Standing) : Reply := ⟨state, none, [], none⟩

/-! ### Transactions -/

/-- The check of an identifier. -/
def validPeer (peer : String) : Result Unit := ensure (isHash peer = true) "invalid peer fingerprint"

/-- A white-space character. -/
def isWhitespace (c : Char) : Bool :=
  (9 ≤ c.val && c.val ≤ 13) || c.val ∈ [0x20, 0x85, 0xa0, 0x1680, 0x2028, 0x2029, 0x202f, 0x205f, 0x3000] ||
    (0x2000 ≤ c.val && c.val ≤ 0x200a)

/-- The hash under which a secret is kept. -/
def secretHash (P : Platform) (value : String) : String := P.blake3 (utf8 value)

/-- The name of a device, which is a hash of its certificate. -/
def fingerprint (P : Platform) (certificate : Bytes) : String := P.blake3 certificate

namespace Store

/-- A new invitation. `reachable` says whether agents can reach the server at the address in it. -/
def invite (P : Platform) (label token : String) (reachable : Bool) (now : ℕ) (s : Store) : Result Store := do
  ensure (label.toList.all isWhitespace = false ∧ label.utf8ByteSize ≤ 120) "invitation name required (120 bytes maximum)"
  ensure (reachable = true) "use an address reachable from the agent"
  ensure (∀ i ∈ s.invites, i.hash ≠ secretHash P token) "UNIQUE constraint failed: invites.hash"
  pure { s with invites := s.invites ++ [⟨secretHash P token, now + 24 * 60 * 60, none⟩] }

/-- Register a device. The last argument says which certificates can be read. -/
def enroll (P : Platform) (readable : Bytes → Bool) (now : ℕ) (invitation credential name : String)
    (certificate : Bytes) (s : Store) : Result (Reply × Store) := do
  validPeer invitation
  validPeer credential
  ensure (name.toList.all isWhitespace = false ∧ name.utf8ByteSize ≤ 120 ∧ name.toList.any isControl = false)
    "invalid device name"
  ensure (certificate.length ≤ 8192) "certificate too large"
  ensure (readable certificate = true) "invalid certificate"
  let device := fingerprint P certificate
  match s.invites.find? (·.hash = secretHash P invitation) with
  | none => .error (.message "invalid enrollment invitation")
  | some ⟨_, _, some used⟩ =>
    ensure (used = device ∧ (s.devices.find? (·.id = device)).map Device.credential = some (secretHash P credential))
      "invitation already used"
    pure (.ofState .registered, s)
  | some ⟨_, expires, none⟩ =>
    ensure (now ≤ expires) "enrollment invitation expired"
    ensure (s.devices.length < 128) "device limit reached"
    ensure (∀ d ∈ s.devices, d.id ≠ device) "device already enrolled; use its existing agent configuration"
    let invites := s.invites.map fun i => if i.hash = secretHash P invitation then { i with device := some device } else i
    pure (.ofState .registered,
      { s with invites, devices := s.devices ++ [⟨device, secretHash P credential, certificate, .pending⟩] })

/-- The commands after a result of a device was recorded. -/
def record (device : String) (r : CommandResult) (commands : List Command) : List Command :=
  commands.map fun c =>
    if c.id = r.id ∧ c.device = device ∧ c.status = .delivered then
      { c with status := r.status.toStatus, result := some r.value }
    else c

/-- Whether a result of a device is on record. -/
def recorded (device : String) (r : CommandResult) (commands : List Command) : Bool :=
  commands.any fun c => c.id = r.id ∧ c.device = device ∧ c.status.terminal

/-- Record the results of a device; say which are on record. -/
def recordAll (device : String) : List CommandResult → List Command → List Command × List String
  | [], commands => (commands, [])
  | r :: results, commands =>
    let (after, acknowledged) := recordAll device results (record device r commands)
    (after, if recorded device r (record device r commands) then r.id :: acknowledged else acknowledged)

/-- The first open command of a device. -/
def nextCommand (device : String) (commands : List Command) : Option Command :=
  commands.find? fun c => c.device = device ∧ (c.status = .queued ∨ c.status = .delivered)

/-- The commands after one was handed out. -/
def deliver (id : String) (commands : List Command) : List Command :=
  commands.map fun c => if c.id = id then { c with status := .delivered } else c

/-- Record the results of a device, and give it a command if it may have one. -/
def poll (P : Platform) (device credential : String) (results : List CommandResult) (active : Option String)
    (s : Store) : Result (Reply × Store) := do
  validPeer device
  validPeer credential
  ensure (results.length ≤ 16) "too many command results"
  match s.devices.find? (·.id = device) with
  | none => .error (.message "agent is not enrolled")
  | some d =>
    ensure (d.credential = secretHash P credential) "agent authentication rejected"
    let (commands, acknowledged) := recordAll device results s.commands
    let reply : Reply := { Reply.ofState (.known d.state) with acknowledged }
    if d.state = .approved ∧ active = none then
      match nextCommand device commands with
      | none => pure (reply, { s with commands })
      | some c => pure ({ reply with command := some ⟨c.id, c.body⟩ }, { s with commands := deliver c.id commands })
    else pure (reply, { s with commands })

/-- Answer a request. -/
def exchange (P : Platform) (readable : Bytes → Bool) (now : ℕ) (s : Store) : Request → Result (Reply × Store)
  | .enroll invitation credential name certificate => s.enroll P readable now invitation credential name certificate
  | .poll device credential results active => s.poll P device credential results active

/-- Approve or revoke a device. What a revoked device was not given it will not be given. -/
def setDevice (device : String) (approved : Bool) (s : Store) : Result Store := do
  validPeer device
  ensure (∃ d ∈ s.devices, d.id = device) "unknown device"
  let devices := s.devices.map fun d =>
    if d.id = device then { d with state := if approved then .approved else .revoked } else d
  let commands := if approved then s.commands else s.commands.map fun c =>
    if c.device = device ∧ c.status = .queued then { c with status := .cancelled } else c
  pure { s with devices, commands }

/-- Queue one command. -/
def queueOne (device : String) (operation : Json) (id : String) (s : Store) : Result Store := do
  ensure (∃ d ∈ s.devices, d.id = device ∧ d.state = .approved) "device is not approved"
  ensure ((s.commands.filter fun c => c.device = device ∧ (c.status = .queued ∨ c.status = .delivered)).length < 256)
    "too many pending commands on this device"
  ensure (∀ c ∈ s.commands, c.id ≠ id) "UNIQUE constraint failed: commands.id"
  pure { s with commands := s.commands ++ [⟨id, device, operation, .queued, none⟩] }

/-- Queue commands, all of them or none. Each comes with its random identifier. -/
def queue : List (String × Json × String) → Store → Result Store
  | [], s => pure s
  | (device, operation, id) :: commands, s => do
    let s ← s.queueOne device operation id
    queue commands s

/-- Withdraw a command. -/
def cancel (id : String) (s : Store) : Result Store := do
  ensure (∃ c ∈ s.commands, c.id = id ∧ c.status = .queued) "only an undispatched command can be cancelled"
  pure { s with commands := s.commands.map fun c =>
    if c.id = id ∧ c.status = .queued then { c with status := .cancelled } else c }

end Store

end Everywhere.Central
