import Everywhere.Central.Store

/-!
# The agents

An agent runs on each device. It asks the central server for commands and executes them, one after another, and it
keeps a journal: a command is written there before it is executed, and its result when it has ended. When the agent
opens its journal, what was being executed when the last process ended gets an uncertain outcome.

`run` is a loop, and the agent may be stopped anywhere in it. A `Process` says how far the loop has got: each
`Phase` lies between two steps that others can see. The worker that executes a command runs beside the loop. It ends
when the process is killed; but when the management ends by itself, it gives up its lock, and the worker goes on until
the command is executed (`Agent.behind`).

As in `Central.Store`, columns that hold the text of a JSON document hold the document here. Where the program reads such
a text again, it may find the document nested too deep (`Journal.results`).
-/

namespace Everywhere.Central

open Library

/-! ### The journal -/

/-- How an outcome is written. -/
def ResultState.name : ResultState → String
  | .completed => "completed"
  | .failed => "failed"
  | .uncertain => "uncertain"

/-- The outcome that is written so. -/
def ResultState.ofName : String → Option ResultState
  | "completed" => some .completed
  | "failed" => some .failed
  | "uncertain" => some .uncertain
  | _ => none

/-- A result as a document. -/
def CommandResult.toJson (r : CommandResult) : Json :=
  .obj [("id", .str r.id), ("status", .str r.status.name), ("value", r.value)]

/-- A result read from a document. -/
def CommandResult.ofJson : Json → Option CommandResult
  | .obj members => do
    guard (∀ m ∈ members, m.1 ∈ ["id", "status", "value"])
    let .str id ← Json.get "id" (.obj members) | none
    let .str status ← Json.get "status" (.obj members) | none
    pure ⟨id, ← ResultState.ofName status, ← Json.get "value" (.obj members)⟩
  | _ => none

/-- Read a result back from its text. -/
def CommandResult.readBack (r : CommandResult) : Result CommandResult :=
  match (Json.parse r.toJson.render).bind ofJson with
  | some r => .ok r
  | none => .error .json

theorem CommandResult.depth_toJson (r : CommandResult) : r.toJson.depth = r.value.depth + 1 := by
  simp [toJson, Json.depth, Json.depthMembers]

/-- A result is read back just when its value is not nested too deep. -/
theorem CommandResult.readBack_eq_ok {r r' : CommandResult} :
    r.readBack = .ok r' ↔ r' = r ∧ r.value.depth < Json.maxDepth := by
  have hof : ofJson r.toJson = some r := by
    rcases r with ⟨id, _ | _ | _, value⟩ <;>
      simp [toJson, ofJson, Json.get, List.lookup, ResultState.name, ResultState.ofName]
  rw [readBack, Json.parse_render_eq, r.depth_toJson]
  split_ifs with h
  · rw [Option.bind_some, hof]
    constructor
    · exact fun he => ⟨(Except.ok.inj he).symm, h⟩
    · rintro ⟨rfl, -⟩
      rfl
  · constructor
    · intro he
      cases he
    · exact fun he => absurd he.2 h

/-- How far an execution has got. -/
inductive Progress where
  /-- It was begun. -/
  | executing
  /-- It has ended, and the server has recorded the result or not. -/
  | done (result : CommandResult) (ack : Bool)

/-- An execution. -/
structure Executed where
  /-- The command. -/
  id : String
  /-- What is to be done. -/
  body : Json
  /-- How far it has got. -/
  state : Progress

/-- The journal: the executions, in the order in which they were begun. -/
abbrev Journal := List Executed

namespace Journal

/-- What is being executed, or was when the process ended. -/
def interrupted (journal : Journal) : List String :=
  (journal.filter fun e => e.state matches .executing).map Executed.id

/-- A result that fits into a message. -/
def bounded (result : CommandResult) : CommandResult :=
  if 512 * 1024 < result.value.render.length then
    { result with
      status := .failed
      value := .obj [("error", .str "Command output exceeds the central response limit; inspect it on the local device.")] }
  else result

/-- Write down a result. -/
def finish (result : CommandResult) (journal : Journal) : Journal :=
  journal.map fun e => if e.id = result.id then { e with state := .done (bounded result) false } else e

/-- The outcome of what was interrupted. -/
def interruption (id : String) : CommandResult where
  id := id
  status := .uncertain
  value := .obj [("error", .str ("Agent stopped during execution. Inspect the device and file history before submitting " ++
    "a new command. This command was not replayed."))]

/-- A result that the server has not recorded, if there is one. -/
def unrecorded (journal : Journal) : List CommandResult :=
  (journal.filterMap fun e => match e.state with
    | .done result false => some result
    | _ => none).take 1

/-- It is read from its text. -/
def results (journal : Journal) : Result (List CommandResult) := journal.unrecorded.mapM CommandResult.readBack

/-- What is read is what was written. -/
theorem results_eq_ok {journal : Journal} {results : List CommandResult} : journal.results = .ok results ↔
    results = journal.unrecorded ∧ ∀ r ∈ journal.unrecorded, r.value.depth < Json.maxDepth := by
  rw [Journal.results]
  generalize journal.unrecorded = l
  induction l generalizing results with
  | nil =>
    rw [List.mapM_nil, pure_eq_ok]
    simp [eq_comm]
  | cons r l ih =>
    simp only [List.mapM_cons, bind_eq_ok, pure_eq_ok, CommandResult.readBack_eq_ok, ih, List.forall_mem_cons]
    constructor
    · rintro ⟨_, ⟨rfl, hr⟩, _, ⟨rfl, hl⟩, rfl⟩
      exact ⟨rfl, hr, hl⟩
    · rintro ⟨rfl, hr, hl⟩
      exact ⟨r, ⟨rfl, hr⟩, l, ⟨rfl, hl⟩, rfl⟩

/-- Write down that the server has recorded a result. -/
def acknowledge (id : String) (journal : Journal) : Journal :=
  journal.map fun e => match e.state with
    | .done result _ => if e.id = id then { e with state := .done result true } else e
    | .executing => e

/-- Write down that a command is executed now, unless it was executed before. -/
def start (command : Envelope) (journal : Journal) : Result (Bool × Journal) := do
  validPeer command.id
  match journal.find? (·.id = command.id) with
  | some existing =>
    ensure (existing.body.render = command.operation.render) "central reused a command ID with different content"
    pure (false, journal.map fun e => match e.state with
      | .done result _ => if e.id = command.id then { e with state := .done result false } else e
      | .executing => e)
  | none => pure (true, journal ++ [⟨command.id, command.operation, .executing⟩])

end Journal

/-! ### The loop -/

/-- What an agent was told when it was enrolled. -/
structure Config where
  /-- The token of its invitation. -/
  invitation : String
  /-- Its credential. -/
  credential : String
  /-- Its name. -/
  name : String
  /-- The fingerprint of its certificate. -/
  device : String

/-- How far the loop has got. -/
inductive Phase where
  /-- The journal is being opened, and these outcomes are still to be written. -/
  | opening (interrupted : List String)
  /-- The loop begins anew. -/
  | ready
  /-- The device is being registered, and will then send a request. -/
  | registering (exchange : ℕ) (request : Request)
  /-- An answer is awaited. -/
  | waiting (exchange : ℕ)
  /-- The answer is there. -/
  | answered (state : Standing) (acknowledged : List String) (command : Option Envelope)
  /-- The command is in the journal. -/
  | starting (command : Envelope)
  /-- The loop has ended with an error. -/
  | stopped

/-- A process of the agent. -/
structure Process where
  /-- What it has read. -/
  config : Config
  /-- The command that a worker executes, and how that ended if it has. -/
  worker : Option (String × Option (ResultState × Json))
  /-- The device is registered. -/
  registered : Bool
  /-- How far the loop has got. -/
  phase : Phase

/-- An agent. -/
structure Agent where
  /-- Its certificate. -/
  certificate : Bytes
  /-- What it was told, if it was enrolled. -/
  config : Option Config
  /-- Its journal. -/
  journal : Journal
  /-- Its process, if it runs. -/
  process : Option Process
  /-- The commands that are still executed although the management has ended. -/
  behind : List String

/-- The check of what the agent was told. -/
def Config.load (P : Platform) (certificate : Bytes) (config : Config) : Result Unit := do
  validPeer config.credential
  validPeer config.invitation
  ensure (fingerprint P certificate = config.device) "agent identity changed; enroll the recovered device separately"

/-- The request of one turn of the loop. -/
def Process.request (process : Process) (journal : Journal) : Result Request := do
  let results ← journal.results
  pure (.poll process.config.device process.config.credential results (process.worker.map Prod.fst))

/-- The command that a process executes. -/
def Agent.running (a : Agent) : Option String :=
  match a.process with
  | some ⟨_, some (id, none), _, _⟩ => some id
  | _ => none

/-- The commands that are executed on a device. -/
def Agent.executing (a : Agent) : List String := a.running.toList ++ a.behind

/-- The request for registration. -/
def Config.register (certificate : Bytes) (config : Config) : Request :=
  .enroll config.invitation config.credential config.name certificate

end Everywhere.Central
