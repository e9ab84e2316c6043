import Everywhere.Central.Agent

/-!
# The central server and its agents

A `System` is the registry, the agents and the messages between them. A `Step` is a transaction of the server, a step
of the loop of one agent, or an accident: messages may be lost or stay on the way as long as they like, an exchange may be
given up, and a process may be killed or ended at any time. The server keeps nothing outside its database, so its own
restarts are lost messages, and so is what it cannot read.

An exchange is a connection: an answer reaches the agent only while it waits for this answer. Requests are
authenticated by certificate before the registry sees them (`accepts`). There is one agent for each fingerprint.

`Run` is a run with the events that matter (`Event`); every state that can occur is the end of a run from an
`initial` one.
-/

namespace Everywhere.Central

open Library

/-- A request on its way. -/
structure Incoming where
  /-- The exchange. -/
  exchange : ℕ
  /-- The certificate of the device. -/
  certificate : Bytes
  /-- The request. -/
  request : Request

/-- An answer on its way. -/
structure Outgoing where
  /-- The exchange. -/
  exchange : ℕ
  /-- The device. -/
  device : String
  /-- The answer. -/
  reply : Reply

/-- The server and its agents. -/
structure System where
  /-- The registry. -/
  store : Store
  /-- The agents, by the fingerprint of their certificates. -/
  agents : String → Agent
  /-- The requests on their way. -/
  requests : List Incoming
  /-- The answers on their way. -/
  replies : List Outgoing
  /-- The number of the next exchange. -/
  next : ℕ

/-- What is seen of a step. -/
inductive Event where
  /-- A command is handed out to who asked for it with a credential. -/
  | handOut (device credential id : String)
  /-- A command is started. -/
  | start (device id : String)
  /-- A command has ended. -/
  | ended (device id : String)
  /-- A process starts. -/
  | launch (device : String)
  /-- A process is killed, and with it the command that it executes. -/
  | stop (device : String) (id : Option String)
  /-- A device is approved or revoked. -/
  | setDevice (device : String) (approved : Bool)
  /-- Something else. -/
  | other

/-- The check of the control connection. -/
def accepts (P : Platform) (m : Incoming) : Prop :=
  match m.request with
  | .enroll _ _ _ certificate => certificate = m.certificate
  | .poll device _ _ _ => device = fingerprint P m.certificate

/-- What is seen of an answer. -/
def handed (request : Request) (reply : Reply) : Event :=
  match request, reply.command with
  | .poll device credential _ _, some command => .handOut device credential command.id
  | _, _ => .other

namespace System

/-- The system with another agent. -/
def setAgent (s : System) (d : String) (a : Agent) : System := { s with agents := Function.update s.agents d a }

/-- The system with another process of an agent. -/
def setProcess (s : System) (d : String) (p : Option Process) : System :=
  s.setAgent d { s.agents d with process := p }

/-- The system with another journal of an agent. -/
def setJournal (s : System) (d : String) (j : Journal) : System := s.setAgent d { s.agents d with journal := j }

/-- The system with one more request on its way. -/
def send (s : System) (certificate : Bytes) (request : Request) : System :=
  { s with requests := s.requests ++ [⟨s.next, certificate, request⟩], next := s.next + 1 }

end System

/-- The steps. -/
inductive Step (P : Platform) (readable : Bytes → Bool) : System → Event → System → Prop where
  /-- The operator invites a device. -/
  | invite {s : System} {label token : String} {reachable : Bool} {now : ℕ} {store : Store} :
      s.store.invite P label token reachable now = .ok store → Step P readable s .other { s with store }
  /-- The operator approves or revokes a device. -/
  | setDevice {s : System} {device : String} {approved : Bool} {store : Store} :
      s.store.setDevice device approved = .ok store →
      Step P readable s (.setDevice device approved) { s with store }
  /-- The operator queues commands. -/
  | queue {s : System} {commands : List (String × Json × String)} {store : Store} :
      Store.queue commands s.store = .ok store → Step P readable s .other { s with store }
  /-- The operator withdraws a command. -/
  | cancel {s : System} {id : String} {store : Store} :
      s.store.cancel id = .ok store → Step P readable s .other { s with store }
  /-- The server answers a request. -/
  | serve {s : System} {l₁ l₂ : List Incoming} {m : Incoming} {now : ℕ} {reply : Reply} {store : Store} :
      s.requests = l₁ ++ m :: l₂ → accepts P m → s.store.exchange P readable now m.request = .ok (reply, store) →
      Step P readable s (handed m.request reply) { s with
        store
        requests := l₁ ++ l₂
        replies := s.replies ++ [⟨m.exchange, fingerprint P m.certificate, reply⟩] }
  /-- The server rejects a request. -/
  | reject {s : System} {l₁ l₂ : List Incoming} {m : Incoming} {now : ℕ} {e : Error} :
      s.requests = l₁ ++ m :: l₂ → accepts P m → s.store.exchange P readable now m.request = .error e →
      Step P readable s .other { s with
        requests := l₁ ++ l₂
        replies := s.replies ++ [⟨m.exchange, fingerprint P m.certificate, ⟨.rejected, none, [], some e⟩⟩] }
  /-- Messages are lost. -/
  | lose {s : System} {requests : List Incoming} {replies : List Outgoing} :
      requests.Sublist s.requests → replies.Sublist s.replies → Step P readable s .other { s with requests, replies }
  /-- A device is enrolled, or enrolled anew. -/
  | configure {s : System} {d : String} {config : Config} :
      Step P readable s .other (s.setAgent d { s.agents d with config := some config })
  /-- A process starts. -/
  | launch {s : System} {d : String} {config : Config} :
      (s.agents d).process = none → (s.agents d).config = some config →
      fingerprint P (s.agents d).certificate = d → config.load P (s.agents d).certificate = .ok () →
      Step P readable s (.launch d)
        (s.setProcess d (some ⟨config, none, false, .opening (s.agents d).journal.interrupted⟩))
  /-- An uncertain outcome is written down. -/
  | recover {s : System} {d : String} {p : Process} {id : String} {rest : List String} :
      (s.agents d).process = some p → p.phase = .opening (id :: rest) →
      Step P readable s .other ((s.setJournal d ((s.agents d).journal.finish (Journal.interruption id))).setProcess d
        (some { p with phase := .opening rest }))
  /-- The loop begins. -/
  | enter {s : System} {d : String} {p : Process} :
      (s.agents d).process = some p → p.phase = .opening [] →
      Step P readable s .other (s.setProcess d (some { p with phase := .ready }))
  /-- The worker ends. -/
  | work {s : System} {d id : String} {p : Process} {outcome : ResultState × Json} :
      (s.agents d).process = some p → p.worker = some (id, none) →
      Step P readable s (.ended d id) (s.setProcess d (some { p with worker := some (id, some outcome) }))
  /-- What the worker did is written down. -/
  | collect {s : System} {d id : String} {p : Process} {outcome : ResultState × Json} :
      (s.agents d).process = some p → p.phase = .ready → p.worker = some (id, some outcome) →
      Step P readable s .other ((s.setJournal d
        ((s.agents d).journal.finish ⟨id, outcome.1, outcome.2⟩)).setProcess d (some { p with worker := none }))
  /-- The agent asks for work; it first has itself registered if need be. -/
  | ask {s : System} {d : String} {p : Process} {request : Request} :
      (s.agents d).process = some p → p.phase = .ready → p.request (s.agents d).journal = .ok request →
      Step P readable s .other (if p.registered then
        (s.setProcess d (some { p with phase := .waiting s.next })).send (s.agents d).certificate request
      else
        (s.setProcess d (some { p with phase := .registering s.next request })).send
          (s.agents d).certificate (p.config.register (s.agents d).certificate))
  /-- A result cannot be read back, and the loop ends. -/
  | unreadable {s : System} {d : String} {p : Process} {e : Error} :
      (s.agents d).process = some p → p.phase = .ready → p.request (s.agents d).journal = .error e →
      Step P readable s .other (s.setProcess d (some { p with phase := .stopped }))
  /-- The agent is registered, and goes on. -/
  | registered {s : System} {d : String} {p : Process} {n : ℕ} {request : Request} {m : Outgoing} :
      (s.agents d).process = some p → p.phase = .registering n request → m ∈ s.replies → m.exchange = n →
      m.device = d → m.reply.error = none →
      Step P readable s .other ((s.setProcess d (some { p with registered := true, phase := .waiting s.next })).send
        (s.agents d).certificate request)
  /-- The exchange fails. -/
  | giveUp {s : System} {d : String} {p : Process} {n : ℕ} :
      (s.agents d).process = some p → (p.phase = .waiting n ∨ ∃ request, p.phase = .registering n request) →
      Step P readable s .other (s.setProcess d (some { p with phase := .ready }))
  /-- The agent reads the answer. -/
  | read {s : System} {d : String} {p : Process} {n : ℕ} {m : Outgoing} :
      (s.agents d).process = some p → p.phase = .waiting n → m ∈ s.replies → m.exchange = n → m.device = d →
      m.reply.error = none →
      Step P readable s .other
        (s.setProcess d (some { p with phase := .answered m.reply.state m.reply.acknowledged m.reply.command }))
  /-- A recorded result is marked in the journal. -/
  | acknowledge {s : System} {d : String} {p : Process} {state : Standing} {id : String} {rest : List String}
      {command : Option Envelope} :
      (s.agents d).process = some p → p.phase = .answered state (id :: rest) command →
      Step P readable s .other ((s.setJournal d ((s.agents d).journal.acknowledge id)).setProcess d
        (some { p with phase := .answered state rest command }))
  /-- There is nothing to execute. -/
  | rest {s : System} {d : String} {p : Process} {state : Standing} :
      (s.agents d).process = some p → p.phase = .answered state [] none →
      Step P readable s .other (s.setProcess d (some { p with phase := .ready }))
  /-- The answer cannot be right, and the loop ends. -/
  | refuse {s : System} {d : String} {p : Process} {state : Standing} {command : Envelope} :
      (s.agents d).process = some p → p.phase = .answered state [] (some command) →
      (¬ (state = .known .approved ∧ p.worker = none) ∨ ∃ e, (s.agents d).journal.start command = .error e) →
      Step P readable s .other (s.setProcess d (some { p with phase := .stopped }))
  /-- The command is in the journal already. -/
  | again {s : System} {d : String} {p : Process} {state : Standing} {command : Envelope} {journal : Journal} :
      (s.agents d).process = some p → p.phase = .answered state [] (some command) →
      state = .known .approved → p.worker = none → (s.agents d).journal.start command = .ok (false, journal) →
      Step P readable s .other ((s.setJournal d journal).setProcess d (some { p with phase := .ready }))
  /-- The command is written into the journal. -/
  | insert {s : System} {d : String} {p : Process} {state : Standing} {command : Envelope} {journal : Journal} :
      (s.agents d).process = some p → p.phase = .answered state [] (some command) →
      state = .known .approved → p.worker = none → (s.agents d).journal.start command = .ok (true, journal) →
      Step P readable s .other ((s.setJournal d journal).setProcess d (some { p with phase := .starting command }))
  /-- The command is started. -/
  | start {s : System} {d : String} {p : Process} {command : Envelope} :
      (s.agents d).process = some p → p.phase = .starting command →
      Step P readable s (.start d command.id)
        (s.setProcess d (some { p with worker := some (command.id, none), phase := .ready }))
  /-- A process is killed. -/
  | stop {s : System} {d : String} {p : Process} :
      (s.agents d).process = some p → Step P readable s (.stop d (s.agents d).running) (s.setProcess d none)
  /-- The management ends and gives up its lock; the worker goes on. -/
  | leave {s : System} {d : String} {p : Process} :
      (s.agents d).process = some p →
      Step P readable s .other (s.setAgent d { s.agents d with process := none, behind := (s.agents d).executing })
  /-- A worker ends, or is killed, that has outlived the management. -/
  | expire {s : System} {d id : String} :
      id ∈ (s.agents d).behind →
      Step P readable s (.ended d id) (s.setAgent d { s.agents d with behind := (s.agents d).behind.erase id })

/-- A run, with what is seen of it. -/
inductive Run (P : Platform) (readable : Bytes → Bool) (s : System) : List Event → System → Prop where
  /-- Nothing has happened. -/
  | refl : Run P readable s [] s
  /-- One more step. -/
  | step {trace : List Event} {s' s'' : System} {e : Event} :
      Run P readable s trace s' → Step P readable s' e s'' → Run P readable s (trace ++ [e]) s''

/-- A new server, and agents that have never run. -/
def System.initial (certificate : String → Bytes) : System :=
  ⟨.empty, fun d => ⟨certificate d, none, [], none, []⟩, [], [], 0⟩

end Everywhere.Central
