import Everywhere.Device.Registry

/-!
# Jobs

A device exchanges its folders by jobs, each a child process that the supervisor starts, watches and starts again. What is to run
is kept in a file that is replaced as a whole; what runs is known to the supervisor only. All calls of the supervisor exclude each
other, so a call is one step here, whose dealings with the outside are given: whether the peer may be met, how far the file was
written, which children have ended and which could be started, and the time of each look at the clock.

* `Sound` — what holds all along: each child runs what is configured, under its name, and is to run.
* `jobs_supervised` — **in every run**, whatever is called, ends, fails or is killed, the state is sound, and the supervisor can
  be opened again from the file.
* `jobs_spaced` — **no job is started twice within five seconds**, unless somebody has changed it in between.
-/

namespace Everywhere

open Library

/-- How far the file was written. -/
inductive Writing where
  /-- The file was replaced. -/
  | done
  /-- It was replaced, and the call failed after that. -/
  | replaced (e : Error)
  /-- It was not replaced. -/
  | failed (e : Error)

/-- A child process. -/
structure Child where
  /-- What it was started with. -/
  config : JobConfig
  /-- Its number. -/
  pid : ℕ

/-- The supervisor and its file. -/
structure Jobs where
  /-- What is found where the file should be, if that leads to anything. -/
  saved : Option Stored
  /-- What is to run. -/
  configs : Std.ExtTreeMap String JobConfig
  /-- What runs. -/
  running : Std.ExtTreeMap String Child
  /-- When to try again. -/
  retry : Std.ExtTreeMap String ℕ

/-- What the supervisor finds when it looks at a job. Times are in the nanoseconds of the clock. -/
structure Moment where
  /-- The child has ended, if there is one. -/
  ended : Result Bool
  /-- The time at which that is known. -/
  noticed : ℕ
  /-- The time at which a start is considered. -/
  considered : ℕ
  /-- The start, if there is one. -/
  started : Result ℕ
  /-- The time at which its failure is known. -/
  failed : ℕ

/-- How addresses are written and read. -/
structure Addresses where
  /-- The text of an address. -/
  text : String → ℕ → String
  /-- The host and the port of a text. -/
  parse : String → Option (String × ℕ)
  /-- An address that was read is read again when it is written. -/
  parse_text : ∀ {t host : String} {port : ℕ}, parse t = some (host, port) → parse (text host port) = some (host, port)
  /-- It has a short text. -/
  length_text : ∀ {t host : String} {port : ℕ}, parse t = some (host, port) → (text host port).utf8ByteSize ≤ 64

/-- The name of a direction. -/
def directionName : Direction → String
  | .connect => "connect"
  | .listen => "listen"

/-- The direction of a name. -/
def directionOf : String → Option Direction
  | "connect" => some .connect
  | "listen" => some .listen
  | _ => none

theorem directionOf_directionName (direction : Direction) : directionOf (directionName direction) = some direction := by
  cases direction <;> rfl

namespace JobConfig

variable (A : Addresses)

/-- The names of the fields. -/
def fields : List String := ["id", "folder", "peer", "address", "direction", "enabled"]

/-- A job as JSON. -/
def toJson (c : JobConfig) : Json :=
  .obj [("id", .str c.id), ("folder", .str c.folder), ("peer", .str c.peer), ("address", .str (A.text c.host c.port)),
    ("direction", .str (directionName c.direction)), ("enabled", .bool c.enabled)]

/-- A job read from JSON. -/
def ofJson : Json → Option JobConfig
  | .obj members => do
    guard (∀ m ∈ members, m.1 ∈ fields)
    guard (members.map (·.1)).Nodup
    let text name := (Json.get name (.obj members)).bind jsonString
    let (host, port) ← (← text "address") |> A.parse
    let direction ← (← text "direction") |> directionOf
    let .bool enabled ← Json.get "enabled" (.obj members) | none
    pure ⟨← text "id", ← text "folder", ← text "peer", host, port, direction, enabled⟩
  | _ => none

/-- Its host and its port are those of an address. -/
def Addressed (c : JobConfig) : Prop := ∃ t, A.parse t = some (c.host, c.port)

variable {A} {c : JobConfig}

theorem ofJson_toJson (h : c.Addressed A) : ofJson A (c.toJson A) = some c := by
  obtain ⟨t, ht⟩ := h
  simp [toJson, ofJson, fields, Json.get, List.lookup, jsonString, directionOf_directionName, A.parse_text ht]

/-- A job that is read has an address. -/
theorem addressed_of_ofJson {j : Json} (h : ofJson A j = some c) : c.Addressed A := by
  cases j with
  | obj members =>
    simp only [ofJson, Option.bind_eq_bind, Option.bind_eq_some_iff] at h
    obtain ⟨-, -, -, -, t, -, ⟨host, port⟩, haddress, name, -, direction, -, enabled, -, h⟩ := h
    split at h
    · simp only [Option.bind_eq_some_iff] at h
      obtain ⟨id, -, folder, -, peer, -, h⟩ := h
      obtain rfl := Option.some.inj h
      exact ⟨t, haddress⟩
    · cases h
  | _ => cases h

theorem depth_toJson (c : JobConfig) : (c.toJson A).depth ≤ 1 := by
  refine Json.depth_obj_le.mpr fun m hm => ?_
  simp only [List.mem_cons, List.not_mem_nil, or_false] at hm
  rcases hm with rfl | rfl | rfl | rfl | rfl | rfl <;> exact Nat.zero_le _

/-- A valid job has a short text. -/
theorem length_pretty_le (h : c.validate = .ok ()) (haddress : c.Addressed A) :
    (Json.quoted c.id).length ≤ 386 ∧ ((c.toJson A).pretty 1).length ≤ 2400 := by
  obtain ⟨⟨⟩, hnames, h⟩ := bind_eq_ok.mp h
  obtain ⟨⟨⟩, hpeer, -⟩ := bind_eq_ok.mp h
  have hplain {s : String} (hs : plainName s = true) : (Json.quoted s).length ≤ 386 := by
    have hlen := Json.length_quoted_le s
    simp only [plainName, decide_eq_true_eq] at hs
    omega
  have key (s : String) (hs : s.utf8ByteSize ≤ 9) : (Json.quoted s).length ≤ 56 := by
    have hlen := Json.length_quoted_le s
    omega
  have hid := hplain (ensure_eq_ok.mp (forM_eq_ok.mp hnames c.id (by simp)))
  have hfolder := hplain (ensure_eq_ok.mp (forM_eq_ok.mp hnames c.folder (by simp)))
  have hpeer : (Json.quoted c.peer).length ≤ 386 := by
    have hlen := Json.length_quoted_le c.peer
    have hhash := ensure_eq_ok.mp hpeer
    rw [isHash, Bool.and_eq_true, decide_eq_true_eq] at hhash
    omega
  have haddr : (Json.quoted (A.text c.host c.port)).length ≤ 386 := by
    obtain ⟨t, ht⟩ := haddress
    have hlen := Json.length_quoted_le (A.text c.host c.port)
    have hshort := A.length_text ht
    omega
  have hdirection := key (directionName c.direction) (by cases c.direction <;> decide)
  have h1 := key "id" (by decide)
  have h2 := key "folder" (by decide)
  have h3 := key "peer" (by decide)
  have h4 := key "address" (by decide)
  have h5 := key "direction" (by decide)
  have h6 := key "enabled" (by decide)
  have hstr (s : String) (indent : ℕ) : Json.pretty indent (.str s) = Json.quoted s := by rw [Json.pretty, Json.render]
  have hbool (b : Bool) (indent : ℕ) : (Json.pretty indent (.bool b)).length ≤ 5 := by
    rw [Json.pretty]
    cases b <;> decide
  have henabled := hbool c.enabled (1 + 1)
  refine ⟨hid, ?_⟩
  rw [toJson, Json.pretty]
  simp only [List.isEmpty_cons, Bool.false_eq_true, if_false, Json.prettyMembers, hstr, Json.newline, List.length_append,
    List.length_cons, List.length_replicate, List.length_nil]
  omega

end JobConfig

namespace Jobs

variable (A : Addresses)

/-! ### The file -/

/-- The jobs as JSON. -/
def toJson (configs : Std.ExtTreeMap String JobConfig) : Json := .obj (configs.toList.map fun e => (e.1, e.2.toJson A))

/-- Jobs read from JSON. -/
def ofJson : Json → Option (Std.ExtTreeMap String JobConfig)
  | .obj members => do
    let entries ← members.mapM fun m => (JobConfig.ofJson A m.2).map fun c => (m.1, c)
    pure (Std.ExtTreeMap.ofList entries)
  | _ => none

/-- The text of the file. -/
def text (configs : Std.ExtTreeMap String JobConfig) : Bytes := (toJson A configs).pretty 0

/-- The length of the file at most. -/
def maxText : ℕ := 256 * 1024

/-- The jobs that a text is of. -/
def decode (bytes : Bytes) : Result (Std.ExtTreeMap String JobConfig) :=
  match (Json.parse bytes).bind (ofJson A) with
  | some configs => .ok configs
  | none => .error .json

/-- Read the file. -/
def load : Option Stored → Result (Std.ExtTreeMap String JobConfig)
  | none => .ok ∅
  | some .other => .error (.message "unsafe job configuration")
  | some (.file bytes) => do
    ensure (bytes.length ≤ maxText) "job configuration too large"
    decode A bytes

/-! ### Calls -/

/-- When to try again, in nanoseconds: after five seconds. -/
def delay : ℕ := 5000000000

/-- The check of what is in the file. -/
def validate (configs : Std.ExtTreeMap String JobConfig) : Result Unit := do
  ensure (configs.size ≤ 32) "too many managed jobs"
  configs.toList.forM fun e => do
    e.2.validate
    ensure (e.1 = e.2.id) "job identifier mismatch"

/-- Open the supervisor. -/
def open_ (saved : Option Stored) : Result Jobs := do
  let configs ← load A saved
  validate configs
  pure ⟨saved, configs, ∅, ∅⟩

/-- Replace the file. -/
def persist (writing : Writing) (configs : Std.ExtTreeMap String JobConfig) (s : Jobs) : Result Unit × Jobs :=
  match writing with
  | .done => (.ok (), { s with saved := some (.file (text A configs)) })
  | .replaced e => (.error e, { s with saved := some (.file (text A configs)) })
  | .failed e => (.error e, s)

/-- A deployed job is the one that there is, and its port is free. -/
def checkDeployment (s : Jobs) (config : JobConfig) : Result Unit := do
  match s.configs[config.id]? with
  | none => pure ()
  | some existing =>
    ensure (existing = { config with enabled := existing.enabled })
      "existing job has a different binding; choose a new job ID"
  if config.direction = .listen then
    ensure (∀ other ∈ s.configs.toList, ¬ (other.2.id ≠ config.id ∧ other.2.direction = .listen ∧ other.2.port = config.port))
      "another listening job already uses this port"
  else pure ()

/-- What `save` decides before the file is replaced: nothing, or the jobs that there are going to be. -/
def saving (config : JobConfig) (deployment : Bool) (access : Result Unit) (s : Jobs) :
    Result (Option (Std.ExtTreeMap String JobConfig)) := do
  config.validate
  access
  (if deployment then checkDeployment s config else pure ())
  if deployment = true ∧ config.id ∈ s.configs then pure none
  else do
    let configs := s.configs.insert config.id config
    ensure (configs.size ≤ 32) "too many managed jobs"
    pure (some configs)

/-- Save a job, and stop its child. -/
def save (config : JobConfig) (deployment : Bool) (access : Result Unit) (writing : Writing) (s : Jobs) : Result Unit × Jobs :=
  match saving config deployment access s with
  | .error e => (.error e, s)
  | .ok none => (.ok (), s)
  | .ok (some configs) =>
    match persist A writing configs s with
    | (.error e, s) => (.error e, s)
    | (.ok (), s) => (.ok (), { s with
        configs, running := s.running.erase config.id, retry := s.retry.erase config.id })

/-- Let a job run, or stop its child. -/
def setEnabled (id : String) (enabled : Bool) (access : Result Unit) (writing : Writing) (s : Jobs) : Result Unit × Jobs :=
  match s.configs[id]? with
  | none => (.error (.message "unknown job"), s)
  | some config =>
    match (if enabled then access else .ok ()) with
    | .error e => (.error e, s)
    | .ok () =>
      let configs := s.configs.insert id { config with enabled }
      match persist A writing configs s with
      | (.error e, s) => (.error e, s)
      | (.ok (), s) => (.ok (), { s with
          configs
          running := if enabled then s.running else s.running.erase id
          retry := s.retry.erase id })

/-- Take away a child that has ended. -/
def reap (config : JobConfig) (m : Moment) (ended : Bool) (s : Jobs) : Jobs :=
  if ended = true ∧ config.id ∈ s.running then
    { s with running := s.running.erase config.id, retry := s.retry.insert config.id (m.noticed + delay) }
  else s

/-- The job is to be started. -/
def due (config : JobConfig) (m : Moment) (s : Jobs) : Bool :=
  config.enabled && (s.running[config.id]?).isNone && ((s.retry[config.id]?).all fun t => t ≤ m.considered)

/-- Start a job. -/
def start (config : JobConfig) (m : Moment) (s : Jobs) : Jobs :=
  match m.started with
  | .ok pid => { s with running := s.running.insert config.id ⟨config, pid⟩ }
  | .error _ => { s with retry := s.retry.insert config.id (m.failed + delay) }

/-- The child of a job has ended. -/
def noticed (config : JobConfig) (m : Moment) (s : Jobs) : Result Bool :=
  if config.id ∈ s.running then m.ended else .ok false

/-- Look at a job. -/
def visit (config : JobConfig) (m : Moment) (s : Jobs) : Result Unit × Jobs :=
  match s.noticed config m with
  | .error e => (.error e, s)
  | .ok ended =>
    let s := s.reap config m ended
    (.ok (), if s.due config m then s.start config m else s)

/-- Looking at a job leads to a start. -/
def attempted (config : JobConfig) (m : Moment) (s : Jobs) : Bool :=
  match s.noticed config m with
  | .error _ => false
  | .ok ended => (s.reap config m ended).due config m

/-- Look at some jobs. -/
def visits : List (JobConfig × Moment) → Jobs → Result Unit × Jobs
  | [], s => (.ok (), s)
  | (config, m) :: rest, s =>
    match s.visit config m with
    | (.error e, s) => (.error e, s)
    | (.ok (), s) => visits rest s

/-- Look at all jobs. -/
def tick (moments : String → Moment) (s : Jobs) : Result Unit × Jobs :=
  visits (s.configs.toList.map fun e => (e.2, moments e.1)) s

/-- Stop all children. -/
def shutdown (s : Jobs) : Jobs := { s with running := ∅ }

/-! ### Runs -/

/-- What has happened to the jobs. -/
inductive Happening where
  /-- A job was to be started at this time. -/
  | attempt (id : String) (time : ℕ)
  /-- Somebody has changed a job. -/
  | changed (id : String)
  /-- All children were stopped. -/
  | stopped
  deriving DecidableEq

/-- What happens when some jobs are looked at, the last first. -/
def attempts : List (JobConfig × Moment) → Jobs → List Happening
  | [], _ => []
  | (config, m) :: rest, s =>
    match s.visit config m with
    | (.error _, _) => []
    | (.ok (), s') => attempts rest s' ++ if s.attempted config m then [.attempt config.id m.considered] else []

/-- The time goes on from look to look. -/
def Timely : ℕ → List (JobConfig × Moment) → ℕ → Prop
  | clock, [], clock' => clock ≤ clock'
  | clock, (_, m) :: rest, clock' =>
    clock ≤ m.noticed ∧ m.noticed ≤ m.considered ∧ m.considered ≤ m.failed ∧ Timely m.failed rest clock'

/-- Whether the time goes on can be decided. -/
def decidableTimely : ∀ (clock : ℕ) (looks : List (JobConfig × Moment)) (clock' : ℕ), Decidable (Timely clock looks clock')
  | clock, [], clock' => inferInstanceAs (Decidable (clock ≤ clock'))
  | clock, (_, m) :: rest, clock' =>
    letI := decidableTimely m.failed rest clock'
    inferInstanceAs (Decidable (clock ≤ m.noticed ∧ m.noticed ≤ m.considered ∧ m.considered ≤ m.failed ∧
      Timely m.failed rest clock'))

instance (clock : ℕ) (looks : List (JobConfig × Moment)) (clock' : ℕ) : Decidable (Timely clock looks clock') :=
  decidableTimely clock looks clock'

/-- What happens when a job is saved. -/
def changes (config : JobConfig) (deployment : Bool) (s : Jobs) : List Happening :=
  if deployment = true ∧ config.id ∈ s.configs then [] else [.changed config.id]

/-- What becomes of the supervisor: the time, what has happened, the last first, and the jobs. -/
inductive Run : ℕ → List Happening → Jobs → Prop where
  /-- It is opened. -/
  | start {clock : ℕ} {saved : Option Stored} {s : Jobs} : open_ A saved = .ok s → Run clock [] s
  /-- The time goes on, and children end. -/
  | time {clock clock' : ℕ} {log : List Happening} {s : Jobs} : Run clock log s → clock ≤ clock' → Run clock' log s
  /-- A job is saved. -/
  | save {clock : ℕ} {log : List Happening} {s s' : Jobs} {config : JobConfig} {deployment : Bool} {access : Result Unit}
      {writing : Writing} : Run clock log s → config.Addressed A →
      s.save A config deployment access writing = (.ok (), s') →
      Run clock (changes config deployment s ++ log) s'
  /-- A job is let run or stopped. -/
  | setEnabled {clock : ℕ} {log : List Happening} {s s' : Jobs} {id : String} {enabled : Bool} {access : Result Unit}
      {writing : Writing} : Run clock log s → s.setEnabled A id enabled access writing = (.ok (), s') →
      Run clock (.changed id :: log) s'
  /-- A job is not saved. -/
  | unsaved {clock : ℕ} {log : List Happening} {s s' : Jobs} {config : JobConfig} {deployment : Bool} {access : Result Unit}
      {writing : Writing} {e : Error} : Run clock log s → config.Addressed A →
      s.save A config deployment access writing = (.error e, s') →
      Run clock log s'
  /-- A job is neither let run nor stopped. -/
  | unset {clock : ℕ} {log : List Happening} {s s' : Jobs} {id : String} {enabled : Bool} {access : Result Unit}
      {writing : Writing} {e : Error} : Run clock log s → s.setEnabled A id enabled access writing = (.error e, s') →
      Run clock log s'
  /-- All jobs are looked at. -/
  | tick {clock clock' : ℕ} {log : List Happening} {s : Jobs} (moments : String → Moment) : Run clock log s →
      Timely clock (s.configs.toList.map fun e => (e.2, moments e.1)) clock' →
      Run clock' (attempts (s.configs.toList.map fun e => (e.2, moments e.1)) s ++ log) (s.tick moments).2
  /-- It is killed, and its children with it, and opened again. -/
  | reopened {clock : ℕ} {log : List Happening} {s s' : Jobs} : Run clock log s → open_ A s.saved = .ok s' →
      Run clock (.stopped :: log) s'
  /-- It stops all children. -/
  | shutdown {clock : ℕ} {log : List Happening} {s : Jobs} : Run clock log s → Run clock (.stopped :: log) s.shutdown

/-- The time at which a job was to be started last, if nothing was changed since. -/
def last (id : String) : List Happening → Option ℕ
  | [] => none
  | .attempt other t :: rest => if other = id then some t else last id rest
  | .changed other :: rest => if other = id then none else last id rest
  | .stopped :: _ => none

/-- A job is not started again within five seconds, unless something was changed. -/
def Spaced : List Happening → Prop
  | [] => True
  | .attempt id t :: rest => (∀ t', last id rest = some t' → t' + delay ≤ t) ∧ Spaced rest
  | .changed _ :: rest => Spaced rest
  | .stopped :: rest => Spaced rest

/-! ### What holds all along -/

variable {s s' : Jobs} {config : JobConfig} {m : Moment} {configs : Std.ExtTreeMap String JobConfig} {clock clock' : ℕ}
  {log : List Happening}

/-- The jobs would be accepted, and have addresses. -/
structure Accepted (configs : Std.ExtTreeMap String JobConfig) : Prop where
  /-- They pass the check. -/
  valid : validate configs = .ok ()
  /-- Their addresses are addresses. -/
  addressed : ∀ (id : String) (c : JobConfig), configs[id]? = some c → c.Addressed A

/-- What holds all along. -/
structure Sound (s : Jobs) : Prop where
  /-- The file is accepted. -/
  saved : ∃ configs, load A s.saved = .ok configs ∧ Accepted A configs
  /-- What is to run would be accepted. -/
  configs : Accepted A s.configs
  /-- Each child runs what is configured under its name, and is to run. -/
  running : ∀ (id : String) (child : Child), s.running[id]? = some child →
    s.configs[id]? = some child.config ∧ child.config.enabled = true

variable {A}

theorem validate_eq_ok : validate configs = .ok () ↔ configs.size ≤ 32 ∧
    ∀ (id : String) (c : JobConfig), configs[id]? = some c → c.validate = .ok () ∧ id = c.id := by
  rw [validate, ensure_bind_eq_ok, forM_eq_ok]
  refine and_congr_right fun _ => ⟨fun h id c hc => ?_, fun h e he => ?_⟩
  · obtain ⟨⟨⟩, hv, hid⟩ := bind_eq_ok.mp (h (id, c) (Std.ExtTreeMap.mem_toList_iff_getElem?_eq_some.mpr hc))
    exact ⟨hv, ensure_eq_ok.mp hid⟩
  · obtain ⟨hv, hid⟩ := h e.1 e.2 (Std.ExtTreeMap.mem_toList_iff_getElem?_eq_some.mp he)
    exact bind_eq_ok.mpr ⟨(), hv, ensure_eq_ok.mpr hid⟩

/-- A valid job is put among valid ones. -/
theorem validate_insert (h : validate configs = .ok ()) (hc : config.validate = .ok ())
    (hsize : (configs.insert config.id config).size ≤ 32) : validate (configs.insert config.id config) = .ok () := by
  refine validate_eq_ok.mpr ⟨hsize, fun id c hid => ?_⟩
  rw [Std.ExtTreeMap.getElem?_insert] at hid
  split_ifs at hid with heq
  · obtain rfl := Option.some.inj hid
    exact ⟨hc, (Std.LawfulEqCmp.eq_of_compare heq).symm⟩
  · exact (validate_eq_ok.mp h).2 id c hid

/-- A valid job with an address is put among such. -/
theorem Accepted.insert (h : Accepted A configs) (hc : config.validate = .ok ()) (haddress : config.Addressed A)
    (hsize : (configs.insert config.id config).size ≤ 32) : Accepted A (configs.insert config.id config) := by
  refine ⟨validate_insert h.valid hc hsize, fun id c hid => ?_⟩
  rw [Std.ExtTreeMap.getElem?_insert] at hid
  split_ifs at hid
  · exact Option.some.inj hid ▸ haddress
  · exact h.addressed id c hid

/-- A map is put together again from its list. -/
theorem ofList_toList (configs : Std.ExtTreeMap String JobConfig) : Std.ExtTreeMap.ofList configs.toList = configs := by
  refine Std.ExtTreeMap.ext_getElem? fun id => ?_
  cases hid : configs[id]? with
  | some c =>
    exact Std.ExtTreeMap.getElem?_ofList_of_mem Std.ReflCmp.compare_self Std.ExtTreeMap.distinct_keys_toList
      (Std.ExtTreeMap.mem_toList_iff_getElem?_eq_some.mpr hid)
  | none =>
    refine Std.ExtTreeMap.getElem?_ofList_of_contains_eq_false ?_
    rw [Std.ExtTreeMap.map_fst_toList_eq_keys, ← Bool.not_eq_true, List.contains_iff_mem, Std.ExtTreeMap.mem_keys]
    exact fun hmem => by simp [Std.ExtTreeMap.mem_iff_isSome_getElem?, hid] at hmem

theorem ofJson_toJson (h : Accepted A configs) : ofJson A (toJson A configs) = some configs := by
  have hall : ∀ l : List (String × JobConfig), (∀ e ∈ l, e.2.Addressed A) →
      (l.map fun e => (e.1, e.2.toJson A)).mapM (fun m => (JobConfig.ofJson A m.2).map fun c => (m.1, c)) = some l := by
    intro l hl
    induction l with
    | nil => rfl
    | cons e l ih =>
      rw [List.map_cons, List.mapM_cons, JobConfig.ofJson_toJson (hl e List.mem_cons_self),
        ih fun e he => hl e (List.mem_cons_of_mem _ he)]
      rfl
  have hmem : ∀ e ∈ configs.toList, e.2.Addressed A := fun e he =>
    h.addressed e.1 e.2 (Std.ExtTreeMap.mem_toList_iff_getElem?_eq_some.mp he)
  rw [toJson, ofJson, hall _ hmem]
  exact congrArg some (ofList_toList configs)

theorem mem_of_mapM {α γ : Type} {f : α → Option γ} {l : List α} {l' : List γ} (h : l.mapM f = some l') :
    ∀ b ∈ l', ∃ a ∈ l, f a = some b := by
  induction l generalizing l' with
  | nil =>
    obtain rfl := Option.some.inj h
    exact fun b hb => absurd hb List.not_mem_nil
  | cons a l ih =>
    rw [List.mapM_cons] at h
    obtain ⟨b, hb, h⟩ := Option.bind_eq_some_iff.mp h
    obtain ⟨bs, hbs, h⟩ := Option.bind_eq_some_iff.mp h
    obtain rfl := Option.some.inj h
    intro b' hb'
    rcases List.mem_cons.mp hb' with rfl | hb'
    · exact ⟨a, List.mem_cons_self, hb⟩
    · obtain ⟨a', ha', hfa⟩ := ih hbs b' hb'
      exact ⟨a', List.mem_cons_of_mem _ ha', hfa⟩

/-- What a map that is put together holds is in the list. -/
theorem mem_of_getElem?_ofList {l : List (String × JobConfig)} {id : String} {c : JobConfig}
    (h : (Std.ExtTreeMap.ofList l)[id]? = some c) : ∃ e ∈ l, e.2 = c := by
  have hall : ∀ (l : List (String × JobConfig)) (t : Std.ExtTreeMap String JobConfig),
      (l.foldl (fun t e => t.insert e.1 e.2) t)[id]? = some c → t[id]? = some c ∨ ∃ e ∈ l, e.2 = c := by
    intro l
    induction l with
    | nil => exact fun t ht => .inl ht
    | cons e l ih =>
      intro t ht
      rcases ih _ ht with hin | ⟨e', he', hc⟩
      · rw [Std.ExtTreeMap.getElem?_insert] at hin
        split_ifs at hin
        · exact .inr ⟨e, List.mem_cons_self, Option.some.inj hin⟩
        · exact .inl hin
      · exact .inr ⟨e', List.mem_cons_of_mem _ he', hc⟩
  rw [Std.ExtTreeMap.ofList_eq_foldl] at h
  exact (hall l ∅ h).resolve_left (by simp)

/-- Jobs that are read have addresses. -/
theorem addressed_of_ofJson {j : Json} (h : ofJson A j = some configs) (id : String) (c : JobConfig)
    (hc : configs[id]? = some c) : c.Addressed A := by
  cases j with
  | obj members =>
    obtain ⟨entries, hentries, h⟩ := Option.bind_eq_some_iff.mp h
    obtain rfl := Option.some.inj h
    obtain ⟨e, he, rfl⟩ := mem_of_getElem?_ofList hc
    obtain ⟨m, -, hm⟩ := mem_of_mapM hentries e he
    obtain ⟨c, hread, rfl⟩ := Option.map_eq_some_iff.mp hm
    exact JobConfig.addressed_of_ofJson hread
  | _ => cases h

theorem depth_text (configs : Std.ExtTreeMap String JobConfig) : (toJson A configs).depth ≤ Json.maxDepth := by
  have hdepth : (toJson A configs).depth ≤ 2 := by
    refine Json.depth_obj_le.mpr fun m hm => ?_
    obtain ⟨e, -, rfl⟩ := List.mem_map.mp hm
    exact e.2.depth_toJson
  exact hdepth.trans (by decide)

/-- The text of an object with short members is short. -/
theorem length_prettyMembers_le {l : List (String × Json)} {n indent : ℕ}
    (h : ∀ m ∈ l, (Json.quoted m.1).length + (m.2.pretty indent).length ≤ n) :
    (Json.prettyMembers indent l).length ≤ l.length * (n + 4 + 2 * indent) := by
  induction l with
  | nil => simp [Json.prettyMembers]
  | cons m l ih =>
    have hm := h m List.mem_cons_self
    have hrest := ih fun k hk => h k (List.mem_cons_of_mem _ hk)
    rw [List.length_cons, Nat.succ_mul]
    obtain ⟨name, value⟩ := m
    cases l with
    | nil =>
      simp only [Json.prettyMembers, List.length_append, List.length_cons]
      dsimp only at hm
      omega
    | cons k l =>
      simp only [Json.prettyMembers, Json.newline, List.length_append, List.length_cons, List.length_replicate]
      simp only [List.length_cons] at hrest
      dsimp only at hm
      omega

/-- Accepted jobs fit into the file. -/
theorem Accepted.length_text_le (h : Accepted A configs) : (text A configs).length ≤ maxText := by
  obtain ⟨hsize, hconfigs⟩ := validate_eq_ok.mp h.valid
  have hmembers : (Json.prettyMembers (0 + 1) (configs.toList.map fun e => (e.1, e.2.toJson A))).length ≤ 32 * 2792 := by
    refine (@length_prettyMembers_le _ 2786 _ fun m hm => ?_).trans (Nat.mul_le_mul_right _ ?_)
    · obtain ⟨e, he, rfl⟩ := List.mem_map.mp hm
      have hget := Std.ExtTreeMap.mem_toList_iff_getElem?_eq_some.mp he
      obtain ⟨hvalid, hid⟩ := hconfigs e.1 e.2 hget
      obtain ⟨hname, hvalue⟩ := JobConfig.length_pretty_le hvalid (h.addressed e.1 e.2 hget)
      rw [← hid] at hname
      exact Nat.add_le_add hname hvalue
    · rw [List.length_map, Std.ExtTreeMap.length_toList]
      exact hsize
  rw [text, toJson, Json.pretty]
  split_ifs
  · simp [maxText]
  · simp only [Json.newline, List.length_append, List.length_cons, List.length_replicate, List.length_nil, maxText]
    omega

/-- **What was written is read.** -/
theorem Accepted.load_text (h : Accepted A configs) : load A (some (.file (text A configs))) = .ok configs := by
  rw [load, ensure_bind_eq_ok]
  refine ⟨h.length_text_le, ?_⟩
  rw [decode, text, Json.parse_pretty (depth_text configs), Option.bind_some, ofJson_toJson h]

/-- Jobs that are read have addresses. -/
theorem addressed_of_load {saved : Option Stored} (h : load A saved = .ok configs) (id : String) (c : JobConfig)
    (hc : configs[id]? = some c) : c.Addressed A := by
  rcases saved with _ | ⟨bytes⟩ | _
  · obtain rfl := Except.ok.inj h
    simp at hc
  · obtain ⟨-, h⟩ := ensure_bind_eq_ok.mp h
    rw [decode] at h
    split at h
    · rename_i hread
      obtain ⟨j, -, hj⟩ := Option.bind_eq_some_iff.mp hread
      exact addressed_of_ofJson (Except.ok.inj h ▸ hj) id c hc
    · cases h
  · cases h

theorem open_eq_ok {saved : Option Stored} :
    open_ A saved = .ok s ↔ load A saved = .ok s.configs ∧ validate s.configs = .ok () ∧ s = ⟨saved, s.configs, ∅, ∅⟩ := by
  constructor
  · intro h
    obtain ⟨configs, hload, h⟩ := bind_eq_ok.mp h
    obtain ⟨⟨⟩, hvalid, h⟩ := bind_eq_ok.mp h
    obtain rfl := pure_eq_ok.mp h
    exact ⟨hload, hvalid, rfl⟩
  · rintro ⟨hload, hvalid, hs⟩
    exact bind_eq_ok.mpr ⟨_, hload, bind_eq_ok.mpr ⟨(), hvalid, pure_eq_ok.mpr hs.symm⟩⟩

theorem open_sound {saved : Option Stored} (h : open_ A saved = .ok s) : Sound A s := by
  obtain ⟨hload, hvalid, hs⟩ := open_eq_ok.mp h
  have haccepted : Accepted A s.configs := ⟨hvalid, addressed_of_load hload⟩
  refine ⟨⟨s.configs, by rw [hs]; exact hload, haccepted⟩, haccepted, fun id child hr => ?_⟩
  rw [hs] at hr
  simp at hr

/-- The supervisor can be opened again. -/
theorem Sound.opens (h : Sound A s) : ∃ s', open_ A s.saved = .ok s' := by
  obtain ⟨configs, hload, haccepted⟩ := h.saved
  exact ⟨⟨s.saved, configs, ∅, ∅⟩, open_eq_ok.mpr ⟨hload, haccepted.valid, rfl⟩⟩

/-- The file is replaced by one that is accepted, or stays, and nothing else changes. -/
theorem persist_sound (h : Sound A s) (haccepted : Accepted A configs) {writing : Writing} {r : Result Unit}
    (hp : persist A writing configs s = (r, s')) :
    Sound A s' ∧ s'.configs = s.configs ∧ s'.running = s.running ∧ s'.retry = s.retry := by
  have hset : ∀ {t : Jobs}, t = { s with saved := some (.file (text A configs)) } → Sound A t ∧ t.configs = s.configs ∧
      t.running = s.running ∧ t.retry = s.retry := by
    rintro t rfl
    exact ⟨⟨⟨configs, haccepted.load_text, haccepted⟩, h.configs, h.running⟩, rfl, rfl, rfl⟩
  cases writing with
  | done => exact hset (Prod.mk.inj hp).2.symm
  | replaced e => exact hset (Prod.mk.inj hp).2.symm
  | failed e =>
    obtain ⟨rfl, rfl⟩ := Prod.mk.inj hp
    exact ⟨h, rfl, rfl, rfl⟩

/-- A map without a key holds the others. -/
theorem getElem?_erase_eq {α : Type} {t : Std.ExtTreeMap String α} {id other : String} {a : α}
    (h : (t.erase id)[other]? = some a) : other ≠ id ∧ t[other]? = some a := by
  rw [Std.ExtTreeMap.getElem?_erase] at h
  split_ifs at h with heq
  exact ⟨fun he => heq (by rw [he]; exact Std.ReflCmp.compare_self), h⟩

theorem getElem?_insert_ne {α : Type} {t : Std.ExtTreeMap String α} {id other : String} {a : α} (h : other ≠ id) :
    (t.insert id a)[other]? = t[other]? := by
  rw [Std.ExtTreeMap.getElem?_insert, if_neg fun heq => h (Std.LawfulEqCmp.eq_of_compare heq).symm]

/-- What a job is saved into. -/
theorem saving_eq_some {deployment : Bool} {access : Result Unit} (h : saving config deployment access s = .ok (some configs)) :
    ¬ (deployment = true ∧ config.id ∈ s.configs) ∧ config.validate = .ok () ∧ configs = s.configs.insert config.id config ∧
      configs.size ≤ 32 := by
  obtain ⟨⟨⟩, hconfig, h⟩ := bind_eq_ok.mp h
  obtain ⟨⟨⟩, -, h⟩ := bind_eq_ok.mp h
  obtain ⟨⟨⟩, -, h⟩ := bind_eq_ok.mp h
  split_ifs at h with hkept
  · cases h
  · obtain ⟨hsize, h⟩ := ensure_bind_eq_ok.mp h
    obtain rfl := Option.some.inj (pure_eq_ok.mp h)
    exact ⟨hkept, hconfig, rfl, hsize⟩

theorem saving_eq_none {deployment : Bool} {access : Result Unit} (h : saving config deployment access s = .ok none) :
    deployment = true ∧ config.id ∈ s.configs := by
  obtain ⟨⟨⟩, -, h⟩ := bind_eq_ok.mp h
  obtain ⟨⟨⟩, -, h⟩ := bind_eq_ok.mp h
  obtain ⟨⟨⟩, -, h⟩ := bind_eq_ok.mp h
  split_ifs at h with hkept
  · exact hkept
  · obtain ⟨-, h⟩ := ensure_bind_eq_ok.mp h
    cases pure_eq_ok.mp h

/-- Saving a job: its child is stopped and may be started at once, or nothing has changed but the file. -/
theorem save_spec {deployment : Bool} {access : Result Unit} {writing : Writing} {r : Result Unit} (h : Sound A s)
    (haddress : config.Addressed A)
    (hs : s.save A config deployment access writing = (r, s')) :
    Sound A s' ∧ (∀ e, r = .error e → s'.running = s.running ∧ s'.retry = s.retry) ∧
      (r = .ok () → (deployment = true ∧ config.id ∈ s.configs) ∧ s' = s ∨
        ¬ (deployment = true ∧ config.id ∈ s.configs) ∧ s'.running = s.running.erase config.id ∧
          s'.retry = s.retry.erase config.id) := by
  rw [save] at hs
  split at hs
  · obtain ⟨rfl, rfl⟩ := Prod.mk.inj hs
    exact ⟨h, fun _ _ => ⟨rfl, rfl⟩, fun he => (by cases he)⟩
  · rename_i hsaving
    obtain ⟨rfl, rfl⟩ := Prod.mk.inj hs
    exact ⟨h, fun _ he => (by cases he), fun _ => .inl ⟨saving_eq_none hsaving, rfl⟩⟩
  · rename_i configs hsaving
    obtain ⟨hkept, hconfig, rfl, hsize⟩ := saving_eq_some hsaving
    have haccepted := h.configs.insert hconfig haddress hsize
    split at hs
    · rename_i e t hp
      obtain ⟨rfl, rfl⟩ := Prod.mk.inj hs
      obtain ⟨ht, -, hrunning, hretry⟩ := persist_sound h haccepted hp
      exact ⟨ht, fun _ _ => ⟨hrunning, hretry⟩, fun he => (by cases he)⟩
    · rename_i t hp
      obtain ⟨rfl, rfl⟩ := Prod.mk.inj hs
      obtain ⟨ht, -, hrunning, hretry⟩ := persist_sound h haccepted hp
      refine ⟨⟨ht.saved, haccepted, fun id child hr => ?_⟩, fun _ he => (by cases he),
        fun _ => .inr ⟨hkept, by rw [← hrunning], by rw [← hretry]⟩⟩
      obtain ⟨hne, hr⟩ := getElem?_erase_eq hr
      rw [getElem?_insert_ne hne]
      exact h.running id child (hrunning ▸ hr)

/-- Changing whether a job is to run keeps the jobs valid. -/
theorem validate_setEnabled {id : String} {enabled : Bool} (h : validate configs = .ok ()) (hconfig : configs[id]? = some config) :
    validate (configs.insert id { config with enabled }) = .ok () := by
  obtain ⟨hvalid, rfl⟩ := (validate_eq_ok.mp h).2 id config hconfig
  have hmem : config.id ∈ configs := Std.ExtTreeMap.mem_iff_isSome_getElem?.mpr (by rw [hconfig]; rfl)
  refine @validate_insert { config with enabled } _ h hvalid ?_
  rw [Std.ExtTreeMap.size_insert, if_pos (Std.ExtTreeMap.contains_iff_mem.mpr hmem)]
  exact (validate_eq_ok.mp h).1

/-- Changing whether a job is to run keeps the jobs acceptable. -/
theorem Accepted.setEnabled {id : String} {enabled : Bool} (h : Accepted A configs) (hconfig : configs[id]? = some config) :
    Accepted A (configs.insert id { config with enabled }) := by
  refine ⟨validate_setEnabled h.valid hconfig, fun other c hc => ?_⟩
  rw [Std.ExtTreeMap.getElem?_insert] at hc
  split_ifs at hc
  · obtain rfl := Option.some.inj hc
    exact h.addressed id config hconfig
  · exact h.addressed other c hc

/-- Letting a job run or stopping it: nobody else's child is touched, or nothing has changed but the file. -/
theorem setEnabled_spec {id : String} {enabled : Bool} {access : Result Unit} {writing : Writing} {r : Result Unit}
    (h : Sound A s) (hs : s.setEnabled A id enabled access writing = (r, s')) :
    Sound A s' ∧ (∀ e, r = .error e → s'.running = s.running ∧ s'.retry = s.retry) ∧
      (r = .ok () → s'.running = (if enabled then s.running else s.running.erase id) ∧ s'.retry = s.retry.erase id) := by
  rw [setEnabled] at hs
  split at hs
  · obtain ⟨rfl, rfl⟩ := Prod.mk.inj hs
    exact ⟨h, fun _ _ => ⟨rfl, rfl⟩, fun he => (by cases he)⟩
  rename_i config hconfig
  have haccepted : Accepted A (s.configs.insert id { config with enabled }) := h.configs.setEnabled hconfig
  split at hs
  · obtain ⟨rfl, rfl⟩ := Prod.mk.inj hs
    exact ⟨h, fun _ _ => ⟨rfl, rfl⟩, fun he => (by cases he)⟩
  dsimp only at hs
  split at hs
  · rename_i e t hp
    obtain ⟨rfl, rfl⟩ := Prod.mk.inj hs
    obtain ⟨ht, -, hrunning, hretry⟩ := persist_sound h haccepted hp
    exact ⟨ht, fun _ _ => ⟨hrunning, hretry⟩, fun he => (by cases he)⟩
  · rename_i t hp
    obtain ⟨rfl, rfl⟩ := Prod.mk.inj hs
    obtain ⟨ht, -, hrunning, hretry⟩ := persist_sound h haccepted hp
    refine ⟨⟨ht.saved, haccepted, fun other child hr => ?_⟩, fun _ he => (by cases he),
      fun _ => ⟨by rw [← hrunning], by rw [← hretry]⟩⟩
    -- A child that stays is not the one of the job, or the job is to run as before.
    have hchild : s.running[other]? = some child ∧ (other = id → enabled = true) := by
      cases enabled with
      | true =>
        simp only [if_true] at hr
        exact ⟨hrunning ▸ hr, fun _ => rfl⟩
      | false =>
        simp only [Bool.false_eq_true, if_false] at hr
        obtain ⟨hne, hr⟩ := getElem?_erase_eq hr
        exact ⟨hrunning ▸ hr, fun he => absurd he hne⟩
    obtain ⟨hchild, henabled⟩ := hchild
    obtain ⟨hc, htrue⟩ := h.running other child hchild
    refine ⟨?_, htrue⟩
    dsimp only
    by_cases hother : other = id
    · subst hother
      obtain rfl : config = child.config := Option.some.inj (hconfig.symm.trans hc)
      obtain rfl := henabled rfl
      rw [Std.ExtTreeMap.getElem?_insert_self, Option.some.injEq]
      exact congrArg (fun b => { child.config with enabled := b }) htrue.symm
    · rw [getElem?_insert_ne hother, hc]

/-- The jobs are looked at as they are configured. -/
def Current (s : Jobs) (looks : List (JobConfig × Moment)) : Prop :=
  ∀ look ∈ looks, s.configs[look.1.id]? = some look.1

/-- What a look at a job leads to. -/
inductive Visited (config : JobConfig) (m : Moment) (s : Jobs) : Jobs → Prop where
  /-- Nothing is started. -/
  | idle {ended : Bool} : s.attempted config m = false → Visited config m s (s.reap config m ended)
  /-- The child is started. -/
  | started {ended : Bool} {pid : ℕ} : s.attempted config m = true → (s.reap config m ended).due config m = true →
      Visited config m s { s.reap config m ended with running := (s.reap config m ended).running.insert config.id ⟨config, pid⟩ }
  /-- It cannot be started. -/
  | refused {ended : Bool} : s.attempted config m = true → (s.reap config m ended).due config m = true →
      Visited config m s { s.reap config m ended with retry := (s.reap config m ended).retry.insert config.id (m.failed + delay) }

theorem visited (h : s.visit config m = (.ok (), s')) : Visited config m s s' := by
  rw [visit] at h
  split at h
  · cases (Prod.mk.inj h).1
  · rename_i ended hended
    obtain ⟨-, rfl⟩ := Prod.mk.inj h
    have hattempted : s.attempted config m = (s.reap config m ended).due config m := by rw [attempted, hended]
    split_ifs with hdue
    · rw [start]
      cases m.started with
      | ok pid => exact .started (hattempted.trans hdue) hdue
      | error e => exact .refused (hattempted.trans hdue) hdue
    · exact .idle (hattempted.trans (by simpa using hdue))

theorem visit_error {e : Error} (h : s.visit config m = (.error e, s')) : s' = s := by
  rw [visit] at h
  split at h
  · exact (Prod.mk.inj h).2.symm
  · cases (Prod.mk.inj h).1

/-- What is running after the ended child was taken away, ran before. -/
theorem running_reap {ended : Bool} {id : String} {child : Child} (h : (s.reap config m ended).running[id]? = some child) :
    s.running[id]? = some child := by
  rw [reap] at h
  split_ifs at h
  · exact (getElem?_erase_eq h).2
  · exact h

theorem configs_reap {ended : Bool} : (s.reap config m ended).configs = s.configs := by
  rw [reap]
  split_ifs <;> rfl

theorem saved_reap {ended : Bool} : (s.reap config m ended).saved = s.saved := by
  rw [reap]
  split_ifs <;> rfl

theorem Sound.reap (h : Sound A s) (ended : Bool) : Sound A (s.reap config m ended) where
  saved := by
    rw [saved_reap]
    exact h.saved
  configs := by
    rw [configs_reap]
    exact h.configs
  running id child hr := by
    rw [configs_reap]
    exact h.running id child (running_reap hr)

theorem Visited.sameConfigs (h : Visited config m s s') : s'.configs = s.configs := by
  cases h with
  | idle _ => exact configs_reap
  | started _ _ => exact configs_reap
  | refused _ _ => exact configs_reap

theorem Visited.sound (hs : Sound A s) (hconfig : s.configs[config.id]? = some config) (h : Visited config m s s') : Sound A s' := by
  cases h with
  | @idle ended _ => exact hs.reap ended
  | @started ended pid _ hdue =>
    have hr : Sound A (s.reap config m ended) := hs.reap ended
    refine ⟨hr.saved, hr.configs, fun id child hchild => ?_⟩
    dsimp only at hchild ⊢
    rw [Std.ExtTreeMap.getElem?_insert] at hchild
    split_ifs at hchild with heq
    · obtain rfl := Option.some.inj hchild
      obtain rfl := Std.LawfulEqCmp.eq_of_compare heq
      rw [configs_reap]
      rw [due, Bool.and_eq_true, Bool.and_eq_true] at hdue
      exact ⟨hconfig, hdue.1.1⟩
    · exact hr.running id child hchild
  | @refused ended _ _ =>
    have hr : Sound A (s.reap config m ended) := hs.reap ended
    exact ⟨hr.saved, hr.configs, hr.running⟩

/-- Looking at jobs keeps what is sound. -/
theorem visits_sound {looks : List (JobConfig × Moment)} (hs : Sound A s) (hcurrent : s.Current looks) :
    Sound A (visits looks s).2 := by
  induction looks generalizing s with
  | nil => exact hs
  | cons look rest ih =>
    obtain ⟨config, m⟩ := look
    rw [visits]
    split
    · rename_i e s' h
      rw [visit_error h]
      exact hs
    · rename_i s' h
      have hvisited := visited h
      refine ih (hvisited.sound hs (hcurrent _ (List.mem_cons_self ..))) fun look hlook => ?_
      rw [hvisited.sameConfigs]
      exact hcurrent look (List.mem_cons_of_mem _ hlook)

theorem current_tick (h : Sound A s) (moments : String → Moment) :
    s.Current (s.configs.toList.map fun e => (e.2, moments e.1)) := by
  intro look hlook
  obtain ⟨e, he, rfl⟩ := List.mem_map.mp hlook
  have hget := Std.ExtTreeMap.mem_toList_iff_getElem?_eq_some.mp he
  have hid := ((validate_eq_ok.mp h.configs.valid).2 _ _ hget).2
  exact hid ▸ hget

/-! ### Starts -/

/-- What is known of a job that was to be started: its child has not been taken away, or it is not to be tried again too soon. -/
def Waits (clock : ℕ) (log : List Happening) (s : Jobs) : Prop :=
  ∀ id t, last id log = some t →
    t ≤ clock ∧ (id ∈ s.running ∨ ∃ u, s.retry[id]? = some u ∧ t + delay ≤ u)

theorem Waits.mono (h : Waits clock log s) (hclock : clock ≤ clock') : Waits clock' log s := fun id t ht =>
  ⟨(h id t ht).1.trans hclock, (h id t ht).2⟩

theorem mem_erase_ne {α : Type} {t : Std.ExtTreeMap String α} {id other : String} (h : other ≠ id) (hmem : other ∈ t) :
    other ∈ t.erase id := by
  rw [Std.ExtTreeMap.mem_erase]
  exact ⟨fun heq => h (Std.LawfulEqCmp.eq_of_compare heq).symm, hmem⟩

/-- Taking away a child that has ended. -/
theorem Waits.reap (h : Waits clock log s) (hclock : clock ≤ m.noticed) (ended : Bool) :
    Waits clock log (s.reap config m ended) := by
  intro id t ht
  obtain ⟨hle, hcase⟩ := h id t ht
  refine ⟨hle, ?_⟩
  rw [Jobs.reap]
  split_ifs with hreap
  · by_cases hid : id = config.id
    · subst hid
      exact .inr ⟨_, Std.ExtTreeMap.getElem?_insert_self, Nat.add_le_add_right (hle.trans hclock) delay⟩
    · dsimp only
      rcases hcase with hrunning | ⟨u, hu, htu⟩
      · exact .inl (mem_erase_ne hid hrunning)
      · exact .inr ⟨u, by rw [getElem?_insert_ne hid, hu], htu⟩
  · exact hcase

/-- A job that is due was not to be started within five seconds. -/
theorem Waits.due (h : Waits clock log s) (hdue : s.due config m = true) {t : ℕ} (ht : last config.id log = some t) :
    t + delay ≤ m.considered := by
  rw [Jobs.due, Bool.and_eq_true, Bool.and_eq_true] at hdue
  obtain ⟨⟨-, hnone⟩, hretry⟩ := hdue
  obtain ⟨-, hrunning | ⟨u, hu, htu⟩⟩ := h _ t ht
  · rw [Std.ExtTreeMap.mem_iff_isSome_getElem?] at hrunning
    rw [Option.isNone_iff_eq_none] at hnone
    rw [hnone] at hrunning
    cases hrunning
  · rw [hu, Option.all_some, decide_eq_true_eq] at hretry
    exact htu.trans hretry

/-- Whoever waits, waits in any state with the same children and times. -/
theorem Waits.congr (h : Waits clock log s) (hrunning : s'.running = s.running) (hretry : s'.retry = s.retry) :
    Waits clock log s' := by
  intro id t ht
  rw [hrunning, hretry]
  exact h id t ht

/-- A job is changed. -/
theorem Waits.changed (h : Waits clock log s) {id : String}
    (hrunning : ∀ other, other ≠ id → other ∈ s.running → other ∈ s'.running) (hretry : s'.retry = s.retry.erase id) :
    Waits clock (.changed id :: log) s' := by
  intro other t ht
  rw [last] at ht
  split_ifs at ht with hid
  obtain ⟨hle, hcase⟩ := h other t ht
  refine ⟨hle, hcase.imp (hrunning other (Ne.symm hid)) fun ⟨u, hu, htu⟩ => ⟨u, ?_, htu⟩⟩
  rw [hretry, Std.ExtTreeMap.getElem?_erase, if_neg fun heq => hid (Std.LawfulEqCmp.eq_of_compare heq), hu]

/-- All children are stopped. -/
theorem waits_stopped : Waits clock (.stopped :: log) s := by
  intro id t ht
  cases ht

/-- What a look at a job adds to what has happened. -/
def looked (config : JobConfig) (m : Moment) (s : Jobs) (log : List Happening) : List Happening :=
  (if s.attempted config m then [.attempt config.id m.considered] else []) ++ log

theorem looked_of_not (h : s.attempted config m = false) : looked config m s log = log := by
  rw [looked, h]
  rfl

theorem looked_of (h : s.attempted config m = true) : looked config m s log = .attempt config.id m.considered :: log := by
  rw [looked, h]
  rfl

/-- A job that was to be started, and runs or is to wait. -/
theorem Waits.attempt (h : Waits clock log s) (hclock : clock ≤ clock') (hconsidered : m.considered ≤ clock')
    (hother : ∀ id, id ≠ config.id → (id ∈ s.running → id ∈ s'.running) ∧ s'.retry[id]? = s.retry[id]?)
    (hself : config.id ∈ s'.running ∨ ∃ u, s'.retry[config.id]? = some u ∧ m.considered + delay ≤ u) :
    Waits clock' (.attempt config.id m.considered :: log) s' := by
  intro id t ht
  rw [last] at ht
  split_ifs at ht with hid
  · subst hid
    obtain rfl := Option.some.inj ht
    exact ⟨hconsidered, hself⟩
  · obtain ⟨hle, hcase⟩ := h id t ht
    obtain ⟨hrunning, hretry⟩ := hother id (Ne.symm hid)
    refine ⟨hle.trans hclock, hcase.imp hrunning fun ⟨u, hu, htu⟩ => ⟨u, ?_, htu⟩⟩
    rw [hretry, hu]

/-- A look at a job leaves it waiting. -/
theorem Visited.waits (h : Visited config m s s') (hw : Waits clock log s) (hnoticed : clock ≤ m.noticed)
    (hconsidered : m.noticed ≤ m.considered) (hfailed : m.considered ≤ m.failed) :
    Waits m.failed (looked config m s log) s' := by
  have hclock : clock ≤ m.failed := (hnoticed.trans hconsidered).trans hfailed
  cases h with
  | @idle ended hnot =>
    rw [looked_of_not hnot]
    exact (hw.reap hnoticed ended).mono hclock
  | @started ended pid hattempted _ =>
    rw [looked_of hattempted]
    have hreap : Waits clock log (s.reap config m ended) := hw.reap hnoticed ended
    refine hreap.attempt hclock hfailed
      (fun id _ => ⟨fun hmem => Std.ExtTreeMap.mem_insert.mpr (.inr hmem), rfl⟩) (.inl ?_)
    exact Std.ExtTreeMap.mem_insert_self
  | @refused ended hattempted _ =>
    rw [looked_of hattempted]
    have hreap : Waits clock log (s.reap config m ended) := hw.reap hnoticed ended
    refine hreap.attempt hclock hfailed (fun id hid => ⟨fun hmem => hmem, ?_⟩)
      (.inr ⟨m.failed + delay, Std.ExtTreeMap.getElem?_insert_self, Nat.add_le_add_right hfailed delay⟩)
    exact getElem?_insert_ne hid

/-- A look at a job starts it only when it is time. -/
theorem Visited.spaced (h : Visited config m s s') (hw : Waits clock log s) (hspaced : Spaced log)
    (hnoticed : clock ≤ m.noticed) : Spaced (looked config m s log) := by
  cases h with
  | idle hnot =>
    rw [looked_of_not hnot]
    exact hspaced
  | @started ended pid hattempted hdue =>
    rw [looked_of hattempted]
    exact ⟨fun t ht => (hw.reap hnoticed ended).due hdue ht, hspaced⟩
  | @refused ended hattempted hdue =>
    rw [looked_of hattempted]
    exact ⟨fun t ht => (hw.reap hnoticed ended).due hdue ht, hspaced⟩

theorem Timely.le {looks : List (JobConfig × Moment)} (h : Timely clock looks clock') : clock ≤ clock' := by
  induction looks generalizing clock with
  | nil => exact h
  | cons look rest ih =>
    obtain ⟨hnoticed, hconsidered, hfailed, hrest⟩ := h
    exact ((hnoticed.trans hconsidered).trans hfailed).trans (ih hrest)

/-- Looking at jobs leaves them waiting, and starts each only when it is time. -/
theorem visits_spaced {looks : List (JobConfig × Moment)} (hw : Waits clock log s) (hspaced : Spaced log)
    (htimely : Timely clock looks clock') :
    Waits clock' (attempts looks s ++ log) (visits looks s).2 ∧ Spaced (attempts looks s ++ log) := by
  induction looks generalizing s clock log with
  | nil => exact ⟨hw.mono htimely, hspaced⟩
  | cons look rest ih =>
    obtain ⟨config, m⟩ := look
    have hle := htimely.le
    obtain ⟨hnoticed, hconsidered, hfailed, hrest⟩ := htimely
    rw [visits, attempts]
    rcases hvisit : s.visit config m with ⟨e | ⟨⟩, s'⟩
    · rw [visit_error hvisit]
      exact ⟨hw.mono hle, hspaced⟩
    · have hvisited := visited hvisit
      simp only [List.append_assoc]
      exact ih (hvisited.waits hw hnoticed hconsidered hfailed) (hvisited.spaced hw hspaced hnoticed) hrest

/-! ### What holds in every run -/

/-- The state is sound, and jobs wait. -/
theorem Run.invariant (h : Run A clock log s) : Sound A s ∧ Waits clock log s ∧ Spaced log := by
  induction h with
  | start hopen => exact ⟨open_sound hopen, fun _ _ ht => (by cases ht), trivial⟩
  | time _ hle ih => exact ⟨ih.1, ih.2.1.mono hle, ih.2.2⟩
  | @save clock log s s' config deployment access writing _ haddress hs ih =>
    obtain ⟨hsound, hwaits, hspaced⟩ := ih
    obtain ⟨hsound', -, hok⟩ := save_spec hsound haddress hs
    refine ⟨hsound', ?_⟩
    rcases hok rfl with ⟨hkept, rfl⟩ | ⟨hnew, hrunning, hretry⟩
    · rw [changes, if_pos hkept]
      exact ⟨hwaits, hspaced⟩
    · rw [changes, if_neg hnew]
      exact ⟨hwaits.changed (fun other hne hmem => hrunning ▸ mem_erase_ne hne hmem) hretry, hspaced⟩
  | @setEnabled clock log s s' id enabled access writing _ hs ih =>
    obtain ⟨hsound, hwaits, hspaced⟩ := ih
    obtain ⟨hsound', -, hok⟩ := setEnabled_spec hsound hs
    obtain ⟨hrunning, hretry⟩ := hok rfl
    refine ⟨hsound', hwaits.changed (fun other hne hmem => ?_) hretry, hspaced⟩
    rw [hrunning]
    split_ifs
    · exact hmem
    · exact mem_erase_ne hne hmem
  | unsaved _ haddress hs ih =>
    obtain ⟨hsound', herror, -⟩ := save_spec ih.1 haddress hs
    obtain ⟨hrunning, hretry⟩ := herror _ rfl
    exact ⟨hsound', ih.2.1.congr hrunning hretry, ih.2.2⟩
  | unset _ hs ih =>
    obtain ⟨hsound', herror, -⟩ := setEnabled_spec ih.1 hs
    obtain ⟨hrunning, hretry⟩ := herror _ rfl
    exact ⟨hsound', ih.2.1.congr hrunning hretry, ih.2.2⟩
  | tick moments _ htimely ih =>
    exact ⟨visits_sound ih.1 (current_tick ih.1 moments), visits_spaced ih.2.1 ih.2.2 htimely⟩
  | reopened _ hopen ih => exact ⟨open_sound hopen, waits_stopped, ih.2.2⟩
  | shutdown _ ih =>
    refine ⟨⟨ih.1.saved, ih.1.configs, fun id child hr => ?_⟩, waits_stopped, ih.2.2⟩
    simp [Jobs.shutdown] at hr

/-- **No job is started twice within five seconds**, unless it was changed in between, or all were stopped. -/
theorem jobs_spaced (h : Run A clock log s) : Spaced log := h.invariant.2.2

/-! ### A job that ends and is started again -/

/-- The address of an example. -/
def sampleAddresses : Addresses where
  text host port := host ++ ":" ++ toString port
  parse t := if t = "127.0.0.1:22000" then some ("127.0.0.1", 22000) else none
  parse_text h := by
    split_ifs at h with ht
    · obtain ⟨rfl, rfl⟩ := Prod.mk.inj (Option.some.inj h)
      decide +kernel
  length_text h := by
    split_ifs at h with ht
    · obtain ⟨rfl, rfl⟩ := Prod.mk.inj (Option.some.inj h)
      decide +kernel

/-- A job. -/
def sampleJob : JobConfig := ⟨"job", "folder", Platform.padded.blake3 [], "127.0.0.1", 22000, .connect, true⟩

/-- A supervisor that was opened first, and has a job. -/
def sampleSaved : Jobs := ((⟨none, ∅, ∅, ∅⟩ : Jobs).save sampleAddresses sampleJob false (.ok ()) .done).2

/-- What a look finds: a child that has ended or runs. -/
def sampleLook (ended : Bool) (t : ℕ) (_ : String) : Moment := ⟨.ok ended, t, t, .ok 1, t⟩

/-- The child was started. -/
def sampleStarted : Jobs := (sampleSaved.tick (sampleLook false 10)).2

/-- It was found to have ended. -/
def sampleEnded : Jobs := (sampleStarted.tick (sampleLook true 12)).2

theorem run_sampleEnded : Run sampleAddresses 12 [.attempt "job" 10, .changed "job"] sampleEnded := by
  have hsave : ((⟨none, ∅, ∅, ∅⟩ : Jobs).save sampleAddresses sampleJob false (.ok ()) .done).1 = .ok () := by decide +kernel
  have hsaved : Run sampleAddresses 10 [.changed "job"] sampleSaved :=
    (Run.start (show open_ sampleAddresses none = _ from rfl)).save ⟨"127.0.0.1:22000", rfl⟩ (Prod.ext hsave rfl)
  have hstarted : Run sampleAddresses 10 _ sampleStarted := hsaved.tick (sampleLook false 10) (by decide +kernel)
  exact hstarted.tick (sampleLook true 12) (by decide +kernel)

/-- A child that has ended at the time 12 is started again five seconds later. -/
theorem jobs_spaced_restarted :
    attempts (sampleEnded.configs.toList.map fun e => (e.2, sampleLook false 5000000012 e.1)) sampleEnded =
        [.attempt "job" 5000000012] ∧
      Spaced [.attempt "job" 5000000012, .attempt "job" 10, .changed "job"] := by
  have hattempts : attempts (sampleEnded.configs.toList.map fun e => (e.2, sampleLook false 5000000012 e.1)) sampleEnded =
      [.attempt "job" 5000000012] := by decide +kernel
  have hrun : Run sampleAddresses 5000000012 _ _ := run_sampleEnded.tick (sampleLook false 5000000012) (by decide +kernel)
  rw [hattempts] at hrun
  exact ⟨hattempts, jobs_spaced hrun⟩

end Jobs

end Everywhere

