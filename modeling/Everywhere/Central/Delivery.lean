import Everywhere.Central.Commands
import Everywhere.Central.System

/-!
# Commands are executed once and in order

The server and the agents share no clock and no memory, and any message between them may be lost or come late. What
they agree on rests on one invariant (`Sound`) that says, for each agent, how its journal, the answers on their way to
it and the point that its loop has reached go with the commands in the registry.

* `executed_once` — every command is started at most once, none that waits or was withdrawn has been started, and
  outcomes are final and are what the agent wrote down.
* `dispatched_in_order` — the commands of a device are started in the order in which they were queued, one at a time,
  and are handed out only to the approved device; what waits when a device is revoked is never handed out.
-/

namespace Everywhere.Central

open Library

variable {P : Platform} {readable : Bytes → Bool}

/-! ### What is seen -/

/-- The commands that an agent has started, in order. -/
def starts (d : String) (trace : List Event) : List String :=
  trace.filterMap fun
    | .start d' id => if d' = d then some id else none
    | _ => none

/-- The commands that are executed on a device after an event. -/
def runningAfter (d : String) (running : List String) : Event → List String
  | .start d' id => if d' = d then id :: running else running
  | .ended d' id => if d' = d then running.erase id else running
  | .stop d' id => if d' = d then id.elim running running.erase else running
  | _ => running

/-- The commands that are executed on a device. -/
def running (d : String) (trace : List Event) : List String := trace.foldl (runningAfter d) []

/-- No agent of the device is started while a command is executed on it. -/
def Unhurried (d : String) (trace : List Event) : Prop :=
  ∀ trace₁ trace₂, trace = trace₁ ++ .launch d :: trace₂ → running d trace₁ = []

theorem starts_append (d : String) (trace : List Event) (e : Event) :
    starts d (trace ++ [e]) = starts d trace ++ starts d [e] := List.filterMap_append

theorem running_append (d : String) (trace : List Event) (e : Event) :
    running d (trace ++ [e]) = runningAfter d (running d trace) e := by simp [running]

theorem runningAfter_subset (d : String) (l : List String) (e : Event) : runningAfter d l e ⊆ starts d [e] ++ l := by
  cases e with
  | start d' id =>
    rw [runningAfter]
    split_ifs with hd
    · simp [starts, hd]
    · exact List.subset_append_right _ _
  | ended d' id =>
    rw [runningAfter]
    split_ifs
    · exact fun _ hid => List.mem_append_right _ (List.mem_of_mem_erase hid)
    · exact List.subset_append_right _ _
  | stop d' id =>
    rw [runningAfter]
    split_ifs
    · cases id with
      | none => exact List.subset_append_right _ _
      | some id => exact fun _ hid => List.mem_append_right _ (List.mem_of_mem_erase hid)
    · exact List.subset_append_right _ _
  | _ => exact List.subset_append_right _ _

/-- What is executed was started, and once. -/
theorem running_nodup {d : String} {trace : List Event} (h : (starts d trace).Nodup) :
    running d trace ⊆ starts d trace ∧ (running d trace).Nodup := by
  induction trace using List.reverseRecOn with
  | nil => exact ⟨List.Subset.refl _, List.nodup_nil⟩
  | append_singleton trace e ih =>
    rw [starts_append] at h ⊢
    rw [running_append]
    obtain ⟨hsub, hnodup⟩ := ih h.of_append_left
    refine ⟨fun id hid => ?_, ?_⟩
    · rcases List.mem_append.mp (runningAfter_subset d _ e hid) with hid | hid
      · exact List.mem_append_right _ hid
      · exact List.mem_append_left _ (hsub hid)
    · cases e with
      | start d' id =>
        rw [runningAfter]
        split_ifs with hd
        · refine List.nodup_cons.mpr ⟨fun hid => ?_, hnodup⟩
          exact (List.disjoint_of_nodup_append h) (hsub hid) (by simp [starts, hd])
        · exact hnodup
      | ended d' id =>
        rw [runningAfter]
        split_ifs
        · exact hnodup.erase _
        · exact hnodup
      | stop d' id =>
        rw [runningAfter]
        split_ifs
        · cases id with
          | none => exact hnodup
          | some id => exact hnodup.erase _
        · exact hnodup
      | _ => exact hnodup

theorem Unhurried.of_launches {d : String} {l : List Event}
    (h : ∀ n, l[n]? = some (.launch d) → running d (l.take n) = []) : Unhurried d l := by
  rintro trace₁ trace₂ rfl
  have := h trace₁.length (by simp)
  rwa [List.take_left] at this

theorem Unhurried.of_append {d : String} {trace trace' : List Event} (h : Unhurried d (trace ++ trace')) :
    Unhurried d trace := by
  rintro trace₁ trace₂ rfl
  exact h trace₁ (trace₂ ++ trace') (by simp)

/-! ### The journal -/

namespace Journal

/-- The commands of a journal, in the order in which they were begun. -/
def ids (journal : Journal) : List String := journal.map Executed.id

/-- A command is being executed, as far as the journal knows. -/
def Executing (journal : Journal) (id : String) : Prop := ∃ e ∈ journal, e.id = id ∧ e.state = .executing

/-- A result is in the journal. -/
def Done (journal : Journal) (r : CommandResult) : Prop :=
  ∃ e ∈ journal, e.id = r.id ∧ ∃ ack, e.state = .done r ack

/-- What may become of a journal by a change in place. -/
structure Keeps (journal journal' : Journal) : Prop where
  /-- No command is added or removed. -/
  ids : journal'.ids = journal.ids
  /-- Results stay. -/
  done : ∀ r, journal.Done r → journal'.Done r
  /-- Results are of the commands they stand at. -/
  own : (∀ e ∈ journal, ∀ r ack, e.state = .done r ack → r.id = e.id) →
    ∀ e ∈ journal', ∀ r ack, e.state = .done r ack → r.id = e.id

variable {journal journal' : Journal}

@[simp] theorem bounded_id (r : CommandResult) : (bounded r).id = r.id := by
  unfold bounded
  split_ifs <;> rfl

/-- Rows that are changed in place keep their identifiers. -/
theorem ids_map {f : Executed → Executed} (hf : ∀ e, (f e).id = e.id) : Journal.ids (journal.map f) = journal.ids := by
  rw [ids, ids, List.map_map]
  exact List.map_congr_left fun e _ => hf e

theorem eq_of_id (h : journal.ids.Nodup) {e e' : Executed} (he : e ∈ journal) (he' : e' ∈ journal) (hid : e.id = e'.id) :
    e = e' :=
  List.inj_on_of_nodup_map h he he' hid

theorem keeps_finish {r : CommandResult} (h : journal.ids.Nodup) (hx : journal.Executing r.id) :
    journal.Keeps (journal.finish r) where
  ids := ids_map fun e => by split_ifs <;> rfl
  done q := by
    rintro ⟨e, he, hid, ack, hs⟩
    obtain ⟨e', he', hid', hs'⟩ := hx
    have hne : e.id ≠ r.id := by
      intro heq
      obtain rfl := eq_of_id h he he' (heq.trans hid'.symm)
      rw [hs'] at hs
      cases hs
    exact ⟨e, List.mem_map.mpr ⟨e, he, if_neg hne⟩, hid, ack, hs⟩
  own hown e he q ack hs := by
    obtain ⟨e', he', rfl⟩ := List.mem_map.mp he
    split_ifs at hs ⊢ with hid
    · cases hs
      rw [bounded_id, ← hid]
    · exact hown e' he' q ack hs

theorem executing_finish {r : CommandResult} {id : String} (hne : id ≠ r.id) (hx : journal.Executing id) :
    (journal.finish r).Executing id := by
  obtain ⟨e, he, rfl, hs⟩ := hx
  exact ⟨e, List.mem_map.mpr ⟨e, he, if_neg hne⟩, rfl, hs⟩

/-- Marking results changes nothing else. -/
theorem keeps_mark {f : Executed → Executed} (hexec : ∀ e, e.state = .executing → f e = e)
    (hdone : ∀ e r ack, e.state = .done r ack → (f e).id = e.id ∧ ∃ ack', (f e).state = .done r ack') :
    journal.Keeps (journal.map f) ∧ ∀ id, journal.Executing id → Journal.Executing (journal.map f) id := by
  have hid : ∀ e, (f e).id = e.id := by
    intro e
    cases hs : e.state with
    | executing => rw [hexec e hs]
    | done r ack => exact (hdone e r ack hs).1
  refine ⟨⟨ids_map hid, ?_, ?_⟩, ?_⟩
  · rintro r ⟨e, he, hr, ack, hs⟩
    obtain ⟨h1, ack', h2⟩ := hdone e r ack hs
    exact ⟨f e, List.mem_map_of_mem he, h1.trans hr, ack', h2⟩
  · intro hown e' he' r ack hs
    obtain ⟨e, he, rfl⟩ := List.mem_map.mp he'
    cases hs' : e.state with
    | executing =>
      rw [hexec e hs', hs'] at hs
      cases hs
    | done r' ack' =>
      obtain ⟨h1, ack'', h2⟩ := hdone e r' ack' hs'
      rw [h2] at hs
      cases hs
      rw [h1]
      exact hown e he _ _ hs'
  · rintro id ⟨e, he, rfl, hs⟩
    exact ⟨e, List.mem_map.mpr ⟨e, he, hexec e hs⟩, rfl, hs⟩

theorem keeps_acknowledge (id : String) :
    journal.Keeps (journal.acknowledge id) ∧ ∀ x, journal.Executing x → (journal.acknowledge id).Executing x := by
  refine keeps_mark (fun e he => by simp [he]) fun e r ack he => ?_
  simp only [he]
  split_ifs
  · exact ⟨rfl, true, rfl⟩
  · exact ⟨rfl, ack, he⟩

/-- A command that the journal has is not started. -/
theorem keeps_start {command : Envelope} (h : journal.start command = .ok (false, journal')) :
    journal.Keeps journal' ∧ ∀ x, journal.Executing x → journal'.Executing x := by
  simp only [start, validPeer, ensure_bind_eq_ok] at h
  obtain ⟨-, h⟩ := h
  split at h
  · rw [ensure_bind_eq_ok, pure_eq_ok] at h
    obtain ⟨-, h⟩ := h
    obtain ⟨-, rfl⟩ := Prod.mk.inj h
    refine keeps_mark (fun e he => by simp [he]) fun e r ack he => ?_
    simp only [he]
    split_ifs
    · exact ⟨rfl, false, rfl⟩
    · exact ⟨rfl, ack, he⟩
  · cases pure_eq_ok.mp h

/-- A command that is started is new. -/
theorem start_new {command : Envelope} (h : journal.start command = .ok (true, journal')) :
    command.id ∉ journal.ids ∧ journal' = journal ++ [⟨command.id, command.operation, .executing⟩] := by
  simp only [start, validPeer, ensure_bind_eq_ok] at h
  obtain ⟨-, h⟩ := h
  split at h
  · rw [ensure_bind_eq_ok, pure_eq_ok] at h
    cases h.2
  · rename_i hnone
    obtain ⟨-, rfl⟩ := Prod.mk.inj (pure_eq_ok.mp h)
    refine ⟨fun hmem => ?_, rfl⟩
    obtain ⟨e, he, hid⟩ := List.mem_map.mp hmem
    simpa [hid] using List.find?_eq_none.mp hnone e he

/-- What is reported is in the journal. -/
theorem done_of_unrecorded (hown : ∀ e ∈ journal, ∀ r ack, e.state = .done r ack → r.id = e.id) {r : CommandResult}
    (hr : r ∈ journal.unrecorded) : journal.Done r := by
  obtain ⟨e, he, hs⟩ := List.mem_filterMap.mp (List.mem_of_mem_take hr)
  split at hs
  · rename_i result hstate
    obtain rfl := Option.some.inj hs
    exact ⟨e, he, (hown e he _ _ hstate).symm, _, hstate⟩
  · cases hs

theorem interrupted_nodup (h : journal.ids.Nodup) :
    journal.interrupted.Nodup ∧ ∀ id ∈ journal.interrupted, journal.Executing id := by
  refine ⟨h.sublist (List.filter_sublist.map _), fun id hid => ?_⟩
  obtain ⟨e, he, rfl⟩ := List.mem_map.mp hid
  obtain ⟨hmem, hs⟩ := List.mem_filter.mp he
  refine ⟨e, hmem, rfl, ?_⟩
  cases hstate : e.state <;> simp_all

end Journal

/-! ### The invariant -/

/-- A command on its way to an agent: it was handed out, and comes, if the agent does not know it, after all that
the agent knows. -/
def Due (commands : List Command) (journal : Journal) (d id : String) : Prop :=
  Sent commands d id ∧ (id ∈ journal.ids ∨ (journal.ids ++ [id]).Sublist (ids commands))

/-- The results in a request are in the journal. -/
def Carries (journal : Journal) : Request → Prop
  | .enroll .. => True
  | .poll _ _ results _ => ∀ r ∈ results, journal.Done r

/-- How the point that the loop has reached goes with the rest. -/
def Phase.Sound (commands : List Command) (replies : List Outgoing) (next : ℕ) (trace : List Event) (d : String)
    (journal : Journal) (worker : Option (String × Option (ResultState × Json))) : Phase → Prop
  | .opening interrupted => worker = none ∧ interrupted.Nodup ∧ ∀ id ∈ interrupted, journal.Executing id
  | .registering n request => n < next ∧ Carries journal request
  | .waiting n => n < next ∧ ∀ m ∈ replies, m.exchange = n → m.device = d → ∀ c, m.reply.command = some c →
      Due commands journal d c.id
  | .answered _ _ command => ∀ c, command = some c → Due commands journal d c.id
  | .starting command => worker = none ∧ journal.Executing command.id ∧
      (starts d trace ++ [command.id]).Sublist journal.ids
  | .ready | .stopped => True

/-- How an agent goes with the rest. -/
structure Agent.Sound (P : Platform) (commands : List Command) (replies : List Outgoing) (next : ℕ)
    (trace : List Event) (d : String) (a : Agent) : Prop where
  /-- Commands are begun in the order in which they were queued. -/
  order : a.journal.ids.Sublist (ids commands)
  /-- They were handed out. -/
  sent : ∀ id ∈ a.journal.ids, Sent commands d id
  /-- Results are of the commands they stand at. -/
  own : ∀ e ∈ a.journal, ∀ r ack, e.state = .done r ack → r.id = e.id
  /-- What was started is in the journal. -/
  begun : (starts d trace).Sublist a.journal.ids
  /-- What runs was started. -/
  runs : Central.running d trace = a.executing
  /-- The process has the agent's identity. -/
  identity : ∀ p, a.process = some p → fingerprint P a.certificate = d
  /-- What a worker executes is known. -/
  worker : ∀ p id outcome, a.process = some p → p.worker = some (id, outcome) → a.journal.Executing id
  /-- The loop is where it should be. -/
  phase : ∀ p, a.process = some p → p.phase.Sound commands replies next trace d a.journal p.worker

/-- The invariant. -/
structure Sound (P : Platform) (trace : List Event) (s : System) : Prop where
  /-- The commands are handed out in their order. -/
  sane : Sane s.store.commands
  /-- Answers have numbers. -/
  numbered : ∀ m ∈ s.requests, m.exchange < s.next
  /-- Answers have numbers. -/
  answered : ∀ m ∈ s.replies, m.exchange < s.next
  /-- The results that are reported are in the journals. -/
  carried : ∀ m ∈ s.requests, Carries (s.agents (fingerprint P m.certificate)).journal m.request
  /-- Outcomes are what the agents wrote down. -/
  outcome : ∀ c ∈ s.store.commands, c.status.terminal → ∃ r, (s.agents c.device).journal.Done r ∧ r.id = c.id ∧
    c.status = r.status.toStatus ∧ c.result = some r.value
  /-- The agents go with the rest. -/
  agents : ∀ d, (s.agents d).Sound P s.store.commands s.replies s.next trace d

/-! ### What keeps it -/

section keep

variable {commands commands' : List Command} {replies replies' : List Outgoing} {next next' : ℕ} {trace : List Event}
  {d : String} {journal journal' : Journal} {a : Agent} {p q : Process} {s : System} {e : Event}

theorem Due.continues {id : String} (h : Due commands journal d id) (hc : Continues commands commands') :
    Due commands' journal d id :=
  ⟨hc.sent h.1, h.2.imp_right fun hs => hs.trans hc.ids_prefix.sublist⟩

theorem Due.keeps {id : String} (h : Due commands journal d id) (hk : journal.Keeps journal') :
    Due commands journal' d id := by
  rw [Due, hk.ids]
  exact h

theorem Carries.mono {request : Request} (h : Carries journal request)
    (hdone : ∀ r, journal.Done r → journal'.Done r) : Carries journal' request := by
  cases request with
  | enroll => trivial
  | poll _ _ results _ => exact fun r hr => hdone r (h r hr)

theorem Journal.Keeps.refl (journal : Journal) : journal.Keeps journal := ⟨rfl, fun _ h => h, fun h => h⟩

/-- An event that does not concern an agent. -/
def Event.Elsewhere (d : String) (e : Event) : Prop := starts d [e] = [] ∧ ∀ r, runningAfter d r e = r

theorem Event.elsewhere_other (d : String) : Event.Elsewhere d .other := ⟨rfl, fun _ => rfl⟩

theorem Event.elsewhere_setDevice (d d' : String) (approved : Bool) : Event.Elsewhere d (.setDevice d' approved) :=
  ⟨rfl, fun _ => rfl⟩

theorem Event.elsewhere_handed (d : String) (request : Request) (reply : Reply) :
    Event.Elsewhere d (handed request reply) := by
  unfold handed
  split <;> exact ⟨rfl, fun _ => rfl⟩

/-- What happens elsewhere leaves the loop where it should be. -/
theorem Phase.Sound.elsewhere {phase : Phase} {worker : Option (String × Option (ResultState × Json))}
    (h : phase.Sound commands replies next trace d journal worker) (hc : Continues commands commands')
    (hn : next ≤ next') (he : Event.Elsewhere d e)
    (hr : ∀ m ∈ replies', m ∈ replies ∨ (m.device = d → ∀ c, m.reply.command = some c → Due commands' journal d c.id)) :
    phase.Sound commands' replies' next' (trace ++ [e]) d journal worker := by
  cases phase with
  | opening | ready | stopped => exact h
  | registering n request => exact ⟨h.1.trans_le hn, h.2⟩
  | waiting n =>
    refine ⟨h.1.trans_le hn, fun m hm hex hd c hcmd => ?_⟩
    rcases hr m hm with hm | hdue
    · exact (h.2 m hm hex hd c hcmd).continues hc
    · exact hdue hd c hcmd
  | answered state acknowledged command => exact fun c hcmd => (h c hcmd).continues hc
  | starting command =>
    refine ⟨h.1, h.2.1, ?_⟩
    rw [starts_append, he.1, List.append_nil]
    exact h.2.2

/-- What happens elsewhere leaves an agent sound. -/
theorem Agent.Sound.elsewhere (h : a.Sound P commands replies next trace d) (hc : Continues commands commands')
    (hn : next ≤ next') (he : Event.Elsewhere d e)
    (hr : ∀ m ∈ replies', m ∈ replies ∨
      (m.device = d → ∀ c, m.reply.command = some c → Due commands' a.journal d c.id)) :
    a.Sound P commands' replies' next' (trace ++ [e]) d where
  order := h.order.trans hc.ids_prefix.sublist
  sent id hid := hc.sent (h.sent id hid)
  own := h.own
  begun := by
    rw [starts_append, he.1, List.append_nil]
    exact h.begun
  runs := by rw [running_append, he.2, h.runs]
  identity := h.identity
  worker := h.worker
  phase p hp := (h.phase p hp).elsewhere hc hn he hr

/-- An agent that changes its journal in place, and its process. -/
theorem Agent.Sound.change (h : a.Sound P commands replies next trace d) (hp : a.process = some p)
    (he : starts d [e] = []) (hk : a.journal.Keeps journal')
    (hrun : ({ a with journal := journal', process := some q } : Agent).executing = runningAfter d a.executing e)
    (hworker : ∀ id outcome, q.worker = some (id, outcome) → journal'.Executing id)
    (hphase : q.phase.Sound commands replies next (trace ++ [e]) d journal' q.worker) :
    Agent.Sound P commands replies next (trace ++ [e]) d { a with journal := journal', process := some q } where
  order := by
    rw [hk.ids]
    exact h.order
  sent := by
    rw [hk.ids]
    exact h.sent
  own := hk.own h.own
  begun := by
    rw [starts_append, he, List.append_nil, hk.ids]
    exact h.begun
  runs := by rw [running_append, h.runs, hrun]
  identity _ _ := h.identity p hp
  worker q' id outcome hq hw := by
    obtain rfl := Option.some.inj hq
    exact hworker id outcome hw
  phase q' hq := by
    obtain rfl := Option.some.inj hq
    exact hphase

/-- A transaction of the operator keeps the invariant. -/
theorem Sound.store (h : Sound P trace s) {store : Store} {device : String}
    (hm : Moves device [] s.store.commands store.commands) (he : ∀ d, Event.Elsewhere d e) :
    Sound P (trace ++ [e]) { s with store } where
  sane := hm.sane
  numbered := h.numbered
  answered := h.answered
  carried := h.carried
  outcome c hc ht := h.outcome c ((hm.news c hc ht).resolve_right (by rintro ⟨r, hr, -⟩; cases hr)) ht
  agents d := (h.agents d).elsewhere hm.continues le_rfl (he d) fun m hm => .inl hm

/-- A step of one agent keeps the invariant if it keeps the agent's part. -/
theorem Sound.agent (h : Sound P trace s) (he : ∀ d' ≠ d, Event.Elsewhere d' e)
    (hdone : ∀ r, (s.agents d).journal.Done r → a.journal.Done r)
    (ha : a.Sound P s.store.commands s.replies s.next (trace ++ [e]) d) : Sound P (trace ++ [e]) (s.setAgent d a) := by
  have hjournal : ∀ d' r, (s.agents d').journal.Done r → ((s.setAgent d a).agents d').journal.Done r := by
    intro d' r hr
    by_cases hd : d' = d
    · subst hd
      simpa [System.setAgent] using hdone r hr
    · simpa [System.setAgent, Function.update_of_ne hd] using hr
  refine ⟨h.sane, h.numbered, h.answered, fun m hm => (h.carried m hm).mono (hjournal _), fun c hc ht => ?_, fun d' => ?_⟩
  · obtain ⟨r, hr, hrest⟩ := h.outcome c hc ht
    exact ⟨r, hjournal _ r hr, hrest⟩
  · by_cases hd : d' = d
    · subst hd
      simpa [System.setAgent] using ha
    · have := (h.agents d').elsewhere (.refl _) le_rfl (he d' hd) fun m hm => .inl hm
      simpa [System.setAgent, Function.update_of_ne hd] using this

/-- Messages are lost, and answers that hand nothing out are added. -/
theorem Sound.messages (h : Sound P trace s) {requests : List Incoming} (hreq : requests ⊆ s.requests)
    (hrep : ∀ m ∈ replies', m ∈ s.replies ∨ m.exchange < s.next ∧ m.reply.command = none) :
    Sound P (trace ++ [.other]) { s with requests, replies := replies' } where
  sane := h.sane
  numbered m hm := h.numbered m (hreq hm)
  answered m hm := (hrep m hm).elim (h.answered m) And.left
  carried m hm := h.carried m (hreq hm)
  outcome := h.outcome
  agents d := (h.agents d).elsewhere (.refl _) le_rfl (Event.elsewhere_other d) fun m hm =>
    (hrep m hm).imp_right fun hnew _ c hc => by
      rw [hnew.2] at hc
      cases hc

/-- A new request. -/
theorem Sound.send (h : Sound P trace s) {certificate : Bytes} {request : Request}
    (hc : Carries (s.agents (fingerprint P certificate)).journal request) : Sound P trace (s.send certificate request) where
  sane := h.sane
  numbered m hm := by
    rcases List.mem_append.mp hm with hm | hm
    · exact (h.numbered m hm).trans (Nat.lt_succ_self _)
    · rw [List.mem_singleton.mp hm]
      exact Nat.lt_succ_self _
  answered m hm := (h.answered m hm).trans (Nat.lt_succ_self _)
  carried m hm := by
    rcases List.mem_append.mp hm with hm | hm
    · exact h.carried m hm
    · rw [List.mem_singleton.mp hm]
      exact hc
  outcome := h.outcome
  agents d := by
    have ha := h.agents d
    refine { ha with phase := fun p hp => ?_ }
    have hphase := ha.phase p hp
    cases hq : p.phase with
    | registering n request =>
      rw [hq] at hphase
      exact ⟨hphase.1.trans (Nat.lt_succ_self _), hphase.2⟩
    | waiting n =>
      rw [hq] at hphase
      exact ⟨hphase.1.trans (Nat.lt_succ_self _), hphase.2⟩
    | _ =>
      rw [hq] at hphase
      exact hphase

theorem setJournal_setProcess (s : System) (d : String) (j : Journal) (p : Option Process) :
    (s.setJournal d j).setProcess d p = s.setAgent d { s.agents d with journal := j, process := p } := by
  simp [System.setJournal, System.setProcess, System.setAgent]

end keep

/-! ### Every step keeps it -/

section steps

variable {trace : List Event} {s s' : System} {e : Event} {d : String} {p : Process}

/-- The server answers a request. -/
theorem sound_serve (h : Sound P trace s) {l₁ l₂ : List Incoming} {m : Incoming} {now : ℕ} {reply : Reply}
    {store : Store} (hm : s.requests = l₁ ++ m :: l₂) (hacc : accepts P m)
    (hok : s.store.exchange P readable now m.request = .ok (reply, store)) :
    Sound P (trace ++ [handed m.request reply]) { s with
      store
      requests := l₁ ++ l₂
      replies := s.replies ++ [⟨m.exchange, fingerprint P m.certificate, reply⟩] } := by
  let device := fingerprint P m.certificate
  let journal := (s.agents device).journal
  have hin : m ∈ s.requests := by simp [hm]
  have hsub : ∀ x ∈ l₁ ++ l₂, x ∈ s.requests := by
    intro x hx
    rw [hm]
    rcases List.mem_append.mp hx with hx | hx <;> simp [hx]
  have hmoves : ∃ results : List CommandResult, (∀ r ∈ results, journal.Done r) ∧
      Moves device results s.store.commands store.commands ∧
      ∀ c, reply.command = some c → Due store.commands journal device c.id := by
    have hcarried := h.carried m hin
    cases hr : m.request with
    | enroll invitation credential name certificate =>
      rw [hr] at hok
      obtain ⟨hmoves, hnone⟩ := @moves_enroll _ device _ _ _ _ _ _ _ _ _ h.sane hok
      exact ⟨[], by simp, hmoves, fun c hc => by rw [hnone] at hc; cases hc⟩
    | poll d credential results active =>
      rw [hr] at hok hcarried
      have hd : d = device := by simpa [accepts, hr] using hacc
      subst hd
      obtain ⟨hp⟩ := polled hok
      have hpoll := moves_poll h.sane hp
      refine ⟨results, hcarried, hpoll, fun c hc => ⟨sent_of_polled h.sane hp hc, ?_⟩⟩
      rcases hp.handedOut with ⟨hnone, -⟩ | ⟨x, -, -, hnext, hx, -⟩
      · rw [hnone] at hc
        cases hc
      · -- what the device knows was handed out, so the first open command comes after it
        have hrecord := @moves_recordAll device _ h.sane results
        rw [hx, Option.some.injEq] at hc
        rw [← hc]
        have ha := h.agents device
        rcases hrecord.sane.due hnext (ha.order.trans hrecord.continues.ids_prefix.sublist)
          fun id hid => hrecord.continues.sent (ha.sent id hid) with hknown | hdue
        · exact .inl hknown
        · refine .inr (hdue.trans ?_)
          have hdeliver := (moves_deliver hrecord.sane hnext).1.continues.ids_prefix.sublist
          rcases hp.handedOut with ⟨hnone, -⟩ | ⟨y, -, -, hy, -, hcommands⟩
          · rw [hnone] at hx
            cases hx
          · obtain rfl : x = y := by rw [hnext, Option.some.injEq] at hy; exact hy
            rw [hcommands]
            exact hdeliver
  obtain ⟨results, hdone, hmoves, hdue⟩ := hmoves
  refine ⟨hmoves.sane, fun x hx => h.numbered x (hsub x hx), fun x hx => ?_, fun x hx => h.carried x (hsub x hx),
    fun c hc ht => ?_, fun d => ?_⟩
  · rcases List.mem_append.mp hx with hx | hx
    · exact h.answered x hx
    · rw [List.mem_singleton.mp hx]
      exact h.numbered m hin
  · rcases hmoves.news c hc ht with hc | ⟨r, hr, hid, hd, hstatus, hresult⟩
    · exact h.outcome c hc ht
    · exact ⟨r, hd ▸ hdone r hr, hid.symm, hstatus, hresult⟩
  · refine (h.agents d).elsewhere hmoves.continues le_rfl (Event.elsewhere_handed d _ _) fun x hx => ?_
    rcases List.mem_append.mp hx with hx | hx
    · exact .inl hx
    · obtain rfl := List.mem_singleton.mp hx
      refine .inr fun hd c hc => ?_
      subst hd
      exact hdue c hc

/-- A step of one loop that changes only how far it has got. -/
theorem sound_phase (h : Sound P trace s) (hp : (s.agents d).process = some p) {phase : Phase} {registered : Bool}
    (hphase : phase.Sound s.store.commands s.replies s.next (trace ++ [.other]) d (s.agents d).journal p.worker) :
    Sound P (trace ++ [.other]) (s.setProcess d (some { p with registered, phase })) := by
  refine h.agent (fun _ _ => Event.elsewhere_other _) (fun _ hr => hr) ?_
  refine (h.agents d).change hp rfl (.refl _) ?_ (fun id outcome hw => (h.agents d).worker p id outcome hp hw) hphase
  rw [Agent.executing, Agent.executing, Agent.running, Agent.running, hp]
  rcases p with ⟨_, _ | ⟨id, _ | outcome⟩, _, _⟩ <;> rfl

/-- A step that changes the journal in place. -/
theorem sound_journal (h : Sound P trace s) (hp : (s.agents d).process = some p) {journal : Journal} {q : Process}
    (hk : (s.agents d).journal.Keeps journal) (hw : ∀ id, q.worker = some (id, none) ↔ p.worker = some (id, none))
    (hworker : ∀ id outcome, q.worker = some (id, outcome) → journal.Executing id)
    (hphase : q.phase.Sound s.store.commands s.replies s.next (trace ++ [.other]) d journal q.worker) :
    Sound P (trace ++ [.other]) ((s.setJournal d journal).setProcess d (some q)) := by
  rw [setJournal_setProcess]
  refine h.agent (fun _ _ => Event.elsewhere_other _) hk.done ((h.agents d).change hp rfl hk ?_ hworker hphase)
  obtain ⟨pc, pw, pr, pp⟩ := p
  obtain ⟨qc, qw, qr, qp⟩ := q
  rw [Agent.executing, Agent.executing, Agent.running, Agent.running, hp]
  rcases pw with _ | ⟨id, _ | o⟩ <;> rcases qw with _ | ⟨id', _ | o'⟩ <;> simp_all [runningAfter]

/-- What the invariant says of the point that a loop has reached. -/
theorem Sound.phase (h : Sound P trace s) (hp : (s.agents d).process = some p) {phase : Phase} (hphase : p.phase = phase) :
    phase.Sound s.store.commands s.replies s.next trace d (s.agents d).journal p.worker :=
  hphase ▸ (h.agents d).phase p hp

theorem Sound.nodup (h : Sound P trace s) (d : String) : (s.agents d).journal.ids.Nodup :=
  h.sane.unique.sublist (h.agents d).order

/-- The agent asks for work. -/
theorem sound_ask (h : Sound P trace s) (hp : (s.agents d).process = some p) {request : Request}
    (hrequest : p.request (s.agents d).journal = .ok request) :
    Sound P (trace ++ [.other]) (if p.registered then
        (s.setProcess d (some { p with phase := .waiting s.next })).send (s.agents d).certificate request
      else
        (s.setProcess d (some { p with phase := .registering s.next request })).send
          (s.agents d).certificate (p.config.register (s.agents d).certificate)) := by
  have hid := (h.agents d).identity p hp
  have hcarries : Carries (s.agents d).journal request := by
    obtain ⟨results, hresults, hpoll⟩ := bind_eq_ok.mp hrequest
    obtain rfl := pure_eq_ok.mp hpoll
    obtain ⟨rfl, -⟩ := Journal.results_eq_ok.mp hresults
    exact fun r hr => Journal.done_of_unrecorded (h.agents d).own hr
  split_ifs
  · refine sound_phase (s := s.send _ _) (h.send (by rwa [hid])) hp ⟨Nat.lt_succ_self _, fun m hm hn => ?_⟩
    exact absurd hn (h.answered m hm).ne
  · exact sound_phase (s := s.send _ _) (@Sound.send _ _ _ h _ (p.config.register _) trivial) hp ⟨Nat.lt_succ_self _, hcarries⟩

/-- A command is written into the journal. -/
theorem sound_insert (h : Sound P trace s) (hp : (s.agents d).process = some p) {state : Standing} {command : Envelope}
    {journal : Journal} (hphase : p.phase = .answered state [] (some command)) (hworker : p.worker = none)
    (hok : (s.agents d).journal.start command = .ok (true, journal)) :
    Sound P (trace ++ [.other])
      ((s.setJournal d journal).setProcess d (some { p with phase := .starting command })) := by
  obtain ⟨hnew, rfl⟩ := Journal.start_new hok
  obtain ⟨hsent, hdue⟩ := h.phase hp hphase command rfl
  have ha := h.agents d
  have hids : Journal.ids ((s.agents d).journal ++ [⟨command.id, command.operation, .executing⟩]) =
      (s.agents d).journal.ids ++ [command.id] := by simp [Journal.ids]
  rw [setJournal_setProcess]
  refine h.agent (fun _ _ => Event.elsewhere_other _) ?_ ⟨?_, ?_, ?_, ?_, ?_, ?_, ?_, ?_⟩
  · rintro r ⟨x, hx, hr⟩
    exact ⟨x, List.mem_append_left _ hx, hr⟩
  · rw [hids]
    exact hdue.resolve_left hnew
  · rw [hids]
    intro id hid
    rcases List.mem_append.mp hid with hid | hid
    · exact ha.sent id hid
    · rw [List.mem_singleton.mp hid]
      exact hsent
  · intro x hx r ack hs
    rcases List.mem_append.mp hx with hx | hx
    · exact ha.own x hx r ack hs
    · rw [List.mem_singleton.mp hx] at hs
      cases hs
  · rw [hids]
    exact (show starts d (trace ++ [.other]) = starts d trace by simp [starts]) ▸ ha.begun.trans (List.sublist_append_left _ _)
  · rw [running_append, ha.runs, Agent.executing, Agent.executing, Agent.running, Agent.running, hp]
    rcases p with ⟨_, _ | ⟨id, _ | outcome⟩, _, _⟩ <;> rfl
  · exact fun _ _ => ha.identity p hp
  · rintro q id outcome hq hw
    obtain rfl := Option.some.inj hq
    change p.worker = _ at hw
    rw [hworker] at hw
    cases hw
  · intro q hq
    obtain rfl := Option.some.inj hq
    refine ⟨hworker, ⟨_, List.mem_append_right _ (List.mem_singleton.mpr rfl), rfl, rfl⟩, ?_⟩
    rw [hids, show starts d (trace ++ [.other]) = starts d trace by simp [starts]]
    exact ha.begun.append (.refl _)

/-- A command is started. -/
theorem sound_start (h : Sound P trace s) (hp : (s.agents d).process = some p) {command : Envelope}
    (hphase : p.phase = .starting command) :
    Sound P (trace ++ [.start d command.id])
      (s.setProcess d (some { p with worker := some (command.id, none), phase := .ready })) := by
  obtain ⟨hworker, hexec, hbegun⟩ := h.phase hp hphase
  have ha := h.agents d
  have hnone : (s.agents d).running = none := by
    obtain ⟨pc, pw, pr, pp⟩ := p
    obtain rfl : pw = none := hworker
    rw [Agent.running, hp]
  refine h.agent (fun d' hd => ⟨by simp [starts, hd.symm], fun r => if_neg hd.symm⟩) (fun _ hr => hr)
    { ha with begun := ?_, runs := ?_, identity := fun _ _ => ha.identity p hp, worker := ?_, phase := ?_ }
  · rw [starts_append]
    simpa [starts] using hbegun
  · rw [running_append, ha.runs, Agent.executing, hnone]
    simp [runningAfter, Agent.executing, Agent.running]
  · rintro q id outcome hq hw
    obtain rfl := Option.some.inj hq
    obtain ⟨rfl, -⟩ := Prod.mk.inj (Option.some.inj hw)
    exact hexec
  · intro q hq
    obtain rfl := Option.some.inj hq
    trivial

/-- The commands that are executed on a device are different ones. -/
theorem Sound.executing_nodup (h : Sound P trace s) (d : String) : (s.agents d).executing.Nodup := by
  rw [← (h.agents d).runs]
  exact (running_nodup ((h.nodup d).sublist (h.agents d).begun)).2

/-- A process is gone, and some commands may be executed further. -/
theorem sound_gone (h : Sound P trace s) (he : starts d [e] = []) (helse : ∀ d' ≠ d, Event.Elsewhere d' e)
    {behind : List String} (hrun : behind = runningAfter d (s.agents d).executing e) :
    Sound P (trace ++ [e]) (s.setAgent d { s.agents d with process := none, behind }) := by
  have ha := h.agents d
  refine h.agent helse (fun _ hr => hr) { ha with begun := ?_, runs := ?_, identity := ?_, worker := ?_, phase := ?_ }
  · rw [starts_append, he, List.append_nil]
    exact ha.begun
  · rw [running_append, ha.runs, ← hrun]
    rfl
  · rintro q hq
    cases hq
  · rintro q id outcome hq
    cases hq
  · rintro q hq
    cases hq

/-- A process is killed. -/
theorem sound_stop (h : Sound P trace s) :
    Sound P (trace ++ [.stop d (s.agents d).running]) (s.setProcess d none) := by
  refine sound_gone h rfl (fun d' hd => ⟨rfl, fun r => by rw [runningAfter, if_neg hd.symm]⟩) ?_
  rw [runningAfter, if_pos rfl, Agent.executing]
  cases (s.agents d).running <;> simp

/-- A worker that has outlived the management ends. -/
theorem sound_expire (h : Sound P trace s) {id : String} (hid : id ∈ (s.agents d).behind) :
    Sound P (trace ++ [.ended d id])
      (s.setAgent d { s.agents d with behind := (s.agents d).behind.erase id }) := by
  have ha := h.agents d
  have hnodup := h.executing_nodup d
  refine h.agent (fun d' hd => ⟨rfl, fun r => if_neg hd.symm⟩) (fun _ hr => hr)
    { ha with begun := ?_, runs := ?_, phase := ?_ }
  · rw [starts_append]
    simpa [starts] using ha.begun
  · rw [Agent.executing] at hnodup
    rw [running_append, ha.runs, runningAfter, if_pos rfl, Agent.executing]
    have hnot : id ∉ (s.agents d).running.toList := fun hmem => List.disjoint_of_nodup_append hnodup hmem hid
    rw [List.erase_append_right _ hnot]
    rfl
  · intro p hp
    have hphase := ha.phase p hp
    cases hq : p.phase with
    | starting command =>
      rw [hq] at hphase
      refine ⟨hphase.1, hphase.2.1, ?_⟩
      rw [starts_append]
      simpa [starts] using hphase.2.2
    | _ =>
      rw [hq] at hphase
      exact hphase

/-- A process starts. -/
theorem sound_launch (h : Sound P trace s) {config : Config} (hp : (s.agents d).process = none)
    (hid : fingerprint P (s.agents d).certificate = d) :
    Sound P (trace ++ [.launch d])
      (s.setProcess d (some ⟨config, none, false, .opening (s.agents d).journal.interrupted⟩)) := by
  have ha := h.agents d
  refine h.agent (fun _ _ => ⟨rfl, fun _ => rfl⟩) (fun _ hr => hr)
    { ha with begun := ?_, runs := ?_, identity := fun _ _ => hid, worker := ?_, phase := ?_ }
  · rw [starts_append]
    simpa [starts] using ha.begun
  · rw [running_append, ha.runs, Agent.executing, Agent.executing, Agent.running, Agent.running, hp]
    rfl
  · rintro q id outcome hq hw
    obtain rfl := Option.some.inj hq
    cases hw
  · rintro q hq
    obtain rfl := Option.some.inj hq
    exact ⟨rfl, Journal.interrupted_nodup (h.nodup d)⟩

/-- A worker ends. -/
theorem sound_work (h : Sound P trace s) (hp : (s.agents d).process = some p) {id : String}
    {outcome : ResultState × Json} (hw : p.worker = some (id, none)) :
    Sound P (trace ++ [.ended d id]) (s.setProcess d (some { p with worker := some (id, some outcome) })) := by
  have ha := h.agents d
  have hexec := ha.worker p id none hp hw
  refine h.agent (fun d' hd => ⟨rfl, fun r => if_neg hd.symm⟩) (fun _ hr => hr) (ha.change hp rfl (.refl _) ?_ ?_ ?_)
  · obtain ⟨pc, pw, pr, pp⟩ := p
    obtain rfl : pw = some (id, none) := hw
    rw [Agent.executing, Agent.executing, Agent.running, Agent.running, hp]
    simp [runningAfter]
  · rintro id' outcome' hw'
    obtain ⟨rfl, -⟩ := Prod.mk.inj (Option.some.inj hw')
    exact hexec
  · have hphase := ha.phase p hp
    change Phase.Sound _ _ _ _ _ _ _ p.phase
    cases hq : p.phase with
    | opening | starting =>
      rw [hq] at hphase
      rw [hw] at hphase
      cases hphase.1
    | _ =>
      rw [hq] at hphase
      exact hphase

/-- A device is enrolled. -/
theorem sound_configure (h : Sound P trace s) {config : Config} :
    Sound P (trace ++ [.other]) (s.setAgent d { s.agents d with config := some config }) := by
  have ha := (h.agents d).elsewhere (.refl _) le_rfl (Event.elsewhere_other d) fun m hm => .inl hm
  exact h.agent (fun _ _ => Event.elsewhere_other _) (fun _ hr => hr) { ha with }

/-- **Every step keeps the invariant.** -/
theorem sound_step (h : Sound P trace s) (hstep : Step P readable s e s') : Sound P (trace ++ [e]) s' := by
  cases hstep with
  | invite hok => exact h.store (@moves_invite _ "" _ _ _ _ _ _ h.sane hok) Event.elsewhere_other
  | setDevice hok =>
    exact h.store (@moves_setDevice "" _ _ _ _ h.sane hok) fun d => Event.elsewhere_setDevice d _ _
  | queue hok => exact h.store (@moves_queue "" _ _ _ h.sane hok) Event.elsewhere_other
  | cancel hok => exact h.store (@moves_cancel "" _ _ _ h.sane hok) Event.elsewhere_other
  | serve hm hacc hok => exact sound_serve h hm hacc hok
  | reject hm hacc hok =>
    refine h.messages (fun x hx => ?_) fun x hx => ?_
    · rw [hm]
      rcases List.mem_append.mp hx with hx | hx <;> simp [hx]
    · rcases List.mem_append.mp hx with hx | hx
      · exact .inl hx
      · obtain rfl := List.mem_singleton.mp hx
        exact .inr ⟨h.numbered _ (by simp [hm]), rfl⟩
  | lose hreq hrep => exact h.messages hreq.subset fun x hx => .inl (hrep.subset hx)
  | configure => exact sound_configure h
  | launch hp hconfig hid hload => exact sound_launch h hp hid
  | recover hp hphase =>
    obtain ⟨hw, hnodup, hexec⟩ := h.phase hp hphase
    obtain ⟨hid, hrest⟩ := List.nodup_cons.mp hnodup
    refine sound_journal h hp (Journal.keeps_finish (h.nodup _) (hexec _ List.mem_cons_self)) (fun _ => Iff.rfl) ?_
      ⟨hw, hrest, ?_⟩
    · rintro id outcome hw'
      change _ = _ at hw'
      rw [hw] at hw'
      cases hw'
    · intro x hx
      refine Journal.executing_finish ?_ (hexec x (by simp [hx]))
      rintro rfl
      exact hid hx
  | enter hp hphase => exact sound_phase h hp trivial
  | work hp hw => exact sound_work h hp hw
  | collect hp hphase hw =>
    have hexec := (h.agents _).worker _ _ _ hp hw
    refine sound_journal h hp (Journal.keeps_finish (h.nodup _) hexec) (fun id => by simp [hw]) ?_ ?_
    · rintro id outcome hw'
      cases hw'
    · rw [hphase]
      trivial
  | ask hp hphase hrequest => exact sound_ask h hp hrequest
  | unreadable hp hphase hrequest => exact sound_phase h hp trivial
  | registered hp hphase hm hn hd he =>
    have hcarries := (h.phase hp hphase).2
    rw [← (h.agents _).identity _ hp] at hcarries
    refine sound_phase (s := s.send _ _) (h.send ?_) hp ⟨Nat.lt_succ_self _, fun m hm hn => ?_⟩
    · exact hcarries
    · exact absurd hn (h.answered m hm).ne
  | giveUp hp hphase => exact sound_phase h hp trivial
  | read hp hphase hm hn hd he => exact sound_phase h hp ((h.phase hp hphase).2 _ hm hn hd)
  | acknowledge hp hphase =>
    obtain ⟨hk, hexec⟩ := @Journal.keeps_acknowledge ((s.agents _).journal) _
    exact sound_journal h hp hk (fun _ => Iff.rfl) (fun id outcome hw => hexec id ((h.agents _).worker _ _ _ hp hw))
      fun c hc => (h.phase hp hphase c hc).keeps hk
  | rest hp hphase => exact sound_phase h hp trivial
  | refuse hp hphase hbad => exact sound_phase h hp trivial
  | again hp hphase hstate hw hok =>
    obtain ⟨hk, hexec⟩ := Journal.keeps_start hok
    exact sound_journal h hp hk (fun _ => Iff.rfl) (fun id outcome hw => hexec id ((h.agents _).worker _ _ _ hp hw)) trivial
  | insert hp hphase hstate hw hok => exact sound_insert h hp hphase hw hok
  | start hp hphase => exact sound_start h hp hphase
  | stop hp => exact sound_stop h
  | leave hp => exact sound_gone h rfl (fun _ _ => Event.elsewhere_other _) rfl
  | expire hid => exact sound_expire h hid

end steps

/-! ### Runs -/

section runs

variable {certificate : String → Bytes} {trace trace' : List Event} {s s' s'' : System}

theorem sound_initial (certificate : String → Bytes) : Sound P [] (System.initial certificate) where
  sane := ⟨List.nodup_nil, List.Pairwise.nil⟩
  numbered m hm := by cases hm
  answered m hm := by cases hm
  carried m hm := by cases hm
  outcome c hc := by cases hc
  agents d := {
    order := List.Sublist.slnil
    sent := fun id hid => by cases hid
    own := fun e he => by cases he
    begun := List.Sublist.slnil
    runs := rfl
    identity := fun p hp => by cases hp
    worker := fun p id outcome hp => by cases hp
    phase := fun p hp => by cases hp }

/-- **The invariant holds in every state that can occur.** -/
theorem sound_run (h : Run P readable (System.initial certificate) trace s) : Sound P trace s := by
  induction h with
  | refl => exact sound_initial certificate
  | step _ hstep ih => exact sound_step ih hstep

theorem Run.trans (h : Run P readable s trace s') (h' : Run P readable s' trace' s'') :
    Run P readable s (trace ++ trace') s'' := by
  induction h' with
  | refl => simpa using h
  | step _ hstep ih =>
    rw [← List.append_assoc]
    exact ih.step hstep

/-- A run, cut at a step. -/
theorem Run.split (h : Run P readable s trace s') {trace₁ trace₂ : List Event} {e : Event}
    (he : trace = trace₁ ++ e :: trace₂) :
    ∃ s₁ s₂, Run P readable s trace₁ s₁ ∧ Step P readable s₁ e s₂ ∧ Run P readable s₂ trace₂ s' := by
  induction h generalizing trace₂ with
  | refl => simp at he
  | @step trace t t' e' h hstep ih =>
    rcases List.eq_nil_or_concat trace₂ with rfl | ⟨l, x, rfl⟩
    · obtain ⟨rfl, hx⟩ := List.append_inj' he rfl
      obtain rfl : e' = e := by simpa using hx
      exact ⟨t, t', h, hstep, .refl⟩
    · obtain ⟨rfl, hx⟩ : trace = trace₁ ++ e :: l ∧ [e'] = [x] := List.append_inj' (by simpa using he) rfl
      obtain rfl : e' = x := by simpa using hx
      obtain ⟨s₁, s₂, h1, h2, h3⟩ := ih rfl
      rw [List.concat_eq_append]
      exact ⟨s₁, s₂, h1, h2, h3.step hstep⟩

/-- No worker of an earlier process is executing a command beside the agent of a device. -/
def Alone (d : String) (s : System) : Prop := (s.agents d).process = none ∨ (s.agents d).behind = []

theorem Alone.agent {d d' : String} (h : Alone d s) {a : Agent} (ha : d' = d →
    (s.agents d').process = none ∨ (s.agents d').behind = [] → a.process = none ∨ a.behind = []) :
    Alone d (s.setAgent d' a) := by
  change (Function.update s.agents d' a d).process = none ∨ (Function.update s.agents d' a d).behind = []
  rcases eq_or_ne d' d with rfl | hd
  · rw [Function.update_self]
    exact ha rfl h
  · rw [Function.update_of_ne hd.symm]
    exact h

/-- A process that goes on leaves no worker behind. -/
theorem Alone.process {d d' : String} (h : Alone d s) {p : Process} (hp : (s.agents d').process = some p)
    {j : Journal} {q : Option Process} : Alone d (s.setAgent d' { s.agents d' with journal := j, process := q }) := by
  refine h.agent fun _ ha => .inr (ha.resolve_left fun hnone => ?_)
  rw [hp] at hnone
  cases hnone

/-- A step keeps the agent of a device alone, unless it is started beside a worker. -/
theorem alone_step {d : String} {e : Event} (h : Alone d s) (hstep : Step P readable s e s')
    (hlaunch : e = .launch d → (s.agents d).behind = []) : Alone d s' := by
  cases hstep with
  | invite | setDevice | queue | cancel | serve | reject | lose => exact h
  | configure => exact h.agent fun _ ha => ha
  | launch =>
    refine h.agent fun hd _ => .inr ?_
    rw [hd]
    exact hlaunch (by rw [hd])
  | ask hp =>
    split_ifs
    · exact Alone.process (s := s) h hp
    · exact Alone.process (s := s) h hp
  | recover hp | collect hp | acknowledge hp | again hp | insert hp =>
    rw [setJournal_setProcess]
    exact h.process hp
  | enter hp | work hp | unreadable hp | registered hp | giveUp hp | read hp | rest hp | refuse hp | start hp | stop hp =>
    exact Alone.process (s := s) h hp
  | leave => exact h.agent fun _ _ => .inl rfl
  | expire hid =>
    refine h.agent fun _ ha => ha.imp_right fun hnil => ?_
    rw [hnil] at hid
    cases hid

/-- In a run in which no agent is started beside a worker, none ever stands beside one. -/
theorem alone_run {d : String} (h : Run P readable (System.initial certificate) trace s) (hu : Unhurried d trace) :
    Alone d s := by
  induction h with
  | refl => exact .inl rfl
  | @step trace s s' e h hstep ih =>
    refine alone_step (ih hu.of_append) hstep fun he => ?_
    have hnone := hu trace [] (by rw [he])
    rw [((sound_run h).agents d).runs] at hnone
    exact (List.append_eq_nil_iff.mp hnone).2

/-- A step moves the commands on. -/
theorem continues_step {e : Event} (h : Sound P trace s) (hstep : Step P readable s e s') :
    Continues s.store.commands s'.store.commands := by
  cases hstep with
  | invite hok => exact (@moves_invite _ "" _ _ _ _ _ _ h.sane hok).continues
  | setDevice hok => exact (@moves_setDevice "" _ _ _ _ h.sane hok).continues
  | queue hok => exact (@moves_queue "" _ _ _ h.sane hok).continues
  | cancel hok => exact (@moves_cancel "" _ _ _ h.sane hok).continues
  | @serve _ _ m _ _ _ hm hacc hok =>
    cases hr : m.request with
    | enroll invitation credential name certificate =>
      rw [hr] at hok
      exact (@moves_enroll _ "" _ _ _ _ _ _ _ _ _ h.sane hok).1.continues
    | poll device credential results active =>
      rw [hr] at hok
      obtain ⟨hp⟩ := polled hok
      exact (moves_poll h.sane hp).continues
  | ask =>
    split_ifs
    · exact .refl _
    · exact .refl _
  | _ => exact .refl _

/-- A run moves the commands on. -/
theorem continues_run (hs : Run P readable (System.initial certificate) trace s) (h : Run P readable s trace' s') :
    Continues s.store.commands s'.store.commands := by
  induction h with
  | refl => exact .refl _
  | step h hstep ih => exact ih.trans (continues_step (sound_run (hs.trans h)) hstep)

/-- What was handed out in a run is on record as such. -/
theorem sent_of_handOut {d credential id : String} (h : Sound P trace s)
    (hstep : Step P readable s (.handOut d credential id) s') :
    Sent s'.store.commands d id ∧
      ∃ x ∈ s.store.devices, x.id = d ∧ x.state = .approved ∧ x.credential = secretHash P credential := by
  generalize he : Event.handOut d credential id = e at hstep
  cases hstep with
  | @serve _ _ m _ reply _ hm hacc hok =>
    unfold handed at he
    split at he
    · rename_i device credential' results active command hr hc
      cases he
      rw [hr] at hok
      obtain ⟨hp⟩ := polled hok
      refine ⟨sent_of_polled h.sane hp hc, hp.row, hp.mem, hp.id, ?_, hp.authentic⟩
      rcases hp.handedOut with ⟨hnone, -⟩ | ⟨x, happroved, -⟩
      · rw [hnone] at hc
        cases hc
      · exact happroved
    · cases he
  | _ => cases he

/-- **Commands are executed at most once, with one outcome.** In every run of the server and its agents, every
agent starts every command at most once; a command that waits or was withdrawn was started by nobody; an outcome is
what the agent wrote into its journal, and it stays; and a result that the agent believes to be unknown to the server is of a
command that was handed out, so that the server acknowledges it as soon as it answers a request with it. -/
theorem executed_once (h : Run P readable (System.initial certificate) trace s) :
    (∀ d, (starts d trace).Nodup) ∧
    (∀ c ∈ s.store.commands, c.status = .queued ∨ c.status = .cancelled → ∀ d, c.id ∉ starts d trace) ∧
    (∀ c ∈ s.store.commands, c.status.terminal →
      (∃ e ∈ (s.agents c.device).journal, e.id = c.id ∧
        ∃ r ack, e.state = .done r ack ∧ c.status = r.status.toStatus ∧ c.result = some r.value) ∧
      ∀ trace' s', Run P readable s trace' s' → c ∈ s'.store.commands) ∧
    (∀ d, ∀ e ∈ (s.agents d).journal, ∀ r, e.state = .done r false →
      (∃ c ∈ s.store.commands, c.id = e.id ∧ c.device = d ∧ c.status.sent) ∧
      ∀ now credential results active reply store, r ∈ results →
        s.store.exchange P readable now (.poll d credential results active) = .ok (reply, store) →
        e.id ∈ reply.acknowledged) := by
  have hs := sound_run h
  refine ⟨fun d => ?_, fun c hc hstatus d hd => ?_, fun c hc ht => ⟨?_, fun trace' s' hrun => ?_⟩,
    fun d e he r hstate => ⟨?_, fun now credential results active reply store hr hok => ?_⟩⟩
  · exact (hs.nodup d).sublist (hs.agents d).begun
  · obtain ⟨x, hx, hid, -, hsent⟩ := (hs.agents d).sent c.id ((hs.agents d).begun.subset hd)
    obtain rfl := hs.sane.eq_of_id hx hc hid
    rcases hstatus with hq | hq <;> simp [hq, Status.sent] at hsent
  · obtain ⟨r, ⟨e, he, hid, ack, hstate⟩, hrc, hstatus, hresult⟩ := hs.outcome c hc ht
    exact ⟨e, he, hid.trans hrc, r, ack, hstate, hstatus, hresult⟩
  · exact (continues_run h hrun).mem_of_closed hc (Status.closed_of_terminal ht)
  · exact (hs.agents d).sent e.id (List.mem_map_of_mem he)
  · have hid := (hs.agents d).own e he r false hstate
    obtain ⟨hp⟩ := polled hok
    rw [← hid]
    exact poll_acknowledges hs.sane hp hr (hid ▸ (hs.agents d).sent e.id (List.mem_map_of_mem he))

/-- **Commands are started in their order, one at a time, and only by who may.** In every run: an agent starts the
commands of its device in the order in which they were queued; of the commands of a device, one at most was handed out and
is not over; a command is started while no other is executed on the device, as long as no agent was started there beside a
worker that outlived its management; a command is handed out only to a request of the device, made with its credential
while it is approved; and what waits when a device is revoked is never handed out later. -/
theorem dispatched_in_order (h : Run P readable (System.initial certificate) trace s) :
    (∀ d, (starts d trace).Sublist (ids s.store.commands) ∧ ∀ id ∈ starts d trace, Sent s.store.commands d id) ∧
    (∀ x ∈ s.store.commands, ∀ y ∈ s.store.commands, x.device = y.device → x.status = .delivered →
      y.status = .delivered → x = y) ∧
    (∀ d, Unhurried d trace → ∀ trace₁ trace₂ id, trace = trace₁ ++ .start d id :: trace₂ → running d trace₁ = []) ∧
    (∀ now request reply store c, s.store.exchange P readable now request = .ok (reply, store) →
      reply.command = some c → ∃ d credential results, request = .poll d credential results none ∧
        ∃ x ∈ s.store.devices, x.id = d ∧ x.state = .approved ∧ x.credential = secretHash P credential) ∧
    (∀ d s' trace' s'', Step P readable s (.setDevice d false) s' → Run P readable s' trace' s'' →
      ∀ c ∈ s.store.commands, c.device = d → c.status = .queued →
        ∀ d' credential, .handOut d' credential c.id ∉ trace') := by
  have hs := sound_run h
  refine ⟨fun d => ⟨?_, fun id hid => ?_⟩, fun x hx y hy hd hxs hys => ?_, fun d hu trace₁ trace₂ id he => ?_,
    fun now request reply store c hok hc => ?_, fun d s' trace' s'' hstep hrun c hc hd hq d' credential hmem => ?_⟩
  · exact (hs.agents d).begun.trans (hs.agents d).order
  · exact (hs.agents d).sent id ((hs.agents d).begun.subset hid)
  · obtain ⟨i, hi, rfl⟩ := List.getElem_of_mem hx
    obtain ⟨j, hj, rfl⟩ := List.getElem_of_mem hy
    have hpairs := List.pairwise_iff_getElem.mp hs.sane.ordered
    rcases lt_trichotomy i j with hij | rfl | hij
    · have := hpairs i j hi hj hij hd (by rw [hys]; rfl)
      rw [hxs] at this
      cases this
    · rfl
    · have := hpairs j i hj hi hij hd.symm (by rw [hxs]; rfl)
      rw [hys] at this
      cases this
  · obtain ⟨s₁, s₂, h1, hstep, -⟩ := h.split he
    have hs₁ := sound_run h1
    rw [(hs₁.agents d).runs]
    generalize hev : Event.start d id = e at hstep
    cases hstep with
    | serve hm hacc hok =>
      unfold handed at hev
      split at hev <;> cases hev
    | start hp hphase =>
      cases hev
      have hw := (hs₁.phase hp hphase).1
      have hbehind : (s₁.agents d).behind = [] := by
        refine (alone_run h1 (he ▸ hu).of_append).resolve_left fun hnone => ?_
        rw [hp] at hnone
        cases hnone
      rename_i p _
      rw [Agent.executing, Agent.running, hp, hbehind]
      obtain ⟨pc, pw, pr, pp⟩ := p
      obtain rfl : pw = none := hw
      rfl
    | _ => cases hev
  · cases hr : request with
    | enroll invitation credential name cert =>
      rw [hr] at hok
      rw [(@moves_enroll _ "" _ _ _ _ _ _ _ _ _ hs.sane hok).2] at hc
      cases hc
    | poll d credential results active =>
      rw [hr] at hok
      obtain ⟨hp⟩ := polled hok
      rcases hp.handedOut with ⟨hnone, -⟩ | ⟨x, happroved, hactive, -⟩
      · rw [hnone] at hc
        cases hc
      · exact ⟨d, credential, results, by rw [hactive], hp.row, hp.mem, hp.id, happroved, hp.authentic⟩
  · obtain ⟨c', hc', hid, hcancelled⟩ : ∃ c' ∈ s'.store.commands, c'.id = c.id ∧ c'.status = .cancelled := by
      generalize hev : Event.setDevice d false = e at hstep
      cases hstep with
      | setDevice hok =>
        cases hev
        obtain ⟨-, -, rfl⟩ := setDevice_eq_ok.mp hok
        exact ⟨_, List.mem_map_of_mem hc, by rw [if_pos ⟨hd, hq⟩], by rw [if_pos ⟨hd, hq⟩]⟩
      | serve =>
        unfold handed at hev
        split at hev <;> cases hev
      | _ => cases hev
    obtain ⟨trace₁, trace₂, rfl⟩ := List.append_of_mem hmem
    obtain ⟨s₁, s₂, h1, hhand, -⟩ := hrun.split rfl
    have hreach := (h.step hstep).trans h1
    have hstays := (continues_run (h.step hstep) (h1.step hhand)).mem_of_closed hc' (by rw [hcancelled]; rfl)
    obtain ⟨x, hx, hxid, -, hsent⟩ := (sent_of_handOut (sound_run hreach) hhand).1
    obtain rfl := (sound_run (hreach.step hhand)).sane.eq_of_id hx hstays (hxid.trans hid.symm)
    rw [hcancelled] at hsent
    cases hsent

end runs

/-! ### An agent that joins -/

/-- An identifier. -/
def zeros : String := "0000000000000000000000000000000000000000000000000000000000000000"

/-- A platform on which every hash is the same. -/
def Platform.zero : Platform := ⟨fun _ => zeros, fun s => s, fun c => [c]⟩

/-- What is seen of the run below. -/
def joining : List Event :=
  [.other, .other, .launch zeros, .other, .other, .other, .other, .setDevice zeros true, .other, .handOut zeros zeros zeros,
    .other, .other, .start zeros zeros, .ended zeros zeros, .other]

/-- A device is invited, approved and given a command; its agent executes it and writes down the result. -/
theorem run_joining : ∃ s, Run Platform.zero (fun _ => true) (System.initial fun _ => []) joining s ∧
    (s.store.commands.map fun c => (c.id, c.status)) = [(zeros, .delivered)] ∧
    (s.agents zeros).process = some ⟨⟨zeros, zeros, "a", zeros⟩, none, true, .ready⟩ ∧
    (s.agents zeros).journal = [⟨zeros, .null, .done ⟨zeros, .completed, .null⟩ false⟩] := by
  have h := Run.refl.step (@Step.invite Platform.zero (fun _ => true) (System.initial fun _ => []) "a" zeros true 0 _ rfl)
  replace h := h.step (@Step.configure _ _ _ zeros ⟨zeros, zeros, "a", zeros⟩)
  replace h := h.step (@Step.launch _ _ _ zeros _ rfl rfl rfl (by decide +kernel))
  replace h := h.step (@Step.enter _ _ _ zeros _ rfl rfl)
  replace h := h.step (@Step.ask _ _ _ zeros _ _ rfl rfl rfl)
  replace h := h.step (@Step.serve _ _ _ [] [] _ 0 _ _ rfl rfl rfl)
  replace h := h.step (@Step.registered _ _ _ zeros _ _ _ _ rfl rfl List.mem_cons_self rfl rfl rfl)
  replace h := h.step (@Step.setDevice _ _ _ zeros true _ rfl)
  replace h := h.step (@Step.queue _ _ _ [(zeros, .null, zeros)] _ rfl)
  replace h := h.step (@Step.serve _ _ _ [] [] _ 0 _ _ rfl rfl rfl)
  replace h := h.step (@Step.read _ _ _ zeros _ _ _ rfl rfl (List.mem_cons_of_mem _ List.mem_cons_self) rfl rfl rfl)
  replace h := h.step (@Step.insert _ _ _ zeros _ _ _ _ rfl rfl rfl rfl rfl)
  replace h := h.step (@Step.start _ _ _ zeros _ _ rfl rfl)
  replace h := h.step (@Step.work _ _ _ zeros _ _ (.completed, .null) rfl rfl)
  replace h := h.step (@Step.collect _ _ _ zeros _ _ _ rfl rfl rfl)
  exact ⟨_, h, rfl, rfl, rfl⟩

theorem executed_once_joining : ∃ s, Run Platform.zero (fun _ => true) (System.initial fun _ => []) joining s ∧
    (starts zeros joining).Nodup ∧ ∀ e ∈ (s.agents zeros).journal, ∀ r, e.state = .done r false →
      ∃ c ∈ s.store.commands, c.id = e.id ∧ c.device = zeros ∧ c.status.sent := by
  obtain ⟨s, h, -⟩ := run_joining
  obtain ⟨honce, -, -, hknown⟩ := executed_once h
  exact ⟨s, h, honce zeros, fun e he r hs => (hknown zeros e he r hs).1⟩

theorem dispatched_in_order_joining : ∃ s, Run Platform.zero (fun _ => true) (System.initial fun _ => []) joining s ∧
    (starts zeros joining).Sublist (ids s.store.commands) ∧ running zeros (joining.take 12) = [] := by
  obtain ⟨s, h, -⟩ := run_joining
  obtain ⟨horder, -, halone, -⟩ := dispatched_in_order h
  refine ⟨s, h, (horder zeros).1, halone zeros (.of_launches fun n hn => ?_) (joining.take 12) [.ended zeros zeros, .other]
    zeros rfl⟩
  rcases n with _ | _ | _ | n
  · cases hn
  · cases hn
  · rfl
  · exact absurd (List.mem_of_getElem? (l := joining.drop 3) hn) (by simp [joining])

/-- Another identifier. -/
def ones : String := "1111111111111111111111111111111111111111111111111111111111111111"

/-- The command that was interrupted in the runs below. -/
def interrupted : Executed := ⟨zeros, .null, .done (Journal.interruption zeros) false⟩

theorem finish_interruption :
    Journal.finish (Journal.interruption zeros) [⟨zeros, .null, .executing⟩] = [interrupted] := by
  have hlength : ¬ 512 * 1024 < (Journal.interruption zeros).value.render.length := by decide +kernel
  have hbounded : Journal.bounded (Journal.interruption zeros) = Journal.interruption zeros := if_neg hlength
  rw [Journal.finish, hbounded]
  rfl

/-- What the next management has to tell is that nobody knows how the command ended. -/
theorem request_interrupted (config : Config) : (⟨config, none, false, .ready⟩ : Process).request [interrupted] =
    .ok (.poll config.device config.credential [Journal.interruption zeros] none) := by
  have hresults : Journal.results [interrupted] = .ok [Journal.interruption zeros] := by
    refine Journal.results_eq_ok.mpr ⟨rfl, fun r hr => ?_⟩
    obtain rfl := List.mem_singleton.mp hr
    decide
  rw [Process.request, hresults]
  rfl

/-- A system with one agent. -/
def solely (store : Store) (agent : Agent) (requests : List Incoming) (replies : List Outgoing) (next : ℕ) : System :=
  ⟨store, Function.update (fun _ => ⟨[], none, [], none, []⟩) zeros agent, requests, replies, next⟩

section solely

variable {store : Store} {agent agent' : Agent} {requests : List Incoming} {replies : List Outgoing} {next : ℕ}

theorem setAgent_solely :
    (solely store agent requests replies next).setAgent zeros agent' = solely store agent' requests replies next := by
  simp [solely, System.setAgent]

theorem setProcess_solely {process : Option Process} : (solely store agent requests replies next).setProcess zeros process =
    solely store { agent with process } requests replies next := setAgent_solely

theorem setJournal_solely {journal : Journal} {process : Option Process} :
    ((solely store agent requests replies next).setJournal zeros journal).setProcess zeros process =
      solely store { agent with journal, process } requests replies next := by
  rw [setJournal_setProcess]
  exact setAgent_solely

theorem send_solely {process : Option Process} {request : Request} :
    ((solely store agent requests replies next).setProcess zeros process).send agent.certificate request =
      solely store { agent with process } (requests ++ [⟨next, agent.certificate, request⟩]) replies (next + 1) := by
  rw [setProcess_solely]
  rfl

end solely

/-- A run, one step longer. -/
theorem Run.to {t t' : System} {e : Event} (h : Run P readable s trace t) (hstep : Step P readable t e t') {t'' : System}
    (ht : t' = t'') : Run P readable s (trace ++ [e]) t'' := ht ▸ h.step hstep

/-- What an agent was told. -/
def told : Config := ⟨zeros, zeros, "a", zeros⟩

/-- The registry with two commands for a device. -/
def twoCommands (first : Status) (result : Option Json) (second : Status) : Store :=
  ⟨[⟨zeros, 86400, some zeros⟩], [⟨zeros, zeros, [], .approved⟩],
    [⟨zeros, zeros, .null, first, result⟩, ⟨ones, zeros, .null, second, none⟩]⟩

/-- What is seen until the management of an agent ends while a command is executed. -/
def leaving : List Event :=
  [.other, .other, .launch zeros, .other, .other, .other, .other, .setDevice zeros true, .other,
    .handOut zeros zeros zeros, .other, .other, .start zeros zeros, .other]

/-- The agent of the runs below. -/
def worker (journal : Journal) (process : Option (Option (String × Option (ResultState × Json)) × Bool × Phase))
    (behind : List String) : Agent :=
  ⟨[], some told, journal, process.map fun p => ⟨told, p.1, p.2.1, p.2.2⟩, behind⟩

theorem run_leaving : ∃ replies, Run Platform.zero (fun _ => true) (System.initial fun _ => []) leaving
    (solely (twoCommands .delivered none .queued) (worker [⟨zeros, .null, .executing⟩] none [zeros]) [] replies 2) := by
  have hstart : System.initial (fun _ => []) = solely .empty ⟨[], none, [], none, []⟩ [] [] 0 := by
    simp [solely, System.initial]
  rw [hstart]
  have h := Run.refl.step (@Step.invite Platform.zero (fun _ => true) (solely .empty ⟨[], none, [], none, []⟩ [] [] 0)
    "a" zeros true 0 ⟨[⟨zeros, 86400, none⟩], [], []⟩ rfl)
  replace h := h.to (@Step.configure _ _ _ zeros told) setAgent_solely
  replace h := h.to (@Step.launch _ _ _ zeros told rfl rfl rfl (by decide +kernel)) setProcess_solely
  replace h := h.to (@Step.enter _ _ _ zeros _ rfl rfl) setProcess_solely
  replace h := h.to (@Step.ask _ _ _ zeros _ _ rfl rfl rfl) send_solely
  replace h := h.step (@Step.serve _ _ _ [] [] _ 0 _ _ rfl rfl rfl)
  replace h := h.to (@Step.registered _ _ _ zeros _ _ _ _ rfl rfl List.mem_cons_self rfl rfl rfl) send_solely
  replace h := h.step (@Step.setDevice _ _ _ zeros true _ rfl)
  replace h := h.step (@Step.queue _ _ _ [(zeros, .null, zeros), (zeros, .null, ones)] _ rfl)
  replace h := h.step (@Step.serve _ _ _ [] [] _ 0 _ _ rfl rfl rfl)
  replace h := h.to (@Step.read _ _ _ zeros _ _ _ rfl rfl (List.mem_cons_of_mem _ List.mem_cons_self) rfl rfl rfl)
    setProcess_solely
  replace h := h.to (@Step.insert _ _ _ zeros _ _ _ _ rfl rfl rfl rfl rfl) setJournal_solely
  replace h := h.to (@Step.start _ _ _ zeros _ _ rfl rfl) setProcess_solely
  replace h := h.to (@Step.leave _ _ _ zeros _ rfl) setAgent_solely
  exact ⟨_, h⟩

theorem load_told : told.load Platform.zero [] = .ok () := by decide +kernel

/-- The device is registered already. -/
theorem enroll_told (first second : Status) (result : Option Json) :
    (twoCommands first result second).exchange Platform.zero (fun _ => true) 0 (told.register []) =
      .ok (.ofState .registered, twoCommands first result second) := by
  have hvalid : validPeer zeros = .ok () := by decide +kernel
  have hname : "a".toList.all isWhitespace = false ∧ "a".utf8ByteSize ≤ 120 ∧ "a".toList.any isControl = false := by
    decide +kernel
  have hfingerprint : fingerprint Platform.zero [] = zeros := by decide +kernel
  have hsecret : ∀ secret, secretHash Platform.zero secret = zeros := fun _ => rfl
  simp [Store.exchange, Config.register, told, Store.enroll, twoCommands, hvalid, hname, hfingerprint, hsecret, ensure]
  rfl

/-- The management of an agent ends while a command is executed, and its next one starts another command beside it. -/
theorem started_beside_worker : ∃ trace s, Run Platform.zero (fun _ => true) (System.initial fun _ => [])
    (trace ++ [.start zeros ones]) s ∧ running zeros trace = [zeros] := by
  obtain ⟨replies, h⟩ := run_leaving
  replace h := h.to (@Step.launch _ _ _ zeros told rfl rfl rfl load_told) setProcess_solely
  replace h := h.to (@Step.recover _ _ _ zeros _ _ _ rfl rfl) setJournal_solely
  change Run _ _ _ _ (solely _ { worker (Journal.finish (Journal.interruption zeros) [⟨zeros, .null, .executing⟩])
    none [zeros] with process := _ } _ _ _) at h
  rw [finish_interruption] at h
  replace h := h.to (@Step.enter _ _ _ zeros _ rfl rfl) setProcess_solely
  replace h := h.to (@Step.ask _ _ _ zeros _ _ rfl rfl (request_interrupted _)) send_solely
  replace h := h.step (@Step.serve _ _ _ [] [] _ 0 _ _ rfl rfl (enroll_told _ _ _))
  replace h := h.to (@Step.registered _ _ _ zeros _ _ _ _ rfl rfl
    (List.mem_append_right _ List.mem_cons_self) rfl rfl rfl) send_solely
  replace h := h.step (@Step.serve _ _ _ [] [] _ 0 _ _ rfl rfl rfl)
  replace h := h.to (@Step.read _ _ _ zeros _ _ _ rfl rfl
    (List.mem_append_right _ List.mem_cons_self) rfl rfl rfl) setProcess_solely
  replace h := h.to (@Step.acknowledge _ _ _ zeros _ _ _ _ _ rfl rfl) setJournal_solely
  replace h := h.to (@Step.insert _ _ _ zeros _ _ _ _ rfl rfl rfl rfl rfl) setJournal_solely
  replace h := h.to (@Step.start _ _ _ zeros _ _ rfl rfl) setProcess_solely
  exact ⟨_, _, h, rfl⟩

end Everywhere.Central
