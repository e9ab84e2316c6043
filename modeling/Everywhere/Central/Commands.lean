import Everywhere.Central.Store

/-!
# What becomes of a command

The commands of a device are handed out in their order, and none before the one before it is over. Nothing in the
registry says so: it follows from how the transactions move commands on. A transaction keeps every command in its
place, one that is over stays as it is, and what was handed out is not withdrawn (`Continues`); and it keeps the
commands `Sane`: a command that was handed out has only commands before it, of the same device, that
are over (`Ordered`).

* `moves_invite`, `moves_enroll`, `moves_setDevice`, `moves_queue`, `moves_cancel`, `moves_poll` — what each
  transaction does with the commands.
* `poll_acknowledges` — a result that is sent is acknowledged, if its command was handed out to the device.
* `Sane.due` — a command that is handed out is, if the device does not know it, after all that it knows.
-/

namespace Everywhere.Central

open Library

/-! ### Orders of commands -/

/-- The identifiers of commands. -/
def ids (commands : List Command) : List String := commands.map Command.id

/-- What may become of a command. -/
structure Command.Evolves (c c' : Command) : Prop where
  /-- It is the same command. -/
  id : c'.id = c.id
  /-- It is for the same device. -/
  device : c'.device = c.device
  /-- What was handed out was handed out. -/
  sent : c.status.sent → c'.status.sent
  /-- What is over stays as it is. -/
  closed : c.status.closed → c' = c

/-- What may become of all commands: each is in its place, and new ones are behind them. -/
def Continues (a b : List Command) : Prop :=
  ∃ (f : Command → Command) (tail : List Command), b = a.map f ++ tail ∧ ∀ c ∈ a, c.Evolves (f c)

/-- Before a command that was handed out, all commands of the device are over. -/
def Ordered (commands : List Command) : Prop :=
  commands.Pairwise fun x y => x.device = y.device → y.status.sent → x.status.closed

/-- The commands are told apart, and handed out in their order. -/
structure Sane (commands : List Command) : Prop where
  /-- No two have the same identifier. -/
  unique : (ids commands).Nodup
  /-- They are handed out in their order. -/
  ordered : Ordered commands

/-- The command is on record as handed out to the device. -/
def Sent (commands : List Command) (device id : String) : Prop :=
  ∃ c ∈ commands, c.id = id ∧ c.device = device ∧ c.status.sent

/-- What a transaction does with the commands when a device reports results. -/
structure Moves (device : String) (results : List CommandResult) (a b : List Command) : Prop where
  /-- Each command is in its place. -/
  continues : Continues a b
  /-- The order is kept. -/
  sane : Sane b
  /-- What is over now was over, or the device says so. -/
  news : ∀ c ∈ b, c.status.terminal → c ∈ a ∨
    ∃ r ∈ results, c.id = r.id ∧ c.device = device ∧ c.status = r.status.toStatus ∧ c.result = some r.value

theorem Command.Evolves.refl (c : Command) : c.Evolves c := ⟨rfl, rfl, fun h => h, fun _ => rfl⟩

theorem Command.Evolves.trans {a b c : Command} (h : a.Evolves b) (h' : b.Evolves c) : a.Evolves c where
  id := h'.id.trans h.id
  device := h'.device.trans h.device
  sent ha := h'.sent (h.sent ha)
  closed ha := by
    have hb := h.closed ha
    subst hb
    exact h'.closed ha

namespace Continues

variable {a b c : List Command}

theorem refl (a : List Command) : Continues a a := ⟨id, [], by simp, fun c _ => .refl c⟩

theorem trans (h : Continues a b) (h' : Continues b c) : Continues a c := by
  obtain ⟨f, t, rfl, hf⟩ := h
  obtain ⟨g, u, rfl, hg⟩ := h'
  refine ⟨g ∘ f, t.map g ++ u, by simp, fun x hx => (hf x hx).trans (hg (f x) ?_)⟩
  exact List.mem_append_left _ (List.mem_map_of_mem hx)

/-- Every command is still there. -/
theorem exists_evolves (h : Continues a b) {x : Command} (hx : x ∈ a) : ∃ y ∈ b, x.Evolves y := by
  obtain ⟨f, t, rfl, hf⟩ := h
  exact ⟨f x, List.mem_append_left _ (List.mem_map_of_mem hx), hf x hx⟩

/-- What is over stays as it is. -/
theorem mem_of_closed (h : Continues a b) {x : Command} (hx : x ∈ a) (hclosed : x.status.closed) : x ∈ b := by
  obtain ⟨y, hy, he⟩ := h.exists_evolves hx
  rwa [he.closed hclosed] at hy

theorem ids_prefix (h : Continues a b) : ids a <+: ids b := by
  obtain ⟨f, t, rfl, hf⟩ := h
  refine ⟨ids t, ?_⟩
  rw [ids, ids, ids, List.map_append, List.map_map]
  congr 1
  exact List.map_congr_left fun x hx => (hf x hx).id.symm

theorem sent (h : Continues a b) {device id : String} (hs : Sent a device id) : Sent b device id := by
  obtain ⟨x, hx, rfl, rfl, hsent⟩ := hs
  obtain ⟨y, hy, he⟩ := h.exists_evolves hx
  exact ⟨y, hy, he.id, he.device, he.sent hsent⟩

end Continues

/-- Commands with one identifier are one. -/
theorem Sane.eq_of_id {commands : List Command} (h : Sane commands) {x y : Command} (hx : x ∈ commands)
    (hy : y ∈ commands) (he : x.id = y.id) : x = y :=
  List.inj_on_of_nodup_map h.unique hx hy he

/-- Moving commands on one by one keeps them sane, if none is handed out and what is over stays over. -/
theorem Sane.map {commands : List Command} (h : Sane commands) {f : Command → Command}
    (hid : ∀ c, (f c).id = c.id) (hdevice : ∀ c, (f c).device = c.device)
    (hsent : ∀ c ∈ commands, (f c).status.sent → c.status.sent)
    (hclosed : ∀ c ∈ commands, c.status.closed → (f c).status.closed) : Sane (commands.map f) where
  unique := by
    rw [ids, List.map_map, show Command.id ∘ f = Command.id from funext hid]
    exact h.unique
  ordered := by
    refine List.pairwise_map.mpr (h.ordered.imp_of_mem fun {x y} hx hy hxy hd hs => hclosed x hx (hxy ?_ (hsent y hy hs)))
    rwa [hdevice, hdevice] at hd

namespace Moves

variable {device : String} {results results' all : List CommandResult} {a b c : List Command}

theorem refl (h : Sane a) : Moves device results a a := ⟨.refl a, h, fun _ hc _ => .inl hc⟩

theorem trans (h : Moves device results a b) (h' : Moves device results' b c) (hl : results ⊆ all)
    (hr : results' ⊆ all) : Moves device all a c where
  continues := h.continues.trans h'.continues
  sane := h'.sane
  news x hx ht := by
    rcases h'.news x hx ht with hb | ⟨r, hmem, hres⟩
    · rcases h.news x hb ht with ha | ⟨r, hmem, hres⟩
      · exact .inl ha
      · exact .inr ⟨r, hl hmem, hres⟩
    · exact .inr ⟨r, hr hmem, hres⟩

end Moves

theorem Status.closed_of_terminal {s : Status} (h : s.terminal) : s.closed := by cases s <;> simp_all [terminal, closed]

theorem Status.sent_of_terminal {s : Status} (h : s.terminal) : s.sent := by cases s <;> simp_all [terminal, sent]

theorem ResultState.terminal_toStatus (r : ResultState) : r.toStatus.terminal := by cases r <;> rfl

/-! ### Transactions -/

section transactions

variable {P : Platform} {device : String} {results : List CommandResult} {s s' : Store} {commands : List Command}

theorem moves_record (h : Sane commands) (r : CommandResult) : Moves device [r] commands (Store.record device r commands) where
  continues := by
    refine ⟨_, [], (List.append_nil _).symm, fun c _ => ?_⟩
    split_ifs with hc
    · exact ⟨rfl, rfl, fun _ => Status.sent_of_terminal r.status.terminal_toStatus, fun hcl => by simp [hc.2.2, Status.closed] at hcl⟩
    · exact .refl c
  sane := by
    refine h.map (fun c => by split_ifs <;> rfl) (fun c => by split_ifs <;> rfl) (fun c _ hs => ?_) fun c _ hc => ?_
    · split_ifs at hs with hhit
      · simp [hhit.2.2, Status.sent]
      · exact hs
    · split_ifs
      · exact Status.closed_of_terminal r.status.terminal_toStatus
      · exact hc
  news c hc ht := by
    obtain ⟨x, hx, rfl⟩ := List.mem_map.mp hc
    split_ifs at ht ⊢ with hhit
    · exact .inr ⟨r, by simp, hhit.1, hhit.2.1, rfl, rfl⟩
    · exact .inl hx

theorem moves_recordAll (h : Sane commands) (results : List CommandResult) :
    Moves device results commands (Store.recordAll device results commands).1 := by
  induction results generalizing commands with
  | nil => exact .refl h
  | cons r results ih =>
    have hr := @moves_record device _ h r
    exact hr.trans (ih hr.sane) (by simp) (by simp)

/-- The first open command: all commands of the device before it are over. -/
theorem nextCommand_eq_some {c : Command} (h : Store.nextCommand device commands = some c) :
    c.device = device ∧ (c.status = .queued ∨ c.status = .delivered) ∧
      ∃ l₁ l₂, commands = l₁ ++ c :: l₂ ∧ ∀ x ∈ l₁, x.device = device → x.status.closed := by
  obtain ⟨hc, l₁, l₂, rfl, hl⟩ := List.find?_eq_some_iff_append.mp h
  simp only [decide_eq_true_eq] at hc
  refine ⟨hc.1, hc.2, l₁, l₂, rfl, fun x hx hd => ?_⟩
  have := hl x hx
  simp only [hd, true_and, Bool.not_eq_true', decide_eq_false_iff_not] at this
  cases hs : x.status <;> simp_all [Status.closed]

theorem moves_deliver (h : Sane commands) {c : Command} (hc : Store.nextCommand device commands = some c) :
    Moves device [] commands (Store.deliver c.id commands) ∧ Sent (Store.deliver c.id commands) device c.id := by
  obtain ⟨rfl, hopen, l₁, l₂, rfl, hl⟩ := nextCommand_eq_some hc
  have hmem : c ∈ l₁ ++ c :: l₂ := by simp
  have hself : ∀ x ∈ l₁ ++ c :: l₂, x.id = c.id → x = c := fun x hx he => h.eq_of_id hx hmem he
  have hnot : ¬ c.status.closed := by rcases hopen with ho | ho <;> simp [ho, Status.closed]
  have hunique : (ids (Store.deliver c.id (l₁ ++ c :: l₂))).Nodup := by
    have hsame : ids (Store.deliver c.id (l₁ ++ c :: l₂)) = ids (l₁ ++ c :: l₂) := by
      rw [ids, ids, Store.deliver, List.map_map]
      exact List.map_congr_left fun x _ => by
        change (if x.id = c.id then _ else _ : Command).id = _
        split_ifs <;> rfl
    rw [hsame]
    exact h.unique
  refine ⟨⟨⟨_, [], (List.append_nil _).symm, fun x hx => ?_⟩, ⟨hunique, ?_⟩, fun x hx ht => ?_⟩, ?_⟩
  · split_ifs with he
    · exact ⟨rfl, rfl, fun _ => rfl, fun hcl => absurd (hself x hx he ▸ hcl) hnot⟩
    · exact .refl x
  · -- only `c` is handed out, and what stands before it is over
    have hf : ∀ x ∈ l₁ ++ l₂, (if x.id = c.id then { x with status := Status.delivered } else x) = x := by
      intro x hx
      rw [if_neg]
      intro he
      have hn := h.unique
      rw [ids, List.map_append, List.map_cons, List.nodup_middle, List.nodup_cons, ← List.map_append] at hn
      exact hn.1 (he ▸ List.mem_map_of_mem hx)
    rw [Ordered, Store.deliver, List.map_append, List.map_cons, if_pos rfl,
      List.map_congr_left (fun x hx => hf x (List.mem_append_left _ hx)),
      List.map_congr_left (fun x hx => hf x (List.mem_append_right _ hx)), List.map_id', List.map_id']
    obtain ⟨h1, h2, h12⟩ := List.pairwise_append.mp h.ordered
    obtain ⟨hc2, h2⟩ := List.pairwise_cons.mp h2
    refine List.pairwise_append.mpr ⟨h1, List.pairwise_cons.mpr ⟨fun y hy hd hs => ?_, h2⟩, fun x hx y hy hd hs => ?_⟩
    · exact absurd (hc2 y hy hd hs) hnot
    · rcases List.mem_cons.mp hy with rfl | hy
      · exact hl x hx hd
      · exact h12 x hx y (List.mem_cons_of_mem _ hy) hd hs
  · obtain ⟨y, hy, rfl⟩ := List.mem_map.mp hx
    split_ifs at ht ⊢ with he
    · simp [Status.terminal] at ht
    · exact .inl hy
  · exact ⟨_, List.mem_map_of_mem hmem, by rw [if_pos rfl], by rw [if_pos rfl], by rw [if_pos rfl]; rfl⟩

theorem moves_invite {label token : String} {reachable : Bool} {now : ℕ} (h : Sane s.commands)
    (hok : s.invite P label token reachable now = .ok s') : Moves device [] s.commands s'.commands := by
  simp only [Store.invite, ensure_bind_eq_ok, pure_eq_ok] at hok
  obtain ⟨-, -, -, rfl⟩ := hok
  exact .refl h

theorem moves_enroll {readable : Bytes → Bool} {now : ℕ} {invitation credential name : String} {certificate : Bytes}
    {reply : Reply} (h : Sane s.commands)
    (hok : s.enroll P readable now invitation credential name certificate = .ok (reply, s')) :
    Moves device [] s.commands s'.commands ∧ reply.command = none := by
  have hsame : s'.commands = s.commands ∧ reply = .ofState .registered := by
    simp only [Store.enroll, validPeer, ensure_bind_eq_ok] at hok
    obtain ⟨-, -, -, -, -, hok⟩ := hok
    split at hok
    · cases hok
    · simp only [ensure_bind_eq_ok, pure_eq_ok, Prod.mk.injEq] at hok
      exact ⟨by rw [← hok.2.2], hok.2.1.symm⟩
    · simp only [ensure_bind_eq_ok, pure_eq_ok, Prod.mk.injEq] at hok
      exact ⟨by rw [← hok.2.2.2.2], hok.2.2.2.1.symm⟩
  rw [hsame.1, hsame.2]
  exact ⟨.refl h, rfl⟩

/-- Withdrawing commands that wait. -/
theorem moves_withdraw (h : Sane commands) {p : Command → Prop} [DecidablePred p] :
    Moves device [] commands
      (commands.map fun c => if p c ∧ c.status = .queued then { c with status := .cancelled } else c) where
  continues := by
    refine ⟨_, [], (List.append_nil _).symm, fun c _ => ?_⟩
    split_ifs with hc
    · exact ⟨rfl, rfl, fun hs => by simp [hc.2, Status.sent] at hs, fun hcl => by simp [hc.2, Status.closed] at hcl⟩
    · exact .refl c
  sane := by
    refine h.map (fun c => by split_ifs <;> rfl) (fun c => by split_ifs <;> rfl) (fun c _ hs => ?_) fun c _ hc => ?_
    · split_ifs at hs with hhit
      · simp [Status.sent] at hs
      · exact hs
    · split_ifs
      · rfl
      · exact hc
  news c hc ht := by
    obtain ⟨x, hx, rfl⟩ := List.mem_map.mp hc
    split_ifs at ht ⊢ with hhit
    · simp [Status.terminal] at ht
    · exact .inl hx

/-- What approval and revocation do. -/
theorem setDevice_eq_ok {d : String} {approved : Bool} : s.setDevice d approved = .ok s' ↔
    isHash d = true ∧ (∃ x ∈ s.devices, x.id = d) ∧ s' = { s with
      devices := s.devices.map fun x => if x.id = d then { x with state := if approved then .approved else .revoked } else x
      commands := if approved then s.commands else s.commands.map fun c =>
        if c.device = d ∧ c.status = .queued then { c with status := .cancelled } else c } := by
  simp only [Store.setDevice, validPeer, ensure_bind_eq_ok, pure_eq_ok, eq_comm (a := s')]

theorem moves_setDevice {d : String} {approved : Bool} (h : Sane s.commands) (hok : s.setDevice d approved = .ok s') :
    Moves device [] s.commands s'.commands := by
  obtain ⟨-, -, rfl⟩ := setDevice_eq_ok.mp hok
  cases approved with
  | true => exact .refl h
  | false => exact moves_withdraw h

theorem moves_cancel {id : String} (h : Sane s.commands) (hok : s.cancel id = .ok s') :
    Moves device [] s.commands s'.commands := by
  simp only [Store.cancel, ensure_bind_eq_ok, pure_eq_ok] at hok
  obtain ⟨-, rfl⟩ := hok
  exact moves_withdraw h

/-- What queueing one command does. -/
theorem queueOne_eq_ok {d id : String} {operation : Json} (hok : s.queueOne d operation id = .ok s') :
    (∀ c ∈ s.commands, c.id ≠ id) ∧ s'.commands = s.commands ++ [⟨id, d, operation, .queued, none⟩] := by
  simp only [Store.queueOne, ensure_bind_eq_ok, pure_eq_ok] at hok
  exact ⟨hok.2.2.1, by rw [← hok.2.2.2]⟩

theorem moves_queue {queued : List (String × Json × String)} (h : Sane s.commands)
    (hok : Store.queue queued s = .ok s') : Moves device [] s.commands s'.commands := by
  induction queued generalizing s with
  | nil =>
    obtain rfl := pure_eq_ok.mp hok
    exact .refl h
  | cons q queued ih =>
    obtain ⟨d, operation, id⟩ := q
    obtain ⟨t, ht, hok⟩ := bind_eq_ok.mp hok
    obtain ⟨hnew, hcommands⟩ := queueOne_eq_ok ht
    have hone : Moves device [] s.commands t.commands := by
      rw [hcommands]
      refine ⟨⟨fun c => c, [⟨id, d, operation, .queued, none⟩], by simp, fun c _ => .refl c⟩, ⟨?_, ?_⟩, fun c hc hterm => ?_⟩
      · rw [ids, List.map_append, List.nodup_append]
        refine ⟨h.unique, by simp, fun x hx y hy => ?_⟩
        obtain ⟨c, hc, rfl⟩ := List.mem_map.mp hx
        rw [List.mem_singleton.mp hy]
        exact hnew c hc
      · refine List.pairwise_append.mpr ⟨h.ordered, by simp, fun x _ y hy _ hs => ?_⟩
        rw [List.mem_singleton.mp hy] at hs
        cases hs
      · rcases List.mem_append.mp hc with hc | hc
        · exact .inl hc
        · rw [List.mem_singleton.mp hc] at hterm
          cases hterm
    exact hone.trans (ih hone.sane hok) (by simp) (by simp)

/-- What a request for work does. -/
structure Polled (P : Platform) (device credential : String) (results : List CommandResult) (active : Option String)
    (s : Store) (reply : Reply) (s' : Store) where
  /-- The device that asks. -/
  row : Device
  /-- It is registered. -/
  mem : row ∈ s.devices
  /-- It is the one. -/
  id : row.id = device
  /-- It knows its credential. -/
  authentic : row.credential = secretHash P credential
  /-- The devices stay as they are. -/
  devices : s'.devices = s.devices
  /-- What is acknowledged. -/
  acknowledged : reply.acknowledged = (Store.recordAll device results s.commands).2
  /-- The command that is handed out, if one is. -/
  handedOut : reply.command = none ∧ s'.commands = (Store.recordAll device results s.commands).1 ∨
    ∃ c, row.state = .approved ∧ active = none ∧
      Store.nextCommand device (Store.recordAll device results s.commands).1 = some c ∧
      reply.command = some ⟨c.id, c.body⟩ ∧
      s'.commands = Store.deliver c.id (Store.recordAll device results s.commands).1

theorem polled {credential : String} {active : Option String} {reply : Reply}
    (hok : s.poll P device credential results active = .ok (reply, s')) :
    Nonempty (Polled P device credential results active s reply s') := by
  simp only [Store.poll, validPeer, ensure_bind_eq_ok] at hok
  obtain ⟨-, -, -, hok⟩ := hok
  split at hok
  · cases hok
  · rename_i d hd
    have hmem := List.mem_of_find?_eq_some hd
    have hid : d.id = device := by simpa using List.find?_some hd
    rw [ensure_bind_eq_ok] at hok
    obtain ⟨hauth, hok⟩ := hok
    split_ifs at hok with happroved
    · split at hok
      · obtain ⟨rfl, rfl⟩ := Prod.mk.inj (pure_eq_ok.mp hok)
        exact ⟨d, hmem, hid, hauth, rfl, rfl, .inl ⟨rfl, rfl⟩⟩
      · rename_i c hc
        obtain ⟨rfl, rfl⟩ := Prod.mk.inj (pure_eq_ok.mp hok)
        exact ⟨d, hmem, hid, hauth, rfl, rfl, .inr ⟨c, happroved.1, happroved.2, hc, rfl, rfl⟩⟩
    · obtain ⟨rfl, rfl⟩ := Prod.mk.inj (pure_eq_ok.mp hok)
      exact ⟨d, hmem, hid, hauth, rfl, rfl, .inl ⟨rfl, rfl⟩⟩

theorem moves_poll {credential : String} {active : Option String} {reply : Reply} (h : Sane s.commands)
    (hp : Polled P device credential results active s reply s') : Moves device results s.commands s'.commands := by
  have hrecord := @moves_recordAll device _ h results
  rcases hp.handedOut with ⟨-, hc⟩ | ⟨c, -, -, hnext, -, hc⟩
  · rw [hc]
    exact hrecord
  · rw [hc]
    exact hrecord.trans (moves_deliver hrecord.sane hnext).1 (List.Subset.refl _) (List.nil_subset _)

/-- The command that is handed out is on record as such. -/
theorem sent_of_polled {credential : String} {active : Option String} {reply : Reply} {command : Envelope}
    (h : Sane s.commands) (hp : Polled P device credential results active s reply s')
    (hc : reply.command = some command) : Sent s'.commands device command.id := by
  rcases hp.handedOut with ⟨hn, -⟩ | ⟨c, -, -, hnext, hc', hcommands⟩
  · rw [hn] at hc
    cases hc
  · rw [hc', Option.some.injEq] at hc
    rw [← hc, hcommands]
    exact (moves_deliver (moves_recordAll h results).sane hnext).2

/-- **Results are acknowledged** if their commands were handed out to the device. -/
theorem poll_acknowledges {credential : String} {active : Option String} {reply : Reply} (h : Sane s.commands)
    (hp : Polled P device credential results active s reply s') {r : CommandResult} (hr : r ∈ results)
    (hsent : Sent s.commands device r.id) : r.id ∈ reply.acknowledged := by
  rw [hp.acknowledged]
  generalize s.commands = commands at h hsent
  clear hp
  induction results generalizing commands with
  | nil => cases hr
  | cons r' results ih =>
    have hmoves := @moves_record device _ h r'
    rw [Store.recordAll]
    rcases List.mem_cons.mp hr with rfl | hr
    · have hon : Store.recorded device r (Store.record device r commands) = true := by
        obtain ⟨c, hc, hid, hd, hs⟩ := hsent
        refine List.any_eq_true.mpr ⟨_, List.mem_map_of_mem hc, ?_⟩
        by_cases hdelivered : c.status = .delivered
        · rw [if_pos ⟨hid, hd, hdelivered⟩]
          simp [hid, hd, r.status.terminal_toStatus]
        · rw [if_neg fun hx => hdelivered hx.2.2]
          have hterm : c.status.terminal = true := by cases hst : c.status <;> simp_all [Status.sent, Status.terminal]
          simp [hid, hd, hterm]
      simp [hon]
    · have := ih hr _ hmoves.sane (hmoves.continues.sent hsent)
      split_ifs
      · exact List.mem_cons_of_mem _ this
      · exact this

/-- A list that is in order, and has nothing of the second part, is in the first part. -/
theorem sublist_left {α : Type} {l l₁ l₂ : List α} (h : l.Sublist (l₁ ++ l₂)) (hnot : ∀ x ∈ l, x ∉ l₂) :
    l.Sublist l₁ := by
  obtain ⟨m₁, m₂, rfl, h1, h2⟩ := List.sublist_append_iff.mp h
  cases m₂ with
  | nil => simpa using h1
  | cons x m₂ => exact absurd (h2.subset (by simp)) (hnot x (by simp))

/-- **In order**: a command that is handed out comes, if the device does not know it, after all that it knows. -/
theorem Sane.due {l : List String} (h : Sane commands) {c : Command} (hc : Store.nextCommand device commands = some c)
    (hl : l.Sublist (ids commands)) (hsent : ∀ x ∈ l, Sent commands device x) :
    c.id ∈ l ∨ (l ++ [c.id]).Sublist (ids commands) := by
  by_cases hmem : c.id ∈ l
  · exact .inl hmem
  · obtain ⟨rfl, hopen, l₁, l₂, rfl, -⟩ := nextCommand_eq_some hc
    have hnot : ¬ c.status.closed := by rcases hopen with ho | ho <;> simp [ho, Status.closed]
    obtain ⟨-, h2, -⟩ := List.pairwise_append.mp h.ordered
    have hafter := (List.pairwise_cons.mp h2).1
    rw [ids, List.map_append, List.map_cons] at hl ⊢
    refine .inr ((sublist_left hl fun x hx hx2 => ?_).append (by simp))
    rcases List.mem_cons.mp hx2 with rfl | hx2
    · exact hmem hx
    · obtain ⟨y, hy, rfl⟩ := List.mem_map.mp hx2
      obtain ⟨z, hz, hid, hd, hs⟩ := hsent _ hx
      obtain rfl := h.eq_of_id hz (by simp [hy]) hid
      exact hnot (hafter z hy hd.symm hs)

end transactions

end Everywhere.Central
