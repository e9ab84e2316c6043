import Everywhere.Storage.Install
import Everywhere.Storage.Repair

/-!
# The end of a transfer

A transfer of an object that nobody disturbs: no end fails, and the object at the sender stays. The two ends take their steps in
any order, and write heartbeats whenever they work.

* `transfer_progress` — **the transfer comes to its end**: as long as an end has not returned, one of the two can take a step
  that is no heartbeat; such steps are at most seven for each block, a dozen, and one for each heartbeat; and when the ends have
  returned, the object is at the destination.
-/

namespace Everywhere

open Library

namespace Exchange

variable {P : Platform} {hash : String} {s s' s₀ : Exchange} {l : List Packet}

/-! ### Runs -/

/-- A step that nobody disturbs. -/
structure Steady (P : Platform) (hash : String) (s s' : Exchange) : Prop where
  /-- It is a step of one of the ends, or nothing. -/
  step : Step P hash s s'
  /-- The object stays. -/
  source : s'.source = s.source
  /-- The sender does not fail. -/
  sender : s'.senderFailed = false
  /-- Neither does the receiver. -/
  receiver : s'.receiverFailed = false

/-- A heartbeat was written. -/
def Beat (s s' : Exchange) : Prop := s' = { s with there := s.there ++ [.busy] } ∨ s' = { s with back := s.back ++ [.busy] }

/-- A transfer that nobody disturbs: how many steps it has taken besides heartbeats, and how many heartbeats were written. -/
inductive Transfer (P : Platform) (hash : String) (s₀ : Exchange) : ℕ → ℕ → Exchange → Prop where
  /-- It begins. -/
  | refl : Transfer P hash s₀ 0 0 s₀
  /-- An end takes a step. -/
  | step {n beats : ℕ} {s s' : Exchange} : Transfer P hash s₀ n beats s → Steady P hash s s' → ¬ Beat s s' → s' ≠ s →
      Transfer P hash s₀ (n + 1) beats s'
  /-- An end writes a heartbeat. -/
  | beat {n beats : ℕ} {s s' : Exchange} : Transfer P hash s₀ n beats s → Steady P hash s s' → Beat s s' →
      Transfer P hash s₀ n (beats + 1) s'

/-! ### What is left to do -/

/-- What the sender has still to do. -/
def Sending.left (source : Bytes) : Sending → ℕ
  | .hashing => 3 * (blocksOf source).length + 5
  | .offering m => 3 * m.blocks.length + 4
  | .sending _ missing sent acknowledged _ holding =>
    2 * (missing.length - sent - holding.toNat) + holding.toNat + (missing.length - acknowledged) + 3
  | .verifying .. => 2
  | .committed .. => 1
  | .done .. => 0

/-- What the receiver has still to do. -/
def Receiving.left (source : Bytes) : Receiving → ℕ
  | .waiting => 4 * (blocksOf source).length + 6
  | .opening m => 4 * m.blocks.length + 5
  | .receiving _ missing acknowledged .idle => 4 * (missing.length - acknowledged) + 4
  | .receiving _ missing acknowledged (.read _) => 4 * (missing.length - (acknowledged + 1)) + 7
  | .receiving _ missing acknowledged .written => 4 * (missing.length - (acknowledged + 1)) + 6
  | .receiving _ missing acknowledged .synced => 4 * (missing.length - (acknowledged + 1)) + 5
  | .finishing .. => 3
  | .verified .. => 2
  | .published .. => 1
  | .done .. => 0

/-- The heartbeats among some packets. -/
def beats (l : List Packet) : ℕ := l.count .busy

/-- The destination has to be cleared. -/
def occupied : Receiving → Option Bytes → ℕ
  | .published .., _ | .done .., _ => 0
  | _, destination => destination.isSome.toNat

/-- What is left to do. -/
def left (s : Exchange) : ℕ :=
  s.sender.left s.source + s.receiver.left s.source + beats s.there + beats s.back + occupied s.receiver s.destination

/-! ### What holds all along -/

/-- The manifest that the sender has made. -/
def Sending.manifest : Sending → Option Manifest
  | .hashing => none
  | .offering m | .sending m .. | .verifying m _ | .committed m _ | .done m _ => some m

/-- The blocks that the receiver has asked for. -/
def Receiving.wanted : Receiving → Option (List ℕ)
  | .waiting | .opening _ => none
  | .receiving _ missing _ _ | .finishing _ missing | .verified _ missing | .published _ missing | .done _ missing => some missing

/-- The blocks that the receiver has taken are some of those. -/
def Receiving.Counted : Receiving → Prop
  | .receiving _ missing acknowledged putting => acknowledged + Putting.taken putting ≤ missing.length
  | _ => True

/-- A packet says something true of the object. -/
def Packet.Genuine (P : Platform) (source : Bytes) : Packet → Prop
  | .ready (.manifest m) => m = Manifest.ofBytes P source
  | .ready (.block index data) => (blocksOf source)[index]? = some data
  | _ => True

/-- Each heartbeat comes before the manifest. -/
def Announced : List Packet → Prop
  | [] => True
  | .busy :: l => (∃ m, .ready (.manifest m) ∈ l) ∧ Announced l
  | .ready _ :: l => Announced l

/-- Where the sender has written heartbeats. -/
def Sending.Ordered : Sending → List Packet → Prop
  | .hashing, l => ∀ p ∈ l, p = .busy
  | .offering _, l | .sending .., l => Announced l
  | _, _ => True

/-- What holds of a transfer that nobody disturbs. -/
structure Fine (P : Platform) (hash : String) (s : Exchange) : Prop where
  /-- What always holds. -/
  sound : Sound P hash s
  /-- The object is small enough. -/
  size : s.source.length ≤ maxSize
  /-- It is the one that was asked for. -/
  named : P.blake3 s.source = hash
  /-- The sender has made its manifest. -/
  offered : ∀ m, s.sender.manifest = some m → m = Manifest.ofBytes P s.source
  /-- The receiver has read it. -/
  taken : ∀ m, s.receiver.manifest = some m → m = Manifest.ofBytes P s.source
  /-- What is on the way is true. -/
  genuine : ∀ p ∈ s.there, p.Genuine P s.source
  /-- The staging file is not too long. -/
  part : s.staging.part.length ≤ s.source.length
  /-- The receiver has asked for the blocks that are not right. -/
  wanted : ∀ missing, s.receiver.wanted = some missing → missing.Pairwise (· < ·) ∧
    (∀ i ∈ missing, i < (blocksOf s.source).length) ∧
    ∀ j < (blocksOf s.source).length, j ∉ missing → BlockOk P (Manifest.ofBytes P s.source) s.staging.part j
  /-- It has taken some of them. -/
  counted : s.receiver.Counted
  /-- The block that it has read is the one of the object. -/
  reading : ∀ m missing acknowledged data, s.receiver = .receiving m missing acknowledged (.read data) →
    ∀ index, missing[acknowledged]? = some index → (blocksOf s.source)[index]? = some data
  /-- Blocks do not come behind heartbeats. -/
  ordered : s.sender.Ordered s.there

theorem announced_append (h : Announced l) (m : Message) : Announced (l ++ [.ready m]) := by
  induction l with
  | nil => trivial
  | cons p l ih =>
    cases p with
    | busy => exact ⟨h.1.imp fun _ hm => List.mem_append_left _ hm, ih h.2⟩
    | ready _ => exact ih h

theorem announced_manifest (h : ∀ p ∈ l, p = .busy) (m : Manifest) : Announced (l ++ [.ready (.manifest m)]) := by
  induction l with
  | nil => trivial
  | cons p l ih =>
    obtain rfl := h p List.mem_cons_self
    exact ⟨⟨m, by simp⟩, ih fun q hq => h q (List.mem_cons_of_mem _ hq)⟩

theorem Announced.tail {p : Packet} (h : Announced (p :: l)) : Announced l := by
  cases p with
  | busy => exact h.2
  | ready _ => exact h

theorem Sending.Ordered.tail {x : Sending} {p : Packet} (h : x.Ordered (p :: l)) : x.Ordered l := by
  cases x with
  | hashing => exact fun q hq => h q (List.mem_cons_of_mem _ hq)
  | offering _ => exact Announced.tail h
  | sending _ _ _ _ _ _ => exact Announced.tail h
  | _ => trivial

theorem genuine_append {source : Bytes} (h : ∀ p ∈ l, p.Genuine P source) {q : Packet} (hq : q.Genuine P source) :
    ∀ p ∈ l ++ [q], p.Genuine P source := by
  intro p hp
  rcases List.mem_append.mp hp with hp | hp
  · exact h p hp
  · obtain rfl := List.mem_singleton.mp hp
    exact hq

/-- What is read of the object is one of its blocks. -/
theorem block_of_read {source data : Bytes} {index len : ℕ} (hlen : blockLen (Manifest.ofBytes P source) index = .ok len)
    (hread : readExact source index len = some data) : (blocksOf source)[index]? = some data := by
  have hindex : index < (blocksOf source).length := by
    obtain ⟨hlt, -⟩ := ensure_bind_eq_ok.mp hlen
    rwa [Manifest.ofBytes, List.length_map] at hlt
  rw [blockLen_ofBytes P hindex] at hlen
  obtain rfl := Except.ok.inj hlen
  rw [readExact] at hread
  split_ifs at hread
  rw [getElem?_blocksOf (by rwa [← length_blocksOf]), ← hread, take_block]

/-- **A step of the sender keeps what holds.** -/
theorem Fine.sender (h : Fine P hash s) (hstep : SenderStep P hash s s')
    (hfailed : s'.senderFailed = false) : Fine P hash s' := by
  have hsound := sound_sender h.sound hstep
  have hoffered := h.offered
  have hordered := h.ordered
  cases hstep with
  | offer hs _ _ =>
    rw [hs] at hordered
    exact { h with
      sound := hsound
      offered := fun m hm => (Option.some.inj hm).symm
      genuine := genuine_append h.genuine rfl
      ordered := announced_manifest hordered _ }
  | request hs _ _ _ =>
    rw [hs] at hoffered hordered
    exact { h with sound := hsound, offered := hoffered, ordered := hordered }
  | acquire hs _ =>
    rw [hs] at hoffered hordered
    exact { h with sound := hsound, offered := hoffered, ordered := hordered }
  | block hs _ hlen hread _ =>
    rw [hs] at hoffered hordered
    rw [hoffered _ rfl] at hlen
    exact { h with
      sound := hsound
      offered := hoffered
      genuine := genuine_append h.genuine (block_of_read hlen hread)
      ordered := announced_append hordered _ }
  | acknowledged hs _ _ =>
    rw [hs] at hoffered hordered
    exact { h with sound := hsound, offered := hoffered, ordered := hordered }
  | join hs =>
    rw [hs] at hoffered
    exact { h with sound := hsound, offered := hoffered, ordered := trivial }
  | commit hs _ =>
    rw [hs] at hoffered
    exact { h with sound := hsound, offered := hoffered, genuine := genuine_append h.genuine trivial, ordered := trivial }
  | complete hs _ =>
    rw [hs] at hoffered
    exact { h with sound := hsound, offered := hoffered, ordered := trivial }
  | beat hworks =>
    refine { h with sound := hsound, genuine := genuine_append h.genuine trivial, ordered := ?_ }
    dsimp only
    cases hs : s.sender with
    | hashing =>
      rw [hs] at hordered
      intro p hp
      rcases List.mem_append.mp hp with hp | hp
      · exact hordered p hp
      · exact List.mem_singleton.mp hp
    | verifying _ _ => trivial
    | _ =>
      rw [hs] at hworks
      exact hworks.elim
  | skip _ _ => exact { h with sound := hsound }
  | fail => cases hfailed

/-- **A step of the receiver keeps what holds.** -/
theorem Fine.receiver (h : Fine P hash s) (hstep : ReceiverStep P hash s s') (hfailed : s'.receiverFailed = false) :
    Fine P hash s' := by
  have hsound := sound_receiver h.sound hstep
  have htaken := h.taken
  have hwanted := h.wanted
  have hgenuine := h.genuine
  have hordered := h.ordered
  -- What is read is taken from the front.
  have hpop : ∀ {p : Packet} {rest : List Packet}, s.there = p :: rest →
      p.Genuine P s.source ∧ (∀ p ∈ rest, p.Genuine P s.source) ∧ s.sender.Ordered rest := by
    intro p rest ht
    rw [ht] at hgenuine hordered
    exact ⟨hgenuine _ List.mem_cons_self, fun q hq => hgenuine q (List.mem_cons_of_mem _ hq), hordered.tail⟩
  cases hstep with
  | manifest hs ht _ _ =>
    obtain ⟨hm, hrest, hordered⟩ := hpop ht
    exact { h with
      sound := hsound
      taken := fun m hm' => Option.some.inj hm' ▸ hm
      genuine := hrest
      wanted := fun _ hm' => by cases hm'
      counted := trivial
      reading := fun _ _ _ _ hr => by cases hr
      ordered := hordered }
  | @open_ m existing staging missing hs _ hmissing =>
    rw [hs] at htaken
    obtain rfl := htaken _ rfl
    obtain ⟨t, missing', hrun, hsub, himproves, hright⟩ := @missingFrom_spec P s.source existing
      (List.range (Manifest.ofBytes P s.source).blocks.length) s.staging
    obtain ⟨rfl, rfl⟩ := Prod.mk.inj (Except.ok.inj (hrun.symm.trans hmissing))
    have hcount : (Manifest.ofBytes P s.source).blocks.length = (blocksOf s.source).length := by
      rw [Manifest.ofBytes, List.length_map]
    rw [hcount] at hsub hright
    exact { h with
      sound := hsound
      taken := htaken
      part := himproves.length h.part
      wanted := fun l hl => by
        obtain rfl := Option.some.inj hl
        exact ⟨List.pairwise_lt_range.sublist hsub, fun i hi => List.mem_range.mp (hsub.subset hi),
          fun j hj => hright j (List.mem_range.mpr hj)⟩
      counted := Nat.zero_le _
      reading := fun _ _ _ _ hr => by cases hr }
  | @block m missing acknowledged index len data rest hs hindex ht _ _ =>
    obtain ⟨hdata, hrest, hordered⟩ := hpop ht
    rw [hs] at htaken hwanted
    exact { h with
      sound := hsound
      taken := htaken
      genuine := hrest
      wanted := hwanted
      counted := (List.getElem?_eq_some_iff.mp hindex).1
      reading := fun _ _ _ _ hr index' hindex' => by
        obtain ⟨rfl, rfl, rfl, hputting⟩ := Receiving.receiving.inj hr
        obtain rfl := Putting.read.inj hputting
        obtain rfl := Option.some.inj (hindex.symm.trans hindex')
        exact hdata
      ordered := hordered }
  | @write m missing acknowledged index data staging hs hindex hwrite =>
    have hcounted := h.counted
    rw [hs] at htaken hwanted hcounted
    obtain rfl := htaken _ rfl
    obtain ⟨hbetter, -⟩ := improves_write hwrite
    exact { h with
      sound := hsound
      taken := htaken
      part := hbetter.length h.part
      wanted := fun l hl => by
        obtain ⟨hpairwise, hbound, hright⟩ := hwanted l hl
        exact ⟨hpairwise, hbound, fun j hj hnot => hbetter.blocks j (hright j hj hnot)⟩
      counted := hcounted
      reading := fun _ _ _ _ hr => by cases hr }
  | sync hs =>
    have hcounted := h.counted
    rw [hs] at htaken hwanted hcounted
    exact { h with
      sound := hsound, taken := htaken, wanted := hwanted, counted := hcounted
      reading := fun _ _ _ _ hr => by cases hr }
  | acknowledge hs hindex =>
    rw [hs] at htaken hwanted
    exact { h with
      sound := hsound, taken := htaken, wanted := hwanted, counted := (List.getElem?_eq_some_iff.mp hindex).1
      reading := fun _ _ _ _ hr => by cases hr }
  | commit hs ht =>
    obtain ⟨-, hrest, hordered⟩ := hpop ht
    rw [hs] at htaken hwanted
    exact { h with
      sound := hsound, taken := htaken, genuine := hrest, wanted := hwanted, counted := trivial, ordered := hordered
      reading := fun _ _ _ _ hr => by cases hr }
  | verify hs _ =>
    rw [hs] at htaken hwanted
    exact { h with
      sound := hsound, taken := htaken, wanted := hwanted, counted := trivial
      reading := fun _ _ _ _ hr => by cases hr }
  | displace hs => exact { h with sound := hsound }
  | publish hs _ =>
    rw [hs] at htaken hwanted
    exact { h with
      sound := hsound, taken := htaken, wanted := hwanted, counted := trivial
      reading := fun _ _ _ _ hr => by cases hr }
  | complete hs =>
    rw [hs] at htaken hwanted
    exact { h with
      sound := hsound, taken := htaken, wanted := hwanted, counted := trivial
      reading := fun _ _ _ _ hr => by cases hr }
  | beat _ => exact { h with sound := hsound }
  | skip _ ht =>
    obtain ⟨-, hrest, hordered⟩ := hpop ht
    exact { h with sound := hsound, genuine := hrest, ordered := hordered }
  | fail => cases hfailed

/-- **A step that nobody disturbs keeps what holds.** -/
theorem Fine.steady (h : Fine P hash s) (hstep : Steady P hash s s') : Fine P hash s' := by
  obtain ⟨hstep, hsource, hsender, hreceiver⟩ := hstep
  cases hstep with
  | sender hstep _ => exact h.sender hstep hsender
  | receiver hstep _ => exact h.receiver hstep hreceiver
  | source bytes heq =>
    subst heq
    obtain rfl : bytes = s.source := hsource
    exact h

/-! ### Every step counts -/

theorem beats_append (l l' : List Packet) : beats (l ++ l') = beats l + beats l' := List.count_append

theorem beats_ready (m : Message) : beats [.ready m] = 0 := rfl

theorem beats_busy : beats [.busy] = 1 := rfl

theorem beats_cons_ready (m : Message) (l : List Packet) : beats (.ready m :: l) = beats l := by
  rw [beats, List.count_cons_of_ne (by simp), beats]

theorem beats_cons_busy (l : List Packet) : beats (.busy :: l) = beats l + 1 := List.count_cons_self

/-- **A step of the sender leaves less to do**, or is a heartbeat. -/
theorem left_sender (h : Fine P hash s) (hstep : SenderStep P hash s s') (hfailed : s'.senderFailed = false) :
    s'.left < s.left ∨ Beat s s' ∧ s'.left = s.left + 1 := by
  have hoffered := h.offered
  have hcounted := h.sound.counted
  cases hstep with
  | offer hs _ _ =>
    refine .inl ?_
    simp only [left, hs, Sending.left, beats_append, beats_ready, Manifest.ofBytes, List.length_map]
    omega
  | @request m missing rest hs hb hlen _ =>
    refine .inl ?_
    simp only [left, hs, hb, Sending.left, beats_cons_ready, Bool.toNat_false]
    omega
  | @acquire m missing sent acknowledged permits hs hlt =>
    refine .inl ?_
    simp only [left, hs, Sending.left, Bool.toNat_false, Bool.toNat_true]
    omega
  | @block m missing sent acknowledged permits index len data hs hindex _ _ _ =>
    refine .inl ?_
    have hlt := (List.getElem?_eq_some_iff.mp hindex).1
    simp only [left, hs, Sending.left, beats_append, beats_ready, Bool.toNat_false, Bool.toNat_true]
    omega
  | @acknowledged m missing sent acknowledged permits index holding rest hs hb hindex =>
    refine .inl ?_
    have hlt := (List.getElem?_eq_some_iff.mp hindex).1
    simp only [left, hs, hb, Sending.left, beats_cons_ready]
    omega
  | join hs =>
    refine .inl ?_
    simp only [left, hs, Sending.left, Bool.toNat_false]
    omega
  | commit hs _ =>
    refine .inl ?_
    simp only [left, hs, Sending.left, beats_append, beats_ready]
    omega
  | complete hs hb =>
    refine .inl ?_
    simp only [left, hs, hb, Sending.left, beats_cons_ready]
    omega
  | beat _ =>
    refine .inr ⟨.inl rfl, ?_⟩
    simp only [left, beats_append, beats_busy]
    omega
  | skip _ hb =>
    refine .inl ?_
    simp only [left, hb, beats_cons_busy]
    omega
  | fail => cases hfailed

/-- **A step of the receiver leaves less to do**, or is a heartbeat, or nothing. -/
theorem left_receiver (h : Fine P hash s) (hstep : ReceiverStep P hash s s') (hfailed : s'.receiverFailed = false) :
    s'.left < s.left ∨ (Beat s s' ∧ s'.left = s.left + 1) ∨ s' = s := by
  have htaken := h.taken
  cases hstep with
  | @manifest m rest hs ht _ _ =>
    refine .inl ?_
    obtain rfl : m = Manifest.ofBytes P s.source := h.genuine (.ready (.manifest m)) (by rw [ht]; exact List.mem_cons_self)
    simp only [left, hs, ht, Receiving.left, beats_cons_ready, occupied, Manifest.ofBytes, List.length_map]
    omega
  | @open_ m existing staging missing hs _ hmissing =>
    refine .inl ?_
    rw [hs] at htaken
    obtain rfl := htaken _ rfl
    obtain ⟨t, missing', hrun, hsub, -, -⟩ := @missingFrom_spec P s.source existing
      (List.range (Manifest.ofBytes P s.source).blocks.length) s.staging
    obtain ⟨rfl, rfl⟩ := Prod.mk.inj (Except.ok.inj (hrun.symm.trans hmissing))
    have hlen := hsub.length_le
    rw [List.length_range] at hlen
    simp only [left, hs, Receiving.left, beats_append, beats_ready, occupied]
    omega
  | @block m missing acknowledged index len data rest hs hindex ht _ _ =>
    refine .inl ?_
    have hlt := (List.getElem?_eq_some_iff.mp hindex).1
    simp only [left, hs, ht, Receiving.left, beats_cons_ready, occupied]
    omega
  | write hs _ _ =>
    refine .inl ?_
    simp only [left, hs, Receiving.left, occupied]
    omega
  | sync hs =>
    refine .inl ?_
    simp only [left, hs, Receiving.left, occupied]
    omega
  | acknowledge hs _ =>
    refine .inl ?_
    simp only [left, hs, Receiving.left, beats_append, beats_ready, occupied]
    omega
  | commit hs ht =>
    refine .inl ?_
    simp only [left, hs, ht, Receiving.left, beats_cons_ready, occupied]
    omega
  | verify hs _ =>
    refine .inl ?_
    simp only [left, hs, Receiving.left, occupied]
    omega
  | displace hs =>
    cases hd : s.destination with
    | none => exact .inr (.inr (by rw [← hd]))
    | some bytes =>
      refine .inl ?_
      simp only [left, hs, hd, occupied, Option.isSome_none, Option.isSome_some, Bool.toNat_false, Bool.toNat_true]
      omega
  | publish hs _ =>
    refine .inl ?_
    simp only [left, hs, Receiving.left, occupied]
    omega
  | complete hs =>
    refine .inl ?_
    simp only [left, hs, Receiving.left, beats_append, beats_ready, occupied]
    omega
  | beat _ =>
    refine .inr (.inl ⟨.inr rfl, ?_⟩)
    simp only [left, beats_append, beats_busy]
    omega
  | skip _ ht =>
    refine .inl ?_
    simp only [left, ht, beats_cons_busy]
    omega
  | fail => cases hfailed

/-- A step leaves less to do, or is a heartbeat, or nothing. -/
theorem left_steady (h : Fine P hash s) (hstep : Steady P hash s s') :
    s'.left < s.left ∨ (Beat s s' ∧ s'.left = s.left + 1) ∨ s' = s := by
  obtain ⟨hstep, hsource, hsender, hreceiver⟩ := hstep
  cases hstep with
  | sender hstep _ => exact (left_sender h hstep hsender).imp_right .inl
  | receiver hstep _ => exact left_receiver h hstep hreceiver
  | source bytes heq =>
    subst heq
    obtain rfl : bytes = s.source := hsource
    exact .inr (.inr rfl)

/-! ### There is a step -/

/-- An end can take a step that is no heartbeat. -/
def Goes (P : Platform) (hash : String) (s : Exchange) : Prop := ∃ s', Steady P hash s s' ∧ ¬ Beat s s' ∧ s' ≠ s

/-- A step of the sender moves the sender, or takes a packet. -/
theorem goes_sender (hs : s.senderFailed = false) (hr : s.receiverFailed = false) (hstep : SenderStep P hash s s')
    (hsource : s'.source = s.source) (hfailed : s'.senderFailed = s.senderFailed ∧ s'.receiverFailed = s.receiverFailed)
    (hmove : s'.sender ≠ s.sender ∨ s'.back.length < s.back.length) : Goes P hash s := by
  refine ⟨s', ⟨.sender hstep hs, hsource, hfailed.1.trans hs, hfailed.2.trans hr⟩, ?_, ?_⟩
  · rintro (rfl | rfl)
    · exact hmove.elim (fun h => h rfl) (lt_irrefl _)
    · refine hmove.elim (fun h => h rfl) fun h => ?_
      simp only [List.length_append, List.length_singleton] at h
      omega
  · rintro rfl
    exact hmove.elim (fun h => h rfl) (lt_irrefl _)

/-- A step of the receiver moves the receiver, takes a packet, or clears the destination. -/
theorem goes_receiver (hs : s.senderFailed = false) (hr : s.receiverFailed = false) (hstep : ReceiverStep P hash s s')
    (hsource : s'.source = s.source) (hfailed : s'.senderFailed = s.senderFailed ∧ s'.receiverFailed = s.receiverFailed)
    (hmove : s'.receiver ≠ s.receiver ∨ s'.there.length < s.there.length ∨ s'.destination ≠ s.destination) :
    Goes P hash s := by
  refine ⟨s', ⟨.receiver hstep hr, hsource, hfailed.1.trans hs, hfailed.2.trans hr⟩, ?_, ?_⟩
  · rintro (rfl | rfl)
    · rcases hmove with h | h | h
      · exact h rfl
      · simp only [List.length_append, List.length_singleton] at h
        omega
      · exact h rfl
    · rcases hmove with h | h | h
      · exact h rfl
      · exact lt_irrefl _ h
      · exact h rfl
  · rintro rfl
    rcases hmove with h | h | h
    · exact h rfl
    · exact lt_irrefl _ h
    · exact h rfl

/-- Some packets hold a message, or begin with a heartbeat. -/
theorem packets_cases {m : Message} {t : List Message} (h : messages l = m :: t) :
    (∃ rest, l = .busy :: rest) ∨ ∃ m' rest, l = .ready m' :: rest ∧ erase m' = m ∧ messages rest = t := by
  cases l with
  | nil => cases h
  | cons p rest =>
    cases p with
    | busy => exact .inl ⟨rest, rfl⟩
    | ready m' =>
      obtain ⟨hm, ht⟩ := List.cons.inj h
      exact .inr ⟨m', rest, rfl, hm, ht⟩

/-- A message other than a block is what is left of it. -/
theorem eq_of_erase {m m' : Message} (h : erase m' = m) (hblock : ∀ index, m ≠ .block index []) : m' = m := by
  cases m' with
  | block index data => exact absurd h.symm (hblock index)
  | _ => exact h

/-- A heartbeat is followed by the manifest, in the messages. -/
theorem Announced.mem (h : Announced (.busy :: l)) : ∃ m, Message.manifest m ∈ messages l := by
  obtain ⟨m, hm⟩ := h.1
  refine ⟨m, ?_⟩
  clear h
  induction l with
  | nil => cases hm
  | cons p l ih =>
    cases p with
    | busy => exact ih ((List.mem_cons.mp hm).resolve_left (by simp))
    | ready m' =>
      rcases List.mem_cons.mp hm with heq | hm
      · cases heq
        exact List.mem_cons_self
      · exact List.mem_cons_of_mem _ (ih hm)

/-- A block of the object, at the sender. -/
theorem exists_block {source : Bytes} {k : ℕ} (hk : k < (blocksOf source).length) : ∃ data, (blocksOf source)[k]? = some data ∧
    blockLen (Manifest.ofBytes P source) k = .ok data.length ∧ readExact source k data.length = some data ∧
    (Manifest.ofBytes P source).blocks[k]? = some (P.blake3 data) := by
  have hcount : k < (source.length + blockSize - 1) / blockSize := by rwa [← length_blocksOf]
  have hblock := getElem?_blocksOf hcount
  obtain ⟨-, hend⟩ := block_bounds hk
  have hbound : k * blockSize + min (source.length - k * blockSize) blockSize ≤ source.length := hend.trans_le (min_le_right _ _)
  refine ⟨_, hblock, ?_, ?_, ?_⟩
  · rw [blockLen_ofBytes P hk, length_block]
  · rw [length_block, readExact, if_pos hbound, take_block]
  · rw [Manifest.ofBytes, List.getElem?_map, hblock]
    rfl

/-- Who has sent something has asked for blocks first. -/
theorem Receiving.wanted_of_sent {r : Receiving} {x : Message} {t : List Message} (h : r.sent = x :: t) :
    ∃ missing, x = .wanted missing ∧ r.wanted = some missing := by
  cases r with
  | waiting | opening _ => cases h
  | receiving m missing acknowledged putting => exact ⟨missing, (List.cons.inj h).1.symm, rfl⟩
  | finishing m missing | verified m missing | published m missing | done m missing =>
    exact ⟨missing, (List.cons.inj h).1.symm, rfl⟩

theorem length_receipts (l : List ℕ) : (receipts l).length = l.length := List.length_map _

/-- The next message behind some acknowledgements is the next acknowledgement. -/
theorem Receiving.receipt_of_sent {r : Receiving} {missing : List ℕ} {k : ℕ} {x : Message} {t : List Message}
    (h : r.sent = .wanted missing :: (receipts (missing.take k) ++ x :: t)) (hk : k < missing.length) :
    ∃ index, missing[k]? = some index ∧ x = .received index := by
  have hx : (receipts (missing.take k) ++ x :: t)[k]? = some x := by
    have hlen : (receipts (missing.take k)).length = k := by rw [length_receipts, List.length_take, Nat.min_eq_left hk.le]
    rw [List.getElem?_append_right hlen.le, hlen, Nat.sub_self]
    rfl
  have hreceipt : ∀ {l : List ℕ}, (receipts l)[k]? = some x → l <+: missing →
      ∃ index, missing[k]? = some index ∧ x = .received index := by
    intro l hl hprefix
    rw [receipts, List.getElem?_map] at hl
    obtain ⟨index, hindex, rfl⟩ := Option.map_eq_some_iff.mp hl
    obtain ⟨rest, rfl⟩ := hprefix
    exact ⟨index, (List.getElem?_append_left (List.getElem?_eq_some_iff.mp hindex).1).trans hindex, rfl⟩
  cases r with
  | waiting | opening _ => cases h
  | receiving m missing' acknowledged putting =>
    obtain ⟨hwanted, h⟩ := List.cons.inj h
    obtain rfl : missing' = missing := by injection hwanted
    rw [← h] at hx
    exact hreceipt hx (List.take_prefix _ _)
  | finishing m missing' | verified m missing' | published m missing' =>
    obtain ⟨hwanted, h⟩ := List.cons.inj h
    obtain rfl : missing' = missing := by injection hwanted
    rw [← h] at hx
    exact hreceipt hx List.prefix_rfl
  | done m missing' =>
    obtain ⟨hwanted, h⟩ := List.cons.inj h
    obtain rfl : missing' = missing := by injection hwanted
    rw [← h, List.getElem?_append_left (by rw [length_receipts]; exact hk)] at hx
    exact hreceipt hx List.prefix_rfl

/-- Who has not sent all acknowledgements is receiving. -/
theorem Receiving.receiving_of_sent {r : Receiving} {missing : List ℕ} {k : ℕ}
    (h : r.sent = .wanted missing :: receipts (missing.take k)) (hcounted : r.Counted) (hk : k < missing.length) :
    ∃ m putting, r = .receiving m missing k putting := by
  have hlen : ∀ {missing' : List ℕ} {l : List Message}, (.wanted missing' :: l) = r.sent →
      missing' = missing ∧ l.length = k := by
    intro missing' l hl
    obtain ⟨hwanted, hreceipts⟩ := List.cons.inj (hl.trans h)
    refine ⟨by injection hwanted, ?_⟩
    rw [hreceipts, length_receipts, List.length_take, Nat.min_eq_left hk.le]
  cases r with
  | waiting | opening _ => cases h
  | receiving m missing' acknowledged putting =>
    obtain ⟨rfl, hl⟩ := hlen rfl
    have hle : acknowledged ≤ missing'.length := (Nat.le_add_right _ _).trans hcounted
    rw [length_receipts, List.length_take, Nat.min_eq_left hle] at hl
    exact ⟨m, putting, by rw [hl]⟩
  | finishing m missing' | verified m missing' | published m missing' =>
    obtain ⟨rfl, hl⟩ := hlen rfl
    rw [length_receipts] at hl
    omega
  | done m missing' =>
    obtain ⟨rfl, hl⟩ := hlen rfl
    rw [List.length_append, length_receipts] at hl
    omega

/-- The blocks behind the first ones begin with the next. -/
theorem blocks_take {l : List ℕ} {k n : ℕ} (hk : k < n) (hn : n ≤ l.length) : ∃ index rest, l[k]? = some index ∧
    blocks (l.take n) = blocks (l.take k) ++ .block index [] :: blocks rest := by
  have hlt : k < l.length := by omega
  refine ⟨l[k], (l.take n).drop (k + 1), List.getElem?_eq_getElem hlt, ?_⟩
  have hsplit : l.take n = l.take k ++ l[k] :: (l.take n).drop (k + 1) := by
    have htake : (l.take n).take k = l.take k := by rw [List.take_take, Nat.min_eq_left hk.le]
    have hlen : k < (l.take n).length := by
      rw [List.length_take]
      omega
    rw [← htake]
    conv_lhs => rw [← List.take_append_drop k (l.take n), List.drop_eq_getElem_cons hlen]
    rw [List.getElem_take]
  conv_lhs => rw [hsplit]
  rw [blocks, List.map_append, List.map_cons]
  rfl

/-- No other bytes have the hash of an object, or of one of its blocks. -/
def Unforged (P : Platform) (source : Bytes) : Prop :=
  ∀ b ∈ source :: blocksOf source, ∀ b', P.blake3 b' = P.blake3 b → b' = b

theorem block_of_erase {m : Message} {index : ℕ} (h : erase m = .block index []) : ∃ data, m = .block index data := by
  cases m with
  | block i data =>
    obtain rfl : i = index := by injection h
    exact ⟨data, rfl⟩
  | _ => cases h

section Ends

variable (h : Fine P hash s) (hsender : s.senderFailed = false) (hreceiver : s.receiverFailed = false)
include h hsender hreceiver

omit h in
/-- The sender takes a heartbeat. -/
theorem goes_skip {rest : List Packet} (hreads : s.sender.Reads) (hback : s.back = .busy :: rest) : Goes P hash s := by
  refine goes_sender hsender hreceiver (.skip hreads hback) rfl ⟨rfl, rfl⟩ (.inr ?_)
  rw [hback]
  exact Nat.lt_succ_self _

omit h in
/-- The receiver takes a heartbeat. -/
theorem goes_skip_there {rest : List Packet} (hreads : s.receiver.Reads) (hthere : s.there = .busy :: rest) :
    Goes P hash s := by
  refine goes_receiver hsender hreceiver (.skip hreads hthere) rfl ⟨rfl, rfl⟩ (.inr (.inl ?_))
  rw [hthere]
  exact Nat.lt_succ_self _

/-- The sender has sent the manifest: the request is read, or the receiver goes on. -/
theorem goes_offering (hhash : ∀ bytes, isHash (P.blake3 bytes) = true) {m : Manifest} (hs : s.sender = .offering m) :
    Goes P hash s := by
  have hthere := h.sound.there
  have hback := h.sound.back
  have hm := h.offered
  rw [hs] at hthere hback hm
  obtain rfl := hm _ rfl
  cases hmessages : messages s.back with
  | nil =>
    rw [hmessages] at hback
    cases hr : s.receiver with
    | waiting =>
      rw [hr] at hthere
      rcases packets_cases hthere.symm with ⟨rest, hbusy⟩ | ⟨m', rest, hready, herase, -⟩
      · exact goes_skip_there hsender hreceiver (by rw [hr]; trivial) hbusy
      · obtain rfl := eq_of_erase herase (by simp)
        exact goes_receiver hsender hreceiver (.manifest hr hready (Place.validate_ofBytes hhash h.size) h.named) rfl ⟨rfl, rfl⟩
          (.inl (by rw [hr]; simp))
    | opening m' =>
      have htaken := h.taken
      rw [hr] at htaken
      obtain rfl := htaken _ rfl
      obtain ⟨t, missing, hrun, -⟩ := @missingFrom_spec P s.source none
        (List.range (Manifest.ofBytes P s.source).blocks.length) s.staging
      exact goes_receiver hsender hreceiver (.open_ hr h.part hrun) rfl ⟨rfl, rfl⟩ (.inl (by rw [hr]; simp))
    | _ =>
      rw [hr] at hback
      cases hback
  | cons x t =>
    rw [hmessages] at hback
    obtain ⟨missing, rfl, hwanted⟩ := Receiving.wanted_of_sent hback
    obtain ⟨hpairwise, hbound, -⟩ := h.wanted missing hwanted
    rcases packets_cases hmessages with ⟨rest, hbusy⟩ | ⟨m', rest, hready, herase, -⟩
    · exact goes_skip hsender hreceiver (by rw [hs]; trivial) hbusy
    · obtain rfl := eq_of_erase herase (by simp)
      have hlen : missing.length ≤ (Manifest.ofBytes P s.source).blocks.length := by
        have hnodup : missing.Nodup := hpairwise.imp fun hlt => Nat.ne_of_lt hlt
        have hsub : missing ⊆ List.range (blocksOf s.source).length := fun i hi => List.mem_range.mpr (hbound i hi)
        rw [Manifest.ofBytes, List.length_map]
        simpa using (hnodup.subperm hsub).length_le
      exact goes_sender hsender hreceiver (.request hs hready hlen hpairwise) rfl ⟨rfl, rfl⟩ (.inl (by rw [hs]; simp))

/-- The receiver goes on with a block that is not acknowledged. -/
theorem goes_receiving {m : Manifest} {missing : List ℕ} {k sent permits : ℕ}
    (hs : s.sender = .sending m missing sent k permits false) (hlt : k < sent) (hle : sent ≤ missing.length)
    {m' : Manifest} {putting : Putting} (hr : s.receiver = .receiving m' missing k putting) : Goes P hash s := by
  have hthere := h.sound.there
  have htaken := h.taken
  have hwanted := h.wanted
  have hordered := h.ordered
  rw [hs] at hthere hordered
  rw [hr] at hthere htaken hwanted
  obtain rfl := htaken _ rfl
  obtain ⟨-, hbound, -⟩ := hwanted _ rfl
  obtain ⟨index, rest, hindex, hblocks⟩ := blocks_take hlt hle
  obtain ⟨data, hdata, hlen, -, hblock⟩ := @exists_block P s.source index (hbound index (List.mem_of_getElem? hindex))
  cases putting with
  | idle =>
    have hmessages : messages s.there = .block index [] :: blocks rest := by
      have htail := (List.cons.inj hthere).2
      rw [hblocks] at htail
      exact (List.append_cancel_left htail).symm
    rcases packets_cases hmessages with ⟨rest', hbusy⟩ | ⟨m', rest', hready, herase, -⟩
    · -- the heartbeats of the sender came before the manifest
      rw [hbusy] at hordered hmessages
      obtain ⟨m'', hmem⟩ := Announced.mem hordered
      rw [show messages rest' = _ from hmessages] at hmem
      simp [blocks] at hmem
    · obtain ⟨data', rfl⟩ := block_of_erase herase
      have hgenuine := h.genuine (.ready (.block index data')) (by rw [hready]; exact List.mem_cons_self)
      obtain rfl : data = data' := Option.some.inj (hdata.symm.trans hgenuine)
      exact goes_receiver hsender hreceiver (.block hr hindex hready hlen rfl) rfl ⟨rfl, rfl⟩ (.inl (by rw [hr]; simp))
  | read data' =>
    obtain rfl : data = data' := Option.some.inj (hdata.symm.trans (h.reading _ _ _ _ hr index hindex))
    exact goes_receiver hsender hreceiver (.write hr hindex (write_ok hlen hblock)) rfl ⟨rfl, rfl⟩ (.inl (by rw [hr]; simp))
  | written => exact goes_receiver hsender hreceiver (.sync hr) rfl ⟨rfl, rfl⟩ (.inl (by rw [hr]; simp))
  | synced => exact goes_receiver hsender hreceiver (.acknowledge hr hindex) rfl ⟨rfl, rfl⟩ (.inl (by rw [hr]; simp))

/-- The loops of the sender run: one of them goes on, or the receiver does. -/
theorem goes_sending {m : Manifest} {missing : List ℕ} {sent acknowledged permits : ℕ} {holding : Bool}
    (hs : s.sender = .sending m missing sent acknowledged permits holding) : Goes P hash s := by
  have hback := h.sound.back
  have hcounted := h.sound.counted
  have hm := h.offered
  rw [hs] at hback hcounted hm
  obtain rfl := hm _ rfl
  obtain ⟨hpermits, hsent, hacknowledged⟩ := hcounted
  obtain ⟨missing', hwanted, hasked⟩ := Receiving.wanted_of_sent hback
  obtain rfl : missing = missing' := by injection hwanted
  obtain ⟨-, hbound, -⟩ := h.wanted missing hasked
  cases holding with
  | true =>
    rw [Bool.toNat_true] at hsent
    have hindex := List.getElem?_eq_getElem (Nat.lt_of_succ_le hsent)
    obtain ⟨data, -, hlen, hread, hblock⟩ := @exists_block P s.source _ (hbound _ (List.mem_of_getElem? hindex))
    exact goes_sender hsender hreceiver (.block hs hindex hlen hread hblock) rfl ⟨rfl, rfl⟩ (.inl (by rw [hs]; simp))
  | false =>
    rw [Bool.toNat_false, Nat.add_zero] at hpermits hsent
    by_cases hwaits : acknowledged < sent
    · cases hmessages : messages s.back with
      | nil =>
        rw [hmessages, List.append_nil] at hback
        obtain ⟨m', putting, hr⟩ := Receiving.receiving_of_sent hback h.counted (by omega)
        exact goes_receiving h hsender hreceiver hs hwaits hsent hr
      | cons x t =>
        rw [hmessages] at hback
        obtain ⟨index, hindex, rfl⟩ := Receiving.receipt_of_sent hback (by omega)
        rcases packets_cases hmessages with ⟨rest, hbusy⟩ | ⟨m', rest, hready, herase, -⟩
        · exact goes_skip hsender hreceiver (by rw [hs]; trivial) hbusy
        · obtain rfl := eq_of_erase herase (by simp)
          exact goes_sender hsender hreceiver (.acknowledged hs hready hindex) rfl ⟨rfl, rfl⟩ (.inl (by rw [hs]; simp))
    · -- everything that was sent is acknowledged
      by_cases hmore : sent < missing.length
      · obtain ⟨permits, rfl⟩ : ∃ n, permits = n + 1 := ⟨permits - 1, by rw [window] at hpermits; omega⟩
        exact goes_sender hsender hreceiver (.acquire hs hmore) rfl ⟨rfl, rfl⟩ (.inl (by rw [hs]; simp))
      · obtain rfl : sent = missing.length := by omega
        obtain rfl : acknowledged = missing.length := by omega
        exact goes_sender hsender hreceiver (.join hs) rfl ⟨rfl, rfl⟩ (.inl (by rw [hs]; simp))

/-- The sender has sent the commit: the receiver publishes the object, and answers. -/
theorem goes_committed (hown : Unforged P s.source) {m : Manifest} {missing : List ℕ}
    (hs : s.sender = .committed m missing) : Goes P hash s := by
  have hthere := h.sound.there
  have hback := h.sound.back
  rw [hs] at hthere hback
  obtain ⟨missing', hwanted, hasked⟩ := Receiving.wanted_of_sent hback
  obtain rfl : missing = missing' := by injection hwanted
  obtain ⟨-, -, hright⟩ := h.wanted missing hasked
  obtain ⟨hmanifest, hacknowledged⟩ := @Sound.committed _ _ _ h.sound m missing (by rw [hs]; rfl)
  obtain rfl := h.taken m hmanifest
  cases hr : s.receiver with
  | waiting | opening _ =>
    rw [hr] at hasked
    cases hasked
  | receiving m' missing' k putting =>
    have hcounted := h.counted
    rw [hr] at hthere hcounted hasked hacknowledged
    obtain rfl := Option.some.inj hasked
    have hk : missing'.length ≤ k := by
      have hlen := congrArg List.length hacknowledged
      rw [Receiving.acknowledged, List.length_take] at hlen
      omega
    cases putting with
    | idle =>
      obtain rfl : k = missing'.length := le_antisymm hcounted hk
      have hmessages : messages s.there = [.text "commit"] := by
        have htail := (List.cons.inj hthere).2
        rw [Putting.taken, Nat.add_zero, List.take_length] at htail
        exact (List.append_cancel_left htail).symm
      rcases packets_cases hmessages with ⟨rest, hbusy⟩ | ⟨m'', rest, hready, herase, -⟩
      · exact goes_skip_there hsender hreceiver (by rw [hr]; exact rfl) hbusy
      · obtain rfl := eq_of_erase herase (by simp)
        exact goes_receiver hsender hreceiver (.commit hr hready) rfl ⟨rfl, rfl⟩ (.inl (by rw [hr]; simp))
    | _ =>
      change k + 1 ≤ missing'.length at hcounted
      omega
  | finishing m' missing' =>
    have htaken := h.taken
    rw [hr] at htaken
    obtain rfl := htaken _ rfl
    have hpart : s.staging.part = s.source := by
      refine eq_of_blockOk_of (fun b hb => hown b (List.mem_cons_of_mem _ hb)) h.part fun k hk => ?_
      by_cases hmem : k ∈ missing
      · exact (h.sound.stored _ hmanifest k (hacknowledged ▸ hmem)).1
      · exact hright k hk hmem
    exact goes_receiver hsender hreceiver (.verify hr (by rw [hpart])) rfl ⟨rfl, rfl⟩ (.inl (by rw [hr]; simp))
  | verified m' missing' =>
    cases hd : s.destination with
    | none => exact goes_receiver hsender hreceiver (.publish hr hd) rfl ⟨rfl, rfl⟩ (.inl (by rw [hr]; simp))
    | some bytes => exact goes_receiver hsender hreceiver (.displace hr) rfl ⟨rfl, rfl⟩ (.inr (.inr (by rw [hd]; simp)))
  | published m' missing' => exact goes_receiver hsender hreceiver (.complete hr) rfl ⟨rfl, rfl⟩ (.inl (by rw [hr]; simp))
  | done m' missing' =>
    rw [hr] at hback hasked
    obtain rfl := Option.some.inj hasked
    have hmessages : messages s.back = [.text "complete"] := (List.append_cancel_left (List.cons.inj hback).2).symm
    rcases packets_cases hmessages with ⟨rest, hbusy⟩ | ⟨m'', rest, hready, herase, -⟩
    · exact goes_skip hsender hreceiver (by rw [hs]; trivial) hbusy
    · obtain rfl := eq_of_erase herase (by simp)
      exact goes_sender hsender hreceiver (.complete hs hready) rfl ⟨rfl, rfl⟩ (.inl (by rw [hs]; simp))

/-- **An end goes on**, or both have returned. -/
theorem goes (hown : Unforged P s.source) (hhash : ∀ bytes, isHash (P.blake3 bytes) = true) :
    Goes P hash s ∨ ∃ m missing, s.sender = .done m missing ∧ s.receiver = .done m missing := by
  cases hs : s.sender with
  | hashing => exact .inl (goes_sender hsender hreceiver (.offer hs h.size h.named) rfl ⟨rfl, rfl⟩ (.inl (by rw [hs]; simp)))
  | offering m => exact .inl (goes_offering h hsender hreceiver hhash hs)
  | sending m missing sent acknowledged permits holding => exact .inl (goes_sending h hsender hreceiver hs)
  | verifying m missing =>
    have hm := h.offered
    rw [hs] at hm
    obtain rfl := hm _ rfl
    exact .inl (goes_sender hsender hreceiver (.commit hs rfl) rfl ⟨rfl, rfl⟩ (.inl (by rw [hs]; simp)))
  | committed m missing => exact .inl (goes_committed h hsender hreceiver hown hs)
  | done m missing => exact .inr ⟨m, missing, rfl, h.sound.done hs⟩

end Ends

/-! ### The end -/

/-- How a transfer may begin: an object of the hash that is asked for, and a staging file that is not longer. -/
structure Begins (P : Platform) (hash : String) (s : Exchange) : Prop where
  /-- Nothing has happened. -/
  initial : Initial s
  /-- No end has failed. -/
  sender : s.senderFailed = false
  /-- Neither has the other. -/
  receiver : s.receiverFailed = false
  /-- The object is small enough. -/
  size : s.source.length ≤ maxSize
  /-- It is the one that is asked for. -/
  named : P.blake3 s.source = hash
  /-- The staging file is not longer. -/
  part : s.staging.part.length ≤ s.source.length

theorem Begins.fine (h : Begins P hash s) : Fine P hash s where
  sound := sound_initial h.initial
  size := h.size
  named := h.named
  offered m hm := by
    rw [h.initial.sender] at hm
    cases hm
  taken m hm := by
    rw [h.initial.receiver] at hm
    cases hm
  genuine p hp := by
    rw [h.initial.there] at hp
    cases hp
  part := h.part
  wanted missing hm := by
    rw [h.initial.receiver] at hm
    cases hm
  counted := by
    rw [h.initial.receiver]
    trivial
  reading m missing acknowledged data hr := by
    rw [h.initial.receiver] at hr
    cases hr
  ordered := by
    rw [h.initial.sender, h.initial.there]
    exact fun p hp => by cases hp

theorem Begins.left_le (h : Begins P hash s) : s.left ≤ 7 * (blocksOf s.source).length + 12 := by
  have hoccupied : occupied .waiting s.destination ≤ 1 := Bool.toNat_le _
  rw [left, h.initial.sender, h.initial.receiver, h.initial.there, h.initial.back]
  simp only [Sending.left, Receiving.left, beats, List.count_nil]
  omega

/-- What holds at first holds all along, and what was done is no longer left to do. -/
theorem Transfer.fine (hbegins : Begins P hash s₀) {n beats : ℕ}
    (h : Transfer P hash s₀ n beats s) : Fine P hash s ∧ (s.senderFailed = false ∧ s.receiverFailed = false) ∧
      s.source = s₀.source ∧ n + s.left ≤ s₀.left + beats := by
  induction h with
  | refl => exact ⟨hbegins.fine, ⟨hbegins.sender, hbegins.receiver⟩, rfl, by omega⟩
  | step _ hsteady hbeat hne ih =>
    obtain ⟨hfine, -, hsource, hle⟩ := ih
    refine ⟨hfine.steady hsteady, ⟨hsteady.sender, hsteady.receiver⟩, hsteady.source.trans hsource, ?_⟩
    rcases left_steady hfine hsteady with hlt | ⟨hbeat', -⟩ | heq
    · omega
    · exact absurd hbeat' hbeat
    · exact absurd heq hne
  | beat _ hsteady hbeat ih =>
    obtain ⟨hfine, -, hsource, hle⟩ := ih
    refine ⟨hfine.steady hsteady, ⟨hsteady.sender, hsteady.receiver⟩, hsteady.source.trans hsource, ?_⟩
    rcases left_steady hfine hsteady with hlt | ⟨-, heq⟩ | rfl
    · omega
    · omega
    · omega

/-- **The transfer comes to its end.** Whatever is in the staging file, in the destination and in the file from which blocks are
reused, and in whatever order the ends take their steps: a transfer that nobody disturbs takes at most seven steps for each
block, and twelve, and one for each heartbeat; as long as an end has not returned, one of them can go on; and when both have,
the object is at the destination. That no other bytes have its hash, or that of one of its blocks, is what a hash is for. -/
theorem transfer_progress (P : Platform) (hhash : ∀ bytes, isHash (P.blake3 bytes) = true) (hash : String) (s₀ s : Exchange)
    (hbegins : Begins P hash s₀) (hown : Unforged P s₀.source) (n beats : ℕ) (h : Transfer P hash s₀ n beats s) :
    n ≤ 7 * (blocksOf s₀.source).length + 12 + beats ∧
      ((∃ s', Transfer P hash s₀ (n + 1) beats s') ∨
        (∃ m missing, s.sender = .done m missing ∧ s.receiver = .done m missing) ∧ s.destination = some s₀.source) := by
  obtain ⟨hfine, ⟨hsender, hreceiver⟩, hsource, hle⟩ := h.fine hbegins
  have hleft := hbegins.left_le
  rw [← hsource] at hown
  refine ⟨by omega, ?_⟩
  rcases goes hfine hsender hreceiver hown hhash with ⟨s', hsteady, hbeat, hne⟩ | ⟨m, missing, hs, hr⟩
  · exact .inl ⟨s', h.step hsteady hbeat hne⟩
  · refine .inr ⟨⟨m, missing, hs, hr⟩, ?_⟩
    -- The receiver has published a file with the manifest of the object.
    have hheld := hfine.sound.held
    rw [Held, hr] at hheld
    obtain ⟨bytes, hbytes, hm⟩ := hheld
    have htaken := hfine.taken m (by rw [hr]; rfl)
    have heq : P.blake3 bytes = P.blake3 s.source := congrArg Manifest.hash (hm.trans htaken)
    rw [hbytes, hown _ List.mem_cons_self _ heq, hsource]

/-! ### A byte -/

/-- A platform on which one byte has a hash of its own. -/
def oneByte : Platform := { Platform.padded with blake3 := fun bytes => Platform.padded.blake3 (if bytes = [7] then [1] else []) }

theorem unforged_oneByte : Unforged oneByte [7] := by
  have hblocks : blocksOf [7] = [[7]] := by decide +kernel
  have hne : Platform.padded.blake3 [] ≠ Platform.padded.blake3 [1] := by decide +kernel
  rw [Unforged, hblocks]
  intro b hb b' heq
  obtain rfl : b = [7] := by simpa using hb
  by_contra hne'
  simp only [oneByte, if_neg hne', if_pos] at heq
  exact hne heq

/-- A byte that is to be sent, and another one at the destination. -/
def byteWaiting : Exchange := ⟨[7], .hashing, false, .waiting, false, ⟨[], []⟩, some [8], [], []⟩

theorem begins_byteWaiting : Begins oneByte (oneByte.blake3 [7]) byteWaiting :=
  ⟨⟨rfl, rfl, rfl, rfl⟩, rfl, rfl, Nat.one_le_two_pow, rfl, Nat.zero_le _⟩

/-- Its manifest can be sent. -/
theorem transfer_progress_byte : byteWaiting.destination = some [8] ∧
    ∃ s', Transfer oneByte (oneByte.blake3 [7]) byteWaiting 1 0 s' := by
  refine ⟨rfl, ?_⟩
  rcases (transfer_progress oneByte (fun _ => Platform.padded_isHash _) _ _ _ begins_byteWaiting unforged_oneByte 0 0 .refl).2 with
    h | ⟨⟨m, missing, hs, -⟩, -⟩
  · exact h
  · cases hs

end Exchange

end Everywhere
