import Everywhere.Share.Program
import Everywhere.Storage.Receiver

/-!
# The transfer of an object

`send_object` and `receive_object` at the two ends of a connection. The sender has two loops: one takes a permit of a
window of 16, reads a block, compares it with its manifest, and writes it; the other reads acknowledgements and gives the
permits back. The receiver stages each block, synchronizes it, and acknowledges it. While an end works, it writes
heartbeats, which the other end skips wherever it reads a packet.

`Step` is a step of one of the two ends, in any order. An end may fail at any time, and then takes no more steps. Others
may change the source while it is read. What is in the staging file at first may be anything.

* `object_transfer` — **what may be relied on**: at most 16 blocks are not acknowledged; the commit follows the
  acknowledgements of all wanted blocks, in their order, each after it is on the disk; who ends the transfer has published
  the object.
-/

namespace Everywhere

open Library

/-! ### Blocks -/

/-- Read a block to its end. -/
def readExact (bytes : Bytes) (index len : ℕ) : Option Bytes :=
  if index * blockSize + len ≤ bytes.length then some ((bytes.drop (index * blockSize)).take len) else none

/-- Write at an offset. What is not there before it is filled with zeros. -/
def writeAt (bytes : Bytes) (offset : ℕ) (data : Bytes) : Bytes :=
  (bytes ++ List.replicate (offset - bytes.length) 0).take offset ++ (data ++ bytes.drop (offset + data.length))

variable {P : Platform} {m : Manifest} {bytes data b : Bytes} {i j len : ℕ}

theorem length_prefix_writeAt (offset : ℕ) :
    ((bytes ++ List.replicate (offset - bytes.length) 0).take offset).length = offset := by
  rw [List.length_take, List.length_append, List.length_replicate]
  omega

theorem length_writeAt (offset : ℕ) : (writeAt bytes offset data).length =
    max bytes.length (offset + data.length) := by
  rw [writeAt, List.length_append, length_prefix_writeAt, List.length_append, List.length_drop]
  omega

/-- What has been written is read. -/
theorem readExact_writeAt_self : readExact (writeAt bytes (i * blockSize) data) i data.length = some data := by
  rw [readExact, if_pos (by rw [length_writeAt]; omega), writeAt, List.drop_left' (length_prefix_writeAt _),
    List.take_left' rfl]

/-- Another block is read as before. -/
theorem readExact_writeAt_ne (hij : j ≠ i) (hlen : len ≤ blockSize) (hdata : data.length ≤ blockSize)
    (h : readExact bytes j len = some b) : readExact (writeAt bytes (i * blockSize) data) j len = some b := by
  rw [readExact] at h ⊢
  generalize blockSize = size at *
  split_ifs at h with hle
  rw [if_pos (by rw [length_writeAt]; omega), ← h]
  refine congrArg some ?_
  rw [writeAt]
  rcases Nat.lt_or_gt_of_ne hij with hlt | hgt
  · have hend : j * size + len ≤ i * size := by
      have := Nat.mul_le_mul_right size (Nat.succ_le_of_lt hlt)
      rw [Nat.succ_mul] at this
      omega
    rw [List.drop_append_of_le_length (by rw [length_prefix_writeAt]; omega), List.take_append_of_le_length
      (by rw [List.length_drop, length_prefix_writeAt]; omega), List.drop_take, List.take_take,
      List.drop_append_of_le_length (by omega), Nat.min_eq_left (by omega),
      List.take_append_of_le_length (by rw [List.length_drop]; omega)]
  · have hstart : i * size + data.length ≤ j * size := by
      have := Nat.mul_le_mul_right size (Nat.succ_le_of_lt hgt)
      rw [Nat.succ_mul] at this
      omega
    rw [List.drop_append, length_prefix_writeAt, List.drop_eq_nil_of_le (by rw [length_prefix_writeAt]; omega),
      List.nil_append, List.drop_append, List.drop_eq_nil_of_le (by omega), List.nil_append, List.drop_drop]
    refine congrArg (fun n => (bytes.drop n).take len) ?_
    omega

/-- The block is the one of the manifest. -/
def BlockOk (P : Platform) (m : Manifest) (bytes : Bytes) (index : ℕ) : Prop :=
  ∃ len b, blockLen m index = .ok len ∧ readExact bytes index len = some b ∧ m.blocks[index]? = some (P.blake3 b)

theorem blockLen_le (h : blockLen m i = .ok len) : len ≤ blockSize := by
  obtain ⟨-, h⟩ := ensure_bind_eq_ok.mp h
  obtain rfl := pure_eq_ok.mp h
  exact min_le_right _ _

/-- A block that is written is right, and the others stay right. -/
theorem blockOk_writeAt (hlen : blockLen m i = .ok data.length) (hhash : m.blocks[i]? = some (P.blake3 data))
    (h : j = i ∨ BlockOk P m bytes j) : BlockOk P m (writeAt bytes (i * blockSize) data) j := by
  by_cases hij : j = i
  · subst hij
    exact ⟨_, data, hlen, readExact_writeAt_self, hhash⟩
  · obtain ⟨len, b, hl, hb, hh⟩ := h.resolve_left hij
    exact ⟨len, b, hl, readExact_writeAt_ne hij (blockLen_le hl) (blockLen_le hlen) hb, hh⟩

/-! ### The staging file -/

/-- A staging file: what is read of it, and what of it is on the disk. -/
structure PartFile where
  /-- What is read. -/
  part : Bytes
  /-- What is on the disk. -/
  durable : Bytes
  deriving DecidableEq

/-- Check and write a block. -/
def PartFile.write (P : Platform) (m : Manifest) (index : ℕ) (data : Bytes) (s : PartFile) : Result PartFile := do
  let len ← blockLen m index
  ensure (data.length = len) "block length mismatch"
  ensure (m.blocks[index]? = some (P.blake3 data)) "block hash mismatch"
  pure { s with part := writeAt s.part (index * blockSize) data }

/-- Bring it to the disk. -/
def PartFile.sync (s : PartFile) : PartFile := { s with durable := s.part }

/-- The block of a file, if it is the one of the manifest. -/
def validBlock (P : Platform) (m : Manifest) (bytes : Bytes) (index : ℕ) : Option Bytes :=
  match blockLen m index with
  | .ok len => (readExact bytes index len).filter fun b => m.blocks[index]? = some (P.blake3 b)
  | .error _ => none

/-- Go through some blocks: those that are not in the staging file are taken from another file, or are missing. -/
def missingFrom (P : Platform) (m : Manifest) (existing : Option Bytes) : List ℕ → PartFile → Result (PartFile × List ℕ)
  | [], s => pure (s, [])
  | index :: rest, s =>
    match validBlock P m s.part index with
    | some _ => missingFrom P m existing rest s
    | none =>
      match existing.bind fun bytes => validBlock P m bytes index with
      | some data => do
        let s ← s.write P m index data
        missingFrom P m existing rest s.sync
      | none => do
        let (s, missing) ← missingFrom P m existing rest s
        pure (s, index :: missing)

/-! ### The two ends -/

namespace Exchange

/-- What is written to the connection. -/
inductive Packet where
  /-- A heartbeat. -/
  | busy
  /-- A message. -/
  | ready (m : Message)
  deriving DecidableEq

/-- How far the sender is. -/
inductive Sending where
  /-- It makes the manifest. -/
  | hashing
  /-- It has sent the manifest. -/
  | offering (m : Manifest)
  /-- Its two loops run: the wanted blocks, how many are sent and acknowledged, the permits that are left, and whether the
  first loop holds one. -/
  | sending (m : Manifest) (missing : List ℕ) (sent acknowledged permits : ℕ) (holding : Bool)
  /-- It makes the manifest again. -/
  | verifying (m : Manifest) (missing : List ℕ)
  /-- It has sent the commit. -/
  | committed (m : Manifest) (missing : List ℕ)
  /-- It has returned. -/
  | done (m : Manifest) (missing : List ℕ)

/-- What has happened with a block that the receiver has read. -/
inductive Putting where
  /-- None has been read. -/
  | idle
  /-- It has been read. -/
  | read (data : Bytes)
  /-- It is in the staging file. -/
  | written
  /-- It is on the disk. -/
  | synced

/-- How far the receiver is. -/
inductive Receiving where
  /-- It waits for the manifest. -/
  | waiting
  /-- It opens the staging file. -/
  | opening (m : Manifest)
  /-- It takes the wanted blocks: how many are acknowledged, and the next one. -/
  | receiving (m : Manifest) (missing : List ℕ) (acknowledged : ℕ) (putting : Putting)
  /-- It has read the commit. -/
  | finishing (m : Manifest) (missing : List ℕ)
  /-- The staging file is what it should be. -/
  | verified (m : Manifest) (missing : List ℕ)
  /-- It has been published. -/
  | published (m : Manifest) (missing : List ℕ)
  /-- It has returned. -/
  | done (m : Manifest) (missing : List ℕ)

end Exchange

open Exchange in
/-- The two ends of a connection. -/
structure Exchange where
  /-- The object at the sender. -/
  source : Bytes
  /-- How far the sender is. -/
  sender : Sending
  /-- The sender has failed. -/
  senderFailed : Bool
  /-- How far the receiver is. -/
  receiver : Receiving
  /-- The receiver has failed. -/
  receiverFailed : Bool
  /-- The staging file. -/
  staging : PartFile
  /-- What stands at the destination. -/
  destination : Option Bytes
  /-- What is on the way to the receiver. -/
  there : List Packet
  /-- What is on the way back. -/
  back : List Packet

namespace Exchange

/-- The window. -/
def window : ℕ := 16

/-- The phases in which an end works, with heartbeats. -/
def Sending.Works : Sending → Prop
  | .hashing | .verifying .. => True
  | _ => False

/-- The phases in which the sender reads packets. -/
def Sending.Reads : Sending → Prop
  | .offering _ | .sending .. | .committed .. => True
  | _ => False

/-- The phases in which the receiver works, with heartbeats. -/
def Receiving.Works : Receiving → Prop
  | .opening _ | .finishing .. | .verified .. => True
  | .receiving _ _ _ (.read _) | .receiving _ _ _ .written => True
  | _ => False

/-- The phases in which the receiver reads packets: blocks come without them. -/
def Receiving.Reads : Receiving → Prop
  | .waiting => True
  | .receiving _ missing acknowledged .idle => acknowledged = missing.length
  | _ => False

/-- The steps of the sender. -/
inductive SenderStep (P : Platform) (hash : String) : Exchange → Exchange → Prop where
  /-- The manifest is made and sent. -/
  | offer {s : Exchange} : s.sender = .hashing → s.source.length ≤ maxSize → (Manifest.ofBytes P s.source).hash = hash →
      SenderStep P hash s { s with
        sender := .offering (Manifest.ofBytes P s.source)
        there := s.there ++ [.ready (.manifest (Manifest.ofBytes P s.source))] }
  /-- The request is read. -/
  | request {s : Exchange} {m : Manifest} {missing : List ℕ} {rest : List Packet} : s.sender = .offering m →
      s.back = .ready (.wanted missing) :: rest → missing.length ≤ m.blocks.length → missing.Pairwise (· < ·) →
      SenderStep P hash s { s with sender := .sending m missing 0 0 window false, back := rest }
  /-- The first loop takes a permit. -/
  | acquire {s : Exchange} {m : Manifest} {missing : List ℕ} {sent acknowledged permits : ℕ} :
      s.sender = .sending m missing sent acknowledged (permits + 1) false → sent < missing.length →
      SenderStep P hash s { s with sender := .sending m missing sent acknowledged permits true }
  /-- It reads a block, compares it, and writes it. -/
  | block {s : Exchange} {m : Manifest} {missing : List ℕ} {sent acknowledged permits index len : ℕ} {data : Bytes} :
      s.sender = .sending m missing sent acknowledged permits true → missing[sent]? = some index →
      blockLen m index = .ok len → readExact s.source index len = some data → m.blocks[index]? = some (P.blake3 data) →
      SenderStep P hash s { s with
        sender := .sending m missing (sent + 1) acknowledged permits false
        there := s.there ++ [.ready (.block index data)] }
  /-- The second loop reads an acknowledgement, and gives the permit back. -/
  | acknowledged {s : Exchange} {m : Manifest} {missing : List ℕ} {sent acknowledged permits index : ℕ} {holding : Bool}
      {rest : List Packet} : s.sender = .sending m missing sent acknowledged permits holding →
      s.back = .ready (.received index) :: rest → missing[acknowledged]? = some index →
      SenderStep P hash s { s with
        sender := .sending m missing sent (acknowledged + 1) (permits + 1) holding
        back := rest }
  /-- Both loops have ended. -/
  | join {s : Exchange} {m : Manifest} {missing : List ℕ} {permits : ℕ} :
      s.sender = .sending m missing missing.length missing.length permits false →
      SenderStep P hash s { s with sender := .verifying m missing }
  /-- The object is still the one of the manifest, and the commit is sent. -/
  | commit {s : Exchange} {m : Manifest} {missing : List ℕ} : s.sender = .verifying m missing →
      Manifest.ofBytes P s.source = m →
      SenderStep P hash s { s with
        sender := .committed m missing
        there := s.there ++ [.ready (.text "commit")] }
  /-- The answer is read. -/
  | complete {s : Exchange} {m : Manifest} {missing : List ℕ} {rest : List Packet} : s.sender = .committed m missing →
      s.back = .ready (.text "complete") :: rest →
      SenderStep P hash s { s with sender := .done m missing, back := rest }
  /-- A heartbeat is written. -/
  | beat {s : Exchange} : Sending.Works s.sender → SenderStep P hash s { s with there := s.there ++ [.busy] }
  /-- A heartbeat is skipped. -/
  | skip {s : Exchange} {rest : List Packet} : Sending.Reads s.sender → s.back = .busy :: rest →
      SenderStep P hash s { s with back := rest }
  /-- The sender fails. -/
  | fail {s : Exchange} : SenderStep P hash s { s with senderFailed := true }

/-- The steps of the receiver. -/
inductive ReceiverStep (P : Platform) (hash : String) : Exchange → Exchange → Prop where
  /-- The manifest is read. -/
  | manifest {s : Exchange} {m : Manifest} {rest : List Packet} : s.receiver = .waiting →
      s.there = .ready (.manifest m) :: rest → m.validate = .ok () → m.hash = hash →
      ReceiverStep P hash s { s with receiver := .opening m, there := rest }
  /-- The staging file is opened, what can be reused is put into it, and what is missing is asked for. -/
  | open_ {s : Exchange} {m : Manifest} {existing : Option Bytes} {staging : PartFile} {missing : List ℕ} :
      s.receiver = .opening m → s.staging.part.length ≤ m.size →
      missingFrom P m existing (List.range m.blocks.length) s.staging = .ok (staging, missing) →
      ReceiverStep P hash s { s with
        receiver := .receiving m missing 0 .idle
        staging := staging
        back := s.back ++ [.ready (.wanted missing)] }
  /-- A block is read. -/
  | block {s : Exchange} {m : Manifest} {missing : List ℕ} {acknowledged index len : ℕ} {data : Bytes}
      {rest : List Packet} : s.receiver = .receiving m missing acknowledged .idle →
      missing[acknowledged]? = some index → s.there = .ready (.block index data) :: rest →
      blockLen m index = .ok len → data.length = len →
      ReceiverStep P hash s { s with receiver := .receiving m missing acknowledged (.read data), there := rest }
  /-- It is checked and written. -/
  | write {s : Exchange} {m : Manifest} {missing : List ℕ} {acknowledged index : ℕ} {data : Bytes} {staging : PartFile} :
      s.receiver = .receiving m missing acknowledged (.read data) → missing[acknowledged]? = some index →
      s.staging.write P m index data = .ok staging →
      ReceiverStep P hash s { s with
        receiver := .receiving m missing acknowledged .written
        staging := staging }
  /-- It is brought to the disk. -/
  | sync {s : Exchange} {m : Manifest} {missing : List ℕ} {acknowledged : ℕ} :
      s.receiver = .receiving m missing acknowledged .written →
      ReceiverStep P hash s { s with
        receiver := .receiving m missing acknowledged .synced
        staging := s.staging.sync }
  /-- It is acknowledged. -/
  | acknowledge {s : Exchange} {m : Manifest} {missing : List ℕ} {acknowledged index : ℕ} :
      s.receiver = .receiving m missing acknowledged .synced → missing[acknowledged]? = some index →
      ReceiverStep P hash s { s with
        receiver := .receiving m missing (acknowledged + 1) .idle
        back := s.back ++ [.ready (.received index)] }
  /-- The commit is read. -/
  | commit {s : Exchange} {m : Manifest} {missing : List ℕ} {rest : List Packet} :
      s.receiver = .receiving m missing missing.length .idle → s.there = .ready (.text "commit") :: rest →
      ReceiverStep P hash s { s with receiver := .finishing m missing, there := rest }
  /-- The staging file is compared with the manifest. -/
  | verify {s : Exchange} {m : Manifest} {missing : List ℕ} : s.receiver = .finishing m missing →
      Manifest.ofBytes P s.staging.part = m →
      ReceiverStep P hash s { s with receiver := .verified m missing, staging := s.staging.sync }
  /-- What stands at the destination is moved aside. -/
  | displace {s : Exchange} {m : Manifest} {missing : List ℕ} : s.receiver = .verified m missing →
      ReceiverStep P hash s { s with destination := none }
  /-- The staging file is published. -/
  | publish {s : Exchange} {m : Manifest} {missing : List ℕ} : s.receiver = .verified m missing → s.destination = none →
      ReceiverStep P hash s { s with
        receiver := .published m missing
        destination := some s.staging.part }
  /-- The answer is sent. -/
  | complete {s : Exchange} {m : Manifest} {missing : List ℕ} : s.receiver = .published m missing →
      ReceiverStep P hash s { s with
        receiver := .done m missing
        back := s.back ++ [.ready (.text "complete")] }
  /-- A heartbeat is written. -/
  | beat {s : Exchange} : Receiving.Works s.receiver → ReceiverStep P hash s { s with back := s.back ++ [.busy] }
  /-- A heartbeat is skipped. -/
  | skip {s : Exchange} {rest : List Packet} : Receiving.Reads s.receiver → s.there = .busy :: rest →
      ReceiverStep P hash s { s with there := rest }
  /-- The receiver fails. -/
  | fail {s : Exchange} : ReceiverStep P hash s { s with receiverFailed := true }

/-- A step. An end that has failed takes none. -/
inductive Step (P : Platform) (hash : String) (s s' : Exchange) : Prop where
  /-- A step of the sender. -/
  | sender (h : SenderStep P hash s s') (hfailed : s.senderFailed = false) : Step P hash s s'
  /-- A step of the receiver. -/
  | receiver (h : ReceiverStep P hash s s') (hfailed : s.receiverFailed = false) : Step P hash s s'
  /-- Others change the source. -/
  | source (bytes : Bytes) (h : s' = { s with source := bytes }) : Step P hash s s'

/-- Nothing has happened. The object, the staging file and the destination may be anything. -/
structure Initial (s : Exchange) : Prop where
  /-- The sender begins. -/
  sender : s.sender = .hashing
  /-- The receiver begins. -/
  receiver : s.receiver = .waiting
  /-- Nothing is on the way. -/
  there : s.there = []
  /-- Nothing is on the way back. -/
  back : s.back = []

/-! ### What is on the way -/

/-- A message without the bytes of a block. -/
def erase : Message → Message
  | .block index _ => .block index []
  | m => m

/-- The messages among some packets. -/
def messages : List Packet → List Message
  | [] => []
  | .busy :: l => messages l
  | .ready m :: l => erase m :: messages l

theorem messages_append (l l' : List Packet) : messages (l ++ l') = messages l ++ messages l' := by
  induction l with
  | nil => rfl
  | cons p l ih =>
    cases p with
    | busy => exact ih
    | ready m => exact congrArg _ ih

/-- The blocks of some numbers. -/
def blocks (l : List ℕ) : List Message := l.map fun index => .block index []

/-- The acknowledgements of some numbers. -/
def receipts (l : List ℕ) : List Message := l.map .received

/-- What the sender has sent. -/
def Sending.sent : Sending → List Message
  | .hashing => []
  | .offering m => [.manifest m]
  | .sending m missing sent _ _ _ => .manifest m :: blocks (missing.take sent)
  | .verifying m missing => .manifest m :: blocks missing
  | .committed m missing | .done m missing => .manifest m :: (blocks missing ++ [.text "commit"])

/-- What the sender has read. -/
def Sending.taken : Sending → List Message
  | .hashing | .offering _ => []
  | .sending _ missing _ acknowledged _ _ => .wanted missing :: receipts (missing.take acknowledged)
  | .verifying _ missing | .committed _ missing => .wanted missing :: receipts missing
  | .done _ missing => .wanted missing :: (receipts missing ++ [.text "complete"])

/-- The number of blocks that have been read and are not acknowledged. -/
def Putting.taken : Putting → ℕ
  | .idle => 0
  | _ => 1

/-- What the receiver has read. -/
def Receiving.taken : Receiving → List Message
  | .waiting => []
  | .opening m => [.manifest m]
  | .receiving m missing acknowledged putting => .manifest m :: blocks (missing.take (acknowledged + Putting.taken putting))
  | .finishing m missing | .verified m missing | .published m missing | .done m missing =>
    .manifest m :: (blocks missing ++ [.text "commit"])

/-- What the receiver has sent. -/
def Receiving.sent : Receiving → List Message
  | .waiting | .opening _ => []
  | .receiving _ missing acknowledged _ => .wanted missing :: receipts (missing.take acknowledged)
  | .finishing _ missing | .verified _ missing | .published _ missing => .wanted missing :: receipts missing
  | .done _ missing => .wanted missing :: (receipts missing ++ [.text "complete"])

/-! ### What holds at all times -/

/-- The blocks that the receiver has acknowledged. -/
def Receiving.acknowledged : Receiving → List ℕ
  | .waiting | .opening _ => []
  | .receiving _ missing acknowledged _ => missing.take acknowledged
  | .finishing _ missing | .verified _ missing | .published _ missing | .done _ missing => missing

/-- The manifest that the receiver has read. -/
def Receiving.manifest : Receiving → Option Manifest
  | .waiting => none
  | .opening m | .receiving m .. | .finishing m _ | .verified m _ | .published m _ | .done m _ => some m

/-- The numbers of the loops of the sender. -/
def Sending.Counted : Sending → Prop
  | .sending _ missing sent acknowledged permits holding =>
    permits + sent + holding.toNat = window + acknowledged ∧ sent + holding.toNat ≤ missing.length ∧
      acknowledged ≤ missing.length
  | _ => True

/-- What the receiver knows of the staging file and the destination. -/
def Held (P : Platform) (s : Exchange) : Prop :=
  match s.receiver with
  | .receiving m missing acknowledged .written =>
    ∀ index, missing[acknowledged]? = some index → BlockOk P m s.staging.part index
  | .receiving m missing acknowledged .synced =>
    ∀ index, missing[acknowledged]? = some index → BlockOk P m s.staging.part index ∧ BlockOk P m s.staging.durable index
  | .verified m _ => Manifest.ofBytes P s.staging.part = m
  | .published m _ | .done m _ => ∃ bytes, s.destination = some bytes ∧ Manifest.ofBytes P bytes = m
  | _ => True

/-- What holds of the two ends at all times. -/
structure Sound (P : Platform) (hash : String) (s : Exchange) : Prop where
  /-- What has been sent has been read, or is on the way. -/
  there : s.sender.sent = s.receiver.taken ++ messages s.there
  /-- So it is on the way back. -/
  back : s.receiver.sent = s.sender.taken ++ messages s.back
  /-- The window is kept. -/
  counted : s.sender.Counted
  /-- The object is the one that was asked for. -/
  hash : ∀ m, s.receiver.manifest = some m → m.hash = hash
  /-- What has been acknowledged is there, and on the disk. -/
  stored : ∀ m, s.receiver.manifest = some m → ∀ index ∈ s.receiver.acknowledged,
    BlockOk P m s.staging.part index ∧ BlockOk P m s.staging.durable index
  /-- The receiver knows what it has done. -/
  held : Held P s

variable {hash : String} {s s' : Exchange}

theorem sound_initial (h : Initial s) : Sound P hash s where
  there := by rw [h.sender, h.receiver, h.there]; rfl
  back := by rw [h.sender, h.receiver, h.back]; rfl
  counted := by rw [h.sender]; trivial
  hash m hm := by rw [h.receiver] at hm; cases hm
  stored m hm := by rw [h.receiver] at hm; cases hm
  held := by rw [Held, h.receiver]; trivial

theorem take_succ_of {l : List ℕ} {k index : ℕ} (h : l[k]? = some index) : l.take (k + 1) = l.take k ++ [index] := by
  rw [List.take_add_one, h]
  rfl

/-- **A step of the sender keeps what holds.** -/
theorem sound_sender (h : Sound P hash s) (hstep : SenderStep P hash s s') : Sound P hash s' := by
  have hthere := h.there
  have hback := h.back
  have hcounted := h.counted
  cases hstep with
  | offer hs _ _ =>
    rw [hs] at hthere hback
    refine ⟨?_, hback, trivial, h.hash, h.stored, h.held⟩
    rw [messages_append, ← List.append_assoc, ← hthere]
    rfl
  | request hs hb _ _ =>
    rw [hs] at hthere hback
    rw [hb] at hback
    exact ⟨hthere, hback, ⟨rfl, Nat.zero_le _, Nat.zero_le _⟩, h.hash, h.stored, h.held⟩
  | acquire hs hlt =>
    rw [hs] at hthere hback hcounted
    obtain ⟨h1, h2, h3⟩ := hcounted
    refine ⟨hthere, hback, ⟨?_, ?_, h3⟩, h.hash, h.stored, h.held⟩
    · simp only [Bool.toNat_false, Bool.toNat_true] at h1 ⊢
      omega
    · simp only [Bool.toNat_true]
      omega
  | block hs hindex _ _ _ =>
    rw [hs] at hthere hback hcounted
    obtain ⟨h1, h2, h3⟩ := hcounted
    refine ⟨?_, hback, ⟨?_, ?_, h3⟩, h.hash, h.stored, h.held⟩
    · rw [messages_append, ← List.append_assoc, ← hthere]
      simp only [Sending.sent, take_succ_of hindex, blocks, List.map_append, List.cons_append]
      rfl
    · simp only [Bool.toNat_false, Bool.toNat_true] at h1 ⊢
      omega
    · simp only [Bool.toNat_false, Bool.toNat_true] at h2 ⊢
      omega
  | acknowledged hs hb hindex =>
    rw [hs] at hthere hback hcounted
    obtain ⟨h1, h2, h3⟩ := hcounted
    refine ⟨hthere, ?_, ⟨?_, h2, ?_⟩, h.hash, h.stored, h.held⟩
    · rw [hback, hb]
      simp only [Sending.taken, take_succ_of hindex, receipts, List.map_append, messages, List.cons_append,
        List.append_assoc]
      rfl
    · omega
    · have hlt := (List.getElem?_eq_some_iff.mp hindex).1
      omega
  | join hs =>
    rw [hs] at hthere hback
    refine ⟨?_, ?_, trivial, h.hash, h.stored, h.held⟩
    · rw [← hthere]
      simp only [Sending.sent, List.take_length]
    · rw [hback]
      simp only [Sending.taken, List.take_length]
  | commit hs _ =>
    rw [hs] at hthere hback
    refine ⟨?_, hback, trivial, h.hash, h.stored, h.held⟩
    rw [messages_append, ← List.append_assoc, ← hthere]
    rfl
  | complete hs hb =>
    rw [hs] at hthere hback
    refine ⟨hthere, ?_, trivial, h.hash, h.stored, h.held⟩
    rw [hback, hb]
    simp only [Sending.taken, messages, List.cons_append, List.append_assoc]
    rfl
  | beat _ =>
    refine ⟨?_, hback, hcounted, h.hash, h.stored, h.held⟩
    rw [messages_append, ← List.append_assoc, ← hthere]
    exact (List.append_nil _).symm
  | skip _ hb =>
    rw [hb] at hback
    exact ⟨hthere, hback, hcounted, h.hash, h.stored, h.held⟩
  | fail => exact ⟨hthere, hback, hcounted, h.hash, h.stored, h.held⟩

theorem write_eq_ok {P : Platform} {m : Manifest} {index : ℕ} {data : Bytes} {t t' : PartFile}
    (h : t.write P m index data = .ok t') : blockLen m index = .ok data.length ∧
      m.blocks[index]? = some (P.blake3 data) ∧ t' = { t with part := writeAt t.part (index * blockSize) data } := by
  obtain ⟨len, hlen, h⟩ := bind_eq_ok.mp h
  obtain ⟨hdata, h⟩ := ensure_bind_eq_ok.mp h
  obtain ⟨hhash, h⟩ := ensure_bind_eq_ok.mp h
  exact ⟨by rw [hlen, hdata], hhash, (pure_eq_ok.mp h).symm⟩

/-- **A step of the receiver keeps what holds.** -/
theorem sound_receiver (h : Sound P hash s) (hstep : ReceiverStep P hash s s') : Sound P hash s' := by
  have hthere := h.there
  have hback := h.back
  have hhash := h.hash
  have hstored := h.stored
  have hheld := h.held
  cases hstep with
  | manifest hs ht _ hm =>
    rw [hs] at hthere hback
    rw [ht] at hthere
    refine ⟨hthere, hback, h.counted, fun m' hm' => ?_, fun m' _ index hi => ?_, trivial⟩
    · obtain rfl := Option.some.inj hm'
      exact hm
    · cases hi
  | open_ hs _ _ =>
    rw [hs] at hthere hback hhash
    refine ⟨hthere, ?_, h.counted, hhash, fun m' _ index hi => ?_, trivial⟩
    · rw [messages_append, ← List.append_assoc, ← hback]
      rfl
    · cases hi
  | block hs hindex ht _ _ =>
    rw [hs] at hthere hback hhash hstored
    rw [ht] at hthere
    refine ⟨?_, hback, h.counted, hhash, hstored, trivial⟩
    rw [hthere]
    simp only [Receiving.taken, Putting.taken, Nat.add_zero, take_succ_of hindex, blocks, List.map_append, messages,
      List.cons_append, List.append_assoc]
    rfl
  | write hs hindex hwrite =>
    rw [hs] at hthere hback hhash hstored
    obtain ⟨hlen, hblock, heq⟩ := write_eq_ok hwrite
    have hpart := congrArg PartFile.part heq
    have hdurable := congrArg PartFile.durable heq
    dsimp only at hpart hdurable
    refine ⟨hthere, hback, h.counted, hhash, fun m' hm' index hi => ?_, fun index hi => ?_⟩
    · obtain rfl := Option.some.inj hm'
      dsimp only
      rw [hpart, hdurable]
      obtain ⟨hwritten, hsynced⟩ := hstored _ rfl index hi
      exact ⟨blockOk_writeAt hlen hblock (.inr hwritten), hsynced⟩
    · obtain rfl := Option.some.inj (hindex.symm.trans hi)
      dsimp only
      rw [hpart]
      exact blockOk_writeAt hlen hblock (.inl rfl)
  | sync hs =>
    rw [Held, hs] at hheld
    rw [hs] at hthere hback hhash hstored
    exact ⟨hthere, hback, h.counted, hhash, fun m' hm' index hi => ⟨(hstored m' hm' index hi).1, (hstored m' hm' index hi).1⟩,
      fun index hi => ⟨hheld index hi, hheld index hi⟩⟩
  | acknowledge hs hindex =>
    rw [Held, hs] at hheld
    rw [hs] at hthere hback hhash hstored
    refine ⟨hthere, ?_, h.counted, hhash, fun m' hm' index hi => ?_, trivial⟩
    · rw [messages_append, ← List.append_assoc, ← hback]
      simp only [Receiving.sent, take_succ_of hindex, receipts, List.map_append, List.cons_append]
      rfl
    · obtain rfl := Option.some.inj hm'
      simp only [Receiving.acknowledged, take_succ_of hindex, List.mem_append, List.mem_singleton] at hi
      rcases hi with hi | rfl
      · exact hstored _ rfl index hi
      · exact hheld _ hindex
  | commit hs ht =>
    rw [hs] at hthere hback hhash hstored
    rw [ht] at hthere
    simp only [Receiving.taken, Putting.taken, Nat.add_zero, List.take_length] at hthere
    simp only [Receiving.sent, List.take_length] at hback
    simp only [Receiving.acknowledged, List.take_length] at hstored
    refine ⟨?_, hback, h.counted, hhash, hstored, trivial⟩
    rw [hthere]
    simp only [Receiving.taken, messages, List.cons_append, List.append_assoc]
    rfl
  | verify hs hm =>
    rw [hs] at hthere hback hhash hstored
    exact ⟨hthere, hback, h.counted, hhash, fun m' hm' index hi => ⟨(hstored m' hm' index hi).1, (hstored m' hm' index hi).1⟩,
      hm⟩
  | displace hs =>
    rw [Held, hs] at hheld
    refine ⟨hthere, hback, h.counted, hhash, hstored, ?_⟩
    rw [Held]
    dsimp only
    rw [hs]
    exact hheld
  | publish hs _ =>
    rw [Held, hs] at hheld
    rw [hs] at hthere hback hhash hstored
    exact ⟨hthere, hback, h.counted, hhash, hstored, _, rfl, hheld⟩
  | complete hs =>
    rw [Held, hs] at hheld
    rw [hs] at hthere hback hhash hstored
    refine ⟨hthere, ?_, h.counted, hhash, hstored, hheld⟩
    rw [messages_append, ← List.append_assoc, ← hback]
    rfl
  | beat _ =>
    refine ⟨hthere, ?_, h.counted, hhash, hstored, hheld⟩
    rw [messages_append, ← List.append_assoc, ← hback]
    exact (List.append_nil _).symm
  | skip _ ht =>
    rw [ht] at hthere
    exact ⟨hthere, hback, h.counted, hhash, hstored, hheld⟩
  | fail => exact ⟨hthere, hback, h.counted, hhash, hstored, hheld⟩

/-- What holds at first holds in every run. -/
theorem sound_run (hinitial : Initial s) (h : Relation.ReflTransGen (Step P hash) s s') : Sound P hash s' := by
  induction h with
  | refl => exact sound_initial hinitial
  | tail _ hstep ih =>
    cases hstep with
    | sender h _ => exact sound_sender ih h
    | receiver h _ => exact sound_receiver ih h
    | source bytes h =>
      subst h
      exact ⟨ih.there, ih.back, ih.counted, ih.hash, ih.stored, ih.held⟩

/-! ### What may be relied on -/

/-- The sender has sent the commit. -/
def Sending.commit : Sending → Option (Manifest × List ℕ)
  | .committed m missing | .done m missing => some (m, missing)
  | _ => none

/-- The numbers of blocks that have been sent and of those that have been acknowledged. -/
def Sending.counts : Sending → ℕ × ℕ
  | .sending _ _ sent acknowledged _ _ => (sent, acknowledged)
  | .verifying _ missing | .committed _ missing | .done _ missing => (missing.length, missing.length)
  | _ => (0, 0)

theorem not_mem_receipts (text : String) (l : List ℕ) : Message.text text ∉ receipts l := by
  simp [receipts]

/-- Who has acknowledged everything has read the manifest. -/
theorem Receiving.manifest_of_sent {r : Receiving} {missing : List ℕ} {l : List Message}
    (h : r.sent = .wanted missing :: (receipts missing ++ l)) :
    ∃ m t, r.manifest = some m ∧ r.acknowledged = missing ∧ r.taken = .manifest m :: t := by
  cases r with
  | waiting | opening m => cases h
  | receiving m missing' acknowledged putting =>
    obtain ⟨hwanted, h⟩ := List.cons.inj h
    obtain rfl : missing' = missing := by injection hwanted
    have hlen := congrArg List.length h
    simp only [receipts, List.length_append, List.length_map, List.length_take] at hlen
    have hall : missing'.length ≤ acknowledged := by omega
    exact ⟨m, _, rfl, List.take_of_length_le hall, rfl⟩
  | finishing m missing' | verified m missing' | published m missing' | done m missing' =>
    obtain ⟨hwanted, -⟩ := List.cons.inj h
    obtain rfl : missing' = missing := by injection hwanted
    exact ⟨m, _, rfl, rfl, rfl⟩

/-- Only who has returned has sent the answer. -/
theorem Receiving.done_of_sent {r : Receiving} {missing : List ℕ} {l : List Message}
    (h : r.sent = .wanted missing :: (receipts missing ++ .text "complete" :: l)) : ∃ m, r = .done m missing := by
  have hmem : Message.text "complete" ∈ receipts missing ++ .text "complete" :: l := by simp
  cases r with
  | waiting | opening m => cases h
  | receiving m missing' acknowledged putting =>
    rw [← (List.cons.inj h).2] at hmem
    exact absurd hmem (not_mem_receipts _ _)
  | finishing m missing' | verified m missing' | published m missing' =>
    rw [← (List.cons.inj h).2] at hmem
    exact absurd hmem (not_mem_receipts _ _)
  | done m missing' =>
    obtain ⟨hwanted, -⟩ := List.cons.inj h
    obtain rfl : missing' = missing := by injection hwanted
    exact ⟨m, rfl⟩

/-- When the commit has been sent, the receiver has acknowledged everything. -/
theorem Sound.committed (h : Sound P hash s) {m : Manifest} {missing : List ℕ} (hs : s.sender.commit = some (m, missing)) :
    s.receiver.manifest = some m ∧ s.receiver.acknowledged = missing := by
  have hthere := h.there
  have hback := h.back
  obtain ⟨l, l', htaken, hsent⟩ : ∃ l l', s.sender.taken = .wanted missing :: (receipts missing ++ l) ∧
      s.sender.sent = .manifest m :: l' := by
    cases hp : s.sender with
    | committed m' missing' =>
      rw [hp] at hs
      obtain ⟨rfl, rfl⟩ := Prod.mk.inj (Option.some.inj hs)
      exact ⟨[], _, by rw [List.append_nil]; rfl, rfl⟩
    | done m' missing' =>
      rw [hp] at hs
      obtain ⟨rfl, rfl⟩ := Prod.mk.inj (Option.some.inj hs)
      exact ⟨[.text "complete"], _, rfl, rfl⟩
    | _ =>
      rw [hp] at hs
      cases hs
  rw [htaken, List.cons_append, List.append_assoc] at hback
  obtain ⟨m', t, hmanifest, hacknowledged, hread⟩ := Receiving.manifest_of_sent hback
  rw [hsent, hread, List.cons_append] at hthere
  obtain rfl : m = m' := by
    have hhead := (List.cons.inj hthere).1
    injection hhead
  exact ⟨hmanifest, hacknowledged⟩

/-- When the sender has returned, so has the receiver. -/
theorem Sound.done (h : Sound P hash s) {m : Manifest} {missing : List ℕ} (hs : s.sender = .done m missing) :
    s.receiver = .done m missing := by
  obtain ⟨hmanifest, -⟩ := @Sound.committed _ _ _ h m missing (by rw [hs]; rfl)
  have hback := h.back
  rw [hs] at hback
  simp only [Sending.taken, List.cons_append, List.append_assoc] at hback
  obtain ⟨m', hr⟩ := Receiving.done_of_sent hback
  rw [hr] at hmanifest ⊢
  obtain rfl := Option.some.inj hmanifest
  rfl

/-- **What may be relied on.** In every run of the two ends of a transfer, whatever the object, the staging file, the file
from which blocks are reused, and the order of the steps: at most 16 blocks have been sent and not been acknowledged.
What the receiver has acknowledged is on its disk, and when the commit has been sent, these are the blocks that were
wanted, in their order. When the receiver has returned, the destination has the hash that was asked for, and, if hashes
do not collide, the content; when the sender has returned, so has the receiver. -/
theorem object_transfer (P : Platform) (hash : String) (s s' : Exchange) (hinitial : Initial s)
    (hrun : Relation.ReflTransGen (Step P hash) s s') :
    s'.sender.counts.1 ≤ s'.sender.counts.2 + 16 ∧
    (∀ m, s'.receiver.manifest = some m → ∀ index ∈ s'.receiver.acknowledged, BlockOk P m s'.staging.durable index) ∧
    (∀ m missing, s'.sender.commit = some (m, missing) →
      s'.receiver.manifest = some m ∧ s'.receiver.acknowledged = missing) ∧
    (∀ m missing, s'.receiver = .done m missing → ∃ bytes, s'.destination = some bytes ∧ P.blake3 bytes = hash ∧
      (Function.Injective P.blake3 → ∀ content, P.blake3 content = hash → bytes = content)) ∧
    ∀ m missing, s'.sender = .done m missing → s'.receiver = .done m missing := by
  have h : Sound P hash s' := sound_run hinitial hrun
  refine ⟨?_, fun m hm index hi => (h.stored m hm index hi).2, fun m missing hs => h.committed hs,
    fun m missing hr => ?_, fun m missing hs => h.done hs⟩
  · have hcounted := h.counted
    cases hp : s'.sender with
    | sending m missing sent acknowledged permits holding =>
      rw [hp] at hcounted
      obtain ⟨hsum, -, -⟩ := hcounted
      rw [window] at hsum
      change sent ≤ acknowledged + 16
      omega
    | _ => exact Nat.le_add_right _ _
  · have hheld := h.held
    rw [Held, hr] at hheld
    obtain ⟨bytes, hbytes, rfl⟩ := hheld
    have hhash : P.blake3 bytes = hash := h.hash _ (by rw [hr]; rfl)
    exact ⟨bytes, hbytes, hhash, fun hinj content hcontent => hinj (hhash.trans hcontent.symm)⟩

/-- The manifest of an object of one byte. -/
def byteManifest : Manifest := Manifest.ofBytes .padded [7]

/-- The transfer of the object. -/
def byteTransfer (sender : Sending) (receiver : Receiving) (staging : PartFile) (destination : Option Bytes)
    (there back : List Packet) : Exchange :=
  ⟨[7], sender, false, receiver, false, staging, destination, there, back⟩

/-- It goes from the manifest over the block and its acknowledgement to the commit and the answer. -/
theorem run_byteTransfer : Relation.ReflTransGen (Step .padded (Platform.padded.blake3 [7]))
    (byteTransfer .hashing .waiting ⟨[], []⟩ none [] [])
    (byteTransfer (.done byteManifest [0]) (.done byteManifest [0]) ⟨[7], [7]⟩ (some [7]) [] []) := by
  have hlen : blockLen byteManifest 0 = .ok 1 := by decide +kernel
  have hblock : byteManifest.blocks[0]? = some (Platform.padded.blake3 [7]) := by decide +kernel
  have hmissing : missingFrom .padded byteManifest none (List.range byteManifest.blocks.length) ⟨[], []⟩ = .ok (⟨[], []⟩, [0]) := by
    decide +kernel
  have hwrite : (⟨[], []⟩ : PartFile).write .padded byteManifest 0 [7] = .ok ⟨[7], []⟩ := by decide +kernel
  have hoffer : Relation.ReflTransGen (Step .padded (Platform.padded.blake3 [7]))
      (byteTransfer .hashing .waiting ⟨[], []⟩ none [] [])
      (byteTransfer (.sending byteManifest [0] 0 0 window false) (.receiving byteManifest [0] 0 .idle) ⟨[], []⟩ none [] []) :=
    .trans (.single (.sender (.offer rfl Nat.one_le_two_pow rfl) rfl)) <|
      .trans (.single (.receiver (.manifest rfl rfl (by decide +kernel) rfl) rfl)) <|
        .trans (.single (.receiver (.open_ rfl (Nat.zero_le _) hmissing) rfl)) <|
          .single (.sender (.request rfl rfl (by decide +kernel) (by decide)) rfl)
  have hsend : Relation.ReflTransGen (Step .padded (Platform.padded.blake3 [7]))
      (byteTransfer (.sending byteManifest [0] 0 0 window false) (.receiving byteManifest [0] 0 .idle) ⟨[], []⟩ none [] [])
      (byteTransfer (.verifying byteManifest [0]) (.receiving byteManifest [0] 1 .idle) ⟨[7], [7]⟩ none [] []) :=
    .trans (.single (.sender (.acquire rfl Nat.zero_lt_one) rfl)) <|
      .trans (.single (.sender (.block rfl rfl hlen rfl hblock) rfl)) <|
        .trans (.single (.receiver (.block rfl rfl rfl hlen rfl) rfl)) <|
          .trans (.single (.receiver (.write rfl rfl hwrite) rfl)) <|
            .trans (.single (.receiver (.sync rfl) rfl)) <|
              .trans (.single (.receiver (.acknowledge rfl rfl) rfl)) <|
                .trans (.single (.sender (.acknowledged rfl rfl rfl) rfl)) <|
                  .single (.sender (.join rfl) rfl)
  have hcommit : Relation.ReflTransGen (Step .padded (Platform.padded.blake3 [7]))
      (byteTransfer (.verifying byteManifest [0]) (.receiving byteManifest [0] 1 .idle) ⟨[7], [7]⟩ none [] [])
      (byteTransfer (.done byteManifest [0]) (.done byteManifest [0]) ⟨[7], [7]⟩ (some [7]) [] []) :=
    .trans (.single (.sender (.commit rfl rfl) rfl)) <|
      .trans (.single (.receiver (.commit rfl rfl) rfl)) <|
        .trans (.single (.receiver (.verify rfl rfl) rfl)) <|
          .trans (.single (.receiver (.publish rfl rfl) rfl)) <|
            .trans (.single (.receiver (.complete rfl) rfl)) <|
              .single (.sender (.complete rfl rfl) rfl)
  exact (hoffer.trans hsend).trans hcommit

/-- An object of one byte has arrived when both ends have returned. -/
theorem object_transfer_byte : ∃ s : Exchange, s.sender = .done byteManifest [0] ∧ s.receiver = .done byteManifest [0] ∧
    BlockOk .padded byteManifest s.staging.durable 0 ∧
    ∃ bytes, s.destination = some bytes ∧ Platform.padded.blake3 bytes = Platform.padded.blake3 [7] := by
  obtain ⟨-, hstored, -, hdone, hreturned⟩ := object_transfer .padded (Platform.padded.blake3 [7]) _ _ ⟨rfl, rfl, rfl, rfl⟩
    run_byteTransfer
  obtain ⟨bytes, hbytes, hhash, -⟩ := hdone byteManifest [0] rfl
  exact ⟨_, rfl, hreturned byteManifest [0] rfl, hstored byteManifest rfl 0 (by simp [byteTransfer, Receiving.acknowledged]),
    bytes, hbytes, hhash⟩

end Exchange

end Everywhere

