import Everywhere.Frames
import Everywhere.Library.Framing

/-!
# Conversations

What one end of a connection writes is a stream of bytes. A value is written as a frame, its length in front; while an end works,
it writes frames that say so, which the other end skips; and the blocks of a file are written without a frame, by their number.
The other end knows what it reads next: a value, in a frame of some length at most, or a block of some length.

* `conversation_exact` — **what is read is what was written**, each value and each block in its place, however many heartbeats
  stand in front of the values, and nothing is read that does not belong to it; and where the stream ends too early, what has
  arrived in full is read, and then the reader fails at the end of the stream, and never reads anything else.
-/

namespace Everywhere

open Library

namespace Conversation

/-! ### Writing -/

/-- A heartbeat. -/
def busy : Json := .obj [("state", .str "busy")]

/-- A frame: the length of a text, and the text. -/
def frame (bytes : Bytes) : Bytes := be 4 bytes.length ++ bytes

/-- What an end writes. -/
inductive Part where
  /-- A value, in a frame of some length at most. -/
  | value (limit : ℕ) (v : Json)
  /-- A block with its number. -/
  | block (index : ℕ) (data : Bytes)

/-- The bytes of it. -/
def Part.bytes : Part → Bytes
  | .value _ v => frame (ready v).render
  | .block index data => be 8 index ++ data

/-- What an end writes, with some heartbeats in front of each part. -/
def written : List (ℕ × Part) → Bytes
  | [] => []
  | (beats, part) :: rest => (List.replicate beats (frame busy.render)).flatten ++ (part.bytes ++ written rest)

/-- A part can be written here: a value that fits in its frame and is not nested too deep to be read, or a block, with no
heartbeat in front. -/
def Fits : ℕ × Part → Prop
  | (_, .value limit v) => (ready v).render.length ≤ limit ∧ limit < 256 ^ 4 ∧ v.depth < Json.maxDepth
  | (beats, .block index _) => beats = 0 ∧ index < 256 ^ 8

/-! ### Reading -/

/-- What the other end expects. -/
inductive Shape where
  /-- A value, in a frame of some length at most. -/
  | value (limit : ℕ)
  /-- A block of some length. -/
  | block (len : ℕ)

/-- What is expected where a part was written. -/
def Part.shape : Part → Shape
  | .value limit _ => .value limit
  | .block _ data => .block data.length

/-- The end of the stream was reached. -/
def eof : Error := .io .unexpectedEof

/-- The value of a frame, unless it is a heartbeat. -/
def unpack (bytes : Bytes) : Result (Option Json) :=
  match Json.parse bytes with
  | some j =>
    match j.get "state", j.get "value" with
    | some (.str "busy"), none => .ok none
    | some (.str "ready"), some value => .ok (some value)
    | _, _ => .error .json
  | none => .error .json

/-- Read a frame. -/
def readBytes (limit : ℕ) (input : Bytes) : Result (Bytes × Bytes) :=
  match takeExact 4 input with
  | none => .error eof
  | some (size, input) => do
    ensure (ofBe size ≤ limit) "frame too large"
    match takeExact (ofBe size) input with
    | none => .error eof
    | some r => .ok r

theorem length_readBytes {limit : ℕ} {input bytes rest : Bytes} (h : readBytes limit input = .ok (bytes, rest)) :
    rest.length < input.length := by
  rw [readBytes] at h
  split at h
  · cases h
  · rename_i size input' hsize
    obtain ⟨-, h⟩ := ensure_bind_eq_ok.mp h
    split at h
    · cases h
    · rename_i r hr
      obtain rfl := Except.ok.inj h
      obtain ⟨hlen, rfl⟩ := takeExact_eq_some.mp hsize
      obtain ⟨-, rfl⟩ := takeExact_eq_some.mp hr
      simp only [List.length_append]
      omega

/-- Read a value: heartbeats are skipped. -/
def readValue (limit : ℕ) (input : Bytes) : Result (Json × Bytes) :=
  match _h : readBytes limit input with
  | .error e => .error e
  | .ok (bytes, rest) =>
    match unpack bytes with
    | .error e => .error e
    | .ok (some value) => .ok (value, rest)
    | .ok none => readValue limit rest
termination_by input.length
decreasing_by exact length_readBytes _h

/-- Read a block with its number. -/
def readBlock (len : ℕ) (input : Bytes) : Result ((ℕ × Bytes) × Bytes) :=
  match takeExact 8 input with
  | none => .error eof
  | some (index, input) =>
    match takeExact len input with
    | none => .error eof
    | some (data, rest) => .ok ((ofBe index, data), rest)

/-- Read what is expected. -/
def readPart : Shape → Bytes → Result (Part × Bytes)
  | .value limit, input => do
    let (v, rest) ← readValue limit input
    pure (.value limit v, rest)
  | .block len, input => do
    let ((index, data), rest) ← readBlock len input
    pure (.block index data, rest)

/-- Read one thing after the other, up to the first failure: what was read, and how it ended. -/
def readAll : List Shape → Bytes → List Part × Result Bytes
  | [], input => ([], .ok input)
  | shape :: rest, input =>
    match readPart shape input with
    | .error e => ([], .error e)
    | .ok (part, input) => (part :: (readAll rest input).1, (readAll rest input).2)

/-! ### One frame -/

variable {limit : ℕ} {bytes input rest p : Bytes} {v : Json}

theorem unpack_ready (h : v.depth < Json.maxDepth) : unpack (ready v).render = .ok (some v) := by
  rw [unpack, Json.parse_render ((depth_ready v).trans_le h)]
  simp [ready, Json.get, List.lookup]

theorem unpack_busy : unpack busy.render = .ok none := by
  rw [unpack, Json.parse_render (by decide)]
  simp [busy, Json.get, List.lookup]

theorem length_busy : busy.render.length = 16 := by decide +kernel

/-- A frame that is written is read. -/
theorem readBytes_frame (hle : bytes.length ≤ limit) (hlimit : limit < 256 ^ 4) :
    readBytes limit (frame bytes ++ rest) = .ok (bytes, rest) := by
  have hsize : takeExact 4 (frame bytes ++ rest) = some (be 4 bytes.length, bytes ++ rest) :=
    takeExact_eq_some.mpr ⟨length_be _ _, by rw [frame, List.append_assoc]⟩
  have hof : ofBe (be 4 bytes.length) = bytes.length := ofBe_be (hle.trans_lt hlimit)
  rw [readBytes, hsize]
  dsimp only
  rw [hof, ensure, if_pos hle, takeExact_append]
  rfl

/-- A frame that is cut off is not read. -/
theorem readBytes_cut (hle : bytes.length ≤ limit) (hlimit : limit < 256 ^ 4) (hp : p <+: frame bytes) (hne : p ≠ frame bytes) :
    readBytes limit p = .error eof := by
  have hof : ofBe (be 4 bytes.length) = bytes.length := ofBe_be (hle.trans_lt hlimit)
  obtain ⟨q, hq⟩ := hp
  have hlen : p.length + q.length = 4 + bytes.length := by
    have h := congrArg List.length hq
    rwa [List.length_append, frame, List.length_append, length_be] at h
  have hq0 : q.length ≠ 0 := by
    intro h
    rw [List.length_eq_zero_iff.mp h, List.append_nil] at hq
    exact hne hq
  rw [readBytes]
  cases hsize : takeExact 4 p with
  | none => rfl
  | some r =>
    obtain ⟨size, input⟩ := r
    obtain ⟨hsize4, rfl⟩ := takeExact_eq_some.mp hsize
    -- The length is there, and the text is cut off.
    have hhead : size = be 4 bytes.length := by
      rw [List.append_assoc, frame] at hq
      exact (List.append_inj hq (by rw [hsize4, length_be])).1
    rw [List.length_append] at hlen
    have hcut : takeExact (ofBe size) input = none := by
      rw [hhead, hof, takeExact, if_neg (by omega)]
    dsimp only
    rw [hhead, hof, ensure, if_pos hle, ← hof, ← hhead, hcut]
    rfl

/-! ### One part -/

theorem readValue_error {e : Error} (h : readBytes limit input = .error e) : readValue limit input = .error e := by
  rw [readValue]
  split
  · rename_i e' h'
    rw [h] at h'
    exact congrArg _ (Except.error.inj h').symm
  · rename_i bytes rest h'
    rw [h] at h'
    cases h'

theorem readValue_ready (h : readBytes limit input = .ok (bytes, rest)) (hunpack : unpack bytes = .ok (some v)) :
    readValue limit input = .ok (v, rest) := by
  rw [readValue]
  split
  · rename_i e h'
    rw [h] at h'
    cases h'
  · rename_i bytes' rest' h'
    rw [h] at h'
    obtain ⟨rfl, rfl⟩ := Prod.mk.inj (Except.ok.inj h')
    rw [hunpack]

theorem readValue_busy (h : readBytes limit input = .ok (bytes, rest)) (hunpack : unpack bytes = .ok none) :
    readValue limit input = readValue limit rest := by
  rw [readValue]
  split
  · rename_i e h'
    rw [h] at h'
    cases h'
  · rename_i bytes' rest' h'
    rw [h] at h'
    obtain ⟨rfl, rfl⟩ := Prod.mk.inj (Except.ok.inj h')
    rw [hunpack]

/-- What is cut off of two texts is cut off in the first or in the second. -/
theorem cut_append {a b : Bytes} (hp : p <+: a ++ b) (hne : p ≠ a ++ b) :
    (p <+: a ∧ p ≠ a) ∨ ∃ q, p = a ++ q ∧ q <+: b ∧ q ≠ b := by
  rcases List.prefix_or_prefix_of_prefix hp (List.prefix_append a b) with h | h
  · by_cases heq : p = a
    · subst heq
      refine .inr ⟨[], (List.append_nil _).symm, List.nil_prefix, fun hb => hne ?_⟩
      rw [← hb, List.append_nil]
    · exact .inl ⟨h, heq⟩
  · obtain ⟨q, rfl⟩ := h
    exact .inr ⟨q, rfl, (List.prefix_append_right_inj _).mp hp, fun hq => hne (by rw [hq])⟩

/-- Some heartbeats. -/
def heartbeats (n : ℕ) : Bytes := (List.replicate n (frame busy.render)).flatten

theorem heartbeats_succ (n : ℕ) : heartbeats (n + 1) = frame busy.render ++ heartbeats n := rfl

section

variable (hle : (ready v).render.length ≤ limit) (hlimit : limit < 256 ^ 4)
include hle hlimit

omit hlimit in
theorem length_busy_le : busy.render.length ≤ limit := by
  rw [length_ready] at hle
  rw [length_busy]
  omega

/-- A value is read behind any heartbeats. -/
theorem readValue_written (hdepth : v.depth < Json.maxDepth) (beats : ℕ) (rest : Bytes) :
    readValue limit (heartbeats beats ++ (frame (ready v).render ++ rest)) = .ok (v, rest) := by
  induction beats with
  | zero => exact readValue_ready (readBytes_frame hle hlimit) (unpack_ready hdepth)
  | succ n ih =>
    rw [heartbeats_succ, List.append_assoc, readValue_busy (readBytes_frame (length_busy_le hle) hlimit) unpack_busy]
    exact ih

/-- A value that is cut off, or whose heartbeats are, is not read. -/
theorem readValue_cut (beats : ℕ) (hp : p <+: heartbeats beats ++ frame (ready v).render)
    (hne : p ≠ heartbeats beats ++ frame (ready v).render) : readValue limit p = .error eof := by
  induction beats generalizing p with
  | zero => exact readValue_error (readBytes_cut hle hlimit hp hne)
  | succ n ih =>
    rw [heartbeats_succ, List.append_assoc] at hp hne
    rcases cut_append hp hne with ⟨hcut, hne'⟩ | ⟨q, rfl, hq, hne'⟩
    · exact readValue_error (readBytes_cut (length_busy_le hle) hlimit hcut hne')
    · rw [readValue_busy (readBytes_frame (length_busy_le hle) hlimit) unpack_busy]
      exact ih hq hne'

end

/-- A block is read. -/
theorem readBlock_written {index : ℕ} {data : Bytes} (hindex : index < 256 ^ 8) (rest : Bytes) :
    readBlock data.length (be 8 index ++ data ++ rest) = .ok ((index, data), rest) := by
  have hfirst : takeExact 8 (be 8 index ++ data ++ rest) = some (be 8 index, data ++ rest) :=
    takeExact_eq_some.mpr ⟨length_be _ _, by rw [List.append_assoc]⟩
  rw [readBlock, hfirst]
  dsimp only
  rw [takeExact_append, ofBe_be hindex]

/-- A block that is cut off is not read. -/
theorem readBlock_cut {index : ℕ} {data : Bytes} (hp : p <+: be 8 index ++ data) (hne : p ≠ be 8 index ++ data) :
    readBlock data.length p = .error eof := by
  rcases cut_append hp hne with ⟨hcut, hne'⟩ | ⟨q, rfl, hq, hne'⟩
  · have hlen : p.length < 8 := by
      have hlt := hcut.length_le.lt_of_ne fun h => hne' (hcut.eq_of_length h)
      rwa [length_be] at hlt
    rw [readBlock, takeExact, if_neg (by omega)]
  · have hlen : q.length < data.length := hq.length_le.lt_of_ne fun h => hne' (hq.eq_of_length h)
    have hfirst : takeExact 8 (be 8 index ++ q) = some (be 8 index, q) := takeExact_eq_some.mpr ⟨length_be _ _, rfl⟩
    rw [readBlock, hfirst]
    dsimp only
    rw [takeExact, if_neg (by omega)]

/-- A part is read where it was written. -/
theorem readPart_written {beats : ℕ} {part : Part} (h : Fits (beats, part)) (rest : Bytes) :
    readPart part.shape (heartbeats beats ++ (part.bytes ++ rest)) = .ok (part, rest) := by
  cases part with
  | value limit v => exact bind_eq_ok.mpr ⟨_, readValue_written h.1 h.2.1 h.2.2 beats rest, rfl⟩
  | block index data =>
    obtain ⟨rfl, hindex⟩ := h
    exact bind_eq_ok.mpr ⟨_, readBlock_written hindex rest, rfl⟩

/-- A part that is cut off is not read. -/
theorem readPart_cut {beats : ℕ} {part : Part} (h : Fits (beats, part)) (hp : p <+: heartbeats beats ++ part.bytes)
    (hne : p ≠ heartbeats beats ++ part.bytes) : readPart part.shape p = .error eof := by
  cases part with
  | value limit v =>
    rw [Part.shape, readPart, readValue_cut h.1 h.2.1 beats hp hne]
    rfl
  | block index data =>
    obtain ⟨rfl, -⟩ := h
    rw [Part.shape, readPart, readBlock_cut hp hne]
    rfl

/-! ### The conversation -/

theorem written_cons (beats : ℕ) (part : Part) (l : List (ℕ × Part)) :
    written ((beats, part) :: l) = heartbeats beats ++ part.bytes ++ written l := (List.append_assoc _ _ _).symm

/-- **What is read is what was written.** Whatever the values that may be sent, and the blocks, and however many heartbeats stand in front of the
values: who expects them reads them, in their order, and nothing behind them; and when the stream is cut off anywhere, what has
arrived in full is read, and then the end of the stream is noticed. -/
theorem conversation_exact (l : List (ℕ × Part)) (hl : ∀ e ∈ l, Fits e) :
    (∀ rest, readAll (l.map fun e => e.2.shape) (written l ++ rest) = (l.map Prod.snd, .ok rest)) ∧
      ∀ p, p <+: written l → p ≠ written l →
        ∃ k < l.length, readAll (l.map fun e => e.2.shape) p = ((l.take k).map Prod.snd, .error eof) := by
  induction l with
  | nil => exact ⟨fun rest => rfl, fun p hp hne => absurd (List.prefix_nil.mp hp) hne⟩
  | cons e l ih =>
    obtain ⟨beats, part⟩ := e
    have hfits := hl _ List.mem_cons_self
    obtain ⟨ihread, ihcut⟩ := ih fun e he => hl e (List.mem_cons_of_mem _ he)
    have hread : ∀ rest, readPart part.shape (heartbeats beats ++ part.bytes ++ rest) = .ok (part, rest) := by
      intro rest
      rw [List.append_assoc]
      exact readPart_written hfits rest
    constructor
    · intro rest
      rw [List.map_cons, readAll, written_cons, List.append_assoc, hread]
      simp only [ihread, List.map_cons]
    · intro p hp hne
      rw [written_cons] at hp hne
      rw [List.map_cons, readAll]
      rcases cut_append hp hne with ⟨hcut, hne'⟩ | ⟨q, rfl, hq, hne'⟩
      · refine ⟨0, Nat.succ_pos _, ?_⟩
        rw [readPart_cut hfits hcut hne']
        rfl
      · obtain ⟨k, hk, hall⟩ := ihcut q hq hne'
        refine ⟨k + 1, Nat.succ_lt_succ hk, ?_⟩
        rw [hread]
        simp only [hall, List.take_succ_cons, List.map_cons]

/-- A value behind two heartbeats, and a block. -/
theorem conversation_exact_two :
    readAll [.value controlFrame, .block 1] (written [(2, .value controlFrame (.str "applied")), (0, .block 3 [7])]) =
      ([.value controlFrame (.str "applied"), .block 3 [7]], .ok []) := by
  have hlen : (ready (.str "applied")).render.length ≤ controlFrame := by
    have htext : (ready (.str "applied")).render.length = 35 := by decide +kernel
    rw [htext]
    decide
  have h := (conversation_exact [(2, .value controlFrame (.str "applied")), (0, .block 3 [7])] (by
    intro e he
    rcases List.mem_cons.mp he with rfl | he
    · exact ⟨hlen, by decide, by decide⟩
    · obtain rfl := List.mem_singleton.mp he
      exact ⟨rfl, by decide⟩)).1 []
  rwa [List.append_nil] at h

end Conversation

end Everywhere
