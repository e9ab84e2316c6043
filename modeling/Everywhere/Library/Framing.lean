import Everywhere.Library.Json

/-!
# Framing

Byte strings made of numbers of a fixed width and of parts whose lengths are known, and how they are read back from
the front. What is read is what was written (`takeExact_append`, `ofBe_be`), and what can be read was written so
(`takeExact_eq_some`, `be_ofBe`).
-/

namespace Everywhere.Library

/-! ### Numbers -/

/-- A number in so many bytes, the most significant one first. -/
def be : ℕ → ℕ → Bytes
  | 0, _ => []
  | width + 1, v => be width (v / 256) ++ [UInt8.ofNat v]

/-- The number that some bytes are. -/
def ofBe (bytes : Bytes) : ℕ := bytes.foldl (fun v b => 256 * v + b.toNat) 0

@[simp] theorem length_be (width v : ℕ) : (be width v).length = width := by
  induction width generalizing v with
  | zero => rfl
  | succ width ih => simp [be, ih]

theorem ofBe_concat (bytes : Bytes) (b : UInt8) : ofBe (bytes ++ [b]) = 256 * ofBe bytes + b.toNat := by
  simp [ofBe]

theorem ofBe_be {width v : ℕ} (h : v < 256 ^ width) : ofBe (be width v) = v := by
  induction width generalizing v with
  | zero =>
    obtain rfl : v = 0 := by simpa using h
    rfl
  | succ width ih =>
    have hdiv : v / 256 < 256 ^ width := Nat.div_lt_of_lt_mul (by rwa [pow_succ, mul_comm] at h)
    have hlast : (UInt8.ofNat v).toNat = v % 256 := by simp
    rw [be, ofBe_concat, ih hdiv, hlast]
    omega

theorem be_ofBe (bytes : Bytes) : be bytes.length (ofBe bytes) = bytes := by
  induction bytes using List.reverseRecOn with
  | nil => rfl
  | append_singleton bytes b ih =>
    have hb := b.toNat_lt
    have hdiv : (256 * ofBe bytes + b.toNat) / 256 = ofBe bytes := by omega
    have hlast : UInt8.ofNat (256 * ofBe bytes + b.toNat) = b := by
      apply UInt8.toNat_inj.mp
      simp
    rw [List.length_append, List.length_singleton, be, ofBe_concat, hdiv, hlast, ih]

theorem ofBe_lt (bytes : Bytes) : ofBe bytes < 256 ^ bytes.length := by
  induction bytes using List.reverseRecOn with
  | nil => simp [ofBe]
  | append_singleton bytes b ih =>
    have hb := b.toNat_lt
    rw [List.length_append, List.length_singleton, ofBe_concat, pow_succ]
    omega

/-! ### Parts -/

/-- So many bytes from the front, and the rest. -/
def takeExact (n : ℕ) (input : Bytes) : Option (Bytes × Bytes) :=
  if n ≤ input.length then some (input.take n, input.drop n) else none

theorem takeExact_eq_some {n : ℕ} {input part rest : Bytes} :
    takeExact n input = some (part, rest) ↔ part.length = n ∧ input = part ++ rest := by
  unfold takeExact
  constructor
  · intro h
    split_ifs at h with hn
    obtain ⟨rfl, rfl⟩ := Prod.mk.inj (Option.some.inj h)
    exact ⟨List.length_take_of_le hn, (List.take_append_drop n input).symm⟩
  · rintro ⟨rfl, rfl⟩
    simp

theorem takeExact_append (part rest : Bytes) : takeExact part.length (part ++ rest) = some (part, rest) :=
  takeExact_eq_some.mpr ⟨rfl, rfl⟩

/-! ### Texts -/

theorem utf8_of_ofUtf8 {bytes : Bytes} {s : String} (h : ofUtf8 bytes = some s) : utf8 s = bytes := by
  rw [ofUtf8, String.fromUTF8?] at h
  split_ifs at h with hv
  obtain rfl := Option.some.inj h
  rfl

end Everywhere.Library
