import Mathlib

/-!
# JSON documents

A store that keeps its state as JSON texts depends on two things the text format
gives it. What was written is read back as the same value, and a text cut short by
an interrupted write is never mistaken for a shorter document. This module has the
compact writer (no white space, the escapes of RFC 8259), a reader that also skips
white space, and these two facts.

* `parse_render` — reading what was written gives the value back, unless it nests too deep for the reader.
* `parse_truncated` — no proper prefix of a written object is a document.
* `length_escape_le` — a string grows at most six times when it is quoted.

Texts are bytes, so a cut may fall inside a character. Numbers are naturals. Members
keep the order in which they are written, and `Json.get` finds the last one of a
name, as readers into a map do.
-/

namespace Everywhere.Library

/-- A string of bytes, as a file holds it. -/
abbrev Bytes := List UInt8

/-- The UTF-8 bytes of a string. -/
def utf8 (s : String) : Bytes := s.toByteArray.data.toList

/-- The string with these UTF-8 bytes, if they are well formed. -/
def ofUtf8 (bs : Bytes) : Option String := String.fromUTF8? ⟨bs.toArray⟩

@[simp] theorem ofUtf8_utf8 (s : String) : ofUtf8 (utf8 s) = some s := by
  have h : (⟨(utf8 s).toArray⟩ : ByteArray) = s.toByteArray := by simp [utf8]
  rw [ofUtf8, h, String.fromUTF8?, dif_pos s.isValidUTF8]
  rfl

theorem length_utf8 (s : String) : (utf8 s).length = s.utf8ByteSize := rfl

/-- A JSON value. -/
inductive Json where
  /-- `null`. -/
  | null
  /-- `true` or `false`. -/
  | bool (b : Bool)
  /-- A number. -/
  | num (n : ℕ)
  /-- A string. -/
  | str (s : String)
  /-- An array. -/
  | arr (items : List Json)
  /-- An object, its members in the order written. -/
  | obj (members : List (String × Json))

namespace Json

/-- The member of a name, the last one if there are several. -/
def get (name : String) : Json → Option Json
  | .obj members => members.reverse.lookup name
  | _ => none

/-! ### Writing -/

/-- A hexadecimal digit. -/
def hexDigit (n : ℕ) : UInt8 := UInt8.ofNat (if n < 10 then 48 + n else 87 + n)

/-- A byte inside a quoted string. Only ASCII bytes are ever escaped. -/
def escapeByte (b : UInt8) : Bytes :=
  if b = 34 then [92, 34]
  else if b = 92 then [92, 92]
  else if b = 8 then [92, 98]
  else if b = 12 then [92, 102]
  else if b = 10 then [92, 110]
  else if b = 13 then [92, 114]
  else if b = 9 then [92, 116]
  else if b < 32 then [92, 117, 48, 48, hexDigit (b.toNat / 16), hexDigit (b.toNat % 16)]
  else [b]

/-- The inside of a quoted string. -/
def escape (bs : Bytes) : Bytes := bs.flatMap escapeByte

/-- A quoted string. -/
def quoted (s : String) : Bytes := 34 :: (escape (utf8 s) ++ [34])

/-- A decimal digit as a byte. -/
def digit (d : ℕ) : UInt8 := UInt8.ofNat (48 + d)

/-- The decimal digits of a number. -/
def decimal (n : ℕ) : Bytes :=
  if n = 0 then [48] else (Nat.digits 10 n).reverse.map digit

mutual

/-- The compact text of a value. -/
def render : Json → Bytes
  | .null => [110, 117, 108, 108]
  | .bool true => [116, 114, 117, 101]
  | .bool false => [102, 97, 108, 115, 101]
  | .num n => decimal n
  | .str s => quoted s
  | .arr items => 91 :: (renderItems items ++ [93])
  | .obj members => 123 :: (renderMembers members ++ [125])

/-- The items of an array, separated by commas. -/
def renderItems : List Json → Bytes
  | [] => []
  | [j] => j.render
  | j :: k :: l => j.render ++ 44 :: renderItems (k :: l)

/-- The members of an object, separated by commas. -/
def renderMembers : List (String × Json) → Bytes
  | [] => []
  | [(k, v)] => quoted k ++ 58 :: v.render
  | (k, v) :: m :: l => quoted k ++ 58 :: (v.render ++ 44 :: renderMembers (m :: l))

end

/-! ### Reading -/

/-- A decimal digit. -/
def isDigit (b : UInt8) : Bool := 48 ≤ b && b ≤ 57

/-- White space between tokens. -/
def isSpace (b : UInt8) : Bool := b = 32 || b = 10 || b = 13 || b = 9

/-- The text after leading white space. -/
def skip (bs : Bytes) : Bytes := bs.dropWhile isSpace

/-- The value of a hexadecimal digit. -/
def unhex (b : UInt8) : Option ℕ :=
  if 48 ≤ b && b ≤ 57 then some (b.toNat - 48)
  else if 97 ≤ b && b ≤ 102 then some (b.toNat - 87)
  else if 65 ≤ b && b ≤ 70 then some (b.toNat - 55)
  else none

/-- The bytes an escape stands for: the byte after the backslash, and the text that
follows it. A `\u` escape stands for one character; the surrogate halves stand for none. -/
def unescapeOne : UInt8 → Bytes → Option (Bytes × Bytes)
  | 34, r => some ([34], r)
  | 92, r => some ([92], r)
  | 47, r => some ([47], r)
  | 98, r => some ([8], r)
  | 102, r => some ([12], r)
  | 110, r => some ([10], r)
  | 114, r => some ([13], r)
  | 116, r => some ([9], r)
  | 117, a :: b :: c :: d :: r => do
    let n := (((← unhex a) * 16 + (← unhex b)) * 16 + (← unhex c)) * 16 + (← unhex d)
    if n.isValidChar then some (utf8 (String.singleton (Char.ofNat n)), r) else none
  | _, _ => none

/-- The bytes of a quoted string after its opening quote, and the text after its
closing quote. The number bounds the bytes read. -/
def unescape : ℕ → Bytes → Option (Bytes × Bytes)
  | 0, _ => none
  | _ + 1, [] => none
  | _ + 1, 34 :: r => some ([], r)
  | _ + 1, [92] => none
  | n + 1, 92 :: b :: r => do
    let (one, r) ← unescapeOne b r
    let (more, r) ← unescape n r
    some (one ++ more, r)
  | n + 1, b :: r =>
    if b < 32 then none else do
      let (more, r) ← unescape n r
      some (b :: more, r)

/-- A string after its opening quote. -/
def string (n : ℕ) (bs : Bytes) : Option (String × Bytes) := do
  let (raw, r) ← unescape n bs
  let s ← ofUtf8 raw
  some (s, r)

/-- A number: its digits, without a superfluous leading zero. -/
def number (bs : Bytes) : Option (ℕ × Bytes) :=
  let digits := bs.takeWhile isDigit
  if digits = [] || (digits.head? = some 48 && digits ≠ [48]) then none
  else some (digits.foldl (fun n b => n * 10 + (b.toNat - 48)) 0, bs.dropWhile isDigit)

mutual

/-- A value at the head of a text, and what follows it. -/
def value : ℕ → Bytes → Option (Json × Bytes)
  | 0, _ => none
  | n + 1, bs =>
    match skip bs with
    | 110 :: 117 :: 108 :: 108 :: r => some (.null, r)
    | 116 :: 114 :: 117 :: 101 :: r => some (.bool true, r)
    | 102 :: 97 :: 108 :: 115 :: 101 :: r => some (.bool false, r)
    | 34 :: r => (string n r).map fun (s, r) => (.str s, r)
    | 91 :: r =>
      match skip r with
      | 93 :: r => some (.arr [], r)
      | r => (items n r).map fun (l, r) => (.arr l, r)
    | 123 :: r =>
      match skip r with
      | 125 :: r => some (.obj [], r)
      | r => (members n r).map fun (l, r) => (.obj l, r)
    | r => (number r).map fun (k, r) => (.num k, r)

/-- The items of an array after its opening bracket, at least one. -/
def items : ℕ → Bytes → Option (List Json × Bytes)
  | 0, _ => none
  | n + 1, bs => do
    let (j, r) ← value n bs
    match skip r with
    | 44 :: r => (items n r).map fun (l, r) => (j :: l, r)
    | 93 :: r => some ([j], r)
    | _ => none

/-- The members of an object after its opening brace, at least one. -/
def members : ℕ → Bytes → Option (List (String × Json) × Bytes)
  | 0, _ => none
  | n + 1, bs =>
    match skip bs with
    | 34 :: r => do
      let (k, r) ← string n r
      match skip r with
      | 58 :: r => do
        let (v, r) ← value n r
        match skip r with
        | 44 :: r => (members n r).map fun (l, r) => ((k, v) :: l, r)
        | 125 :: r => some ([(k, v)], r)
        | _ => none
      | _ => none
    | _ => none

end

mutual

/-- How deep arrays and objects are nested in a value. -/
def depth : Json → ℕ
  | .arr l => depthItems l + 1
  | .obj l => depthMembers l + 1
  | _ => 0

/-- How deep they are nested in the items of an array. -/
def depthItems : List Json → ℕ
  | [] => 0
  | j :: l => max j.depth (depthItems l)

/-- How deep they are nested in the members of an object. -/
def depthMembers : List (String × Json) → ℕ
  | [] => 0
  | (_, v) :: l => max v.depth (depthMembers l)

end

/-- The deepest value that is read. -/
def maxDepth : ℕ := 127

/-- The document a text holds, with nothing but white space after it. The reader gives up when a value is nested deeper
than it counts. -/
def parse (bs : Bytes) : Option Json := do
  let (j, r) ← value (bs.length + 1) bs
  if skip r = [] ∧ j.depth ≤ maxDepth then some j else none

theorem depthItems_le {l : List Json} {n : ℕ} : depthItems l ≤ n ↔ ∀ j ∈ l, j.depth ≤ n := by
  induction l with
  | nil => simp [depthItems]
  | cons j l ih => rw [depthItems, max_le_iff, ih, List.forall_mem_cons]

theorem depthMembers_le {l : List (String × Json)} {n : ℕ} : depthMembers l ≤ n ↔ ∀ m ∈ l, m.2.depth ≤ n := by
  induction l with
  | nil => simp [depthMembers]
  | cons m l ih => rw [depthMembers, max_le_iff, ih, List.forall_mem_cons]

theorem depth_arr_le {l : List Json} {n : ℕ} : (arr l).depth ≤ n + 1 ↔ ∀ j ∈ l, j.depth ≤ n := by
  rw [depth, Nat.add_le_add_iff_right, depthItems_le]

theorem depth_obj_le {l : List (String × Json)} {n : ℕ} : (obj l).depth ≤ n + 1 ↔ ∀ m ∈ l, m.2.depth ≤ n := by
  rw [depth, Nat.add_le_add_iff_right, depthMembers_le]

/-! ### Tokens are read back -/

theorem utf8_control : ∀ n < 32, utf8 (String.singleton (Char.ofNat n)) = [UInt8.ofNat n] := by
  decide

theorem unhex_hexDigit : ∀ n < 16, unhex (hexDigit n) = some n := by decide

theorem unescapeOne_control {b : UInt8} (hb : b < 32) (r : Bytes) :
    unescapeOne 117 (48 :: 48 :: hexDigit (b.toNat / 16) :: hexDigit (b.toNat % 16) :: r) =
      some ([b], r) := by
  have hlt : b.toNat < 32 := UInt8.lt_iff_toNat_lt.mp hb
  have h0 : unhex 48 = some 0 := by decide
  have hchar : Nat.isValidChar b.toNat := Or.inl (by omega)
  have hsum : ((0 * 16 + 0) * 16 + b.toNat / 16) * 16 + b.toNat % 16 = b.toNat := by omega
  simp only [unescapeOne, h0, unhex_hexDigit _ (show b.toNat / 16 < 16 by omega),
    unhex_hexDigit _ (show b.toNat % 16 < 16 by omega), Option.bind_eq_bind, Option.bind_some, hsum]
  rw [if_pos hchar, utf8_control _ hlt, UInt8.ofNat_toNat]

theorem unescape_escaped {b : UInt8} {r r' one : Bytes} (h : unescapeOne b r = some (one, r')) (n : ℕ) :
    unescape (n + 1) (92 :: b :: r) = (unescape n r').map fun (more, r) => (one ++ more, r) := by
  rw [unescape, h]
  simp only [Option.bind_eq_bind, Option.bind_some]
  cases unescape n r' <;> rfl

theorem unescape_plain {b : UInt8} (hq : b ≠ 34) (hs : b ≠ 92) (hc : ¬ b < 32) (n : ℕ) (r : Bytes) :
    unescape (n + 1) (b :: r) = (unescape n r).map fun (more, r) => (b :: more, r) := by
  rw [unescape.eq_def]
  split <;> simp_all
  rename_i h
  obtain ⟨rfl, rfl⟩ := h
  rw [if_neg (UInt8.not_lt.mpr hc)]
  cases unescape _ r <;> rfl

/-- An escaped byte is read back as the byte. -/
theorem unescape_escapeByte (b : UInt8) (n : ℕ) (r : Bytes) :
    unescape (n + 1) (escapeByte b ++ r) = (unescape n r).map fun (more, r) => (b :: more, r) := by
  unfold escapeByte
  split_ifs with h1 h2 h3 h4 h5 h6 h7 hc
  · rw [h1]; exact unescape_escaped (b := 34) (r := r) rfl n
  · rw [h2]; exact unescape_escaped (b := 92) (r := r) rfl n
  · rw [h3]; exact unescape_escaped (b := 98) (r := r) rfl n
  · rw [h4]; exact unescape_escaped (b := 102) (r := r) rfl n
  · rw [h5]; exact unescape_escaped (b := 110) (r := r) rfl n
  · rw [h6]; exact unescape_escaped (b := 114) (r := r) rfl n
  · rw [h7]; exact unescape_escaped (b := 116) (r := r) rfl n
  · exact unescape_escaped (unescapeOne_control hc r) n
  · exact unescape_plain h1 h2 hc n r

theorem one_le_length_escapeByte (b : UInt8) : 1 ≤ (escapeByte b).length := by
  unfold escapeByte
  split_ifs <;> simp

theorem length_escapeByte_le (b : UInt8) : (escapeByte b).length ≤ 6 := by
  unfold escapeByte
  split_ifs <;> simp

/-- Quoting makes a string at most six times longer. -/
theorem length_escape_le (bs : Bytes) : (escape bs).length ≤ 6 * bs.length := by
  induction bs with
  | nil => simp [escape]
  | cons b bs ih =>
    have := length_escapeByte_le b
    simp only [escape, List.flatMap_cons, List.length_append, List.length_cons] at ih ⊢
    omega

theorem length_quoted_le (s : String) : (quoted s).length ≤ 6 * s.utf8ByteSize + 2 := by
  have := length_escape_le (utf8 s)
  rw [length_utf8] at this
  simp only [quoted, List.length_cons, List.length_append, List.length_nil]
  omega

/-- A list is at least as long as each of its items. -/
theorem length_render_le_renderItems {j : Json} {l : List Json} (h : j ∈ l) :
    j.render.length ≤ (renderItems l).length := by
  induction l with
  | nil => cases h
  | cons k l ih =>
    cases l with
    | nil =>
      rw [List.mem_singleton.mp h]
      exact le_rfl
    | cons k' l =>
      rw [renderItems, List.length_append, List.length_cons]
      rcases List.mem_cons.mp h with rfl | h
      · omega
      · have := ih h
        omega

/-- A list of long items is long. -/
theorem length_le_length_renderItems {n : ℕ} {l : List Json} (h : ∀ j ∈ l, n ≤ j.render.length) :
    n * l.length ≤ (renderItems l).length := by
  induction l with
  | nil => simp
  | cons j l ih =>
    have hj := h j (by simp)
    have hl := ih fun k hk => h k (by simp [hk])
    cases l with
    | nil =>
      rw [renderItems]
      simpa using hj
    | cons k l =>
      rw [renderItems, List.length_append]
      simp only [List.length_cons, Nat.mul_succ] at hl ⊢
      omega

theorem unescape_escape (bs : Bytes) {n : ℕ} (hn : (escape bs).length < n) (r : Bytes) :
    unescape n (escape bs ++ 34 :: r) = some (bs, r) := by
  induction bs generalizing n with
  | nil =>
    obtain ⟨n, rfl⟩ : ∃ m, n = m + 1 := ⟨n - 1, by omega⟩
    simp [escape, unescape]
  | cons b bs ih =>
    obtain ⟨n, rfl⟩ : ∃ m, n = m + 1 := ⟨n - 1, by omega⟩
    have hb := one_le_length_escapeByte b
    simp only [escape, List.flatMap_cons, List.length_append] at hn
    have h := ih (n := n) (by simp only [escape]; omega)
    rw [escape, List.flatMap_cons, List.append_assoc, unescape_escapeByte]
    rw [escape] at h
    rw [h, Option.map_some]

/-- A quoted string is read back. -/
theorem string_quoted (s : String) {n : ℕ} (hn : (quoted s).length ≤ n + 1) (r : Bytes) :
    string n (escape (utf8 s) ++ 34 :: r) = some (s, r) := by
  have h := unescape_escape (utf8 s) (n := n) (by simp [quoted] at hn; omega) r
  simp [string, h]

theorem toNat_digit {d : ℕ} (h : d < 10) : (digit d).toNat = 48 + d := by
  rw [digit, UInt8.toNat_ofNat']
  omega

theorem isDigit_digit {d : ℕ} (h : d < 10) : isDigit (digit d) = true := by
  have := toNat_digit h
  simp only [isDigit, Bool.and_eq_true, decide_eq_true_eq, UInt8.le_iff_toNat_le, this]
  exact ⟨by simp, by simp; omega⟩

theorem foldl_digits (l : List ℕ) (h : ∀ d ∈ l, d < 10) :
    (l.reverse.map digit).foldl (fun n b => n * 10 + (b.toNat - 48)) 0 = Nat.ofDigits 10 l := by
  induction l with
  | nil => rfl
  | cons d l ih =>
    have hd := toNat_digit (h d (by simp))
    rw [List.reverse_cons, List.map_append, List.foldl_append, ih fun x hx => h x (by simp [hx])]
    simp only [List.map_cons, List.map_nil, List.foldl_cons, List.foldl_nil, hd, Nat.ofDigits_cons]
    omega

theorem decimal_ne_nil (n : ℕ) : decimal n ≠ [] := by
  unfold decimal
  split_ifs with h
  · simp
  · simp [Nat.digits_ne_nil_iff_ne_zero.mpr h]

theorem isDigit_of_mem_decimal {n : ℕ} {b : UInt8} (h : b ∈ decimal n) : isDigit b = true := by
  unfold decimal at h
  split_ifs at h
  · simp only [List.mem_singleton] at h
    rw [h]; decide
  · obtain ⟨d, hd, rfl⟩ := List.mem_map.mp h
    exact isDigit_digit (Nat.digits_lt_base (by omega) (List.mem_reverse.mp hd))

/-- The text does not go on with a digit. -/
def NoDigit (r : Bytes) : Prop := ∀ b ∈ r.head?, isDigit b = false

theorem takeWhile_decimal (n : ℕ) {r : Bytes} (hr : NoDigit r) :
    (decimal n ++ r).takeWhile isDigit = decimal n ∧ (decimal n ++ r).dropWhile isDigit = r := by
  have hall : ∀ b ∈ decimal n, isDigit b = true := fun b => isDigit_of_mem_decimal
  rw [List.takeWhile_append_of_pos hall, List.dropWhile_append_of_pos hall]
  cases r with
  | nil => simp
  | cons b r =>
    have hb : isDigit b = false := hr b rfl
    simp [hb]

theorem head_decimal {n : ℕ} (h : (decimal n).head? = some 48) : decimal n = [48] := by
  unfold decimal at h ⊢
  split_ifs with hn
  · rfl
  · rw [if_neg hn] at h
    have hne : Nat.digits 10 n ≠ [] := Nat.digits_ne_nil_iff_ne_zero.mpr hn
    have hlast := Nat.getLast_digit_ne_zero 10 hn
    rw [List.head?_map, List.head?_reverse, List.getLast?_eq_some_getLast hne] at h
    simp only [Option.map_some, Option.some.injEq] at h
    have hlt := Nat.digits_lt_base (m := n) (b := 10) (by omega) (List.getLast_mem hne)
    have := toNat_digit hlt
    rw [h] at this
    simp at this
    exact absurd (by omega) hlast

/-- A number is read back, when no digit follows it. -/
theorem number_decimal (n : ℕ) {r : Bytes} (hr : NoDigit r) :
    number (decimal n ++ r) = some (n, r) := by
  obtain ⟨ht, hd⟩ := takeWhile_decimal n hr
  have hval : (decimal n).foldl (fun n b => n * 10 + (b.toNat - 48)) 0 = n := by
    unfold decimal
    split_ifs with h
    · subst h; decide
    · rw [foldl_digits _ fun d hd => Nat.digits_lt_base (by omega) hd, Nat.ofDigits_digits]
  have hif : ¬ ((decide (decimal n = []) ||
      (decide ((decimal n).head? = some 48) && decide (decimal n ≠ [48]))) = true) := by
    simpa [decimal_ne_nil] using fun h => head_decimal h
  simp only [number, ht, hd]
  rw [if_neg hif, hval]

/-! ### Documents are read back -/

theorem skip_of_not_space {b : UInt8} {r : Bytes} (h : isSpace b = false) : skip (b :: r) = b :: r := by
  simp [skip, h]

theorem skip_decimal (n : ℕ) (r : Bytes) : skip (decimal n ++ r) = decimal n ++ r := by
  cases hd : decimal n with
  | nil => exact absurd hd (decimal_ne_nil n)
  | cons b l =>
    have hb : isDigit b = true := isDigit_of_mem_decimal (n := n) (by simp [hd])
    refine skip_of_not_space ?_
    have : ∀ b : UInt8, isDigit b = true → isSpace b = false := by
      intro b hb
      simp only [isDigit, Bool.and_eq_true, decide_eq_true_eq, UInt8.le_iff_toNat_le] at hb
      simp only [isSpace, Bool.or_eq_false_iff, decide_eq_false_iff_not, ← UInt8.toNat_inj]
      simp at hb ⊢
      omega
    exact this b hb

/-- A text that starts with a digit is read as a number. -/
theorem value_digit {p : Bytes} {b : UInt8} {l : Bytes} (h : skip p = b :: l) (hb : isDigit b = true) (n : ℕ) :
    value (n + 1) p = (number (b :: l)).map fun (k, r) => (.num k, r) := by
  rw [value, h]
  split <;> simp_all [isDigit]

theorem one_le_length_render (j : Json) : 1 ≤ j.render.length := by
  cases j with
  | bool b => cases b <;> simp [render]
  | num n =>
    exact List.length_pos_iff.mpr (decimal_ne_nil n)
  | _ => simp [render, quoted]

theorem renderItems_cons (j : Json) (l : List Json) :
    renderItems (j :: l) = j.render ++ (if l = [] then [] else 44 :: renderItems l) := by
  cases l <;> simp [renderItems]

/-- A value's text starts with a byte that is neither white space nor a closing bracket. -/
theorem render_head (j : Json) :
    ∃ b l, j.render = b :: l ∧ isSpace b = false ∧ b ≠ 93 ∧ b ≠ 125 := by
  cases j with
  | bool b => cases b <;> exact ⟨_, _, rfl, by decide, by decide, by decide⟩
  | num n =>
    obtain ⟨b, l, h⟩ := List.exists_cons_of_ne_nil (decimal_ne_nil n)
    have hb : isDigit b = true := isDigit_of_mem_decimal (n := n) (by simp [h])
    simp only [isDigit, Bool.and_eq_true, decide_eq_true_eq, UInt8.le_iff_toNat_le] at hb
    refine ⟨b, l, h, ?_, ?_, ?_⟩
    · simp only [isSpace, Bool.or_eq_false_iff, decide_eq_false_iff_not, ← UInt8.toNat_inj]
      simp at hb ⊢
      omega
    · rintro rfl; simp at hb
    · rintro rfl; simp at hb
  | _ => exact ⟨_, _, rfl, by decide, by decide, by decide⟩

theorem skip_render (j : Json) (r : Bytes) : skip (j.render ++ r) = j.render ++ r := by
  obtain ⟨b, l, h, hs, -⟩ := render_head j
  rw [h]
  exact skip_of_not_space hs

theorem value_quote (n : ℕ) (r : Bytes) :
    value (n + 1) (34 :: r) = (string n r).map fun (s, r) => (.str s, r) := by
  rw [value, skip_of_not_space (by decide)]
  rfl

theorem value_array {p r : Bytes} {b : UInt8} {l : Bytes} (hp : skip p = 91 :: r) (hr : skip r = b :: l)
    (hb : b ≠ 93) (n : ℕ) : value (n + 1) p = (items n (b :: l)).map fun (l, r) => (.arr l, r) := by
  rw [value, hp]
  simp only [hr]
  split
  · rename_i h; exact absurd (List.cons.inj h).1 hb
  · rfl

theorem value_object {p r : Bytes} {b : UInt8} {l : Bytes} (hp : skip p = 123 :: r) (hr : skip r = b :: l)
    (hb : b ≠ 125) (n : ℕ) : value (n + 1) p = (members n (b :: l)).map fun (l, r) => (.obj l, r) := by
  rw [value, hp]
  simp only [hr]
  split
  · rename_i h; exact absurd (List.cons.inj h).1 hb
  · rfl

theorem noDigit_cons {b : UInt8} (h : isDigit b = false) (r : Bytes) : NoDigit (b :: r) := by
  intro c hc
  obtain rfl : b = c := by simpa using hc
  exact h

theorem value_number {n m : ℕ} {r : Bytes} (hr : NoDigit r) :
    value (m + 1) (decimal n ++ r) = some (.num n, r) := by
  obtain ⟨b, l, h⟩ := List.exists_cons_of_ne_nil (decimal_ne_nil n)
  have hb : isDigit b = true := isDigit_of_mem_decimal (n := n) (by simp [h])
  have hskip := skip_decimal n r
  have hnum := number_decimal n hr
  rw [h, List.cons_append] at hskip hnum ⊢
  rw [value_digit hskip hb m, hnum]
  rfl

mutual

/-- A written value is read back, and what follows it is left. -/
theorem value_render : ∀ (j : Json) (n : ℕ) (r : Bytes), j.render.length ≤ n → NoDigit r →
    value n (j.render ++ r) = some (j, r)
  | j, 0, _, hn, _ => by have := one_le_length_render j; omega
  | .null, n + 1, r, _, _ => by rw [value, skip_render]; rfl
  | .bool true, n + 1, r, _, _ => by rw [value, skip_render]; rfl
  | .bool false, n + 1, r, _, _ => by rw [value, skip_render]; rfl
  | .num k, n + 1, r, _, hr => by rw [render]; exact value_number hr
  | .str s, n + 1, r, hn, _ => by
    rw [render] at hn ⊢
    rw [quoted, List.cons_append, value_quote, List.append_assoc, List.singleton_append,
      string_quoted s hn]
    rfl
  | .arr [], n + 1, r, _, _ => by
    rw [value, skip_render]
    simp [render, renderItems, skip_of_not_space (show isSpace 93 = false by decide)]
  | .arr (j :: l), n + 1, r, hn, _ => by
    obtain ⟨b, t, hb, hs, hc, -⟩ := render_head j
    have hcons : ∃ t, renderItems (j :: l) ++ 93 :: r = b :: t := by
      rw [renderItems_cons, hb]; exact ⟨_, rfl⟩
    obtain ⟨t, ht⟩ := hcons
    rw [render] at hn ⊢
    simp only [List.length_cons, List.length_append, List.length_nil] at hn
    rw [List.cons_append, List.append_assoc, List.singleton_append,
      value_array (skip_of_not_space (by decide)) (by rw [ht]; exact skip_of_not_space hs) hc, ← ht,
      items_render (j :: l) n r (by omega) (by simp)]
    rfl
  | .obj [], n + 1, r, _, _ => by
    rw [value, skip_render]
    simp [render, renderMembers, skip_of_not_space (show isSpace 125 = false by decide)]
  | .obj ((k, v) :: l), n + 1, r, hn, _ => by
    have hcons : ∃ t, renderMembers ((k, v) :: l) ++ 125 :: r = 34 :: t := by
      cases l <;> exact ⟨_, rfl⟩
    obtain ⟨t, ht⟩ := hcons
    rw [render] at hn ⊢
    simp only [List.length_cons, List.length_append, List.length_nil] at hn
    rw [List.cons_append, List.append_assoc, List.singleton_append,
      value_object (skip_of_not_space (by decide)) (by rw [ht]; exact skip_of_not_space (by decide))
        (by decide), ← ht, members_render ((k, v) :: l) n r (by omega) (by simp)]
    rfl

theorem items_render : ∀ (l : List Json) (n : ℕ) (r : Bytes), (renderItems l).length < n → l ≠ [] →
    items n (renderItems l ++ 93 :: r) = some (l, r)
  | [], _, _, _, h => absurd rfl h
  | _ :: _, 0, _, hn, _ => by omega
  | [j], n + 1, r, hn, _ => by
    rw [renderItems] at hn ⊢
    rw [items, value_render j n _ (by omega) (noDigit_cons (by decide) r)]
    simp [skip_of_not_space (show isSpace 93 = false by decide)]
  | j :: k :: l, n + 1, r, hn, _ => by
    rw [renderItems] at hn ⊢
    simp only [List.length_append, List.length_cons] at hn
    rw [List.append_assoc, List.cons_append, items,
      value_render j n _ (by omega) (noDigit_cons (by decide) _)]
    simp only [Option.bind_eq_bind, Option.bind_some, skip_of_not_space (show isSpace 44 = false by decide)]
    rw [items_render (k :: l) n r (by have := one_le_length_render j; omega) (by simp)]
    rfl

theorem members_render : ∀ (l : List (String × Json)) (n : ℕ) (r : Bytes),
    (renderMembers l).length < n → l ≠ [] → members n (renderMembers l ++ 125 :: r) = some (l, r)
  | [], _, _, _, h => absurd rfl h
  | _ :: _, 0, _, hn, _ => by omega
  | [(k, v)], n + 1, r, hn, _ => by
    rw [renderMembers] at hn ⊢
    simp only [List.length_append, List.length_cons] at hn
    rw [quoted, List.cons_append, List.cons_append, List.append_assoc, List.append_assoc,
      List.singleton_append, List.cons_append, members, skip_of_not_space (by decide)]
    simp only [string_quoted k (show (quoted k).length ≤ n + 1 by omega), Option.bind_eq_bind,
      Option.bind_some, skip_of_not_space (show isSpace 58 = false by decide)]
    rw [value_render v n _ (by omega) (noDigit_cons (by decide) r)]
    simp [skip_of_not_space (show isSpace 125 = false by decide)]
  | (k, v) :: m :: l, n + 1, r, hn, _ => by
    rw [renderMembers] at hn ⊢
    simp only [List.length_append, List.length_cons] at hn
    rw [quoted, List.cons_append, List.cons_append, List.append_assoc, List.append_assoc,
      List.singleton_append, List.cons_append, List.append_assoc, List.cons_append, members,
      skip_of_not_space (by decide)]
    simp only [string_quoted k (show (quoted k).length ≤ n + 1 by omega), Option.bind_eq_bind,
      Option.bind_some, skip_of_not_space (show isSpace 58 = false by decide)]
    rw [value_render v n _ (by omega) (noDigit_cons (by decide) _)]
    simp only [Option.bind_some, skip_of_not_space (show isSpace 44 = false by decide)]
    rw [members_render (m :: l) n r (by omega) (by simp)]
    rfl

end

theorem value_render_self (j : Json) : value (j.render.length + 1) j.render = some (j, []) := by
  have h := value_render j (j.render.length + 1) [] (by omega) (by simp [NoDigit])
  rwa [List.append_nil] at h

/-- **What was written is read back**, unless it nests too deep. -/
theorem parse_render_eq (j : Json) : parse j.render = if j.depth ≤ maxDepth then some j else none := by
  simp [parse, value_render_self, skip]

theorem parse_render {j : Json} (h : j.depth ≤ maxDepth) : parse j.render = some j := by
  rw [parse_render_eq, if_pos h]

/-- Two values with the same text are the same. -/
theorem render_injective : Function.Injective render := by
  intro j k h
  have hj := value_render_self j
  rw [h, value_render_self] at hj
  exact (Prod.mk.inj (Option.some.inj hj)).1.symm

/-! ### Truncated texts

What a reader found in a text it finds in every longer text too, except that more
digits may follow a number at the very end. A proper prefix of an object that read as
a document would therefore be read as that document, with something left over, in the
whole text, where nothing is left over. -/

theorem skip_append {p r : Bytes} {b : UInt8} (h : skip p = b :: r) (q : Bytes) :
    skip (p ++ q) = b :: (r ++ q) := by
  induction p with
  | nil => simp [skip] at h
  | cons c p ih =>
    by_cases hc : isSpace c
    · have h' : skip p = b :: r := by simpa [skip, hc] using h
      simpa [skip, hc] using ih h'
    · obtain ⟨rfl, rfl⟩ : c = b ∧ p = r := by simpa [skip, hc] using h
      simp [skip, hc]

theorem unescapeOne_append {b : UInt8} {p r one : Bytes} (h : unescapeOne b p = some (one, r)) (q : Bytes) :
    unescapeOne b (p ++ q) = some (one, r ++ q) := by
  unfold unescapeOne at h
  split at h <;> try simp_all [unescapeOne]
  simp only [Option.bind_eq_some_iff] at h
  obtain ⟨a, ha, b', hb, c, hc, d, hd, h⟩ := h
  split_ifs at h with hv
  simp only [Option.some.injEq, Prod.mk.injEq] at h
  simp [ha, hb, hc, hd, hv, h]

theorem unescape_control {b : UInt8} (hq : b ≠ 34) (hs : b ≠ 92) (hc : b < 32) (n : ℕ) (r : Bytes) :
    unescape (n + 1) (b :: r) = none := by
  rw [unescape.eq_def]
  split <;> simp_all

theorem unescape_append {n m : ℕ} {p r bs : Bytes} (h : unescape n p = some (bs, r)) (hm : n ≤ m) (q : Bytes) :
    unescape m (p ++ q) = some (bs, r ++ q) := by
  induction n generalizing m p r bs with
  | zero => simp [unescape] at h
  | succ n ih =>
    obtain ⟨m, rfl⟩ : ∃ k, m = k + 1 := ⟨m - 1, by omega⟩
    cases p with
    | nil => simp [unescape] at h
    | cons b p =>
      by_cases hq : b = 34
      · subst hq
        simp only [unescape, Option.some.injEq, Prod.mk.injEq] at h
        simp [unescape, h]
      by_cases hs : b = 92
      · subst hs
        cases p with
        | nil => simp [unescape] at h
        | cons c p =>
          cases hone : unescapeOne c p with
          | none => simp [unescape, hone] at h
          | some x =>
            obtain ⟨one, r₁⟩ := x
            rw [unescape_escaped hone, Option.map_eq_some_iff] at h
            obtain ⟨⟨more, r₂⟩, h₂, he⟩ := h
            obtain ⟨rfl, rfl⟩ := Prod.mk.injEq .. ▸ he
            rw [List.cons_append, List.cons_append, unescape_escaped (unescapeOne_append hone q),
              ih h₂ (by omega)]
            rfl
      by_cases hc : b < 32
      · rw [unescape_control hq hs hc] at h
        cases h
      · rw [unescape_plain hq hs hc, Option.map_eq_some_iff] at h
        obtain ⟨⟨more, r₂⟩, h₂, he⟩ := h
        obtain ⟨rfl, rfl⟩ := Prod.mk.injEq .. ▸ he
        rw [List.cons_append, unescape_plain hq hs hc, ih h₂ (by omega)]
        rfl

theorem string_append {n m : ℕ} {p r : Bytes} {s : String} (h : string n p = some (s, r)) (hm : n ≤ m)
    (q : Bytes) : string m (p ++ q) = some (s, r ++ q) := by
  simp only [string, Option.bind_eq_bind, Option.bind_eq_some_iff] at h
  obtain ⟨⟨bs, r₁⟩, h₁, s₁, h₂, he⟩ := h
  simp only [Option.some.injEq, Prod.mk.injEq] at he
  obtain ⟨rfl, rfl⟩ := he
  simp [string, unescape_append h₁ hm q, h₂]

theorem number_append {p r : Bytes} {k : ℕ} (h : number p = some (k, r)) (hr : r ≠ []) (q : Bytes) :
    number (p ++ q) = some (k, r ++ q) := by
  obtain ⟨b, r', rfl⟩ := List.exists_cons_of_ne_nil hr
  have hd : p.dropWhile isDigit = b :: r' := by
    unfold number at h
    simp only at h
    split_ifs at h
    exact (Prod.mk.inj (Option.some.inj h)).2
  have hb : isDigit b = false := by
    have := List.head?_dropWhile_not isDigit p
    simpa [hd] using this
  have hp := List.takeWhile_append_dropWhile (p := isDigit) (l := p)
  have hall : ∀ c ∈ p.takeWhile isDigit, isDigit c = true := fun c hc => List.mem_takeWhile_imp hc
  have ht : (p ++ q).takeWhile isDigit = p.takeWhile isDigit := by
    conv_lhs => rw [← hp, hd, List.append_assoc, List.cons_append, List.takeWhile_append_of_pos hall]
    simp [hb]
  have hd' : (p ++ q).dropWhile isDigit = b :: (r' ++ q) := by
    conv_lhs => rw [← hp, hd, List.append_assoc, List.cons_append, List.dropWhile_append_of_pos hall]
    simp [hb]
  unfold number at h ⊢
  simp only [ht, hd', hd] at h ⊢
  split_ifs at h ⊢
  simp only [Option.some.injEq, Prod.mk.injEq] at h
  simp [h.1]

/-- Only a number at the very end of a text may read differently when more follows. -/
def Closed (j : Json) (r : Bytes) : Prop := r ≠ [] ∨ ∀ k, j ≠ .num k

theorem isDigit_of_number {b : UInt8} {l r : Bytes} {k : ℕ} (h : number (b :: l) = some (k, r)) :
    isDigit b = true := by
  by_contra hb
  simp [number, hb] at h

theorem items_nil (n : ℕ) : items n [] = none := by
  cases n with
  | zero => rfl
  | succ n => cases n <;> rfl

theorem members_nil (n : ℕ) : members n [] = none := by cases n <;> rfl

/-- The statement of `value_append` at a bound on the depth read. -/
def AppendAt (n : ℕ) : Prop :=
  ∀ m, n ≤ m → ∀ (p q r : Bytes),
    (∀ j, value n p = some (j, r) → Closed j r → value m (p ++ q) = some (j, r ++ q)) ∧
    (∀ l, items n p = some (l, r) → items m (p ++ q) = some (l, r ++ q)) ∧
    ∀ l, members n p = some (l, r) → members m (p ++ q) = some (l, r ++ q)

theorem value_append (n : ℕ) : AppendAt n := by
  induction n with
  | zero => intro m _ p q r; simp [value, items, members]
  | succ n ih =>
    intro m hm p q r
    obtain ⟨m, rfl⟩ : ∃ k, m = k + 1 := ⟨m - 1, by omega⟩
    have ih := ih m (by omega)
    refine ⟨fun j h hc => ?_, fun l h => ?_, fun l h => ?_⟩
    · rw [value] at h
      split at h
      case h_1 hs | h_2 hs | h_3 hs =>
        obtain ⟨rfl, rfl⟩ := Prod.mk.injEq .. ▸ Option.some.inj h
        rw [value, skip_append hs]; rfl
      case h_4 r₁ hs =>
        obtain ⟨⟨s, r₂⟩, h₂, he⟩ := Option.map_eq_some_iff.mp h
        obtain ⟨rfl, rfl⟩ := Prod.mk.injEq .. ▸ he
        rw [value, skip_append hs]
        simp only [string_append h₂ (by omega : n ≤ m) q, Option.map_some]
      case h_5 r₁ hs =>
        split at h
        · rename_i r₂ hs₂
          obtain ⟨rfl, rfl⟩ := Prod.mk.injEq .. ▸ Option.some.inj h
          rw [value, skip_append hs]
          simp only [skip_append hs₂ q]
        · rename_i hne
          obtain ⟨⟨l, r₂⟩, h₂, he⟩ := Option.map_eq_some_iff.mp h
          obtain ⟨rfl, rfl⟩ := Prod.mk.injEq .. ▸ he
          cases ht : skip r₁ with
          | nil => rw [ht, items_nil] at h₂; cases h₂
          | cons b t =>
            rw [ht] at h₂ hne
            rw [value_array (skip_append hs q) (skip_append ht q) (fun hb => hne t (hb ▸ rfl)),
              ← List.cons_append, (ih (b :: t) q r₂).2.1 l h₂, Option.map_some]
      case h_6 r₁ hs =>
        split at h
        · rename_i r₂ hs₂
          obtain ⟨rfl, rfl⟩ := Prod.mk.injEq .. ▸ Option.some.inj h
          rw [value, skip_append hs]
          simp only [skip_append hs₂ q]
        · rename_i hne
          obtain ⟨⟨l, r₂⟩, h₂, he⟩ := Option.map_eq_some_iff.mp h
          obtain ⟨rfl, rfl⟩ := Prod.mk.injEq .. ▸ he
          cases ht : skip r₁ with
          | nil => rw [ht, members_nil] at h₂; cases h₂
          | cons b t =>
            rw [ht] at h₂ hne
            rw [value_object (skip_append hs q) (skip_append ht q) (fun hb => hne t (hb ▸ rfl)),
              ← List.cons_append, (ih (b :: t) q r₂).2.2 l h₂, Option.map_some]
      case h_7 =>
        obtain ⟨⟨k, r₂⟩, h₂, he⟩ := Option.map_eq_some_iff.mp h
        obtain ⟨rfl, rfl⟩ := Prod.mk.injEq .. ▸ he
        have hr : r₂ ≠ [] := hc.resolve_right fun hk => hk k rfl
        cases ht : skip p with
        | nil => simp [ht, number] at h₂
        | cons b t =>
          rw [ht] at h₂
          rw [value_digit (skip_append ht q) (isDigit_of_number h₂), ← List.cons_append,
            number_append h₂ hr q, Option.map_some]
    · rw [items] at h
      simp only [Option.bind_eq_bind, Option.bind_eq_some_iff] at h
      obtain ⟨⟨j, r₁⟩, h₁, h⟩ := h
      have step : ∀ {b r₂}, skip r₁ = b :: r₂ → value m (p ++ q) = some (j, r₁ ++ q) := by
        intro b r₂ hb
        refine (ih p q r₁).1 j h₁ (Or.inl ?_)
        rintro rfl
        simp [skip] at hb
      split at h
      · rename_i r₂ hs
        obtain ⟨⟨l', r₃⟩, h₃, he⟩ := Option.map_eq_some_iff.mp h
        obtain ⟨rfl, rfl⟩ := Prod.mk.injEq .. ▸ he
        rw [items, step hs]
        simp only [Option.bind_eq_bind, Option.bind_some, skip_append hs q]
        rw [(ih r₂ q r₃).2.1 l' h₃, Option.map_some]
      · rename_i r₂ hs
        obtain ⟨rfl, rfl⟩ := Prod.mk.injEq .. ▸ Option.some.inj h
        rw [items, step hs]
        simp only [Option.bind_eq_bind, Option.bind_some, skip_append hs q]
      · cases h
    · rw [members] at h
      split at h
      · rename_i r₁ hs
        simp only [Option.bind_eq_bind, Option.bind_eq_some_iff] at h
        obtain ⟨⟨k, r₂⟩, h₂, h⟩ := h
        have hk := string_append h₂ (by omega : n ≤ m) q
        split at h
        · rename_i r₃ hs₃
          simp only [Option.bind_eq_some_iff] at h
          obtain ⟨⟨v, r₄⟩, h₄, h⟩ := h
          have step : ∀ {b r₅}, skip r₄ = b :: r₅ → value m (r₃ ++ q) = some (v, r₄ ++ q) := by
            intro b r₅ hb
            refine (ih r₃ q r₄).1 v h₄ (Or.inl ?_)
            rintro rfl
            simp [skip] at hb
          split at h
          · rename_i r₅ hs₅
            obtain ⟨⟨l', r₆⟩, h₆, he⟩ := Option.map_eq_some_iff.mp h
            obtain ⟨rfl, rfl⟩ := Prod.mk.injEq .. ▸ he
            rw [members, skip_append hs]
            simp only [hk, Option.bind_eq_bind, Option.bind_some, skip_append hs₃ q, step hs₅,
              skip_append hs₅ q, (ih r₅ q r₆).2.2 l' h₆, Option.map_some]
          · rename_i r₅ hs₅
            obtain ⟨rfl, rfl⟩ := Prod.mk.injEq .. ▸ Option.some.inj h
            rw [members, skip_append hs]
            simp only [hk, Option.bind_eq_bind, Option.bind_some, skip_append hs₃ q, step hs₅,
              skip_append hs₅ q]
          · cases h
        · cases h
      · cases h

/-- What is read at the brace of an object is an object. -/
theorem obj_of_value {n : ℕ} {bs r : Bytes} {j : Json} (h : value n (123 :: bs) = some (j, r)) :
    ∃ l, j = .obj l := by
  cases n with
  | zero => cases h
  | succ n =>
    rw [value, skip_of_not_space (by decide)] at h
    simp only at h
    split at h
    · exact ⟨_, (Prod.mk.inj (Option.some.inj h)).1.symm⟩
    · obtain ⟨⟨l, r₂⟩, -, he⟩ := Option.map_eq_some_iff.mp h
      exact ⟨l, (Prod.mk.inj he).1.symm⟩

/-- **A cut object is not a document**: no proper prefix of a written object is read. -/
theorem parse_truncated {ms : List (String × Json)} {p q : Bytes} (h : p ++ q = (Json.obj ms).render)
    (hq : q ≠ []) : parse p = none := by
  cases p with
  | nil => rfl
  | cons b p =>
    obtain rfl : b = 123 := by
      rw [render, List.cons_append] at h
      exact (List.cons.inj h).1
    by_contra hp
    obtain ⟨j, hj⟩ := Option.ne_none_iff_exists'.mp hp
    simp only [parse, Option.bind_eq_bind, Option.bind_eq_some_iff] at hj
    obtain ⟨⟨j', r⟩, hv, -⟩ := hj
    obtain ⟨l, rfl⟩ := obj_of_value hv
    have hlong := (value_append _ ((Json.obj ms).render.length + 1)
      (by rw [← h]; simp) _ q _).1 _ hv (Or.inr fun k hk => by cases hk)
    have hwhole := value_render (.obj ms) ((Json.obj ms).render.length + 1) [] (by omega)
      (by simp [NoDigit])
    rw [List.append_nil, ← congrArg (value _) h, hlong] at hwhole
    have := (Prod.mk.inj (Option.some.inj hwhole)).2
    exact hq (List.append_eq_nil_iff.mp this).2

end Json
end Everywhere.Library

