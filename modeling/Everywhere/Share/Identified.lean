import Everywhere.Share.Alias

/-!
# Paths that a filesystem identifies

A filesystem that ignores case and normalization takes two names for one when their canonical decompositions, in upper case and
decomposed again, are the same. `collisionKey` composes a path and then changes it to upper case, and does not normalize
the result. Where the capital of a composed character is not composed, paths that are identified may have different keys: the
small iota with dialytika and tonos is one character, the capital one is not, and so its capital is decomposed in one key and
partly composed in the other.

A text is `Regular` when no such character is in it and its capital form is that of its characters, one after the other. Two texts
are `Alike` when they are composed of pieces that are the same in both, or identified and regular.

* `identified_keys` — **when identified paths have one key**: when they are alike. Then a share never knows two of them.
-/

namespace Everywhere

open Library

/-- The upper case of a text. -/
def upper (P : Platform) (text : String) : String := String.ofList (text.toList.flatMap P.toUppercase)

theorem collisionKey_eq (P : Platform) (path : String) : collisionKey P path = upper P (P.nfc path) := rfl

theorem upper_append (P : Platform) (x y : String) : upper P (x ++ y) = upper P x ++ upper P y := by
  rw [upper, String.toList_append, List.flatMap_append, String.ofList_append, upper, upper]

theorem upper_join (P : Platform) (l : List String) : upper P (String.join l) = String.join (l.map (upper P)) := by
  induction l with
  | nil => rfl
  | cons x l ih => rw [List.map_cons, String.join_cons, String.join_cons, upper_append, ih]

/-- The characters of a text, each as a text. -/
def characters (text : String) : List String := text.toList.map String.singleton

theorem join_characters (text : String) : String.join (characters text) = text := by
  apply String.toList_injective
  rw [String.toList_join, characters, List.flatMap_map]
  simp

/-- What is known of composing, decomposing and upper case. -/
structure Tables (P : Platform) (nfd : String → String) : Prop where
  /-- Texts with one composition have one decomposition. -/
  nfd_nfc : ∀ x, nfd (P.nfc x) = nfd x
  /-- Texts with one decomposition have one composition. -/
  nfc_nfd : ∀ x, P.nfc (nfd x) = P.nfc x
  /-- The parts of a composed text are composed. -/
  nfc_append : ∀ x y, P.nfc (x ++ y) = x ++ y → P.nfc x = x ∧ P.nfc y = y
  /-- A decomposed text in upper case stays in upper case when it is decomposed again. -/
  upper_nfd : ∀ x, upper P (nfd (upper P (nfd x))) = nfd (upper P (nfd x))
  /-- A decomposed text in upper case stays in upper case when it is composed. -/
  upper_nfc : ∀ x, upper P (P.nfc (upper P (nfd x))) = P.nfc (upper P (nfd x))
  /-- The capital of a character, composed, is that of its decomposition. -/
  upper_char : ∀ c, P.nfc (upper P (String.singleton c)) = P.nfc (upper P (nfd (String.singleton c)))

/-- A filesystem may take the two texts for one. -/
def Identified (P : Platform) (nfd : String → String) (x y : String) : Prop :=
  nfd (upper P (nfd x)) = nfd (upper P (nfd y))

/-- The capital form of a text, composed. -/
def capital (P : Platform) (nfd : String → String) (x : String) : String := P.nfc (upper P (nfd x))

/-- The capitals of the characters of the composed text are composed, and the capital form of the text is made of those of the
characters. -/
def Regular (P : Platform) (nfd : String → String) (x : String) : Prop :=
  (∀ c ∈ characters (P.nfc x), P.nfc (upper P c) = upper P c) ∧
  capital P nfd x = String.join ((characters (P.nfc x)).map (capital P nfd))

/-- The texts, composed, are made of pieces that are the same in both, or identified and regular. -/
def Alike (P : Platform) (nfd : String → String) (x y : String) : Prop :=
  ∃ pieces : List (String × String), P.nfc x = String.join (pieces.map Prod.fst) ∧ P.nfc y = String.join (pieces.map Prod.snd) ∧
    ∀ p ∈ pieces, p.1 = p.2 ∨ Regular P nfd p.1 ∧ Regular P nfd p.2 ∧ Identified P nfd p.1 p.2

section

variable {P : Platform} {nfd : String → String} {x y : String}

theorem Tables.nfc_nfc (h : Tables P nfd) (x : String) : P.nfc (P.nfc x) = P.nfc x := by
  rw [← h.nfc_nfd (P.nfc x), h.nfd_nfc, h.nfc_nfd]

theorem Tables.nfd_nfd (h : Tables P nfd) (x : String) : nfd (nfd x) = nfd x := by
  rw [← h.nfd_nfc (nfd x), h.nfc_nfd, h.nfd_nfc]

/-- The pieces of a composed text are composed. -/
theorem Tables.nfc_of_join (h : Tables P nfd) {l : List String} (hl : P.nfc (String.join l) = String.join l) :
    ∀ x ∈ l, P.nfc x = x := by
  induction l with
  | nil => exact fun _ hx => absurd hx List.not_mem_nil
  | cons y l ih =>
    rw [String.join_cons] at hl
    obtain ⟨hy, hl'⟩ := h.nfc_append _ _ hl
    intro x hx
    rcases List.mem_cons.mp hx with rfl | hx
    · exact hy
    · exact ih hl' x hx

/-- Identified texts have one capital form. -/
theorem Tables.capital_eq (h : Tables P nfd) (hxy : Identified P nfd x y) : capital P nfd x = capital P nfd y := by
  rw [capital, ← h.nfc_nfd, hxy, h.nfc_nfd, capital]

theorem Tables.capital_nfc (h : Tables P nfd) (x : String) : capital P nfd (P.nfc x) = capital P nfd x := by
  rw [capital, h.nfd_nfc, capital]

/-- A text is identified with its capital form. -/
theorem Tables.identified_capital (h : Tables P nfd) (x : String) : Identified P nfd x (capital P nfd x) := by
  rw [Identified, capital, h.nfd_nfc, h.upper_nfd, h.nfd_nfd]

/-- The key of the capital form is the capital form. -/
theorem Tables.key_capital (h : Tables P nfd) (x : String) : collisionKey P (capital P nfd x) = capital P nfd x := by
  rw [collisionKey_eq, capital, h.nfc_nfc, h.upper_nfc]

/-- A key is made of the capitals of the characters. -/
theorem key_characters (P : Platform) (x : String) :
    collisionKey P x = String.join ((characters (P.nfc x)).map (upper P)) := by
  rw [← upper_join, join_characters, collisionKey_eq]

/-- The capital forms of characters with composed capitals are their capitals. -/
theorem Tables.capital_characters (h : Tables P nfd) (x : String)
    (hx : ∀ c ∈ characters x, P.nfc (upper P c) = upper P c) :
    (characters x).map (capital P nfd) = (characters x).map (upper P) := by
  refine List.map_congr_left fun c hc => ?_
  obtain ⟨d, -, rfl⟩ := List.mem_map.mp hc
  rw [capital, ← h.upper_char, hx _ hc]

/-- **The regular texts are those whose key is their capital form.** -/
theorem Tables.regular_iff (h : Tables P nfd) : Regular P nfd x ↔ collisionKey P x = capital P nfd x := by
  constructor
  · intro hx
    rw [key_characters, ← h.capital_characters _ hx.1, hx.2]
  · intro hkey
    have hcomposed : P.nfc (collisionKey P x) = collisionKey P x := by rw [hkey, capital, h.nfc_nfc]
    rw [key_characters] at hcomposed
    have hchars : ∀ c ∈ characters (P.nfc x), P.nfc (upper P c) = upper P c := fun c hc =>
      h.nfc_of_join hcomposed _ (List.mem_map_of_mem hc)
    refine ⟨hchars, ?_⟩
    rw [h.capital_characters _ hchars, ← key_characters, hkey]

theorem Tables.regular_capital (h : Tables P nfd) (x : String) : Regular P nfd (capital P nfd x) := by
  rw [h.regular_iff, h.key_capital]
  exact h.capital_eq (h.identified_capital x)

/-- Identified regular texts have one key. -/
theorem Tables.key_eq (h : Tables P nfd) (hx : Regular P nfd x) (hy : Regular P nfd y) (hxy : Identified P nfd x y) :
    collisionKey P x = collisionKey P y := by
  calc collisionKey P x = capital P nfd x := h.regular_iff.mp hx
    _ = capital P nfd y := h.capital_eq hxy
    _ = collisionKey P y := (h.regular_iff.mp hy).symm

/-- A text that is identified with a regular text and has its key is regular. -/
theorem Tables.regular_of_key (h : Tables P nfd) (hx : Regular P nfd x) (hxy : Identified P nfd x y)
    (hkey : collisionKey P x = collisionKey P y) : Regular P nfd y := by
  rw [h.regular_iff, ← hkey, h.regular_iff.mp hx]
  exact h.capital_eq hxy

/-- Identified regular texts are alike, in one piece. -/
theorem Tables.alike (h : Tables P nfd) (hx : Regular P nfd x) (hy : Regular P nfd y) (hxy : Identified P nfd x y) :
    Alike P nfd x y := by
  have hnfc : ∀ z, Regular P nfd z → Regular P nfd (P.nfc z) := fun z hz => by
    rw [Regular, h.nfc_nfc, h.capital_nfc]
    exact hz
  have hid : Identified P nfd (P.nfc x) (P.nfc y) := by
    rw [Identified, h.nfd_nfc, h.nfd_nfc]
    exact hxy
  refine ⟨[(P.nfc x, P.nfc y)], by simp, by simp, fun p hp => ?_⟩
  obtain rfl := List.mem_singleton.mp hp
  exact .inr ⟨hnfc x hx, hnfc y hy, hid⟩

/-- **Alike texts have one key.** Their pieces have. -/
theorem Tables.key_alike (h : Tables P nfd) (hxy : Alike P nfd x y) : collisionKey P x = collisionKey P y := by
  obtain ⟨pieces, hx, hy, hpieces⟩ := hxy
  have hfst : ∀ p ∈ pieces, P.nfc p.1 = p.1 := fun p hp =>
    h.nfc_of_join (by rw [← hx, h.nfc_nfc]) _ (List.mem_map_of_mem hp)
  have hsnd : ∀ p ∈ pieces, P.nfc p.2 = p.2 := fun p hp =>
    h.nfc_of_join (by rw [← hy, h.nfc_nfc]) _ (List.mem_map_of_mem hp)
  have hupper : ∀ p ∈ pieces, upper P p.1 = upper P p.2 := by
    intro p hp
    rcases hpieces p hp with heq | ⟨hp1, hp2, hid⟩
    · rw [heq]
    · have hkey := h.key_eq hp1 hp2 hid
      rwa [collisionKey_eq, collisionKey_eq, hfst p hp, hsnd p hp] at hkey
  rw [collisionKey_eq, collisionKey_eq, hx, hy, upper_join, upper_join, List.map_map, List.map_map]
  exact congrArg String.join (List.map_congr_left hupper)

end

/-- **When identified paths have one key.** Alike paths have one key. Of identified paths one of which is regular, only the alike ones
have one key. All paths that are identified with a path have one key just when any two of them are alike. A share knows no two
different paths that are alike, and a scan refuses the second of them. -/
theorem identified_keys (P : Platform) (nfd : String → String) (h : Tables P nfd) {β : Type} (W : Wire β) :
    (∀ x y, Alike P nfd x y → collisionKey P x = collisionKey P y) ∧
    (∀ x y, Identified P nfd x y → Regular P nfd x → (collisionKey P x = collisionKey P y ↔ Alike P nfd x y)) ∧
    (∀ x, (∀ y z, Identified P nfd x y → Identified P nfd x z → collisionKey P y = collisionKey P z) ↔
      ∀ y z, Identified P nfd x y → Identified P nfd x z → Alike P nfd y z) ∧
    (∀ s : Share β, Share.Reachable P W s → ∀ path ∈ s.index.entries, ∀ other ∈ s.index.entries,
      Alike P nfd path other → path = other) ∧
    ∀ (s : Share β) (path other : String) (content : Content), other ∈ s.seen → Alike P nfd path other →
      ∃ e, (Share.recordSeen P path content).run s = (.error e, s) := by
  refine ⟨fun x y => h.key_alike, ?_, ?_, ?_, ?_⟩
  · intro x y hxy hx
    exact ⟨fun hkey => h.alike hx (h.regular_of_key hx hxy hkey) hxy, h.key_alike⟩
  · intro x
    constructor
    · intro hall y z hxy hxz
      -- the capital form is in the class, and is regular
      have hregular : ∀ w, Identified P nfd x w → Regular P nfd w := fun w hxw =>
        h.regular_of_key (h.regular_capital x) ((h.identified_capital x).symm.trans hxw)
          (hall _ w (h.identified_capital x) hxw)
      exact h.alike (hregular y hxy) (hregular z hxz) (hxy.symm.trans hxz)
    · intro hall y z hxy hxz
      exact h.key_alike (hall y z hxy hxz)
  · intro s hs path hpath other hother halike
    exact hs.unaliased path hpath other hother (h.key_alike halike)
  · intro s path other content hother halike
    have hkey : ¬ ∀ q ∈ s.seen.keys, collisionKey P q ≠ collisionKey P path := by
      intro hall
      exact hall other (Std.ExtTreeMap.mem_keys.mpr hother) (h.key_alike halike).symm
    refine ⟨.message "cannot record scanned path; check case/Unicode aliases and free space", ?_⟩
    rw [Share.recordSeen, Fallible.run_act, if_neg hkey]

/-! ### The small iota with dialytika and tonos -/

/-- The character that the dialytika or the tonos makes with the character before it. -/
def composed (c d : Char) : Option Char :=
  if c = '\u03b9' ∧ d = '\u0308' then some '\u03ca' else if c = '\u03ca' ∧ d = '\u0301' then some '\u0390'
  else if c = '\u0399' ∧ d = '\u0308' then some '\u03aa' else none

/-- The canonical decomposition of a character. -/
def decomposed (c : Char) : List Char :=
  if c = '\u0390' then ['\u03b9', '\u0308', '\u0301'] else if c = '\u03ca' then ['\u03b9', '\u0308']
  else if c = '\u03aa' then ['\u0399', '\u0308'] else [c]

/-- The next character is composed with the last one where it can be. What was read is listed from the last character on. -/
def push : List Char → Char → List Char
  | [], d => [d]
  | c :: read, d => match composed c d with
    | some e => e :: read
    | none => d :: c :: read

/-- The canonical decomposition at the iota. -/
def greekNfd (text : String) : String := String.ofList (text.toList.flatMap decomposed)

/-- The composition at the iota. -/
def greekNfc (text : String) : String := String.ofList ((text.toList.flatMap decomposed).foldl push []).reverse

/-- The Unicode tables at the iota. -/
def Platform.greek : Platform where
  blake3 := Platform.sample.blake3
  nfc := greekNfc
  toUppercase c :=
    if c = '\u0390' then ['\u0399', '\u0308', '\u0301'] else if c = '\u03ca' then ['\u03aa']
    else if c = '\u03b9' then ['\u0399'] else [c]

/-- Nothing can be composed. -/
def Composed (l : List Char) : Prop := l.IsChain fun c d => composed c d = none

section

variable {c d e : Char} {l read : List Char}

theorem decomposed_decomposed (c : Char) : (decomposed c).flatMap decomposed = decomposed c := by
  unfold decomposed
  split_ifs with h1 h2 h3
  · decide
  · decide
  · decide
  · simp [h1, h2, h3]

theorem flatMap_decomposed (l : List Char) : (l.flatMap decomposed).flatMap decomposed = l.flatMap decomposed := by
  simp only [List.flatMap_assoc, decomposed_decomposed]

theorem composed_eq_some (h : composed c d = some e) :
    c = '\u03b9' ∧ d = '\u0308' ∧ e = '\u03ca' ∨ c = '\u03ca' ∧ d = '\u0301' ∧ e = '\u0390' ∨
      c = '\u0399' ∧ d = '\u0308' ∧ e = '\u03aa' := by
  unfold composed at h
  split_ifs at h with h1 h2 h3
  · exact .inl ⟨h1.1, h1.2, (Option.some.inj h).symm⟩
  · exact .inr (.inl ⟨h2.1, h2.2, (Option.some.inj h).symm⟩)
  · exact .inr (.inr ⟨h3.1, h3.2, (Option.some.inj h).symm⟩)

/-- Only the marks are composed with what is before them. -/
theorem composed_eq_none (h : d ≠ '\u0308') (h' : d ≠ '\u0301') (c : Char) : composed c d = none := by
  simp [composed, h, h']

theorem decomposed_of_composed (h : composed c d = some e) : decomposed e = decomposed c ++ decomposed d := by
  rcases composed_eq_some h with ⟨rfl, rfl, rfl⟩ | ⟨rfl, rfl, rfl⟩ | ⟨rfl, rfl, rfl⟩ <;> decide

theorem push_of_none (h : ∀ c ∈ read.head?, composed c d = none) : push read d = d :: read := by
  cases read with
  | nil => rfl
  | cons c read =>
    have hnone := h c rfl
    simp only [push, hnone]

/-- Composing keeps the decomposition. -/
theorem decomposed_push (read : List Char) (d : Char) :
    (push read d).reverse.flatMap decomposed = read.reverse.flatMap decomposed ++ decomposed d := by
  cases read with
  | nil => simp [push]
  | cons c read =>
    cases h : composed c d with
    | none => simp [push, h, List.flatMap_append]
    | some e => simp [push, h, List.flatMap_append, decomposed_of_composed h]

theorem decomposed_foldl_push (l read : List Char) :
    (l.foldl push read).reverse.flatMap decomposed = read.reverse.flatMap decomposed ++ l.flatMap decomposed := by
  induction l generalizing read with
  | nil => simp
  | cons d l ih => rw [List.foldl_cons, ih, decomposed_push, List.flatMap_cons, List.append_assoc]

/-- Nothing can be composed with what was composed, either. -/
theorem isChain_push (h : read.IsChain fun d c => composed c d = none) (d : Char) :
    (push read d).IsChain fun d c => composed c d = none := by
  cases read with
  | nil => exact .singleton d
  | cons c read =>
    cases hc : composed c d with
    | none =>
      simp only [push, hc]
      exact .cons_cons hc h
    | some e =>
      simp only [push, hc]
      have he : ∀ b, composed b e = none := by
        rcases composed_eq_some hc with ⟨-, -, rfl⟩ | ⟨-, -, rfl⟩ | ⟨-, -, rfl⟩ <;>
          exact composed_eq_none (by decide) (by decide)
      cases read with
      | nil => exact .singleton e
      | cons b read => exact .cons_cons (he b) h.tail

theorem isChain_foldl_push (l : List Char) (h : read.IsChain fun d c => composed c d = none) :
    (l.foldl push read).IsChain fun d c => composed c d = none := by
  induction l generalizing read with
  | nil => exact h
  | cons d l ih => exact ih (isChain_push h d)

theorem composed_greekNfc (text : String) : Composed (greekNfc text).toList := by
  rw [Composed, greekNfc, String.toList_ofList, List.isChain_reverse]
  exact isChain_foldl_push _ .nil

/-- A character is composed again from its decomposition. -/
theorem foldl_push_decomposed (h : ∀ b ∈ read.head?, composed b c = none) :
    (decomposed c).foldl push read = c :: read := by
  have hletter : ∀ d, d ≠ '\u0308' → d ≠ '\u0301' → push read d = d :: read := fun d hd hd' =>
    push_of_none fun b _ => composed_eq_none hd hd' b
  unfold decomposed
  split_ifs with h1 h2 h3
  · subst h1
    rw [List.foldl_cons, hletter _ (by decide) (by decide)]
    rfl
  · subst h2
    rw [List.foldl_cons, hletter _ (by decide) (by decide)]
    rfl
  · subst h3
    rw [List.foldl_cons, hletter _ (by decide) (by decide)]
    rfl
  · exact push_of_none h

/-- A composed text is composed again from its decomposition. -/
theorem foldl_push_flatMap (h : Composed l) (hread : ∀ b ∈ read.head?, ∀ c ∈ l.head?, composed b c = none) :
    (l.flatMap decomposed).foldl push read = l.reverse ++ read := by
  induction l generalizing read with
  | nil => rfl
  | cons c l ih =>
    rw [List.flatMap_cons, List.foldl_append, foldl_push_decomposed fun b hb => hread b hb c rfl,
      ih h.tail (fun b hb d hd => by
        obtain rfl := Option.some.inj hb
        cases l with
        | nil => exact absurd hd (by simp)
        | cons d' l =>
          obtain rfl := Option.some.inj hd
          exact (List.isChain_cons_cons.mp h).1)]
    simp

theorem greekNfc_of_composed {text : String} (h : Composed text.toList) : greekNfc text = text := by
  rw [greekNfc, foldl_push_flatMap h (by simp), List.append_nil, List.reverse_reverse, String.ofList_toList]

/-- The character is not changed in upper case. -/
def IsUpper (c : Char) : Prop := Platform.greek.toUppercase c = [c]

instance (c : Char) : Decidable (IsUpper c) := inferInstanceAs (Decidable (Platform.greek.toUppercase c = [c]))

theorem isUpper_toUppercase (hc : c ∈ Platform.greek.toUppercase d) : IsUpper c := by
  unfold Platform.greek at hc
  dsimp only at hc
  split_ifs at hc with h1 h2 h3
  · simp only [List.mem_cons, List.not_mem_nil, or_false] at hc
    rcases hc with rfl | rfl | rfl <;> decide
  · obtain rfl := List.mem_singleton.mp hc
    decide
  · obtain rfl := List.mem_singleton.mp hc
    decide
  · obtain rfl := List.mem_singleton.mp hc
    simp only [IsUpper, Platform.greek, if_neg h1, if_neg h2, if_neg h3]

theorem isUpper_decomposed (h : IsUpper d) (hc : c ∈ decomposed d) : IsUpper c := by
  unfold decomposed at hc
  split_ifs at hc with h1 h2 h3
  · subst h1
    exact absurd h (by decide)
  · subst h2
    exact absurd h (by decide)
  · simp only [List.mem_cons, List.not_mem_nil, or_false] at hc
    rcases hc with rfl | rfl <;> decide
  · obtain rfl := List.mem_singleton.mp hc
    exact h

theorem isUpper_push (hread : ∀ c ∈ read, IsUpper c) (hd : IsUpper d) : ∀ c ∈ push read d, IsUpper c := by
  cases read with
  | nil => simpa [push] using hd
  | cons b read =>
    have hb : IsUpper b := hread b List.mem_cons_self
    have hrest : ∀ c ∈ read, IsUpper c := fun c hc => hread c (List.mem_cons_of_mem _ hc)
    cases h : composed b d with
    | none =>
      simp only [push, h]
      exact List.forall_mem_cons.mpr ⟨hd, hread⟩
    | some e =>
      have he : IsUpper e := by
        rcases composed_eq_some h with ⟨rfl, -, -⟩ | ⟨rfl, -, -⟩ | ⟨-, -, rfl⟩
        · exact absurd hb (by decide)
        · exact absurd hb (by decide)
        · decide
      simp only [push, h]
      exact List.forall_mem_cons.mpr ⟨he, hrest⟩

theorem isUpper_foldl_push (hread : ∀ c ∈ read, IsUpper c) (hl : ∀ c ∈ l, IsUpper c) :
    ∀ c ∈ l.foldl push read, IsUpper c := by
  induction l generalizing read with
  | nil => exact hread
  | cons d l ih =>
    rw [List.forall_mem_cons] at hl
    exact ih (isUpper_push hread hl.1) hl.2

end

theorem upper_of_isUpper {text : String} (h : ∀ c ∈ text.toList, IsUpper c) : upper .greek text = text := by
  have hflat : ∀ l : List Char, (∀ c ∈ l, IsUpper c) → l.flatMap Platform.greek.toUppercase = l := by
    intro l hl
    induction l with
    | nil => rfl
    | cons c l ih =>
      rw [List.forall_mem_cons] at hl
      rw [List.flatMap_cons, hl.1, ih hl.2, List.singleton_append]
  rw [upper, hflat _ h, String.ofList_toList]

theorem isUpper_upper (text : String) : ∀ c ∈ (upper .greek text).toList, IsUpper c := by
  intro c hc
  rw [upper, String.toList_ofList] at hc
  obtain ⟨d, -, hd⟩ := List.mem_flatMap.mp hc
  exact isUpper_toUppercase hd

theorem isUpper_greekNfd {text : String} (h : ∀ c ∈ text.toList, IsUpper c) : ∀ c ∈ (greekNfd text).toList, IsUpper c := by
  intro c hc
  rw [greekNfd, String.toList_ofList] at hc
  obtain ⟨d, hd, hcd⟩ := List.mem_flatMap.mp hc
  exact isUpper_decomposed (h d hd) hcd

theorem isUpper_greekNfc {text : String} (h : ∀ c ∈ text.toList, IsUpper c) : ∀ c ∈ (greekNfc text).toList, IsUpper c := by
  intro c hc
  rw [greekNfc, String.toList_ofList, List.mem_reverse] at hc
  have hnfd := isUpper_greekNfd h
  rw [greekNfd, String.toList_ofList] at hnfd
  exact isUpper_foldl_push (fun _ h => absurd h List.not_mem_nil) hnfd c hc

/-- Texts with one decomposition have one composition. -/
theorem greekNfc_congr {x y : String} (h : greekNfd x = greekNfd y) : greekNfc x = greekNfc y := by
  rw [greekNfc, greekNfc, String.ofList_injective h]

theorem greekNfd_greekNfd (x : String) : greekNfd (greekNfd x) = greekNfd x := by
  rw [greekNfd, greekNfd, String.toList_ofList, flatMap_decomposed]

/-- The capital of a character is that of its decomposition, decomposed. -/
theorem upper_decomposed (c : Char) :
    (Platform.greek.toUppercase c).flatMap decomposed =
      ((decomposed c).flatMap Platform.greek.toUppercase).flatMap decomposed := by
  by_cases h1 : c = '\u0390'
  · subst h1
    decide
  · by_cases h2 : c = '\u03ca'
    · subst h2
      decide
    · by_cases h3 : c = '\u03aa'
      · subst h3
        decide
      · have hc : decomposed c = [c] := by rw [decomposed, if_neg h1, if_neg h2, if_neg h3]
        rw [hc, List.flatMap_singleton]

theorem tables_greek : Tables .greek greekNfd where
  nfd_nfc x := by
    change greekNfd (greekNfc x) = greekNfd x
    rw [greekNfd, greekNfc, String.toList_ofList, decomposed_foldl_push, List.reverse_nil, List.flatMap_nil,
      List.nil_append, flatMap_decomposed, greekNfd]
  nfc_nfd x := greekNfc_congr (greekNfd_greekNfd x)
  nfc_append x y h := by
    change greekNfc (x ++ y) = x ++ y at h
    have hcomposed := composed_greekNfc (x ++ y)
    rw [h, String.toList_append, Composed, List.isChain_append] at hcomposed
    exact ⟨greekNfc_of_composed hcomposed.1, greekNfc_of_composed hcomposed.2.1⟩
  upper_nfd x := upper_of_isUpper (isUpper_greekNfd (isUpper_upper _))
  upper_nfc x := upper_of_isUpper (isUpper_greekNfc (isUpper_upper _))
  upper_char c := by
    refine greekNfc_congr ?_
    have hchar := upper_decomposed c
    simp only [greekNfd, upper, String.toList_ofList, String.toList_singleton, List.flatMap_singleton, hchar]

/-- The small iota with dialytika and tonos, and its partly composed capital, are identified and have different keys. -/
theorem identified_iota : ¬ ∀ (P : Platform) (nfd : String → String), Tables P nfd → ∀ x y, Identified P nfd x y →
    collisionKey P x = collisionKey P y := by
  intro h
  have hid : Identified .greek greekNfd "\u0390" "\u03aa\u0301" := by
    rw [Identified]
    decide +kernel
  have hne : collisionKey .greek "\u0390" ≠ collisionKey .greek "\u03aa\u0301" := by decide +kernel
  exact hne (h .greek greekNfd tables_greek _ _ hid)

/-- The small iota with dialytika and tonos does not get another key from what follows it in small or in capital letters, and is
written as one character or as three. -/
theorem identified_keys_iota :
    collisionKey .greek "\u0390\u03ca" = collisionKey .greek "\u03b9\u0308\u0301\u0399\u0308" ∧
    ¬ Alike .greek greekNfd "\u0390" "\u03aa\u0301" := by
  have hkeys := identified_keys .greek greekNfd tables_greek Share.silent
  constructor
  · -- the iota with both marks is one piece, that with the dialytika another
    refine hkeys.1 _ _ ⟨[("\u0390", "\u0390"), ("\u03ca", "\u03aa")], by decide +kernel, by decide +kernel, fun p hp => ?_⟩
    rcases List.mem_cons.mp hp with rfl | hp
    · exact .inl rfl
    · obtain rfl := List.mem_singleton.mp hp
      refine .inr ⟨?_, ?_, ?_⟩
      · rw [tables_greek.regular_iff]
        decide +kernel
      · rw [tables_greek.regular_iff]
        decide +kernel
      · rw [Identified]
        decide +kernel
  · intro halike
    exact absurd (hkeys.1 _ _ halike) (by decide +kernel)

end Everywhere
