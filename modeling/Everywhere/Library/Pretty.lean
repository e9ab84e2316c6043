import Everywhere.Library.Json

/-!
# Indented JSON texts

The text of a value over several lines, each level indented by two blanks (`Json.pretty`). It is read back as the value
(`parse_pretty`), and no proper prefix of the text of an object is a document (`parse_pretty_truncated`).
-/

namespace Everywhere.Library

namespace Json

/-- The start of a line. -/
def newline (indent : ℕ) : Bytes := 10 :: List.replicate (2 * indent) 32

mutual

/-- The indented text of a value. -/
def pretty (indent : ℕ) : Json → Bytes
  | .null => render .null
  | .bool b => render (.bool b)
  | .num n => render (.num n)
  | .str s => render (.str s)
  | .arr items =>
    if items.isEmpty then [91, 93]
    else 91 :: (newline (indent + 1) ++ (prettyItems (indent + 1) items ++ (newline indent ++ [93])))
  | .obj members =>
    if members.isEmpty then [123, 125]
    else 123 :: (newline (indent + 1) ++ (prettyMembers (indent + 1) members ++ (newline indent ++ [125])))

/-- The items of an array, each on a line. -/
def prettyItems (indent : ℕ) : List Json → Bytes
  | [] => []
  | [j] => j.pretty indent
  | j :: k :: l => j.pretty indent ++ 44 :: (newline indent ++ prettyItems indent (k :: l))

/-- The members of an object, each on a line. -/
def prettyMembers (indent : ℕ) : List (String × Json) → Bytes
  | [] => []
  | [(k, v)] => quoted k ++ 58 :: 32 :: v.pretty indent
  | (k, v) :: m :: l =>
    quoted k ++ 58 :: 32 :: (v.pretty indent ++ 44 :: (newline indent ++ prettyMembers indent (m :: l)))

end

/-! ### White space -/

theorem skip_newline (indent : ℕ) (r : Bytes) : skip (newline indent ++ r) = skip r := by
  have hblank (n : ℕ) : skip (List.replicate n 32 ++ r) = skip r := by
    induction n with
    | zero => rfl
    | succ n ih => rw [List.replicate_succ, List.cons_append, skip, List.dropWhile_cons_of_pos (by decide)]; exact ih
  rw [newline, List.cons_append, skip, List.dropWhile_cons_of_pos (by decide)]
  exact hblank _

theorem value_newline (n indent : ℕ) (r : Bytes) : value n (newline indent ++ r) = value n r := by
  cases n with
  | zero => rfl
  | succ n => rw [value, value, skip_newline]

theorem value_blank (n : ℕ) (r : Bytes) : value n (32 :: r) = value n r := by
  cases n with
  | zero => rfl
  | succ n =>
    have hskip : skip (32 :: r) = skip r := by rw [skip, List.dropWhile_cons_of_pos (by decide)]; rfl
    rw [value, value, hskip]

theorem items_newline (n indent : ℕ) (r : Bytes) : items n (newline indent ++ r) = items n r := by
  cases n with
  | zero => rfl
  | succ n => rw [items, items, value_newline]

theorem members_newline (n indent : ℕ) (r : Bytes) : members n (newline indent ++ r) = members n r := by
  cases n with
  | zero => rfl
  | succ n => rw [members, members, skip_newline]

theorem noDigit_newline (indent : ℕ) (r : Bytes) : NoDigit (newline indent ++ r) := noDigit_cons (by decide) _

/-! ### Reading back -/

/-- A value's text starts with a byte that is neither white space nor a closing bracket. -/
theorem pretty_head (j : Json) (indent : ℕ) :
    ∃ b l, j.pretty indent = b :: l ∧ isSpace b = false ∧ b ≠ 93 ∧ b ≠ 125 := by
  cases j with
  | null => rw [pretty]; exact render_head _
  | bool b => rw [pretty]; exact render_head _
  | num n => rw [pretty]; exact render_head _
  | str s => rw [pretty]; exact render_head _
  | arr items =>
    rw [pretty]
    split_ifs <;> exact ⟨_, _, rfl, by decide, by decide, by decide⟩
  | obj members =>
    rw [pretty]
    split_ifs <;> exact ⟨_, _, rfl, by decide, by decide, by decide⟩

theorem one_le_length_pretty (j : Json) (indent : ℕ) : 1 ≤ (j.pretty indent).length := by
  obtain ⟨b, l, h, -⟩ := pretty_head j indent
  simp [h]

theorem prettyItems_head (j : Json) (l : List Json) (indent : ℕ) (r : Bytes) :
    ∃ b t, prettyItems indent (j :: l) ++ r = b :: t ∧ isSpace b = false ∧ b ≠ 93 := by
  obtain ⟨b, t, h, hs, hc, -⟩ := pretty_head j indent
  cases l with
  | nil => exact ⟨b, t ++ r, by rw [prettyItems, h]; rfl, hs, hc⟩
  | cons k l => exact ⟨b, _, by rw [prettyItems, h]; rfl, hs, hc⟩

mutual

/-- A written value is read back, and what follows it is left. -/
theorem value_pretty : ∀ (j : Json) (indent n : ℕ) (r : Bytes), (j.pretty indent).length ≤ n → NoDigit r →
    value n (j.pretty indent ++ r) = some (j, r)
  | .null, _, _, _, hn, hr => by rw [pretty] at hn ⊢; exact value_render _ _ _ hn hr
  | .bool _, _, _, _, hn, hr => by rw [pretty] at hn ⊢; exact value_render _ _ _ hn hr
  | .num _, _, _, _, hn, hr => by rw [pretty] at hn ⊢; exact value_render _ _ _ hn hr
  | .str _, _, _, _, hn, hr => by rw [pretty] at hn ⊢; exact value_render _ _ _ hn hr
  | j, indent, 0, _, hn, _ => by have := one_le_length_pretty j indent; omega
  | .arr [], indent, _ + 1, _, hn, hr => by
    have he : (arr []).pretty indent = render (.arr []) := by rw [pretty]; rfl
    rw [he] at hn ⊢
    exact value_render _ _ _ hn hr
  | .arr (j :: l), indent, n + 1, r, hn, _ => by
    rw [pretty, if_neg (by simp)] at hn ⊢
    simp only [List.length_cons, List.length_append, newline] at hn
    obtain ⟨b, t, ht, hs, hc⟩ := prettyItems_head j l (indent + 1) (newline indent ++ 93 :: r)
    simp only [List.cons_append, List.append_assoc, List.nil_append]
    rw [value_array (skip_of_not_space (by decide)) (by rw [skip_newline, ht]; exact skip_of_not_space hs) hc, ← ht,
      items_pretty (j :: l) (indent + 1) indent n r (by omega) (by simp)]
    rfl
  | .obj [], indent, _ + 1, _, hn, hr => by
    have he : (obj []).pretty indent = render (.obj []) := by rw [pretty]; rfl
    rw [he] at hn ⊢
    exact value_render _ _ _ hn hr
  | .obj ((k, v) :: l), indent, n + 1, r, hn, _ => by
    rw [pretty, if_neg (by simp)] at hn ⊢
    simp only [List.length_cons, List.length_append, newline] at hn
    obtain ⟨t, ht⟩ : ∃ t, prettyMembers (indent + 1) ((k, v) :: l) ++ (newline indent ++ 125 :: r) = 34 :: t := by
      cases l <;> exact ⟨_, rfl⟩
    simp only [List.cons_append, List.append_assoc, List.nil_append]
    rw [value_object (skip_of_not_space (by decide)) (by rw [skip_newline, ht]; exact skip_of_not_space (by decide))
      (by decide), ← ht, members_pretty ((k, v) :: l) (indent + 1) indent n r (by omega) (by simp)]
    rfl

theorem items_pretty : ∀ (l : List Json) (indent outer n : ℕ) (r : Bytes), (prettyItems indent l).length < n → l ≠ [] →
    items n (prettyItems indent l ++ (newline outer ++ 93 :: r)) = some (l, r)
  | [], _, _, _, _, _, h => absurd rfl h
  | _ :: _, _, _, 0, _, hn, _ => by omega
  | [j], indent, outer, n + 1, r, hn, _ => by
    rw [prettyItems] at hn ⊢
    rw [items, value_pretty j indent n _ (by omega) (noDigit_newline _ _)]
    simp [skip_newline, skip_of_not_space (show isSpace 93 = false by decide)]
  | j :: k :: l, indent, outer, n + 1, r, hn, _ => by
    rw [prettyItems] at hn ⊢
    simp only [List.length_append, List.length_cons, newline] at hn
    rw [List.append_assoc, List.cons_append, items,
      value_pretty j indent n _ (by omega) (noDigit_cons (by decide) _)]
    simp only [Option.bind_eq_bind, Option.bind_some, skip_of_not_space (show isSpace 44 = false by decide)]
    rw [List.append_assoc, items_newline, items_pretty (k :: l) indent outer n r (by omega) (by simp)]
    rfl

theorem members_pretty : ∀ (l : List (String × Json)) (indent outer n : ℕ) (r : Bytes),
    (prettyMembers indent l).length < n → l ≠ [] →
    members n (prettyMembers indent l ++ (newline outer ++ 125 :: r)) = some (l, r)
  | [], _, _, _, _, _, h => absurd rfl h
  | _ :: _, _, _, 0, _, hn, _ => by omega
  | [(k, v)], indent, outer, n + 1, r, hn, _ => by
    rw [prettyMembers] at hn ⊢
    simp only [List.length_append, List.length_cons] at hn
    rw [quoted, List.cons_append, List.cons_append, List.append_assoc, List.append_assoc,
      List.singleton_append, List.cons_append, members, skip_of_not_space (by decide)]
    simp only [string_quoted k (show (quoted k).length ≤ n + 1 by omega), Option.bind_eq_bind,
      Option.bind_some, skip_of_not_space (show isSpace 58 = false by decide), List.cons_append]
    rw [value_blank, value_pretty v indent n _ (by omega) (noDigit_newline _ _)]
    simp [skip_newline, skip_of_not_space (show isSpace 125 = false by decide)]
  | (k, v) :: m :: l, indent, outer, n + 1, r, hn, _ => by
    rw [prettyMembers] at hn ⊢
    simp only [List.length_append, List.length_cons, newline] at hn
    rw [quoted, List.cons_append, List.cons_append, List.append_assoc, List.append_assoc,
      List.singleton_append, List.cons_append, members, skip_of_not_space (by decide)]
    simp only [string_quoted k (show (quoted k).length ≤ n + 1 by omega), Option.bind_eq_bind,
      Option.bind_some, skip_of_not_space (show isSpace 58 = false by decide), List.cons_append, List.append_assoc]
    rw [value_blank, value_pretty v indent n _ (by omega) (noDigit_cons (by decide) _)]
    simp only [Option.bind_some, skip_of_not_space (show isSpace 44 = false by decide)]
    rw [members_newline, members_pretty (m :: l) indent outer n r (by omega) (by simp)]
    rfl

end

/-- **What was written is read back**, unless it nests too deep. -/
theorem parse_pretty {j : Json} (hdepth : j.depth ≤ maxDepth) : parse (j.pretty 0) = some j := by
  have h := value_pretty j 0 ((j.pretty 0).length + 1) [] (by omega) (by simp [NoDigit])
  rw [List.append_nil] at h
  simp [parse, h, skip, hdepth]

/-- **A cut object is not a document**: no proper prefix of a written object is read. -/
theorem parse_pretty_truncated {ms : List (String × Json)} {p q : Bytes} (h : p ++ q = (Json.obj ms).pretty 0)
    (hq : q ≠ []) : parse p = none := by
  cases p with
  | nil => rfl
  | cons b p =>
    obtain rfl : b = 123 := by
      rw [pretty] at h
      split_ifs at h <;> exact (List.cons.inj h).1
    by_contra hp
    obtain ⟨j, hj⟩ := Option.ne_none_iff_exists'.mp hp
    simp only [parse, Option.bind_eq_bind, Option.bind_eq_some_iff] at hj
    obtain ⟨⟨j', r⟩, hv, -⟩ := hj
    obtain ⟨l, rfl⟩ := obj_of_value hv
    -- in the whole text the reader would find the same object, with something left over
    have hlong := (value_append _ (((Json.obj ms).pretty 0).length + 1)
      (by rw [← h]; simp) _ q _).1 _ hv (Or.inr fun k hk => by cases hk)
    have hwhole := value_pretty (.obj ms) 0 (((Json.obj ms).pretty 0).length + 1) [] (by omega) (by simp [NoDigit])
    rw [List.append_nil, ← congrArg (value _) h, hlong] at hwhole
    have := (Prod.mk.inj (Option.some.inj hwhole)).2
    exact hq (List.append_eq_nil_iff.mp this).2

end Json

end Everywhere.Library
