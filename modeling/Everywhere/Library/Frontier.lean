import Mathlib

/-!
# Frontiers of a partial order

A register that keeps concurrent values holds the maximal elements of everything it
has been given: its *frontier*. What a frontier stands for is the set of elements
below it, and this set, not the list of maxima, is what merging adds up. For finite
sets the two say the same:

* `lowerClosure_frontier` — dropping what is not maximal loses nothing below.
* `frontier_eq_of_lowerClosure` — two sets with the same elements below them have the
  same maxima.

The second half is about the list that represents a frontier: sorted by a key, without
repetitions. Two such lists with the same members are equal (`canon_ext`).
-/

namespace Everywhere.Library

section Order

variable {α : Type*} [PartialOrder α] {s t : Set α} {a : α}

/-- The maximal elements of a set. -/
def frontier (s : Set α) : Set α := {a | Maximal (· ∈ s) a}

theorem mem_frontier : a ∈ frontier s ↔ a ∈ s ∧ ∀ b ∈ s, ¬ a < b := by
  rw [frontier, Set.mem_ofPred_eq, maximal_iff_forall_gt]
  exact and_congr_right fun _ => ⟨fun h b hb hab => h hab hb, fun h b hab hb => h b hb hab⟩

theorem frontier_subset : frontier s ⊆ s := fun _ h => h.prop

/-- No element of a frontier is below another. -/
theorem isAntichain_frontier (s : Set α) : IsAntichain (· ≤ ·) (frontier s) :=
  fun _ ha _ hb hne hle => hne (ha.eq_of_le hb.prop hle)

theorem frontier_of_isAntichain (h : IsAntichain (· ≤ ·) s) : frontier s = s := by
  refine frontier_subset.antisymm fun a ha => mem_frontier.mpr ⟨ha, fun b hb hab => ?_⟩
  exact hab.ne (h.eq ha hb hab.le)

/-- Every element of a finite set is below its frontier. -/
theorem exists_frontier_ge (hs : s.Finite) (ha : a ∈ s) : ∃ b ∈ frontier s, a ≤ b := by
  obtain ⟨b, hab, hb⟩ := hs.exists_le_maximal ha
  exact ⟨b, hb, hab⟩

theorem lowerClosure_frontier (hs : s.Finite) : lowerClosure (frontier s) = lowerClosure s := by
  refine le_antisymm (lowerClosure_mono frontier_subset) ?_
  rw [lowerClosure_le]
  exact fun a ha => exists_frontier_ge hs ha

/-- The maximal elements below a set are its own maximal elements. -/
theorem frontier_lowerClosure (s : Set α) : frontier (lowerClosure s : Set α) = frontier s := by
  ext a
  rw [mem_frontier, mem_frontier]
  constructor
  · rintro ⟨⟨b, hb, hab⟩, hmax⟩
    obtain rfl : a = b := eq_of_le_of_not_lt hab (hmax b (subset_lowerClosure hb))
    exact ⟨hb, fun c hc => hmax c (subset_lowerClosure hc)⟩
  · rintro ⟨ha, hmax⟩
    refine ⟨subset_lowerClosure ha, fun b ⟨c, hc, hbc⟩ hab => hmax c hc (hab.trans_le hbc)⟩

/-- What lies below a set determines its frontier. -/
theorem frontier_eq_of_lowerClosure (h : lowerClosure s = lowerClosure t) : frontier s = frontier t := by
  rw [← frontier_lowerClosure s, h, frontier_lowerClosure]

end Order

section Canon

variable {α κ : Type*} [LinearOrder κ] (key : α → κ)

/-- A list sorted by a key, the later one of two neighbours with the same key dropped. -/
def canon (l : List α) : List α :=
  (l.insertionSort fun a b => key a ≤ key b).destutter fun a b => key a ≠ key b

theorem pairwise_sort (l : List α) :
    (l.insertionSort fun a b => key a ≤ key b).Pairwise fun a b => key a ≤ key b :=
  have : Std.Total (fun a b : α => key a ≤ key b) := ⟨fun a b => le_total (key a) (key b)⟩
  have : IsTrans α (fun a b => key a ≤ key b) := ⟨fun _ _ _ h h' => le_trans h h'⟩
  List.pairwise_insertionSort _ l

/-- The keys of a canonical list increase strictly. -/
theorem pairwise_canon (l : List α) : (canon key l).Pairwise fun a b => key a < key b := by
  have hle : (canon key l).Pairwise fun a b => key a ≤ key b :=
    (pairwise_sort key l).sublist (List.destutter_sublist _ _)
  have hne := List.isChain_destutter (fun a b => key a ≠ key b) (l.insertionSort fun a b => key a ≤ key b)
  have hlt : (canon key l).IsChain fun a b => key a < key b := by
    rw [List.isChain_iff_getElem] at hne ⊢
    exact fun i hi => lt_of_le_of_ne (List.isChain_iff_getElem.mp hle.isChain i hi) (hne i hi)
  have : IsTrans α (fun a b => key a < key b) := ⟨fun _ _ _ h h' => lt_trans h h'⟩
  exact hlt.pairwise

theorem mem_of_mem_canon {l : List α} {a : α} (h : a ∈ canon key l) : a ∈ l :=
  (List.mem_insertionSort _).mp ((List.destutter_sublist _ _).subset h)

theorem exists_mem_destutter' (a : α) (l : List α) {b : α} (h : b ∈ a :: l) :
    ∃ c ∈ l.destutter' (fun a b => key a ≠ key b) a, key c = key b := by
  induction l generalizing a b with
  | nil =>
    obtain rfl : b = a := by simpa using h
    exact ⟨b, by simp, rfl⟩
  | cons x l ih =>
    by_cases hx : key a = key x
    · rw [List.destutter'_cons_neg _ (by simpa using hx)]
      rcases List.mem_cons.mp h with rfl | h
      · exact ih b (by simp)
      · rcases List.mem_cons.mp h with rfl | h
        · obtain ⟨c, hc, hk⟩ := ih a (b := a) (by simp)
          exact ⟨c, hc, hk.trans hx⟩
        · exact ih a (List.mem_cons_of_mem _ h)
    · rw [List.destutter'_cons_pos _ (by simpa using hx)]
      rcases List.mem_cons.mp h with rfl | h
      · exact ⟨b, by simp, rfl⟩
      · obtain ⟨c, hc, hk⟩ := ih x h
        exact ⟨c, List.mem_cons_of_mem _ hc, hk⟩

/-- Every member has a representative of its key. -/
theorem exists_mem_canon {l : List α} {a : α} (h : a ∈ l) : ∃ b ∈ canon key l, key b = key a := by
  unfold canon
  have h' := (List.mem_insertionSort (fun a b => key a ≤ key b)).mpr h
  cases hl : l.insertionSort (fun a b => key a ≤ key b) with
  | nil => rw [hl] at h'; cases h'
  | cons x t =>
    rw [hl] at h'
    exact exists_mem_destutter' key x t h'

/-- When the key tells the members apart, none is lost. -/
theorem mem_canon {l : List α} (hinj : ∀ a ∈ l, ∀ b ∈ l, key a = key b → a = b) {a : α} :
    a ∈ canon key l ↔ a ∈ l := by
  refine ⟨mem_of_mem_canon key, fun h => ?_⟩
  obtain ⟨b, hb, hk⟩ := exists_mem_canon key h
  exact hinj b (mem_of_mem_canon key hb) a h hk ▸ hb

/-- Lists with strictly increasing keys and the same members are equal. -/
theorem canon_ext {l l' : List α} (h : l.Pairwise fun a b => key a < key b)
    (h' : l'.Pairwise fun a b => key a < key b) (hmem : ∀ a, a ∈ l ↔ a ∈ l') : l = l' :=
  have : Std.Irrefl (fun a b : α => key a < key b) := ⟨fun _ => lt_irrefl _⟩
  have : Std.Antisymm (fun a b : α => key a < key b) := ⟨fun _ _ h h' => absurd h' h.asymm⟩
  h.eq_of_mem_iff h' hmem

end Canon

end Everywhere.Library

