import Everywhere.Versions.Model

/-!
# Merging version sets

A version set stands for everything its heads have seen: the revisions that are one of
the heads or made at a clock before one of theirs. This is `Versions.known`, a lower
set of the causal order on revisions. `join` computes its heads from lists, hashes and
size limits; what it does to `known` is to take the union:

* `known_join` — a merge knows what either side knows.
* `canonical_join` — its heads are sorted by identifier, pairwise concurrent and within
  the limits; such a version set is determined by what it knows (`Canonical.ext`).
* `join_eq_left` — merging in something already known succeeds and changes nothing.

So the result of many merges depends on what went in and on nothing else:

* `join_canonical` — **the canonical causal merge**: exact heads, commutativity, independence
  of order, grouping and repetition, and absorption of what was merged before.

The identifiers are hashes. That no two of the revisions at hand share one is the
hypothesis `Set.InjOn (Revision.id P) S`, for a set `S` that holds them.
-/

namespace Everywhere

open Library

/-! ### The causal order -/

namespace Revision

/-- A revision supersedes those made at a clock before its own. -/
instance : PartialOrder Revision where
  le r s := r = s ∨ r.clock.get < s.clock.get
  le_refl r := .inl rfl
  le_trans r s t := by
    rintro (rfl | h) (rfl | h')
    · exact .inl rfl
    · exact .inr h'
    · exact .inr h
    · exact .inr (h.trans h')
  le_antisymm r s := by
    rintro (rfl | h) (h' | h')
    · rfl
    · rfl
    · exact h'.symm
    · exact absurd h' h.asymm

theorem le_iff {r s : Revision} : r ≤ s ↔ r = s ∨ r.clock.get < s.clock.get := Iff.rfl

theorem lt_iff {r s : Revision} : r < s ↔ r.clock.get < s.clock.get := by
  rw [lt_iff_le_and_ne, le_iff]
  constructor
  · rintro ⟨rfl | h, hne⟩
    · exact absurd rfl hne
    · exact h
  · exact fun h => ⟨.inr h, by rintro rfl; exact lt_irrefl _ h⟩

theorem clock_le_of_le {r s : Revision} (h : r ≤ s) : r.clock.get ≤ s.clock.get := by
  rcases h with rfl | h
  · exact le_rfl
  · exact h.le

/-- The revision passes `check`. -/
def Valid (r : Revision) : Prop := r.check = .ok ()

instance (r : Revision) : Decidable r.Valid := inferInstanceAs (Decidable (_ = _))

theorem Valid.clock {r : Revision} (h : r.Valid) : r.clock.Valid := by
  rw [Valid, check, bind_eq_ok] at h
  obtain ⟨u, hu, -⟩ := h
  exact hu

/-- A file revision that passes `check` names a digest. -/
theorem Valid.isHash {r : Revision} (h : r.Valid) {hash : String} (hc : r.content = .file hash) :
    isHash hash = true := by
  rw [Valid, check, bind_eq_ok, hc] at h
  obtain ⟨u, -, hu⟩ := h
  exact ensure_eq_ok.mp hu

end Revision

/-- No two revisions with the same clock have different contents. -/
def Consistent (s : Set Revision) : Prop :=
  ∀ a ∈ s, ∀ b ∈ s, a.clock.get = b.clock.get → a.content = b.content

theorem Consistent.mono {s t : Set Revision} (h : Consistent t) (hst : s ⊆ t) : Consistent s :=
  fun a ha b hb => h a (hst ha) b (hst hb)

theorem Consistent.eq {s : Set Revision} (h : Consistent s) {a b : Revision} (ha : a ∈ s) (hb : b ∈ s)
    (hva : a.Valid) (hvb : b.Valid) (hab : a.clock.get = b.clock.get) : a = b := by
  obtain ⟨ca, xa⟩ := a
  obtain ⟨cb, xb⟩ := b
  obtain rfl : ca = cb := Clock.eq_of_get_eq hva.clock hvb.clock hab
  obtain rfl : xa = xb := h _ ha _ hb rfl
  rfl

namespace Versions

/-- The heads as a set. -/
def headSet (v : Versions) : Set Revision := {r | r ∈ v.heads}

theorem finite_headSet (v : Versions) : v.headSet.Finite := List.finite_toSet _

@[simp] theorem mem_headSet {v : Versions} {r : Revision} : r ∈ v.headSet ↔ r ∈ v.heads := Iff.rfl

@[simp] theorem headSet_default : default.headSet = ∅ := by
  ext r; simp [default, headSet]

/-- Everything a version set knows: its heads and what they supersede. -/
def known (v : Versions) : LowerSet Revision := lowerClosure v.headSet

theorem mem_known {v : Versions} {r : Revision} : r ∈ v.known ↔ ∃ h ∈ v.heads, r ≤ h := Iff.rfl

@[simp] theorem known_default : default.known = ⊥ := by
  rw [known, headSet_default, lowerClosure_empty]

/-- What `join` demands of each side by itself. -/
structure Fits (v : Versions) : Prop where
  /-- Its text is within the limit. -/
  size_le : v.size ≤ 64 * 1024
  /-- It has at most 128 heads. -/
  length_le : v.heads.length ≤ 128
  /-- Each head is valid. -/
  valid : ∀ r ∈ v.heads, r.Valid

/-- The form in which version sets are kept. -/
structure Canonical (P : Platform) (v : Versions) : Prop extends Fits v where
  /-- The heads are sorted by identifier, without repetition. -/
  sorted : v.heads.Pairwise fun a b => a.id P < b.id P
  /-- No head supersedes another. -/
  antichain : IsAntichain (· ≤ ·) v.headSet
  /-- Heads with the same clock have the same content. -/
  consistent : Consistent v.headSet

theorem fits_default : default.Fits := ⟨by decide, by decide, by simp [default]⟩

theorem canonical_default (P : Platform) : default.Canonical P :=
  ⟨fits_default, .nil, by simp, by simp [Consistent]⟩

/-! ### What join computes -/

variable {P : Platform}

/-- The candidates that no other candidate supersedes. -/
def maximal (candidates : List Revision) : List Revision :=
  candidates.filter fun candidate =>
    !candidates.any fun other => candidate.clock.relation other.clock = .before

theorem mem_maximal {l : List Revision} {r : Revision} : r ∈ maximal l ↔ r ∈ frontier {x | x ∈ l} := by
  rw [maximal, List.mem_filter, mem_frontier]
  simp [Clock.relation_eq_before, Revision.lt_iff]

/-- When `join` succeeds, and with what. -/
theorem join_eq_ok {a b r : Versions} :
    a.join P b = .ok r ↔ a.Fits ∧ b.Fits ∧
      Consistent {x | x ∈ canon (Revision.id P) (a.heads ++ b.heads)} ∧
      r.heads = maximal (canon (Revision.id P) (a.heads ++ b.heads)) ∧
      r.heads.length ≤ 128 ∧ r.size ≤ 64 * 1024 := by
  rw [join, ensure_bind_eq_ok, ensure_bind_eq_ok, bind_eq_ok]
  simp only [ensure_bind_eq_ok, pure_eq_ok]
  have hcons : (∀ x ∈ canon (Revision.id P) (a.heads ++ b.heads),
      ∀ y ∈ canon (Revision.id P) (a.heads ++ b.heads),
        x.clock.relation y.clock ≠ .equal ∨ x.content = y.content) ↔
      Consistent {x | x ∈ canon (Revision.id P) (a.heads ++ b.heads)} := by
    simp only [Consistent, Set.mem_ofPred_eq, ne_eq, Clock.relation_eq_equal, ← imp_iff_not_or]
  rw [hcons]
  constructor
  · rintro ⟨⟨ha, hb⟩, ⟨la, lb⟩, ⟨⟩, hv, hc, hl, hs, rfl⟩
    have hv := forM_eq_ok.mp hv
    exact ⟨⟨ha, la, fun r hr => hv r (by simp [hr])⟩, ⟨hb, lb, fun r hr => hv r (by simp [hr])⟩, hc, rfl, hl, hs⟩
  · obtain ⟨heads⟩ := r
    rintro ⟨ha, hb, hc, rfl, hl, hs⟩
    refine ⟨⟨ha.1, hb.1⟩, ⟨ha.2, hb.2⟩, (), forM_eq_ok.mpr fun x hx => ?_, hc, hl, hs, rfl⟩
    rcases List.mem_append.mp hx with hx | hx
    · exact ha.valid x hx
    · exact hb.valid x hx

/-- The result of a merge is in canonical form. -/
theorem canonical_join {a b r : Versions} (h : a.join P b = .ok r) : r.Canonical P := by
  obtain ⟨ha, hb, hc, hr, hl, hs⟩ := join_eq_ok.mp h
  have hsub : r.headSet ⊆ {x | x ∈ canon (Revision.id P) (a.heads ++ b.heads)} := by
    rw [headSet, hr]
    exact fun x hx => List.mem_of_mem_filter hx
  refine ⟨⟨hs, hl, fun x hx => ?_⟩, ?_, ?_, hc.mono hsub⟩
  · rcases List.mem_append.mp (mem_of_mem_canon _ (hsub hx)) with hx | hx
    · exact ha.valid x hx
    · exact hb.valid x hx
  · rw [hr]
    exact (pairwise_canon (Revision.id P) _).sublist List.filter_sublist
  · have : r.headSet = frontier {x | x ∈ canon (Revision.id P) (a.heads ++ b.heads)} := by
      ext x; rw [mem_headSet, hr, mem_maximal]
    rw [this]
    exact isAntichain_frontier _

theorem fits_of_join {a b r : Versions} (h : a.join P b = .ok r) : a.Fits ∧ b.Fits :=
  let ⟨ha, hb, _⟩ := join_eq_ok.mp h
  ⟨ha, hb⟩

/-- Version sets in canonical form that know the same are the same. -/
theorem Canonical.ext {a b : Versions} (ha : a.Canonical P) (hb : b.Canonical P) (h : a.known = b.known) :
    a = b := by
  have hset : a.headSet = b.headSet := by
    rw [← frontier_of_isAntichain ha.antichain, ← frontier_of_isAntichain hb.antichain]
    exact frontier_eq_of_lowerClosure h
  obtain ⟨ha'⟩ := a
  obtain ⟨hb'⟩ := b
  congr 1
  exact canon_ext (Revision.id P) ha.sorted hb.sorted fun x => Set.ext_iff.mp hset x

section Injective

variable {a b r : Versions} (hid : Set.InjOn (Revision.id P) (a.headSet ∪ b.headSet))
include hid

theorem mem_canon_heads {x : Revision} :
    x ∈ canon (Revision.id P) (a.heads ++ b.heads) ↔ x ∈ a.headSet ∪ b.headSet := by
  rw [mem_canon]
  · simp
  · intro x hx y hy hxy
    exact hid (by simpa using hx) (by simpa using hy) hxy

/-- The heads of a merge are the maximal revisions of both sides. -/
theorem headSet_join (h : a.join P b = .ok r) : r.headSet = frontier (a.headSet ∪ b.headSet) := by
  obtain ⟨-, -, -, hr, -, -⟩ := join_eq_ok.mp h
  ext x
  rw [mem_headSet, hr, mem_maximal]
  congr! 2
  exact Set.ext fun y => mem_canon_heads hid

theorem consistent_of_join (h : a.join P b = .ok r) : Consistent (a.headSet ∪ b.headSet) := by
  obtain ⟨-, -, hc, -, -, -⟩ := join_eq_ok.mp h
  exact hc.mono fun x hx => (mem_canon_heads hid).mpr hx

/-- A merge knows what either side knows. -/
theorem known_join (h : a.join P b = .ok r) : r.known = a.known ⊔ b.known := by
  rw [known, headSet_join hid h, lowerClosure_frontier (a.finite_headSet.union b.finite_headSet),
    lowerClosure_union]
  rfl

/-- Merging is commutative, also in whether it succeeds. -/
theorem join_comm : a.join P b = .ok r ↔ b.join P a = .ok r := by
  have hcanon : canon (Revision.id P) (a.heads ++ b.heads) = canon (Revision.id P) (b.heads ++ a.heads) := by
    refine canon_ext (Revision.id P) (pairwise_canon _ _) (pairwise_canon _ _) fun x => ?_
    rw [mem_canon_heads hid, mem_canon_heads (Set.union_comm _ _ ▸ hid), Set.union_comm]
  rw [join_eq_ok, join_eq_ok, hcanon]
  tauto

/-- Merging in something already known succeeds and changes nothing. -/
theorem join_eq_left (ha : a.Canonical P) (hb : b.Fits) (hcb : Consistent b.headSet) (h : b.known ≤ a.known) :
    a.join P b = .ok a := by
  have hc : Consistent (a.headSet ∪ b.headSet) := by
    -- a head of `b` is a head of `a` or superseded by one, and then no head of `a` has its clock
    have hab : ∀ x ∈ a.headSet, ∀ y ∈ b.headSet, x.clock.get = y.clock.get → x.content = y.content := by
      intro x hx y hy hxy
      obtain ⟨z, hz, hyz⟩ := h (subset_lowerClosure hy)
      rcases hyz with rfl | hyz
      · exact ha.consistent x hx y hz hxy
      · exact (ha.antichain.not_lt hx hz (Revision.lt_iff.mpr (hxy ▸ hyz))).elim
    rintro x (hx | hx) y (hy | hy) hxy
    · exact ha.consistent x hx y hy hxy
    · exact hab x hx y hy hxy
    · exact (hab y hy x hx hxy.symm).symm
    · exact hcb x hx y hy hxy
  have hset : frontier (a.headSet ∪ b.headSet) = a.headSet := by
    rw [← frontier_of_isAntichain ha.antichain]
    apply frontier_eq_of_lowerClosure
    rw [lowerClosure_union, frontier_of_isAntichain ha.antichain]
    exact sup_eq_left.mpr h
  have hheads : a.heads = maximal (canon (Revision.id P) (a.heads ++ b.heads)) := by
    refine canon_ext (Revision.id P) ha.sorted ((pairwise_canon _ _).sublist List.filter_sublist) fun x => ?_
    rw [mem_maximal, ← mem_headSet, ← hset]
    congr! 2
    exact Set.ext fun y => (mem_canon_heads hid).symm
  refine join_eq_ok.mpr ⟨ha.toFits, hb, hc.mono fun x hx => (mem_canon_heads hid).mp hx,
    hheads, ha.length_le, ha.size_le⟩

end Injective

/-- The identifiers of the heads of a canonical version set are distinct. -/
theorem Canonical.injOn_id {v : Versions} (h : v.Canonical P) : Set.InjOn (Revision.id P) v.headSet := by
  intro x hx y hy hxy
  have hirr : (v.heads.map (Revision.id P)).Nodup :=
    (List.pairwise_map.mpr h.sorted).imp fun h => h.ne
  exact List.inj_on_of_nodup_map hirr hx hy hxy

/-- The canonical version sets are those that a merge into nothing leaves as they are. -/
theorem join_default {v : Versions} : default.join P v = .ok v ↔ v.Canonical P := by
  refine ⟨canonical_join, fun h => ?_⟩
  have hid : Set.InjOn (Revision.id P) (v.headSet ∪ default.headSet) := by simpa using h.injOn_id
  rw [join_comm (Set.union_comm _ _ ▸ hid)]
  exact join_eq_left hid h fits_default (canonical_default P).consistent (by simp)

/-- A new revision is the only head of its version set. -/
theorem edit_eq_ok {v r : Versions} {device : String} {content : Content} :
    v.edit P device content = .ok r ↔ ∃ clock, v.clock.advance device = .ok clock ∧
      r = ⟨[⟨clock, content⟩]⟩ ∧ r.Canonical P := by
  rw [edit, bind_eq_ok]
  refine exists_congr fun clock => and_congr_right fun _ => ?_
  constructor
  · intro h
    have hr := canonical_join h
    refine ⟨?_, hr⟩
    obtain ⟨-, -, -, hheads, -, -⟩ := join_eq_ok.mp h
    obtain ⟨heads⟩ := r
    have : maximal [(⟨clock, content⟩ : Revision)] = [⟨clock, content⟩] := by
      simp [maximal, Clock.relation_eq_before]
    simpa [default, canon, this] using hheads
  · rintro ⟨rfl, h⟩
    exact join_default.mpr h

/-! ### Many merges -/

/-- A way of merging version sets: in some order, in some grouping. -/
inductive Merging where
  /-- A version set that takes part. -/
  | input (v : Versions)
  /-- The merge of two results. -/
  | join (l r : Merging)

namespace Merging

/-- The result of the merges. -/
def eval (P : Platform) : Merging → Result Versions
  | input v => pure v
  | join l r => do
    let a ← l.eval P
    let b ← r.eval P
    a.join P b

/-- The version sets that take part. -/
def inputs : Merging → List Versions
  | input v => [v]
  | join l r => l.inputs ++ r.inputs

theorem eval_join {P : Platform} {l r : Merging} {v : Versions} :
    (join l r).eval P = .ok v ↔ ∃ a b, l.eval P = .ok a ∧ r.eval P = .ok b ∧ a.join P b = .ok v := by
  simp only [eval, bind_eq_ok]
  exact ⟨fun ⟨a, ha, b, hb, h⟩ => ⟨a, b, ha, hb, h⟩, fun ⟨a, b, ha, hb, h⟩ => ⟨a, ha, b, hb, h⟩⟩

variable {S : Set Revision} (hid : Set.InjOn (Revision.id P) S)
include hid

/-- Merging keeps to the revisions that go in, and knows what they know together. -/
theorem known_eval {t : Merging} (hS : ∀ v ∈ t.inputs, v.headSet ⊆ S) {v : Versions} (h : t.eval P = .ok v) :
    v.headSet ⊆ S ∧ ∀ x, x ∈ v.known ↔ ∃ w ∈ t.inputs, x ∈ w.known := by
  induction t generalizing v with
  | input w =>
    obtain rfl : w = v := pure_eq_ok.mp h
    exact ⟨hS w (by simp [inputs]), by simp [inputs]⟩
  | join l r ihl ihr =>
    obtain ⟨a, b, ha, hb, h⟩ := eval_join.mp h
    obtain ⟨haS, hak⟩ := ihl (fun v hv => hS v (by simp [inputs, hv])) ha
    obtain ⟨hbS, hbk⟩ := ihr (fun v hv => hS v (by simp [inputs, hv])) hb
    have hid' := hid.mono (Set.union_subset haS hbS)
    refine ⟨?_, fun x => ?_⟩
    · rw [headSet_join hid' h]
      exact frontier_subset.trans (Set.union_subset haS hbS)
    · rw [known_join hid' h, LowerSet.mem_sup_iff, hak, hbk]
      simp [inputs, or_and_right, exists_or]

/-- Each version set that takes part in a merge is within the limits and consistent. -/
theorem fits_inputs {t : Merging} (hS : ∀ v ∈ t.inputs, v.headSet ⊆ S) {v : Versions} (h : t.eval P = .ok v)
    (hv : v.Fits ∧ Consistent v.headSet) : ∀ w ∈ t.inputs, w.Fits ∧ Consistent w.headSet := by
  induction t generalizing v with
  | input w =>
    obtain rfl : w = v := pure_eq_ok.mp h
    simpa [inputs] using hv
  | join l r ihl ihr =>
    have hSl : ∀ v ∈ l.inputs, v.headSet ⊆ S := fun v hv => hS v (by simp [inputs, hv])
    have hSr : ∀ v ∈ r.inputs, v.headSet ⊆ S := fun v hv => hS v (by simp [inputs, hv])
    obtain ⟨a, b, ha, hb, h⟩ := eval_join.mp h
    obtain ⟨hfa, hfb⟩ := fits_of_join h
    have hc := consistent_of_join
      (hid.mono (Set.union_subset (known_eval hid hSl ha).1 (known_eval hid hSr hb).1)) h
    intro w hw
    rcases List.mem_append.mp hw with hw | hw
    · exact ihl hSl ha ⟨hfa, hc.mono Set.subset_union_left⟩ w hw
    · exact ihr hSr hb ⟨hfb, hc.mono Set.subset_union_right⟩ w hw

omit hid in
theorem canonical_eval_join {l r : Merging} {v : Versions} (h : (join l r).eval P = .ok v) : v.Canonical P :=
  let ⟨_, _, _, _, h⟩ := eval_join.mp h
  canonical_join h

/-- The result of merges depends on what takes part, not on the order, the grouping or repetitions. -/
theorem eval_unique {l r l' r' : Merging} (hS : ∀ v ∈ (join l r).inputs, v.headSet ⊆ S)
    (hin : ∀ v, v ∈ (join l r).inputs ↔ v ∈ (join l' r').inputs) {v v' : Versions}
    (h : (join l r).eval P = .ok v) (h' : (join l' r').eval P = .ok v') : v = v' := by
  refine (canonical_eval_join h).ext (canonical_eval_join h') (SetLike.ext fun x => ?_)
  rw [(known_eval hid hS h).2, (known_eval hid (fun w hw => hS w ((hin w).mpr hw)) h').2]
  simp only [hin]

/-- What was merged before is absorbed. -/
theorem absorb {l r : Merging} (hS : ∀ v ∈ (join l r).inputs, v.headSet ⊆ S) {v w : Versions}
    (h : (join l r).eval P = .ok v) (hw : w ∈ (join l r).inputs) : v.join P w = .ok v := by
  have hc := canonical_eval_join h
  obtain ⟨hfit, hcons⟩ := fits_inputs hid hS h ⟨hc.toFits, hc.consistent⟩ w hw
  obtain ⟨hvS, hk⟩ := known_eval hid hS h
  exact join_eq_left (hid.mono (Set.union_subset hvS (hS w hw))) hc hfit hcons
    fun x hx => (hk x).mpr ⟨w, hw, hx⟩

end Merging

/-- **The canonical causal merge.** As long as identifiers tell the revisions at hand apart: a merge has
exactly the revisions of both sides that are before no other, once each, by identifier; it is commutative;
merges of the same version sets that succeed agree whatever the order, the grouping and the repetitions; what
was merged before is absorbed; and what `join` or `edit` made passes through a merge into nothing. -/
theorem canonical_causal_merge (P : Platform) (S : Set Revision) (hid : Set.InjOn (Revision.id P) S) :
    (∀ a b r : Versions, a.headSet ⊆ S → b.headSet ⊆ S → a.join P b = .ok r →
      (∀ x, x ∈ r.heads ↔ (x ∈ a.heads ∨ x ∈ b.heads) ∧
        ∀ y, y ∈ a.heads ∨ y ∈ b.heads → x.clock.relation y.clock ≠ .before) ∧
      r.heads.Nodup ∧ r.heads.Pairwise fun x y => x.id P < y.id P) ∧
    (∀ a b r : Versions, a.headSet ⊆ S → b.headSet ⊆ S → (a.join P b = .ok r ↔ b.join P a = .ok r)) ∧
    (∀ (l r l' r' : Merging) (v v' : Versions), (∀ w ∈ (Merging.join l r).inputs, w.headSet ⊆ S) →
      (∀ w, w ∈ (Merging.join l r).inputs ↔ w ∈ (Merging.join l' r').inputs) →
      (Merging.join l r).eval P = .ok v → (Merging.join l' r').eval P = .ok v' → v = v') ∧
    (∀ (l r : Merging) (v w : Versions), (∀ w ∈ (Merging.join l r).inputs, w.headSet ⊆ S) →
      (Merging.join l r).eval P = .ok v → w ∈ (Merging.join l r).inputs → v.join P w = .ok v) ∧
    (∀ a b r : Versions, a.join P b = .ok r → default.join P r = .ok r) ∧
    ∀ (v r : Versions) (device : String) (content : Content),
      v.edit P device content = .ok r → default.join P r = .ok r := by
  refine ⟨fun a b r ha hb h => ⟨fun x => ?_, ?_, (canonical_join h).sorted⟩, fun a b r ha hb => ?_,
    fun l r l' r' v v' hS hin h h' => Merging.eval_unique hid hS hin h h',
    fun l r v w hS h hw => Merging.absorb hid hS h hw, fun a b r h => join_default.mpr (canonical_join h),
    fun v r device content h => ?_⟩
  · rw [← mem_headSet, headSet_join (hid.mono (Set.union_subset ha hb)) h, mem_frontier]
    simp [Clock.relation_eq_before, Revision.lt_iff]
  · exact (canonical_join h).sorted.imp fun hxy => by rintro rfl; exact lt_irrefl _ hxy
  · exact join_comm (hid.mono (Set.union_subset ha hb))
  · obtain ⟨_, _, _, hr⟩ := edit_eq_ok.mp h
    exact join_default.mpr hr

/-- Three edits made offline, merged in two orders. -/
theorem canonical_causal_merge_three :
    let x : Revision := ⟨⟨.ofList [("a", 1)]⟩, .directory⟩
    let y : Revision := ⟨⟨.ofList [("b", 1)]⟩, .deleted⟩
    let z : Revision := ⟨⟨.ofList [("c", 1)]⟩, .directory⟩
    let a : Merging := .input ⟨[x]⟩
    let b : Merging := .input ⟨[y]⟩
    let c : Merging := .input ⟨[z]⟩
    ((a.join b).join c).eval .sample = .ok ⟨[x, y, z]⟩ ∧
      ((c.join a).join (b.join a)).eval .sample = .ok ⟨[x, y, z]⟩ := by
  intro x y z a b c
  have h := (canonical_causal_merge .sample Set.univ
    (Revision.id_injective Platform.sample_blake3_injective).injOn).2.2.1
  have e : ((a.join b).join c).eval .sample = .ok ⟨[x, y, z]⟩ := by decide +kernel
  obtain ⟨v, e'⟩ : ∃ v, ((c.join a).join (b.join a)).eval .sample = .ok v := exists_eq_ok (by decide +kernel)
  obtain rfl : (⟨[x, y, z]⟩ : Versions) = v :=
    h _ _ _ _ _ _ (fun _ _ => Set.subset_univ _) (by intro w; simp only [a, b, c, Merging.inputs]; grind) e e'
  exact ⟨e, e'⟩

end Versions
end Everywhere
