import Everywhere.Result

/-!
# Vector clocks

A clock counts the edits of each device that a revision has seen. A device that is
not mentioned has count `0`, so clocks are compared as functions from devices to
counts: `relation` says `before` exactly when the counts of the one are strictly
below the counts of the other (`relation_eq_before`), and `merge` is the least upper
bound (`get_merge`). A clock that passes `validate` mentions no device with count `0`,
and two such clocks with the same counts are the same clock (`eq_of_get_eq`).
-/

namespace Everywhere

/-- The bound of a counter of 64 bits. -/
def u64Max : ℕ := 2 ^ 64 - 1

/-- A clock: for each device the number of its edits seen. -/
structure Clock where
  /-- The counters. -/
  counters : Std.ExtTreeMap String ℕ
  deriving DecidableEq

/-- How two clocks compare. -/
inductive Relation where
  /-- The first has seen less. -/
  | before
  /-- The first has seen more. -/
  | after
  /-- Both have seen the same. -/
  | equal
  /-- Each has seen something the other has not. -/
  | concurrent
  deriving DecidableEq

/-- Which way changes flow between a share and its peers. -/
inductive Mode where
  /-- Local changes are exported, nothing is taken in. -/
  | sendOnly
  /-- Changes are taken in, nothing is exported. -/
  | receiveOnly
  /-- Both. -/
  | bidirectional
  deriving DecidableEq

namespace Clock

/-- The clock that has seen nothing. -/
def default : Clock := ⟨∅⟩

/-- The count of a device. -/
def get (c : Clock) (device : String) : ℕ := c.counters.getD device 0

/-- Check what a clock received from elsewhere must satisfy. -/
def validate (self : Clock) : Result Unit := do
  ensure (self.counters.size ≠ 0 ∧ self.counters.size ≤ 128) "invalid clock size"
  ensure (∀ e ∈ self.counters.toList, e.1 ≠ "" ∧ e.1.utf8ByteSize ≤ 128 ∧ 0 < e.2) "invalid clock entry"

/-- One more edit of a device. -/
def advance (self : Clock) (device : String) : Result Clock := do
  ensure (device ≠ "" ∧ device.utf8ByteSize ≤ 128) "invalid device identifier"
  let value := self.get device
  ensure (value + 1 ≤ u64Max) "device counter exhausted"
  pure ⟨self.counters.insert device (value + 1)⟩

/-- Everything seen by either. -/
def merge (self other : Clock) : Clock :=
  ⟨other.counters.foldl (fun result device count =>
    result.insert device (max (result.getD device 0) count)) self.counters⟩

/-- Compare two clocks, looking at every device that either mentions. -/
def relation (self other : Clock) : Relation :=
  let seen := (self.counters.keys ++ other.counters.keys).foldl (fun (seen : Bool × Bool) device =>
    (seen.1 || decide (self.get device < other.get device),
      seen.2 || decide (other.get device < self.get device))) (false, false)
  match seen with
  | (true, true) => .concurrent
  | (true, false) => .before
  | (false, true) => .after
  | (false, false) => .equal

/-! ### Counts -/

@[simp] theorem get_default (d : String) : default.get d = 0 := by simp [default, get]

theorem get_insert (m : Std.ExtTreeMap String ℕ) (k : String) (v : ℕ) (d : String) :
    (⟨m.insert k v⟩ : Clock).get d = if k = d then v else (⟨m⟩ : Clock).get d := by
  simp [get, Std.ExtTreeMap.getD_insert]

/-- Advancing a clock adds one to the device's count and changes no other. -/
theorem get_advance {c c' : Clock} {device : String} (h : c.advance device = .ok c') :
    c'.get = Function.update c.get device (c.get device + 1) := by
  rw [advance, ensure_bind_eq_ok, ensure_bind_eq_ok, pure_eq_ok] at h
  obtain ⟨-, -, rfl⟩ := h
  ext d
  rw [get_insert, Function.update_apply]
  by_cases hd : device = d <;> simp [hd, eq_comm]

theorem get_of_mem_toList {c : Clock} {e : String × ℕ} (h : e ∈ c.counters.toList) : c.get e.1 = e.2 := by
  rw [show e = (e.1, e.2) from rfl, Std.ExtTreeMap.mem_toList_iff_getElem?_eq_some] at h
  simp [get, Std.ExtTreeMap.getD_eq_getD_getElem?, h]

theorem mem_keys_of_get_ne_zero {c : Clock} {d : String} (h : c.get d ≠ 0) : d ∈ c.counters.keys := by
  rw [Std.ExtTreeMap.mem_keys]
  by_contra hd
  exact h (Std.ExtTreeMap.getD_eq_fallback hd)

/-- The fold of `merge`, over any list of counts. -/
theorem get_foldl_max (l : List (String × ℕ)) (m : Std.ExtTreeMap String ℕ) (d : String) :
    let r : Clock := ⟨l.foldl (fun r e => r.insert e.1 (max (r.getD e.1 0) e.2)) m⟩
    (⟨m⟩ : Clock).get d ≤ r.get d ∧ (∀ e ∈ l, e.1 = d → e.2 ≤ r.get d) ∧
      ∀ b, (⟨m⟩ : Clock).get d ≤ b → (∀ e ∈ l, e.1 = d → e.2 ≤ b) → r.get d ≤ b := by
  induction l generalizing m with
  | nil => simp
  | cons e l ih =>
    simp only [List.foldl_cons]
    obtain ⟨h1, h2, h3⟩ := ih (m.insert e.1 (max (m.getD e.1 0) e.2))
    rw [get_insert] at h1
    refine ⟨?_, ?_, ?_⟩
    · split_ifs at h1 with hd
      · exact le_trans (by rw [← hd]; exact le_max_left _ _) h1
      · exact h1
    · intro e' he' hd
      rcases List.mem_cons.mp he' with rfl | he'
      · rw [if_pos hd] at h1
        exact le_trans (le_max_right _ _) h1
      · exact h2 e' he' hd
    · intro b hm hl
      refine h3 b ?_ fun e' he' => hl e' (List.mem_cons_of_mem _ he')
      rw [get_insert]
      split_ifs with hd
      · exact max_le (by rw [← hd] at hm; exact hm) (hl e (by simp) hd)
      · exact hm

/-- Merging takes the larger count of each device. -/
theorem get_merge (a b : Clock) : (a.merge b).get = a.get ⊔ b.get := by
  ext d
  rw [merge, Std.ExtTreeMap.foldl_eq_foldl_toList]
  obtain ⟨h1, h2, h3⟩ := get_foldl_max b.counters.toList a.counters d
  refine le_antisymm (h3 _ le_sup_left ?_) (sup_le h1 ?_)
  · rintro e he rfl
    rw [← get_of_mem_toList he]
    exact le_sup_right
  · by_cases hd : b.get d = 0
    · rw [hd]; exact Nat.zero_le _
    · have hk := mem_keys_of_get_ne_zero hd
      rw [Std.ExtTreeMap.mem_keys, Std.ExtTreeMap.mem_iff_isSome_getElem?, Option.isSome_iff_exists] at hk
      obtain ⟨v, hv⟩ := hk
      have hmem := Std.ExtTreeMap.mem_toList_iff_getElem?_eq_some.mpr hv
      rw [get_of_mem_toList hmem]
      exact h2 _ hmem rfl

theorem foldl_seen (a b : Clock) (l : List String) (seen : Bool × Bool) :
    l.foldl (fun (seen : Bool × Bool) device =>
      (seen.1 || decide (a.get device < b.get device), seen.2 || decide (b.get device < a.get device))) seen =
      (seen.1 || l.any fun d => decide (a.get d < b.get d),
        seen.2 || l.any fun d => decide (b.get d < a.get d)) := by
  induction l generalizing seen with
  | nil => simp
  | cons d l ih => rw [List.foldl_cons, ih]; simp [Bool.or_assoc]

/-- Looking at the devices either mentions finds every difference. -/
theorem any_keys (a b : Clock) :
    ((a.counters.keys ++ b.counters.keys).any fun d => decide (a.get d < b.get d)) = true ↔
      ¬ b.get ≤ a.get := by
  rw [List.any_eq_true, Pi.le_def, not_forall]
  constructor
  · rintro ⟨d, -, h⟩
    exact ⟨d, by simpa using h⟩
  · rintro ⟨d, h⟩
    refine ⟨d, List.mem_append_right _ (mem_keys_of_get_ne_zero ?_), by simpa using h⟩
    omega

open Classical in
/-- `relation` compares the counts. -/
theorem relation_eq (a b : Clock) :
    a.relation b = (if a.get ≤ b.get then if b.get ≤ a.get then .equal else .before
      else if b.get ≤ a.get then .after else .concurrent : Relation) := by
  have hl := any_keys a b
  have hg := any_keys b a
  rw [List.any_append, Bool.or_comm, ← List.any_append] at hg
  rw [relation, foldl_seen]
  simp only [Bool.false_or]
  split_ifs with h1 h2 h2
  · rw [Bool.eq_false_iff.mpr (mt hl.mp (not_not.mpr h2)), Bool.eq_false_iff.mpr (mt hg.mp (not_not.mpr h1))]
  · rw [hl.mpr h2, Bool.eq_false_iff.mpr (mt hg.mp (not_not.mpr h1))]
  · rw [Bool.eq_false_iff.mpr (mt hl.mp (not_not.mpr h2)), hg.mpr h1]
  · rw [hl.mpr h2, hg.mpr h1]

theorem relation_eq_before {a b : Clock} : a.relation b = .before ↔ a.get < b.get := by
  rw [relation_eq, lt_iff_le_not_ge]
  split_ifs <;> simp_all

theorem relation_eq_equal {a b : Clock} : a.relation b = .equal ↔ a.get = b.get := by
  rw [relation_eq, le_antisymm_iff (a := a.get)]
  split_ifs <;> simp_all

theorem relation_eq_concurrent {a b : Clock} :
    a.relation b = .concurrent ↔ ¬ a.get ≤ b.get ∧ ¬ b.get ≤ a.get := by
  rw [relation_eq]
  split_ifs <;> simp_all

/-! ### Valid clocks -/

/-- The clock passes `validate`. -/
def Valid (c : Clock) : Prop := c.validate = .ok ()

instance (c : Clock) : Decidable c.Valid := inferInstanceAs (Decidable (_ = _))

theorem valid_iff {c : Clock} : c.Valid ↔ (c.counters.size ≠ 0 ∧ c.counters.size ≤ 128) ∧
    ∀ e ∈ c.counters.toList, e.1 ≠ "" ∧ e.1.utf8ByteSize ≤ 128 ∧ 0 < e.2 := by
  rw [Valid, validate, ensure_bind_eq_ok, ensure_eq_ok]

/-- A valid clock mentions exactly the devices with a count. -/
theorem Valid.getElem?_eq {c : Clock} (h : c.Valid) (d : String) :
    c.counters[d]? = if c.get d = 0 then none else some (c.get d) := by
  cases hd : c.counters[d]? with
  | none => simp [get, Std.ExtTreeMap.getD_eq_getD_getElem?, hd]
  | some v =>
    have hmem := Std.ExtTreeMap.mem_toList_iff_getElem?_eq_some.mpr hd
    have hv : c.get d = v := get_of_mem_toList hmem
    have hpos : 0 < v := ((valid_iff.mp h).2 _ hmem).2.2
    rw [hv, if_neg (by omega)]

/-- Valid clocks with the same counts are the same. -/
theorem eq_of_get_eq {a b : Clock} (ha : a.Valid) (hb : b.Valid) (h : a.get = b.get) : a = b := by
  obtain ⟨ma⟩ := a
  obtain ⟨mb⟩ := b
  congr 1
  apply Std.ExtTreeMap.ext_getElem?
  intro d
  rw [ha.getElem?_eq d, hb.getElem?_eq d, h]

end Clock
end Everywhere
