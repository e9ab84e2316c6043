import Everywhere.Library.Json

/-!
# JSON objects as maps

A program that builds a document in memory keeps an object as a map from names to values, and a member that is set anew
takes the place of the old one. Such a map writes its members in the order of their names (`Object`).

* `Object.get_set`, `Object.get_set_ne` — what is found after a member was set.
* `Object.depth_set_le` — how deep it is nested then.
* `Json.length_renderItems_le` — the text of a list.
* `Json.length_decimal_le` — the digits of a machine number.
-/

namespace Everywhere.Library

/-- A map from names to values. -/
structure Object where
  /-- The members. -/
  members : List (String × Json)
  /-- They stand in the order of their names. -/
  sorted : members.Pairwise fun a b => a.1 < b.1

namespace Object

/-- The members with one of them set. -/
def put (name : String) (value : Json) : List (String × Json) → List (String × Json)
  | [] => [(name, value)]
  | m :: ms =>
    if m.1 < name then m :: put name value ms
    else if m.1 = name then (name, value) :: ms
    else (name, value) :: m :: ms

theorem mem_put {name : String} {value : Json} {l : List (String × Json)} {m : String × Json}
    (h : m ∈ put name value l) : m = (name, value) ∨ m ∈ l := by
  induction l with
  | nil => exact .inl (List.mem_singleton.mp h)
  | cons k l ih =>
    rw [put] at h
    split_ifs at h with hlt heq
    · rcases List.mem_cons.mp h with rfl | h
      · exact .inr List.mem_cons_self
      · exact (ih h).imp_right (List.mem_cons_of_mem k)
    · exact (List.mem_cons.mp h).imp_right (List.mem_cons_of_mem k)
    · exact List.mem_cons.mp h

theorem sorted_put (name : String) (value : Json) {l : List (String × Json)} (h : l.Pairwise fun a b => a.1 < b.1) :
    (put name value l).Pairwise fun a b => a.1 < b.1 := by
  induction l with
  | nil => exact List.pairwise_singleton _ _
  | cons k l ih =>
    obtain ⟨hk, hl⟩ := List.pairwise_cons.mp h
    rw [put]
    split_ifs with hlt heq
    · refine List.pairwise_cons.mpr ⟨fun m hm => ?_, ih hl⟩
      rcases mem_put hm with rfl | hm
      · exact hlt
      · exact hk m hm
    · subst heq
      exact List.pairwise_cons.mpr ⟨hk, hl⟩
    · have hname : name < k.1 := lt_of_le_of_ne (not_lt.mp hlt) (Ne.symm heq)
      refine List.pairwise_cons.mpr ⟨fun m hm => ?_, h⟩
      rcases List.mem_cons.mp hm with rfl | hm
      · exact hname
      · exact hname.trans (hk m hm)

/-- The object with a member set. -/
def set (name : String) (value : Json) (o : Object) : Object := ⟨put name value o.members, sorted_put name value o.sorted⟩

/-- The member of a name. -/
def get (name : String) (o : Object) : Option Json := o.members.lookup name

/-- The object as a value. -/
def toJson (o : Object) : Json := .obj o.members

theorem lookup_put_self (name : String) (value : Json) (l : List (String × Json)) :
    (put name value l).lookup name = some value := by
  induction l with
  | nil => exact List.lookup_cons_self
  | cons k l ih =>
    rw [put]
    split_ifs with hlt heq
    · have hne : (name == k.1) = false := beq_eq_false_iff_ne.mpr hlt.ne'
      rw [List.lookup_cons, hne]
      exact ih
    · exact List.lookup_cons_self
    · exact List.lookup_cons_self

theorem lookup_put_ne {name other : String} (h : other ≠ name) (value : Json) (l : List (String × Json)) :
    (put name value l).lookup other = l.lookup other := by
  have hname : (other == name) = false := beq_eq_false_iff_ne.mpr h
  induction l with
  | nil => rw [put, List.lookup_cons, hname]
  | cons k l ih =>
    rw [put]
    split_ifs with hlt heq
    · rw [List.lookup_cons, List.lookup_cons, ih]
    · rw [List.lookup_cons, List.lookup_cons, heq, hname]
    · rw [List.lookup_cons, hname]

@[simp] theorem get_set (name : String) (value : Json) (o : Object) : (o.set name value).get name = some value :=
  lookup_put_self name value o.members

theorem get_set_ne {name other : String} (h : other ≠ name) (value : Json) (o : Object) :
    (o.set name value).get other = o.get other :=
  lookup_put_ne h value o.members

theorem depth_toJson_le {o : Object} {n : ℕ} : o.toJson.depth ≤ n + 1 ↔ ∀ m ∈ o.members, m.2.depth ≤ n :=
  Json.depth_obj_le

/-- A member that is nested no deeper leaves the object nested no deeper. -/
theorem depth_set_le {o : Object} {n : ℕ} (h : o.toJson.depth ≤ n + 1) {value : Json} (hvalue : value.depth ≤ n)
    (name : String) : (o.set name value).toJson.depth ≤ n + 1 := by
  rw [depth_toJson_le] at h ⊢
  intro m hm
  rcases mem_put hm with rfl | hm
  · exact hvalue
  · exact h m hm

theorem mem_of_get {o : Object} {name : String} {value : Json} (h : o.get name = some value) :
    (name, value) ∈ o.members := by
  rw [get] at h
  obtain ⟨l₁, l₂, hl, -⟩ := List.lookup_eq_some_iff.mp h
  rw [hl]
  exact List.mem_append_right _ List.mem_cons_self

end Object

namespace Json

/-- A number of at most 64 bits has at most twenty digits. -/
theorem length_decimal_le {n : ℕ} (h : n < 2 ^ 64) : (decimal n).length ≤ 20 := by
  rw [decimal]
  split_ifs with hzero
  · simp
  · rw [List.length_map, List.length_reverse]
    exact (Nat.digits_length_le_iff (by norm_num) n).mpr (h.trans (by norm_num))

/-- A list is as long as its items and the signs between them. -/
theorem length_renderItems_le {b : ℕ} {l : List Json} (h : ∀ j ∈ l, j.render.length ≤ b) :
    (renderItems l).length ≤ l.length * (b + 1) := by
  induction l with
  | nil => simp [renderItems]
  | cons j l ih =>
    have hj := h j List.mem_cons_self
    have hl := ih fun k hk => h k (List.mem_cons_of_mem j hk)
    cases l with
    | nil =>
      simp only [renderItems, List.length_cons, List.length_nil]
      omega
    | cons k l =>
      simp only [renderItems, List.length_append, List.length_cons] at hl ⊢
      nlinarith

end Json

end Everywhere.Library
