import Everywhere.Library.Files

/-!
# Results

Every fallible function of the program returns a `Result`: a value, or an error that
carries a text or the error of a failed system call. `ensure` is the program's check:
it fails with its text when its condition does not hold.
-/

namespace Everywhere

/-- An error. -/
inductive Error where
  /-- A check that failed, or a failure given a context. -/
  | message (text : String)
  /-- A failed call. -/
  | io (error : Library.IoError)
  /-- A text that is not the JSON document expected. -/
  | json
  deriving DecidableEq

/-- The outcome of a fallible function. -/
abbrev Result (α : Type) := Except Error α

/-- Fail with a text unless the condition holds. -/
def ensure (c : Prop) [Decidable c] (text : String) : Result Unit :=
  if c then .ok () else .error (.message text)

theorem ensure_eq_ok {c : Prop} [Decidable c] {text : String} {u : Unit} :
    ensure c text = .ok u ↔ c := by
  unfold ensure
  split_ifs <;> simp_all

/-- A sequence of two steps succeeds when both do. -/
theorem bind_eq_ok {ε α β : Type} {x : Except ε α} {f : α → Except ε β} {b : β} :
    x >>= f = .ok b ↔ ∃ a, x = .ok a ∧ f a = .ok b := by
  cases x <;> simp [bind, Except.bind]

theorem pure_eq_ok {ε α : Type} {a b : α} : (pure a : Except ε α) = .ok b ↔ a = b := by
  simp [pure, Except.pure]

/-- A check followed by a step succeeds when the condition holds and the step succeeds. -/
theorem ensure_bind_eq_ok {c : Prop} [Decidable c] {text : String} {β : Type} {f : Unit → Result β} {b : β} :
    ensure c text >>= f = .ok b ↔ c ∧ f () = .ok b := by
  rw [bind_eq_ok]
  exact ⟨fun ⟨_, h, h'⟩ => ⟨ensure_eq_ok.mp h, h'⟩, fun ⟨h, h'⟩ => ⟨(), ensure_eq_ok.mpr h, h'⟩⟩

theorem exists_eq_ok {ε α : Type} {x : Except ε α} (h : x.toOption.isSome) : ∃ a, x = .ok a := by
  cases x with
  | error e => cases h
  | ok a => exact ⟨a, rfl⟩

/-- A loop of checks succeeds when each check does. -/
theorem forM_eq_ok {ε α : Type} {l : List α} {f : α → Except ε Unit} :
    l.forM f = .ok () ↔ ∀ a ∈ l, f a = .ok () := by
  induction l with
  | nil => simp [pure, Except.pure]
  | cons a l ih =>
    change (f a >>= fun _ => l.forM f) = .ok () ↔ _
    rw [bind_eq_ok]
    constructor
    · rintro ⟨⟨⟩, ha, hl⟩
      exact List.forall_mem_cons.mpr ⟨ha, ih.mp hl⟩
    · exact fun h => ⟨(), h a (by simp), ih.mpr fun b hb => h b (by simp [hb])⟩

end Everywhere
