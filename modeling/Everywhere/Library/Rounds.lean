import Everywhere.Library.Interleaving

/-!
# Loops that end by themselves

A loop without a bound is a program unrolled a number of times. When each round that succeeds lowers a measure, whatever
others do meanwhile, a loop that is unrolled more often than the measure at its start never comes to its bottom: neither the
number nor what stands there matters.

* `Meets.keeps` — what all steps keep holds at the end.
* `ends_bind` — what a sequence of two programs ends with.
* `ends_rounds` — **the number of turns does not matter**.
-/

open Relation

namespace Everywhere.Library

variable {σ ε α β γ : Type}

/-- What the others keep, and every step that the program may take, holds at the end. -/
theorem Meets.keeps {C : Contract σ} {p : Prog σ α} {Q : α → σ → Prop} {A : σ → Prop} {s : σ} (h : Meets C p Q s)
    (hrely : Stable C A) (hguar : ∀ s s', C.inv s → C.guar s s' → A s → A s') (hs : A s) :
    Meets C p (fun a t => Q a t ∧ A t) s := by
  induction p generalizing s with
  | ret a => exact fun t ht => ⟨(h t ht).1, (h t ht).2, hrely.star ht hs⟩
  | step act next ih =>
    intro t ht
    obtain ⟨hinv, hstep, hrest⟩ := h t ht
    exact ⟨hinv, hstep, ih _ hrest (hguar t _ hinv hstep (hrely.star ht hs))⟩

theorem Triple.keeps {C : Contract σ} {P : σ → Prop} {p : Prog σ α} {Q : α → σ → Prop} {A : σ → Prop}
    (h : Triple C P p Q) (hrely : Stable C A) (hguar : ∀ s s', C.inv s → C.guar s s' → A s → A s') :
    Triple C (fun s => P s ∧ A s) p fun a t => Q a t ∧ A t :=
  fun s hs => (h s hs.1).keeps hrely hguar hs.2

namespace Fallible

variable {env : σ → σ → Prop} {p : Fallible ε σ α} {f : α → Fallible ε σ β} {s s' : σ} {r : Except ε β}

theorem bind_assoc (p : Fallible ε σ α) (f : α → Fallible ε σ β) (g : β → Fallible ε σ γ) :
    p >>= f >>= g = p >>= fun a => f a >>= g := by
  change bind (bind p f) g = bind p fun a => bind (f a) g
  induction p with
  | ret r => cases r <;> rfl
  | step act next ih => exact congrArg (Prog.step act) (funext fun a => ih a)

/-- A sequence ends when its first program fails, or when both end. -/
theorem ends_bind : Prog.Reaches env (p >>= f : Fallible ε σ β) s (.ret r) s' ↔
    (∃ e, r = .error e ∧ Prog.Reaches env p s (.ret (.error e)) s') ∨
      ∃ a t, Prog.Reaches env p s (.ret (.ok a)) t ∧ Prog.Reaches env (f a) t (.ret r) s' := by
  constructor
  · intro h
    rcases before_bind h.before with ⟨q, hq, heq⟩ | ⟨a, t, ha, hf⟩
    · rcases q with ⟨e | a⟩ | ⟨act, next⟩
      · obtain rfl : r = .error e := Prog.ret.inj heq
        exact .inl ⟨e, rfl, hq.reaches⟩
      · exact .inr ⟨a, s', hq.reaches, by rw [show f a = .ret r from heq.symm]; exact .refl⟩
      · cases heq
    · exact .inr ⟨a, t, ha.reaches, hf.reaches⟩
  · rintro (⟨e, rfl, h⟩ | ⟨a, t, ha, hf⟩)
    · exact reaches_within f h
    · exact (reaches_within f ha).trans hf

/-- **The number of turns does not matter.** A turn of a loop looks, and then it ends or makes a round and goes on. When every
round that succeeds keeps an invariant and lowers a measure, then a loop that is unrolled more often than the measure says ends in
the same ways however often that is, and whatever stands at its bottom. -/
theorem ends_rounds {turn : Fallible ε σ α → Fallible ε σ α} {head : Fallible ε σ γ} {round : γ → Fallible ε σ Unit}
    {exit : Fallible ε σ α} {done : γ → Prop} [DecidablePred done] (I : σ → Prop) (measure : σ → ℕ)
    (hturn : ∀ again, turn again = head >>= fun c => if done c then exit else round c >>= fun _ => again)
    (hround : ∀ s c t t', I s → Prog.Reaches env head s (.ret (.ok c)) t → ¬ done c →
      Prog.Reaches env (round c) t (.ret (.ok ())) t' → I t' ∧ measure t' < measure s)
    (bottom bottom' : Fallible ε σ α) {n m : ℕ} {s s' : σ} {r : Except ε α} (hs : I s) (hn : measure s < n)
    (hm : measure s < m) :
    Prog.Reaches env (turn^[n] bottom) s (.ret r) s' ↔ Prog.Reaches env (turn^[m] bottom') s (.ret r) s' := by
  have hall : ∀ (bottom bottom' : Fallible ε σ α) (n m : ℕ) (s : σ), I s → measure s < n → measure s < m →
      Prog.Reaches env (turn^[n] bottom) s (.ret r) s' → Prog.Reaches env (turn^[m] bottom') s (.ret r) s' := by
    intro bottom bottom' n
    induction n with
    | zero => exact fun m s _ hn => by omega
    | succ n ih =>
      intro m s hs hn hm h
      obtain ⟨m, rfl⟩ : ∃ k, m = k + 1 := ⟨m - 1, by omega⟩
      rw [Function.iterate_succ_apply', hturn, ends_bind] at h ⊢
      refine h.imp_right fun ⟨c, t, hc, h⟩ => ⟨c, t, hc, ?_⟩
      split_ifs at h ⊢ with hdone
      · exact h
      · rw [ends_bind] at h ⊢
        refine h.imp_right fun ⟨u, t', hu, h⟩ => ⟨u, t', hu, ?_⟩
        obtain ⟨hI, hless⟩ := hround s c t t' hs hc hdone hu
        exact ih m t' hI (by omega) (by omega) h
  exact ⟨hall bottom bottom' n m s hs hn hm, hall bottom' bottom m n s hs hm hn⟩

end Fallible
end Everywhere.Library
