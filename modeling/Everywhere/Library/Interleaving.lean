import Mathlib

/-!
# Programs among others

A program that works on files is not alone. Between any two of its system calls other
programs may act, and it may be stopped for good at any call. A `Prog` is a program cut
into its atomic steps, so that both can be said:

* `Reaches env p s q s'` — started as `p` in state `s`, the program may be in the middle,
  with `q` left to do, when the state is `s'`; in between, `env` acted at will. A crash is
  nothing else than to stop there.
* `Life` — a program that ends or crashes is followed by another one.
* `run` — the run that nobody disturbs.

A `Contract` says what is relied on, what each step of the program guarantees and what
holds at all times, and `Meets` says of a program in a state that it keeps the contract
and ends in a given postcondition. It is computed over the steps of the program; the rules
that follow it (`Triple.act`, `Triple.bind`, `Triple.andThen`, …) are the usual ones.

* `Meets.reaches` — **soundness**: what meets a contract meets it wherever it has got to.
* `Meets.life` — the same for programs that follow each other.

Programs that may fail are programs whose result is an `Except`; `andThen` is their sequence.
`Does` and `Tries` say of a program what all its steps are like, whatever it is told by others;
`Tries.triple` turns that into a triple for everything such steps keep.
-/

namespace Everywhere.Library

open Relation

variable {σ ε α β : Type}

/-- A program: atomic steps on a state, each with a result on which the rest depends. -/
inductive Prog (σ α : Type) : Type 1 where
  /-- The program has ended. -/
  | ret (a : α)
  /-- A step, and the rest. -/
  | step {β : Type} (act : σ → β × σ) (next : β → Prog σ α)

namespace Prog

/-- One program after another. -/
def bind : Prog σ α → (α → Prog σ β) → Prog σ β
  | ret a, f => f a
  | step act next, f => step act fun b => (next b).bind f

instance : Monad (Prog σ) where
  pure := ret
  bind := bind

/-- A single step. -/
def act (f : σ → α × σ) : Prog σ α := step f ret

/-- The undisturbed run. -/
def run : Prog σ α → σ → α × σ
  | ret a, s => (a, s)
  | step act next, s => (next (act s).1).run (act s).2

@[simp] theorem pure_bind (a : α) (f : α → Prog σ β) : (pure a : Prog σ α) >>= f = f a := rfl

@[simp] theorem run_pure (a : α) (s : σ) : (pure a : Prog σ α).run s = (a, s) := rfl

@[simp] theorem run_act (f : σ → α × σ) (s : σ) : (act f).run s = f s := rfl

@[simp] theorem run_bind (p : Prog σ α) (f : α → Prog σ β) (s : σ) :
    (p >>= f).run s = (f (p.run s).1).run (p.run s).2 := by
  change (p.bind f).run s = _
  induction p generalizing s with
  | ret a => rfl
  | step act next ih => exact ih _ _

/-- What a program may have come to, while `env` acts in between. -/
inductive Reaches (env : σ → σ → Prop) (p : Prog σ α) (s : σ) : Prog σ α → σ → Prop where
  /-- Nothing has happened. -/
  | refl : Reaches env p s p s
  /-- Others act. -/
  | env {q : Prog σ α} {s' s'' : σ} : Reaches env p s q s' → env s' s'' → Reaches env p s q s''
  /-- The program takes a step. -/
  | step {β : Type} {act : σ → β × σ} {next : β → Prog σ α} {s' : σ} :
      Reaches env p s (.step act next) s' → Reaches env p s (next (act s').1) (act s').2

theorem Reaches.trans {env : σ → σ → Prop} {p q r : Prog σ α} {s s' s'' : σ} (h : Reaches env p s q s')
    (h' : Reaches env q s' r s'') : Reaches env p s r s'' := by
  induction h' with
  | refl => exact h
  | env _ he ih => exact ih.env he
  | step _ ih => exact ih.step

/-- The undisturbed run is one of the runs. -/
theorem reaches_run (env : σ → σ → Prop) (p : Prog σ α) (s : σ) :
    Reaches env p s (ret (p.run s).1) (p.run s).2 := by
  induction p generalizing s with
  | ret a => exact .refl
  | step act next ih => exact (Reaches.refl.step).trans (ih _ _)

/-- What others may do less they may do. -/
theorem Reaches.mono {env env' : σ → σ → Prop} {p q : Prog σ α} {s s' : σ} (h : Reaches env p s q s')
    (he : ∀ s s', env s s' → env' s s') : Reaches env' p s q s' := by
  induction h with
  | refl => exact .refl
  | env _ hs ih => exact ih.env (he _ _ hs)
  | step _ ih => exact ih.step

/-- The undisturbed run, stopped after a number of steps: what is left to do, and the state. -/
def runFor : ℕ → Prog σ α → σ → Prog σ α × σ
  | n + 1, step act next, s => (next (act s).1).runFor n (act s).2
  | _, p, s => (p, s)

theorem reaches_runFor (env : σ → σ → Prop) (n : ℕ) (p : Prog σ α) (s : σ) :
    Reaches env p s (p.runFor n s).1 (p.runFor n s).2 := by
  induction n generalizing p s with
  | zero => exact .refl
  | succ n ih =>
    cases p with
    | ret a => exact .refl
    | step act next => exact (Reaches.refl.step).trans (ih _ _)

/-- What a program may have come to without a step that is to `stop` it. -/
inductive Before (stop : ∀ γ : Type, (σ → γ × σ) → σ → Prop) (env : σ → σ → Prop) (p : Prog σ α) (s : σ) :
    Prog σ α → σ → Prop where
  /-- Nothing has happened. -/
  | refl : Before stop env p s p s
  /-- Others act. -/
  | env {q : Prog σ α} {s' s'' : σ} : Before stop env p s q s' → env s' s'' → Before stop env p s q s''
  /-- The program takes a step. -/
  | step {β : Type} {act : σ → β × σ} {next : β → Prog σ α} {s' : σ} : Before stop env p s (.step act next) s' →
      ¬ stop β act s' → Before stop env p s (next (act s').1) (act s').2

section Before

variable {stop : ∀ γ : Type, (σ → γ × σ) → σ → Prop} {env : σ → σ → Prop} {p q : Prog σ α} {s s' : σ}

theorem Before.reaches (h : Before stop env p s q s') : Reaches env p s q s' := by
  induction h with
  | refl => exact .refl
  | env _ he ih => exact ih.env he
  | step _ _ ih => exact ih.step

theorem Reaches.before (h : Reaches env p s q s') : Before (fun _ _ _ => False) env p s q s' := by
  induction h with
  | refl => exact .refl
  | env _ he ih => exact ih.env he
  | step _ ih => exact ih.step id

/-- What a program that took no step comes to is what others made. -/
theorem Before.of_ret {a : α} (h : Before stop env (.ret a) s q s') : q = .ret a ∧ ReflTransGen env s s' := by
  induction h with
  | refl => exact ⟨rfl, .refl⟩
  | env _ he ih => exact ⟨ih.1, ih.2.tail he⟩
  | step _ _ ih => cases ih.1

/-- A single step is still to be taken, or was taken and not to be stopped. -/
theorem Before.of_act {f : σ → α × σ} (h : Before stop env (act f) s q s') :
    (q = act f ∧ ReflTransGen env s s') ∨
      ∃ t, ReflTransGen env s t ∧ ¬ stop α f t ∧ q = .ret (f t).1 ∧ ReflTransGen env (f t).2 s' := by
  generalize hp : act f = p at h
  induction h with
  | refl => exact .inl ⟨rfl, .refl⟩
  | env _ he ih =>
    rcases ih with ⟨hq, hs⟩ | ⟨t, ht, hstop, hq, hs⟩
    · exact .inl ⟨hq, hs.tail he⟩
    · exact .inr ⟨t, ht, hstop, hq, hs.tail he⟩
  | step _ hstop ih =>
    rcases ih with ⟨hq, hs⟩ | ⟨t, _, _, hq, _⟩
    · cases hp.trans hq.symm
      exact .inr ⟨_, hs, hstop, rfl, .refl⟩
    · cases hq

end Before

/-- Programs that follow each other: each may be stopped anywhere, what `lost` forgets is lost then, and one
that may `start` in the state that remains is next. -/
inductive Life (env : σ → σ → Prop) (lost : σ → σ) (start : σ → Prog σ α → Prop) (p : Prog σ α) (s : σ) :
    Prog σ α → σ → Prop where
  /-- Nothing has happened. -/
  | refl : Life env lost start p s p s
  /-- Others act. -/
  | env {q : Prog σ α} {s' s'' : σ} : Life env lost start p s q s' → env s' s'' → Life env lost start p s q s''
  /-- The program takes a step. -/
  | step {β : Type} {act : σ → β × σ} {next : β → Prog σ α} {s' : σ} :
      Life env lost start p s (.step act next) s' → Life env lost start p s (next (act s').1) (act s').2
  /-- The program ends or is stopped, and another one starts. -/
  | restart {q r : Prog σ α} {s' : σ} :
      Life env lost start p s q s' → start (lost s') r → Life env lost start p s r (lost s')

theorem Life.of_reaches {env : σ → σ → Prop} {lost : σ → σ} {start : σ → Prog σ α → Prop} {p q : Prog σ α}
    {s s' : σ} (h : Reaches env p s q s') : Life env lost start p s q s' := by
  induction h with
  | refl => exact .refl
  | env _ he ih => exact ih.env he
  | step _ ih => exact ih.step

end Prog

/-! ### Contracts -/

/-- The terms on which a program runs. -/
structure Contract (σ : Type) where
  /-- What others may do between two steps. -/
  rely : σ → σ → Prop
  /-- What a step of the program may do. -/
  guar : σ → σ → Prop
  /-- What holds at all times. -/
  inv : σ → Prop

variable {C : Contract σ}

/-- The program, started in the state, keeps the contract, and `Q` holds when it has ended. -/
def Meets (C : Contract σ) : Prog σ α → (α → σ → Prop) → σ → Prop
  | .ret a, Q, s => ∀ s', ReflTransGen C.rely s s' → C.inv s' ∧ Q a s'
  | .step act next, Q, s => ∀ s', ReflTransGen C.rely s s' →
      C.inv s' ∧ C.guar s' (act s').2 ∧ Meets C (next (act s').1) Q (act s').2

/-- What others cannot invalidate. -/
def Stable (C : Contract σ) (a : σ → Prop) : Prop := ∀ s s', C.rely s s' → a s → a s'

theorem Stable.and {a b : σ → Prop} (ha : Stable C a) (hb : Stable C b) : Stable C fun s => a s ∧ b s :=
  fun s s' h hab => ⟨ha s s' h hab.1, hb s s' h hab.2⟩

theorem Stable.star {a : σ → Prop} (ha : Stable C a) {s s' : σ} (h : ReflTransGen C.rely s s') (hs : a s) :
    a s' := by
  induction h with
  | refl => exact hs
  | tail _ h ih => exact ha _ _ h ih

namespace Meets

variable {p : Prog σ α} {Q Q' : α → σ → Prop} {s s' : σ}

theorem inv (h : Meets C p Q s) : C.inv s := by
  cases p with
  | ret a => exact (h s .refl).1
  | step act next => exact (h s .refl).1

theorem rely (h : Meets C p Q s) (hs : C.rely s s') : Meets C p Q s' := by
  cases p with
  | ret a => exact fun t ht => h t (ht.head hs)
  | step act next => exact fun t ht => h t (ht.head hs)

theorem mono (h : Meets C p Q s) (hp : ∀ a t, Q a t → Q' a t) : Meets C p Q' s := by
  induction p generalizing s with
  | ret a => exact fun t ht => ⟨(h t ht).1, hp a t (h t ht).2⟩
  | step act next ih =>
    intro t ht
    obtain ⟨h1, h2, h3⟩ := h t ht
    exact ⟨h1, h2, ih _ h3⟩

/-- A program may be held to less than it guarantees. -/
theorem weaken {G : σ → σ → Prop} (h : Meets C p Q s) (hG : ∀ s s', C.guar s s' → G s s') :
    Meets { C with guar := G } p Q s := by
  induction p generalizing s with
  | ret a => exact h
  | step act next ih =>
    intro t ht
    obtain ⟨h1, h2, h3⟩ := h t ht
    exact ⟨h1, hG _ _ h2, ih _ h3⟩

/-- **Soundness**: a program that meets a contract meets it wherever it has got to. -/
theorem reaches {q : Prog σ α} (h : Meets C p Q s) (hr : Prog.Reaches C.rely p s q s') : Meets C q Q s' := by
  induction hr with
  | refl => exact h
  | env _ he ih => exact ih.rely he
  | step _ ih => exact (ih _ .refl).2.2

/-- What the next step guarantees. -/
theorem guar {γ : Type} {act : σ → γ × σ} {next : γ → Prog σ α} (h : Meets C (.step act next) Q s) :
    C.guar s (act s).2 :=
  (h s .refl).2.1

/-- A run is made of what others do and of what the program guarantees. -/
theorem trace {q : Prog σ α} (h : Meets C p Q s) (hr : Prog.Reaches C.rely p s q s') :
    ReflTransGen (fun s s' => C.rely s s' ∨ C.guar s s') s s' := by
  induction hr with
  | refl => exact .refl
  | env _ he ih => exact ih.tail (.inl he)
  | step hr ih => exact ih.tail (.inr (h.reaches hr).guar)

theorem post_of_ret {a : α} (h : Meets C (.ret a) Q s) : Q a s := (h s .refl).2

/-- The undisturbed run ends in the postcondition. -/
theorem run (h : Meets C p Q s) : Q (p.run s).1 (p.run s).2 :=
  (h.reaches (Prog.reaches_run C.rely p s)).post_of_ret

/-- Soundness for programs that follow each other. -/
theorem life {lost : σ → σ} {start : σ → Prog σ α → Prop} {q : Prog σ α}
    (hstart : ∀ t r, C.inv t → start (lost t) r → Meets C r (fun _ _ => True) (lost t))
    (h : Meets C p (fun _ _ => True) s) (hl : Prog.Life C.rely lost start p s q s') :
    Meets C q (fun _ _ => True) s' := by
  induction hl with
  | refl => exact h
  | env _ he ih => exact ih.rely he
  | step _ ih => exact (ih _ .refl).2.2
  | restart _ hr ih => exact hstart _ _ ih.inv hr

theorem bind {f : α → Prog σ β} {Q : β → σ → Prop} {mid : α → σ → Prop} (h : Meets C p mid s)
    (hf : ∀ a t, mid a t → Meets C (f a) Q t) : Meets C (p >>= f) Q s := by
  change Meets C (p.bind f) Q s
  induction p generalizing s with
  | ret a => exact hf a s h.post_of_ret
  | step act next ih =>
    intro t ht
    obtain ⟨h1, h2, h3⟩ := h t ht
    exact ⟨h1, h2, ih _ h3⟩

end Meets

/-- The program meets the contract from every state that satisfies `P`. -/
def Triple (C : Contract σ) (P : σ → Prop) (p : Prog σ α) (Q : α → σ → Prop) : Prop :=
  ∀ s, P s → Meets C p Q s

namespace Triple

variable {P P' : σ → Prop} {p : Prog σ α} {Q Q' : α → σ → Prop}

theorem conseq (h : Triple C P p Q) (hpre : ∀ s, P' s → P s) (hpost : ∀ a s, Q a s → Q' a s) :
    Triple C P' p Q' :=
  fun s hs => (h s (hpre s hs)).mono hpost

theorem weaken {G : σ → σ → Prop} (h : Triple C P p Q) (hG : ∀ s s', C.guar s s' → G s s') :
    Triple { C with guar := G } P p Q := fun s hs => (h s hs).weaken hG

theorem bind {f : α → Prog σ β} {mid : α → σ → Prop} {Q : β → σ → Prop} (h : Triple C P p mid)
    (hf : ∀ a, Triple C (mid a) (f a) Q) : Triple C P (p >>= f) Q :=
  fun s hs => (h s hs).bind fun a t => hf a t

theorem ret {a : α} (hs : Stable C (Q a)) (hi : ∀ s, Q a s → C.inv s) :
    Triple C (Q a) (Prog.ret a) Q :=
  fun _ h t ht => ⟨hi t (hs.star ht h), hs.star ht h⟩

/-- A step: what holds before it may be relied on, what holds after it follows. -/
theorem act {f : σ → α × σ} (hpre : Stable C P) (hinv : ∀ s, P s → C.inv s) (hpost : ∀ a, Stable C (Q a))
    (hinv' : ∀ a s, Q a s → C.inv s) (h : ∀ s, P s → C.guar s (f s).2 ∧ Q (f s).1 (f s).2) :
    Triple C P (Prog.act f) Q := by
  intro s hs t ht
  have ht := hpre.star ht hs
  refine ⟨hinv t ht, (h t ht).1, fun u hu => ?_⟩
  have hu := (hpost _).star hu (h t ht).2
  exact ⟨hinv' _ u hu, hu⟩

end Triple

/-! ### Programs that may fail -/

/-- A program that ends in a value or an error. -/
def Fallible (ε σ α : Type) : Type 1 := Prog σ (Except ε α)

/-- A postcondition for the values and one for the errors. -/
def outcome (Q : α → σ → Prop) (err : ε → σ → Prop) : Except ε α → σ → Prop
  | .ok a => Q a
  | .error e => err e

namespace Fallible

/-- A value or an error, without a step. -/
def ofExcept (r : Except ε α) : Fallible ε σ α := Prog.ret r

/-- What follows a program is left out when the program fails. -/
def bind (p : Fallible ε σ α) (f : α → Fallible ε σ β) : Fallible ε σ β :=
  Prog.bind p fun
    | .ok a => f a
    | .error e => .ret (.error e)

instance : Monad (Fallible ε σ) where
  pure a := ofExcept (.ok a)
  bind := bind

instance : MonadLift (Except ε) (Fallible ε σ) := ⟨ofExcept⟩

/-- Fail. -/
def fail (e : ε) : Fallible ε σ α := ofExcept (.error e)

/-- A step that may fail. -/
def act (f : σ → Except ε α × σ) : Fallible ε σ α := Prog.act f

/-- A step that reads and cannot fail. -/
def look (f : σ → α) : Fallible ε σ α := Prog.act fun s => (.ok (f s), s)

/-- Run a program, and take an error for its result. -/
def attempt (p : Fallible ε σ α) : Fallible ε σ (Except ε α) := Prog.bind p fun r => .ret (.ok r)

/-- The undisturbed run. -/
def run (p : Fallible ε σ α) (s : σ) : Except ε α × σ := Prog.run p s

@[simp] theorem lift_eq (r : Except ε α) : (liftM r : Fallible ε σ α) = ofExcept r := rfl

@[simp] theorem run_ofExcept (r : Except ε α) (s : σ) : run (ofExcept r) s = (r, s) := rfl

@[simp] theorem run_pure (a : α) (s : σ) : run (pure a : Fallible ε σ α) s = (.ok a, s) := rfl

@[simp] theorem run_act (f : σ → Except ε α × σ) (s : σ) : run (act f) s = f s := rfl

@[simp] theorem run_look (f : σ → α) (s : σ) : run (look f : Fallible ε σ α) s = (.ok (f s), s) := rfl

theorem run_bind (p : Fallible ε σ α) (f : α → Fallible ε σ β) (s : σ) :
    run (p >>= f) s = match run p s with
      | (.ok a, s') => run (f a) s'
      | (.error e, s') => (.error e, s') := by
  refine (Prog.run_bind p _ s).trans ?_
  unfold run
  rcases Prog.run p s with ⟨_ | a, s'⟩ <;> rfl

/-- A sequence succeeds when both programs do. -/
theorem run_bind_eq_ok {p : Fallible ε σ α} {f : α → Fallible ε σ β} {s s' : σ} {b : β} :
    run (p >>= f) s = (.ok b, s') ↔ ∃ a t, run p s = (.ok a, t) ∧ run (f a) t = (.ok b, s') := by
  rw [run_bind]
  rcases run p s with ⟨e | a, t⟩
  · simp
  · simp

/-- A loop whose first part succeeds goes on with the second. -/
theorem run_forM_append {l l' : List α} {f : α → Fallible ε σ PUnit} {s t : σ}
    (h : run (l.forM f) s = (.ok ⟨⟩, t)) : run ((l ++ l').forM f) s = run (l'.forM f) t := by
  induction l generalizing s with
  | nil =>
    obtain rfl : s = t := (Prod.mk.inj h).2
    rfl
  | cons a l ih =>
    obtain ⟨⟨⟩, u, ha, hl⟩ := run_bind_eq_ok.mp h
    change run (f a >>= fun _ => (l ++ l').forM f) s = _
    rw [run_bind, ha]
    exact ih hl

/-- A sequence gets to its second program when the first succeeds. -/
theorem reaches_bind {env : σ → σ → Prop} {p : Fallible ε σ α} {f : α → Fallible ε σ β} {s : σ} {a : α}
    (h : (run p s).1 = .ok a) : Prog.Reaches env (bind p f) s (f a) (run p s).2 := by
  change Prog.Reaches env (Prog.bind p _) s (f a) (Prog.run p s).2
  change (Prog.run p s).1 = .ok a at h
  induction p generalizing s with
  | ret r =>
    obtain rfl : r = .ok a := h
    exact .refl
  | step act next ih => exact (Prog.Reaches.refl.step).trans (ih _ h)

/-- A sequence is in its first program, or this has succeeded and it is in the second. -/
theorem before_bind {stop : ∀ γ : Type, (σ → γ × σ) → σ → Prop} {env : σ → σ → Prop} {p : Fallible ε σ α}
    {f : α → Fallible ε σ β} {s s' : σ} {q : Fallible ε σ β} (h : Prog.Before stop env (bind p f) s q s') :
    (∃ q' : Fallible ε σ α, Prog.Before stop env p s q' s' ∧ q = bind q' f) ∨
      ∃ a t, Prog.Before stop env p s (.ret (.ok a)) t ∧ Prog.Before stop env (f a) t q s' := by
  generalize hr : bind p f = r at h
  induction h with
  | refl => exact .inl ⟨p, .refl, hr.symm⟩
  | env _ he ih =>
    rcases ih with ⟨q', hq', rfl⟩ | ⟨a, t, ha, hf⟩
    · exact .inl ⟨q', hq'.env he, rfl⟩
    · exact .inr ⟨a, t, ha, hf.env he⟩
  | @step γ act next t _ hs ih =>
    rcases ih with ⟨q', hq', heq⟩ | ⟨a, t, ha, hf⟩
    · rcases q' with ⟨_ | a⟩ | ⟨act', next'⟩
      · cases heq
      · have hf : Prog.Before stop env (f a) t (.step act next) t := by
          rw [heq]
          exact .refl
        exact .inr ⟨a, t, hq', hf.step hs⟩
      · cases heq
        exact .inl ⟨_, hq'.step hs, rfl⟩
    · exact .inr ⟨a, t, ha, hf.step hs⟩

/-- What its first program comes to, a sequence comes to. -/
theorem reaches_within {env : σ → σ → Prop} {p q : Fallible ε σ α} (f : α → Fallible ε σ β) {s s' : σ}
    (h : Prog.Reaches env p s q s') : Prog.Reaches env (bind p f) s (bind q f) s' := by
  induction h with
  | refl => exact .refl
  | env _ he ih => exact ih.env he
  | step _ ih => exact ih.step

theorem run_attempt (p : Fallible ε σ α) (s : σ) : run (attempt p) s = (.ok (run p s).1, (run p s).2) :=
  Prog.run_bind p _ s

end Fallible

namespace Triple

variable {P : σ → Prop} {Q : α → σ → Prop} {err : ε → σ → Prop}

/-- The sequence of two programs that may fail. -/
theorem andThen {p : Fallible ε σ α} {f : α → Fallible ε σ β} {Q' : β → σ → Prop}
    (h : Triple C P p (outcome Q err)) (hf : ∀ a, Triple C (Q a) (f a) (outcome Q' err)) :
    Triple C P (p >>= f : Fallible ε σ β) (outcome Q' err) := by
  intro s hs
  replace h := h s hs
  change Meets C (Prog.bind p _) _ s
  clear hs
  induction p generalizing s with
  | ret r =>
    cases r with
    | error e => exact h
    | ok a => exact hf a s h.post_of_ret
  | step act next ih =>
    intro t ht
    obtain ⟨h1, h2, h3⟩ := h t ht
    exact ⟨h1, h2, ih _ _ h3⟩

theorem attempt {p : Fallible ε σ α} {err' : ε → σ → Prop} (h : Triple C P p (outcome Q err)) :
    Triple C P (Fallible.attempt p) (outcome (outcome Q err) err') := by
  intro s hs
  replace h := h s hs
  change Meets C (Prog.bind p _) _ s
  clear hs
  induction p generalizing s with
  | ret r => exact h
  | step act next ih =>
    intro t ht
    obtain ⟨h1, h2, h3⟩ := h t ht
    exact ⟨h1, h2, ih _ _ h3⟩

/-- A result that takes no step. -/
theorem ofExcept {r : Except ε α} (hs : Stable C P) (hi : ∀ s, P s → C.inv s)
    (h : ∀ s, P s → outcome Q err r s) : Triple C P (Fallible.ofExcept r) (outcome Q err) :=
  fun _ hp t ht => ⟨hi t (hs.star ht hp), h t (hs.star ht hp)⟩

/-- A fact that does not depend on the state may be assumed outside. -/
theorem fact {c : Prop} {p : Prog σ α} {Q : α → σ → Prop} (h : c → Triple C P p Q) :
    Triple C (fun s => P s ∧ c) p Q := fun s hs => h hs.2 s hs.1

/-- A step that reads: what holds of everything that may be read holds of what was read. -/
theorem look {f : σ → α} {V : α → Prop} (hs : Stable C P) (hi : ∀ s, P s → C.inv s) (hg : ∀ s, C.guar s s)
    (h : ∀ s, P s → V (f s)) : Triple C P (Fallible.look f : Fallible ε σ α)
      (outcome (fun a s => P s ∧ V a) fun _ => P) := by
  refine (Triple.act (Q := fun r s => ∃ a, r = Except.ok a ∧ P s ∧ V a) hs hi (fun a => ?_) (fun a s hr => ?_)
    fun s hp => ⟨hg s, _, rfl, hp, h s hp⟩).conseq (fun _ h => h) fun r s hr => ?_
  · rintro s s' hstep ⟨b, hb, hp, hv⟩
    exact ⟨b, hb, hs s s' hstep hp, hv⟩
  · obtain ⟨_, -, hp, -⟩ := hr
    exact hi s hp
  · obtain ⟨a, rfl, hr⟩ := hr
    exact hr

/-- A sequence whose second part needs to know the result of the first. -/
theorem seq {p : Fallible ε σ α} {f : α → Fallible ε σ β} {V : α → Prop} {Q' : β → σ → Prop}
    (h : Triple C P p (outcome (fun a s => P s ∧ V a) err))
    (hf : ∀ a, V a → Triple C P (f a) (outcome Q' err)) :
    Triple C P (p >>= f : Fallible ε σ β) (outcome Q' err) :=
  andThen h fun a => fact fun ha => hf a ha

end Triple

/-! ### What a program is made of -/

/-- Every step of the program is one of those allowed. -/
def Only (allowed : ∀ γ : Type, (σ → γ × σ) → Prop) : Prog σ α → Prop
  | .ret _ => True
  | .step (β := γ) act next => allowed γ act ∧ ∀ b, Only allowed (next b)

namespace Only

variable {allowed : ∀ γ : Type, (σ → γ × σ) → Prop}

theorem act {f : σ → α × σ} (h : allowed α f) : Only allowed (Prog.act f) := ⟨h, fun _ => trivial⟩

theorem mono {allowed' : ∀ γ : Type, (σ → γ × σ) → Prop} {p : Prog σ α} (h : Only allowed p)
    (ha : ∀ γ act, allowed γ act → allowed' γ act) : Only allowed' p := by
  induction p with
  | ret a => trivial
  | step act next ih => exact ⟨ha _ _ h.1, fun b => ih b (h.2 b)⟩

theorem ofExcept (r : Except ε α) : Only allowed (Fallible.ofExcept r : Fallible ε σ α) := trivial

theorem andThen {p : Fallible ε σ α} {f : α → Fallible ε σ β} (h : Only allowed p) (hf : ∀ a, Only allowed (f a)) :
    Only allowed (p >>= f : Fallible ε σ β) := by
  change Only allowed (Prog.bind p _)
  induction p with
  | ret r =>
    cases r with
    | error e => trivial
    | ok a => exact hf a
  | step act next ih => exact ⟨h.1, fun b => ih b (h.2 b)⟩

theorem attempt {p : Fallible ε σ α} (h : Only allowed p) : Only allowed (Fallible.attempt p) := by
  change Only allowed (Prog.bind p _)
  induction p with
  | ret r => trivial
  | step act next ih => exact ⟨h.1, fun b => ih b (h.2 b)⟩

theorem forM {l : List β} {f : β → Fallible ε σ Unit} (hf : ∀ b ∈ l, Only allowed (f b)) :
    Only allowed (l.forM f : Fallible ε σ Unit) := by
  induction l with
  | nil => trivial
  | cons b l ih => exact (hf b (by simp)).andThen fun _ => ih fun c hc => hf c (by simp [hc])

/-- A program whose steps do not mind a change of the state does not mind it either. -/
theorem run_comm {g : σ → σ} {p : Prog σ α}
    (h : Only (fun _ act => ∀ s, act (g s) = ((act s).1, g (act s).2)) p) (s : σ) :
    p.run (g s) = ((p.run s).1, g (p.run s).2) := by
  induction p generalizing s with
  | ret a => rfl
  | step act next ih =>
    change (next (act (g s)).1).run (act (g s)).2 = _
    rw [h.1 s]
    exact ih _ (h.2 _) _

end Only

/-! ### What a program does whatever happens -/

/-- Every step of the program is of a kind, and so is its result. -/
def Does (step : σ → σ → Prop) (result : α → Prop) : Prog σ α → Prop
  | .ret a => result a
  | .step act next => (∀ s, step s (act s).2) ∧ ∀ b, Does step result (next b)

namespace Does

variable {step : σ → σ → Prop} {result : α → Prop} {p : Prog σ α}

/-- What all steps of a kind keep is kept. -/
theorem triple {a : σ → Prop} (h : Does step result p) (hs : Stable C a) (hi : ∀ s, a s → C.inv s)
    (hstep : ∀ s s', a s → step s s' → C.guar s s' ∧ a s') : Triple C a p fun r s => a s ∧ result r := by
  induction p with
  | ret r => exact fun s ha t ht => ⟨hi t (hs.star ht ha), hs.star ht ha, h⟩
  | step act next ih =>
    intro s ha t ht
    have hat := hs.star ht ha
    obtain ⟨hg, hat'⟩ := hstep t _ hat (h.1 t)
    exact ⟨hi t hat, hg, ih _ (h.2 _) _ hat'⟩

/-- Steps of a kind are of any wider kind. -/
theorem weaken {step' : σ → σ → Prop} (h : Does step result p) (hs : ∀ s s', step s s' → step' s s') :
    Does step' result p := by
  induction p with
  | ret r => exact h
  | step act next ih => exact ⟨fun s => hs _ _ (h.1 s), fun b => ih b (h.2 b)⟩

/-- What the undisturbed run comes to. -/
theorem run (h : Does step result p) (s : σ) : ReflTransGen step s (p.run s).2 ∧ result (p.run s).1 := by
  induction p generalizing s with
  | ret r => exact ⟨.refl, h⟩
  | step act next ih =>
    obtain ⟨hrest, hr⟩ := ih _ (h.2 _) (act s).2
    exact ⟨.head (h.1 s) hrest, hr⟩

/-- What others and all steps of a kind keep is kept wherever the program has got to. -/
theorem reaches {env : σ → σ → Prop} {a : σ → Prop} {q : Prog σ α} {s s' : σ} (h : Does step result p)
    (henv : ∀ s s', env s s' → a s → a s') (hstep : ∀ s s', a s → step s s' → a s')
    (hr : Prog.Reaches env p s q s') (hs : a s) : a s' :=
  ((triple (C := ⟨env, fun _ _ => True, a⟩) h henv (fun _ h => h) (fun s s' ha hs => ⟨trivial, hstep s s' ha hs⟩) s
    hs).reaches hr).inv

theorem mono {result' : α → Prop} (h : Does step result p) (hr : ∀ a, result a → result' a) :
    Does step result' p := by
  induction p with
  | ret r => exact hr r h
  | step act next ih => exact ⟨h.1, fun b => ih b (h.2 b)⟩

end Does

/-- Every step of the program is of a kind, and so is its value if it does not fail. -/
def Tries (step : σ → σ → Prop) (V : α → Prop) (p : Fallible ε σ α) : Prop :=
  Does step (fun r => ∀ a, r = .ok a → V a) p

namespace Tries

variable {step : σ → σ → Prop} {V : α → Prop} {p : Fallible ε σ α}

theorem act {f : σ → Except ε α × σ} (h : ∀ s, step s (f s).2) :
    Tries step (fun _ => True) (Fallible.act f : Fallible ε σ α) :=
  ⟨h, fun _ _ _ => trivial⟩

theorem ofExcept {r : Except ε α} (h : ∀ a, r = .ok a → V a) :
    Tries step V (Fallible.ofExcept r : Fallible ε σ α) := h

theorem fail {e : ε} : Tries step V (Fallible.fail e : Fallible ε σ α) := fun _ h => by cases h

theorem andThen {f : α → Fallible ε σ β} {V' : β → Prop} (h : Tries step V p)
    (hf : ∀ a, V a → Tries step V' (f a)) : Tries step V' (p >>= f) := by
  change Does step _ (Prog.bind p _)
  induction p with
  | ret r =>
    cases r with
    | error e => exact fun _ he => by cases he
    | ok a => exact hf a (h a rfl)
  | step act next ih => exact ⟨h.1, fun b => ih b (h.2 b)⟩

theorem attempt (h : Tries step V p) :
    Tries step (fun r => ∀ a, r = .ok a → V a) (Fallible.attempt p) := by
  change Does step _ (Prog.bind p _)
  induction p with
  | ret r =>
    rintro r' he
    obtain rfl : r = r' := by simpa using he
    exact h
  | step act next ih => exact ⟨h.1, fun b => ih b (h.2 b)⟩

theorem forM {l : List β} {f : β → Fallible ε σ Unit} (hf : ∀ b ∈ l, Tries step (fun _ => True) (f b)) :
    Tries step (fun _ => True) (l.forM f) := by
  induction l with
  | nil => exact fun _ _ => trivial
  | cons b l ih =>
    exact (hf b (by simp)).andThen fun _ _ => ih fun c hc => hf c (by simp [hc])

theorem ofOnly (h : Only (fun _ act => ∀ s, step s (act s).2) p) : Tries step (fun _ => True) p := by
  change Does step _ p
  induction p with
  | ret r => exact fun _ _ => trivial
  | step act next ih => exact ⟨h.1, fun b => ih b (h.2 b)⟩

/-- What all steps of a kind keep is kept. -/
theorem triple {a : σ → Prop} (h : Tries step V p) (hs : Stable C a) (hi : ∀ s, a s → C.inv s)
    (hstep : ∀ s s', a s → step s s' → C.guar s s' ∧ a s') :
    Triple C a p (outcome (fun r s => a s ∧ V r) fun _ s => a s) :=
  (Does.triple h hs hi hstep).conseq (fun _ h => h) fun r s hr => by
    rcases r with e | r
    · exact hr.1
    · exact ⟨hr.1, hr.2 r rfl⟩

end Tries

/-! ### Programs that are alone -/

/-- The terms of a program that nobody disturbs. -/
def alone (inv : σ → Prop) : Contract σ := ⟨fun _ _ => False, fun _ _ => True, inv⟩

section alone

variable {I J : σ → Prop} {P : σ → Prop} {p : Prog σ α} {Q : α → σ → Prop} {s s' : σ}

theorem alone_star (h : ReflTransGen (alone I).rely s s') : s' = s := by
  induction h with
  | refl => rfl
  | tail _ h _ => exact h.elim

theorem alone_stable (a : σ → Prop) : Stable (alone I) a := fun _ _ h => h.elim

theorem Triple.alone_act {f : σ → α × σ} (hpre : ∀ s, P s → I s) (hpost : ∀ a s, Q a s → I s)
    (h : ∀ s, P s → Q (f s).1 (f s).2) : Triple (alone I) P (Prog.act f) Q :=
  Triple.act (alone_stable _) hpre (fun _ => alone_stable _) hpost fun s hs => ⟨trivial, h s hs⟩

theorem Does.meets_alone {result : α → Prop} (h : Does (fun s s' => s' = s) result p) (hs : I s) :
    Meets (Library.alone I) p (fun r t => t = s ∧ p.run s = (r, s)) s := by
  induction p with
  | ret r =>
    intro s' hs'
    obtain rfl := alone_star hs'
    exact ⟨hs, rfl, rfl⟩
  | step act next ih =>
    intro s' hs'
    obtain rfl := alone_star hs'
    have hstep := h.1 s'
    refine ⟨hs, trivial, ?_⟩
    rw [hstep]
    refine (ih _ (h.2 _)).mono fun r t hr => ⟨hr.1, ?_⟩
    rw [← hr.2]
    change (next (act s').1).run (act s').2 = _
    rw [hstep]

/-- A program that changes nothing ends where it began, with the result of its run. -/
theorem Does.alone {result : α → Prop} (h : Does (fun s s' => s' = s) result p) (hi : ∀ s, P s → I s) :
    Triple (Library.alone I) P p fun r s => P s ∧ p.run s = (r, s) :=
  fun s hs => (h.meets_alone (hi s hs)).mono fun r t ⟨ht, hr⟩ => by
    subst ht
    exact ⟨hs, hr⟩

/-- What holds at all times may be said with less. -/
theorem Meets.weaken_alone (h : Meets (Library.alone I) p Q s) (hI : ∀ s, I s → J s) : Meets (Library.alone J) p Q s := by
  induction p generalizing s with
  | ret a => exact fun t ht => ⟨hI t (h t ht).1, (h t ht).2⟩
  | step act next ih =>
    intro t ht
    obtain ⟨h1, h2, h3⟩ := h t ht
    exact ⟨hI t h1, h2, ih _ h3⟩

/-- What holds on two terms holds on both when the program is alone. -/
theorem Meets.and_alone {C : Contract σ} {Q' : α → σ → Prop} (h : Meets C p Q s)
    (h' : Meets (Library.alone J) p Q' s) :
    Meets (Library.alone fun s => C.inv s ∧ J s) p (fun a s => Q a s ∧ Q' a s) s := by
  induction p generalizing s with
  | ret a =>
    intro s' hs'
    obtain rfl := alone_star hs'
    exact ⟨⟨h.inv, h'.inv⟩, h.post_of_ret, h'.post_of_ret⟩
  | step act next ih =>
    intro s' hs'
    obtain rfl := alone_star hs'
    exact ⟨⟨h.inv, h'.inv⟩, trivial, ih _ (h s' .refl).2.2 (h' s' .refl).2.2⟩

end alone

end Everywhere.Library

