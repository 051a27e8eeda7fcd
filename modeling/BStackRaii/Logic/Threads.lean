import BStackRaii.Logic.Run
/-!
# Programs of atomic steps

A `Script` is a program taken apart into its atomic steps, so that other threads may act between any
two of them. `Script.run` puts it together again: the program as its own thread sees it when nobody
else acts.
-/

namespace BStackRaii

/-- What is left of a program: its result, or the next atomic step and what follows each outcome. -/
inductive Script (ε σ α : Type) : Type 1
  | done (out : Except ε α)
  | step {β : Type} (c : Prog ε σ β) (k : Except ε β → Script ε σ α)

namespace Script

variable {ε σ α β γ : Type}

def bind : Script ε σ α → (α → Script ε σ β) → Script ε σ β
  | done (.ok a), f => f a
  | done (.error e), _ => done (.error e)
  | step c k, f => step c fun r => (k r).bind f

instance : Monad (Script ε σ) where
  pure a := done (.ok a)
  bind := bind

def atom (c : Prog ε σ α) : Script ε σ α := step c done

def lift (out : Except ε α) : Script ε σ α := done out

def fail (e : ε) : Script ε σ α := done (.error e)

def attempt : Script ε σ α → Script ε σ (Except ε α)
  | done out => done (.ok out)
  | step c k => step c fun r => (k r).attempt

def run : Script ε σ α → Prog ε σ α
  | done out => Prog.lift out
  | step c k => do
      let r ← Prog.attempt c
      (k r).run

/-- The program has an atomic step to make. -/
def Running : Script ε σ α → Prop
  | done _ => False
  | step _ _ => True

/-- Make the next atomic step. -/
def advance : Script ε σ α → σ → Script ε σ α × σ
  | done out, s => (done out, s)
  | step c k, s => (k (c s).out, (c s).final)

@[simp] theorem pure_eq (a : α) : (pure a : Script ε σ α) = done (.ok a) := rfl

@[simp] theorem done_ok_bind (a : α) (f : α → Script ε σ β) :
    (done (.ok a) >>= f : Script ε σ β) = f a := rfl

@[simp] theorem done_error_bind (e : ε) (f : α → Script ε σ β) :
    (done (.error e) >>= f : Script ε σ β) = done (.error e) := rfl

@[simp] theorem step_bind (c : Prog ε σ γ) (k : Except ε γ → Script ε σ α) (f : α → Script ε σ β) :
    (step c k >>= f : Script ε σ β) = step c fun r => k r >>= f := rfl

@[simp] theorem atom_bind (c : Prog ε σ α) (f : α → Script ε σ β) :
    (atom c >>= f : Script ε σ β) = step c fun r => done r >>= f := rfl

@[simp] theorem lift_bind (out : Except ε α) (f : α → Script ε σ β) :
    (lift out >>= f : Script ε σ β) = done out >>= f := rfl

@[simp] theorem attempt_atom (c : Prog ε σ α) : attempt (atom c) = step c fun r => done (.ok r) := rfl

theorem bind_assoc (p : Script ε σ α) (f : α → Script ε σ β) (g : β → Script ε σ γ) :
    ((p >>= f) >>= g : Script ε σ γ) = p >>= fun a => f a >>= g := by
  induction p with
  | done out => cases out <;> rfl
  | step c k ih =>
      simp only [step_bind]
      congr 1
      funext r
      exact ih r

theorem Running.advance_bind {p : Script ε σ α} (hp : p.Running) (f : α → Script ε σ β) (s : σ) :
    (p >>= f).advance s = ((p.advance s).1 >>= f, (p.advance s).2) := by
  cases p with
  | done out => exact hp.elim
  | step c k => rfl

/-! ### Putting a program together again -/

@[simp] theorem run_done (out : Except ε α) : (done out : Script ε σ α).run = Prog.lift out := rfl

@[simp] theorem run_pure (a : α) : (pure a : Script ε σ α).run = pure a := rfl

@[simp] theorem run_fail (e : ε) : (fail e : Script ε σ α).run = Prog.fail e := rfl

@[simp] theorem run_lift (out : Except ε α) : (lift out : Script ε σ α).run = Prog.lift out := rfl

@[simp] theorem run_atom (c : Prog ε σ α) : (atom c).run = c := by
  funext s
  cases hc : c s with
  | mk out t cs =>
    have hrun : Prog.attempt c s = ⟨.ok out, t, cs⟩ := by rw [Prog.attempt_apply, hc]
    have hbind := Prog.bind_of_ok (f := fun r => (done r : Script ε σ α).run) hrun
    rw [show (atom c).run = Prog.attempt c >>= fun r => (done r).run from rfl, hbind]
    cases out <;> simp

theorem lift_error_bind (e : ε) (f : α → Prog ε σ β) :
    (Prog.lift (.error e) >>= f : Prog ε σ β) = Prog.lift (.error e) := by
  funext s
  exact Prog.bind_of_error rfl

@[simp] theorem run_bind (p : Script ε σ α) (f : α → Script ε σ β) :
    (p >>= f).run = p.run >>= fun a => (f a).run := by
  induction p with
  | done out =>
      cases out with
      | ok a =>
          rw [done_ok_bind, run_done, Prog.lift_ok, pure_bind]
      | error e =>
          rw [done_error_bind, run_done, run_done, lift_error_bind]
  | step c k ih =>
      rw [step_bind, run, run, LawfulMonad.bind_assoc]
      congr 1
      funext r
      exact ih r

theorem attempt_lift (out : Except ε α) : (Prog.attempt (Prog.lift out) : Prog ε σ _) = pure out := by
  funext s
  cases out <;> rfl

@[simp] theorem run_attempt (p : Script ε σ α) : (attempt p).run = Prog.attempt p.run := by
  induction p with
  | done out => rw [attempt, run_done, run_done, attempt_lift, Prog.lift_ok]
  | step c k ih =>
      rw [attempt, run, run]
      funext s
      have hrun : Prog.attempt c s = ⟨.ok (c s).out, (c s).final, (c s).cuts⟩ := rfl
      rw [Prog.bind_of_ok hrun, Prog.attempt_apply, Prog.bind_of_ok hrun, ih]
      rfl

end Script

end BStackRaii
