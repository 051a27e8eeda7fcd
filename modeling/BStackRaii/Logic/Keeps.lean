import Mathlib.Data.List.Basic
/-!
# Invariants of code that can fail

Code on a state that an error leaves as it is at that point: the state monad below the exception monad. `Keeps`
says that an invariant survives the code, whether it fails or not. It has one rule for each way to put code
together, so that the proof of an invariant follows the code and comes down to its updates of the state.
-/

namespace BStackRaii

/-- `m` keeps `P`, also when it fails. -/
def Keeps {ε σ α : Type} (P : σ → Prop) (m : ExceptT ε (StateM σ) α) : Prop :=
  ∀ st, P st → P ((m.run).run st).2

namespace Keeps

variable {ε σ α β : Type} {P : σ → Prop}

theorem pure (a : α) : Keeps P (pure a : ExceptT ε (StateM σ) α) := fun _ h => h

theorem throw (e : ε) : Keeps P (throw e : ExceptT ε (StateM σ) α) := fun _ h => h

theorem mk (r : Except ε α) : Keeps P (ExceptT.mk (Pure.pure r) : ExceptT ε (StateM σ) α) := fun _ h => h

theorem modify {f : σ → σ} (h : ∀ st, P st → P (f st)) :
    Keeps P (modify f : ExceptT ε (StateM σ) PUnit) := fun st hst => h st hst

theorem bind {m : ExceptT ε (StateM σ) α} {f : α → ExceptT ε (StateM σ) β} (hm : Keeps P m)
    (hf : ∀ a, Keeps P (f a)) : Keeps P (m >>= f) := by
  intro st hst
  have hmid := hm st hst
  change P (((m.run).run st).1 |> fun r => (ExceptT.bindCont f r).run ((m.run).run st).2).2
  match hr : ((m.run).run st).1 with
  | .ok a => exact hf a _ hmid
  | .error e => exact hmid

theorem get_bind {f : σ → ExceptT ε (StateM σ) β} (h : ∀ st, P st → P (((f st).run).run st).2) :
    Keeps P (get >>= f) := fun st hst => h st hst

theorem ite {c : Prop} [Decidable c] {m m' : ExceptT ε (StateM σ) α} (h : c → Keeps P m) (h' : ¬ c → Keeps P m') :
    Keeps P (if c then m else m') := by
  by_cases hc : c
  · rw [if_pos hc]
    exact h hc
  · rw [if_neg hc]
    exact h' hc

theorem forM {f : α → ExceptT ε (StateM σ) PUnit} : ∀ {xs : List α}, (∀ x ∈ xs, Keeps P (f x)) →
    Keeps P (xs.forM f)
  | [], _ => .pure _
  | _ :: _, h => .bind (h _ List.mem_cons_self) fun _ => forM fun x hx => h x (List.mem_cons_of_mem _ hx)

end Keeps

end BStackRaii
