import Mathlib.Logic.Relation
/-!
# Recursion on an explicit stack

A recursive walk whose calls are items on a work stack: an item either gives a value, or stands for another,
or unfolds into children above a marker, which takes their values off the result stack again. A budget pays
for every item taken off the work stack, and for whatever else an unfolding charges.

`Eval` is the recursion itself, with the budget it takes. A run of the stacks ends with a value if and only
if `Eval` gives it within the budget; it never lacks a value, and no run has more steps than budget.
-/

namespace BStackRaii

/-- The two stacks, tops first, and what is left of the budget. -/
structure Worklist (O V : Type) where
  work : List O
  results : List V
  budget : Nat

namespace Worklist

variable {O V : Type}

/-- What an item comes to. -/
inductive Node (O V : Type)
  | leaf (v : V)
  | jump (o : O)
  | node (mark : O) (children : List O)

/-- One level of a recursion: what an item unfolds to and at what charge, and how many values a marker takes
(`none` for an item that is none) and what it builds of them. -/
structure Scheme (O V : Type) where
  Unfolds : O → Node O V → Nat → Prop
  arity : O → Option Nat
  build : O → List V → V
  job : ∀ {o n c}, Unfolds o n c → arity o = none
  jump : ∀ {o o' c}, Unfolds o (.jump o') c → arity o' = none
  marked : ∀ {o m os c}, Unfolds o (.node m os) c → arity m = some os.length
  children : ∀ {o m os c}, Unfolds o (.node m os) c → ∀ o' ∈ os, arity o' = none

variable (S : Scheme O V)

mutual

/-- The recursion, with the budget it takes. -/
inductive Eval : O → V → Nat → Prop
  | leaf {o : O} {v : V} {c : Nat} (h : S.Unfolds o (.leaf v) c) : Eval o v (c + 1)
  | jump {o o' : O} {v : V} {c c' : Nat} (h : S.Unfolds o (.jump o') c) (h' : Eval o' v c') :
      Eval o v (c' + (c + 1))
  | node {o m : O} {os : List O} {vs : List V} {c c' : Nat} (h : S.Unfolds o (.node m os) c)
      (h' : EvalAll os vs c') : Eval o (S.build m vs) (1 + c' + (c + 1))

inductive EvalAll : List O → List V → Nat → Prop
  | nil : EvalAll [] [] 0
  | cons {o : O} {os : List O} {v : V} {vs : List V} {c c' : Nat} (h : Eval o v c) (h' : EvalAll os vs c') :
      EvalAll (o :: os) (v :: vs) (c + c')

end

/-- One turn of the loop. The last child is on top. -/
inductive Step : Worklist O V → Worklist O V → Prop
  | leaf {o : O} {v : V} {c b : Nat} {w : List O} {r : List V} (h : S.Unfolds o (.leaf v) c) :
      Step ⟨o :: w, r, b + (c + 1)⟩ ⟨w, v :: r, b⟩
  | jump {o o' : O} {c b : Nat} {w : List O} {r : List V} (h : S.Unfolds o (.jump o') c) :
      Step ⟨o :: w, r, b + (c + 1)⟩ ⟨o' :: w, r, b⟩
  | node {o m : O} {os : List O} {c b : Nat} {w : List O} {r : List V} (h : S.Unfolds o (.node m os) c) :
      Step ⟨o :: w, r, b + (c + 1)⟩ ⟨os.reverse ++ m :: w, r, b⟩
  | mark {m : O} {vs : List V} {b : Nat} {w : List O} {r : List V} (h : S.arity m = some vs.length) :
      Step ⟨m :: w, vs ++ r, b + 1⟩ ⟨w, S.build m vs :: r, b⟩

/-- `n` turns of the loop. -/
inductive Steps : Nat → Worklist O V → Worklist O V → Prop
  | refl (s : Worklist O V) : Steps 0 s s
  | head {n : Nat} {s s' s'' : Worklist O V} (h : Step S s s') (h' : Steps n s' s'') : Steps (n + 1) s s''

variable {S} {o m : O} {os w : List O} {v : V} {vs r : List V} {b c n k : Nat} {s s' s'' t : Worklist O V}

/-! ### Runs -/

theorem Steps.trans (h : Steps S n s s') (h' : Steps S k s' s'') : Steps S (n + k) s s'' := by
  induction h with
  | refl s => rwa [Nat.zero_add]
  | head hstep _ ih =>
      rw [Nat.succ_add]
      exact .head hstep (ih h')

theorem Steps.tail (h : Steps S n s s') (h' : Step S s' s'') : Steps S (n + 1) s s'' :=
  h.trans (.head h' (.refl _))

/-- Every turn is paid for. -/
theorem Step.budget_lt (h : Step S s s') : s'.budget + 1 ≤ s.budget := by
  cases h <;> simp only <;> omega

theorem Steps.budget_le (h : Steps S n s s') : s'.budget + n ≤ s.budget := by
  induction h with
  | refl s => exact Nat.le_refl _
  | head hstep _ ih =>
      have := hstep.budget_lt
      omega

/-! ### The recursion is run -/

mutual

theorem Eval.steps : ∀ {o : O} {v : V} {c : Nat}, Eval S o v c → ∀ (w : List O) (r : List V) (b : Nat),
    ∃ n, Steps S n ⟨o :: w, r, b + c⟩ ⟨w, v :: r, b⟩
  | _, _, _, .leaf h, w, r, b => ⟨1, .head (.leaf h) (.refl _)⟩
  | _, _, _, .jump h h', w, r, b => by
      obtain ⟨n, hsteps⟩ := h'.steps w r b
      rw [← Nat.add_assoc]
      exact ⟨n + 1, .head (.jump h) hsteps⟩
  | _, _, _, .node (m := m) h h', w, r, b => by
      obtain ⟨n, hsteps⟩ := h'.steps (m :: w) r (b + 1)
      have harity := (S.marked h).trans (congrArg some h'.length_eq)
      rw [← Nat.add_assoc b, ← Nat.add_assoc b]
      exact ⟨_, .head (.node h) (hsteps.tail (.mark harity))⟩

theorem EvalAll.steps : ∀ {os : List O} {vs : List V} {c : Nat}, EvalAll S os vs c →
    ∀ (w : List O) (r : List V) (b : Nat), ∃ n, Steps S n ⟨os.reverse ++ w, r, b + c⟩ ⟨w, vs ++ r, b⟩
  | _, _, _, .nil, w, r, b => ⟨0, .refl _⟩
  | _, _, _, .cons (o := o) (c := c) h h', w, r, b => by
      obtain ⟨n, hall⟩ := h'.steps (o :: w) r (b + c)
      obtain ⟨k, hone⟩ := h.steps w _ b
      rw [List.reverse_cons, List.append_assoc, ← Nat.add_assoc]
      exact ⟨n + k, hall.trans hone⟩

theorem EvalAll.length_eq : ∀ {os : List O} {vs : List V} {c : Nat}, EvalAll S os vs c → os.length = vs.length
  | _, _, _, .nil => rfl
  | _, _, _, .cons _ h' => congrArg Nat.succ h'.length_eq

end

/-! ### What is run is the recursion -/

/-- A run that works off its work stack gives the item on top its value on the way. -/
def Yields (S : Scheme O V) (n : Nat) : Prop :=
  ∀ o w r b t, S.arity o = none → Steps S n ⟨o :: w, r, b⟩ t → t.work = [] →
    ∃ v c b' k, b' + c = b ∧ Eval S o v c ∧ k < n ∧ Steps S k ⟨w, v :: r, b'⟩ t

/-- The same for the children of a node, one after the other. -/
theorem yieldsAll (ih : ∀ k < n, Yields S k) (hjobs : ∀ o ∈ os, S.arity o = none) (hk : k < n)
    (hrun : Steps S k ⟨os.reverse ++ w, r, b⟩ t) (hdone : t.work = []) :
    ∃ vs c b' k', b' + c = b ∧ EvalAll S os vs c ∧ k' ≤ k ∧ Steps S k' ⟨w, vs ++ r, b'⟩ t := by
  induction os generalizing w with
  | nil => exact ⟨[], 0, b, k, rfl, .nil, Nat.le_refl _, hrun⟩
  | cons o os ihos =>
      obtain ⟨hjob, hjobs⟩ := List.forall_mem_cons.mp hjobs
      rw [List.reverse_cons, List.append_assoc] at hrun
      obtain ⟨vs, c', b₁, k₁, hb₁, hall, hk₁, hrun₁⟩ := ihos hjobs hrun
      obtain ⟨v, c, b₂, k₂, hb₂, hone, hk₂, hrun₂⟩ := ih k₁ (by omega) o w _ b₁ t hjob hrun₁ hdone
      exact ⟨v :: vs, c + c', b₂, k₂, by omega, .cons hone hall, by omega, hrun₂⟩

/-- The induction over the length of the run. -/
theorem yields (n : Nat) : Yields S n := by
  induction n using Nat.strongRecOn with
  | ind n ih =>
      intro o w r b t hjob hrun hdone
      cases hrun with
      | refl => cases hdone
      | head hstep hrun =>
          cases hstep with
          | leaf h => exact ⟨_, _, _, _, rfl, .leaf h, Nat.lt_succ_self _, hrun⟩
          | jump h =>
              obtain ⟨v, c, b', k, hb, heval, hk, hrest⟩ := ih _ (Nat.lt_succ_self _) _ _ _ _ _ (S.jump h) hrun hdone
              exact ⟨v, _, b', k, by omega, .jump h heval, by omega, hrest⟩
          | node h =>
              obtain ⟨vs, c, b', k, hb, hall, hk, hrest⟩ := yieldsAll ih (S.children h) (Nat.lt_succ_self _) hrun hdone
              -- The marker takes the values of the children and no others.
              generalize hstack : vs ++ r = stack at hrest
              cases hrest with
              | refl => cases hdone
              | head hmark hrest =>
                  cases hmark with
                  | leaf h' => exact absurd ((S.job h').symm.trans (S.marked h)) nofun
                  | jump h' => exact absurd ((S.job h').symm.trans (S.marked h)) nofun
                  | node h' => exact absurd ((S.job h').symm.trans (S.marked h)) nofun
                  | mark harity =>
                      have hlen := Option.some.inj (harity.symm.trans (S.marked h))
                      rw [hall.length_eq] at hlen
                      obtain ⟨rfl, rfl⟩ := List.append_inj hstack hlen.symm
                      exact ⟨_, _, _, _, by omega, .node h hall, by omega, hrest⟩
          | mark harity => exact absurd (hjob.symm.trans harity) nofun

/-- A run from one item ends with one value if and only if the recursion gives it within the budget. -/
theorem steps_iff (hjob : S.arity o = none) :
    (∃ n b', Steps S n ⟨[o], [], b⟩ ⟨[], [v], b'⟩) ↔ ∃ c, c ≤ b ∧ Eval S o v c := by
  constructor
  · rintro ⟨n, b', hrun⟩
    obtain ⟨v', c, b'', k, hb, heval, -, hrest⟩ := yields n o [] [] b _ hjob hrun rfl
    cases hrest with
    | refl => exact ⟨c, by omega, heval⟩
    | head hstep _ => cases hstep
  · rintro ⟨c, hc, heval⟩
    obtain ⟨n, hrun⟩ := heval.steps [] [] (b - c)
    rw [Nat.sub_add_cancel hc] at hrun
    exact ⟨n, b - c, hrun⟩

/-! ### No value is missing -/

/-- With `k` values at hand, every marker finds its own, and one value is left at the end. -/
def Balanced (S : Scheme O V) : List O → Nat → Prop
  | [], k => k = 1
  | o :: w, k =>
      match S.arity o with
      | none => Balanced S w (k + 1)
      | some n => n ≤ k ∧ Balanced S w (k - n + 1)

theorem balanced_job (hjob : S.arity o = none) : Balanced S (o :: w) k ↔ Balanced S w (k + 1) := by
  rw [Balanced, hjob]

theorem balanced_mark (hmark : S.arity o = some n) :
    Balanced S (o :: w) k ↔ n ≤ k ∧ Balanced S w (k - n + 1) := by
  rw [Balanced, hmark]

theorem balanced_jobs (hjobs : ∀ o ∈ os, S.arity o = none) :
    Balanced S (os ++ w) k ↔ Balanced S w (k + os.length) := by
  induction os generalizing k with
  | nil => rfl
  | cons o os ih =>
      obtain ⟨hjob, hjobs⟩ := List.forall_mem_cons.mp hjobs
      rw [List.cons_append, balanced_job hjob, ih hjobs, List.length_cons, Nat.add_right_comm, Nat.add_assoc]

theorem Step.balanced (h : Step S s s') (hs : Balanced S s.work s.results.length) :
    Balanced S s'.work s'.results.length := by
  cases h with
  | leaf h => exact (balanced_job (S.job h)).mp hs
  | jump h => exact (balanced_job (S.jump h)).mpr ((balanced_job (S.job h)).mp hs)
  | node h =>
      have hrest := (balanced_job (S.job h)).mp hs
      refine (balanced_jobs fun o ho => S.children h o (List.mem_reverse.mp ho)).mpr ?_
      refine (balanced_mark (S.marked h)).mpr ⟨?_, ?_⟩
      · rw [List.length_reverse]
        exact Nat.le_add_left _ _
      · rw [List.length_reverse, Nat.add_sub_cancel]
        exact hrest
  | mark harity =>
      have hrest := ((balanced_mark harity).mp hs).2
      rw [List.length_append, Nat.add_sub_cancel_left] at hrest
      exact hrest

theorem Steps.balanced (h : Steps S n s s') (hs : Balanced S s.work s.results.length) :
    Balanced S s'.work s'.results.length := by
  induction h with
  | refl s => exact hs
  | head hstep _ ih => exact ih (hstep.balanced hs)

end Worklist

end BStackRaii
