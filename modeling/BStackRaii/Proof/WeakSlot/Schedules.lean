import BStackRaii.Model.WeakSlot
/-!
# Runs of the accessors that can be computed

The calls in flight are a list, and a schedule names the place in it of the call that moves next. What a schedule
comes to is reached by a run.
-/

namespace BStackRaii

namespace WeakSlot

variable {a : Allocator} {os : List BStackRc} {slots : List Slot} {P : State → Act → Prop}

def Access.pick : Nat → List Access → Option (Access × List Access)
  | _, [] => none
  | 0, t :: ts => some (t, ts)
  | i + 1, t :: ts => (pick i ts).map fun found => (found.1, t :: found.2)

theorem Access.pick_eq {i : Nat} {ts rest : List Access} {t : Access} (h : pick i ts = some (t, rest)) :
    (↑ts : Multiset Access) = t ::ₘ ↑rest := by
  induction ts generalizing i rest with
  | nil => cases i <;> cases h
  | cons u ts ih =>
      cases i with
      | zero =>
          cases h
          rfl
      | succ i =>
          obtain ⟨found, hfound, heq⟩ := Option.map_eq_some_iff.mp h
          cases heq
          rw [← Multiset.cons_coe, ih hfound, Multiset.cons_swap, Multiset.cons_coe]

def Phase.result : Phase → Option (Except IoError Handed)
  | done out => some out
  | _ => none

theorem Phase.running_of_result {phase : Phase} (h : phase.result = none) : phase.Running := by
  cases phase with
  | done out => cases h
  | _ => trivial

theorem Phase.eq_of_result {phase : Phase} {out : Except IoError Handed} (h : phase.result = some out) :
    phase = .done out := by
  cases phase with
  | done out' => exact congrArg Phase.done (Option.some.inj h)
  | _ => cases h

/-- What the call does when it moves. -/
def Access.label (t : Access) : Act :=
  if t.guard = .waiting then .acquires else t.phase.result.elim (.steps t.phase) fun _ => .returns

/-- A state whose calls are a list; those of `state` do not count. -/
structure Played where
  state : State
  calls : List Access

namespace Played

def shared (p : Played) : State := { p.state with calls := p.calls }

theorem idle_of_length {p : Played} (h : p.calls.length = 0) : p.shared.calls = 0 := by
  rw [shared, List.eq_nil_of_length_eq_zero h]
  rfl

/-- The call takes the lock, if it is free, -/
def acquires (p : Played) (phase : Phase) (rest : List Access) : Played :=
  if p.state.locked then p else ⟨{ p.state with locked := true }, ⟨phase, .holding⟩ :: rest⟩

/-- or hands its result out, -/
def returns (p : Played) (guard : Guard) (out : Except IoError Handed) (rest : List Access) : Played where
  state := State.deliver { p.state with
    calls := rest
    locked := if guard = .holding then false else p.state.locked } out
  calls := rest

/-- or makes an atomic step. -/
def steps (a : Allocator) (p : Played) (phase : Phase) (guard : Guard) (rest : List Access) : Played where
  state := p.shared.act a phase guard rest p.state.world
  calls := ⟨(phase.next a p.state.world).1, guard⟩ :: rest

def turn (a : Allocator) (p : Played) (t : Access) (rest : List Access) : Played :=
  if t.guard = .waiting then p.acquires t.phase rest
  else t.phase.result.elim (p.steps a t.phase t.guard rest) fun out => p.returns t.guard out rest

def move (a : Allocator) (p : Played) (i : Nat) : Played :=
  (Access.pick i p.calls).elim p fun found => p.turn a found.1 found.2

def play (a : Allocator) (p : Played) (is : List Nat) : Played := is.foldl (move a) p

/-- Every step of the schedule meets `P`. -/
def Meets (a : Allocator) (P : State → Act → Prop) : Played → List Nat → Prop
  | _, [] => True
  | p, i :: is => (∀ found ∈ Access.pick i p.calls, P p.shared found.1.label) ∧ Meets a P (p.move a i) is

theorem shared_returns (p : Played) (guard : Guard) (out : Except IoError Handed) (rest : List Access) :
    (p.returns guard out rest).shared = (p.returns guard out rest).state := by
  unfold returns shared State.deliver
  simp only
  split <;> rfl

theorem turn_run {p : Played} {i : Nat} {t : Access} {rest : List Access}
    (hpick : Access.pick i p.calls = some (t, rest)) (hP : P p.shared t.label) :
    Run a os slots P p.shared (p.turn a t rest).shared := by
  have hcalls : p.shared.calls = t ::ₘ ↑rest := Access.pick_eq hpick
  obtain ⟨phase, guard⟩ := t
  rw [Access.label] at hP
  rw [turn]
  by_cases hwait : guard = .waiting
  · subst hwait
    rw [if_pos rfl] at hP ⊢
    rw [acquires]
    split
    · exact .refl
    case isFalse hfree => exact .single ⟨_, .acquire phase ↑rest hcalls (Bool.eq_false_iff.mpr hfree), hP⟩
  · rw [if_neg hwait] at hP ⊢
    cases hresult : phase.result with
    | none =>
        rw [hresult] at hP
        exact .single ⟨_, .atomic phase guard ↑rest hcalls hwait (Phase.running_of_result hresult), hP⟩
    | some out =>
        rw [hresult] at hP
        obtain rfl := Phase.eq_of_result hresult
        simp only [Option.elim_some]
        rw [shared_returns]
        exact .single ⟨_, .finish out guard ↑rest hcalls, hP⟩

/-- Every call that moves passes the check. -/
def checked (a : Allocator) (check : World → Phase → Bool) : Played → List Nat → Bool
  | _, [] => true
  | p, i :: is => (Access.pick i p.calls).all (fun found => check p.state.world found.1.phase) &&
      checked a check (p.move a i) is

theorem meets_of_checked {check : World → Phase → Bool}
    (hP : ∀ p : Played, ∀ t : Access, check p.state.world t.phase = true → P p.shared t.label) {p : Played}
    {is : List Nat} (h : p.checked a check is = true) : p.Meets a P is := by
  induction is generalizing p with
  | nil => trivial
  | cons i is ih =>
      obtain ⟨hfirst, hrest⟩ := Bool.and_eq_true_iff.mp h
      refine ⟨fun found hfound => hP p found.1 ?_, ih hrest⟩
      rw [Option.mem_def.mp hfound] at hfirst
      exact hfirst

theorem label_ne_fails (t : Access) (ph : Phase) : t.label ≠ .fails ph := by
  rw [Access.label]
  split
  · exact Act.noConfusion
  · cases t.phase.result <;> exact Act.noConfusion

theorem meets_of (hP : ∀ s act, (∀ ph, act ≠ .fails ph) → P s act) (p : Played) (is : List Nat) : p.Meets a P is := by
  induction is generalizing p with
  | nil => trivial
  | cons i is ih => exact ⟨fun found _ => hP _ _ (label_ne_fails found.1), ih _⟩

def reads (p : Played) (σ : Slot) : Played :=
  ⟨p.state, ⟨.locate σ, if σ.Locks then .waiting else .free⟩ :: p.calls⟩

theorem reads_run {σ : Slot} (hσ : σ ∈ slots) (p : Played) (hP : P p.shared (.starts (.locate σ))) :
    Run a os slots P p.shared (p.reads σ).shared :=
  .single ⟨_, .upgrade σ hσ, hP⟩

/-- What a schedule comes to is reached. -/
theorem play_run (p : Played) (is : List Nat) (h : p.Meets a P is) :
    Run a os slots P p.shared (p.play a is).shared := by
  induction is generalizing p with
  | nil => exact .refl
  | cons i is ih =>
      obtain ⟨hfirst, hrest⟩ := h
      have hmove : Run a os slots P p.shared (p.move a i).shared := by
        rw [move]
        cases hpick : Access.pick i p.calls with
        | none => exact .refl
        | some found => exact turn_run hpick (hfirst found hpick)
      exact hmove.trans (ih _ hrest)

end Played

end WeakSlot

end BStackRaii
