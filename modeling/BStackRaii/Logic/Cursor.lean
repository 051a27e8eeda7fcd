import BStackRaii.Logic.Run
/-!
# Cursors

A cursor is called again and again, and each call finds a state of its own: between two calls other code runs. A
call that fails stops the cursor. A cursor that checks its snapshot first yields nothing out of a state that
differs from it.
-/

namespace BStackRaii

/-- What a call returns with the cursor behind it, and the cursor behind a call that failed. -/
structure Cursor (ε σ ι α : Type) where
  next : ι → Prog ε σ (Option α × ι)
  stop : ι → ι

namespace Cursor

variable {ε σ ι α : Type} (c : Cursor ε σ ι α)

def call (it : ι) (s : σ) : Except ε (Option α) × ι :=
  match (c.next it s).out with
  | .ok (item, it') => (.ok item, it')
  | .error e => (.error e, c.stop it)

def calls : List σ → ι → List (Except ε (Option α)) × ι
  | [], it => ([], it)
  | s :: ss, it =>
      let (answer, it') := c.call it s
      let (answers, last) := calls ss it'
      (answer :: answers, last)

/-- Each call of a cursor that is not at its end checks that its snapshot is that of the state. -/
structure Checks (ended : ι → Prop) (current : ι → σ → Prop) : Prop where
  atEnd : ∀ {it : ι} {s : σ}, ended it → (c.next it s).out = .ok (none, it)
  stopped : ∀ it : ι, ended (c.stop it)
  checked : ∀ {it it' : ι} {s : σ} {item : Option α}, (c.next it s).out = .ok (item, it') → ended it ∨ current it s
  kept : ∀ {it it' : ι} {s : σ} {item : Option α}, (c.next it s).out = .ok (item, it') →
    ∀ t, current it' t ↔ current it t

/-- Whatever calls were made before, the first one in a state that is not `fresh` fails and the later ones find
the cursor at its end. -/
def FailsFast (ended : ι → Prop) (fresh : σ → Prop) (it : ι) : Prop :=
  ∀ (before : List σ) (s : σ) (after : List σ), ¬ fresh s →
    let it' := (c.calls before it).2
    (ended it' → (c.calls (s :: after) it').1 = .ok none :: List.replicate after.length (.ok none)) ∧
      (¬ ended it' → ∃ e, (c.calls (s :: after) it').1 = .error e :: List.replicate after.length (.ok none))

variable {c} {ended : ι → Prop} {current : ι → σ → Prop} {it : ι}

theorem calls_ok {s : σ} {item : Option α} {it' : ι} (h : (c.next it s).out = .ok (item, it')) (ss : List σ) :
    c.calls (s :: ss) it = (.ok item :: (c.calls ss it').1, (c.calls ss it').2) := by
  rw [calls, call, h]

theorem calls_error {s : σ} {e : ε} (h : (c.next it s).out = .error e) (ss : List σ) :
    c.calls (s :: ss) it = (.error e :: (c.calls ss (c.stop it)).1, (c.calls ss (c.stop it)).2) := by
  rw [calls, call, h]

namespace Checks

variable (h : c.Checks ended current)

include h

theorem calls_atEnd (hit : ended it) (ss : List σ) :
    c.calls ss it = (List.replicate ss.length (.ok none), it) := by
  induction ss with
  | nil => rfl
  | cons s ss ih =>
      rw [calls_ok (h.atEnd hit), ih]
      rfl

/-- Calls leave a cursor at its end, or with the snapshot it had. -/
theorem calls_kept (ss : List σ) (it : ι) :
    ended (c.calls ss it).2 ∨ ∀ t, current (c.calls ss it).2 t ↔ current it t := by
  induction ss generalizing it with
  | nil => exact .inr fun _ => Iff.rfl
  | cons s ss ih =>
      cases hout : (c.next it s).out with
      | ok r =>
          obtain ⟨item, it'⟩ := r
          rw [calls_ok hout]
          exact (ih it').imp_right fun hkept t => (hkept t).trans (h.kept hout t)
      | error e =>
          rw [calls_error hout, h.calls_atEnd (h.stopped it)]
          exact .inl (h.stopped it)

theorem failsFast {fresh : σ → Prop} (hfresh : ∀ s, current it s → fresh s) : c.FailsFast ended fresh it := by
  intro before s after hs
  generalize hit' : (c.calls before it).2 = it'
  have hkept := h.calls_kept before it
  rw [hit'] at hkept
  constructor
  · intro hended
    rw [h.calls_atEnd hended]
    rfl
  · intro hended
    have hstale : ¬ current it' s := fun hcurrent =>
      hs (hfresh s (((hkept.resolve_left hended) s).mp hcurrent))
    cases hout : (c.next it' s).out with
    | ok r => exact absurd (h.checked hout) (not_or.mpr ⟨hended, hstale⟩)
    | error e =>
        rw [calls_error hout, h.calls_atEnd (h.stopped it')]
        exact ⟨e, rfl⟩

end Checks

end Cursor

end BStackRaii
