import Mathlib.Data.List.Basic
/-!
# Runs with failures and crash points

A program over a durable state either returns, fails, or is cut short by a crash. `Prog` keeps all
three: the outcome, the state it ends in, and the states a crash may leave, one in front of every
durable step. A crash keeps only the durable state, so what recovery sees is one of `Run.states`.

`Spec` is the crash triple of this setting. Its crash condition is what recovery may assume.
-/

namespace BStackRaii

/-- One run: its outcome, its last state, and the states in front of its durable steps. -/
structure Run (ε σ α : Type) where
  out : Except ε α
  final : σ
  cuts : List σ

/-- Every state a crash may leave: in front of a durable step, or after the last one. -/
def Run.states {ε σ α : Type} (r : Run ε σ α) : List σ := r.cuts ++ [r.final]

def Run.after {ε σ α : Type} (r : Run ε σ α) (cs : List σ) : Run ε σ α :=
  ⟨r.out, r.final, cs ++ r.cuts⟩

@[simp] theorem Run.after_nil {ε σ α : Type} (r : Run ε σ α) : r.after [] = r := rfl

@[simp] theorem Run.after_mk {ε σ α : Type} (o : Except ε α) (t : σ) (cs ds : List σ) :
    (Run.mk o t ds).after cs = ⟨o, t, cs ++ ds⟩ := rfl

@[simp] theorem Run.after_after {ε σ α : Type} (r : Run ε σ α) (cs ds : List σ) :
    (r.after ds).after cs = r.after (cs ++ ds) := by
  simp only [Run.after, List.append_assoc]

/-- A program maps a start state to its run. -/
def Prog (ε σ α : Type) : Type := σ → Run ε σ α

namespace Prog

variable {ε σ α β γ : Type}

def ret (a : α) : Prog ε σ α := fun s => ⟨.ok a, s, []⟩

def fail (e : ε) : Prog ε σ α := fun s => ⟨.error e, s, []⟩

def andThen (c : Prog ε σ α) (f : α → Prog ε σ β) : Prog ε σ β := fun s =>
  match (c s).out with
  | .ok a => ⟨(f a (c s).final).out, (f a (c s).final).final, (c s).cuts ++ (f a (c s).final).cuts⟩
  | .error e => ⟨.error e, (c s).final, (c s).cuts⟩

/-- Run `c` and hand its outcome on as a value: a discarded or inspected `Result`. -/
def attempt (c : Prog ε σ α) : Prog ε σ (Except ε α) := fun s =>
  ⟨.ok (c s).out, (c s).final, (c s).cuts⟩

/-- One atomic durable step: a crash falls in front of it or behind it. -/
def durable (f : σ → Except ε α × σ) : Prog ε σ α := fun s => ⟨(f s).1, (f s).2, [s]⟩

/-- A step that leaves the durable state alone. -/
def volatile (f : σ → Except ε α × σ) : Prog ε σ α := fun s => ⟨(f s).1, (f s).2, []⟩

instance : Monad (Prog ε σ) where
  pure := ret
  bind := andThen

def lift : Except ε α → Prog ε σ α
  | .ok a => ret a
  | .error e => fail e

@[simp] theorem pure_apply (a : α) (s : σ) : (pure a : Prog ε σ α) s = ⟨.ok a, s, []⟩ := rfl

@[simp] theorem fail_apply (e : ε) (s : σ) : (fail e : Prog ε σ α) s = ⟨.error e, s, []⟩ := rfl

@[simp] theorem lift_ok (a : α) : (lift (.ok a) : Prog ε σ α) = pure a := rfl

@[simp] theorem lift_error (e : ε) : (lift (.error e) : Prog ε σ α) = fail e := rfl

@[simp] theorem attempt_apply (c : Prog ε σ α) (s : σ) :
    attempt c s = ⟨.ok (c s).out, (c s).final, (c s).cuts⟩ := rfl

@[simp] theorem durable_apply (f : σ → Except ε α × σ) (s : σ) :
    durable f s = ⟨(f s).1, (f s).2, [s]⟩ := rfl

@[simp] theorem volatile_apply (f : σ → Except ε α × σ) (s : σ) :
    volatile f s = ⟨(f s).1, (f s).2, []⟩ := rfl

theorem bind_of_ok {c : Prog ε σ α} {f : α → Prog ε σ β} {s : σ} {a : α} {t : σ} {cs : List σ}
    (h : c s = ⟨.ok a, t, cs⟩) :
    (c >>= f) s = (f a t).after cs := by
  change andThen c f s = _
  simp only [andThen, h, Run.after]

theorem bind_of_error {c : Prog ε σ α} {f : α → Prog ε σ β} {s : σ} {e : ε} {t : σ} {cs : List σ}
    (h : c s = ⟨.error e, t, cs⟩) : (c >>= f) s = ⟨.error e, t, cs⟩ := by
  change andThen c f s = _
  simp only [andThen, h]

theorem andThen_ret (c : Prog ε σ α) : andThen c ret = c := by
  funext s
  cases hc : c s with
  | mk out t cs => cases out <;> simp [andThen, hc, ret]

theorem ret_andThen (a : α) (f : α → Prog ε σ β) : andThen (ret a) f = f a := by
  funext s
  simp [andThen, ret]

theorem andThen_assoc (c : Prog ε σ α) (f : α → Prog ε σ β) (g : β → Prog ε σ γ) :
    andThen (andThen c f) g = andThen c fun a => andThen (f a) g := by
  funext s
  cases hc : c s with
  | mk out t cs =>
    cases out with
    | error e => simp [andThen, hc]
    | ok a => cases hf : (f a t).out <;> simp [andThen, hc, hf]

instance : LawfulMonad (Prog ε σ) :=
  LawfulMonad.mk' (Prog ε σ) andThen_ret ret_andThen andThen_assoc

/-- Where a sequence was successful, so was its first half. -/
theorem bind_ok_inv {c : Prog ε σ α} {f : α → Prog ε σ β} {s : σ} {b : β}
    (h : ((c >>= f) s).out = .ok b) :
    ∃ a, (c s).out = .ok a ∧ (f a (c s).final).out = .ok b ∧
      ((c >>= f) s).final = (f a (c s).final).final ∧
      ((c >>= f) s).cuts = (c s).cuts ++ (f a (c s).final).cuts := by
  cases hc : c s with
  | mk out t cs =>
    cases out with
    | ok a =>
        rw [bind_of_ok hc] at h ⊢
        exact ⟨a, rfl, h, rfl, rfl⟩
    | error e =>
        rw [bind_of_error hc] at h
        simp at h

/-- The crash points of the first half are crash points of the sequence. -/
theorem cuts_bind_left {c : Prog ε σ α} {f : α → Prog ε σ β} {s t : σ} (h : t ∈ (c s).cuts) :
    t ∈ ((c >>= f) s).cuts := by
  cases hc : c s with
  | mk out u cs =>
    rw [hc] at h
    cases out with
    | ok a =>
        rw [bind_of_ok hc]
        exact List.mem_append_left _ h
    | error e =>
        rw [bind_of_error hc]
        exact h

theorem cuts_bind_right {c : Prog ε σ α} {f : α → Prog ε σ β} {s t : σ} {a : α}
    (hc : (c s).out = .ok a) (h : t ∈ (f a (c s).final).cuts) : t ∈ ((c >>= f) s).cuts := by
  cases hr : c s with
  | mk out u cs =>
    rw [hr] at hc h
    cases hc
    rw [bind_of_ok hr]
    exact List.mem_append_right _ h

/-! ### The crash triple -/

/-- From `P`, a return satisfies `Q`, a failure satisfies `E`, and every crash point satisfies `C`. -/
def Spec (P : σ → Prop) (c : Prog ε σ α) (Q : α → σ → Prop) (E : ε → σ → Prop) (C : σ → Prop) :
    Prop :=
  ∀ s, P s → (∀ a, (c s).out = .ok a → Q a (c s).final) ∧
    (∀ e, (c s).out = .error e → E e (c s).final) ∧ ∀ t ∈ (c s).cuts, C t

variable {P P' : σ → Prop} {Q : α → σ → Prop} {E : ε → σ → Prop} {C C' : σ → Prop}

theorem Spec.weaken {Q' : α → σ → Prop} {E' : ε → σ → Prop} {c : Prog ε σ α}
    (h : Spec P c Q E C) (hP : ∀ s, P' s → P s) (hQ : ∀ a s, Q a s → Q' a s)
    (hE : ∀ e s, E e s → E' e s) (hC : ∀ s, C s → C' s) : Spec P' c Q' E' C' := by
  intro s hs
  obtain ⟨hok, herr, hcut⟩ := h s (hP s hs)
  exact ⟨fun a ha => hQ a _ (hok a ha), fun e he => hE e _ (herr e he), fun t ht => hC t (hcut t ht)⟩

theorem Spec.onError {E' : ε → σ → Prop} {c : Prog ε σ α} (h : Spec P c Q E C)
    (hE : ∀ e s, E e s → E' e s) : Spec P c Q E' C :=
  h.weaken (fun _ hs => hs) (fun _ _ hs => hs) hE fun _ hs => hs

theorem Spec.of_run {c : Prog ε σ α}
    (h : ∀ s, P s → ∃ a t cs, c s = ⟨.ok a, t, cs⟩ ∧ Q a t ∧ ∀ u ∈ cs, C u) : Spec P c Q E C := by
  intro s hs
  obtain ⟨a, t, cs, hrun, hQ, hC⟩ := h s hs
  rw [hrun]
  refine ⟨fun b hb => ?_, fun e he => ?_, hC⟩
  · cases hb
    exact hQ
  · cases he

/-- What a triple says of every outcome and every crash point, it says of every state of a run. -/
theorem Spec.states {I : σ → Prop} {c : Prog ε σ α} {s t : σ} (h : Spec P c (fun _ => I) (fun _ => I) I) (hs : P s)
    (ht : t ∈ (c s).states) : I t := by
  obtain ⟨hok, herr, hcut⟩ := h s hs
  rcases List.mem_append.mp ht with ht | ht
  · exact hcut t ht
  · rw [List.mem_singleton.mp ht]
    cases hout : (c s).out with
    | ok a => exact hok a hout
    | error e => exact herr e hout

theorem Spec.exists {ι : Type} {P : ι → σ → Prop} {c : Prog ε σ α} (h : ∀ i, Spec (P i) c Q E C) :
    Spec (fun s => ∃ i, P i s) c Q E C := fun s ⟨i, hi⟩ => h i s hi

/-- What a precondition says of no state is a hypothesis. -/
theorem Spec.given {φ : Prop} {c : Prog ε σ α} (h : φ → Spec P c Q E C) :
    Spec (fun s => φ ∧ P s) c Q E C := fun s hs => h hs.1 s hs.2

/-- What a precondition implies is a hypothesis. -/
theorem Spec.assume {φ : Prop} {c : Prog ε σ α} (hφ : ∀ s, P s → φ) (h : φ → Spec P c Q E C) :
    Spec P c Q E C := fun s hs => h (hφ s hs) s hs

theorem Spec.pure {a : α} (h : ∀ s, P s → Q a s) : Spec P (pure a : Prog ε σ α) Q E C := by
  intro s hs
  refine ⟨fun b hb => ?_, fun e he => ?_, fun t ht => ?_⟩
  · cases hb
    exact h s hs
  · cases he
  · cases ht

theorem Spec.fail {e : ε} (h : ∀ s, P s → E e s) : Spec P (fail e : Prog ε σ α) Q E C := by
  intro s hs
  refine ⟨fun b hb => ?_, fun e' he => ?_, fun t ht => ?_⟩
  · cases hb
  · cases he
    exact h s hs
  · cases ht

theorem Spec.bind {R : β → σ → Prop} {c : Prog ε σ α} {f : α → Prog ε σ β}
    (hc : Spec P c Q E C) (hf : ∀ a, Spec (Q a) (f a) R E C) : Spec P (c >>= f) R E C := by
  intro s hs
  obtain ⟨hok, herr, hcut⟩ := hc s hs
  cases hr : c s with
  | mk out t cs =>
    rw [hr] at hok herr hcut
    cases out with
    | ok a =>
        obtain ⟨hok', herr', hcut'⟩ := hf a t (hok a rfl)
        rw [bind_of_ok hr]
        refine ⟨hok', herr', fun u hu => ?_⟩
        rcases List.mem_append.mp hu with hu | hu
        · exact hcut u hu
        · exact hcut' u hu
    | error e =>
        rw [bind_of_error hr]
        refine ⟨fun b hb => ?_, fun e' he => ?_, hcut⟩
        · cases hb
        · cases he
          exact herr e rfl

/-- The rule of sequence when the first half returns a known value. -/
theorem Spec.bind_value {R : β → σ → Prop} {c : Prog ε σ α} {f : α → Prog ε σ β} {b : α}
    (hc : Spec P c (fun x s => x = b ∧ P' s) E C) (hf : Spec P' (f b) R E C) :
    Spec P (c >>= f) R E C := by
  apply hc.bind
  rintro x s ⟨rfl, hs⟩
  exact hf s hs

/-- A condition on an outcome, given for each case. -/
abbrev Either (R : α → σ → Prop) (E : ε → σ → Prop) : Except ε α → σ → Prop
  | .ok a, s => R a s
  | .error e, s => E e s

theorem Spec.attempt {R : Except ε α → σ → Prop} {c : Prog ε σ α} {E' : ε → σ → Prop}
    (h : Spec P c (fun a s => R (.ok a) s) (fun e s => R (.error e) s) C) :
    Spec P (attempt c) R E' C := by
  intro s hs
  obtain ⟨hok, herr, hcut⟩ := h s hs
  refine ⟨fun r hr => ?_, fun e he => ?_, hcut⟩
  · cases hr
    cases hout : (c s).out with
    | ok a =>
        simp only [attempt_apply, hout]
        exact hok a hout
    | error e =>
        simp only [attempt_apply, hout]
        exact herr e hout
  · cases he

theorem Spec.durable {f : σ → Except ε α × σ}
    (hok : ∀ s a t, P s → f s = (.ok a, t) → Q a t)
    (herr : ∀ s e t, P s → f s = (.error e, t) → E e t) (hC : ∀ s, P s → C s) :
    Spec P (durable f) Q E C := by
  intro s hs
  refine ⟨fun a ha => hok s a _ hs (Prod.ext ha rfl), fun e he => herr s e _ hs (Prod.ext he rfl), ?_⟩
  intro t ht
  simp only [durable_apply, List.mem_singleton] at ht
  exact ht ▸ hC s hs

theorem Spec.volatile {f : σ → Except ε α × σ}
    (hok : ∀ s a t, P s → f s = (.ok a, t) → Q a t)
    (herr : ∀ s e t, P s → f s = (.error e, t) → E e t) : Spec P (volatile f) Q E C := by
  intro s hs
  refine ⟨fun a ha => hok s a _ hs (Prod.ext ha rfl), fun e he => herr s e _ hs (Prod.ext he rfl), ?_⟩
  intro t ht
  cases ht

/-! ### Programs over half of a state -/

/-- Run a program on the second half of the state. -/
def onSnd {ρ : Type} (c : Prog ε σ α) : Prog ε (ρ × σ) α := fun s =>
  ⟨(c s.2).out, (s.1, (c s.2).final), (c s.2).cuts.map (Prod.mk s.1)⟩

/-- Change the first half of the state, which a crash does not keep. -/
def onFst {ρ : Type} (f : ρ → ρ) : Prog ε (ρ × σ) Unit := volatile fun s => (.ok (), f s.1, s.2)

/-- Run a program with a first half that starts as `r`, and hand on its outcome with that half. -/
def withFst {ρ : Type} (r : ρ) (c : Prog ε (ρ × σ) α) : Prog ε σ (Except ε α × ρ) := fun s =>
  ⟨.ok ((c (r, s)).out, (c (r, s)).final.1), (c (r, s)).final.2, (c (r, s)).cuts.map Prod.snd⟩

theorem Spec.onSnd {ρ : Type} {c : Prog ε σ α} (h : Spec P c Q E C) (I : ρ → Prop) :
    Spec (fun s => I s.1 ∧ P s.2) c.onSnd (fun a s => I s.1 ∧ Q a s.2) (fun e s => I s.1 ∧ E e s.2)
      fun s => C s.2 := by
  rintro ⟨r, s⟩ ⟨hr, hs⟩
  obtain ⟨hok, herr, hcut⟩ := h s hs
  refine ⟨fun a ha => ⟨hr, hok a ha⟩, fun e he => ⟨hr, herr e he⟩, fun t ht => ?_⟩
  obtain ⟨u, hu, rfl⟩ := List.mem_map.mp ht
  exact hcut u hu

theorem Spec.onFst {ρ : Type} {f : ρ → ρ} {P : ρ × σ → Prop} {Q : Unit → ρ × σ → Prop}
    {E : ε → ρ × σ → Prop} {C : ρ × σ → Prop} (h : ∀ s, P s → Q () (f s.1, s.2)) :
    Spec P (onFst f) Q E C := by
  apply Spec.volatile
  · intro s a t hs ht
    cases ht
    exact h s hs
  · intro s e t hs ht
    cases ht

theorem Spec.withFst {ρ : Type} {r : ρ} {c : Prog ε (ρ × σ) α} {P : σ → Prop}
    {Q : Except ε α × ρ → σ → Prop} {E : ε → σ → Prop} {C : σ → Prop}
    (h : Spec (fun s => s.1 = r ∧ P s.2) c (fun a s => Q (.ok a, s.1) s.2)
      (fun e s => Q (.error e, s.1) s.2) fun s => C s.2) :
    Spec P (withFst r c) Q E C := by
  intro s hs
  obtain ⟨hok, herr, hcut⟩ := h (r, s) ⟨rfl, hs⟩
  refine ⟨fun b hb => ?_, fun e he => ?_, fun t ht => ?_⟩
  · cases hb
    cases hout : (c (r, s)).out with
    | ok a =>
        simp only [Prog.withFst, hout]
        exact hok a hout
    | error e =>
        simp only [Prog.withFst, hout]
        exact herr e hout
  · cases he
  · obtain ⟨u, hu, rfl⟩ := List.mem_map.mp ht
    exact hcut u hu

/-! ### Loops -/

/-- A loop over a list, one program for each element. -/
def forEach (f : γ → Prog ε σ Unit) : List γ → Prog ε σ Unit
  | [] => pure ()
  | x :: xs => do
      f x
      forEach f xs

theorem forEach_map {δ : Type} (f : γ → Prog ε σ Unit) (g : δ → γ) (xs : List δ) :
    forEach f (xs.map g) = forEach (fun x => f (g x)) xs := by
  induction xs with
  | nil => rfl
  | cons x xs ih => rw [List.map_cons, forEach, forEach, ih]

end Prog

end BStackRaii
