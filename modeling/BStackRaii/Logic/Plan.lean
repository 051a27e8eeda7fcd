import BStackRaii.Logic.Run
/-!
# Path-copying programs

A `Plan` works on a store of nodes that does not change while it runs. It reads old nodes, emits
copies of them and retires the originals, and leaves it to its caller to publish the copies. So what
a plan does can be said without the state it runs in: `Plan.Ensures` looks nodes up in the old store
and collects what is emitted and retired. `Plan.run` interprets a plan by handlers for the single
operations, and `Plan.run_spec` carries `Ensures` over to it.
-/

namespace BStackRaii

/-- A program over nodes `ν` with headers `η`, which `peek` reads alone. -/
inductive Plan (ε ν η α : Type) : Type
  | ret (a : α)
  | fail (e : ε)
  | read (off : Nat) (k : ν → Plan ε ν η α)
  | peek (off : Nat) (k : η → Plan ε ν η α)
  | emit (node : ν) (k : Nat → Plan ε ν η α)
  | retire (off : Nat) (k : Plan ε ν η α)

namespace Plan

variable {ε σ ν η α β : Type}

def bind : Plan ε ν η α → (α → Plan ε ν η β) → Plan ε ν η β
  | ret a, f => f a
  | fail e, _ => fail e
  | read off k, f => read off fun n => (k n).bind f
  | peek off k, f => peek off fun n => (k n).bind f
  | emit node k, f => emit node fun off => (k off).bind f
  | retire off k, f => retire off (k.bind f)

instance : Monad (Plan ε ν η) where
  pure := ret
  bind := bind

theorem bind_ret (p : Plan ε ν η α) : p.bind ret = p := by
  induction p with
  | ret a => rfl
  | fail e => rfl
  | read off k ih => exact congrArg (read off) (funext ih)
  | peek off k ih => exact congrArg (peek off) (funext ih)
  | emit node k ih => exact congrArg (emit node) (funext ih)
  | retire off k ih => exact congrArg (retire off) ih

theorem bind_bind {γ : Type} (p : Plan ε ν η α) (f : α → Plan ε ν η β) (g : β → Plan ε ν η γ) :
    (p.bind f).bind g = p.bind fun a => (f a).bind g := by
  induction p with
  | ret a => rfl
  | fail e => rfl
  | read off k ih => exact congrArg (read off) (funext ih)
  | peek off k ih => exact congrArg (peek off) (funext ih)
  | emit node k ih => exact congrArg (emit node) (funext ih)
  | retire off k ih => exact congrArg (retire off) ih

instance : LawfulMonad (Plan ε ν η) :=
  LawfulMonad.mk' (Plan ε ν η) bind_ret (fun _ _ => rfl) bind_bind

def unwrap (e : ε) : Option α → Plan ε ν η α
  | some a => ret a
  | none => fail e

/-- What interprets the operations of a plan. -/
structure Handlers (ε σ ν η : Type) where
  read : Nat → Prog ε σ ν
  peek : Nat → Prog ε σ η
  emit : ν → Prog ε σ Nat
  retire : Nat → Prog ε σ Unit

def run (h : Handlers ε σ ν η) : Plan ε ν η α → Prog ε σ α
  | ret a => pure a
  | fail e => Prog.fail e
  | read off k => do
      let n ← h.read off
      (k n).run h
  | peek off k => do
      let n ← h.peek off
      (k n).run h
  | emit node k => do
      let off ← h.emit node
      (k off).run h
  | retire off k => do
      h.retire off
      k.run h

/-! ### What a plan ensures -/

/-- The store a plan starts from: its nodes, their headers, the nodes that may be emitted, and the
places where they may end up. -/
structure Store (ν η : Type) where
  look : Nat → Option ν
  head : ν → η
  Fits : ν → Prop
  Fresh : Nat → Prop

/-- Wherever its nodes end up, the plan reads and retires no node that is not there and does not fail,
and `Q` holds of what it emits, what it retires, and its result. -/
def Ensures (S : Store ν η) : Plan ε ν η α → (List (Nat × ν) → List Nat → α → Prop) → Prop
  | ret a, Q => Q [] [] a
  | fail _, _ => False
  | read off k, Q => ∃ n, S.look off = some n ∧ (k n).Ensures S Q
  | peek off k, Q => ∃ n, S.look off = some n ∧ (k (S.head n)).Ensures S Q
  | emit node k, Q => S.Fits node ∧ ∀ off, S.Fresh off →
      (k off).Ensures S fun em rt a => Q ((off, node) :: em) rt a
  | retire off k, Q => (∃ n, S.look off = some n) ∧ k.Ensures S fun em rt a => Q em (off :: rt) a

variable {S : Store ν η} {Q R : List (Nat × ν) → List Nat → α → Prop}

theorem Ensures.mono {p : Plan ε ν η α} (h : p.Ensures S Q)
    (hQ : ∀ em rt a, Q em rt a → R em rt a) : p.Ensures S R := by
  induction p generalizing Q R with
  | ret a => exact hQ _ _ _ h
  | fail e => exact h
  | read off k ih =>
      obtain ⟨n, hn, h⟩ := h
      exact ⟨n, hn, ih n h hQ⟩
  | peek off k ih =>
      obtain ⟨n, hn, h⟩ := h
      exact ⟨n, hn, ih _ h hQ⟩
  | emit node k ih =>
      obtain ⟨hfits, h⟩ := h
      exact ⟨hfits, fun off hoff => ih off (h off hoff) fun em rt a => hQ _ _ _⟩
  | retire off k ih => exact ⟨h.1, ih h.2 fun em rt a => hQ _ _ _⟩

/-- The rule of sequence. -/
theorem Ensures.bind {p : Plan ε ν η α} {f : α → Plan ε ν η β}
    {R : List (Nat × ν) → List Nat → β → Prop} (h : p.Ensures S Q)
    (hf : ∀ em rt a, Q em rt a → (f a).Ensures S fun em' rt' b => R (em ++ em') (rt ++ rt') b) :
    (p >>= f).Ensures S R := by
  change (p.bind f).Ensures S R
  induction p generalizing Q R with
  | ret a => exact hf _ _ _ h
  | fail e => exact h.elim
  | read off k ih =>
      obtain ⟨n, hn, h⟩ := h
      exact ⟨n, hn, ih n h hf⟩
  | peek off k ih =>
      obtain ⟨n, hn, h⟩ := h
      exact ⟨n, hn, ih _ h hf⟩
  | emit node k ih =>
      obtain ⟨hfits, h⟩ := h
      exact ⟨hfits, fun off hoff => ih off (h off hoff) fun em rt a hq => hf _ _ _ hq⟩
  | retire off k ih => exact ⟨h.1, ih h.2 fun em rt a hq => hf _ _ _ hq⟩

/-- What every plan ensures of the nodes it emits and retires. -/
theorem Ensures.sound {p : Plan ε ν η α} (h : p.Ensures S Q) :
    p.Ensures S fun em rt a => Q em rt a ∧ (∀ x ∈ em, S.Fresh x.1 ∧ S.Fits x.2) ∧
      ∀ off ∈ rt, ∃ n, S.look off = some n := by
  induction p generalizing Q with
  | ret a => exact ⟨h, by simp, by simp⟩
  | fail e => exact h
  | read off k ih =>
      obtain ⟨n, hn, h⟩ := h
      exact ⟨n, hn, ih n h⟩
  | peek off k ih =>
      obtain ⟨n, hn, h⟩ := h
      exact ⟨n, hn, ih _ h⟩
  | emit node k ih =>
      obtain ⟨hfits, h⟩ := h
      refine ⟨hfits, fun off hoff => (ih off (h off hoff)).mono fun em rt a ⟨hq, hem, hrt⟩ => ⟨hq, ?_, hrt⟩⟩
      exact List.forall_mem_cons.mpr ⟨⟨hoff, hfits⟩, hem⟩
  | retire off k ih =>
      exact ⟨h.1, (ih h.2).mono fun em rt a ⟨hq, hem, hrt⟩ => ⟨hq, hem, List.forall_mem_cons.mpr ⟨h.1, hrt⟩⟩⟩

/-! ### The first operation of a sequence -/

section Steps

variable {off : Nat} {n : ν} {e : ε} {a : α} {R : List (Nat × ν) → List Nat → β → Prop}

theorem Ensures.read_bind {f : ν → Plan ε ν η β} (hn : S.look off = some n) (h : (f n).Ensures S R) :
    (read off ret >>= f).Ensures S R := ⟨n, hn, h⟩

theorem Ensures.emit_bind {f : Nat → Plan ε ν η β} (hn : S.Fits n)
    (h : ∀ off, S.Fresh off → (f off).Ensures S fun em rt a => R ((off, n) :: em) rt a) :
    (emit n ret >>= f).Ensures S R := ⟨hn, h⟩

theorem Ensures.unwrap_bind {o : Option α} {f : α → Plan ε ν η β} (ho : o = some a)
    (h : (f a).Ensures S R) : (unwrap e o >>= f).Ensures S R := by
  subst ho
  exact h

theorem Ensures.pure (h : Q [] [] a) : (Pure.pure a : Plan ε ν η α).Ensures S Q := h

end Steps

/-! ### From plans to runs -/

/-- The handlers serve the store: while `em` has been emitted and `rt` retired, the state satisfies
`I`. An operation may fail with an error of the environment, and then changes nothing. -/
structure Serves (h : Handlers ε σ ν η) (S : Store ν η)
    (I : List (Nat × ν) → List Nat → σ → Prop) (E : ε → σ → Prop) (C : σ → Prop) : Prop where
  read : ∀ em rt off n, S.look off = some n →
    Prog.Spec (I em rt) (h.read off) (fun m s => m = n ∧ I em rt s) (fun e s => E e s ∧ I em rt s) C
  peek : ∀ em rt off n, S.look off = some n →
    Prog.Spec (I em rt) (h.peek off) (fun m s => m = S.head n ∧ I em rt s)
      (fun e s => E e s ∧ I em rt s) C
  emit : ∀ em rt node, S.Fits node →
    Prog.Spec (I em rt) (h.emit node) (fun off s => S.Fresh off ∧ I (em ++ [(off, node)]) rt s)
      (fun e s => E e s ∧ I em rt s) C
  retire : ∀ em rt off n, S.look off = some n → Prog.Spec (I em rt) (h.retire off) (fun _ => I em (rt ++ [off]))
    (fun e s => E e s ∧ I em rt s) C

variable {h : Handlers ε σ ν η} {I : List (Nat × ν) → List Nat → σ → Prop} {E : ε → σ → Prop}
  {C : σ → Prop}

theorem run_spec (hs : Serves h S I E C) {p : Plan ε ν η α} (hp : p.Ensures S Q)
    (em : List (Nat × ν)) (rt : List Nat) :
    Prog.Spec (I em rt) (p.run h)
      (fun a s => ∃ em' rt', I (em ++ em') (rt ++ rt') s ∧ Q em' rt' a)
      (fun e s => E e s ∧ ∃ em' rt', I (em ++ em') (rt ++ rt') s) C := by
  have hstop : ∀ em rt e s, E e s ∧ I em rt s → E e s ∧ ∃ em' rt', I (em ++ em') (rt ++ rt') s := by
    intro em rt e s ⟨he, hI⟩
    exact ⟨he, [], [], by simpa only [List.append_nil] using hI⟩
  induction p generalizing Q em rt with
  | ret a =>
      apply Prog.Spec.pure
      intro s hI
      exact ⟨[], [], by simpa only [List.append_nil] using hI, hp⟩
  | fail e => exact hp.elim
  | read off k ih =>
      obtain ⟨n, hn, hp⟩ := hp
      apply ((hs.read em rt off n hn).weaken (fun _ => id) (fun _ _ => id) (hstop em rt) fun _ => id).bind
      intro m s hm
      obtain ⟨rfl, hI⟩ := hm
      exact ih m hp em rt s hI
  | peek off k ih =>
      obtain ⟨n, hn, hp⟩ := hp
      apply ((hs.peek em rt off n hn).weaken (fun _ => id) (fun _ _ => id) (hstop em rt) fun _ => id).bind
      intro m s hm
      obtain ⟨rfl, hI⟩ := hm
      exact ih _ hp em rt s hI
  | emit node k ih =>
      obtain ⟨hfits, hp⟩ := hp
      apply ((hs.emit em rt node hfits).weaken (fun _ => id) (fun _ _ => id) (hstop em rt) fun _ => id).bind
      intro off s hm
      obtain ⟨hfresh, hI⟩ := hm
      obtain ⟨hok, herr, hcut⟩ := ih off (hp off hfresh) (em ++ [(off, node)]) rt s hI
      refine ⟨fun a ha => ?_, fun e he => ?_, hcut⟩
      · obtain ⟨em', rt', hI, hQ⟩ := hok a ha
        exact ⟨_, rt', by simpa only [List.append_assoc, List.singleton_append] using hI, hQ⟩
      · obtain ⟨henv, em', rt', hI⟩ := herr e he
        exact ⟨henv, _, rt', by simpa only [List.append_assoc, List.singleton_append] using hI⟩
  | retire off k ih =>
      obtain ⟨⟨n, hn⟩, hp⟩ := hp
      apply ((hs.retire em rt off n hn).weaken (fun _ => id) (fun _ _ => id) (hstop em rt) fun _ => id).bind
      intro _ s hI
      obtain ⟨hok, herr, hcut⟩ := ih hp em (rt ++ [off]) s hI
      refine ⟨fun a ha => ?_, fun e he => ?_, hcut⟩
      · obtain ⟨em', rt', hI, hQ⟩ := hok a ha
        exact ⟨em', _, by simpa only [List.append_assoc, List.singleton_append] using hI, hQ⟩
      · obtain ⟨henv, em', rt', hI⟩ := herr e he
        exact ⟨henv, em', _, by simpa only [List.append_assoc, List.singleton_append] using hI⟩

end Plan

end BStackRaii
