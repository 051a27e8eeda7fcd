import Mathlib.Algebra.BigOperators.Group.List.Basic
import Mathlib.Data.List.Induction
import Mathlib.Data.List.Nodup
import Mathlib.Data.Set.Basic
import Mathlib.Tactic.Abel
import Mathlib.Tactic.Common
/-!
# Linearizability

A history lists the calls and the returns of an object's operations in the order in which they happened.
It is linearizable when its completed operations, and some of those still in flight, can be put into one
sequence that the sequential object allows and that keeps every operation that returned before another
was called in front of it.

The rules below grow such a sequence along a run. An operation takes effect at its end. One that only
reads may also take effect at an earlier point of its own lifetime: `Seen` says that such a point exists,
and stays true whatever the others do.
-/

namespace BStackRaii

namespace Linearize

/-- A sequential object: which results an operation may have in a state, and the state it leaves. -/
structure Object (σ Op Res : Type) where
  allows : σ → Op → Res → Prop
  next : σ → Op → Res → σ

inductive Event (Op Res : Type)
  | call (id : Nat) (op : Op)
  | ret (id : Nat) (res : Res)
deriving DecidableEq, Repr

def Event.id {Op Res : Type} : Event Op Res → Nat
  | .call id _ => id
  | .ret id _ => id

/-- An operation that took effect. -/
structure Effect (Op Res : Type) where
  id : Nat
  op : Op
  res : Res
deriving DecidableEq, Repr

variable {σ Op Res : Type} (O : Object σ Op Res)

def after (s : σ) (l : List (Effect Op Res)) : σ := l.foldl (fun s x => O.next s x.op x.res) s

/-- The sequential object allows the effects `l` from `s` on. -/
def Legal : σ → List (Effect Op Res) → Prop
  | _, [] => True
  | s, x :: l => O.allows s x.op x.res ∧ Legal (O.next s x.op x.res) l

/-- Operation `i` returned before operation `j` was called. -/
def Precedes (h : List (Event Op Res)) (i j : Nat) : Prop :=
  ∃ past rest res op, h = past ++ rest ∧ .ret i res ∈ past ∧ .call j op ∈ rest

/-- The sequence `l` linearizes `h` from `s₀` on. Operations outside `counted` need not occur in it. -/
structure Linearizes (s₀ : σ) (counted : Set Nat) (h : List (Event Op Res)) (l : List (Effect Op Res)) : Prop where
  legal : Legal O s₀ l
  once : (l.map Effect.id).Nodup
  called : ∀ x ∈ l, .call x.id x.op ∈ h
  result : ∀ x ∈ l, ∀ res, .ret x.id res ∈ h → x.res = res
  complete : ∀ id ∈ counted, ∀ res, .ret id res ∈ h → ∃ x ∈ l, x.id = id
  order : l.Pairwise fun x y => ¬ Precedes h y.id x.id

/-- At some point of its lifetime the operation `id` saw a state that satisfies `Q`. -/
def Seen (s₀ : σ) (h : List (Event Op Res)) (l : List (Effect Op Res)) (id : Nat) (Q : σ → Prop) : Prop :=
  ∃ l₁ l₂, l = l₁ ++ l₂ ∧ Q (after O s₀ l₁) ∧ ∀ y ∈ l₂, ¬ Precedes h y.id id

variable {O} {s₀ : σ} {counted counted' : Set Nat} {h : List (Event Op Res)} {l l₁ l₂ : List (Effect Op Res)}
  {x : Effect Op Res} {i j id : Nat} {op : Op} {res : Res} {Q : σ → Prop}

theorem after_append : after O s₀ (l₁ ++ l₂) = after O (after O s₀ l₁) l₂ := List.foldl_append

theorem after_snoc : after O s₀ (l ++ [x]) = O.next (after O s₀ l) x.op x.res := after_append

theorem legal_append : Legal O s₀ (l₁ ++ l₂) ↔ Legal O s₀ l₁ ∧ Legal O (after O s₀ l₁) l₂ := by
  induction l₁ generalizing s₀ with
  | nil => simp [Legal, after]
  | cons y l₁ ih =>
      simp only [List.cons_append, Legal, and_assoc, ih]
      exact Iff.rfl

/-! ### Precedence -/

theorem Precedes.returned (hp : Precedes h i j) : ∃ res, .ret i res ∈ h := by
  obtain ⟨past, rest, res, op, rfl, hi, -⟩ := hp
  exact ⟨res, List.mem_append_left rest hi⟩

/-- An event at the end is in the rest, or nothing is. -/
theorem Precedes.of_snoc {e : Event Op Res} (hp : Precedes (h ++ [e]) i j) :
    Precedes h i j ∨ ∃ op, e = .call j op := by
  obtain ⟨past, rest, res, op, heq, hi, hj⟩ := hp
  cases rest using List.reverseRecOn with
  | nil => cases hj
  | append_singleton rest e' _ =>
      rw [← List.append_assoc] at heq
      obtain ⟨rfl, he⟩ := List.append_inj' heq rfl
      cases List.mem_append.mp hj with
      | inl hj => exact .inl ⟨past, rest, res, op, rfl, hi, hj⟩
      | inr hj => exact .inr ⟨op, (List.cons.inj he).1.trans (List.mem_singleton.mp hj).symm⟩

theorem Precedes.of_ret (hp : Precedes (h ++ [.ret id res]) i j) : Precedes h i j := by
  obtain hp | ⟨op, he⟩ := hp.of_snoc
  · exact hp
  · cases he

/-- What was called before is not called again. -/
theorem Precedes.of_call (hfresh : ∀ e ∈ h, e.id ≠ id) {op' : Op} (hj : .call j op' ∈ h)
    (hp : Precedes (h ++ [.call id op]) i j) : Precedes h i j := by
  obtain hp | ⟨op, he⟩ := hp.of_snoc
  · exact hp
  · cases he
    exact absurd rfl (hfresh _ hj)

/-! ### The rules -/

section Rules

theorem linearizes_nil (s₀ : σ) (counted : Set Nat) : Linearizes O s₀ counted [] [] where
  legal := trivial
  once := List.nodup_nil
  called := fun _ hx => (List.not_mem_nil hx).elim
  result := fun _ hx => (List.not_mem_nil hx).elim
  complete := fun _ _ _ hx => (List.not_mem_nil hx).elim
  order := List.Pairwise.nil

theorem Linearizes.mono (hl : Linearizes O s₀ counted h l) (hsub : counted' ⊆ counted) :
    Linearizes O s₀ counted' h l :=
  { hl with complete := fun id hid => hl.complete id (hsub hid) }

theorem Linearizes.call (hl : Linearizes O s₀ counted h l) (hfresh : ∀ e ∈ h, e.id ≠ id) (op : Op) :
    Linearizes O s₀ counted (h ++ [.call id op]) l where
  legal := hl.legal
  once := hl.once
  called := fun x hx => List.mem_append_left _ (hl.called x hx)
  result := by
    intro x hx res hret
    apply hl.result x hx
    simpa using hret
  complete := by
    intro id hid res hret
    apply hl.complete id hid res
    simpa using hret
  order := by
    apply hl.order.imp_of_mem
    intro x y hx _ hno hp
    exact hno (hp.of_call hfresh (hl.called x hx))

theorem Linearizes.ret (hl : Linearizes O s₀ counted h l) (hno : ∀ res, .ret id res ∉ h)
    (hx : id ∈ counted → ∃ x ∈ l, x.id = id) (hres : ∀ x ∈ l, x.id = id → x.res = res) :
    Linearizes O s₀ counted (h ++ [.ret id res]) l where
  legal := hl.legal
  once := hl.once
  called := fun x hx => List.mem_append_left _ (hl.called x hx)
  result := by
    intro y hy res' hret
    cases List.mem_append.mp hret with
    | inl hret => exact hl.result y hy res' hret
    | inr hret =>
        cases List.mem_singleton.mp hret
        exact hres y hy rfl
  complete := by
    intro id' hid res' hret
    cases List.mem_append.mp hret with
    | inl hret => exact hl.complete id' hid res' hret
    | inr hret =>
        cases List.mem_singleton.mp hret
        exact hx hid
  order := hl.order.imp fun hno hp => hno hp.of_ret

/-- An operation in flight takes effect between `l₁` and `l₂`. -/
theorem Linearizes.insert (hl : Linearizes O s₀ counted h (l₁ ++ l₂)) (hcall : .call x.id x.op ∈ h)
    (hno : ∀ res, .ret x.id res ∉ h) (hnew : ∀ y ∈ l₁ ++ l₂, y.id ≠ x.id)
    (hallow : O.allows (after O s₀ l₁) x.op x.res)
    (hlegal : Legal O (O.next (after O s₀ l₁) x.op x.res) l₂) (hseen : ∀ y ∈ l₂, ¬ Precedes h y.id x.id) :
    Linearizes O s₀ counted h (l₁ ++ x :: l₂) where
  legal := legal_append.mpr ⟨(legal_append.mp hl.legal).1, hallow, hlegal⟩
  once := by
    rw [List.map_append, List.map_cons, List.nodup_middle, ← List.map_append, List.nodup_cons]
    refine ⟨fun hmem => ?_, hl.once⟩
    obtain ⟨y, hy, he⟩ := List.mem_map.mp hmem
    exact hnew y hy he
  called := by
    intro y hy
    cases List.mem_cons.mp (List.perm_middle.mem_iff.mp hy) with
    | inl he => exact he ▸ hcall
    | inr hy => exact hl.called y hy
  result := by
    intro y hy res hret
    cases List.mem_cons.mp (List.perm_middle.mem_iff.mp hy) with
    | inl he => exact absurd (he ▸ hret) (hno res)
    | inr hy => exact hl.result y hy res hret
  complete := by
    intro id hid res hret
    obtain ⟨y, hy, he⟩ := hl.complete id hid res hret
    exact ⟨y, List.perm_middle.mem_iff.mpr (List.mem_cons_of_mem x hy), he⟩
  order := by
    obtain ⟨h₁, h₂, h₁₂⟩ := List.pairwise_append.mp hl.order
    refine List.pairwise_append.mpr ⟨h₁, List.pairwise_cons.mpr ⟨hseen, h₂⟩, fun y hy z hz => ?_⟩
    cases List.mem_cons.mp hz with
    | inl he =>
        intro hp
        obtain ⟨res, hret⟩ := hp.returned
        exact hno res (he ▸ hret)
    | inr hz => exact h₁₂ y hy z hz

theorem Linearizes.snoc (hl : Linearizes O s₀ counted h l) (hcall : .call x.id x.op ∈ h)
    (hno : ∀ res, .ret x.id res ∉ h) (hnew : ∀ y ∈ l, y.id ≠ x.id)
    (hallow : O.allows (after O s₀ l) x.op x.res) : Linearizes O s₀ counted h (l ++ [x]) := by
  rw [← List.append_nil l] at hl hnew
  exact hl.insert hcall hno hnew hallow trivial fun y hy => (List.not_mem_nil hy).elim

/-! ### What a reader saw -/

/-- An operation in flight sees the present state. -/
theorem seen_now (h : List (Event Op Res)) (id : Nat) (hQ : Q (after O s₀ l)) : Seen O s₀ h l id Q :=
  ⟨l, [], (List.append_nil l).symm, hQ, fun _ hy => (List.not_mem_nil hy).elim⟩

theorem Seen.call (hs : Seen O s₀ h l j Q) (hfresh : ∀ e ∈ h, e.id ≠ id) {op' : Op} (hj : .call j op' ∈ h) :
    Seen O s₀ (h ++ [.call id op]) l j Q := by
  obtain ⟨l₁, l₂, hl, hq, hp⟩ := hs
  exact ⟨l₁, l₂, hl, hq, fun y hy hno => hp y hy (hno.of_call hfresh hj)⟩

theorem Seen.ret (hs : Seen O s₀ h l j Q) : Seen O s₀ (h ++ [.ret id res]) l j Q := by
  obtain ⟨l₁, l₂, hl, hq, hp⟩ := hs
  exact ⟨l₁, l₂, hl, hq, fun y hy hno => hp y hy hno.of_ret⟩

theorem Seen.snoc (hs : Seen O s₀ h l j Q) (hno : ∀ res, .ret x.id res ∉ h) : Seen O s₀ h (l ++ [x]) j Q := by
  obtain ⟨m₁, m₂, rfl, hq, hp⟩ := hs
  refine ⟨m₁, m₂ ++ [x], List.append_assoc .., hq, fun y hy => ?_⟩
  cases List.mem_append.mp hy with
  | inl hy => exact hp y hy
  | inr hy =>
      cases List.mem_singleton.mp hy
      intro hprec
      obtain ⟨res, hret⟩ := hprec.returned
      exact hno res hret

theorem Seen.insert (hs : Seen O s₀ h (l₁ ++ l₂) j Q) (hno : ∀ res, .ret x.id res ∉ h)
    (hread : O.next (after O s₀ l₁) x.op x.res = after O s₀ l₁) : Seen O s₀ h (l₁ ++ x :: l₂) j Q := by
  have hlate : ¬ Precedes h x.id j := by
    intro hprec
    obtain ⟨res, hret⟩ := hprec.returned
    exact hno res hret
  obtain ⟨m₁, m₂, heq, hq, hp⟩ := hs
  obtain ⟨c, hm, hl₂⟩ | ⟨c, hl, hm₂⟩ := List.append_eq_append_iff.mp heq
  · -- the point lies in `l₂`
    refine ⟨l₁ ++ x :: c, m₂, by simp [hl₂], ?_, hp⟩
    have hstate : after O s₀ (l₁ ++ x :: c) = after O s₀ (l₁ ++ c) := by
      rw [after_append, after_append]
      show after O (O.next _ _ _) c = _
      rw [hread]
    rw [hstate, ← hm]
    exact hq
  · refine ⟨m₁, c ++ x :: l₂, by simp [hl], hq, fun y hy => ?_⟩
    rw [hm₂] at hp
    cases List.mem_cons.mp (List.perm_middle.mem_iff.mp hy) with
    | inl he => exact he ▸ hlate
    | inr hy => exact hp y hy

end Rules

/-! ### What the effects carry in and out -/

/-- What each effect conserves, a sequence of effects does. -/
theorem Legal.conserved {M : Type} [AddCommMonoid M] (hl : Legal O s₀ l) (content : σ → M)
    (puts takes : Effect Op Res → M)
    (hone : ∀ s x, O.allows s x.op x.res → puts x + content s = takes x + content (O.next s x.op x.res)) :
    (l.map puts).sum + content s₀ = (l.map takes).sum + content (after O s₀ l) := by
  induction l generalizing s₀ with
  | nil => rfl
  | cons x l ih =>
      have hrest := ih hl.2
      rw [List.map_cons, List.map_cons, List.sum_cons, List.sum_cons]
      calc puts x + (l.map puts).sum + content s₀ = puts x + content s₀ + (l.map puts).sum := by abel
        _ = takes x + ((l.map puts).sum + content (O.next s₀ x.op x.res)) := by rw [hone s₀ x hl.1]; abel
        _ = takes x + (l.map takes).sum + content (after O s₀ (x :: l)) := by
          rw [hrest, add_assoc]
          rfl

end Linearize

end BStackRaii
