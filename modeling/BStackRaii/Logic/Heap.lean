import Mathlib.Data.Multiset.Range
import Mathlib.Data.Multiset.MapFold
import Mathlib.Logic.Function.Basic
/-!
# Binary heaps in arrays

The children of slot `i` are the slots `2 * i + 1` and `2 * i + 2`, and a heap is in order when no slot comes
after a child of its own. A sift moves a hole along a path and says which slots it rewrites, while the array
it reads stays as it is: the slots of the path are distinct, so it never reads one that it has rewritten.

The order is any total preorder, so that different elements may tie.
-/

namespace BStackRaii

namespace Heap

variable {α : Type}

/-- A total preorder. -/
structure Lawful (le : α → α → Prop) : Prop where
  total : ∀ a b, le a b ∨ le b a
  trans : ∀ {a b c}, le a b → le b c → le a c

def parent (i : Nat) : Nat := (i - 1) / 2

/-- The first `n` slots are a heap. -/
def Ordered (le : α → α → Prop) (slots : Nat → α) (n : Nat) : Prop :=
  ∀ i, 0 < i → i < n → le (slots (parent i)) (slots i)

def contents (slots : Nat → α) (n : Nat) : Multiset α := (Multiset.range n).map slots

/-- The array once the moves are made, in order. -/
def place : List (Nat × α) → (Nat → α) → Nat → α
  | [], slots => slots
  | m :: moves, slots => place moves (Function.update slots m.1 m.2)

section Sift

variable (le : α → α → Prop) [DecidableRel le] (slots : Nat → α) (e : α)

/-- Lift the hole towards the root until `e` may fill it: the moves, and where the hole ends. `fuel` bounds
the rounds. -/
def up : Nat → Nat → List (Nat × α) × Nat
  | 0, hole => ([], hole)
  | fuel + 1, hole =>
      if hole = 0 then ([], hole)
      else if le (slots (parent hole)) e then ([], hole)
      else ((hole, slots (parent hole)) :: (up fuel (parent hole)).1, (up fuel (parent hole)).2)

/-- The child of `hole` that comes first. -/
def firstChild (n hole : Nat) : Nat :=
  if 2 * hole + 2 < n ∧ ¬ le (slots (2 * hole + 1)) (slots (2 * hole + 2)) then 2 * hole + 2 else 2 * hole + 1

/-- Lower the hole among the first `n` slots until `e` may fill it. -/
def down (n : Nat) : Nat → Nat → List (Nat × α) × Nat
  | 0, hole => ([], hole)
  | fuel + 1, hole =>
      if n ≤ 2 * hole + 1 then ([], hole)
      else if le e (slots (firstChild le slots n hole)) then ([], hole)
      else ((hole, slots (firstChild le slots n hole)) :: (down n fuel (firstChild le slots n hole)).1,
        (down n fuel (firstChild le slots n hole)).2)

end Sift

variable {le : α → α → Prop} {slots slots' : Nat → α} {e : α} {n fuel hole : Nat}

theorem Lawful.refl (h : Lawful le) (a : α) : le a a := (h.total a a).elim id id

theorem Lawful.of_not (h : Lawful le) {a b : α} (hn : ¬ le a b) : le b a := (h.total a b).resolve_left hn

theorem Ordered.root_le (hle : Lawful le) (h : Ordered le slots n) {i : Nat} (hi : i < n) :
    le (slots 0) (slots i) := by
  induction i using Nat.strong_induction_on with
  | h i ih =>
      cases i with
      | zero => exact hle.refl _
      | succ i =>
          have hparent : parent (i + 1) < i + 1 := by
            simp only [parent]
            omega
          exact hle.trans (ih _ hparent (Nat.lt_trans hparent hi)) (h _ (Nat.succ_pos i) hi)

theorem Ordered.congr (h : Ordered le slots n) (heq : ∀ i < n, slots' i = slots i) : Ordered le slots' n := by
  intro i hpos hi
  have hparent : parent i < n := by
    simp only [parent]
    omega
  rw [heq _ hparent, heq i hi]
  exact h i hpos hi

theorem contents_congr (heq : ∀ i < n, slots' i = slots i) : contents slots' n = contents slots n :=
  Multiset.map_congr rfl fun i hi => heq i (Multiset.mem_range.mp hi)

theorem mem_contents {x : α} : x ∈ contents slots n ↔ ∃ i < n, slots i = x := by
  simp only [contents, Multiset.mem_map, Multiset.mem_range]

theorem contents_succ (slots : Nat → α) (n : Nat) : contents slots (n + 1) = slots n ::ₘ contents slots n := by
  rw [contents, Multiset.range_succ, Multiset.map_cons, ← contents]

/-! ### Filling a hole -/

/-- The elements of the first `n` slots but the hole. -/
def around (slots : Nat → α) (n hole : Nat) : Multiset α := ((Multiset.range n).erase hole).map slots

theorem map_update {s : Multiset Nat} (hs : s.Nodup) (hmem : hole ∈ s) :
    s.map (Function.update slots hole e) = e ::ₘ (s.erase hole).map slots := by
  have hsplit := Multiset.cons_erase hmem
  conv_lhs => rw [← hsplit]
  rw [Multiset.map_cons, Function.update_self]
  congr 1
  refine Multiset.map_congr rfl fun i hi => Function.update_of_ne ?_ _ _
  rintro rfl
  exact hs.notMem_erase hi

theorem contents_fill (hhole : hole < n) :
    contents (Function.update slots hole e) n = e ::ₘ around slots n hole :=
  map_update (Multiset.nodup_range n) (Multiset.mem_range.mpr hhole)

theorem around_move {p : Nat} (hhole : hole < n) (hp : p < n) (hne : p ≠ hole) :
    around (Function.update slots hole (slots p)) n p = around slots n hole := by
  have hnodup := Multiset.nodup_range n
  have hmem : hole ∈ (Multiset.range n).erase p :=
    (Multiset.mem_erase_of_ne hne.symm).mpr (Multiset.mem_range.mpr hhole)
  have hback : p ∈ (Multiset.range n).erase hole := (Multiset.mem_erase_of_ne hne).mpr (Multiset.mem_range.mpr hp)
  rw [around, map_update (hnodup.erase p) hmem, around, Multiset.erase_comm, ← Multiset.map_cons,
    Multiset.cons_erase hback]

/-- Every parent and child that the hole does not touch are in order. -/
def OrderedBeside (le : α → α → Prop) (slots : Nat → α) (n hole : Nat) : Prop :=
  ∀ i, 0 < i → i < n → i ≠ hole → parent i ≠ hole → le (slots (parent i)) (slots i)

/-! ### Lifting the hole -/

/-- What lifting the hole for `e` keeps: its children come after its parent and after `e`. -/
structure Lifting (le : α → α → Prop) (slots : Nat → α) (n hole : Nat) (e : α) : Prop where
  aside : OrderedBeside le slots n hole
  across : hole ≠ 0 → ∀ c, 0 < c → parent c = hole → c < n → le (slots (parent hole)) (slots c)
  beneath : ∀ c, 0 < c → parent c = hole → c < n → le e (slots c)

theorem parent_lt {i : Nat} (hi : i ≠ 0) : parent i < i := by
  simp only [parent]
  omega

theorem Lifting.move (hle : Lawful le) (h : Lifting le slots n hole e) (hhole : hole < n) (hne : hole ≠ 0)
    (hafter : ¬ le (slots (parent hole)) e) :
    Lifting le (Function.update slots hole (slots (parent hole))) n (parent hole) e := by
  have hlt := parent_lt hne
  have habove : parent hole ≠ 0 → le (slots (parent (parent hole))) (slots (parent hole)) := fun h0 =>
    h.aside _ (Nat.pos_of_ne_zero h0) (by omega) (by omega) (by have := parent_lt h0; omega)
  have hbefore := hle.of_not hafter
  refine ⟨fun i hpos hi hip hpi => ?_, fun h0 c hpos hc hcn => ?_, fun c hpos hc hcn => ?_⟩
  · have hih : i ≠ hole := by
      rintro rfl
      exact hpi rfl
    rw [Function.update_of_ne hih]
    by_cases hph : parent i = hole
    · rw [hph, Function.update_self]
      exact h.across hne i hpos hph hi
    · rw [Function.update_of_ne hph]
      exact h.aside i hpos hi hih hph
  · have hpp : parent (parent hole) ≠ hole := by
      have := parent_lt h0
      omega
    rw [Function.update_of_ne hpp]
    by_cases hch : c = hole
    · rw [hch, Function.update_self]
      exact habove h0
    · rw [Function.update_of_ne hch]
      have hchild : le (slots (parent c)) (slots c) := h.aside c hpos hcn hch (by omega)
      rw [hc] at hchild
      exact hle.trans (habove h0) hchild
  · by_cases hch : c = hole
    · rw [hch, Function.update_self]
      exact hbefore
    · rw [Function.update_of_ne hch]
      have hchild : le (slots (parent c)) (slots c) := h.aside c hpos hcn hch (by omega)
      rw [hc] at hchild
      exact hle.trans hbefore hchild

theorem Lifting.fill (h : Lifting le slots n hole e) (hstop : hole ≠ 0 → le (slots (parent hole)) e) :
    Ordered le (Function.update slots hole e) n := by
  intro i hpos hi
  by_cases hih : i = hole
  · have hlt : parent hole < hole := parent_lt (by omega)
    rw [hih, Function.update_self, Function.update_of_ne (Nat.ne_of_lt hlt)]
    exact hstop (by omega)
  · rw [Function.update_of_ne hih]
    by_cases hph : parent i = hole
    · rw [hph, Function.update_self]
      exact h.beneath i hpos hph hi
    · rw [Function.update_of_ne hph]
      exact h.aside i hpos hi hih hph

/-- The slot after the last is a hole that any element may lift. -/
theorem Ordered.lifting (h : Ordered le slots n) : Lifting le slots (n + 1) n e := by
  refine ⟨fun i hpos hi hne _ => h i hpos (by omega), fun _ c hpos hc hcn => ?_, fun c hpos hc hcn => ?_⟩
  · simp only [parent] at hc
    omega
  · simp only [parent] at hc
    omega

section Up

variable [DecidableRel le]

/-- Lifting reads above the hole only. -/
theorem up_congr (heq : ∀ i < hole, slots' i = slots i) : up le slots' e fuel hole = up le slots e fuel hole := by
  induction fuel generalizing hole with
  | zero => rfl
  | succ fuel ih =>
      by_cases h0 : hole = 0
      · simp only [up, if_pos h0]
      · have hlt := parent_lt h0
        have hrest : up le slots' e fuel (parent hole) = up le slots e fuel (parent hole) :=
          ih fun i hi => heq i (Nat.lt_trans hi hlt)
        simp only [up, heq _ hlt, hrest]

/-- The slots of the path, from the first one up. -/
theorem up_path (le : α → α → Prop) [DecidableRel le] (slots : Nat → α) (e : α) (fuel hole : Nat) :
    (up le slots e fuel hole).2 ≤ hole ∧
    (∀ m ∈ (up le slots e fuel hole).1, (up le slots e fuel hole).2 < m.1 ∧ m.1 ≤ hole) ∧
    ((up le slots e fuel hole).1.map Prod.fst).Nodup := by
  induction fuel generalizing hole with
  | zero => exact ⟨Nat.le_refl _, fun m hm => absurd hm List.not_mem_nil, List.nodup_nil⟩
  | succ fuel ih =>
      rw [up]
      split
      · exact ⟨Nat.le_refl _, fun m hm => absurd hm List.not_mem_nil, List.nodup_nil⟩
      · rename_i h0
        split
        · exact ⟨Nat.le_refl _, fun m hm => absurd hm List.not_mem_nil, List.nodup_nil⟩
        · have hlt := parent_lt h0
          obtain ⟨hend, hpath, hnodup⟩ := ih (parent hole)
          refine ⟨Nat.le_trans hend (Nat.le_of_lt hlt), fun m hm => ?_, ?_⟩
          · rcases List.mem_cons.mp hm with rfl | hm
            · exact ⟨Nat.lt_of_le_of_lt hend hlt, Nat.le_refl _⟩
            · exact ⟨(hpath m hm).1, Nat.le_trans (hpath m hm).2 (Nat.le_of_lt hlt)⟩
          · refine List.nodup_cons.mpr ⟨fun hmem => ?_, hnodup⟩
            obtain ⟨m, hm, heq⟩ := List.mem_map.mp hmem
            have hle := (hpath m hm).2
            omega

/-- With the hole lifted and filled the heap is in order, and it holds what was around the hole and `e`. -/
theorem up_spec (hle : Lawful le) (h : Lifting le slots n hole e) (hhole : hole < n) (hfuel : hole ≤ fuel) :
    Ordered le (place ((up le slots e fuel hole).1 ++ [((up le slots e fuel hole).2, e)]) slots) n ∧
      contents (place ((up le slots e fuel hole).1 ++ [((up le slots e fuel hole).2, e)]) slots) n =
        e ::ₘ around slots n hole := by
  induction fuel generalizing slots hole with
  | zero =>
      have h0 : hole = 0 := Nat.le_zero.mp hfuel
      exact ⟨h.fill fun hne => absurd h0 hne, contents_fill hhole⟩
  | succ fuel ih =>
      rw [up]
      split
      · rename_i h0
        exact ⟨h.fill fun hne => absurd h0 hne, contents_fill hhole⟩
      · rename_i h0
        split
        · rename_i hstop
          exact ⟨h.fill fun _ => hstop, contents_fill hhole⟩
        · rename_i hafter
          have hlt := parent_lt h0
          have hsame : up le (Function.update slots hole (slots (parent hole))) e fuel (parent hole) =
              up le slots e fuel (parent hole) :=
            up_congr fun i hi => Function.update_of_ne (by omega) _ _
          have hrest := ih (h.move hle hhole h0 hafter) (Nat.lt_trans hlt hhole) (by omega)
          rw [hsame, around_move hhole (Nat.lt_trans hlt hhole) (Nat.ne_of_lt hlt)] at hrest
          exact hrest

end Up

/-! ### Lowering the hole -/

/-- What lowering the hole for `e` keeps: its children and `e` come after its parent. -/
structure Lowering (le : α → α → Prop) (slots : Nat → α) (n hole : Nat) (e : α) : Prop where
  aside : OrderedBeside le slots n hole
  above : hole ≠ 0 → le (slots (parent hole)) e
  across : hole ≠ 0 → ∀ c, 0 < c → parent c = hole → c < n → le (slots (parent hole)) (slots c)

/-- The root is a hole that any element may lower. -/
theorem Ordered.lowering (h : Ordered le slots n) : Lowering le slots n 0 e :=
  ⟨fun i hpos hi _ _ => h i hpos hi, fun hne => absurd rfl hne, fun hne => absurd rfl hne⟩

theorem Lowering.fill (h : Lowering le slots n hole e)
    (hstop : ∀ c, 0 < c → parent c = hole → c < n → le e (slots c)) :
    Ordered le (Function.update slots hole e) n := by
  intro i hpos hi
  by_cases hih : i = hole
  · have hlt : parent hole < hole := parent_lt (by omega)
    rw [hih, Function.update_self, Function.update_of_ne (Nat.ne_of_lt hlt)]
    exact h.above (by omega)
  · rw [Function.update_of_ne hih]
    by_cases hph : parent i = hole
    · rw [hph, Function.update_self]
      exact hstop i hpos hph hi
    · rw [Function.update_of_ne hph]
      exact h.aside i hpos hi hih hph

section Down

variable [DecidableRel le]

theorem firstChild_cases (le : α → α → Prop) [DecidableRel le] (slots : Nat → α) (n hole : Nat) :
    firstChild le slots n hole = 2 * hole + 1 ∨ (firstChild le slots n hole = 2 * hole + 2 ∧ 2 * hole + 2 < n) := by
  rw [firstChild]
  split
  · rename_i hright
    exact .inr ⟨rfl, hright.1⟩
  · exact .inl rfl

/-- The child that comes first comes before both of them. -/
theorem firstChild_le (hle : Lawful le) {c : Nat} (hpos : 0 < c) (hc : parent c = hole) (hcn : c < n) :
    le (slots (firstChild le slots n hole)) (slots c) := by
  have hwhich : c = 2 * hole + 1 ∨ c = 2 * hole + 2 := by
    simp only [parent] at hc
    omega
  rw [firstChild]
  split
  · rename_i hright
    rcases hwhich with rfl | rfl
    · exact hle.of_not hright.2
    · exact hle.refl _
  · rename_i hleft
    rcases hwhich with rfl | rfl
    · exact hle.refl _
    · by_contra hn
      exact hleft ⟨hcn, hn⟩

theorem Lowering.move (hle : Lawful le) (h : Lowering le slots n hole e) (hin : 2 * hole + 1 < n)
    (hbefore : ¬ le e (slots (firstChild le slots n hole))) :
    Lowering le (Function.update slots hole (slots (firstChild le slots n hole))) n
      (firstChild le slots n hole) e := by
  have hfirst : ∀ i, 0 < i → parent i = hole → i < n → le (slots (firstChild le slots n hole)) (slots i) :=
    fun i hpos hc hi => firstChild_le hle hpos hc hi
  have hchild := firstChild_cases le slots n hole
  generalize firstChild le slots n hole = c at hbefore hfirst hchild ⊢
  have hparent : parent c = hole := by
    simp only [parent]
    omega
  refine ⟨fun i hpos hi hic hpi => ?_, fun _ => ?_, fun _ d hpos hd hdn => ?_⟩
  · by_cases hih : i = hole
    · have hlt : parent hole < hole := parent_lt (by omega)
      rw [hih, Function.update_self, Function.update_of_ne (Nat.ne_of_lt hlt)]
      exact h.across (by omega) c (by omega) hparent (by omega)
    · rw [Function.update_of_ne hih]
      by_cases hph : parent i = hole
      · rw [hph, Function.update_self]
        exact hfirst i hpos hph hi
      · rw [Function.update_of_ne hph]
        exact h.aside i hpos hi hih hph
  · rw [hparent, Function.update_self]
    exact hle.of_not hbefore
  · have hlt : parent d < d := parent_lt (Nat.ne_of_gt hpos)
    rw [hparent, Function.update_self, Function.update_of_ne (by omega)]
    have hkept := h.aside d hpos hdn (by omega) (by omega)
    rwa [hd] at hkept

/-- Lowering reads below the hole only. -/
theorem down_congr (heq : ∀ i, hole < i → slots' i = slots i) :
    down le slots' e n fuel hole = down le slots e n fuel hole := by
  induction fuel generalizing hole with
  | zero => rfl
  | succ fuel ih =>
      have hfirst : firstChild le slots' n hole = firstChild le slots n hole := by
        simp only [firstChild, heq (2 * hole + 1) (by omega), heq (2 * hole + 2) (by omega)]
      have hlt : hole < firstChild le slots n hole := by
        have := firstChild_cases le slots n hole
        omega
      have hrest : down le slots' e n fuel (firstChild le slots n hole) =
          down le slots e n fuel (firstChild le slots n hole) := ih fun i hi => heq i (Nat.lt_trans hlt hi)
      simp only [down, hfirst, heq _ hlt, hrest]

/-- The slots of the path, from the first one down. -/
theorem down_path (le : α → α → Prop) [DecidableRel le] (slots : Nat → α) (e : α) (fuel : Nat) (hhole : hole < n) :
    (down le slots e n fuel hole).2 < n ∧
    hole ≤ (down le slots e n fuel hole).2 ∧
    (∀ m ∈ (down le slots e n fuel hole).1, hole ≤ m.1 ∧ m.1 < (down le slots e n fuel hole).2) ∧
    ((down le slots e n fuel hole).1.map Prod.fst).Nodup := by
  induction fuel generalizing hole with
  | zero => exact ⟨hhole, Nat.le_refl _, fun m hm => absurd hm List.not_mem_nil, List.nodup_nil⟩
  | succ fuel ih =>
      rw [down]
      split
      · exact ⟨hhole, Nat.le_refl _, fun m hm => absurd hm List.not_mem_nil, List.nodup_nil⟩
      · rename_i hin
        split
        · exact ⟨hhole, Nat.le_refl _, fun m hm => absurd hm List.not_mem_nil, List.nodup_nil⟩
        · have hchild := firstChild_cases le slots n hole
          obtain ⟨hend, hstart, hpath, hnodup⟩ := ih (show firstChild le slots n hole < n by omega)
          refine ⟨hend, by omega, fun m hm => ?_, ?_⟩
          · rcases List.mem_cons.mp hm with rfl | hm
            · exact ⟨Nat.le_refl _, by show hole < _; omega⟩
            · exact ⟨by have := (hpath m hm).1; omega, (hpath m hm).2⟩
          · refine List.nodup_cons.mpr ⟨fun hmem => ?_, hnodup⟩
            obtain ⟨m, hm, heq⟩ := List.mem_map.mp hmem
            have hge := (hpath m hm).1
            omega

/-- With the hole lowered and filled the heap is in order, and it holds what was around the hole and `e`. -/
theorem down_spec (hle : Lawful le) (h : Lowering le slots n hole e) (hhole : hole < n) (hfuel : n ≤ hole + fuel) :
    Ordered le (place ((down le slots e n fuel hole).1 ++ [((down le slots e n fuel hole).2, e)]) slots) n ∧
      contents (place ((down le slots e n fuel hole).1 ++ [((down le slots e n fuel hole).2, e)]) slots) n =
        e ::ₘ around slots n hole := by
  induction fuel generalizing slots hole with
  | zero => omega
  | succ fuel ih =>
      rw [down]
      split
      · refine ⟨h.fill fun c hpos hc hcn => ?_, contents_fill hhole⟩
        simp only [parent] at hc
        omega
      · rename_i hin
        split
        · rename_i hstop
          exact ⟨h.fill fun c hpos hc hcn => hle.trans hstop (firstChild_le hle hpos hc hcn), contents_fill hhole⟩
        · rename_i hbefore
          have hchild := firstChild_cases le slots n hole
          have hmoved := h.move hle (by omega) hbefore
          generalize hfirst : firstChild le slots n hole = c at hchild hmoved ⊢
          have hsame : down le (Function.update slots hole (slots c)) e n fuel c = down le slots e n fuel c :=
            down_congr fun i hi => Function.update_of_ne (by omega) _ _
          have hrest := ih hmoved (by omega) (by omega)
          rw [hsame, around_move hhole (by omega) (by omega)] at hrest
          exact hrest

end Down

/-! ### Taking the root out -/

/-- What is left when the last element takes the place of the root. -/
theorem around_root (slots : Nat → α) (n : Nat) :
    slots 0 ::ₘ (slots (n + 1) ::ₘ around slots (n + 1) 0) = contents slots (n + 2) := by
  have hmem : (0 : Nat) ∈ Multiset.range (n + 1) := Multiset.mem_range.mpr (Nat.succ_pos n)
  rw [contents_succ, Multiset.cons_swap, around, ← Multiset.map_cons, Multiset.cons_erase hmem, ← contents]

end Heap

end BStackRaii
