import Mathlib.Algebra.Order.BigOperators.Group.Finset
import Mathlib.Algebra.BigOperators.Group.Multiset.Basic
/-!
# Reference-counted release

A holder that goes gives up its references, and what loses the last reference on record goes in turn.
`Ledger` is the account in the midst of such a cascade: what is gone, what is going, the references
paid back and those still due. Its step lemmas pay one reference, and its end says who went: the root,
and whoever was held by goers alone.

A thing with one owner and no counter is counted like the others, with one reference on record.
-/

namespace BStackRaii

/-- The references each holder gives up when it goes, and the number each thing has on record. -/
structure Holdings (ν : Type) where
  holds : ν → List ν
  count : ν → Nat

namespace Holdings

variable {ν : Type} [DecidableEq ν] (G : Holdings ν) (root : ν) (N : Finset ν)

/-- The references to `y` that the members of `N` hold. -/
def inbound (y : ν) : Nat := ∑ x ∈ N, (G.holds x).count y

/-- `N` is closed under what it holds, nobody in it holds the root, and its references are on record. -/
structure Sound : Prop where
  root_mem : root ∈ N
  closed : ∀ x ∈ N, ∀ y ∈ G.holds x, y ∈ N
  root_free : ∀ x ∈ N, root ∉ G.holds x
  backed : ∀ y ∈ N, y ≠ root → G.inbound N y ≤ G.count y

/-- The root, and whatever has no reference on record but those of sole things. -/
inductive Sole : ν → Prop
  | root : Sole root
  | last {y : ν} (hpos : 0 < G.count y) (hall : G.inbound N y = G.count y)
      (holders : ∀ x ∈ N, y ∈ G.holds x → Sole x) : Sole y

/-- The cascade from `root`, with the references `paid` back so far and those still `due`. -/
structure Ledger (gone going : List ν) (paid due : Multiset ν) : Prop where
  nodup : (gone ++ going).Nodup
  mem : ∀ x ∈ gone ++ going, x ∈ N
  sole : ∀ x ∈ gone ++ going, G.Sole root N x
  balance : paid + due = ((gone ++ going).flatMap G.holds : List ν)
  exhausted : ∀ y, y ∈ gone ++ going ↔ y = root ∨ 0 < G.count y ∧ paid.count y = G.count y

variable {G root N} {gone going : List ν} {paid due : Multiset ν} {y : ν}

/-- Some members of `N` hold at most what all of them hold. -/
theorem count_flatMap_le (G : Holdings ν) {xs : List ν} (hnodup : xs.Nodup) (hmem : ∀ x ∈ xs, x ∈ N) (y : ν) :
    (xs.flatMap G.holds).count y ≤ G.inbound N y := by
  rw [List.count_flatMap, ← List.sum_toFinset _ hnodup]
  exact Finset.sum_le_sum_of_subset fun x hx => hmem x (List.mem_toFinset.mp hx)

/-- Where they hold all the references to `y`, no other member holds one. -/
theorem mem_of_count_flatMap {xs : List ν} (hnodup : xs.Nodup) (hmem : ∀ x ∈ xs, x ∈ N)
    (hall : (xs.flatMap G.holds).count y = G.inbound N y) {x : ν} (hx : x ∈ N)
    (hholds : y ∈ G.holds x) : x ∈ xs := by
  by_contra hnot
  have hle := count_flatMap_le G (List.nodup_cons.mpr ⟨hnot, hnodup⟩) (List.forall_mem_cons.mpr ⟨hx, hmem⟩) y
  have hpos := List.count_pos_iff.mpr hholds
  rw [List.flatMap_cons, List.count_append, hall] at hle
  omega

/-- Members that include every holder of `y` hold all the references to it. -/
theorem count_flatMap_of_holders {xs : List ν} (hnodup : xs.Nodup) (hmem : ∀ x ∈ xs, x ∈ N)
    (hall : ∀ x ∈ N, y ∈ G.holds x → x ∈ xs) : (xs.flatMap G.holds).count y = G.inbound N y := by
  rw [List.count_flatMap, ← List.sum_toFinset _ hnodup]
  refine Finset.sum_subset (fun x hx => hmem x (List.mem_toFinset.mp hx)) fun x hx hnot => ?_
  exact List.count_eq_zero.mpr fun hholds => hnot (List.mem_toFinset.mpr (hall x hx hholds))

theorem Sound.start (h : G.Sound root N) : G.Ledger root N [] [root] 0 (G.holds root) where
  nodup := List.nodup_singleton root
  mem x hx := (List.mem_singleton.mp hx) ▸ h.root_mem
  sole x hx := (List.mem_singleton.mp hx) ▸ .root
  balance := by simp
  exhausted y := by
    rw [List.nil_append, List.mem_singleton, Multiset.count_zero, eq_comm (a := 0)]
    exact (or_iff_left fun h => Nat.ne_of_gt h.1 h.2).symm

namespace Ledger

variable (hs : G.Sound root N)

include hs in
/-- A reference that is due was not paid before, and is not to the root. -/
theorem unpaid (h : G.Ledger root N gone going paid (y ::ₘ due)) :
    y ∈ N ∧ y ≠ root ∧ paid.count y < G.count y := by
  have hdue : y ∈ (gone ++ going).flatMap G.holds := by
    have : y ∈ paid + y ::ₘ due := Multiset.mem_add.mpr (.inr (Multiset.mem_cons_self y due))
    rwa [h.balance] at this
  obtain ⟨x, hx, hholds⟩ := List.mem_flatMap.mp hdue
  have hN := hs.closed x (h.mem x hx) y hholds
  have hroot : y ≠ root := fun heq => hs.root_free x (h.mem x hx) (heq ▸ hholds)
  have hcount : paid.count y + (due.count y + 1) = ((gone ++ going).flatMap G.holds).count y := by
    rw [← Multiset.count_cons_self, ← Multiset.count_add, h.balance, Multiset.coe_count]
  have hle := count_flatMap_le G h.nodup h.mem y
  have hbacked := hs.backed y hN hroot
  exact ⟨hN, hroot, by omega⟩

include hs in
theorem not_mem (h : G.Ledger root N gone going paid (y ::ₘ due)) : y ∉ gone ++ going := by
  obtain ⟨-, hroot, hlt⟩ := h.unpaid hs
  rw [h.exhausted y, or_iff_right hroot]
  exact fun heq => Nat.ne_of_lt hlt heq.2

omit [DecidableEq ν] in
theorem balance_pay {xs : List ν} (h : paid + (y ::ₘ due) = (xs : Multiset ν)) :
    (y ::ₘ paid) + due = (xs : Multiset ν) := by
  rw [← h, Multiset.cons_add, Multiset.add_cons]

include hs in
/-- Pay a reference that is not the last one on record. -/
theorem payMore (h : G.Ledger root N gone going paid (y ::ₘ due))
    (hmore : paid.count y + 1 ≠ G.count y) : G.Ledger root N gone going (y ::ₘ paid) due where
  nodup := h.nodup
  mem := h.mem
  sole := h.sole
  balance := balance_pay h.balance
  exhausted z := by
    by_cases hz : z = y
    · subst hz
      obtain ⟨-, hroot, -⟩ := h.unpaid hs
      rw [Multiset.count_cons_self, or_iff_right hroot]
      exact iff_of_false (h.not_mem hs) fun heq => hmore heq.2
    · rw [Multiset.count_cons_of_ne hz]
      exact h.exhausted z

include hs in
/-- Whoever pays back the last reference on record was the last holder of a sole thing. -/
theorem sole_of_last (h : G.Ledger root N gone going paid (y ::ₘ due))
    (hlast : paid.count y + 1 = G.count y) : G.Sole root N y := by
  obtain ⟨hN, hroot, -⟩ := h.unpaid hs
  have hcount : paid.count y + (due.count y + 1) = ((gone ++ going).flatMap G.holds).count y := by
    rw [← Multiset.count_cons_self, ← Multiset.count_add, h.balance, Multiset.coe_count]
  have hle := count_flatMap_le G h.nodup h.mem y
  have hbacked := hs.backed y hN hroot
  refine .last (by omega) (by omega) fun x hx hholds => ?_
  exact h.sole x (mem_of_count_flatMap h.nodup h.mem (by omega) hx hholds)

include hs in
/-- Pay the last reference on record: the thing goes too, and its own references fall due. -/
theorem payLast (h : G.Ledger root N gone going paid (y ::ₘ due))
    (hlast : paid.count y + 1 = G.count y) :
    G.Ledger root N gone (y :: going) (y ::ₘ paid) (G.holds y + due) := by
  have hperm : (gone ++ y :: going).Perm (y :: (gone ++ going)) := List.perm_middle
  refine ⟨?_, ?_, ?_, ?_, fun z => ?_⟩
  · exact hperm.nodup_iff.mpr (List.nodup_cons.mpr ⟨h.not_mem hs, h.nodup⟩)
  · intro x hx
    rcases List.mem_cons.mp (hperm.mem_iff.mp hx) with rfl | hx
    · exact (h.unpaid hs).1
    · exact h.mem x hx
  · intro x hx
    rcases List.mem_cons.mp (hperm.mem_iff.mp hx) with rfl | hx
    · exact h.sole_of_last hs hlast
    · exact h.sole x hx
  · have hflat := Multiset.coe_eq_coe.mpr (hperm.flatMap_right G.holds)
    rw [hflat, List.flatMap_cons, ← Multiset.coe_add, ← balance_pay h.balance]
    exact add_left_comm ..
  · rw [hperm.mem_iff, List.mem_cons]
    by_cases hz : z = y
    · subst hz
      rw [Multiset.count_cons_self]
      exact iff_of_true (.inl rfl) (.inr (by omega))
    · rw [Multiset.count_cons_of_ne hz, h.exhausted z, or_iff_right hz]

omit hs in
/-- The last to start going is gone. -/
theorem close (h : G.Ledger root N gone (y :: going) paid due) :
    G.Ledger root N (gone ++ [y]) going paid due := by
  have happend : gone ++ [y] ++ going = gone ++ y :: going := List.append_assoc ..
  exact ⟨happend ▸ h.nodup, happend ▸ h.mem, happend ▸ h.sole, happend ▸ h.balance,
    happend ▸ h.exhausted⟩

omit hs in
/-- Once nothing is due, the sole things are gone and nothing else is. -/
theorem settled (h : G.Ledger root N gone [] paid 0) : y ∈ gone ↔ G.Sole root N y := by
  have hmem : ∀ x, x ∈ gone ↔ x = root ∨ 0 < G.count x ∧ paid.count x = G.count x := by
    simpa only [List.append_nil] using h.exhausted
  have hpaid : paid = (gone.flatMap G.holds : List ν) := by
    simpa only [List.append_nil, add_zero] using h.balance
  have hnodup : gone.Nodup := by simpa only [List.append_nil] using h.nodup
  have hN : ∀ x ∈ gone, x ∈ N := by simpa only [List.append_nil] using h.mem
  constructor
  · intro hy
    exact h.sole y (List.mem_append_left _ hy)
  · intro hsole
    induction hsole with
    | root => exact (hmem root).mpr (.inl rfl)
    | last hpos hall _ ih =>
        refine (hmem _).mpr (.inr ⟨hpos, ?_⟩)
        rw [hpaid, Multiset.coe_count, count_flatMap_of_holders hnodup hN ih, hall]

/-- Two cascades that are settled come to the same. -/
theorem settled_same {gone' : List ν} {paid' : Multiset ν} (h : G.Ledger root N gone [] paid 0)
    (h' : G.Ledger root N gone' [] paid' 0) : gone.Perm gone' ∧ paid = paid' := by
  have hnodup : gone.Nodup := by simpa only [List.append_nil] using h.nodup
  have hnodup' : gone'.Nodup := by simpa only [List.append_nil] using h'.nodup
  have hpaid : paid = (gone.flatMap G.holds : List ν) := by
    simpa only [List.append_nil, add_zero] using h.balance
  have hpaid' : paid' = (gone'.flatMap G.holds : List ν) := by
    simpa only [List.append_nil, add_zero] using h'.balance
  have hperm : gone.Perm gone' := (List.perm_ext_iff_of_nodup hnodup hnodup').mpr fun y => by
    rw [h.settled, h'.settled]
  refine ⟨hperm, ?_⟩
  rw [hpaid, hpaid']
  exact Multiset.coe_eq_coe.mpr (hperm.flatMap_right G.holds)

end Ledger

end Holdings

end BStackRaii
