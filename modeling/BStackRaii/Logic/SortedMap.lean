import Mathlib.Data.List.Basic
/-!
# Sorted association lists

A finite map over a comparison function, as the list of its entries in strictly increasing order.
Equal keys need not be identical: an insertion keeps the key that is there. The append rules say that
an operation on `L ++ M ++ R` happens in `M` when `L` lies before the key and `R` after it, which is
what a search tree relies on.
-/

namespace BStackRaii

namespace SortedMap

variable {κ β : Type} (cmp : κ → κ → Ordering)

def Sorted (es : List (κ × β)) : Prop := es.Pairwise fun a b => cmp a.1 b.1 = .lt

def get (key : κ) : List (κ × β) → Option β
  | [] => none
  | (k, v) :: es =>
      match cmp key k with
      | .lt => none
      | .eq => some v
      | .gt => get key es

def insert (key : κ) (val : β) : List (κ × β) → List (κ × β)
  | [] => [(key, val)]
  | (k, v) :: es =>
      match cmp key k with
      | .lt => (key, val) :: (k, v) :: es
      | .eq => (k, val) :: es
      | .gt => (k, v) :: insert key val es

def remove (key : κ) : List (κ × β) → List (κ × β)
  | [] => []
  | (k, v) :: es =>
      match cmp key k with
      | .lt => (k, v) :: es
      | .eq => es
      | .gt => (k, v) :: remove key es

/-- All of `es` lies before `key`. -/
def Before (key : κ) (es : List (κ × β)) : Prop := ∀ e ∈ es, cmp key e.1 = .gt

def After (key : κ) (es : List (κ × β)) : Prop := ∀ e ∈ es, cmp key e.1 = .lt

variable {cmp} {key : κ} {val : β} {L M R es : List (κ × β)} {e : κ × β}

theorem Before.nil (cmp : κ → κ → Ordering) (key : κ) : Before cmp key ([] : List (κ × β)) := by simp [Before]

theorem After.nil (cmp : κ → κ → Ordering) (key : κ) : After cmp key ([] : List (κ × β)) := by simp [After]

theorem Before.append (hL : Before cmp key L) (hM : Before cmp key M) : Before cmp key (L ++ M) :=
  fun e he => (List.mem_append.mp he).elim (hL e) (hM e)

theorem Before.cons (he : cmp key e.1 = .gt) (h : Before cmp key es) : Before cmp key (e :: es) := by
  intro x hx
  rcases List.mem_cons.mp hx with rfl | hx
  · exact he
  · exact h x hx

theorem After.cons (he : cmp key e.1 = .lt) (h : After cmp key es) : After cmp key (e :: es) := by
  intro x hx
  rcases List.mem_cons.mp hx with rfl | hx
  · exact he
  · exact h x hx

theorem Before.of_append (h : Before cmp key (L ++ R)) : Before cmp key L ∧ Before cmp key R :=
  ⟨fun e he => h e (List.mem_append_left R he), fun e he => h e (List.mem_append_right L he)⟩

theorem After.of_append (h : After cmp key (L ++ R)) : After cmp key L ∧ After cmp key R :=
  ⟨fun e he => h e (List.mem_append_left R he), fun e he => h e (List.mem_append_right L he)⟩

/-! ### The append rules -/

theorem get_append (hL : Before cmp key L) (M : List (κ × β)) : get cmp key (L ++ M) = get cmp key M := by
  induction L with
  | nil => rfl
  | cons x L ih =>
      have hx := hL x List.mem_cons_self
      simp only [List.cons_append, get, hx]
      exact ih fun e he => hL e (List.mem_cons_of_mem x he)

theorem insert_append (hL : Before cmp key L) (val : β) (M : List (κ × β)) :
    insert cmp key val (L ++ M) = L ++ insert cmp key val M := by
  induction L with
  | nil => rfl
  | cons x L ih =>
      have hx := hL x List.mem_cons_self
      simp only [List.cons_append, insert, hx]
      rw [ih fun e he => hL e (List.mem_cons_of_mem x he)]

theorem remove_append (hL : Before cmp key L) (M : List (κ × β)) :
    remove cmp key (L ++ M) = L ++ remove cmp key M := by
  induction L with
  | nil => rfl
  | cons x L ih =>
      have hx := hL x List.mem_cons_self
      simp only [List.cons_append, remove, hx]
      rw [ih fun e he => hL e (List.mem_cons_of_mem x he)]

theorem get_after (hR : After cmp key R) : get cmp key R = none := by
  cases R with
  | nil => rfl
  | cons x R => simp only [get, hR x List.mem_cons_self]

theorem insert_after (hR : After cmp key R) (val : β) : insert cmp key val R = (key, val) :: R := by
  cases R with
  | nil => rfl
  | cons x R => simp only [insert, hR x List.mem_cons_self]

theorem remove_after (hR : After cmp key R) : remove cmp key R = R := by
  cases R with
  | nil => rfl
  | cons x R => simp only [remove, hR x List.mem_cons_self]

theorem get_append_after (M : List (κ × β)) (hR : After cmp key R) :
    get cmp key (M ++ R) = get cmp key M := by
  induction M with
  | nil => exact get_after hR
  | cons x M ih =>
      simp only [List.cons_append, get]
      split
      · rfl
      · rfl
      · exact ih

theorem insert_append_after (val : β) (M : List (κ × β)) (hR : After cmp key R) :
    insert cmp key val (M ++ R) = insert cmp key val M ++ R := by
  induction M with
  | nil => exact insert_after hR val
  | cons x M ih =>
      simp only [List.cons_append, insert]
      split
      · rfl
      · rfl
      · rw [ih, List.cons_append]

theorem remove_append_after (M : List (κ × β)) (hR : After cmp key R) :
    remove cmp key (M ++ R) = remove cmp key M ++ R := by
  induction M with
  | nil => exact remove_after hR
  | cons x M ih =>
      simp only [List.cons_append, remove]
      split
      · rfl
      · rfl
      · rw [ih, List.cons_append]

theorem get_at (hL : Before cmp key L) (he : cmp key e.1 = .eq) (R : List (κ × β)) :
    get cmp key (L ++ e :: R) = some e.2 := by
  rw [get_append hL]
  simp only [get, he]

theorem insert_at (hL : Before cmp key L) (he : cmp key e.1 = .eq) (val : β) (R : List (κ × β)) :
    insert cmp key val (L ++ e :: R) = L ++ (e.1, val) :: R := by
  rw [insert_append hL]
  simp only [insert, he]

theorem remove_at (hL : Before cmp key L) (he : cmp key e.1 = .eq) (R : List (κ × β)) :
    remove cmp key (L ++ e :: R) = L ++ R := by
  rw [remove_append hL]
  simp only [remove, he]

/-! ### Sorted lists -/

theorem Sorted.of_append (h : Sorted cmp (L ++ R)) : Sorted cmp L ∧ Sorted cmp R :=
  ⟨(List.pairwise_append.mp h).1, (List.pairwise_append.mp h).2.1⟩

theorem Sorted.tail (h : Sorted cmp (e :: R)) : Sorted cmp R := (List.pairwise_cons.mp h).2

theorem length_insert (key : κ) (val : β) (es : List (κ × β)) :
    (insert cmp key val es).length = es.length + if (get cmp key es).isNone then 1 else 0 := by
  induction es with
  | nil => rfl
  | cons x es ih =>
      cases hx : cmp key x.1 with
      | lt => simp [insert, get, hx]
      | eq => simp [insert, get, hx]
      | gt =>
          simp only [insert, get, hx, List.length_cons, ih]
          omega

theorem length_remove (key : κ) (es : List (κ × β)) :
    (remove cmp key es).length + (if (get cmp key es).isSome then 1 else 0) = es.length := by
  induction es with
  | nil => rfl
  | cons x es ih =>
      cases hx : cmp key x.1 with
      | lt => simp [remove, get, hx]
      | eq => simp [remove, get, hx]
      | gt =>
          simp only [remove, get, hx, List.length_cons]
          omega

theorem remove_absent {key : κ} {es : List (κ × β)} (h : get cmp key es = none) : remove cmp key es = es := by
  induction es with
  | nil => rfl
  | cons x es ih =>
      simp only [get] at h
      split at h
      · rename_i hlt
        simp only [remove, hlt]
      · cases h
      · rename_i hgt
        simp only [remove, hgt, ih h]

/-- An insertion brings in nothing but the new value, under the new key or one that was there. -/
theorem mem_insert (h : e ∈ insert cmp key val es) :
    e ∈ es ∨ e = (key, val) ∨ (e.2 = val ∧ ∃ x ∈ es, e.1 = x.1) := by
  induction es with
  | nil => exact .inr (.inl (List.mem_singleton.mp h))
  | cons x es ih =>
      simp only [insert] at h
      split at h
      · rcases List.mem_cons.mp h with rfl | h
        · exact .inr (.inl rfl)
        · exact .inl h
      · rcases List.mem_cons.mp h with rfl | h
        · exact .inr (.inr ⟨rfl, x, List.mem_cons_self, rfl⟩)
        · exact .inl (List.mem_cons_of_mem x h)
      · rcases List.mem_cons.mp h with rfl | h
        · exact .inl List.mem_cons_self
        · rcases ih h with h | h | ⟨hval, y, hy, hkey⟩
          · exact .inl (List.mem_cons_of_mem x h)
          · exact .inr (.inl h)
          · exact .inr (.inr ⟨hval, y, List.mem_cons_of_mem x hy, hkey⟩)

theorem remove_sublist (key : κ) (es : List (κ × β)) : (remove cmp key es).Sublist es := by
  induction es with
  | nil => exact List.Sublist.refl []
  | cons x es ih =>
      simp only [remove]
      split
      · exact List.Sublist.refl _
      · exact List.sublist_cons_self x es
      · exact ih.cons_cons x

theorem Sorted.remove (h : Sorted cmp es) (key : κ) : Sorted cmp (remove cmp key es) :=
  List.Pairwise.sublist (remove_sublist key es) h

variable [Std.TransCmp cmp]

theorem before_of_sorted (h : Sorted cmp (L ++ e :: R)) (he : (cmp key e.1).isGE) : Before cmp key L := by
  intro x hx
  have hlt := (List.pairwise_append.mp h).2.2 x hx e List.mem_cons_self
  exact Std.TransCmp.gt_of_isGE_of_gt he (Std.OrientedCmp.gt_of_lt hlt)

theorem after_of_sorted (h : Sorted cmp (e :: R)) (he : (cmp key e.1).isLE) : After cmp key R := by
  intro x hx
  exact Std.TransCmp.lt_of_isLE_of_lt he (List.rel_of_pairwise_cons h hx)

theorem after_of_head (h : Sorted cmp es) (hhead : ∀ e ∈ es.head?, cmp key e.1 = .lt) :
    After cmp key es := by
  cases es with
  | nil => exact .nil cmp key
  | cons x es =>
      have hx := hhead x rfl
      exact After.cons hx (after_of_sorted h (by rw [hx]; rfl))

theorem not_after_of_head (h : Sorted cmp es) (hhead : ∀ e ∈ es.head?, cmp key e.1 ≠ .gt) :
    ∀ e ∈ es, cmp key e.1 ≠ .gt := by
  cases es with
  | nil => simp
  | cons x es =>
      have hx := hhead x rfl
      intro e he
      rcases List.mem_cons.mp he with rfl | he
      · exact hx
      · have hlt := after_of_sorted h (Ordering.isLE_iff_ne_gt.mpr hx) e he
        rw [hlt]
        decide

/-- In a sorted list the entries up to a key are a prefix. -/
theorem takeWhile_of_sorted (h : Sorted cmp es) (key : κ) :
    (es.takeWhile fun e => cmp e.1 key != .gt) = es.filter fun e => cmp e.1 key != .gt := by
  induction es with
  | nil => rfl
  | cons x es ih =>
      by_cases hx : cmp x.1 key = .gt
      · have hrest : ∀ e ∈ es, ¬ (cmp e.1 key != .gt) = true := by
          intro e he
          have hlt := Std.OrientedCmp.gt_of_lt (List.rel_of_pairwise_cons h he)
          simp [Std.TransCmp.gt_trans hlt hx]
        rw [List.takeWhile_cons_of_neg (by simp [hx]), List.filter_cons_of_neg (by simp [hx]),
          List.filter_eq_nil_iff.mpr hrest]
      · rw [List.takeWhile_cons_of_pos (by simp [hx]), List.filter_cons_of_pos (by simp [hx]), ih h.tail]

theorem Sorted.insert (h : Sorted cmp es) (key : κ) (val : β) : Sorted cmp (insert cmp key val es) := by
  induction es with
  | nil => exact List.pairwise_singleton _ _
  | cons x es ih =>
      simp only [SortedMap.insert]
      split
      · rename_i hlt
        apply List.pairwise_cons.mpr
        exact ⟨After.cons hlt (after_of_sorted h (by rw [hlt]; rfl)), h⟩
      · exact List.pairwise_cons.mpr ⟨fun y hy => List.rel_of_pairwise_cons h hy, h.tail⟩
      · rename_i hgt
        apply List.pairwise_cons.mpr
        refine ⟨fun y hy => ?_, ih h.tail⟩
        rcases mem_insert hy with hy | rfl | ⟨-, z, hz, hkey⟩
        · exact List.rel_of_pairwise_cons h hy
        · exact Std.OrientedCmp.lt_of_gt hgt
        · rw [hkey]
          exact List.rel_of_pairwise_cons h hz

end SortedMap

end BStackRaii
