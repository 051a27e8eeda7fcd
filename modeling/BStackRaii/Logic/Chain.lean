import Mathlib.Data.List.Nodup
/-!
# Doubly linked chains

The cells of a chain point back at the cell before them and on at the cell after them. Nothing here knows
how the links are stored: they are the two functions `back` and `on`, and the ends point at the fixed
addresses `start` and `stop`. A chain read from its other end is the reversed chain with the links swapped,
so what holds at one end holds at the other.
-/

namespace BStackRaii

namespace Chain

variable {α : Type}

/-- The cells `cs` are linked to each other, and lie between `start` and `stop`. -/
def Linked (back on : α → α) : α → List α → α → Prop
  | _, [], _ => True
  | start, c :: cs, stop => back c = start ∧ on c = cs.headD stop ∧ Linked back on c cs stop

variable {back on back' on' : α → α} {start start' stop c d : α} {cs ds : List α}

theorem headD_append (cs ds : List α) (stop : α) : (cs ++ ds).headD stop = cs.headD (ds.headD stop) := by
  cases cs with
  | nil => rfl
  | cons c cs => rfl

theorem getLastD_reverse (cs : List α) (stop : α) : cs.reverse.getLastD stop = cs.headD stop := by
  rw [List.getLastD_eq_getLast?, List.getLast?_reverse, List.headD_eq_head?_getD]

theorem headD_eq_stop (hstop : stop ∉ cs) : cs.headD stop = stop ↔ cs = [] := by
  cases cs with
  | nil => exact iff_of_true rfl rfl
  | cons c cs => exact iff_of_false (fun heq => hstop (heq ▸ List.mem_cons_self)) (List.cons_ne_nil c cs)

theorem linked_append : Linked back on start (cs ++ ds) stop ↔
    Linked back on start cs (ds.headD stop) ∧ Linked back on (cs.getLastD start) ds stop := by
  induction cs generalizing start with
  | nil => exact (true_and _).symm.to_iff
  | cons c cs ih =>
      rw [List.cons_append, Linked, Linked, ih, headD_append, List.getLastD_cons, and_assoc, and_assoc]

theorem linked_reverse : Linked on back stop cs.reverse start ↔ Linked back on start cs stop := by
  induction cs generalizing start with
  | nil => exact Iff.rfl
  | cons c cs ih =>
      rw [List.reverse_cons, linked_append, getLastD_reverse]
      show Linked on back stop cs.reverse c ∧ on c = cs.headD stop ∧ back c = start ∧ True ↔ _
      rw [ih, Linked]
      tauto

/-- The links that differ may be those at the near end, which then points elsewhere. -/
theorem Linked.rehead (h : Linked back on start cs stop) (hon : ∀ x ∈ cs, on' x = on x)
    (hback : ∀ x ∈ cs.tail, back' x = back x) (hhead : ∀ x ∈ cs.head?, back' x = start') :
    Linked back' on' start' cs stop := by
  induction cs generalizing start start' with
  | nil => trivial
  | cons c cs ih =>
      obtain ⟨-, hnext, hrest⟩ := h
      refine ⟨hhead c rfl, (hon c List.mem_cons_self).trans hnext, ?_⟩
      apply ih hrest
      · exact fun x hx => hon x (List.mem_cons_of_mem c hx)
      · exact fun x hx => hback x (List.mem_of_mem_tail hx)
      · intro x hx
        cases cs with
        | nil => cases hx
        | cons d ds =>
            have heq : d = x := Option.some.inj hx
            rw [← heq]
            exact (hback d List.mem_cons_self).trans hrest.1

theorem Linked.congr (h : Linked back on start cs stop) (hon : ∀ x ∈ cs, on' x = on x)
    (hback : ∀ x ∈ cs, back' x = back x) : Linked back' on' start cs stop := by
  apply h.rehead hon fun x hx => hback x (List.mem_of_mem_tail hx)
  intro x hx
  cases cs with
  | nil => cases hx
  | cons c cs =>
      have heq : c = x := Option.some.inj hx
      rw [← heq]
      exact (hback c List.mem_cons_self).trans h.1

/-- A chain with a start outside of it has no cycle. -/
theorem Linked.nodup (h : Linked back on start cs stop) (hstart : start ∉ cs) : cs.Nodup := by
  induction cs generalizing start with
  | nil => exact List.nodup_nil
  | cons c cs ih =>
      have hfresh : c ∉ cs := by
        intro hmem
        obtain ⟨xs, ys, rfl⟩ := List.append_of_mem hmem
        have hagain := (linked_append.mp h.2.2).2.1
        rw [h.1] at hagain
        apply hstart
        rw [hagain, List.getLastD_eq_getLast?]
        cases hlast : xs.getLast? with
        | none => exact List.mem_cons_self
        | some x =>
            exact List.mem_cons_of_mem c (List.mem_append_left _ (List.mem_of_getLast? hlast))
      exact List.nodup_cons.mpr ⟨hfresh, ih h.2.2 hfresh⟩

theorem Linked.back_of_on (h : Linked back on start cs stop) (hstop : stop ∉ cs) (hc : c ∈ cs)
    (hon : on c ∈ cs) : back (on c) = c := by
  obtain ⟨xs, ys, rfl⟩ := List.append_of_mem hc
  obtain ⟨-, -, hnext, hrest⟩ := linked_append.mp h
  cases ys with
  | nil =>
      rw [hnext] at hon
      exact absurd hon hstop
  | cons y ys =>
      rw [hnext]
      exact hrest.1

/-- Along the chain the two links are inverse to each other. -/
theorem Linked.inverse (h : Linked back on start cs stop) (hstart : start ∉ cs) (hstop : stop ∉ cs)
    (hc : c ∈ cs) (hd : d ∈ cs) : on c = d ↔ back d = c := by
  constructor
  · rintro rfl
    exact h.back_of_on hstop hc hd
  · rintro rfl
    have hback := (linked_reverse.mpr h).back_of_on (fun hmem => hstart (List.mem_reverse.mp hmem))
      (List.mem_reverse.mpr hd) (List.mem_reverse.mpr hc)
    exact hback

def follow [DecidableEq α] (on : α → α) (stop : α) : Nat → α → List α
  | 0, _ => []
  | n + 1, c => if c = stop then [] else c :: follow on stop n (on c)

theorem Linked.follow [DecidableEq α] (h : Linked back on start cs stop) (hstop : stop ∉ cs) {n : Nat}
    (hn : cs.length ≤ n) : follow on stop n (cs.headD stop) = cs := by
  induction cs generalizing start n with
  | nil =>
      cases n with
      | zero => rfl
      | succ n => exact if_pos rfl
  | cons c cs ih =>
      obtain ⟨m, rfl⟩ := Nat.exists_eq_add_of_le' (Nat.lt_of_lt_of_le (Nat.succ_pos _) hn)
      have hne : c ≠ stop := fun heq => hstop (heq ▸ List.mem_cons_self)
      have hrest := ih h.2.2 (fun hmem => hstop (List.mem_cons_of_mem c hmem)) (Nat.le_of_succ_le_succ hn)
      show (if c = stop then [] else c :: Chain.follow on stop m (on c)) = c :: cs
      rw [if_neg hne, h.2.1, hrest]

/-! ### Chains that end -/

/-- From `c` the chain meets the cells `cs` and then `stop`. -/
def Reaches (on : α → α) (stop : α) : α → List α → Prop
  | c, [] => c = stop
  | c, d :: cs => c = d ∧ d ≠ stop ∧ Reaches on stop (on d) cs

theorem Reaches.unique {xs ys : List α} (hx : Reaches on stop c xs) (hy : Reaches on stop c ys) : xs = ys := by
  induction xs generalizing c ys with
  | nil =>
      cases ys with
      | nil => rfl
      | cons y ys => exact absurd (hy.1.symm.trans hx) hy.2.1
  | cons x xs ih =>
      obtain ⟨rfl, hne, hrest⟩ := hx
      cases ys with
      | nil => exact absurd hy hne
      | cons y ys =>
          obtain ⟨rfl, -, hrest'⟩ := hy
          rw [ih hrest hrest']

theorem Reaches.drop {xs ys : List α} (h : Reaches on stop c (xs ++ d :: ys)) : Reaches on stop d (d :: ys) := by
  induction xs generalizing c with
  | nil =>
      obtain ⟨rfl, hne, hrest⟩ := h
      exact ⟨rfl, hne, hrest⟩
  | cons x xs ih => exact ih h.2.2

/-- A chain that ends has no cycle. -/
theorem Reaches.nodup {cs : List α} (h : Reaches on stop c cs) : cs.Nodup := by
  induction cs generalizing c with
  | nil => exact List.nodup_nil
  | cons d ds ih =>
      refine List.nodup_cons.mpr ⟨fun hmem => ?_, ih h.2.2⟩
      obtain ⟨xs, ys, rfl⟩ := List.append_of_mem hmem
      -- from a second visit on, the chain would have to be as long as from the first
      have hagain : Reaches on stop d (d :: ys) := Reaches.drop (show Reaches on stop c ((d :: xs) ++ d :: ys) from h)
      have hsame := (show Reaches on stop d (d :: (xs ++ d :: ys)) from ⟨rfl, h.2⟩).unique hagain
      have hlen := congrArg List.length hsame
      simp only [List.length_cons, List.length_append] at hlen
      omega

end Chain

end BStackRaii
