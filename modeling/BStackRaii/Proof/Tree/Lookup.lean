import BStackRaii.Proof.Tree.Commit
/-!
# Lookups

`get`, `first`, `last` and `to_vec` only read, so they are followed through a store that lets nothing
be emitted. Each stays below the structural bound because the nodes of a deeper tree would not fit.
-/

namespace BStackRaii

namespace BStackBTreeMap

open SortedMap

variable {ksize : Nat} {cmp : Key ksize → Key ksize → Ordering} {look : Nat → Option (BNode ksize)}
  {lo h off rest : Nat} {es : List (Entry ksize)} {ns : Multiset Nat}

def readStore (look : Nat → Option (BNode ksize)) : Plan.Store (BNode ksize) Nat :=
  { store look with Fits := fun _ => False }

/-- Where nodes are looked up. -/
abbrev Looked (look : Nat → Option (BNode ksize)) : Place ksize := fun off nb => look off = some nb

/-- What a lookup returns. -/
structure Returns {α : Type} (look : Nat → Option (BNode ksize)) (plan : NodePlan ksize α) (R : α → Prop) :
    Prop where
  ensures : plan.Ensures (readStore look) fun _ _ v => R v

theorem Returns.pure {α : Type} {R : α → Prop} {v : α} (h : R v) :
    Returns look (Pure.pure v : NodePlan ksize α) R := ⟨h⟩

theorem getFrom_zero (cmp : Key ksize → Key ksize → Ordering) (rest : Nat) (key : Key ksize) :
    getFrom cmp rest 0 key = pure none := by
  cases rest <;> rfl

theorem collect_zero (rest : Nat) : (collect rest 0 : NodePlan ksize (List (Entry ksize))) = pure [] := by
  cases rest <;> rfl

theorem getFrom_returns [Std.TransCmp cmp] (key : Key ksize) (hrest : h < rest)
    (hs : Sub (Looked look) lo h off es ns) (hsorted : Sorted cmp es) :
    Returns look (getFrom cmp rest off key) (· = SortedMap.get cmp key es) := by
  induction rest generalizing lo h off es ns with
  | zero => omega
  | succ rest ih =>
    obtain ⟨⟨leaf, entries, children⟩, ms, hat, haddr, -, -, hb, -⟩ := hs
    rw [getFrom, if_neg haddr.1.ne']
    constructor
    apply Plan.Ensures.read_bind hat
    rcases search_cases cmp key entries with ⟨L, e, R, rfl, hsearch, -, he⟩ |
      ⟨L, R, rfl, hsearch, hbefore, hnext⟩
    · obtain ⟨cL, cR, eL, eR, nL, nR, rfl, -, -, rfl, rfl⟩ := hb.split
      have hgap := before_of_sorted hsorted (by rw [he]; rfl)
      simp only [hsearch, if_true]
      apply Plan.Ensures.unwrap_bind (getElem?_at rfl)
      exact Plan.Ensures.pure (get_at hgap he eR).symm
    · simp only [hsearch, Bool.false_eq_true, if_false]
      cases h with
      | zero =>
          obtain ⟨hleaf, hchildren, hes, hns⟩ := hb
          simp only at hleaf hchildren hes
          subst hleaf hchildren hes hns
          have hafter : After cmp key R := after_of_head hsorted.of_append.2 hnext
          rw [if_pos rfl]
          apply Plan.Ensures.pure
          rw [get_append hbefore, get_after hafter]
      | succ h =>
          obtain ⟨hleaf, hrow⟩ := body_succ.mp hb
          simp only at hleaf hrow
          subst hleaf
          obtain ⟨cL, c, cR, eL, eM, eR, nL, nM, nR, rfl, hlen, hL, hM, hR, rfl, rfl⟩ := hrow.focus
          have hbeforeL : Before cmp key eL := hL.before hsorted.of_append.1 hbefore
          have hafterR : After cmp key eR := after_of_head hsorted.of_append.2.of_append.2 (hR.head ▸ hnext)
          rw [if_neg Bool.false_ne_true]
          apply Plan.Ensures.unwrap_bind (getElem?_at hlen)
          rw [get_append hbeforeL, get_append_after eM hafterR]
          exact (ih (Nat.lt_of_succ_lt_succ hrest) hM hsorted.of_append.2.of_append.1).ensures

def endOf {α : Type} (leftmost : Bool) (xs : List α) : Option α := if leftmost then xs.head? else xs.getLast?

theorem endOf_left {α : Type} {xs : List α} {x : α} (h : endOf true xs = some x) (ys : List α) :
    endOf true (xs ++ ys) = some x := by
  have hhead : xs.head? = some x := h
  change (xs ++ ys).head? = some x
  rw [List.head?_append, hhead]
  rfl

theorem endOf_right {α : Type} {ys : List α} {x : α} (h : endOf false ys = some x) (xs : List α) :
    endOf false (xs ++ ys) = some x := by
  have hlast : ys.getLast? = some x := h
  change (xs ++ ys).getLast? = some x
  rw [List.getLast?_append, hlast]
  rfl

theorem extremeFrom_returns (leftmost : Bool) (hrest : h < rest) (hs : Sub (Looked look) lo h off es ns)
    (hlo : 0 < lo) : Returns look (extremeFrom leftmost rest off) fun e => endOf leftmost es = some e := by
  induction rest generalizing lo h off es ns with
  | zero => omega
  | succ rest ih =>
    obtain ⟨⟨leaf, entries, children⟩, ms, hat, -, hcount, -, hb, -⟩ := hs
    unfold extremeFrom
    constructor
    apply Plan.Ensures.read_bind hat
    cases h with
    | zero =>
        obtain ⟨hleaf, -, hes, -⟩ := hb
        simp only at hleaf hes hcount
        subst hleaf hes
        have hne : es ≠ [] := List.ne_nil_of_length_pos (Nat.lt_of_lt_of_le hlo hcount)
        obtain ⟨e, he⟩ : ∃ e, endOf leftmost es = some e := by
          cases leftmost with
          | true => exact ⟨_, List.head?_eq_some_head hne⟩
          | false => exact ⟨_, List.getLast?_eq_some_getLast hne⟩
        have hend : (if leftmost = true then es.head? else es.getLast?) = some e := he
        rw [if_pos rfl, hend]
        exact he
    | succ h =>
        obtain ⟨hleaf, hrow⟩ := body_succ.mp hb
        simp only at hleaf hrow
        subst hleaf
        rw [if_neg Bool.false_ne_true]
        have hdeep : h < rest := Nat.lt_of_succ_lt_succ hrest
        cases leftmost with
        | true =>
            cases hrow with
            | mk hM hR =>
                apply Plan.Ensures.unwrap_bind rfl
                exact (ih hdeep hM (by decide)).ensures.mono fun _ _ e he => endOf_left he _
        | false =>
            obtain ⟨c, eL, eM, nM, hlast, hM, rfl⟩ := hrow.last
            have hchild : children[entries.length]? = some c := by
              rw [List.getLast?_eq_getElem?, hrow.length_eq] at hlast
              exact hlast
            apply Plan.Ensures.unwrap_bind hchild
            exact (ih hdeep hM (by decide)).ensures.mono fun _ _ e he => endOf_right he _

/-- The rule of `interleave`. -/
theorem interleave_returns {S : Hangs ksize} {visit : Nat → NodePlan ksize (List (Entry ksize))}
    (hvisit : ∀ c es ms, S c es ms → Returns look (visit c) (· = es)) {cs : List Nat}
    {ks : List (Entry ksize)} (hrow : Row S cs ks es ns) : Returns look (interleave visit cs ks) (· = es) := by
  have hwalk : ∀ {cs ks es' ns'}, Right S cs ks es' ns' → ∀ {c es ms}, S c es ms →
      Returns look (interleave visit (c :: cs) ks) (· = es ++ es') := by
    intro cs ks es' ns' hright
    induction hright with
    | nil =>
        intro c es ms hc
        exact ⟨(hvisit c es ms hc).ensures.mono fun _ _ v hv => by rw [hv, List.append_nil]⟩
    | cons hc' _ ih =>
        intro c es ms hc
        constructor
        apply Plan.Ensures.bind (hvisit c es ms hc).ensures
        rintro _ _ before rfl
        apply Plan.Ensures.bind (ih hc').ensures
        rintro _ _ after rfl
        exact Plan.Ensures.pure rfl
  cases hrow with
  | mk hc hright => exact hwalk hright hc

theorem collect_returns (hrest : h < rest) (hs : Sub (Looked look) lo h off es ns) :
    Returns look (collect rest off) (· = es) := by
  induction rest generalizing lo h off es ns with
  | zero => omega
  | succ rest ih =>
    obtain ⟨⟨leaf, entries, children⟩, ms, hat, haddr, -, -, hb, -⟩ := hs
    rw [collect, if_neg haddr.1.ne']
    constructor
    apply Plan.Ensures.read_bind hat
    cases h with
    | zero =>
        obtain ⟨hleaf, -, hes, -⟩ := hb
        simp only at hleaf hes
        subst hleaf hes
        exact rfl
    | succ h =>
        obtain ⟨hleaf, hrow⟩ := body_succ.mp hb
        simp only at hleaf hrow
        subst hleaf
        rw [if_neg Bool.false_ne_true]
        exact (interleave_returns (fun c es ms hc => ih (Nat.lt_of_succ_lt_succ hrest) hc) hrow).ensures

/-! ### Lookups on disk -/

section Queries

variable {a : Allocator} {w₀ : World} {handle : Nat} {C : World → Prop}

theorem serves_reads (ksize : Nat) (a : Allocator) (w₀ : World) :
    Plan.Serves (nodes ksize a) (readStore (nodeAt ksize a w₀)) (fun _ _ s => Grown a.stack [] w₀ s.2)
      (fun e _ => IoFailed w₀ e) (fun s => C s.2) where
  read em rt off nb hn :=
    ((readNode_grown hn).onSnd fun _ => True).weaken (fun _ hs => ⟨trivial, hs⟩) (fun _ _ hs => hs.2)
      (fun _ _ hs => hs.2) fun _ hs => hs
  peek em rt off nb hn :=
    ((childNkeys_grown hn).onSnd fun _ => True).weaken (fun _ hs => ⟨trivial, hs⟩) (fun _ _ hs => hs.2)
      (fun _ _ hs => hs.2) fun _ hs => hs
  emit em rt nb hfits := hfits.elim
  retire em rt off nb hn := by
    refine Prog.Spec.onFst (f := fun b : Build => ⟨b.writes, b.freed ++ [off]⟩) ?_
    exact fun _ hs => hs

/-- A plan that only reads returns what it should, or fails with an error of the environment. -/
theorem query_spec {α : Type} {plan : NodePlan ksize α} {R : α → Prop}
    (hp : Returns (nodeAt ksize a w₀) plan R) :
    Prog.Spec (Grown a.stack [] w₀) (query a plan) (fun v w => R v ∧ Grown a.stack [] w₀ w)
      (fun e w => IoFailed w₀ e ∧ Grown a.stack [] w₀ w) C := by
  have hrun := Plan.run_spec (serves_reads (C := C) ksize a w₀) hp.ensures [] []
  have hbuilt : Prog.Spec (Grown a.stack [] w₀) (Prog.withFst Build.start (plan.run (nodes ksize a)))
      (fun r => Prog.Either (fun v w => R v ∧ Grown a.stack [] w₀ w)
        (fun e w => IoFailed w₀ e ∧ Grown a.stack [] w₀ w) r.1)
      (fun e w => IoFailed w₀ e ∧ Grown a.stack [] w₀ w) C := by
    apply Prog.Spec.withFst
    apply hrun.weaken
    · exact fun _ hs => hs.2
    · rintro v s ⟨_, _, hw, hr⟩
      exact ⟨hr, hw⟩
    · rintro e s ⟨he, _, _, hw⟩
      exact ⟨he, hw⟩
    · exact fun _ hs => hs
  unfold query
  apply hbuilt.bind
  rintro ⟨out, build⟩
  cases out with
  | ok v => exact Prog.Spec.pure fun _ hs => hs
  | error e => exact Prog.Spec.fail fun _ hs => hs

variable (ht : TreeAt cmp a handle w₀ es ns)

include ht

omit ht in
theorem fields_inside (handle : Nat) : handle + ROOT_OFF + 16 ≤ Range.stop ⟨handle, TREE_SIZE⟩ := by
  simp only [Range.stop, ROOT_OFF, TREE_SIZE]
  omega

theorem root_grown : Prog.Spec (Grown a.stack [] w₀) (readU64 a.stack (handle + ROOT_OFF))
    (fun v w => v = (w₀.files a.stack).bytes.word (handle + ROOT_OFF) ∧ Grown a.stack [] w₀ w)
    (fun e w => IoFailed w₀ e ∧ Grown a.stack [] w₀ w) C :=
  readU64_grown ht.header (Nat.le_add_right handle ROOT_OFF) (Nat.le_trans (by omega) (fields_inside handle))

theorem readFields_grown : Prog.Spec (Grown a.stack [] w₀) (readFields a handle)
    (fun v w => v = ((w₀.files a.stack).bytes.word (handle + ROOT_OFF), es.length) ∧ Grown a.stack [] w₀ w)
    (fun e w => IoFailed w₀ e ∧ Grown a.stack [] w₀ w) C := by
  have hroot : ((w₀.files a.stack).bytes.read (handle + ROOT_OFF) 16).take 8 =
      (w₀.files a.stack).bytes.read (handle + ROOT_OFF) 8 := by
    have hwindow : (((w₀.files a.stack).bytes.read (handle + ROOT_OFF) 16).drop 0).take 8 = _ :=
      Mem.take_drop_read (by decide)
    rwa [List.drop_zero] at hwindow
  have hlen : ((w₀.files a.stack).bytes.read (handle + ROOT_OFF) 16).drop 8 =
      (w₀.files a.stack).bytes.read (handle + LEN_OFF) 8 := by
    have hwindow : (((w₀.files a.stack).bytes.read (handle + ROOT_OFF) 16).drop 8).take 8 = _ :=
      Mem.take_drop_read (by decide)
    rwa [List.take_of_length_le (by simp)] at hwindow
  unfold readFields
  apply (getInto_grown ht.header (Nat.le_add_right handle ROOT_OFF) (fields_inside handle)).bind_value
  rw [hroot, hlen, ← ht.len]
  exact Prog.Spec.pure fun _ hs => ⟨rfl, hs⟩

theorem TreeAt.cases : ((w₀.files a.stack).bytes.word (handle + ROOT_OFF) = 0 ∧ es = [] ∧ ns = 0) ∨
    ∃ h, h < MAX_TREE_DEPTH ∧ 0 < (w₀.files a.stack).bytes.word (handle + ROOT_OFF) ∧
      Sub (Looked (nodeAt ksize a w₀)) 1 h ((w₀.files a.stack).bytes.word (handle + ROOT_OFF)) es ns := by
  rcases ht.tree with hempty | ⟨h, hs⟩
  · exact .inl hempty
  · have hpos : 0 < (w₀.files a.stack).bytes.word (handle + ROOT_OFF) := by
      obtain ⟨_, _, _, haddr, _⟩ := hs
      exact haddr.1
    exact .inr ⟨h, ht.height_lt hs, hpos, hs⟩

theorem get_spec [Std.TransCmp cmp] (key : Key ksize) :
    Prog.Spec (Grown a.stack [] w₀) (get cmp a handle key)
      (fun v w => v = SortedMap.get cmp key es ∧ Grown a.stack [] w₀ w)
      (fun e w => IoFailed w₀ e ∧ Grown a.stack [] w₀ w) C := by
  apply (root_grown ht).bind_value
  rcases ht.cases with ⟨hroot, hes, -⟩ | ⟨h, hdepth, -, hs⟩
  · rw [hroot, getFrom_zero, hes]
    exact query_spec (Returns.pure rfl)
  · exact query_spec (getFrom_returns key hdepth hs ht.sorted)

theorem extreme_spec (leftmost : Bool) :
    Prog.Spec (Grown a.stack [] w₀) (extreme a handle leftmost)
      (fun v w => v = endOf leftmost es ∧ Grown a.stack [] w₀ w)
      (fun e w => IoFailed w₀ e ∧ Grown a.stack [] w₀ w) C := by
  apply (root_grown ht).bind_value
  rcases ht.cases with ⟨hroot, hes, -⟩ | ⟨h, hdepth, hpos, hs⟩
  · rw [if_pos hroot, hes]
    exact Prog.Spec.pure fun _ hs => ⟨by cases leftmost <;> rfl, hs⟩
  · rw [if_neg hpos.ne']
    apply (query_spec (extremeFrom_returns leftmost hdepth hs Nat.one_pos)).bind
    intro e
    exact Prog.Spec.pure fun _ hs => ⟨hs.1.symm, hs.2⟩

theorem toVec_spec : Prog.Spec (Grown a.stack [] w₀) (toVec a handle)
    (fun v w => v = es ∧ Grown a.stack [] w₀ w) (fun e w => IoFailed w₀ e ∧ Grown a.stack [] w₀ w) C := by
  apply (root_grown ht).bind_value
  rcases ht.cases with ⟨hroot, hes, -⟩ | ⟨h, hdepth, -, hs⟩
  · rw [hroot, collect_zero, hes]
    exact query_spec (Returns.pure rfl)
  · exact query_spec (collect_returns hdepth hs)

end Queries

end BStackBTreeMap

end BStackRaii
