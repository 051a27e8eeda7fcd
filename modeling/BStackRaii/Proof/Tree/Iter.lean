import BStackRaii.Proof.Tree.Map
import Mathlib.Data.List.TakeWhile
/-!
# Iteration

What an iterator has left is read off its frames: in each, the entries from its index on, with the subtrees
between them. `descend_left` adds a subtree in front, `seek` what a subtree has from a key on, and `next` takes
the first entry off.
-/

namespace BStackRaii

namespace BStackBTreeMap

open SortedMap

variable {ksize : Nat} {cmp : Key ksize → Key ksize → Ordering} {look : Nat → Option (BNode ksize)}
  {lo h off rest : Nat} {es left : List (Entry ksize)} {ns : Multiset Nat}

/-- What `frames` have left, in order. -/
inductive Rests (look : Nat → Option (BNode ksize)) : List (Frame ksize) → List (Entry ksize) → Prop
  | nil : Rests look [] []
  | leaf {nb : BNode ksize} {i : Nat} {frames : List (Frame ksize)} {left : List (Entry ksize)} (hleaf : nb.leaf = true)
      (h : Rests look frames left) : Rests look ((nb, i) :: frames) (nb.entries.drop i ++ left)
  | node {nb : BNode ksize} {i lo h : Nat} {frames : List (Frame ksize)} {es left : List (Entry ksize)}
    {ns : Multiset Nat}
      (hleaf : nb.leaf = false) (hdepth : h < MAX_TREE_DEPTH)
      (hright : Right (Sub (Looked look) lo h) (nb.children.drop (i + 1)) (nb.entries.drop i) es ns)
      (h : Rests look frames left) : Rests look ((nb, i) :: frames) (es ++ left)

theorem descendLeft_zero (rest : Nat) (frames : List (Frame ksize)) :
    (descendLeft rest 0 frames : NodePlan ksize (List (Frame ksize))) = pure frames := by
  cases rest <;> rfl

theorem seek_zero (key : Key ksize) (rest : Nat) (frames : List (Frame ksize)) :
    seek cmp key rest 0 frames = pure frames := by
  cases rest <;> rfl

/-- The leftmost path puts a whole subtree in front of what is left. -/
theorem descendLeft_returns (hrest : h < rest) (hdepth : h < MAX_TREE_DEPTH) (hs : Sub (Looked look) lo h off es ns)
    (frames : List (Frame ksize)) : Returns look (descendLeft rest off frames) fun frames' =>
      ∀ left, Rests look frames left → Rests look frames' (es ++ left) := by
  induction rest generalizing lo h off es ns frames with
  | zero => omega
  | succ rest ih =>
    obtain ⟨⟨leaf, entries, children⟩, ms, hat, haddr, -, -, hb, -⟩ := hs
    rw [descendLeft, if_neg haddr.1.ne']
    constructor
    apply Plan.Ensures.read_bind hat
    cases h with
    | zero =>
        obtain ⟨hleaf, -, hes, -⟩ := hb
        simp only at hleaf hes
        subst hleaf hes
        rw [if_pos rfl]
        exact Plan.Ensures.pure fun left hleft => Rests.leaf (i := 0) rfl hleft
    | succ h =>
        obtain ⟨hleaf, hrow⟩ := body_succ.mp hb
        simp only at hleaf hrow
        subst hleaf
        rw [if_neg Bool.false_ne_true]
        cases hrow with
        | mk hM hR =>
            apply Plan.Ensures.unwrap_bind rfl
            have hdepth' : h < MAX_TREE_DEPTH := Nat.lt_of_succ_lt hdepth
            refine (ih (Nat.lt_of_succ_lt_succ hrest) hdepth' hM _).ensures.mono fun _ _ frames' hframes left hleft =>
              ?_
            rw [List.append_assoc]
            exact hframes _ (Rests.node rfl hdepth' hR hleft)

/-- The part of `es` from `key` on. -/
def From (cmp : Key ksize → Key ksize → Ordering) (key : Key ksize) (es R : List (Entry ksize)) : Prop :=
  ∃ L, es = L ++ R ∧ Before cmp key L ∧ ∀ e ∈ R.head?, cmp key e.1 ≠ .gt

theorem seek_returns [Std.TransCmp cmp] (key : Key ksize) (hrest : h < rest) (hdepth : h < MAX_TREE_DEPTH)
    (hs : Sub (Looked look) lo h off es ns) (hsorted : Sorted cmp es) (frames : List (Frame ksize)) :
    Returns look (seek cmp key rest off frames) fun frames' =>
      ∃ R, From cmp key es R ∧ ∀ left, Rests look frames left → Rests look frames' (R ++ left) := by
  induction rest generalizing lo h off es ns frames with
  | zero => omega
  | succ rest ih =>
    obtain ⟨⟨leaf, entries, children⟩, ms, hat, haddr, -, -, hb, -⟩ := hs
    rw [seek, if_neg haddr.1.ne']
    constructor
    apply Plan.Ensures.read_bind hat
    rcases search_cases cmp key entries with ⟨L, e, R, rfl, hsearch, -, he⟩ | ⟨L, R, rfl, hsearch, hbefore, hnext⟩
    · -- an exact hit: the child in front of it is entirely before the key
      simp only [hsearch, Bool.or_true, if_true]
      have hge : cmp key e.1 ≠ .gt := fun hgt => by
        rw [he] at hgt
        cases hgt
      have hdrop : (L ++ e :: R).drop L.length = e :: R := List.drop_left
      apply Plan.Ensures.pure
      cases h with
      | zero =>
          obtain ⟨hleaf, -, hes, -⟩ := hb
          simp only at hleaf hes
          subst hleaf hes
          refine ⟨e :: R, ⟨L, rfl, before_of_sorted hsorted (by rw [he]; rfl), ?_⟩, fun left hleft => ?_⟩
          · rintro x hx
            cases hx
            exact hge
          · have hrests : Rests look ((⟨true, L ++ e :: R, children⟩, L.length) :: frames)
                ((L ++ e :: R).drop L.length ++ left) := Rests.leaf rfl hleft
            rwa [hdrop] at hrests
      | succ h =>
          obtain ⟨hleaf, hrow⟩ := body_succ.mp hb
          simp only at hleaf hrow
          subst hleaf
          obtain ⟨cL, c, cR, eL, eM, eR, nL, nM, nR, rfl, hlen, -, -, hR, rfl, -⟩ := hrow.focus
          cases hR with
          | @cons c' k cs ks es₁ ns₁ es₂ ns₂ hc hright =>
              refine ⟨_, ⟨eL ++ eM, (List.append_assoc ..).symm, ?_, ?_⟩, fun left hleft => ?_⟩
              · rw [← List.append_assoc] at hsorted
                exact before_of_sorted hsorted (by rw [he]; rfl)
              · rintro x hx
                cases hx
                exact hge
              · have hdropped : (cL ++ c :: c' :: cs).drop (L.length + 1) = c' :: cs := by
                  rw [← hlen, ← List.drop_drop, List.drop_left]
                  rfl
                have hright' := Right.cons hc hright (k := e)
                rw [← hdrop, ← hdropped] at hright'
                exact Rests.node rfl (Nat.lt_of_succ_lt hdepth) hright' hleft
    · simp only [hsearch, Bool.or_false]
      have hdrop : (L ++ R).drop L.length = R := List.drop_left
      cases h with
      | zero =>
          obtain ⟨hleaf, -, hes, -⟩ := hb
          simp only at hleaf hes
          subst hleaf hes
          rw [if_pos rfl]
          apply Plan.Ensures.pure
          refine ⟨R, ⟨L, rfl, hbefore, fun x hx hgt => ?_⟩, fun left hleft => ?_⟩
          · rw [hnext x hx] at hgt
            cases hgt
          · have hrests : Rests look ((⟨true, L ++ R, children⟩, L.length) :: frames)
                ((L ++ R).drop L.length ++ left) := Rests.leaf rfl hleft
            rwa [hdrop] at hrests
      | succ h =>
          obtain ⟨hleaf, hrow⟩ := body_succ.mp hb
          simp only at hleaf hrow
          subst hleaf
          obtain ⟨cL, c, cR, eL, eM, eR, nL, nM, nR, rfl, hlen, hL, hM, hR, rfl, -⟩ := hrow.focus
          rw [if_neg Bool.false_ne_true]
          apply Plan.Ensures.unwrap_bind (getElem?_at hlen)
          have hdepth' : h < MAX_TREE_DEPTH := Nat.lt_of_succ_lt hdepth
          refine (ih (Nat.lt_of_succ_lt_succ hrest) hdepth' hM hsorted.of_append.2.of_append.1 _).ensures.mono ?_
          rintro _ _ frames' ⟨R', ⟨L', rfl, hL', hR'⟩, hframes⟩
          refine ⟨R' ++ eR, ⟨eL ++ L', by simp only [List.append_assoc], ?_, ?_⟩, fun left hleft => ?_⟩
          · exact (hL.before hsorted.of_append.1 hbefore).append hL'
          · intro x hx
            rw [List.head?_append] at hx
            cases hhead : R'.head? with
            | some y =>
                rw [hhead] at hx
                obtain rfl : y = x := Option.some.inj hx
                exact hR' y hhead
            | none =>
                rw [hhead] at hx
                intro hgt
                rw [hnext x (hR.head ▸ hx)] at hgt
                cases hgt
          · rw [List.append_assoc]
            have hdropped : (cL ++ c :: cR).drop (L.length + 1) = cR := by
              rw [← hlen, ← List.drop_drop, List.drop_left]
              rfl
            rw [← hdrop, ← hdropped] at hR
            exact hframes _ (Rests.node rfl hdepth' hR hleft)

/-- What hangs from a root pointer, in a search with room for `rest` levels. -/
def Rooted (look : Nat → Option (BNode ksize)) (rest root : Nat) (es : List (Entry ksize)) : Prop :=
  (root = 0 ∧ es = []) ∨ ∃ lo h ns, h < rest ∧ h < MAX_TREE_DEPTH ∧ Sub (Looked look) lo h root es ns

theorem descendLeft_rooted {root : Nat} (h : Rooted look rest root es) :
    Returns look (descendLeft rest root []) fun frames => Rests look frames es := by
  rcases h with ⟨rfl, rfl⟩ | ⟨lo, h, ns, hrest, hdepth, hs⟩
  · rw [descendLeft_zero]
    exact Returns.pure Rests.nil
  · refine ⟨(descendLeft_returns hrest hdepth hs []).ensures.mono fun _ _ frames hframes => ?_⟩
    have hall := hframes [] Rests.nil
    rwa [List.append_nil] at hall

theorem seek_rooted [Std.TransCmp cmp] {root : Nat} (key : Key ksize) (h : Rooted look rest root es)
    (hsorted : Sorted cmp es) :
    Returns look (seek cmp key rest root []) fun frames => ∃ R, From cmp key es R ∧ Rests look frames R := by
  rcases h with ⟨rfl, rfl⟩ | ⟨lo, h, ns, hrest, hdepth, hs⟩
  · rw [seek_zero]
    exact Returns.pure ⟨[], ⟨[], rfl, Before.nil cmp key, by simp⟩, Rests.nil⟩
  · refine ⟨(seek_returns key hrest hdepth hs hsorted []).ensures.mono fun _ _ frames hframes => ?_⟩
    obtain ⟨R, hR, hrests⟩ := hframes
    have hall := hrests [] Rests.nil
    rw [List.append_nil] at hall
    exact ⟨R, hR, hall⟩

/-! ### One step -/

theorem drop_cons {α : Type} {xs ys : List α} {x : α} {i : Nat} (h : xs.drop i = x :: ys) :
    xs[i]? = some x ∧ xs.drop (i + 1) = ys := by
  constructor
  · rw [← List.head?_drop, h]
    rfl
  · rw [← List.tail_drop, h]
    rfl

/-- The innermost frame with a key left, past that key: a leaf goes on in it, an internal node first walks the
child behind the key. -/
inductive Advances (look : Nat → Option (BNode ksize)) (nb : BNode ksize) (i : Nat) (outer : List (Frame ksize)) :
    List (Entry ksize) → Prop
  | leaf {left : List (Entry ksize)} (hleaf : nb.leaf = true) (h : Rests look ((nb, i + 1) :: outer) left) :
      Advances look nb i outer left
  | node {lo h c : Nat} {es left : List (Entry ksize)} {ns : Multiset Nat} (hleaf : nb.leaf = false)
      (hchild : nb.children[i + 1]? = some c) (hdepth : h < MAX_TREE_DEPTH) (hs : Sub (Looked look) lo h c es ns)
      (h : Rests look ((nb, i + 1) :: outer) left) : Advances look nb i outer (es ++ left)

theorem unfinished_at {nb : BNode ksize} {i : Nat} {e : Entry ksize} (h : nb.entries[i]? = some e)
    (frames : List (Frame ksize)) : BTreeMapIter.unfinished ((nb, i) :: frames) = (nb, i) :: frames := by
  obtain ⟨hi, -⟩ := List.getElem?_eq_some_iff.mp h
  exact List.dropWhile_cons_of_neg (by simpa using hi)

theorem unfinished_past {nb : BNode ksize} {i : Nat} (h : nb.entries.drop i = []) (frames : List (Frame ksize)) :
    BTreeMapIter.unfinished ((nb, i) :: frames) = BTreeMapIter.unfinished frames :=
  List.dropWhile_cons_of_pos (by simpa using h)

theorem Rests.unfinished {frames : List (Frame ksize)} (h : Rests look frames left) :
    (left = [] ∧ BTreeMapIter.unfinished frames = []) ∨
    ∃ nb i outer e left', BTreeMapIter.unfinished frames = (nb, i) :: outer ∧ nb.entries[i]? = some e ∧
      left = e :: left' ∧ Advances look nb i outer left' := by
  induction h with
  | nil => exact .inl ⟨rfl, rfl⟩
  | @leaf nb i frames left hleaf h ih =>
      cases hrest : nb.entries.drop i with
      | nil => rwa [unfinished_past hrest, List.nil_append]
      | cons e es =>
          obtain ⟨hat, hnext⟩ := drop_cons hrest
          refine .inr ⟨nb, i, frames, e, es ++ left, unfinished_at hat _, hat, rfl, .leaf hleaf ?_⟩
          rw [← hnext]
          exact Rests.leaf hleaf h
  | @node nb i lo h frames es left ns hleaf hdepth hright hrests ih =>
      generalize hkids : nb.children.drop (i + 1) = cs at hright
      generalize hkeys : nb.entries.drop i = ks at hright
      cases hright with
      | nil => rwa [unfinished_past hkeys, List.nil_append]
      | @cons c e cs ks es₁ ns₁ es₂ ns₂ hc hright =>
          obtain ⟨hat, hnext⟩ := drop_cons hkeys
          obtain ⟨hchild, hothers⟩ := drop_cons hkids
          rw [← hnext, ← hothers] at hright
          refine .inr ⟨nb, i, frames, e, es₁ ++ (es₂ ++ left), unfinished_at hat _, hat, ?_, ?_⟩
          · simp only [List.cons_append, List.append_assoc]
          · exact .node hleaf hchild hdepth hc (Rests.node hleaf hdepth hright hrests)

/-! ### Iterators of a map -/

section Iterators

variable {a : Allocator} {w₀ : World} {handle : Nat} {C : World → Prop}

/-- An iterator over an unchanged map of `len` entries that still has `left` before its bound is looked at. -/
structure Iterates (a : Allocator) (handle : Nat) (w₀ : World) (len : Nat) (it : BTreeMapIter ksize)
    (left : List (Entry ksize)) : Prop where
  blockOff : it.blockOff = handle
  root0 : it.root0 = (w₀.files a.stack).bytes.word (handle + ROOT_OFF)
  len0 : it.len0 = len
  rests : Rests (nodeAt ksize a w₀) it.frames left

/-- What `next` does with an iterator that has `left`. -/
def Yields (cmp : Key ksize → Key ksize → Ordering) (a : Allocator) (handle : Nat) (w₀ : World) (len : Nat)
    (it : BTreeMapIter ksize) (left : List (Entry ksize)) (r : Option (Entry ksize) × BTreeMapIter ksize) : Prop :=
  (r.1 = none ∧ ∀ e ∈ left.head?, it.past cmp e.1 = true) ∨
  ∃ e left', r.1 = some e ∧ it.past cmp e.1 = false ∧ left = e :: left' ∧ r.2.hi = it.hi ∧
    Iterates a handle w₀ len r.2 left'

variable {it : BTreeMapIter ksize} (ht : TreeAt cmp a handle w₀ es ns)

include ht

theorem check_spec (hit : Iterates a handle w₀ es.length it left) :
    Prog.Spec (Grown a.stack [] w₀) (it.check a) (fun _ w => Grown a.stack [] w₀ w)
      (fun e w => IoFailed w₀ e ∧ Grown a.stack [] w₀ w) C := by
  unfold BTreeMapIter.check
  split
  · exact Prog.Spec.pure fun _ hs => hs
  · rw [hit.blockOff]
    apply (readFields_grown ht).bind_value
    rw [hit.root0, hit.len0, if_pos rfl]
    exact Prog.Spec.pure fun _ hs => hs

theorem next_spec (hit : Iterates a handle w₀ es.length it left) :
    Prog.Spec (Grown a.stack [] w₀) (it.next cmp a)
      (fun r w => Yields cmp a handle w₀ es.length it left r ∧ Grown a.stack [] w₀ w)
      (fun e w => IoFailed w₀ e ∧ Grown a.stack [] w₀ w) C := by
  unfold BTreeMapIter.next
  apply (check_spec ht hit).bind
  intro _
  rcases hit.rests.unfinished with ⟨rfl, hnone⟩ | ⟨nb, i, outer, e, left', hsome, he, rfl, hadv⟩
  · rw [hnone]
    exact Prog.Spec.pure fun _ hs => ⟨.inl ⟨rfl, by simp⟩, hs⟩
  · simp only [hsome, he, Option.elim_some, Prog.lift_ok, pure_bind]
    split
    · rename_i hpast
      refine Prog.Spec.pure fun _ hs => ⟨.inl ⟨rfl, ?_⟩, hs⟩
      simpa using hpast
    · rename_i hpast
      have hkept : it.past cmp e.1 = false := by simpa using hpast
      cases hadv with
      | leaf hleaf hrests =>
          rw [if_pos hleaf]
          exact Prog.Spec.pure fun _ hs => ⟨.inr ⟨e, _, rfl, hkept, rfl, rfl, { hit with rests := hrests }⟩, hs⟩
      | node hleaf hchild hdepth hs hrests =>
          rw [if_neg (by simp [hleaf]), hchild]
          simp only [Option.elim_some, Prog.lift_ok, pure_bind]
          apply (query_spec (descendLeft_returns hdepth hdepth hs _)).bind
          intro frames
          refine Prog.Spec.pure fun _ hframes => ⟨.inr ⟨e, _, rfl, hkept, rfl, rfl, ?_⟩, hframes.2⟩
          exact { hit with rests := hframes.1 _ hrests }

/-- Draining an iterator gives what it has left, up to its bound. -/
theorem drain_spec {calls : Nat} (hcalls : left.length < calls) (hit : Iterates a handle w₀ es.length it left) :
    Prog.Spec (Grown a.stack [] w₀) (it.drain cmp a calls)
      (fun v w => v = (left.takeWhile fun e => !it.past cmp e.1) ∧ Grown a.stack [] w₀ w)
      (fun e w => IoFailed w₀ e ∧ Grown a.stack [] w₀ w) C := by
  induction calls generalizing it left with
  | zero => omega
  | succ calls ih =>
    unfold BTreeMapIter.drain
    apply (next_spec ht hit).bind
    rintro ⟨item, it'⟩
    apply Prog.Spec.assume fun _ hs => hs.1
    rintro (⟨rfl, hpast⟩ | ⟨e, left', rfl, hkept, rfl, hhi, hit'⟩)
    · refine Prog.Spec.pure fun _ hs => ⟨?_, hs.2⟩
      cases left with
      | nil => rfl
      | cons e left => exact (List.takeWhile_cons_of_neg (by simp [hpast e rfl])).symm
    · have hsame : BTreeMapIter.past cmp it' = BTreeMapIter.past cmp it := by
        funext key
        rw [BTreeMapIter.past, BTreeMapIter.past, hhi]
      apply ((ih (Nat.lt_of_succ_lt_succ hcalls) hit').weaken (fun _ hs => hs.2) (fun _ _ hs => hs)
        (fun _ _ hs => hs) fun _ hs => hs).bind
      intro rest
      refine Prog.Spec.pure fun _ hs => ⟨?_, hs.2⟩
      rw [hs.1, hsame, List.takeWhile_cons_of_pos (by simp [hkept])]

theorem TreeAt.rooted :
    Rooted (nodeAt ksize a w₀) MAX_TREE_DEPTH ((w₀.files a.stack).bytes.word (handle + ROOT_OFF)) es :=
  ht.cases.imp (fun h => ⟨h.1, h.2.1⟩) fun ⟨h, hdepth, _, hs⟩ => ⟨1, h, ns, hdepth, hdepth, hs⟩

/-- `iter` starts in front of every entry. -/
theorem iter_spec : Prog.Spec (Grown a.stack [] w₀) (iter a handle)
    (fun it w => (it.hi = none ∧ Iterates a handle w₀ es.length it es) ∧ Grown a.stack [] w₀ w)
    (fun e w => IoFailed w₀ e ∧ Grown a.stack [] w₀ w) C := by
  apply (readFields_grown ht).bind_value
  apply (query_spec (descendLeft_rooted ht.rooted)).bind
  intro frames
  exact Prog.Spec.pure fun _ hs => ⟨⟨rfl, rfl, rfl, rfl, hs.1⟩, hs.2⟩

/-- `range` starts in front of the first entry that is not below `lo`. -/
theorem range_spec [Std.TransCmp cmp] (lo hi : Key ksize) : Prog.Spec (Grown a.stack [] w₀) (range cmp a handle lo hi)
    (fun it w => (it.hi = some hi ∧ ∃ R, From cmp lo es R ∧ Iterates a handle w₀ es.length it R) ∧
      Grown a.stack [] w₀ w)
    (fun e w => IoFailed w₀ e ∧ Grown a.stack [] w₀ w) C := by
  apply (readFields_grown ht).bind_value
  apply (query_spec (seek_rooted lo ht.rooted ht.sorted)).bind
  intro frames
  refine Prog.Spec.pure fun _ hs => ?_
  obtain ⟨⟨R, hR, hrests⟩, hg⟩ := hs
  exact ⟨⟨rfl, R, hR, rfl, rfl, rfl, hrests⟩, hg⟩

end Iterators

/-! ### Bounds -/

/-- A bound of a range of keys. -/
inductive Bound (ksize : Nat)
  | inclusive (key : Key ksize)
  | exclusive (key : Key ksize)
  | unbounded
deriving DecidableEq, Repr

namespace Bound

def key? : Bound ksize → Option (Key ksize)
  | inclusive key => some key
  | exclusive key => some key
  | unbounded => none

def above (cmp : Key ksize → Key ksize → Ordering) : Bound ksize → Key ksize → Bool
  | inclusive lo, key => cmp lo key != .gt
  | exclusive lo, key => cmp lo key == .lt
  | unbounded, _ => true

def below (cmp : Key ksize → Key ksize → Ordering) : Bound ksize → Key ksize → Bool
  | inclusive hi, key => cmp key hi != .gt
  | exclusive hi, key => cmp key hi == .lt
  | unbounded, _ => true

end Bound

def within (cmp : Key ksize → Key ksize → Ordering) (lo hi : Bound ksize) (es : List (Entry ksize)) :
    List (Entry ksize) := es.filter fun e => lo.above cmp e.1 && hi.below cmp e.1

theorem From.within [Std.TransCmp cmp] {key : Key ksize} {R : List (Entry ksize)} (h : From cmp key es R)
    (hsorted : Sorted cmp es) (hi : Key ksize) :
    BStackBTreeMap.within cmp (.inclusive key) (.inclusive hi) es = R.takeWhile fun e => cmp e.1 hi != .gt := by
  obtain ⟨L, rfl, hL, hR⟩ := h
  have hbelow : ∀ e ∈ L, ¬ (cmp key e.1 != .gt && cmp e.1 hi != .gt) = true := by
    intro e he
    simp [hL e he]
  have habove : ∀ e ∈ R, (cmp key e.1 != .gt && cmp e.1 hi != .gt) = (cmp e.1 hi != .gt) := by
    intro e he
    simp [not_after_of_head hsorted.of_append.2 hR e he]
  have hL' := List.filter_eq_nil_iff.mpr hbelow
  have hR' := List.filter_congr habove
  change (L ++ R).filter (fun e => cmp key e.1 != .gt && cmp e.1 hi != .gt) = _
  rw [List.filter_append, hL', List.nil_append, hR', takeWhile_of_sorted hsorted.of_append.2]

/-- In a valid map `iter` yields the entries once each in key order, and `range` those within its two inclusive
bounds. -/
theorem iteration_yields_entries [Std.TransCmp cmp] {a : Allocator} {handle : Nat} {w : World} {calls : Nat}
    (ht : TreeAt cmp a handle w es ns) (hcalls : es.length < calls) :
    (es.Pairwise fun e e' => cmp e.1 e'.1 = .lt) ∧
    Answers w ((iter a handle >>= fun it => it.drain cmp a calls) w).out es ∧
    ∀ lo hi, Answers w ((range cmp a handle lo hi >>= fun it => it.drain cmp a calls) w).out
      (within cmp (.inclusive lo) (.inclusive hi) es) := by
  refine ⟨ht.sorted, answers_of_spec (k := a.stack) (C := fun _ => True) ?_, fun lo hi =>
    answers_of_spec (k := a.stack) (C := fun _ => True) ?_⟩
  · apply (iter_spec ht).bind
    intro it
    apply Prog.Spec.assume fun _ hs => hs.1
    rintro ⟨hnone, hit⟩
    apply (drain_spec ht hcalls hit).weaken (fun _ hs => hs.2) ?_ (fun _ _ hs => hs) fun _ hs => hs
    rintro v s ⟨rfl, hg⟩
    have hall : ∀ e ∈ es, (!it.past cmp e.1) = true := by simp [BTreeMapIter.past, hnone]
    exact ⟨List.takeWhile_eq_self_iff.mpr hall, hg⟩
  · apply (range_spec ht lo hi).bind
    intro it
    apply Prog.Spec.assume fun _ hs => hs.1
    rintro ⟨hhi, R, hR, hit⟩
    have hlen : R.length < calls := by
      obtain ⟨L, rfl, -⟩ := hR
      simp only [List.length_append] at hcalls
      omega
    apply (drain_spec ht hlen hit).weaken (fun _ hs => hs.2) ?_ (fun _ _ hs => hs) fun _ hs => hs
    rintro v s ⟨rfl, hg⟩
    refine ⟨?_, hg⟩
    rw [hR.within ht.sorted]
    simp only [BTreeMapIter.past, hhi]
    rfl

/-- In a map whose root was split, `iter` and a range with a bound in each of the two leaves. -/
theorem iteration_yields_entries_split :
    ((iter oneAllocator 16 >>= fun it : BTreeMapIter 1 => it.drain byteCmp oneAllocator 17) splitMap).out =
      .ok (splitting.foldl (fun es op => op.apply byteCmp es) []) ∧
    ((range byteCmp oneAllocator 16 (byteKey 6) (byteKey 9) >>= fun it =>
      it.drain byteCmp oneAllocator 17) splitMap).out =
      .ok [(byteKey 6, 6), (byteKey 7, 7), (byteKey 8, 8), (byteKey 9, 9)] := by
  have hquiet : splitMap.Quiet := by decide +kernel
  obtain ⟨ns, ht⟩ := splitMap_history.holds (by decide)
  obtain ⟨-, hiter, hrange⟩ := iteration_yields_entries ht (by decide : _ < 17)
  exact ⟨hiter.quiet hquiet, (hrange (byteKey 6) (byteKey 9)).quiet hquiet⟩

/-- `range` takes both of its bounds as inclusive. -/
theorem range_bounds_inclusive : ¬ ∀ (w : World) (es : List (Entry 1)) (ns : Multiset Nat) (lo hi : Bound 1)
    (lokey hikey : Key 1), TreeAt byteCmp oneAllocator 16 w es ns → lo.key? = some lokey → hi.key? = some hikey →
    Answers w ((range byteCmp oneAllocator 16 lokey hikey >>= fun it =>
      it.drain byteCmp oneAllocator (es.length + 1)) w).out (within byteCmp lo hi es) := by
  intro h
  have hout : ((range byteCmp oneAllocator 16 (byteKey 5) (byteKey 5) >>= fun it =>
      it.drain byteCmp oneAllocator 2) leakyMap).out = .ok [(byteKey 5, 1)] := by decide +kernel
  rcases h leakyMap _ _ (.exclusive (byteKey 5)) (.exclusive (byteKey 5)) (byteKey 5) (byteKey 5) leakyMap_holds rfl rfl
    with hyields | ⟨e, hyields, -⟩
  · rw [List.length_singleton, hout] at hyields
    exact absurd (Except.ok.inj hyields) (by decide)
  · rw [List.length_singleton, hout] at hyields
    cases hyields

end BStackBTreeMap

end BStackRaii
