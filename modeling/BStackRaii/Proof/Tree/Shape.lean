import BStackRaii.Logic.SortedMap
import BStackRaii.Model.Tree
import Mathlib.Algebra.Order.Group.Multiset
import Mathlib.Tactic.Abel
/-!
# The shape of a B-tree

`Sub` says that a subtree of some height hangs from an offset: with which entries in key order, and
over which nodes. Its children form a `Row`, and a row around one child is a `Left` part, the child,
and a `Right` part. Every rebalancing step takes rows apart and joins them again, so it is a use of
`Body.split` and `Body.merge`.

Where the nodes are is a relation `At`, which grows as copies are emitted.
-/

namespace BStackRaii

namespace BStackBTreeMap

variable {ksize : Nat}

/-! ### Lists at a known index -/

section Lists

variable {α : Type} {L : List α} {x : α} {R : List α} {i : Nat}

theorem exists_at {xs : List α} (hi : i < xs.length) : ∃ L x R, xs = L ++ x :: R ∧ L.length = i := by
  refine ⟨xs.take i, xs[i], xs.drop (i + 1), ?_, List.length_take_of_le hi.le⟩
  rw [List.getElem_cons_drop, List.take_append_drop]

theorem getElem?_at (hi : L.length = i) : (L ++ x :: R)[i]? = some x := by
  subst hi
  simp

theorem set_at (hi : L.length = i) (y : α) : (L ++ x :: R).set i y = L ++ y :: R := by
  subst hi
  simp

theorem insertIdx_at (hi : L.length = i) (y : α) : (L ++ R).insertIdx i y = L ++ y :: R := by
  subst hi
  induction L with
  | nil => rfl
  | cons z L ih => exact congrArg (z :: ·) ih

theorem eraseIdx_at (hi : L.length = i) : (L ++ x :: R).eraseIdx i = L ++ R := by
  subst hi
  rw [List.eraseIdx_append_of_length_le (Nat.le_refl _), Nat.sub_self, List.eraseIdx_cons_zero]

theorem getElem?_next {y : α} (hi : L.length = i) : (L ++ x :: y :: R)[i + 1]? = some y := by
  subst hi
  simp

theorem set_next {y : α} (hi : L.length = i) (z : α) :
    (L ++ x :: y :: R).set (i + 1) z = L ++ x :: z :: R := by
  subst hi
  simp

theorem eraseIdx_next {y : α} (hi : L.length = i) :
    (L ++ x :: y :: R).eraseIdx (i + 1) = L ++ x :: R := by
  subst hi
  have hsub : L.length + 1 - L.length = 1 := Nat.add_sub_cancel_left ..
  rw [List.eraseIdx_append_of_length_le (Nat.le_add_right _ 1), hsub]
  rfl

end Lists

/-! ### Rows -/

section Rows

/-- What hangs from an offset: its entries and its nodes. -/
abbrev Hangs (ksize : Nat) : Type := Nat → List (Entry ksize) → Multiset Nat → Prop

/-- Children, each with the entry behind it. -/
inductive Left (S : Hangs ksize) :
    List Nat → List (Entry ksize) → List (Entry ksize) → Multiset Nat → Prop
  | nil : Left S [] [] [] 0
  | cons {c k cs ks es ns es' ns'} : S c es ns → Left S cs ks es' ns' →
      Left S (c :: cs) (k :: ks) (es ++ k :: es') (ns + ns')

/-- Children, each with the entry in front of it. -/
inductive Right (S : Hangs ksize) :
    List Nat → List (Entry ksize) → List (Entry ksize) → Multiset Nat → Prop
  | nil : Right S [] [] [] 0
  | cons {c k cs ks es ns es' ns'} : S c es ns → Right S cs ks es' ns' →
      Right S (c :: cs) (k :: ks) (k :: (es ++ es')) (ns + ns')

/-- The children of a node, with its entries between them. -/
inductive Row (S : Hangs ksize) :
    List Nat → List (Entry ksize) → List (Entry ksize) → Multiset Nat → Prop
  | mk {c cs ks es ns es' ns'} : S c es ns → Right S cs ks es' ns' →
      Row S (c :: cs) ks (es ++ es') (ns + ns')

variable {S S' : Hangs ksize} {c c' : Nat} {cs cs' : List Nat} {k : Entry ksize}
  {ks ks' es es' : List (Entry ksize)} {ns ns' : Multiset Nat}

theorem Row.single (h : S c es ns) : Row S [c] [] es ns := by
  have hrow := Row.mk h Right.nil
  rwa [List.append_nil, add_zero] at hrow

theorem Row.toRight (k : Entry ksize) (h : Row S cs ks es ns) : Right S cs (k :: ks) (k :: es) ns := by
  cases h with
  | mk hc hright => exact .cons hc hright

theorem Right.append (h : Right S cs ks es ns) (h' : Right S cs' ks' es' ns') :
    Right S (cs ++ cs') (ks ++ ks') (es ++ es') (ns + ns') := by
  induction h with
  | nil => simpa only [List.nil_append, zero_add] using h'
  | @cons _ k _ _ _ _ _ _ hc _ ih =>
      have hright := Right.cons (k := k) hc ih
      simpa only [List.cons_append, List.append_assoc, add_assoc] using hright

theorem Row.append_right (h : Row S cs ks es ns) (h' : Right S cs' ks' es' ns') :
    Row S (cs ++ cs') (ks ++ ks') (es ++ es') (ns + ns') := by
  cases h with
  | mk hc hright =>
      have hrow := Row.mk hc (hright.append h')
      simpa only [List.cons_append, List.append_assoc, add_assoc] using hrow

theorem Left.append_row (h : Left S cs ks es ns) (h' : Row S cs' ks' es' ns') :
    Row S (cs ++ cs') (ks ++ ks') (es ++ es') (ns + ns') := by
  induction h with
  | nil => simpa only [List.nil_append, zero_add] using h'
  | @cons _ k _ _ _ _ _ _ hc _ ih =>
      have hrow := Row.mk hc (ih.toRight k)
      simpa only [List.cons_append, List.append_assoc, add_assoc] using hrow

theorem Row.merge (h : Row S cs ks es ns) (h' : Row S cs' ks' es' ns') (k : Entry ksize) :
    Row S (cs ++ cs') (ks ++ k :: ks') (es ++ k :: es') (ns + ns') := h.append_right (h'.toRight k)

theorem Row.focus (h : Row S cs (ks ++ ks') es ns) :
    ∃ cL c cR eL eM eR nL nM nR, cs = cL ++ c :: cR ∧ cL.length = ks.length ∧
      Left S cL ks eL nL ∧ S c eM nM ∧ Right S cR ks' eR nR ∧
      es = eL ++ (eM ++ eR) ∧ ns = nL + (nM + nR) := by
  induction ks generalizing cs es ns with
  | nil =>
      cases h with
      | mk hc hright =>
          exact ⟨[], _, _, [], _, _, 0, _, _, rfl, rfl, .nil, hc, hright, rfl, (zero_add _).symm⟩
  | cons k ks ih =>
      cases h with
      | mk hc hright =>
          cases hright with
          | cons hc' hright =>
              obtain ⟨cL, c, cR, eL, eM, eR, nL, nM, nR, hcs, hlen, hL, hM, hR, hes, hns⟩ :=
                ih (Row.mk hc' hright)
              refine ⟨_ :: cL, c, cR, _, eM, eR, _, nM, nR, ?_, congrArg (· + 1) hlen, .cons hc hL, hM,
                hR, ?_, ?_⟩
              · rw [hcs, List.cons_append]
              · rw [hes, List.append_assoc, List.cons_append]
              · rw [hns, add_assoc]

theorem Left.unsnoc (h : Left S cs (ks ++ [k]) es ns) :
    ∃ cL c eL eM nL nM, cs = cL ++ [c] ∧ Left S cL ks eL nL ∧ S c eM nM ∧ es = eL ++ (eM ++ [k]) ∧
      ns = nL + nM := by
  induction ks generalizing cs es ns with
  | nil =>
      cases h with
      | cons hc hleft =>
          cases hleft
          exact ⟨[], _, [], _, 0, _, rfl, .nil, hc, rfl, (add_comm _ _)⟩
  | cons k' ks ih =>
      cases h with
      | cons hc hleft =>
          obtain ⟨cL, c, eL, eM, nL, nM, hcs, hL, hM, hes, hns⟩ := ih hleft
          refine ⟨_ :: cL, c, _, eM, _, nM, ?_, .cons hc hL, hM, ?_, ?_⟩
          · rw [hcs, List.cons_append]
          · rw [hes, List.append_assoc, List.cons_append]
          · rw [hns, add_assoc]

theorem Row.last (h : Row S cs ks es ns) :
    ∃ c eL eM nM, cs.getLast? = some c ∧ S c eM nM ∧ es = eL ++ eM := by
  rw [← List.append_nil ks] at h
  obtain ⟨cL, c, cR, eL, eM, eR, nL, nM, nR, rfl, hlen, hL, hM, hR, rfl, rfl⟩ := h.focus
  cases hR
  exact ⟨c, eL, eM, nM, by simp, hM, by simp⟩

theorem Row.split (h : Row S cs (ks ++ k :: ks') es ns) :
    ∃ cL cR eL eR nL nR, cs = cL ++ cR ∧ Row S cL ks eL nL ∧ Row S cR ks' eR nR ∧
      es = eL ++ k :: eR ∧ ns = nL + nR := by
  obtain ⟨cL, c, cR, eL, eM, eR, nL, nM, nR, rfl, hlen, hL, hM, hR, rfl, rfl⟩ := h.focus
  cases hR with
  | cons hc hR =>
      have hleft := hL.append_row (Row.single hM)
      rw [List.append_nil] at hleft
      refine ⟨cL ++ [c], _, _, _, _, _, ?_, hleft, Row.mk hc hR, ?_, ?_⟩
      · rw [List.append_assoc, List.singleton_append]
      · rw [List.append_assoc]
      · rw [add_assoc]

theorem Right.length_eq (h : Right S cs ks es ns) : cs.length = ks.length := by
  induction h with
  | nil => rfl
  | cons _ _ ih => exact congrArg (· + 1) ih

theorem Right.head (h : Right S cs ks es ns) : es.head? = ks.head? := by
  cases h <;> rfl

theorem Row.length_eq (h : Row S cs ks es ns) : cs.length = ks.length + 1 := by
  cases h with
  | mk _ hright => exact congrArg (· + 1) hright.length_eq

theorem Right.mono (h : Right S cs ks es ns)
    (hS : ∀ c es' ms, (∀ x ∈ ms, x ∈ ns) → S c es' ms → S' c es' ms) : Right S' cs ks es ns := by
  induction h with
  | nil => exact .nil
  | cons hc _ ih =>
      refine .cons (hS _ _ _ (fun x hx => Multiset.mem_add.mpr (.inl hx)) hc) (ih fun c es' ms hms => ?_)
      exact hS c es' ms fun x hx => Multiset.mem_add.mpr (.inr (hms x hx))

theorem Left.mono (h : Left S cs ks es ns) (hS : ∀ c es' ms, S c es' ms → S' c es' ms) :
    Left S' cs ks es ns := by
  induction h with
  | nil => exact .nil
  | cons hc _ ih => exact .cons (hS _ _ _ hc) ih

theorem Row.mono (h : Row S cs ks es ns)
    (hS : ∀ c es' ms, (∀ x ∈ ms, x ∈ ns) → S c es' ms → S' c es' ms) : Row S' cs ks es ns := by
  cases h with
  | mk hc hright =>
      refine .mk (hS _ _ _ (fun x hx => Multiset.mem_add.mpr (.inl hx)) hc) (hright.mono fun c es' ms hms => ?_)
      exact hS c es' ms fun x hx => Multiset.mem_add.mpr (.inr (hms x hx))

theorem Row.forall_mem {P : Nat → Prop} (h : Row S cs ks es ns)
    (hS : ∀ c es ms, S c es ms → ∀ x ∈ ms, P x) : ∀ x ∈ ns, P x := by
  have hright : ∀ {cs ks es ns}, Right S cs ks es ns → ∀ x ∈ ns, P x := by
    intro cs ks es ns h
    induction h with
    | nil => simp
    | cons hc _ ih =>
        intro x hx
        exact (Multiset.mem_add.mp hx).elim (hS _ _ _ hc x) (ih x)
  cases h with
  | mk hc hR =>
      intro x hx
      exact (Multiset.mem_add.mp hx).elim (hS _ _ _ hc x) (hright hR x)

theorem Row.card_le {m : Nat} (h : Row S cs ks es ns) (hS : ∀ c es ms, S c es ms → m ≤ ms.card) :
    cs.length * m ≤ ns.card := by
  have hright : ∀ {cs ks es ns}, Right S cs ks es ns → cs.length * m ≤ ns.card := by
    intro cs ks es ns h
    induction h with
    | nil => simp
    | cons hc _ ih =>
        rw [List.length_cons, Nat.succ_mul, Multiset.card_add, Nat.add_comm]
        exact Nat.add_le_add (hS _ _ _ hc) ih
  cases h with
  | mk hc hR =>
      rw [List.length_cons, Nat.succ_mul, Multiset.card_add, Nat.add_comm]
      exact Nat.add_le_add (hS _ _ _ hc) (hright hR)

theorem Row.length_le {m : Nat} (h : Row S cs ks es ns)
    (hS : ∀ c es ms, S c es ms → es.length ≤ m * ms.card) : es.length ≤ ks.length + m * ns.card := by
  have hright : ∀ {cs ks es ns}, Right S cs ks es ns → es.length ≤ ks.length + m * ns.card := by
    intro cs ks es ns h
    induction h with
    | nil => simp
    | cons hc _ ih =>
        have hchild := hS _ _ _ hc
        simp only [List.length_cons, List.length_append, Multiset.card_add, Nat.mul_add]
        omega
  cases h with
  | mk hc hR =>
      have hchild := hS _ _ _ hc
      have hrest := hright hR
      simp only [List.length_append, Multiset.card_add, Nat.mul_add]
      omega

theorem Row.child (h : Row S cs ks es ns) (hc : c ∈ cs) : ∃ es' ms, S c es' ms := by
  have hright : ∀ {cs ks es ns}, Right S cs ks es ns → c ∈ cs → ∃ es' ms, S c es' ms := by
    intro cs ks es ns h hc
    induction h with
    | nil => cases hc
    | cons hS _ ih =>
        cases hc with
        | head => exact ⟨_, _, hS⟩
        | tail _ hc => exact ih hc
  cases h with
  | mk hS hR =>
      cases hc with
      | head => exact ⟨_, _, hS⟩
      | tail _ hc => exact hright hR hc

end Rows

/-! ### Nodes and subtrees -/

/-- Where nodes are. -/
abbrev Place (ksize : Nat) : Type := Nat → BNode ksize → Prop

/-- An offset a node may have. `0` stands for an empty tree. -/
def Addr (off : Nat) : Prop := 0 < off ∧ off < 2 ^ 64

/-- The nodes that fill their slots. -/
structure Fits (nb : BNode ksize) : Prop where
  count : nb.entries.length ≤ MAXKEYS
  arity : nb.children.length = if nb.leaf then 0 else nb.entries.length + 1
  child : ∀ c ∈ nb.children, c < 2 ^ 64

/-- A node of height `h`, over the entries `es` and the nodes `ns` below it. -/
def Body (At : Place ksize) : Nat → BNode ksize → List (Entry ksize) → Multiset Nat → Prop
  | 0, nb, es, ns => nb.leaf = true ∧ nb.children = [] ∧ es = nb.entries ∧ ns = 0
  | h + 1, nb, es, ns => nb.leaf = false ∧
      Row (fun off es ns => ∃ nb ms, At off nb ∧ Addr off ∧ T - 1 ≤ nb.entries.length ∧
        nb.entries.length ≤ MAXKEYS ∧ Body At h nb es ms ∧ ns = off ::ₘ ms) nb.children nb.entries es ns

/-- A subtree of height `h` at `off`, with at least `lo` entries in its top node. -/
def Sub (At : Place ksize) (lo h off : Nat) (es : List (Entry ksize)) (ns : Multiset Nat) : Prop :=
  ∃ nb ms, At off nb ∧ Addr off ∧ lo ≤ nb.entries.length ∧ nb.entries.length ≤ MAXKEYS ∧
    Body At h nb es ms ∧ ns = off ::ₘ ms

variable {At At' : Place ksize} {h lo off : Nat} {nb : BNode ksize} {es : List (Entry ksize)}
  {ns : Multiset Nat}

theorem body_succ : Body At (h + 1) nb es ns ↔
    nb.leaf = false ∧ Row (Sub At (T - 1) h) nb.children nb.entries es ns := Iff.rfl

theorem Body.leaf_eq (hb : Body At h nb es ns) : nb.leaf = decide (h = 0) := by
  cases h with
  | zero => exact hb.1
  | succ h => exact hb.1

theorem Body.arity (hb : Body At h nb es ns) :
    nb.children.length = if nb.leaf then 0 else nb.entries.length + 1 := by
  cases h with
  | zero => simp [hb.1, hb.2.1]
  | succ h => simp [hb.1, (body_succ.mp hb).2.length_eq]

theorem Body.fits (hb : Body At h nb es ns) (hlen : nb.entries.length ≤ MAXKEYS) : Fits nb := by
  refine ⟨hlen, hb.arity, fun c hc => ?_⟩
  cases h with
  | zero =>
      rw [hb.2.1] at hc
      cases hc
  | succ h =>
      obtain ⟨-, hrow⟩ := body_succ.mp hb
      obtain ⟨_, _, _, _, _, haddr, _⟩ := hrow.child hc
      exact haddr.2

theorem Body.mono (hb : Body At h nb es ns) (hAt : ∀ off nb, off ∈ ns → At off nb → At' off nb) :
    Body At' h nb es ns := by
  induction h generalizing nb es ns with
  | zero => exact hb
  | succ h ih =>
      obtain ⟨hleaf, hrow⟩ := body_succ.mp hb
      refine body_succ.mpr ⟨hleaf, hrow.mono fun c es' ms hms hsub => ?_⟩
      obtain ⟨nb, ms, hat, haddr, hlo, hhi, hbody, rfl⟩ := hsub
      refine ⟨nb, ms, hAt c nb (hms c (Multiset.mem_cons_self c ms)) hat, haddr, hlo, hhi, ?_, rfl⟩
      exact ih hbody fun off nb hoff => hAt off nb (hms off (Multiset.mem_cons_of_mem hoff))

theorem Sub.mono (hs : Sub At lo h off es ns) (hAt : ∀ off nb, off ∈ ns → At off nb → At' off nb) :
    Sub At' lo h off es ns := by
  obtain ⟨nb, ms, hat, haddr, hlo, hhi, hbody, rfl⟩ := hs
  refine ⟨nb, ms, hAt off nb (Multiset.mem_cons_self off ms) hat, haddr, hlo, hhi, ?_, rfl⟩
  exact hbody.mono fun x nb hx => hAt x nb (Multiset.mem_cons_of_mem hx)

theorem Sub.lower {lo' : Nat} (hs : Sub At lo h off es ns) (hlo : lo' ≤ lo) : Sub At lo' h off es ns := by
  obtain ⟨nb, ms, hat, haddr, hcount, hrest⟩ := hs
  exact ⟨nb, ms, hat, haddr, hlo.trans hcount, hrest⟩

theorem Sub.forall_mem (hs : Sub At lo h off es ns) : ∀ x ∈ ns, Addr x ∧ ∃ nb, At x nb := by
  induction h generalizing lo off es ns with
  | zero =>
      obtain ⟨nb, ms, hat, haddr, -, -, ⟨-, -, -, rfl⟩, rfl⟩ := hs
      intro x hx
      obtain rfl : x = off := by simpa using hx
      exact ⟨haddr, nb, hat⟩
  | succ h ih =>
      obtain ⟨nb, ms, hat, haddr, -, -, hb, rfl⟩ := hs
      intro x hx
      rcases Multiset.mem_cons.mp hx with rfl | hx
      · exact ⟨haddr, nb, hat⟩
      · exact (body_succ.mp hb).2.forall_mem (fun c es ms hc => ih hc) x hx

/-- A tree of height `h` has many nodes. -/
theorem Sub.pow_le (hs : Sub At (T - 1) h off es ns) : T ^ h ≤ ns.card := by
  induction h generalizing off es ns with
  | zero =>
      obtain ⟨_, ms, -, -, -, -, -, rfl⟩ := hs
      simp
  | succ h ih =>
      obtain ⟨nb, ms, -, -, hlo, -, hb, rfl⟩ := hs
      obtain ⟨-, hrow⟩ := body_succ.mp hb
      have hcard := hrow.card_le fun c es ms hc => ih hc
      have hkids : T ≤ nb.children.length := by
        rw [hrow.length_eq]
        simp only [T] at hlo ⊢
        omega
      calc T ^ (h + 1) = T * T ^ h := Nat.pow_succ'
        _ ≤ nb.children.length * T ^ h := Nat.mul_le_mul_right _ hkids
        _ ≤ ms.card := hcard
        _ ≤ (off ::ₘ ms).card := Multiset.card_le_card (Multiset.le_cons_self ms off)

theorem Sub.length_le (hs : Sub At lo h off es ns) : es.length ≤ MAXKEYS * ns.card := by
  induction h generalizing lo off es ns with
  | zero =>
      obtain ⟨nb, ms, -, -, -, hhi, ⟨-, -, rfl, rfl⟩, rfl⟩ := hs
      simpa using hhi
  | succ h ih =>
      obtain ⟨nb, ms, -, -, -, hhi, hb, rfl⟩ := hs
      have hlen := (body_succ.mp hb).2.length_le fun c es ms hc => ih hc
      rw [Multiset.card_cons, Nat.mul_add, Nat.mul_one]
      omega

theorem Body.split {leaf : Bool} {ks ks' : List (Entry ksize)} {k : Entry ksize} {cs : List Nat}
    (hb : Body At h ⟨leaf, ks ++ k :: ks', cs⟩ es ns) :
    ∃ cL cR eL eR nL nR, cs = cL ++ cR ∧ Body At h ⟨leaf, ks, cL⟩ eL nL ∧ Body At h ⟨leaf, ks', cR⟩ eR nR ∧
      es = eL ++ k :: eR ∧ ns = nL + nR := by
  cases h with
  | zero =>
      obtain ⟨hleaf, hchildren, hes, hns⟩ := hb
      simp only at hleaf hchildren hes
      subst hleaf hchildren hes hns
      exact ⟨[], [], ks, ks', 0, 0, rfl, ⟨rfl, rfl, rfl, rfl⟩, ⟨rfl, rfl, rfl, rfl⟩, rfl, rfl⟩
  | succ h =>
      obtain ⟨hleaf, hrow⟩ := body_succ.mp hb
      obtain ⟨cL, cR, eL, eR, nL, nR, hcs, hL, hR, hes, hns⟩ := hrow.split
      exact ⟨cL, cR, eL, eR, nL, nR, hcs, body_succ.mpr ⟨hleaf, hL⟩,
        body_succ.mpr ⟨hleaf, hR⟩, hes, hns⟩

theorem Body.merge {leaf : Bool} {ks ks' eL eR : List (Entry ksize)} {cL cR : List Nat}
    {nL nR : Multiset Nat} (hL : Body At h ⟨leaf, ks, cL⟩ eL nL) (hR : Body At h ⟨leaf, ks', cR⟩ eR nR)
    (k : Entry ksize) : Body At h ⟨leaf, ks ++ k :: ks', cL ++ cR⟩ (eL ++ k :: eR) (nL + nR) := by
  cases h with
  | zero =>
      obtain ⟨hleaf, hchildren, hes, hns⟩ := hL
      obtain ⟨-, hchildren', hes', hns'⟩ := hR
      simp only at hchildren hes hchildren' hes'
      subst hchildren hes hns hchildren' hes' hns'
      exact ⟨hleaf, rfl, rfl, rfl⟩
  | succ h => exact body_succ.mpr ⟨hL.1, (body_succ.mp hL).2.merge (body_succ.mp hR).2 k⟩

/-! ### Searching -/

section Search

open SortedMap

variable {cmp : Key ksize → Key ksize → Ordering} {key : Key ksize}

/-- Where a search ends: at the key, or in the gap it belongs to. -/
theorem search_cases (cmp : Key ksize → Key ksize → Ordering) (key : Key ksize)
    (es : List (Entry ksize)) :
    (∃ L e R, es = L ++ e :: R ∧ search cmp key es = (L.length, true) ∧ Before cmp key L ∧
      cmp key e.1 = .eq) ∨
    (∃ L R, es = L ++ R ∧ search cmp key es = (L.length, false) ∧ Before cmp key L ∧
      ∀ e ∈ R.head?, cmp key e.1 = .lt) := by
  induction es with
  | nil => exact .inr ⟨[], [], rfl, rfl, .nil cmp key, by simp⟩
  | cons x es ih =>
      cases hx : cmp key x.1 with
      | lt =>
          refine .inr ⟨[], x :: es, rfl, by simp [search, hx], .nil cmp key, fun e he => ?_⟩
          cases he
          exact hx
      | eq => exact .inl ⟨[], x, es, rfl, by simp [search, hx], .nil cmp key, hx⟩
      | gt =>
          rcases ih with ⟨L, e, R, rfl, hs, hL, he⟩ | ⟨L, R, rfl, hs, hL, hR⟩
          · exact .inl ⟨x :: L, e, R, rfl, by simp [search, hx, hs], hL.cons hx, he⟩
          · exact .inr ⟨x :: L, R, rfl, by simp [search, hx, hs], hL.cons hx, hR⟩

variable [Std.TransCmp cmp] {S : Hangs ksize} {cs : List Nat} {ks : List (Entry ksize)}

theorem Left.before (h : Left S cs ks es ns) (hs : Sorted cmp es) (hks : Before cmp key ks) :
    Before cmp key es := by
  induction h with
  | nil => exact .nil cmp key
  | @cons _ k _ _ es _ es' _ _ _ ih =>
      have hk := hks k List.mem_cons_self
      have hrest := ih hs.of_append.2.tail fun e he => hks e (List.mem_cons_of_mem k he)
      exact (before_of_sorted hs (by rw [hk]; rfl)).append (hrest.cons hk)

end Search

/-! ### Copies -/

section Copies

/-- The store of a mutation: it reads the nodes of `look`, and may emit nodes that fit. -/
def store (look : Nat → Option (BNode ksize)) : Plan.Store (BNode ksize) Nat where
  look := look
  head nb := nb.entries.length
  Fits := Fits
  Fresh := Addr

/-- Where nodes are once `em` has been emitted. -/
def Later (look : Nat → Option (BNode ksize)) (em : List (Nat × BNode ksize)) : Place ksize :=
  fun off nb => look off = some nb ∨ (off, nb) ∈ em

/-- The offsets of emitted nodes. -/
def offs (em : List (Nat × BNode ksize)) : Multiset Nat := ↑(em.map Prod.fst)

@[simp] theorem offs_nil : offs ([] : List (Nat × BNode ksize)) = 0 := rfl

@[simp] theorem offs_cons (x : Nat × BNode ksize) (em : List (Nat × BNode ksize)) :
    offs (x :: em) = {x.1} + offs em := rfl

theorem coe_cons (x : Nat) (rt : List Nat) : ((x :: rt : List Nat) : Multiset Nat) = {x} + ↑rt := rfl

@[simp] theorem offs_append (em em' : List (Nat × BNode ksize)) :
    offs (em ++ em') = offs em + offs em' := by
  simp only [offs, List.map_append, ← Multiset.coe_add]

variable {look : Nat → Option (BNode ksize)} {em em' : List (Nat × BNode ksize)}

theorem later_nil {off : Nat} {nb : BNode ksize} : Later look [] off nb ↔ look off = some nb := by
  simp [Later]

theorem Later.grow (hem : em ⊆ em') {off : Nat} {nb : BNode ksize} (h : Later look em off nb) :
    Later look em' off nb := h.imp_right fun h => hem h

theorem Sub.later (hs : Sub (Later look em) lo h off es ns) (hem : em ⊆ em') :
    Sub (Later look em') lo h off es ns := hs.mono fun _ _ _ => Later.grow hem

theorem Body.later (hb : Body (Later look em) h nb es ns) (hem : em ⊆ em') :
    Body (Later look em') h nb es ns := hb.mono fun _ _ _ => Later.grow hem

theorem Sub.top (hs : Sub (Later look []) lo h off es ns) :
    ∃ ks cs ms, look off = some ⟨decide (h = 0), ks, cs⟩ ∧ lo ≤ ks.length ∧ ks.length ≤ MAXKEYS ∧
      Body (Later look []) h ⟨decide (h = 0), ks, cs⟩ es ms ∧ ns = off ::ₘ ms := by
  obtain ⟨⟨leaf, ks, cs⟩, ms, hat, -, hlo, hhi, hb, hns⟩ := hs
  obtain rfl : leaf = decide (h = 0) := hb.leaf_eq
  exact ⟨ks, cs, ms, later_nil.mp hat, hlo, hhi, hb, hns⟩

/-- A subtree whose top node is known to hold more. -/
theorem Sub.raise {lo' : Nat} {ks : List (Entry ksize)} {cs : List Nat} {leaf : Bool}
    (hs : Sub (Later look []) lo h off es ns) (hlook : look off = some ⟨leaf, ks, cs⟩)
    (hlo : lo' ≤ ks.length) : Sub (Later look []) lo' h off es ns := by
  obtain ⟨nb, ms, hat, haddr, -, hrest⟩ := hs
  obtain rfl : ⟨leaf, ks, cs⟩ = nb := Option.some.inj (hlook.symm.trans (later_nil.mp hat))
  exact ⟨_, ms, hat, haddr, hlo, hrest⟩

theorem Body.emitted (hb : Body (Later look em) h nb es ns) (hem : em ⊆ em') (hat : (off, nb) ∈ em')
    (haddr : Addr off) (hlo : lo ≤ nb.entries.length) (hhi : nb.entries.length ≤ MAXKEYS) :
    Sub (Later look em') lo h off es (off ::ₘ ns) :=
  ⟨nb, ns, .inr hat, haddr, hlo, hhi, hb.later hem, rfl⟩

/-- A node whose children around some copies are old. -/
theorem Body.plug {cL cM cR : List Nat} {kL kM kR eL eM eR : List (Entry ksize)} {nL nM nR : Multiset Nat}
    (hL : Left (Sub (Later look []) (T - 1) h) cL kL eL nL)
    (hM : Row (Sub (Later look em) (T - 1) h) cM kM eM nM)
    (hR : Right (Sub (Later look []) (T - 1) h) cR kR eR nR) :
    Body (Later look em) (h + 1) ⟨false, kL ++ (kM ++ kR), cL ++ (cM ++ cR)⟩ (eL ++ (eM ++ eR))
      (nL + (nM + nR)) := by
  have hold : ∀ c es ns, Sub (Later look []) (T - 1) h c es ns → Sub (Later look em) (T - 1) h c es ns :=
    fun c es ns hs => hs.later (List.nil_subset em)
  have hrow := hM.append_right (hR.mono fun c es ns _ => hold c es ns)
  exact body_succ.mpr ⟨rfl, (hL.mono hold).append_row hrow⟩

theorem take_bind {α : Type} {f : BNode ksize → NodePlan ksize α}
    {Q : List (Nat × BNode ksize) → List Nat → α → Prop} (hn : look off = some nb)
    (hf : (f nb).Ensures (store look) fun em rt a => Q em (off :: rt) a) :
    (take off >>= f).Ensures (store look) Q := ⟨nb, hn, ⟨nb, hn⟩, hf⟩

theorem peek_bind {α : Type} {f : Nat → NodePlan ksize α}
    {Q : List (Nat × BNode ksize) → List Nat → α → Prop} {leaf : Bool} {ks : List (Entry ksize)}
    {cs : List Nat} (hn : look off = some ⟨leaf, ks, cs⟩) (hf : (f ks.length).Ensures (store look) Q) :
    (peek off >>= f).Ensures (store look) Q := ⟨_, hn, hf⟩

end Copies

end BStackBTreeMap

end BStackRaii
