import BStackRaii.Proof.Tree.Insert
/-!
# Deletion rebalances on the way down

`delete_bnode` works on a node in memory, and returns the changed node with at most one entry less.
Every recursive call is on a child that holds an entry to spare, or on two merged ones. So the node
that comes back may be emitted as a child again.
-/

namespace BStackRaii

namespace BStackBTreeMap

open SortedMap

variable {ksize : Nat} {cmp : Key ksize → Key ksize → Ordering} {look : Nat → Option (BNode ksize)}
  {h : Nat}

/-- A changed node that holds `es` in place of a node with `count` entries over `ns`. -/
structure Gives (look : Nat → Option (BNode ksize)) (h count : Nat) (es : List (Entry ksize))
    (val : Option UInt64) (ns : Multiset Nat) (em : List (Nat × BNode ksize)) (rt : List Nat)
    (r : BNode ksize × Option UInt64) : Prop where
  body : ∃ ns', Body (Later look em) h r.1 es ns' ∧ ns' + ↑rt = offs em + ns
  value : r.2 = val
  atMost : r.1.entries.length ≤ count
  atLeast : count ≤ r.1.entries.length + 1

/-- What a recursive call of `delete_bnode` does to nodes of height `h`. -/
def Deletes (cmp : Key ksize → Key ksize → Ordering) (look : Nat → Option (BNode ksize)) (h : Nat)
    (del : Deleter ksize) : Prop :=
  ∀ nb es ns key, Body (Later look []) h nb es ns → Sorted cmp es → nb.entries.length ≤ MAXKEYS →
    (0 < h → nb.entries ≠ []) → (del nb key).Ensures (store look)
      (Gives look h nb.entries.length (remove cmp key es) (SortedMap.get cmp key es) ns)

/-! ### Rotations -/

section Rotations

variable {At : Place ksize} {leaf : Bool} {ksL ksR A C : List (Entry ksize)} {csL csR : List Nat}
  {nA nC : Multiset Nat}

theorem rotateRight_spec (hA : Body At h ⟨leaf, ksL, csL⟩ A nA) (hC : Body At h ⟨leaf, ksR, csR⟩ C nC)
    (hne : ksL ≠ []) (sep : Entry ksize) :
    ∃ init lent cs cs' A' X nA' nC', rotateRight ⟨leaf, ksL, csL⟩ sep ⟨leaf, ksR, csR⟩ =
        some (⟨leaf, init, cs⟩, lent, ⟨leaf, sep :: ksR, cs'⟩) ∧
      ksL.length = init.length + 1 ∧ Body At h ⟨leaf, init, cs⟩ A' nA' ∧
      Body At h ⟨leaf, sep :: ksR, cs'⟩ (X ++ sep :: C) nC' ∧ A = A' ++ lent :: X ∧
      nA' + nC' = nA + nC := by
  obtain ⟨init, lent, rfl⟩ : ∃ init lent, ksL = init ++ [lent] :=
    ⟨_, _, (List.dropLast_append_getLast hne).symm⟩
  obtain ⟨cs, csX, A', X, nA', nX, rfl, hA', hX, rfl, rfl⟩ := hA.split
  refine ⟨init, lent, cs, csX ++ csR, A', X, nA', nX + nC, ?_, by simp, hA', hX.merge hC sep, rfl, ?_⟩
  · have harity := hX.arity
    cases leaf with
    | true =>
        have hnil : csX = [] := List.length_eq_zero_iff.mp (by simpa using harity)
        simp [rotateRight, hnil]
    | false =>
        obtain ⟨c, rfl⟩ : ∃ c, csX = [c] := List.length_eq_one_iff.mp (by simpa using harity)
        simp [rotateRight]
  · rw [add_assoc]

theorem rotateLeft_spec (hA : Body At h ⟨leaf, ksL, csL⟩ A nA) (hC : Body At h ⟨leaf, ksR, csR⟩ C nC)
    (hne : ksR ≠ []) (sep : Entry ksize) :
    ∃ rest lent cs cs' X C' nA' nC', rotateLeft ⟨leaf, ksL, csL⟩ sep ⟨leaf, ksR, csR⟩ =
        some (⟨leaf, ksL ++ [sep], cs⟩, lent, ⟨leaf, rest, cs'⟩) ∧
      ksR.length = rest.length + 1 ∧ Body At h ⟨leaf, ksL ++ [sep], cs⟩ (A ++ sep :: X) nA' ∧
      Body At h ⟨leaf, rest, cs'⟩ C' nC' ∧ C = X ++ lent :: C' ∧ nA' + nC' = nA + nC := by
  obtain ⟨lent, rest, rfl⟩ := List.exists_cons_of_ne_nil hne
  have hfront : Body At h ⟨leaf, [] ++ lent :: rest, csR⟩ C nC := hC
  obtain ⟨csX, cs', X, C', nX, nC', rfl, hX, hC', rfl, rfl⟩ := hfront.split
  refine ⟨rest, lent, csL ++ csX, cs', X, C', nA + nX, nC', ?_, rfl, hA.merge hX sep, hC', rfl, ?_⟩
  · have harity := hX.arity
    cases leaf with
    | true =>
        have hnil : csX = [] := List.length_eq_zero_iff.mp (by simpa using harity)
        have hnil' : csL = [] := List.length_eq_zero_iff.mp (by simpa using hA.arity)
        simp [rotateLeft, hnil, hnil']
    | false =>
        obtain ⟨c, rfl⟩ : ∃ c, csX = [c] := List.length_eq_one_iff.mp (by simpa using harity)
        simp [rotateLeft]
  · rw [add_assoc]

theorem mergeNodes_eq (hC : Body At h ⟨leaf, ksR, csR⟩ C nC) (sep : Entry ksize) :
    mergeNodes ⟨leaf, ksL, csL⟩ sep ⟨leaf, ksR, csR⟩ = ⟨leaf, ksL ++ sep :: ksR, csL ++ csR⟩ := by
  have harity := hC.arity
  cases leaf with
  | true =>
      have hnil : csR = [] := List.length_eq_zero_iff.mp (by simpa using harity)
      simp [mergeNodes, hnil]
  | false => simp [mergeNodes]

end Rotations

/-! ### The steps of a rebalancing -/

section Steps

variable {del : Deleter ksize} {lo off count : Nat} {key : Key ksize} {k : Entry ksize}
  {es L R eL eR A B : List (Entry ksize)} {cL cR : List Nat} {ns nL nR nA nB : Multiset Nat}

/-- A deletion between entries before the key and entries after it. -/
theorem Gives.between {M : List (Entry ksize)} {em : List (Nat × BNode ksize)} {rt : List Nat}
    {r : BNode ksize × Option UInt64} (hbefore : Before cmp key eL) (hafter : After cmp key eR)
    (hg : Gives look h count (eL ++ (remove cmp key M ++ eR)) (SortedMap.get cmp key M) ns em rt r) :
    Gives look h count (remove cmp key (eL ++ (M ++ eR))) (SortedMap.get cmp key (eL ++ (M ++ eR))) ns em rt
      r := by
  rw [remove_append hbefore, remove_append_after M hafter, get_append hbefore, get_append_after M hafter]
  exact hg

theorem deleteOff_ensures (hdel : Deletes cmp look h del) (hs : Sub (Later look []) T h off es ns)
    (hsorted : Sorted cmp es) (key : Key ksize) :
    (deleteOff del off key).Ensures (store look) fun em rt r => r.2 = SortedMap.get cmp key es ∧
      ∃ ns', Sub (Later look em) (T - 1) h r.1 (remove cmp key es) ns' ∧ ns' + ↑rt = offs em + ns := by
  obtain ⟨ks, cs, ms, hlook, hlo, hhi, hb, rfl⟩ := hs.top
  have hne : ks ≠ [] := List.ne_nil_of_length_pos (Nat.lt_of_lt_of_le (by decide) hlo)
  apply take_bind hlook
  apply Plan.Ensures.bind (hdel _ _ _ key hb hsorted hhi fun _ => hne)
  rintro em rt ⟨nb2, val⟩ ⟨⟨ns', hbody, hbalance⟩, rfl, hmost, hleast⟩
  simp only at hbody hmost hleast
  have hmax : nb2.entries.length ≤ MAXKEYS := hmost.trans hhi
  have hmin : T - 1 ≤ nb2.entries.length := Nat.sub_le_of_le_add (hlo.trans hleast)
  apply Plan.Ensures.emit_bind (hbody.fits hmax)
  intro new hnew
  apply Plan.Ensures.pure
  refine ⟨rfl, new ::ₘ ns', ?_, ?_⟩
  · exact hbody.emitted (List.subset_append_left _ _) (by simp) hnew hmin hmax
  · simp only [offs_append, offs_cons, offs_nil, List.append_nil, coe_cons, ← Multiset.singleton_add]
    calc {new} + ns' + ({off} + ↑rt) = {new} + (ns' + ↑rt) + {off} := by abel
      _ = offs em + ({new} + 0) + ({off} + ms) := by
        rw [hbalance]
        abel

/-- Two minimal siblings become one node. -/
theorem mergeAt_ensures (hdel : Deletes cmp look h del) {l r : Nat} (hlen : cL.length = L.length)
    (hL : Left (Sub (Later look []) (T - 1) h) cL L eL nL)
    (hR : Right (Sub (Later look []) (T - 1) h) cR R eR nR) {leaf : Bool}
    {ksA ksB : List (Entry ksize)} {csA csB : List Nat} (hl : look l = some ⟨leaf, ksA, csA⟩)
    (hr : look r = some ⟨leaf, ksB, csB⟩) (hA : Body (Later look []) h ⟨leaf, ksA, csA⟩ A nA)
    (hB : Body (Later look []) h ⟨leaf, ksB, csB⟩ B nB) (hcount : ksA.length + ksB.length = 2 * (T - 1))
    (hsorted : Sorted cmp (A ++ k :: B)) (hbefore : Before cmp key eL) (hafter : After cmp key eR) :
    (mergeAt del ⟨false, L ++ k :: R, cL ++ l :: r :: cR⟩ L.length key).Ensures (store look)
      (Gives look (h + 1) (L ++ k :: R).length (remove cmp key (eL ++ ((A ++ k :: B) ++ eR)))
        (SortedMap.get cmp key (eL ++ ((A ++ k :: B) ++ eR))) (nL + (l ::ₘ nA + r ::ₘ nB + nR))) := by
  have hsize : (ksA ++ k :: ksB).length = MAXKEYS := by
    simp only [List.length_append, List.length_cons, ← Nat.add_assoc, hcount]
    rfl
  have hne : ksA ++ k :: ksB ≠ [] := by simp
  unfold mergeAt
  apply Plan.Ensures.unwrap_bind (getElem?_at hlen)
  apply Plan.Ensures.unwrap_bind (getElem?_next hlen)
  apply take_bind hl
  apply take_bind hr
  apply Plan.Ensures.unwrap_bind (getElem?_at rfl)
  rw [mergeNodes_eq hB]
  apply Plan.Ensures.bind (hdel _ _ _ key (hA.merge hB k) hsorted hsize.le fun _ => hne)
  rintro em rt ⟨nb2, val⟩ ⟨⟨ns', hbody, hbalance⟩, rfl, hmost, hleast⟩
  simp only at hbody hmost hleast
  rw [hsize] at hmost hleast
  apply Plan.Ensures.emit_bind (hbody.fits hmost)
  intro new hnew
  apply Plan.Ensures.pure
  have hsub : Sub (Later look (em ++ [(new, nb2)])) (T - 1) h new _ _ :=
    hbody.emitted (List.subset_append_left _ _) (by simp) hnew (by simp [MAXKEYS, T] at *; omega) hmost
  apply Gives.between hbefore hafter
  simp only [eraseIdx_at, eraseIdx_next hlen, set_at hlen]
  refine ⟨⟨_, Body.plug hL (Row.single hsub) hR, ?_⟩, rfl, by simp, by simp [Nat.add_assoc]⟩
  simp only [offs_append, offs_cons, offs_nil, List.append_nil, coe_cons, ← Multiset.singleton_add]
  calc nL + ({new} + ns' + nR) + ({l} + ({r} + ↑rt))
      = ns' + ↑rt + (nL + {new} + nR + {l} + {r}) := by abel
    _ = offs em + ({new} + 0) + (nL + ({l} + nA + ({r} + nB) + nR)) := by
      rw [hbalance]
      abel

/-- The left sibling lends its last entry. -/
theorem borrowLeft_ensures (hdel : Deletes cmp look h del) {l c : Nat} (hlen : cL.length = L.length)
    (hL : Left (Sub (Later look []) (T - 1) h) cL L eL nL)
    (hR : Right (Sub (Later look []) (T - 1) h) cR R eR nR) {leaf : Bool}
    {ksA ksB : List (Entry ksize)} {csA csB : List Nat} (hl : look l = some ⟨leaf, ksA, csA⟩)
    (hc : look c = some ⟨leaf, ksB, csB⟩) (hA : Body (Later look []) h ⟨leaf, ksA, csA⟩ A nA)
    (hB : Body (Later look []) h ⟨leaf, ksB, csB⟩ B nB) (hlent : T ≤ ksA.length)
    (hfull : ksA.length ≤ MAXKEYS) (hcount : ksB.length = T - 1) (hsorted : Sorted cmp (A ++ k :: B))
    (hbefore : Before cmp key (eL ++ (A ++ [k]))) (hafter : After cmp key eR) :
    (borrowLeft del ⟨false, L ++ k :: R, cL ++ l :: c :: cR⟩ (L.length + 1) key).Ensures (store look)
      (Gives look (h + 1) (L ++ k :: R).length (remove cmp key (eL ++ ((A ++ k :: B) ++ eR)))
        (SortedMap.get cmp key (eL ++ ((A ++ k :: B) ++ eR))) (nL + (l ::ₘ nA + c ::ₘ nB + nR))) := by
  have hne : ksA ≠ [] := List.ne_nil_of_length_pos (Nat.lt_of_lt_of_le (by decide) hlent)
  obtain ⟨init, lent, cs, cs', A', X, nA', nC', hrot, hinit, hA', hC', rfl, hns⟩ :=
    rotateRight_spec hA hB hne k
  have hsize : (k :: ksB).length = T := by rw [List.length_cons, hcount]; rfl
  have hes : eL ++ ((A' ++ lent :: X ++ k :: B) ++ eR) =
      (eL ++ (A' ++ [lent])) ++ ((X ++ k :: B) ++ eR) := by simp
  have hgap : Before cmp key (eL ++ (A' ++ [lent])) := by
    refine fun e he => hbefore e ?_
    simp only [List.mem_append, List.mem_cons, List.not_mem_nil] at he ⊢
    tauto
  have hsorted' : Sorted cmp (X ++ k :: B) := by
    rw [List.append_assoc] at hsorted
    exact hsorted.of_append.2.tail
  unfold borrowLeft
  apply Plan.Ensures.unwrap_bind (getElem?_next hlen)
  apply Plan.Ensures.unwrap_bind (getElem?_at hlen)
  apply take_bind hc
  apply take_bind hl
  apply Plan.Ensures.unwrap_bind (getElem?_at rfl)
  apply Plan.Ensures.unwrap_bind hrot
  apply Plan.Ensures.emit_bind (hA'.fits (by simp only; omega))
  intro newLs hnewLs
  apply Plan.Ensures.bind (hdel _ _ _ key hC' hsorted' (by simp only [hsize]; decide) fun _ => by simp)
  rintro em rt ⟨ci2, val⟩ ⟨⟨ns', hbody, hbalance⟩, rfl, hmost, hleast⟩
  simp only [hsize] at hbody hmost hleast
  have hmax : ci2.entries.length ≤ MAXKEYS := hmost.trans (by decide)
  apply Plan.Ensures.emit_bind (hbody.fits hmax)
  intro newCi hnewCi
  apply Plan.Ensures.pure
  have hmin : T - 1 ≤ ci2.entries.length := Nat.sub_le_of_le_add hleast
  have hsubL : Sub (Later look ((newLs, ⟨leaf, init, cs⟩) :: (em ++ [(newCi, ci2)]))) (T - 1) h newLs _ _ :=
    hA'.emitted (List.nil_subset _) (by simp) hnewLs (by simp only; omega) (by simp only; omega)
  have hsubC : Sub (Later look ((newLs, ⟨leaf, init, cs⟩) :: (em ++ [(newCi, ci2)]))) (T - 1) h newCi _ _ :=
    hbody.emitted (by simp) (by simp) hnewCi hmin hmax
  have hplug := Body.plug hL ((Row.single hsubL).merge (Row.single hsubC) lent) hR
  rw [hes]
  apply Gives.between hgap hafter
  have hes' : (eL ++ (A' ++ [lent])) ++ (remove cmp key (X ++ k :: B) ++ eR) =
      eL ++ ((A' ++ lent :: remove cmp key (X ++ k :: B)) ++ eR) := by simp
  rw [hes']
  simp only [Nat.add_sub_cancel, set_at, set_at hlen, set_next hlen]
  refine ⟨⟨_, hplug, ?_⟩, rfl, by simp, by simp⟩
  simp only [offs_append, offs_cons, offs_nil, List.append_nil, coe_cons, ← Multiset.singleton_add]
  calc nL + ({newLs} + nA' + ({newCi} + ns') + nR) + ({c} + ({l} + ↑rt))
      = ns' + ↑rt + nA' + (nL + {newLs} + {newCi} + nR + {c} + {l}) := by abel
    _ = offs em + (nA' + nC') + (nL + {newLs} + {newCi} + nR + {c} + {l}) := by
      rw [hbalance]
      abel
    _ = {newLs} + (offs em + ({newCi} + 0)) + (nL + ({l} + nA + ({c} + nB) + nR)) := by
      rw [hns]
      abel

/-- The right sibling lends its first entry. -/
theorem borrowRight_ensures (hdel : Deletes cmp look h del) {c r : Nat} (hlen : cL.length = L.length)
    (hL : Left (Sub (Later look []) (T - 1) h) cL L eL nL)
    (hR : Right (Sub (Later look []) (T - 1) h) cR R eR nR) {leaf : Bool}
    {ksA ksB : List (Entry ksize)} {csA csB : List Nat} (hc : look c = some ⟨leaf, ksA, csA⟩)
    (hr : look r = some ⟨leaf, ksB, csB⟩) (hA : Body (Later look []) h ⟨leaf, ksA, csA⟩ A nA)
    (hB : Body (Later look []) h ⟨leaf, ksB, csB⟩ B nB) (hlent : T ≤ ksB.length)
    (hfull : ksB.length ≤ MAXKEYS) (hcount : ksA.length = T - 1) (hsorted : Sorted cmp (A ++ k :: B))
    (hbefore : Before cmp key eL) (hafter : After cmp key (k :: (B ++ eR))) :
    (borrowRight del ⟨false, L ++ k :: R, cL ++ c :: r :: cR⟩ L.length key).Ensures (store look)
      (Gives look (h + 1) (L ++ k :: R).length (remove cmp key (eL ++ ((A ++ k :: B) ++ eR)))
        (SortedMap.get cmp key (eL ++ ((A ++ k :: B) ++ eR))) (nL + (c ::ₘ nA + r ::ₘ nB + nR))) := by
  have hne : ksB ≠ [] := List.ne_nil_of_length_pos (Nat.lt_of_lt_of_le (by decide) hlent)
  obtain ⟨rest, lent, cs, cs', X, C', nA', nC', hrot, hrest, hA', hC', rfl, hns⟩ :=
    rotateLeft_spec hA hB hne k
  have hsize : (ksA ++ [k]).length = T := by rw [List.length_append, hcount]; rfl
  have hes : eL ++ ((A ++ k :: (X ++ lent :: C')) ++ eR) =
      eL ++ ((A ++ k :: X) ++ (lent :: (C' ++ eR))) := by simp
  have hgap : After cmp key (lent :: (C' ++ eR)) := by
    refine fun e he => hafter e ?_
    simp only [List.mem_append, List.mem_cons] at he ⊢
    tauto
  have hsorted' : Sorted cmp (A ++ k :: X) := by
    have hall : A ++ k :: (X ++ lent :: C') = (A ++ k :: X) ++ lent :: C' := by simp
    rw [hall] at hsorted
    exact hsorted.of_append.1
  unfold borrowRight
  apply Plan.Ensures.unwrap_bind (getElem?_at hlen)
  apply Plan.Ensures.unwrap_bind (getElem?_next hlen)
  apply take_bind hc
  apply take_bind hr
  apply Plan.Ensures.unwrap_bind (getElem?_at rfl)
  apply Plan.Ensures.unwrap_bind hrot
  apply Plan.Ensures.emit_bind (hC'.fits (by simp only; omega))
  intro newRs hnewRs
  apply Plan.Ensures.bind (hdel _ _ _ key hA' hsorted' (by simp only [hsize]; decide) fun _ => by simp)
  rintro em rt ⟨ci2, val⟩ ⟨⟨ns', hbody, hbalance⟩, rfl, hmost, hleast⟩
  simp only [hsize] at hbody hmost hleast
  have hmax : ci2.entries.length ≤ MAXKEYS := hmost.trans (by decide)
  apply Plan.Ensures.emit_bind (hbody.fits hmax)
  intro newCi hnewCi
  apply Plan.Ensures.pure
  have hmin : T - 1 ≤ ci2.entries.length := Nat.sub_le_of_le_add hleast
  have hsubC : Sub (Later look ((newRs, ⟨leaf, rest, cs'⟩) :: (em ++ [(newCi, ci2)]))) (T - 1) h newCi _ _ :=
    hbody.emitted (by simp) (by simp) hnewCi hmin hmax
  have hsubR : Sub (Later look ((newRs, ⟨leaf, rest, cs'⟩) :: (em ++ [(newCi, ci2)]))) (T - 1) h newRs _ _ :=
    hC'.emitted (List.nil_subset _) (by simp) hnewRs (by simp only; omega) (by simp only; omega)
  have hplug := Body.plug hL ((Row.single hsubC).merge (Row.single hsubR) lent) hR
  rw [hes]
  apply Gives.between hbefore hgap
  have hes' : eL ++ (remove cmp key (A ++ k :: X) ++ lent :: (C' ++ eR)) =
      eL ++ ((remove cmp key (A ++ k :: X) ++ lent :: C') ++ eR) := by simp
  rw [hes']
  simp only [set_at, set_at hlen, set_next hlen]
  refine ⟨⟨_, hplug, ?_⟩, rfl, by simp, by simp⟩
  simp only [offs_append, offs_cons, offs_nil, List.append_nil, coe_cons, ← Multiset.singleton_add]
  calc nL + ({newCi} + ns' + ({newRs} + nC') + nR) + ({c} + ({r} + ↑rt))
      = ns' + ↑rt + nC' + (nL + {newRs} + {newCi} + nR + {c} + {r}) := by abel
    _ = offs em + (nA' + nC') + (nL + {newRs} + {newCi} + nR + {c} + {r}) := by
      rw [hbalance]
      abel
    _ = {newRs} + (offs em + ({newCi} + 0)) + (nL + ({c} + nA + ({r} + nB) + nR)) := by
      rw [hns]
      abel

theorem maxEntry_ensures {depth : Nat} (hdepth : h < depth) (hs : Sub (Later look []) lo h off es ns)
    (hlo : 0 < lo) : (maxEntry depth off).Ensures (store look) fun em rt e =>
      em = [] ∧ rt = [] ∧ es.getLast? = some e := by
  induction depth generalizing lo h off es ns with
  | zero => omega
  | succ depth ih =>
    obtain ⟨ks, cs, ms, hlook, hcount, -, hb, -⟩ := hs.top
    unfold maxEntry
    apply Plan.Ensures.read_bind hlook
    cases h with
    | zero =>
        obtain ⟨-, -, hes, -⟩ := hb
        simp only at hes
        have hne : ks ≠ [] := List.ne_nil_of_length_pos (Nat.lt_of_lt_of_le hlo hcount)
        have hlast := List.getLast?_eq_some_getLast hne
        simp only [decide_true, if_true, hlast, hes]
        exact ⟨rfl, rfl, rfl⟩
    | succ h =>
        obtain ⟨c, eL, eM, nM, hlast, hM, rfl⟩ := (body_succ.mp hb).2.last
        simp only [Nat.add_eq_zero_iff, one_ne_zero, and_false, decide_false, Bool.false_eq_true, if_false]
        apply Plan.Ensures.unwrap_bind hlast
        apply (ih (Nat.lt_of_succ_lt_succ hdepth) hM (by decide)).mono
        rintro em rt e ⟨rfl, rfl, he⟩
        refine ⟨rfl, rfl, ?_⟩
        rw [List.getLast?_append, he]
        rfl

theorem minEntry_ensures {depth : Nat} (hdepth : h < depth) (hs : Sub (Later look []) lo h off es ns)
    (hlo : 0 < lo) : (minEntry depth off).Ensures (store look) fun em rt e =>
      em = [] ∧ rt = [] ∧ es.head? = some e := by
  induction depth generalizing lo h off es ns with
  | zero => omega
  | succ depth ih =>
    obtain ⟨ks, cs, ms, hlook, hcount, -, hb, -⟩ := hs.top
    unfold minEntry
    apply Plan.Ensures.read_bind hlook
    cases h with
    | zero =>
        obtain ⟨-, -, hes, -⟩ := hb
        simp only at hes
        have hne : ks ≠ [] := List.ne_nil_of_length_pos (Nat.lt_of_lt_of_le hlo hcount)
        have hhead := List.head?_eq_some_head hne
        simp only [decide_true, if_true, hhead, hes]
        exact ⟨rfl, rfl, rfl⟩
    | succ h =>
        have hrow := (body_succ.mp hb).2
        simp only at hrow
        cases hrow with
        | mk hM hR =>
            simp only [Nat.add_eq_zero_iff, one_ne_zero, and_false, decide_false, Bool.false_eq_true, if_false]
            apply Plan.Ensures.unwrap_bind rfl
            apply (ih (Nat.lt_of_succ_lt_succ hdepth) hM (by decide)).mono
            rintro em rt e ⟨rfl, rfl, he⟩
            refine ⟨rfl, rfl, ?_⟩
            rw [List.head?_append, he]
            rfl

theorem lends_eq {nb : BNode ksize} {there : Prop} [Decidable there] {j sibling : Nat}
    (hj : nb.children[j]? = some sibling) (hthere : there) :
    lends nb there j = peek sibling >>= fun count => pure (decide (T ≤ count)) := by
  rw [lends, if_pos hthere, childAt, hj]
  rfl

theorem deleteBeside_ensures (hdel : Deletes cmp look h del) {c r : Nat} (hlen : cL.length = L.length)
    (hL : Left (Sub (Later look []) (T - 1) h) cL L eL nL)
    (hc : Sub (Later look []) (T - 1) h c A nA) (hr : Sub (Later look []) (T - 1) h r B nB)
    (hR : Right (Sub (Later look []) (T - 1) h) cR R eR nR) {leaf : Bool} {ksA : List (Entry ksize)}
    {csA : List Nat} (hlookA : look c = some ⟨leaf, ksA, csA⟩) (hmin : ¬ T ≤ ksA.length)
    (hsorted : Sorted cmp (eL ++ (A ++ k :: (B ++ eR)))) (hbefore : Before cmp key eL)
    (hafter : After cmp key (k :: (B ++ eR))) :
    (deleteBeside del ⟨false, L ++ k :: R, cL ++ c :: r :: cR⟩ L.length key).Ensures (store look)
      (Gives look (h + 1) (L ++ k :: R).length (remove cmp key (eL ++ ((A ++ k :: B) ++ eR)))
        (SortedMap.get cmp key (eL ++ ((A ++ k :: B) ++ eR))) (nL + (nA + nB + nR))) := by
  obtain ⟨ksA', csA', msA, hlookA', hloA, -, hbA, rfl⟩ := hc.top
  obtain ⟨rfl, rfl, rfl⟩ : leaf = decide (h = 0) ∧ ksA = ksA' ∧ csA = csA' := by
    simpa using hlookA.symm.trans hlookA'
  obtain ⟨ksB, csB, msB, hlookB, hloB, hhiB, hbB, rfl⟩ := hr.top
  have hthere : L.length < (L ++ k :: R).length := by simp
  have hsAB : Sorted cmp (A ++ k :: B) := by
    have hall : A ++ k :: (B ++ eR) = (A ++ k :: B) ++ eR := by simp
    exact (hall ▸ hsorted.of_append.2).of_append.1
  have hcountA : ksA.length = T - 1 := by
    simp only [T] at hloA hmin ⊢
    omega
  rw [deleteBeside, lends_eq (getElem?_next hlen) hthere, bind_assoc]
  apply peek_bind hlookB
  rw [pure_bind]
  by_cases hspare : T ≤ ksB.length
  · simp only [hspare, decide_true, if_true]
    exact borrowRight_ensures hdel hlen hL hR hlookA hlookB hbA hbB hspare hhiB hcountA hsAB hbefore hafter
  · simp only [hspare, decide_false, Bool.false_eq_true, if_false, if_pos hthere]
    have hcount : ksA.length + ksB.length = 2 * (T - 1) := by
      simp only [T] at hloB hspare hcountA ⊢
      omega
    have hafterR : After cmp key eR := fun e he => hafter e (by simp [he])
    exact mergeAt_ensures hdel hlen hL hR hlookA hlookB hbA hbB hcount hsAB hbefore hafterR

theorem askLeft_ensures (hdel : Deletes cmp look h del) {l c : Nat} (hlen : cL.length = L.length)
    (hL : Left (Sub (Later look []) (T - 1) h) cL L eL nL)
    (hl : Sub (Later look []) (T - 1) h l A nA) (hc : Sub (Later look []) (T - 1) h c B nB)
    (hR : Right (Sub (Later look []) (T - 1) h) cR R eR nR) {leaf : Bool} {ksB : List (Entry ksize)}
    {csB : List Nat} (hlookB : look c = some ⟨leaf, ksB, csB⟩) (hmin : ¬ T ≤ ksB.length)
    (hsorted : Sorted cmp (eL ++ ((A ++ k :: B) ++ eR))) (hbefore : Before cmp key (eL ++ (A ++ [k])))
    (hafter : After cmp key eR)
    (hright : R ≠ [] → (deleteBeside del ⟨false, L ++ k :: R, cL ++ l :: c :: cR⟩ (L.length + 1) key).Ensures
      (store look) (Gives look (h + 1) (L ++ k :: R).length (remove cmp key (eL ++ ((A ++ k :: B) ++ eR)))
        (SortedMap.get cmp key (eL ++ ((A ++ k :: B) ++ eR))) (nL + (nA + nB + nR)))) :
    ((lends ⟨false, L ++ k :: R, cL ++ l :: c :: cR⟩ (0 < L.length + 1) (L.length + 1 - 1)) >>= fun left =>
        if left then borrowLeft del ⟨false, L ++ k :: R, cL ++ l :: c :: cR⟩ (L.length + 1) key
        else deleteBeside del ⟨false, L ++ k :: R, cL ++ l :: c :: cR⟩ (L.length + 1) key).Ensures (store look)
      (Gives look (h + 1) (L ++ k :: R).length (remove cmp key (eL ++ ((A ++ k :: B) ++ eR)))
        (SortedMap.get cmp key (eL ++ ((A ++ k :: B) ++ eR))) (nL + (nA + nB + nR))) := by
  obtain ⟨ksA, csA, msA, hlookA, hloA, hhiA, hbA, rfl⟩ := hl.top
  obtain ⟨ksB', csB', msB, hlookB', hloB, -, hbB, rfl⟩ := hc.top
  obtain ⟨rfl, rfl, rfl⟩ : leaf = decide (h = 0) ∧ ksB = ksB' ∧ csB = csB' := by
    simpa using hlookB.symm.trans hlookB'
  have hsAB : Sorted cmp (A ++ k :: B) := hsorted.of_append.2.of_append.1
  have hcountB : ksB.length = T - 1 := by
    simp only [T] at hloB hmin ⊢
    omega
  rw [lends_eq (getElem?_at hlen) (Nat.succ_pos _), bind_assoc]
  apply peek_bind hlookA
  rw [pure_bind]
  by_cases hspare : T ≤ ksA.length
  · simp only [hspare, decide_true, if_true]
    exact borrowLeft_ensures hdel hlen hL hR hlookA hlookB hbA hbB hspare hhiA hcountB hsAB hbefore hafter
  · simp only [hspare, decide_false, Bool.false_eq_true, if_false]
    cases R with
    | cons k' R' => exact hright (List.cons_ne_nil k' R')
    | nil =>
        have hcount : ksA.length + ksB.length = 2 * (T - 1) := by
          simp only [T] at hloA hspare hcountB ⊢
          omega
        have hthere : ¬ L.length + 1 < (L ++ [k]).length := by simp
        rw [deleteBeside, lends, if_neg hthere, pure_bind, if_neg hthere]
        exact mergeAt_ensures hdel hlen hL hR hlookA hlookB hbA hbB hcount hsAB hbefore.of_append.1 hafter

theorem deleteBelow_ensures (hdel : Deletes cmp look h del) {c : Nat} (hlen : cL.length = L.length)
    (hL : Left (Sub (Later look []) (T - 1) h) cL L eL nL)
    (hc : Sub (Later look []) (T - 1) h c A nA)
    (hR : Right (Sub (Later look []) (T - 1) h) cR R eR nR) (hne : L ++ R ≠ [])
    (hsorted : Sorted cmp (eL ++ (A ++ eR))) (hbefore : Before cmp key eL) (hafter : After cmp key eR) :
    (deleteBelow del ⟨false, L ++ R, cL ++ c :: cR⟩ L.length key).Ensures (store look)
      (Gives look (h + 1) (L ++ R).length (remove cmp key (eL ++ (A ++ eR)))
        (SortedMap.get cmp key (eL ++ (A ++ eR))) (nL + (nA + nR))) := by
  obtain ⟨ksA, csA, msA, hlookA, hloA, hhiA, hbA, hnA⟩ := hc.top
  unfold deleteBelow
  apply Plan.Ensures.unwrap_bind (getElem?_at hlen)
  apply peek_bind hlookA
  by_cases hspare : T ≤ ksA.length
  · rw [if_pos hspare]
    apply Plan.Ensures.bind
      (deleteOff_ensures hdel (hc.raise hlookA hspare) hsorted.of_append.2.of_append.1 key)
    rintro em rt ⟨newC, val⟩ ⟨rfl, ns', hsub, hbalance⟩
    apply Plan.Ensures.pure
    apply Gives.between hbefore hafter
    simp only [set_at hlen, List.append_nil]
    refine ⟨⟨_, Body.plug hL (Row.single hsub) hR, ?_⟩, rfl, by simp, by simp⟩
    calc nL + (ns' + nR) + ↑rt = ns' + ↑rt + (nL + nR) := by abel
      _ = offs em + (nL + (nA + nR)) := by
        rw [hbalance]
        abel
  rw [if_neg hspare]
  have hcountA : ksA.length = T - 1 := by
    simp only [T] at hloA hspare ⊢
    omega
  -- what follows once the left sibling has nothing to lend
  have hright : R ≠ [] → (deleteBeside del ⟨false, L ++ R, cL ++ c :: cR⟩ L.length key).Ensures (store look)
      (Gives look (h + 1) (L ++ R).length (remove cmp key (eL ++ (A ++ eR)))
        (SortedMap.get cmp key (eL ++ (A ++ eR))) (nL + (nA + nR))) := by
    intro hne
    cases hR with
    | nil => exact (hne rfl).elim
    | @cons r k cR R' B nB eR' nR' hr hR' =>
        have hes : eL ++ (A ++ k :: (B ++ eR')) = eL ++ ((A ++ k :: B) ++ eR') := by simp
        rw [hes, ← add_assoc nA]
        exact deleteBeside_ensures hdel hlen hL hc hr hR' hlookA hspare hsorted hbefore hafter
  rcases List.eq_nil_or_concat L with rfl | ⟨L', k, rfl⟩
  · -- there is no left sibling
    exact hright hne
  · rw [List.concat_eq_append] at *
    obtain ⟨cL', l, eL', eM, nL', nM, rfl, hL', hl, rfl, rfl⟩ := hL.unsnoc
    have hlen' : cL'.length = L'.length := by simpa using hlen
    have hidx : (L' ++ [k]).length = L'.length + 1 := by simp
    have hcs : cL' ++ [l] ++ c :: cR = cL' ++ l :: c :: cR := by simp
    have hks : L' ++ [k] ++ R = L' ++ k :: R := by simp
    have hes : eL' ++ (eM ++ [k]) ++ (A ++ eR) = eL' ++ ((eM ++ k :: A) ++ eR) := by simp
    have hns : nL' + nM + (nA + nR) = nL' + (nM + nA + nR) := by abel
    rw [hidx, hcs, hks, hes, hns] at hright ⊢
    rw [hes] at hsorted
    exact askLeft_ensures hdel hlen' hL' hl hc hR hlookA hspare hsorted hbefore hafter hright

variable [Std.TransCmp cmp]

theorem remove_last {p : Entry ksize} (hs : Sorted cmp (A ++ [p])) : remove cmp p.1 (A ++ [p]) = A := by
  have hp : cmp p.1 p.1 = .eq := Std.ReflCmp.compare_self
  rw [remove_at (before_of_sorted hs (by rw [hp]; rfl)) hp, List.append_nil]

theorem remove_first {s : Entry ksize} : remove cmp s.1 (s :: B) = B := by
  have hp : cmp s.1 s.1 = .eq := Std.ReflCmp.compare_self
  simp only [remove, hp]

/-- The key is at `k`, between the children `y` and `z`. -/
theorem deleteInternal_ensures (hdel : Deletes cmp look h del) {y z depth : Nat} (hdepth : h < depth)
    (hlen : cL.length = L.length) (hL : Left (Sub (Later look []) (T - 1) h) cL L eL nL)
    (hy : Sub (Later look []) (T - 1) h y A nA) (hz : Sub (Later look []) (T - 1) h z B nB)
    (hR : Right (Sub (Later look []) (T - 1) h) cR R eR nR)
    (hsorted : Sorted cmp (eL ++ ((A ++ k :: B) ++ eR))) (hk : cmp key k.1 = .eq) :
    (deleteInternal del depth ⟨false, L ++ k :: R, cL ++ y :: z :: cR⟩ L.length key).Ensures (store look)
      (Gives look (h + 1) (L ++ k :: R).length (remove cmp key (eL ++ ((A ++ k :: B) ++ eR)))
        (SortedMap.get cmp key (eL ++ ((A ++ k :: B) ++ eR))) (nL + (nA + nB + nR))) := by
  have hsAB : Sorted cmp (A ++ k :: B) := hsorted.of_append.2.of_append.1
  have hes : eL ++ ((A ++ k :: B) ++ eR) = (eL ++ A) ++ k :: (B ++ eR) := by simp
  have hgap : Before cmp key (eL ++ A) := by
    rw [hes] at hsorted
    exact before_of_sorted hsorted (by rw [hk]; rfl)
  have hafter : After cmp key (B ++ eR) := by
    rw [hes] at hsorted
    exact after_of_sorted hsorted.of_append.2 (by rw [hk]; rfl)
  have hrem : remove cmp key (eL ++ ((A ++ k :: B) ++ eR)) = eL ++ ((A ++ B) ++ eR) := by
    rw [hes, remove_at hgap hk]
    simp
  have hget : SortedMap.get cmp key (eL ++ ((A ++ k :: B) ++ eR)) = some k.2 := by
    rw [hes, get_at hgap hk]
  obtain ⟨ksA, csA, msA, hlookA, hloA, hhiA, hbA, hnA⟩ := hy.top
  obtain ⟨ksB, csB, msB, hlookB, hloB, hhiB, hbB, hnB⟩ := hz.top
  unfold deleteInternal
  apply Plan.Ensures.unwrap_bind (getElem?_at rfl)
  apply Plan.Ensures.unwrap_bind (getElem?_at hlen)
  apply peek_bind hlookA
  apply Plan.Ensures.unwrap_bind (getElem?_next hlen)
  apply peek_bind hlookB
  by_cases hspareA : T ≤ ksA.length
  · -- the predecessor takes the place of the key
    rw [if_pos hspareA]
    apply Plan.Ensures.bind (maxEntry_ensures hdepth hy (by decide))
    rintro _ _ p ⟨rfl, rfl, hp⟩
    obtain ⟨A', rfl⟩ := List.getLast?_eq_some_iff.mp hp
    apply Plan.Ensures.bind (deleteOff_ensures hdel (hy.raise hlookA hspareA) hsAB.of_append.1 p.1)
    rintro em rt ⟨newY, val⟩ ⟨-, ns', hsub, hbalance⟩
    apply Plan.Ensures.pure
    rw [remove_last hsAB.of_append.1] at hsub
    have hsubZ : Sub (Later look em) (T - 1) h z B nB := hz.later (List.nil_subset em)
    have hplug := Body.plug hL ((Row.single hsub).merge (Row.single hsubZ) p) hR
    have hes' : eL ++ ((A' ++ [p] ++ B) ++ eR) = eL ++ ((A' ++ p :: B) ++ eR) := by simp
    rw [hrem, hget, hes']
    simp only [set_at, set_at hlen, List.append_nil, List.nil_append]
    refine ⟨⟨_, hplug, ?_⟩, rfl, by simp, by simp⟩
    calc nL + (ns' + nB + nR) + ↑rt = ns' + ↑rt + (nL + nB + nR) := by abel
      _ = offs em + (nL + (nA + nB + nR)) := by
        rw [hbalance]
        abel
  · rw [if_neg hspareA]
    by_cases hspareB : T ≤ ksB.length
    · -- the successor takes the place of the key
      rw [if_pos hspareB]
      apply Plan.Ensures.bind (minEntry_ensures hdepth hz (by decide))
      rintro _ _ s ⟨rfl, rfl, hs⟩
      obtain ⟨B', rfl⟩ := List.head?_eq_some_iff.mp hs
      apply Plan.Ensures.bind (deleteOff_ensures hdel (hz.raise hlookB hspareB) hsAB.of_append.2.tail s.1)
      rintro em rt ⟨newZ, val⟩ ⟨-, ns', hsub, hbalance⟩
      apply Plan.Ensures.pure
      rw [remove_first] at hsub
      have hsubY : Sub (Later look em) (T - 1) h y A nA := hy.later (List.nil_subset em)
      have hplug := Body.plug hL ((Row.single hsubY).merge (Row.single hsub) s) hR
      rw [hrem, hget]
      simp only [set_at, set_next hlen, List.append_nil, List.nil_append]
      refine ⟨⟨_, hplug, ?_⟩, rfl, by simp, by simp⟩
      calc nL + (nA + ns' + nR) + ↑rt = ns' + ↑rt + (nL + nA + nR) := by abel
        _ = offs em + (nL + (nA + nB + nR)) := by
          rw [hbalance]
          abel
    · -- neither child has an entry to spare
      rw [if_neg hspareB]
      have hcount : ksA.length + ksB.length = 2 * (T - 1) := by
        simp only [T] at hloA hloB hspareA hspareB ⊢
        omega
      apply Plan.Ensures.bind (mergeAt_ensures hdel hlen hL hR hlookA hlookB hbA hbB hcount hsAB
        hgap.of_append.1 hafter.of_append.2)
      rintro em rt ⟨nb2, val⟩ hgives
      apply Plan.Ensures.pure
      simp only [List.append_nil]
      rw [hnA, hnB]
      exact ⟨hgives.body, hget.symm, hgives.atMost, hgives.atLeast⟩

/-- A deletion from a node in memory, for every height. -/
theorem deleteBnode_deletes {depth : Nat} (hdepth : h < depth) :
    Deletes cmp look h (deleteBnode cmp depth) := by
  induction depth generalizing h with
  | zero => omega
  | succ depth ih =>
    rintro ⟨leaf, entries, children⟩ es ns key hb hsorted hmax hne
    unfold deleteBnode
    rcases search_cases cmp key entries with ⟨L, k, R, rfl, hsearch, -, hk⟩ |
      ⟨L, R, rfl, hsearch, hbefore, hnext⟩
    · simp only [hsearch, if_true]
      cases h with
      | zero =>
          obtain ⟨hleaf, hchildren, hes, hns⟩ := hb
          simp only at hleaf hchildren hes
          subst hleaf hchildren hes hns
          have hgap : Before cmp key L := before_of_sorted hsorted (by rw [hk]; rfl)
          rw [if_pos rfl]
          apply Plan.Ensures.unwrap_bind (getElem?_at rfl)
          apply Plan.Ensures.pure
          rw [remove_at hgap hk, get_at hgap hk]
          simp only [eraseIdx_at]
          exact ⟨⟨0, ⟨rfl, rfl, rfl, rfl⟩, rfl⟩, rfl, by simp, by simp [Nat.add_assoc]⟩
      | succ h =>
          obtain ⟨hleaf, hrow⟩ := body_succ.mp hb
          simp only at hleaf hrow
          subst hleaf
          obtain ⟨cL, y, cR, eL, A, eR, nL, nA, nR, rfl, hlen, hL, hy, hR, rfl, rfl⟩ := hrow.focus
          cases hR with
          | @cons z k cR R B nB eR' nR' hz hR' =>
              have hes : eL ++ (A ++ k :: (B ++ eR')) = eL ++ ((A ++ k :: B) ++ eR') := by simp
              rw [if_neg Bool.false_ne_true, hes, ← add_assoc nA]
              rw [hes] at hsorted
              have hdepth' : h < depth := Nat.lt_of_succ_lt_succ hdepth
              exact deleteInternal_ensures (ih hdepth') hdepth' hlen hL hy hz hR' hsorted hk
    · simp only [hsearch, Bool.false_eq_true, if_false]
      cases h with
      | zero =>
          obtain ⟨hleaf, hchildren, hes, hns⟩ := hb
          simp only at hleaf hchildren hes
          subst hleaf hchildren hes hns
          have hafter : After cmp key R := after_of_head hsorted.of_append.2 hnext
          rw [if_pos rfl]
          apply Plan.Ensures.pure
          rw [remove_append hbefore, remove_after hafter, get_append hbefore, get_after hafter]
          exact ⟨⟨0, ⟨rfl, rfl, rfl, rfl⟩, rfl⟩, rfl, Nat.le_refl _, Nat.le_succ _⟩
      | succ h =>
          obtain ⟨hleaf, hrow⟩ := body_succ.mp hb
          simp only at hleaf hrow
          subst hleaf
          obtain ⟨cL, c, cR, eL, A, eR, nL, nA, nR, rfl, hlen, hL, hc, hR, rfl, rfl⟩ := hrow.focus
          have hafter : After cmp key eR :=
            after_of_head hsorted.of_append.2.of_append.2 (hR.head ▸ hnext)
          rw [if_neg Bool.false_ne_true]
          exact deleteBelow_ensures (ih (Nat.lt_of_succ_lt_succ hdepth)) hlen hL hc hR
            (hne (Nat.succ_pos h)) hsorted (hL.before hsorted.of_append.1 hbefore) hafter

end Steps

/-- The new root of a deletion, for a key that is there. -/
theorem removePlan_ensures [Std.TransCmp cmp] {key : Key ksize} {root depth : Nat}
    {es : List (Entry ksize)} {ns : Multiset Nat} {val : UInt64}
    (hs : Sub (Later look []) 1 h root es ns) (hdepth : h < depth) (hsorted : Sorted cmp es)
    (hget : SortedMap.get cmp key es = some val) :
    (removePlan cmp depth root key).Ensures (store look) fun em rt r => r.2 = val ∧
      ∃ ns', Holds (Later look em) r.1 (remove cmp key es) ns' ∧ ns' + ↑rt = offs em + ns := by
  obtain ⟨ks, cs, ms, hlook, hlo, hhi, hb, rfl⟩ := hs.top
  have hne : ks ≠ [] := List.ne_nil_of_length_pos hlo
  unfold removePlan
  apply take_bind hlook
  apply Plan.Ensures.bind (deleteBnode_deletes hdepth _ _ _ key hb hsorted hhi fun _ => hne)
  rintro em rt ⟨⟨leaf, entries, children⟩, val'⟩ ⟨⟨ns', hbody, hbalance⟩, hval, hmost, -⟩
  simp only at hbody hval hmost
  generalize remove cmp key es = es' at hbody ⊢
  apply Plan.Ensures.unwrap_bind (hval.trans hget)
  have htotal : ns' + ↑(root :: rt) = offs em + root ::ₘ ms := by
    rw [coe_cons, ← Multiset.singleton_add]
    calc ns' + ({root} + ↑rt) = ns' + ↑rt + {root} := by abel
      _ = offs em + ({root} + ms) := by
        rw [hbalance]
        abel
  cases entries with
  | cons k entries =>
      apply Plan.Ensures.emit_bind (hbody.fits (hmost.trans hhi))
      intro new hnew
      apply Plan.Ensures.pure
      refine ⟨rfl, new ::ₘ ns', .inr ⟨h, ?_⟩, ?_⟩
      · exact hbody.emitted (List.subset_append_left _ _) (by simp) hnew (Nat.succ_pos _) (hmost.trans hhi)
      · rw [List.append_nil, offs_append, offs_cons, offs_nil, ← Multiset.singleton_add, add_assoc, htotal]
        abel
  | nil =>
      cases h with
      | zero =>
          obtain ⟨hleaf, hchildren, hes, hns⟩ := hbody
          simp only at hleaf hchildren hes
          subst hleaf hchildren hns
          apply Plan.Ensures.pure
          rw [List.append_nil, List.append_nil]
          exact ⟨rfl, 0, .inl ⟨rfl, hes, rfl⟩, htotal⟩
      | succ h =>
          obtain ⟨hleaf, hrow⟩ := body_succ.mp hbody
          simp only at hleaf hrow
          subst hleaf
          cases hrow with
          | mk hc hright =>
              cases hright
              apply Plan.Ensures.unwrap_bind rfl
              apply Plan.Ensures.pure
              simp only [List.append_nil, true_and]
              rw [add_zero] at htotal
              exact ⟨_, .inr ⟨h, Sub.lower hc (by decide)⟩, htotal⟩

end BStackBTreeMap

end BStackRaii
