import BStackRaii.Proof.Tree.Shape
/-!
# Insertion copies a path

`insert_rec` keeps every subtree it does not enter, so what it returns hangs over the nodes that were
there, less those it retires, plus those it emits.
-/

namespace BStackRaii

namespace BStackBTreeMap

open SortedMap

variable {ksize : Nat} {cmp : Key ksize → Key ksize → Ordering}
  {look : Nat → Option (BNode ksize)} {em em₀ : List (Nat × BNode ksize)}
  {lo h off : Nat} {nb : BNode ksize} {es : List (Entry ksize)} {ns : Multiset Nat}

/-- One copied subtree, or two with a lifted entry between them. -/
def Copied (At : Place ksize) (lo h off : Nat) (split : Option (Split ksize)) (es : List (Entry ksize))
    (ns : Multiset Nat) : Prop :=
  match split with
  | none => Sub At lo h off es ns
  | some s => ∃ eL eR nL nR, Sub At (T - 1) h off eL nL ∧ Sub At (T - 1) h s.right eR nR ∧
      es = eL ++ s.entry :: eR ∧ ns = nL + nR

theorem Copied.row {At : Place ksize} {split : Option (Split ksize)}
    (hc : Copied At (T - 1) h off split es ns) :
    Row (Sub At (T - 1) h) (off :: (split.map Split.right).toList) (split.map Split.entry).toList es ns := by
  cases split with
  | none => exact Row.single hc
  | some s =>
      obtain ⟨eL, eR, nL, nR, hL, hR, rfl, rfl⟩ := hc
      exact (Row.single hL).merge (Row.single hR) s.entry

theorem linkChild_at {leaf : Bool} {kL kR : List (Entry ksize)} {cL cR : List Nat} {c new : Nat}
    (hlen : cL.length = kL.length) (split : Option (Split ksize)) :
    linkChild ⟨leaf, kL ++ kR, cL ++ c :: cR⟩ kL.length new split =
      ⟨leaf, kL ++ ((split.map Split.entry).toList ++ kR),
        cL ++ (new :: (split.map Split.right).toList ++ cR)⟩ := by
  cases split with
  | none =>
      simp only [linkChild, set_at hlen]
      rfl
  | some s =>
      have hset : (cL ++ c :: cR).set kL.length new = (cL ++ [new]) ++ cR := by
        rw [set_at hlen, List.append_assoc, List.singleton_append]
      have hins : ((cL ++ [new]) ++ cR).insertIdx (kL.length + 1) s.right =
          (cL ++ [new]) ++ s.right :: cR := insertIdx_at (by simp [hlen]) _
      simp only [linkChild, insertIdx_at rfl, hset, hins]
      simp

section Halves

variable {At : Place ksize} {leaf : Bool} {ks ks' eL eR : List (Entry ksize)} {cL cR : List Nat}
  {nL nR : Multiset Nat}

theorem splitLeft_at (hL : Body At h ⟨leaf, ks, cL⟩ eL nL) (hR : Body At h ⟨leaf, ks', cR⟩ eR nR)
    (k : Entry ksize) : splitLeft ⟨leaf, ks ++ k :: ks', cL ++ cR⟩ ks.length = ⟨leaf, ks, cL⟩ := by
  have hlenL := hL.arity
  have hlenR := hR.arity
  cases leaf with
  | true =>
      have hnil : cR = [] := List.length_eq_zero_iff.mp (by simpa using hlenR)
      simp [splitLeft, hnil]
  | false => simp [splitLeft, List.take_left' (show cL.length = ks.length + 1 by simpa using hlenL)]

theorem splitRight_at (hL : Body At h ⟨leaf, ks, cL⟩ eL nL) (hR : Body At h ⟨leaf, ks', cR⟩ eR nR)
    (k : Entry ksize) : splitRight ⟨leaf, ks ++ k :: ks', cL ++ cR⟩ ks.length = ⟨leaf, ks', cR⟩ := by
  have hlenL := hL.arity
  have hlenR := hR.arity
  have hdrop : (ks ++ k :: ks').drop (ks.length + 1) = ks' := by simp
  cases leaf with
  | true =>
      have hnil : cR = [] := List.length_eq_zero_iff.mp (by simpa using hlenR)
      simp [splitRight, hnil, hdrop]
  | false =>
      simp [splitRight, hdrop, List.drop_left' (show cL.length = ks.length + 1 by simpa using hlenL)]

end Halves

/-- Emitting a node, in one piece or in two, puts its subtree at the end of a copy. -/
theorem emitSplit_ensures (lo : Nat) (hb : Body (Later look em₀) h nb es ns) (hlo : lo ≤ nb.entries.length)
    (hhi : nb.entries.length ≤ MAXKEYS + 1) (added : Bool) (old : Option UInt64) :
    (emitSplit nb added old).Ensures (store look) fun em rt r =>
      r.added = added ∧ r.old = old ∧ rt = [] ∧
        Copied (Later look (em₀ ++ em)) lo h r.off r.split es (offs em + ns) := by
  unfold emitSplit
  split
  · rename_i hfit
    apply Plan.Ensures.emit_bind (hb.fits hfit)
    intro off haddr
    apply Plan.Ensures.pure
    refine ⟨rfl, rfl, rfl, ?_⟩
    exact hb.emitted (List.subset_append_left _ _) (by simp) haddr hlo hfit
  · rename_i hfull
    obtain ⟨leaf, entries, children⟩ := nb
    have hcount : entries.length = 16 := by
      simp only [MAXKEYS, T] at hhi hfull
      omega
    -- the median is the ninth of sixteen entries
    obtain ⟨ks, k, ks', rfl, hks⟩ := exists_at (i := 8) (by omega : 8 < entries.length)
    have hks' : ks'.length = 7 := by
      simp only [List.length_append, List.length_cons] at hcount
      omega
    obtain ⟨cL, cR, eL, eR, nL, nR, rfl, hL, hR, rfl, rfl⟩ := hb.split
    have hm : (ks ++ k :: ks').length / 2 = ks.length := by omega
    simp only [hm]
    apply Plan.Ensures.unwrap_bind (getElem?_at rfl)
    rw [splitLeft_at hL hR, splitRight_at hL hR]
    apply Plan.Ensures.emit_bind (hR.fits (by simp [hks', MAXKEYS, T]))
    intro right hright
    apply Plan.Ensures.emit_bind (hL.fits (by simp [hks, MAXKEYS, T]))
    intro left hleft
    apply Plan.Ensures.pure
    have hsub := List.subset_append_left em₀ [(right, ⟨leaf, ks', cR⟩), (left, ⟨leaf, ks, cL⟩)]
    refine ⟨rfl, rfl, rfl, eL, eR, left ::ₘ nL, right ::ₘ nR, ?_, ?_, rfl, ?_⟩
    · exact hL.emitted hsub (by simp) hleft (by simp [hks, T]) (by simp [hks, MAXKEYS, T])
    · exact hR.emitted hsub (by simp) hright (by simp [hks', T]) (by simp [hks', MAXKEYS, T])
    · simp only [offs_cons, offs_nil, ← Multiset.singleton_add]
      abel

/-- What `insert_rec` ensures of its result. -/
structure Inserts (cmp : Key ksize → Key ksize → Ordering) (look : Nat → Option (BNode ksize))
    (lo h : Nat) (key : Key ksize) (val : UInt64) (es : List (Entry ksize)) (ns : Multiset Nat)
    (em : List (Nat × BNode ksize)) (rt : List Nat) (r : Inserted ksize) : Prop where
  added : r.added = (SortedMap.get cmp key es).isNone
  old : r.old = SortedMap.get cmp key es
  copied : ∃ ns', Copied (Later look em) lo h r.off r.split (SortedMap.insert cmp key val es) ns' ∧
    ns' + ↑rt = offs em + ns

variable [Std.TransCmp cmp] {key : Key ksize} {val : UInt64} {L R : List (Entry ksize)}

/-- The key is at `e`, so the copy differs from the node in one value. -/
theorem insert_exact {leaf : Bool} {cs : List Nat} {e : Entry ksize}
    (hb : Body (Later look []) h ⟨leaf, L ++ e :: R, cs⟩ es ns)
    (hlo : lo ≤ (L ++ e :: R).length) (hhi : (L ++ e :: R).length ≤ MAXKEYS) (hsorted : Sorted cmp es)
    (he : cmp key e.1 = .eq) :
    Fits ⟨leaf, L ++ (e.1, val) :: R, cs⟩ ∧ ∀ new, Addr new →
      Inserts cmp look lo h key val es (off ::ₘ ns) [(new, ⟨leaf, L ++ (e.1, val) :: R, cs⟩)] [off]
        ⟨new, none, false, some e.2⟩ := by
  obtain ⟨cL, cR, eL, eR, nL, nR, rfl, hL, hR, rfl, rfl⟩ := hb.split
  have hgap := before_of_sorted hsorted (by rw [he]; rfl)
  have hbody := hL.merge hR (e.1, val)
  have hlen : (L ++ (e.1, val) :: R).length = (L ++ e :: R).length := by simp
  refine ⟨hbody.fits (hlen ▸ hhi), fun new hnew => ⟨?_, ?_, new ::ₘ (nL + nR), ?_, ?_⟩⟩
  · rw [get_at hgap he]
    rfl
  · rw [get_at hgap he]
  · rw [insert_at hgap he]
    exact hbody.emitted (List.nil_subset _) (by simp) hnew (hlen ▸ hlo) (hlen ▸ hhi)
  · simp only [offs_cons, offs_nil, ← Multiset.singleton_add, Multiset.coe_singleton]
    abel

omit [Std.TransCmp cmp] in
theorem insert_leaf (hlo : lo ≤ (L ++ R).length) (hhi : (L ++ R).length ≤ MAXKEYS)
    (hL : Before cmp key L) (hR : After cmp key R) :
    (emitSplit ⟨true, L ++ (key, val) :: R, []⟩ true none).Ensures (store look) fun em rt r =>
      Inserts cmp look lo 0 key val (L ++ R) {off} em (off :: rt) r := by
  have hget : SortedMap.get cmp key (L ++ R) = none := by
    rw [get_append hL, get_after hR]
  have hbody : Body (Later look []) 0 ⟨true, L ++ (key, val) :: R, []⟩ (L ++ (key, val) :: R) 0 :=
    ⟨rfl, rfl, rfl, rfl⟩
  have hlen : (L ++ (key, val) :: R).length = (L ++ R).length + 1 := by
    simp only [List.length_append, List.length_cons, Nat.add_assoc]
  apply (emitSplit_ensures lo hbody (by simp only [hlen]; omega) (by simp only [hlen]; omega)
    true none).mono
  rintro em _ r ⟨hadded, hold, rfl, hcopied⟩
  refine ⟨?_, ?_, offs em + 0, ?_, ?_⟩
  · rw [hget]
    exact hadded
  · rw [hget]
    exact hold
  · rw [insert_append hL, insert_after hR]
    exact hcopied
  · rw [add_zero, Multiset.coe_singleton]

omit [Std.TransCmp cmp] in
theorem insert_below {cL cR : List Nat} {c : Nat} {eL eM eR : List (Entry ksize)}
    {nL nM nR : Multiset Nat} {rt : List Nat} {r : Inserted ksize} (hlen : cL.length = L.length)
    (hL : Left (Sub (Later look []) (T - 1) h) cL L eL nL)
    (hR : Right (Sub (Later look []) (T - 1) h) cR R eR nR)
    (hr : Inserts cmp look (T - 1) h key val eM nM em rt r) (hbefore : Before cmp key eL)
    (hafter : After cmp key eR) (hlo : lo ≤ (L ++ R).length) (hhi : (L ++ R).length ≤ MAXKEYS) :
    (emitSplit (linkChild ⟨false, L ++ R, cL ++ c :: cR⟩ L.length r.off r.split) r.added r.old).Ensures
      (store look) fun em' rt' r' =>
        Inserts cmp look lo (h + 1) key val (eL ++ (eM ++ eR)) (off ::ₘ (nL + (nM + nR))) (em ++ em')
          (off :: (rt ++ rt')) r' := by
  obtain ⟨hadded, hold, ns', hcopied, hbalance⟩ := hr
  have hget : SortedMap.get cmp key (eL ++ (eM ++ eR)) = SortedMap.get cmp key eM := by
    rw [get_append hbefore, get_append_after eM hafter]
  have hins : SortedMap.insert cmp key val (eL ++ (eM ++ eR)) =
      eL ++ (SortedMap.insert cmp key val eM ++ eR) := by
    rw [insert_append hbefore, insert_append_after val eM hafter]
  have hbody := Body.plug hL hcopied.row hR
  have hcount : (r.split.map Split.entry).toList.length ≤ 1 := by cases r.split <;> simp
  rw [linkChild_at hlen]
  apply (emitSplit_ensures lo hbody (by simp at hlo ⊢; omega) (by simp at hhi ⊢; omega)
    r.added r.old).mono
  rintro em' _ r' ⟨hadded', hold', rfl, hcopied'⟩
  refine ⟨?_, ?_, offs em' + (nL + (ns' + nR)), ?_, ?_⟩
  · rw [hadded', hget, hadded]
  · rw [hold', hget, hold]
  · rw [hins]
    exact hcopied'
  · simp only [offs_append, coe_cons, List.append_nil, ← Multiset.singleton_add]
    calc offs em' + (nL + (ns' + nR)) + ({off} + ↑rt)
        = (ns' + ↑rt) + (offs em' + (nL + nR) + {off}) := by abel
      _ = offs em + offs em' + ({off} + (nL + (nM + nR))) := by
        rw [hbalance]
        abel

theorem insertRec_ensures (key : Key ksize) (val : UInt64) {depth : Nat} (hdepth : h < depth)
    (hs : Sub (Later look []) lo h off es ns) (hsorted : Sorted cmp es) :
    (insertRec cmp depth off key val).Ensures (store look) (Inserts cmp look lo h key val es ns) := by
  induction depth generalizing lo h off es ns with
  | zero => omega
  | succ depth ih =>
    obtain ⟨⟨leaf, entries, children⟩, ms, hat, haddr, hlo, hhi, hb, rfl⟩ := hs
    unfold insertRec
    apply take_bind (later_nil.mp hat)
    rcases search_cases cmp key entries with ⟨L, e, R, rfl, hsearch, -, he⟩ |
      ⟨L, R, rfl, hsearch, hbefore, hnext⟩
    · obtain ⟨hfits, hinserts⟩ := insert_exact hb hlo hhi hsorted he
      simp only [hsearch, if_true, set_at]
      apply Plan.Ensures.unwrap_bind (getElem?_at rfl)
      apply Plan.Ensures.emit_bind hfits
      intro new hnew
      exact Plan.Ensures.pure (hinserts new hnew)
    · simp only [hsearch, Bool.false_eq_true, if_false]
      cases h with
      | zero =>
          obtain ⟨hleaf, hchildren, hes, hns⟩ := hb
          simp only at hleaf hchildren hes
          subst hleaf hchildren hes hns
          simp only [if_true, insertIdx_at]
          exact insert_leaf hlo hhi hbefore (after_of_head hsorted.of_append.2 hnext)
      | succ h =>
          obtain ⟨hleaf, hrow⟩ := body_succ.mp hb
          simp only at hleaf hrow
          subst hleaf
          obtain ⟨cL, c, cR, eL, eM, eR, nL, nM, nR, rfl, hlen, hL, hM, hR, rfl, rfl⟩ := hrow.focus
          obtain ⟨hsL, hsM, hsR⟩ : Sorted cmp eL ∧ Sorted cmp eM ∧ Sorted cmp eR :=
            ⟨hsorted.of_append.1, hsorted.of_append.2.of_append.1, hsorted.of_append.2.of_append.2⟩
          have hafter : After cmp key eR := after_of_head hsR (hR.head ▸ hnext)
          simp only [Bool.false_eq_true, if_false]
          apply Plan.Ensures.unwrap_bind (getElem?_at hlen)
          apply Plan.Ensures.bind (ih (Nat.lt_of_succ_lt_succ hdepth) hM hsM)
          intro em rt r hr
          exact insert_below hlen hL hR hr (hL.before hsL hbefore) hafter hlo hhi

/-- A tree at a root pointer: nothing, or a subtree whose top holds an entry. -/
def Holds (At : Place ksize) (root : Nat) (es : List (Entry ksize)) (ns : Multiset Nat) : Prop :=
  (root = 0 ∧ es = [] ∧ ns = 0) ∨ ∃ h, Sub At 1 h root es ns

theorem insertPlan_ensures (key : Key ksize) (val : UInt64) {depth root : Nat}
    (ht : Holds (Later look []) root es ns) (hsorted : Sorted cmp es)
    (hdepth : ∀ h, Sub (Later look []) 1 h root es ns → h < depth) :
    (insertPlan cmp depth root key val).Ensures (store look) fun em rt r =>
      r.2.1 = (SortedMap.get cmp key es).isNone ∧ r.2.2 = SortedMap.get cmp key es ∧
        ∃ ns', Holds (Later look em) r.1 (SortedMap.insert cmp key val es) ns' ∧
          ns' + ↑rt = offs em + ns := by
  unfold insertPlan
  rcases ht with ⟨rfl, rfl, rfl⟩ | ⟨h, hs⟩
  · have hbody : Body (Later look []) 0 ⟨true, [(key, val)], []⟩ [(key, val)] 0 := ⟨rfl, rfl, rfl, rfl⟩
    rw [if_pos rfl]
    apply Plan.Ensures.emit_bind (hbody.fits (by simp [MAXKEYS, T]))
    intro new hnew
    apply Plan.Ensures.pure
    refine ⟨rfl, rfl, new ::ₘ 0, .inr ⟨0, ?_⟩, rfl⟩
    exact hbody.emitted (List.nil_subset _) (by simp) hnew (Nat.le_refl 1) (by simp [MAXKEYS, T])
  · have hroot : root ≠ 0 := by
      obtain ⟨_, _, _, haddr, _⟩ := hs
      exact haddr.1.ne'
    rw [if_neg hroot]
    apply Plan.Ensures.bind (insertRec_ensures key val (hdepth h hs) hs hsorted)
    rintro em rt ⟨off, split, added, old⟩ ⟨hadded, hold, ns', hcopied, hbalance⟩
    cases split with
    | none =>
        apply Plan.Ensures.pure
        simp only [List.append_nil]
        exact ⟨hadded, hold, ns', .inr ⟨h, hcopied⟩, hbalance⟩
    | some s =>
        obtain ⟨eL, eR, nL, nR, hL, hR, hes, rfl⟩ := hcopied
        have hbody : Body (Later look em) (h + 1) ⟨false, [s.entry], [off, s.right]⟩ (eL ++ s.entry :: eR)
            (nL + nR) := body_succ.mpr ⟨rfl, (Row.single hL).merge (Row.single hR) s.entry⟩
        apply Plan.Ensures.emit_bind (hbody.fits (by simp [MAXKEYS, T]))
        intro new hnew
        apply Plan.Ensures.pure
        refine ⟨hadded, hold, new ::ₘ (nL + nR), .inr ⟨h + 1, ?_⟩, ?_⟩
        · rw [hes]
          exact hbody.emitted (List.subset_append_left _ _) (by simp) hnew (Nat.le_refl 1)
            (by simp [MAXKEYS, T])
        · simp only [offs_append, offs_cons, offs_nil, List.append_nil, ← Multiset.singleton_add]
          calc {new} + (nL + nR) + ↑rt = {new} + (nL + nR + ↑rt) := by abel
            _ = offs em + ({new} + 0) + ns := by
              rw [hbalance]
              abel

end BStackBTreeMap

end BStackRaii
