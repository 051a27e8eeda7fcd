import BStackRaii.Proof.Tree.Lookup
/-!
# The B-tree is a sorted map, and keeps no block it does not reach

`Published` is what a mutation leaves at its commit point: the new nodes beside the old ones, and a
tree that survives whichever of the replaced nodes are freed. The results about whole operations and
whole histories are read off it.
-/

namespace BStackRaii

namespace BStackBTreeMap

variable {ksize : Nat} {cmp : Key ksize → Key ksize → Ordering} {a : Allocator} {handle depth : Nat}
  {w w' w₀ w₁ w₃ : World} {es es' : List (Entry ksize)} {ns ns' : Multiset Nat}

def TreeOp.apply (cmp : Key ksize → Key ksize → Ordering) (es : List (Entry ksize)) :
    TreeOp ksize → List (Entry ksize)
  | .insert key val => SortedMap.insert cmp key val es
  | .remove key => SortedMap.remove cmp key es

/-- At the commit point of a mutation of `w₀`: the nodes `em` are new, the nodes `rt` are replaced, and
the tree is there whichever of these are freed. -/
structure Published (cmp : Key ksize → Key ksize → Ordering) (a : Allocator) (handle : Nat) (w₀ : World)
    (ns : Multiset Nat) (em : List (Nat × BNode ksize)) (rt : List Nat) (es' : List (Entry ksize))
    (ns' : Multiset Nat) (w : World) : Prop where
  live : (w.files a.stack).live = blocks em ++ (w₀.files a.stack).live
  freed : w.freed = w₀.freed
  retired : ∀ off ∈ rt, block ksize off ∈ (w₀.files a.stack).live
  balance : ns' + ↑rt = offs em + ns
  nodup : (ns' + ↑rt : Multiset Nat).Nodup
  tree : ∀ (done : List Nat) (w₃ : World), (∀ x ∈ done, x ∈ rt) → Freed a.stack (done.map (block ksize)) w w₃ →
    TreeAt cmp a handle w₃ es' ns'

theorem Published.nothing (ht : TreeAt cmp a handle w₀ es ns) (hg : Grown a.stack [] w₀ w) :
    Published cmp a handle w₀ ns [] [] es ns w := by
  refine ⟨hg.live, hg.freed, by simp, by simp, by simpa using ht.nodup, fun done w₃ hdone hw => ht.frame ?_⟩
  obtain rfl : done = [] := List.eq_nil_iff_forall_not_mem.mpr fun x hx => by simpa using hdone x hx
  intro r hr _
  refine ⟨(hw.live r).mpr ⟨hg.mem_live hr, by simp⟩, fun x hx hx' => ?_⟩
  rw [hw.bytes]
  exact hg.bytes r hr x hx hx'

/-- A commit of the new root pointer, with the entry count when that changes. -/
theorem Published.of_commit (ht : TreeAt cmp a handle w₀ es ns) {em : List (Nat × BNode ksize)}
    {rt : List Nat} {root' : Nat} {fs : List (Nat × List UInt8)} (hg : Grown a.stack (blocks em) w₀ w₁)
    (hem : ∀ x ∈ em, Addr x.1 ∧ Fits x.2) (hrt : ∀ off ∈ rt, ∃ nb, nodeAt ksize a w₀ off = some nb)
    (hholds : Holds (Later (nodeAt ksize a w₀) em) root' es' ns') (hbalance : ns' + ↑rt = offs em + ns)
    (hsorted : SortedMap.Sorted cmp es')
    (hlen : (fs = [(handle + LEN_OFF, leBytes 8 es'.length)]) ∨ (fs = [] ∧ es'.length = es.length)) :
    Published cmp a handle w₀ ns em rt es' ns'
      (World.storeAll a.stack (writesOf em ++ (handle + ROOT_OFF, leBytes 8 root') :: fs) w₁) := by
  have hnodup : (ns' + ↑rt : Multiset Nat).Nodup := by
    rw [hbalance]
    exact nodup_offs hg ht.nodup fun x hx => (ht.live x hx).2
  have hfs : ∀ x ∈ (handle + ROOT_OFF, leBytes 8 root') :: fs,
      handle ≤ x.1 ∧ x.1 + x.2.length ≤ handle + TREE_SIZE := by
    intro x hx
    rcases List.mem_cons.mp hx with rfl | hx
    · simp only [length_leBytes, ROOT_OFF, TREE_SIZE]
      omega
    · rcases hlen with rfl | ⟨rfl, -⟩
      · obtain rfl := List.mem_singleton.mp hx
        simp only [length_leBytes, LEN_OFF, TREE_SIZE]
        omega
      · cases hx
  have hclear : ((handle + ROOT_OFF, leBytes 8 root') :: fs).Pairwise fun x y => Mem.Clear x.1 x.2.length y := by
    rcases hlen with rfl | ⟨rfl, -⟩
    · simp [Mem.Clear, ROOT_OFF, LEN_OFF, Nat.add_assoc]
    · exact List.pairwise_singleton _ _
  refine ⟨?_, ?_, fun off hoff => ?_, hbalance, hnodup, fun done w₃ hdone hw => ?_⟩
  · rw [World.live_storeAll, hg.live]
  · rw [World.freed_storeAll, hg.freed]
  · obtain ⟨nb, hnb⟩ := hrt off hoff
    exact (nodeAt_eq_some.mp hnb).1
  · have htree := holds_committed hg ht.header hfs hclear hem hnodup hdone hw hholds
    have hroot := field_committed hg ht.header hfs hclear hw hholds.root_lt List.mem_cons_self
    have hlive : ∀ x ∈ ns', Addr x ∧ block ksize x ∈ (w₃.files a.stack).live := by
      intro x hx
      obtain ⟨haddr, nb, hnb⟩ := htree.forall_mem x hx
      exact ⟨haddr, OnDisk.live hnb⟩
    have hns' : ns'.Nodup := (Multiset.nodup_add.mp hnodup).1
    have hbound : es'.length < 2 ^ 64 := htree.length_lt (card_nodes hns' hlive)
    refine ⟨?_, ?_, ?_, hsorted, hns'⟩
    · refine (hw.live _).mpr ⟨?_, fun hmem => ?_⟩
      · rw [World.live_storeAll]
        exact hg.mem_live ht.header
      · obtain ⟨x, -, heq⟩ := List.mem_map.mp hmem
        exact block_ne_header x handle heq
    · rw [hroot]
      exact htree
    · rcases hlen with rfl | ⟨rfl, hsame⟩
      · exact field_committed hg ht.header hfs hclear hw hbound (by simp)
      · rw [field_kept hg ht.header hw (Nat.le_add_right _ _) (by simp only [LEN_OFF, TREE_SIZE]; omega) ?_,
          ht.len, hsame]
        intro x hx
        obtain rfl := List.mem_singleton.mp hx
        simp only [Mem.Clear, length_leBytes, ROOT_OFF, LEN_OFF]
        omega

/-! ### The commit of an operation -/

/-- What an operation hands to its frees: `r.2`, with the outcome it is going to return. -/
def Committed (cmp : Key ksize → Key ksize → Ordering) (a : Allocator) (handle : Nat) (w₀ : World)
    (es : List (Entry ksize)) (ns : Multiset Nat) (op : TreeOp ksize)
    (r : Except IoError (Option UInt64) × List Nat) (w : World) : Prop :=
  match r.1 with
  | .ok v => v = SortedMap.get cmp op.key es ∧
      ∃ (em : List (Nat × BNode ksize)) (ns' : Multiset Nat),
        Published cmp a handle w₀ ns em r.2 (op.apply cmp es) ns' w
  | .error e => EnvError a (nodeSize ksize) w₀ e w ∧
      ∃ em : List (Nat × BNode ksize), r.2 = em.map Prod.fst ∧ Grown a.stack (blocks em) w₀ w

theorem root_inside (ht : TreeAt cmp a handle w₀ es ns) (v : Nat) :
    handle + ROOT_OFF + (leBytes 8 v).length ≤ (w₀.files a.stack).len := by
  have hinside := ((w₀.files a.stack).inside _ ht.header).2
  simp only [Range.stop, length_leBytes, ROOT_OFF, TREE_SIZE] at hinside ⊢
  omega

theorem len_inside (ht : TreeAt cmp a handle w₀ es ns) (v : Nat) :
    handle + LEN_OFF + (leBytes 8 v).length ≤ (w₀.files a.stack).len := by
  have hinside := ((w₀.files a.stack).inside _ ht.header).2
  simp only [Range.stop, length_leBytes, LEN_OFF, TREE_SIZE] at hinside ⊢
  omega

theorem TreeAt.shallow (ht : TreeAt cmp a handle w₀ es ns) (hdepth : MAX_TREE_DEPTH ≤ depth) {root : Nat} :
    ∀ h, Sub (Later (nodeAt ksize a w₀) []) 1 h root es ns → h < depth := by
  intro h hs
  rw [later_nil_eq] at hs
  exact Nat.lt_of_lt_of_le (ht.height_lt hs) hdepth

theorem insertCommit_spec [Std.TransCmp cmp] (ht : TreeAt cmp a handle w₀ es ns)
    (hdepth : MAX_TREE_DEPTH ≤ depth) (key : Key ksize) (val : UInt64) :
    Prog.Spec (Grown a.stack [] w₀) (insertCommit cmp a handle depth key val)
      (Committed cmp a handle w₀ es ns (.insert key val))
      (fun e w => IoFailed w₀ e ∧ Grown a.stack [] w₀ w) (fun w => ∃ rs, Grown a.stack rs w₀ w) := by
  apply (readFields_grown ht).bind_value
  simp only
  have htree := ht.tree
  rw [← later_nil_eq] at htree
  generalize (w₀.files a.stack).bytes.word (handle + ROOT_OFF) = root at htree ⊢
  have hplan := insertPlan_ensures key val htree ht.sorted (ht.shallow hdepth)
  have hcommit := commit_spec hplan
    (fun b => (handle + ROOT_OFF, leBytes 8 b.1) ::
      if b.2.1 then [(handle + LEN_OFF, leBytes 8 (es.length + 1))] else []) (by
        intro b x hx
        rcases List.mem_cons.mp hx with rfl | hx
        · exact root_inside ht _
        · split at hx
          · obtain rfl := List.mem_singleton.mp hx
            exact len_inside ht _
          · cases hx)
  apply (hcommit.weaken (fun _ h => h) (fun _ _ h => h) (fun _ _ h => h.elim) fun _ h => h).bind
  rintro ⟨built, offs⟩
  apply Prog.Spec.pure
  intro w hw
  cases built with
  | error e => exact hw
  | ok b =>
      obtain ⟨em, rt, w₁, ⟨hadded, hold, ns', hholds, hbalance⟩, hem, hrt, rfl, hg, rfl⟩ := hw
      refine ⟨hold, em, ns', Published.of_commit ht hg hem hrt hholds hbalance (ht.sorted.insert key val) ?_⟩
      have hlen : (SortedMap.insert cmp key val es).length = _ := SortedMap.length_insert key val es
      rw [← hadded] at hlen
      cases hb : b.2.1 with
      | true =>
          rw [hb, if_pos rfl] at hlen
          exact .inl (by rw [if_pos rfl, TreeOp.apply, hlen])
      | false =>
          rw [hb, if_neg Bool.false_ne_true] at hlen
          exact .inr ⟨if_neg Bool.false_ne_true, hlen⟩

theorem removeCommit_spec [Std.TransCmp cmp] (ht : TreeAt cmp a handle w₀ es ns)
    (hdepth : MAX_TREE_DEPTH ≤ depth) (key : Key ksize) :
    Prog.Spec (Grown a.stack [] w₀) (removeCommit cmp a handle depth key)
      (Committed cmp a handle w₀ es ns (.remove key))
      (fun e w => IoFailed w₀ e ∧ Grown a.stack [] w₀ w) (fun w => ∃ rs, Grown a.stack rs w₀ w) := by
  -- nothing happens to a key that is not there
  have habsent : SortedMap.get cmp key es = none → ∀ w, Grown a.stack [] w₀ w →
      Committed cmp a handle w₀ es ns (.remove key) (.ok none, []) w := by
    intro hget w hw
    refine ⟨hget.symm, [], ns, ?_⟩
    rw [TreeOp.apply, SortedMap.remove_absent hget]
    exact Published.nothing ht hw
  apply (readFields_grown ht).bind_value
  simp only
  rcases ht.cases with ⟨hroot, hes, -⟩ | ⟨h, hheight, hpos, hs⟩
  · rw [if_pos hroot]
    exact Prog.Spec.pure (habsent (by rw [hes]; rfl))
  · rw [if_neg hpos.ne']
    apply (get_spec ht key).bind_value
    cases hget : SortedMap.get cmp key es with
    | none => exact Prog.Spec.pure (habsent hget)
    | some val =>
        simp only [Option.isNone_some, Bool.false_eq_true, if_false]
        have hlen : (es.length + (2 ^ 64 - 1)) % 2 ^ 64 = (SortedMap.remove cmp key es).length := by
          have hremove : (SortedMap.remove cmp key es).length + _ = es.length := SortedMap.length_remove key es
          have hbound : es.length < 2 ^ 64 := ht.tree.length_lt (card_nodes ht.nodup ht.live)
          rw [hget, Option.isSome_some, if_pos rfl] at hremove
          omega
        rw [hlen]
        have hplan := removePlan_ensures (by rw [later_nil_eq]; exact hs) (Nat.lt_of_lt_of_le hheight hdepth)
          ht.sorted hget
        have hcommit := commit_spec hplan
          (fun b => [(handle + ROOT_OFF, leBytes 8 b.1),
            (handle + LEN_OFF, leBytes 8 (SortedMap.remove cmp key es).length)]) (by
              intro b x hx
              rcases List.mem_cons.mp hx with rfl | hx
              · exact root_inside ht _
              · obtain rfl := List.mem_singleton.mp hx
                exact len_inside ht _)
        apply (hcommit.weaken (fun _ h => h) (fun _ _ h => h) (fun _ _ h => h.elim) fun _ h => h).bind
        rintro ⟨built, offs⟩
        apply Prog.Spec.pure
        intro w hw
        cases built with
        | error e => exact hw
        | ok b =>
            obtain ⟨em, rt, w₁, ⟨hval, ns', hholds, hbalance⟩, hem, hrt, rfl, hg, rfl⟩ := hw
            refine ⟨(congrArg some hval).trans hget.symm, em, ns', ?_⟩
            exact Published.of_commit ht hg hem hrt hholds hbalance (ht.sorted.remove key) (.inl rfl)

theorem TreeOp.commit_spec [Std.TransCmp cmp] (ht : TreeAt cmp a handle w₀ es ns)
    (hdepth : MAX_TREE_DEPTH ≤ depth) (op : TreeOp ksize) :
    Prog.Spec (Grown a.stack [] w₀) (op.commit cmp a handle depth) (Committed cmp a handle w₀ es ns op)
      (fun e w => IoFailed w₀ e ∧ Grown a.stack [] w₀ w) (fun w => ∃ rs, Grown a.stack rs w₀ w) := by
  cases op with
  | insert key val => exact insertCommit_spec ht hdepth key val
  | remove key => exact removeCommit_spec ht hdepth key

/-! ### Whole operations -/

theorem freeNodes_run {offs : List Nat} (hnodup : offs.Nodup)
    (hlive : ∀ off ∈ offs, block ksize off ∈ (w.files a.stack).live) :
    ∃ w' cuts, freeNodes a (nodeSize ksize) offs w = ⟨.ok (), w', cuts⟩ ∧
      Freed a.stack ((landed w.faults offs).map (block ksize)) w w' := by
  have hinj : Function.Injective (block ksize) := fun x y h => congrArg Range.start h
  have hrun := freeEach_run (a := a) (hnodup.map hinj) fun r hr => by
    obtain ⟨off, hoff, rfl⟩ := List.mem_map.mp hr
    exact hlive off hoff
  rw [Prog.forEach_map, landed_map] at hrun
  exact hrun

variable {em : List (Nat × BNode ksize)} {rt : List Nat}

theorem Published.frees (h : Published cmp a handle w₀ ns em rt es' ns' w) :
    rt.Nodup ∧ ∀ off ∈ rt, block ksize off ∈ (w.files a.stack).live := by
  refine ⟨Multiset.coe_nodup.mp (Multiset.nodup_add.mp h.nodup).2.1, fun off hoff => ?_⟩
  rw [h.live]
  exact List.mem_append_right _ (h.retired off hoff)

theorem frees_of_grown (hg : Grown a.stack (blocks em) w₀ w) :
    (em.map Prod.fst).Nodup ∧ ∀ off ∈ em.map Prod.fst, block ksize off ∈ (w.files a.stack).live := by
  refine ⟨List.pairwise_map.mpr ((apart_new hg).imp fun h heq => h.1 (congrArg (block ksize) heq)), ?_⟩
  intro off hoff
  obtain ⟨x, hx, rfl⟩ := List.mem_map.mp hoff
  rw [hg.live]
  exact List.mem_append_left _ (mem_blocks hx)

variable {op : TreeOp ksize}

/-- The frees behind the commit decide nothing about the outcome. -/
theorem TreeOp.run_of_commit {out : Except IoError (Option UInt64)} {offs : List Nat} {cs : List World}
    (hc : op.commit cmp a handle depth w = ⟨.ok (out, offs), w₁, cs⟩) (hnodup : offs.Nodup)
    (hlive : ∀ off ∈ offs, block ksize off ∈ (w₁.files a.stack).live) :
    (op.run cmp a handle depth w).out = out ∧
      Freed a.stack ((landed w₁.faults offs).map (block ksize)) w₁ (op.run cmp a handle depth w).final := by
  obtain ⟨w', cuts, hrun, hfreed⟩ := freeNodes_run hnodup hlive
  have hwhole : op.run cmp a handle depth w = ((Prog.lift out : Io (Option UInt64)) w').after (cs ++ cuts) := by
    calc op.run cmp a handle depth w
        = ((freeNodes a (nodeSize ksize) offs >>= fun _ => Prog.lift out) w₁).after cs := Prog.bind_of_ok hc
      _ = (((Prog.lift out : Io (Option UInt64)) w').after cuts).after cs := by rw [Prog.bind_of_ok hrun]
      _ = _ := Run.after_after _ cs cuts
  rw [hwhole]
  cases out with
  | ok v => exact ⟨rfl, hfreed⟩
  | error e => exact ⟨rfl, hfreed⟩

/-- A mutation succeeds and publishes the new tree, or fails with an error of the environment and has
only handed out blocks; then it frees what it replaced, or what it handed out. -/
theorem TreeOp.run_cases [Std.TransCmp cmp] (ht : TreeAt cmp a handle w es ns)
    (hdepth : MAX_TREE_DEPTH ≤ depth) (op : TreeOp ksize) :
    (∃ (em : List (Nat × BNode ksize)) (rt : List Nat) (ns' : Multiset Nat),
      (op.run cmp a handle depth w).out = .ok (SortedMap.get cmp op.key es) ∧
      Published cmp a handle w ns em rt (op.apply cmp es) ns' (op.commit cmp a handle depth w).final ∧
      Freed a.stack ((landed (op.commit cmp a handle depth w).final.faults rt).map (block ksize))
        (op.commit cmp a handle depth w).final (op.run cmp a handle depth w).final) ∨
    ∃ (e : IoError) (em : List (Nat × BNode ksize)), (op.run cmp a handle depth w).out = .error e ∧
      EnvError a (nodeSize ksize) w e (op.commit cmp a handle depth w).final ∧
      Grown a.stack (blocks em) w (op.commit cmp a handle depth w).final ∧
      Freed a.stack ((landed (op.commit cmp a handle depth w).final.faults (em.map Prod.fst)).map (block ksize))
        (op.commit cmp a handle depth w).final (op.run cmp a handle depth w).final := by
  obtain ⟨hok, herr, -⟩ := TreeOp.commit_spec ht hdepth op w (Grown.refl a.stack w)
  cases hc : op.commit cmp a handle depth w with
  | mk out w₁ cs =>
    rw [hc] at hok herr
    cases out with
    | error e =>
        right
        obtain ⟨he, hg⟩ := herr e rfl
        have hrun : op.run cmp a handle depth w = ⟨.error e, w₁, cs⟩ := Prog.bind_of_error hc
        rw [hrun]
        exact ⟨e, [], rfl, .inl he, hg, Freed.refl a.stack w₁⟩
    | ok r =>
        obtain ⟨out, offs⟩ := r
        have hdone := hok (out, offs) rfl
        cases out with
        | ok v =>
            left
            obtain ⟨rfl, em, ns', hp⟩ := hdone
            obtain ⟨hout, hfreed⟩ := TreeOp.run_of_commit hc hp.frees.1 hp.frees.2
            exact ⟨em, offs, ns', hout, hp, hfreed⟩
        | error e =>
            right
            obtain ⟨he, em, rfl, hg⟩ := hdone
            obtain ⟨hout, hfreed⟩ := TreeOp.run_of_commit hc (frees_of_grown hg).1 (frees_of_grown hg).2
            exact ⟨e, em, hout, he, hg, hfreed⟩

/-! ### Block accounting -/

theorem mem_offs {off : Nat} : off ∈ offs em ↔ ∃ x ∈ em, x.1 = off := by
  rw [offs, Multiset.mem_coe, List.mem_map]

/-- What is emitted is new. -/
theorem not_live_of_emitted (hg : Grown a.stack (blocks em) w₀ w) {x : Nat × BNode ksize} (hx : x ∈ em) :
    block ksize x.1 ∉ (w₀.files a.stack).live := fun hlive => (apart_old hg hx hlive).1 rfl

namespace Published

variable (h : Published cmp a handle w₀ ns em rt es' ns' w)

include h

theorem emitted_fresh {x : Nat × BNode ksize} (hx : x ∈ em) : block ksize x.1 ∉ (w₀.files a.stack).live := by
  have hall := h.live ▸ (w.files a.stack).apart
  exact fun hlive => ((List.pairwise_append.mp hall).2.2 _ (mem_blocks hx) _ hlive).1 rfl

theorem mem_iff {off : Nat} : off ∈ ns' ∨ off ∈ rt ↔ off ∈ offs em ∨ off ∈ ns := by
  rw [← Multiset.mem_coe (l := rt), ← Multiset.mem_add, h.balance, Multiset.mem_add]

theorem not_both {off : Nat} (hoff : off ∈ ns') : off ∉ rt := fun hrt =>
  Multiset.disjoint_left.mp (Multiset.nodup_add.mp h.nodup).2.2 hoff (Multiset.mem_coe.mpr hrt)

theorem emitted_kept {off : Nat} (hoff : off ∈ offs em) : off ∈ ns' := by
  rcases h.mem_iff.mpr (.inl hoff) with hns' | hrt
  · exact hns'
  · obtain ⟨x, hx, rfl⟩ := mem_offs.mp hoff
    exact absurd (h.retired x.1 hrt) (h.emitted_fresh hx)

/-- The replaced nodes are the old nodes that the new tree does not reach. -/
theorem replaced_iff {off : Nat} : off ∈ rt ↔ off ∈ ns ∧ off ∉ ns' := by
  constructor
  · intro hrt
    have hout : off ∉ ns' := fun hns' => h.not_both hns' hrt
    rcases h.mem_iff.mp (.inr hrt) with hem | hns
    · exact absurd (h.emitted_kept hem) hout
    · exact ⟨hns, hout⟩
  · rintro ⟨hns, hout⟩
    exact (h.mem_iff.mpr (.inr hns)).resolve_left hout

theorem live_iff (hns : ∀ x ∈ ns, block ksize x ∈ (w₀.files a.stack).live) {b : Range} :
    b ∈ (w.files a.stack).live ↔ b ∈ (w₀.files a.stack).live ∨ ∃ off ∈ ns', b = block ksize off := by
  rw [h.live, List.mem_append, blocks, List.mem_reverse, List.mem_map]
  constructor
  · rintro (⟨x, hx, rfl⟩ | hold)
    · exact .inr ⟨x.1, h.emitted_kept (mem_offs.mpr ⟨x, hx, rfl⟩), rfl⟩
    · exact .inl hold
  · rintro (hold | ⟨off, hoff, rfl⟩)
    · exact .inr hold
    · rcases h.mem_iff.mp (.inl hoff) with hem | hns'
      · obtain ⟨x, hx, rfl⟩ := mem_offs.mp hem
        exact .inl ⟨x, hx, rfl⟩
      · exact .inr (hns off hns')

end Published

/-- A failed mutation leaves every block that was there as it was. -/
theorem kept_of_failed (hg : Grown a.stack (blocks em) w₀ w) {done : List Nat}
    (hdone : ∀ x ∈ done, x ∈ em.map Prod.fst) (hw : Freed a.stack (done.map (block ksize)) w w₃) :
    ∀ b ∈ (w₀.files a.stack).live, b ∈ (w₃.files a.stack).live ∧ ∀ x, b.start ≤ x → x < b.stop →
      (w₃.files a.stack).bytes x = (w₀.files a.stack).bytes x := by
  intro b hb
  refine ⟨(hw.live b).mpr ⟨hg.mem_live hb, fun hmem => ?_⟩, fun x hx hx' => ?_⟩
  · obtain ⟨off, hoff, rfl⟩ := List.mem_map.mp hmem
    obtain ⟨y, hy, rfl⟩ := List.mem_map.mp (hdone off hoff)
    exact not_live_of_emitted hg hy hb
  · rw [hw.bytes]
    exact hg.bytes b hb x hx hx'

theorem mem_landed {fs : List Bool} {xs : List Nat} {x : Nat} (h : x ∈ landed fs xs) : x ∈ xs :=
  (landed_sublist fs xs).subset h

/-- Block accounting. A mutation that succeeds hands every old node that the new tree does not reach to
`dealloc`, once, and leaves no new node outside the tree; the nodes whose `dealloc` fails are all that
stays behind. A mutation that fails leaves what was there alone and hands exactly its new nodes to
`dealloc`. -/
theorem mutation_accounts_for_blocks [Std.TransCmp cmp] (ht : TreeAt cmp a handle w es ns)
    (hdepth : MAX_TREE_DEPTH ≤ depth) (op : TreeOp ksize) :
    let commit := op.commit cmp a handle depth w
    let run := op.run cmp a handle depth w
    (∃ (ns' : Multiset Nat) (replaced : List Nat),
      run.out = .ok (SortedMap.get cmp op.key es) ∧
      TreeAt cmp a handle run.final (op.apply cmp es) ns' ∧
      replaced.Nodup ∧ (∀ off, off ∈ replaced ↔ off ∈ ns ∧ off ∉ ns') ∧
      run.final.freed = w.freed ++
        (landed commit.final.faults replaced).map (fun off => (a.stack, block ksize off)) ∧
      (∀ b, b ∈ (run.final.files a.stack).live ↔
        (b ∈ (w.files a.stack).live ∨ ∃ off ∈ ns', b = block ksize off) ∧
          ∀ off ∈ landed commit.final.faults replaced, b ≠ block ksize off) ∧
      (true ∉ commit.final.faults → ∀ off, off ∈ ns ∨ off ∈ ns' →
        (block ksize off ∈ (run.final.files a.stack).live ↔ off ∈ ns'))) ∨
    ∃ (e : IoError) (emitted : List Nat),
      run.out = .error e ∧ EnvError a (nodeSize ksize) w e commit.final ∧ TreeAt cmp a handle run.final es ns ∧
      (∀ b ∈ (w.files a.stack).live, b ∈ (run.final.files a.stack).live ∧
        ∀ x, b.start ≤ x → x < b.stop →
          (run.final.files a.stack).bytes x = (w.files a.stack).bytes x) ∧
      emitted.Nodup ∧
      (∀ b, b ∈ (commit.final.files a.stack).live ↔
        b ∈ (w.files a.stack).live ∨ ∃ off ∈ emitted, b = block ksize off) ∧
      (∀ off ∈ emitted, block ksize off ∉ (w.files a.stack).live) ∧
      run.final.freed = w.freed ++
        (landed commit.final.faults emitted).map (fun off => (a.stack, block ksize off)) ∧
      (∀ b, b ∈ (run.final.files a.stack).live ↔
        b ∈ (w.files a.stack).live ∨ ∃ off ∈ emitted, off ∉ landed commit.final.faults emitted ∧
          b = block ksize off) := by
  intro commit run
  have hinj : Function.Injective (block ksize) := fun x y h => congrArg Range.start h
  have hold : ∀ x ∈ ns, block ksize x ∈ (w.files a.stack).live := fun x hx => (ht.live x hx).2
  rcases TreeOp.run_cases ht hdepth op with ⟨em, rt, ns', hout, hp, hw⟩ | ⟨e, em, hout, he, hg, hw⟩
  · left
    have hlive : ∀ b, b ∈ (run.final.files a.stack).live ↔
        (b ∈ (w.files a.stack).live ∨ ∃ off ∈ ns', b = block ksize off) ∧
          ∀ off ∈ landed commit.final.faults rt, b ≠ block ksize off := by
      intro b
      rw [hw.live, hp.live_iff hold, List.mem_map]
      simp only [not_exists, not_and, ne_eq, eq_comm (a := b)]
      rfl
    refine ⟨ns', rt, hout, hp.tree _ _ (fun x hx => mem_landed hx) hw, hp.frees.1, fun off => hp.replaced_iff,
      ?_, hlive, fun hquiet off hoff => ?_⟩
    · rw [hw.freed, hp.freed, List.map_map]
      rfl
    · rw [hlive, landed_all hquiet]
      constructor
      · rintro ⟨-, hkept⟩
        by_contra hout
        exact hkept off (hp.replaced_iff.mpr ⟨hoff.resolve_right hout, hout⟩) rfl
      · intro hns'
        refine ⟨.inr ⟨off, hns', rfl⟩, fun off' hoff' heq => ?_⟩
        obtain rfl := hinj heq
        exact hp.not_both hns' hoff'
  · right
    have hkept := kept_of_failed hg (fun x hx => mem_landed hx) hw
    have hcommit : ∀ b, b ∈ (commit.final.files a.stack).live ↔
        b ∈ (w.files a.stack).live ∨ ∃ off ∈ em.map Prod.fst, b = block ksize off := by
      intro b
      rw [hg.live, List.mem_append, blocks, List.mem_reverse, List.mem_map, or_comm]
      simp only [List.mem_map, exists_exists_and_eq_and, eq_comm (a := b)]
    have hfresh : ∀ off ∈ em.map Prod.fst, block ksize off ∉ (w.files a.stack).live := by
      intro off hoff
      obtain ⟨x, hx, rfl⟩ := List.mem_map.mp hoff
      exact not_live_of_emitted hg hx
    refine ⟨e, em.map Prod.fst, hout, he, ht.frame fun r hr _ => hkept r hr, hkept, (frees_of_grown hg).1, hcommit,
      hfresh, ?_, fun b => ?_⟩
    · rw [hw.freed, hg.freed, List.map_map]
      rfl
    · rw [hw.live, hcommit, List.mem_map]
      constructor
      · rintro ⟨hb | ⟨off, hoff, rfl⟩, hnot⟩
        · exact .inl hb
        · exact .inr ⟨off, hoff, fun hland => hnot ⟨off, hland, rfl⟩, rfl⟩
      · rintro (hb | ⟨off, hoff, hland, rfl⟩)
        · refine ⟨.inl hb, ?_⟩
          rintro ⟨off, hoff, rfl⟩
          exact hfresh off (mem_landed hoff) hb
        · refine ⟨.inr ⟨off, hoff, rfl⟩, ?_⟩
          rintro ⟨off', hoff', heq⟩
          obtain rfl := hinj heq
          exact hland hoff'

/-! ### Histories -/

def newImage (tag : UInt64) : List UInt8 :=
  leBytes 8 TREE_SIZE ++ leBytes 8 tag.toNat ++ leBytes 8 0 ++ leBytes 8 0

theorem length_newImage (tag : UInt64) : (newImage tag).length = TREE_SIZE := by
  simp [newImage, TREE_SIZE, HEADER_SIZE]

theorem word_newImage (m : Mem) (off : Nat) (tag : UInt64) {i : Nat} (hi : i = ROOT_OFF ∨ i = LEN_OFF) :
    (m.write off (newImage tag)).word (off + i) = 0 := by
  have hzero : leNat (leBytes 8 0) = 0 := leNat_leBytes (by decide)
  have hin : i + 8 ≤ (newImage tag).length := by
    rw [length_newImage]
    rcases hi with rfl | rfl <;> decide
  have hwindow : ((newImage tag).drop i).take 8 = leBytes 8 0 := by
    rcases hi with rfl | rfl
    · simp [newImage, ROOT_OFF, HEADER_SIZE, List.drop_append]
    · simp [newImage, LEN_OFF, HEADER_SIZE, List.drop_append]
  rw [Mem.word, Mem.read_write_window _ _ _ hin, hwindow, hzero]

theorem new_spec (tag : UInt64) : Prog.Spec (Grown a.stack [] w₀) (new a tag)
    (fun r w => r.len = TREE_SIZE ∧
      ∃ w₁, Grown a.stack [r] w₀ w₁ ∧ w = w₁.store a.stack r.start (newImage tag))
    (fun _ _ => True) fun _ => True := by
  change Prog.Spec _ (alloc a (newImage tag).length >>= _) _ _ _
  apply ((alloc_grown _ fun _ _ => trivial).weaken (fun _ h => h) (fun _ _ h => h) (fun _ _ _ => trivial)
    fun _ h => h).bind
  intro b
  apply Prog.Spec.given
  intro hlen
  have hin : ∀ w, Grown a.stack [b] w₀ w → b.start + (newImage tag).length ≤ (w.files a.stack).len := by
    intro w hw
    have hmem : b ∈ (w.files a.stack).live := by
      rw [hw.live]
      exact List.mem_cons_self
    rw [← hlen]
    exact ((w.files a.stack).inside b hmem).2
  refine Prog.Spec.bind (Q := fun (r : Except IoError Unit) w => r = .ok () →
    ∃ w₁, Grown a.stack [b] w₀ w₁ ∧ w = w₁.store a.stack b.start (newImage tag)) ?_ ?_
  · apply Prog.Spec.attempt
    apply set_rule (fun w hw => hin w hw.2.2) (fun w hw _ => ⟨w.tick, hw.2.2.tick, rfl⟩)
    · rintro w - - ⟨⟩
    · exact fun _ _ => trivial
  · rintro (e | ⟨⟨⟩⟩)
    · apply Prog.Spec.bind (Q := fun _ _ => True)
      · exact fun w _ => ⟨fun _ _ => trivial, fun _ _ => trivial, fun _ _ => trivial⟩
      · exact fun _ => Prog.Spec.fail fun _ _ => trivial
    · exact Prog.Spec.pure fun w hw => ⟨hlen.trans (length_newImage tag), hw rfl⟩

theorem new_holds (cmp : Key ksize → Key ksize → Ordering) {tag : UInt64} {r : Range}
    (hnew : (new a tag w).out = .ok r) : TreeAt cmp a r.start (new a tag w).final [] 0 := by
  obtain ⟨hlen, w₁, hg, hw⟩ := (new_spec tag w (Grown.refl a.stack w)).1 r hnew
  have hmem : r ∈ (w₁.files a.stack).live := by
    rw [hg.live]
    exact List.mem_cons_self
  rw [hw]
  refine ⟨?_, .inl ⟨?_, rfl, rfl⟩, ?_, List.Pairwise.nil, Multiset.nodup_zero⟩
  · rw [World.live_store, ← hlen]
    exact hmem
  · rw [World.files_store_same, File.bytes_write]
    exact word_newImage _ _ tag (.inl rfl)
  · rw [World.files_store_same, File.bytes_write]
    exact word_newImage _ _ tag (.inr rfl)

/-! ### Histories -/

section Histories

variable (cmp a handle)

/-- From `w` to `w'`, the handle and the nodes of the map are left alone. -/
def Untouched (w w' : World) : Prop := ∀ (es : List (Entry ksize)) (ns : Multiset Nat),
  TreeAt cmp a handle w es ns → ∀ r ∈ (w.files a.stack).live,
    (r = ⟨handle, TREE_SIZE⟩ ∨ ∃ x ∈ ns, r = block ksize x) →
      r ∈ (w'.files a.stack).live ∧ ∀ x, r.start ≤ x → x < r.stop →
        (w'.files a.stack).bytes x = (w.files a.stack).bytes x

/-- The life of a map: it is made, mutated any number of times, and other code runs in between. The list
is the sorted map that the mutations that succeeded build. -/
inductive History (depth : Nat) : World → List (Entry ksize) → Prop
  | new {w : World} {tag : UInt64} {r : Range} (hnew : (new a tag w).out = .ok r) (hr : r.start = handle) :
      History depth (new a tag w).final []
  | done {w : World} {es : List (Entry ksize)} {v : Option UInt64} (op : TreeOp ksize)
      (h : History depth w es) (hrun : (op.run cmp a handle depth w).out = .ok v) :
      History depth (op.run cmp a handle depth w).final (op.apply cmp es)
  | failed {w : World} {es : List (Entry ksize)} {e : IoError} (op : TreeOp ksize)
      (h : History depth w es) (hrun : (op.run cmp a handle depth w).out = .error e) :
      History depth (op.run cmp a handle depth w).final es
  | elsewhere {w w' : World} {es : List (Entry ksize)} (h : History depth w es)
      (hkeep : Untouched cmp a handle w w') : History depth w' es

end Histories

/-- In every state of its life the map is a B-tree of its entries. -/
theorem History.holds [Std.TransCmp cmp] (hdepth : MAX_TREE_DEPTH ≤ depth)
    (h : History cmp a handle depth w es) : ∃ ns, TreeAt cmp a handle w es ns := by
  induction h with
  | new hnew hr => exact ⟨0, hr ▸ new_holds cmp hnew⟩
  | done op _ hrun ih =>
      obtain ⟨ns, ht⟩ := ih
      rcases TreeOp.run_cases ht hdepth op with ⟨em, rt, ns', -, hp, hw⟩ | ⟨e, em, hout, -⟩
      · exact ⟨ns', hp.tree _ _ (fun x hx => mem_landed hx) hw⟩
      · rw [hrun] at hout
        cases hout
  | failed op _ hrun ih =>
      obtain ⟨ns, ht⟩ := ih
      rcases TreeOp.run_cases ht hdepth op with ⟨em, rt, ns', hout, -⟩ | ⟨e, em, -, -, hg, hw⟩
      · rw [hrun] at hout
        cases hout
      · exact ⟨ns, ht.frame fun r hr _ => kept_of_failed hg (fun x hx => mem_landed hx) hw r hr⟩
  | elsewhere _ hkeep ih =>
      obtain ⟨ns, ht⟩ := ih
      exact ⟨ns, ht.frame (hkeep _ ns ht)⟩

/-- A call that allocates nothing returns `v`, unless an I/O step fails. -/
def Answers {α : Type} (w : World) (out : Except IoError α) (v : α) : Prop :=
  out = .ok v ∨ ∃ e, out = .error e ∧ IoFailed w e

theorem answers_of_spec {α : Type} {c : Io α} {v : α} {k : Nat} {C : World → Prop}
    (h : Prog.Spec (Grown k [] w) c (fun x w' => x = v ∧ Grown k [] w w')
      (fun e w' => IoFailed w e ∧ Grown k [] w w') C) : Answers w (c w).out v := by
  obtain ⟨hok, herr, -⟩ := h w (Grown.refl k w)
  cases hout : (c w).out with
  | ok x => exact .inl (by rw [(hok x hout).1])
  | error e => exact .inr ⟨e, rfl, (herr e hout).1⟩

theorem Answers.quiet {α : Type} {out : Except IoError α} {v : α} (h : Answers w out v) (hq : w.Quiet) :
    out = .ok v := by
  rcases h with hout | ⟨e, -, -, hno⟩
  · exact hout
  · exact absurd hq hno

/-- Refinement. In every state of its life the map is a valid B-tree of the entries of the reference map,
lookups agree with that map, and the next mutation returns what the map held, unless an I/O step fails or
the allocator finds no place for one of its nodes. -/
theorem map_refines_sorted_map [Std.TransCmp cmp] (hdepth : MAX_TREE_DEPTH ≤ depth)
    (h : History cmp a handle depth w es) :
    (∃ ns, TreeAt cmp a handle w es ns) ∧
    (∀ key, Answers w (get cmp a handle key w).out (SortedMap.get cmp key es)) ∧
    Answers w (first a handle w).out es.head? ∧ Answers w (last a handle w).out es.getLast? ∧
    Answers w (toVec a handle w).out es ∧
    ∀ op : TreeOp ksize, (op.run cmp a handle depth w).out = .ok (SortedMap.get cmp op.key es) ∨
      ∃ e, (op.run cmp a handle depth w).out = .error e ∧
        EnvError a (nodeSize ksize) w e (op.commit cmp a handle depth w).final := by
  obtain ⟨ns, ht⟩ := h.holds hdepth
  refine ⟨⟨ns, ht⟩, fun key => answers_of_spec (get_spec (C := fun _ => True) ht key),
    answers_of_spec (extreme_spec (C := fun _ => True) ht true),
    answers_of_spec (extreme_spec (C := fun _ => True) ht false),
    answers_of_spec (toVec_spec (C := fun _ => True) ht), fun op => ?_⟩
  rcases TreeOp.run_cases ht hdepth op with ⟨_, _, _, hout, -⟩ | ⟨e, _, hout, he, -⟩
  · exact .inl hout
  · exact .inr ⟨e, hout, he⟩

/-! ### A run -/

section Example

def byteCmp : Key 1 → Key 1 → Ordering := compareOn fun k => (k.val.headD 0).toNat

instance : Std.TransCmp byteCmp := inferInstanceAs (Std.TransCmp (compareOn _))

def byteKey (b : UInt8) : Key 1 := ⟨[b], rfl⟩

def oneAllocator : Allocator := ⟨0, true, none, 0⟩

/-- An empty map at 16, and the places for its nodes. -/
def mapWith (picks : List Nat) : World := (new oneAllocator 7 (World.blank (16 :: picks))).final

theorem mapWith_new (picks : List Nat) : History byteCmp oneAllocator 16 64 (mapWith picks) [] :=
  @History.new _ _ _ _ _ _ 7 ⟨16, 32⟩ rfl rfl

def ran : List (TreeOp 1) → World → Option World
  | [], w => some w
  | op :: ops, w =>
      let r := op.run byteCmp oneAllocator 16 64 w
      if r.out.toOption.isSome then ran ops r.final else none

theorem ran_history {ops : List (TreeOp 1)} {w w' : World} {es : List (Entry 1)}
    (h : History byteCmp oneAllocator 16 64 w es) (hran : ran ops w = some w') :
    History byteCmp oneAllocator 16 64 w' (ops.foldl (fun es op => op.apply byteCmp es) es) := by
  induction ops generalizing w es with
  | nil =>
      cases hran
      exact h
  | cons op ops ih =>
      rw [ran] at hran
      cases hout : (op.run byteCmp oneAllocator 16 64 w).out with
      | ok v =>
          rw [hout] at hran
          exact ih (.done op h hout) hran
      | error e =>
          rw [hout] at hran
          cases hran

/-- Seventeen insertions in order: one more than a root can be without a split, and the first key anew. -/
def splitting : List (TreeOp 1) :=
  (List.range 16).map (fun i => .insert (byteKey i.toUInt8) i.toUInt64) ++ [.insert (byteKey 0) 20]

/-- A map whose root was split. -/
def splitMap : World := (ran splitting (mapWith ((List.range 40).map fun i => 1000 * (i + 1)))).getD (World.blank [])

theorem splitMap_history : History byteCmp oneAllocator 16 64 splitMap
    (splitting.foldl (fun es op => op.apply byteCmp es) []) := by
  apply ran_history (mapWith_new _)
  have hsome : (ran splitting (mapWith ((List.range 40).map fun i => 1000 * (i + 1)))).isSome = true := by
    decide +kernel
  obtain ⟨w, hw⟩ := Option.isSome_iff_exists.mp hsome
  rw [splitMap, hw]
  rfl

theorem map_refines_sorted_map_split : splitMap.Quiet ∧
    (get byteCmp oneAllocator 16 (byteKey 0) splitMap).out = .ok (some 20) ∧
    (get byteCmp oneAllocator 16 (byteKey 99) splitMap).out = .ok none ∧
    (first oneAllocator 16 splitMap).out = .ok (some (byteKey 0, 20)) ∧
    ((TreeOp.remove (byteKey 7)).run byteCmp oneAllocator 16 64 splitMap).out = .ok (some 7) := by
  have hquiet : splitMap.Quiet := by decide +kernel
  obtain ⟨-, hget, hfirst, -, -, hop⟩ := map_refines_sorted_map (by decide) splitMap_history
  refine ⟨hquiet, ?_, ?_, ?_, ?_⟩
  · exact (hget (byteKey 0)).quiet hquiet
  · exact (hget (byteKey 99)).quiet hquiet
  · exact hfirst.quiet hquiet
  · rcases hop (.remove (byteKey 7)) with hout | ⟨e, hout, -⟩
    · exact hout
    · have hok : ((TreeOp.remove (byteKey 7)).run byteCmp oneAllocator 16 64 splitMap).out.toOption.isSome = true := by
        decide +kernel
      rw [hout] at hok
      cases hok

/-- A map of one entry, and the `dealloc` of its next mutation fails. -/
def leakyMap : World :=
  { ((TreeOp.insert (byteKey 5) 1).run byteCmp oneAllocator 16 64 (mapWith [1000, 2000])).final with
    faults := [false, false, false, false, true] }

/-- A tree of one node. -/
theorem TreeAt.leaf {off : Nat} {e : Entry ksize} (hheader : (⟨handle, TREE_SIZE⟩ : Range) ∈ (w.files a.stack).live)
    (hroot : (w.files a.stack).bytes.word (handle + ROOT_OFF) = off) (haddr : Addr off)
    (hnode : nodeAt ksize a w off = some ⟨true, [e], []⟩)
    (hlen : (w.files a.stack).bytes.word (handle + LEN_OFF) = 1) : TreeAt cmp a handle w [e] {off} where
  header := hheader
  tree := by
    rw [hroot]
    exact .inr ⟨0, ⟨true, [e], []⟩, 0, hnode, haddr, Nat.le_refl 1, by simp [MAXKEYS, T], ⟨rfl, rfl, rfl, rfl⟩, rfl⟩
  len := hlen
  sorted := List.pairwise_singleton _ _
  nodup := Multiset.nodup_singleton off

theorem leakyMap_holds : TreeAt byteCmp oneAllocator 16 leakyMap [(byteKey 5, 1)] {1000} :=
  .leaf (by decide +kernel) (by decide +kernel) ⟨by decide, by decide⟩ (by decide +kernel) (by decide +kernel)

def leakyOp : TreeOp 1 := .insert (byteKey 5) 2

theorem leakyOp_holds : TreeAt byteCmp oneAllocator 16 (leakyOp.run byteCmp oneAllocator 16 64 leakyMap).final
    [(byteKey 5, 2)] {2000} :=
  .leaf (by decide +kernel) (by decide +kernel) ⟨by decide, by decide⟩ (by decide +kernel) (by decide +kernel)

theorem leakyOp_out : (leakyOp.run byteCmp oneAllocator 16 64 leakyMap).out = .ok (some 1) := by decide +kernel

theorem mutation_accounts_for_blocks_once :
    ∃ ns', TreeAt byteCmp oneAllocator 16 (leakyOp.run byteCmp oneAllocator 16 64 leakyMap).final
      (leakyOp.apply byteCmp [(byteKey 5, 1)]) ns' := by
  rcases mutation_accounts_for_blocks leakyMap_holds (by decide : MAX_TREE_DEPTH ≤ 64) leakyOp with
    ⟨ns', _, -, ht, -⟩ | ⟨e, _, hout, -⟩
  · exact ⟨ns', ht⟩
  · rw [leakyOp_out] at hout
    cases hout

/-- A node that was replaced stays allocated when its `dealloc` fails. -/
theorem failed_free_leaks : ¬ ∀ (w : World) (es es' : List (Entry 1)) (ns ns' : Multiset Nat) (op : TreeOp 1)
    (v : Option UInt64), TreeAt byteCmp oneAllocator 16 w es ns →
    (op.run byteCmp oneAllocator 16 64 w).out = .ok v →
    TreeAt byteCmp oneAllocator 16 (op.run byteCmp oneAllocator 16 64 w).final es' ns' →
    ∀ off ∈ ns, block 1 off ∈ ((op.run byteCmp oneAllocator 16 64 w).final.files 0).live → off ∈ ns' := by
  intro h
  have hmem := h leakyMap _ _ {1000} {2000} leakyOp (some 1) leakyMap_holds leakyOp_out leakyOp_holds 1000
    (Multiset.mem_singleton_self 1000) (by decide +kernel)
  exact absurd (Multiset.mem_singleton.mp hmem) (by decide)

end Example

end BStackBTreeMap

end BStackRaii
