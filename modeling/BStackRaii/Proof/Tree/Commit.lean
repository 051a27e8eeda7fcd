import BStackRaii.Proof.Tree.Disk
import Mathlib.Data.Multiset.Range
/-!
# Commits and frees

A commit writes the new nodes and the header fields in one step, or leaves what it allocated for the
caller to free. Frees may fail one by one, and the source goes on.
-/

namespace BStackRaii

namespace BStackBTreeMap

variable {ksize : Nat} {a : Allocator} {w w₀ w₁ w₂ w₃ : World}

def writesOf (em : List (Nat × BNode ksize)) : List (Nat × List UInt8) := em.map fun x => (x.1, image x.2)

theorem length_image (nb : BNode ksize) : (image nb).length = nodeSize ksize := Mem.length_read ..

theorem mem_blocks {em : List (Nat × BNode ksize)} {x : Nat × BNode ksize} (hx : x ∈ em) :
    block ksize x.1 ∈ blocks em := List.mem_reverse.mpr (List.mem_map_of_mem hx)

theorem commit_spec {β : Type} {plan : NodePlan ksize β}
    {Q : List (Nat × BNode ksize) → List Nat → β → Prop}
    (hp : plan.Ensures (store (nodeAt ksize a w₀)) Q) (fields : β → List (Nat × List UInt8))
    (hfields : ∀ b, ∀ x ∈ fields b, x.1 + x.2.length ≤ (w₀.files a.stack).len) :
    Prog.Spec (Grown a.stack [] w₀) (commit a plan fields)
      (fun r w => match r.1 with
        | .ok b => ∃ em rt w₁, Q em rt b ∧ (∀ x ∈ em, Addr x.1 ∧ Fits x.2) ∧
            (∀ off ∈ rt, ∃ nb, nodeAt ksize a w₀ off = some nb) ∧ r.2 = rt ∧
            Grown a.stack (blocks em) w₀ w₁ ∧ w = World.storeAll a.stack (writesOf em ++ fields b) w₁
        | .error e => EnvError a (nodeSize ksize) w₀ e w ∧ ∃ em : List (Nat × BNode ksize), r.2 = em.map Prod.fst ∧
            Grown a.stack (blocks em) w₀ w)
      (fun _ _ => False) (fun w => ∃ rs, Grown a.stack rs w₀ w) := by
  have hrun := Plan.run_spec (serves ksize a w₀) hp.sound [] []
  simp only [List.nil_append] at hrun
  have hbuilt : Prog.Spec (Grown a.stack [] w₀) (Prog.withFst Build.start (plan.run (nodes ksize a)))
      (fun r => Prog.Either
        (fun b w => ∃ em rt, (r.2 = ⟨writesOf em, rt⟩ ∧ Q em rt b ∧ (∀ x ∈ em, Addr x.1 ∧ Fits x.2) ∧
            ∀ off ∈ rt, ∃ nb, nodeAt ksize a w₀ off = some nb) ∧ Grown a.stack (blocks em) w₀ w)
        (fun e w => EnvError a (nodeSize ksize) w₀ e w ∧ ∃ (em : List (Nat × BNode ksize)) (rt : List Nat),
            r.2 = ⟨writesOf em, rt⟩ ∧ Grown a.stack (blocks em) w₀ w) r.1)
      (fun _ _ => False) fun w => ∃ rs, Grown a.stack rs w₀ w := by
    apply Prog.Spec.withFst
    apply hrun.weaken
    · rintro ⟨build, w⟩ ⟨rfl, hw⟩
      exact ⟨rfl, hw⟩
    · rintro b ⟨build, w⟩ ⟨em, rt, ⟨hbuild, hw⟩, hq⟩
      exact ⟨em, rt, ⟨hbuild, hq⟩, hw⟩
    · rintro e ⟨build, w⟩ ⟨he, em, rt, hbuild, hw⟩
      exact ⟨he, em, rt, hbuild, hw⟩
    · exact fun _ hs => hs
  unfold commit
  apply hbuilt.bind
  rintro ⟨built, build⟩
  cases built with
  | error e =>
      apply Prog.Spec.pure
      rintro w ⟨he, em, rt, hbuild, hw⟩
      simp only at hbuild
      exact ⟨he, em, by simp [hbuild, writesOf], hw⟩
  | ok b =>
      apply Prog.Spec.exists
      intro em
      apply Prog.Spec.exists
      intro rt
      have hbounds : ∀ w, Grown a.stack (blocks em) w₀ w → ∀ x ∈ writesOf em ++ fields b,
          x.1 + x.2.length ≤ (w.files a.stack).len := by
        intro w hw x hx
        rcases List.mem_append.mp hx with hx | hx
        · obtain ⟨y, hy, rfl⟩ := List.mem_map.mp hx
          have hlive : block ksize y.1 ∈ (w.files a.stack).live := by
            rw [hw.live]
            exact List.mem_append_left _ (mem_blocks hy)
          simp only [length_image]
          exact ((w.files a.stack).inside _ hlive).2
        · exact (hfields b x hx).trans hw.len
      apply Prog.Spec.given
      rintro ⟨hbuild, hq, hem, hrt⟩
      simp only at hbuild
      subst hbuild
      refine Prog.Spec.bind (Q := Prog.Either
        (fun (_ : Unit) w => ∃ w₁, Grown a.stack (blocks em) w₀ w₁ ∧
            w = World.storeAll a.stack (writesOf em ++ fields b) w₁)
        fun e w => IoFailed w₀ e ∧ Grown a.stack (blocks em) w₀ w) ?_ ?_
      · exact Prog.Spec.attempt (setBatched_rule hbounds (fun w hw => ⟨w.tick, hw.tick, rfl⟩)
          (fun _ hw hf => ⟨hw.fault hf, hw.tick⟩) fun w hw => ⟨_, hw⟩)
      · rintro (e | ⟨⟨⟩⟩)
        · apply Prog.Spec.pure
          rintro w ⟨he, hw⟩
          exact ⟨.inl he, em, by simp [writesOf], hw⟩
        · apply Prog.Spec.pure
          rintro w ⟨w₁, hw₁, hw⟩
          exact ⟨em, rt, w₁, hq, hem, hrt, rfl, hw₁, hw⟩

/-! ### Trees on disk -/

section TreeAt

variable {cmp : Key ksize → Key ksize → Ordering} {handle : Nat} {es : List (Entry ksize)}
  {ns : Multiset Nat}

/-- Where the nodes of a file are. -/
def OnDisk (ksize : Nat) (a : Allocator) (w : World) : Place ksize := fun off nb => nodeAt ksize a w off = some nb

/-- The map with handle `handle` is a B-tree: it holds the entries `es`, strictly increasing under
`cmp`, in the nodes `ns`. -/
structure TreeAt (cmp : Key ksize → Key ksize → Ordering) (a : Allocator) (handle : Nat) (w : World)
    (es : List (Entry ksize)) (ns : Multiset Nat) : Prop where
  header : (⟨handle, TREE_SIZE⟩ : Range) ∈ (w.files a.stack).live
  tree : Holds (OnDisk ksize a w) ((w.files a.stack).bytes.word (handle + ROOT_OFF)) es ns
  len : (w.files a.stack).bytes.word (handle + LEN_OFF) = es.length
  sorted : SortedMap.Sorted cmp es
  nodup : ns.Nodup

theorem later_nil_eq : Later (nodeAt ksize a w) [] = OnDisk ksize a w := by
  funext off nb
  exact propext later_nil

theorem Holds.forall_mem {At : Place ksize} {root : Nat} (h : Holds At root es ns) :
    ∀ x ∈ ns, Addr x ∧ ∃ nb, At x nb := by
  rcases h with ⟨-, -, rfl⟩ | ⟨_, hs⟩
  · simp
  · exact hs.forall_mem

theorem Holds.mono {At At' : Place ksize} {root : Nat} (h : Holds At root es ns)
    (hAt : ∀ off nb, off ∈ ns → At off nb → At' off nb) : Holds At' root es ns :=
  h.imp_right fun ⟨height, hs⟩ => ⟨height, hs.mono hAt⟩

theorem Holds.root_lt {At : Place ksize} {root : Nat} (h : Holds At root es ns) : root < 2 ^ 64 := by
  rcases h with ⟨rfl, -, -⟩ | ⟨_, _, _, _, haddr, _⟩
  · decide
  · exact haddr.2

theorem OnDisk.live {off : Nat} {nb : BNode ksize} (h : OnDisk ksize a w off nb) :
    block ksize off ∈ (w.files a.stack).live := (nodeAt_eq_some.mp h).1

theorem OnDisk.keep {off : Nat} {nb : BNode ksize} (h : OnDisk ksize a w off nb)
    (hlive : block ksize off ∈ (w₁.files a.stack).live)
    (hbytes : ∀ x, off ≤ x → x < off + nodeSize ksize →
      (w₁.files a.stack).bytes x = (w.files a.stack).bytes x) : OnDisk ksize a w₁ off nb := by
  obtain ⟨-, hd⟩ := nodeAt_eq_some.mp h
  exact nodeAt_eq_some.mpr ⟨hlive, by rw [Mem.read_congr hbytes]; exact hd⟩

theorem card_nodes (hns : ns.Nodup) (hlive : ∀ x ∈ ns, Addr x ∧ block ksize x ∈ (w.files a.stack).live) :
    ns.card ≤ 2 ^ 64 / 280 + 1 := by
  have hsize : 280 ≤ nodeSize ksize := by
    simp only [nodeSize, childrenOff, valsOff, KEYS_OFF, HEADER_SIZE, MAXKEYS, MAXCHILDREN, T]
    omega
  -- two nodes are at least 280 bytes apart
  have hinj : Set.InjOn (· / 280) {x | x ∈ ns} := by
    intro x hx y hy hxy
    by_contra hne
    have hblocks : block ksize x ≠ block ksize y := fun h => hne (congrArg Range.start h)
    have hapart := (apart_of_mem (w.files a.stack).apart (hlive x hx).2 (hlive y hy).2 hblocks).2
    simp only [block, Range.stop] at hapart hxy
    omega
  have hnodup : (ns.map (· / 280)).Nodup := Multiset.Nodup.map_on (fun x hx y hy => hinj hx hy) hns
  have hsub : ns.map (· / 280) ⊆ Multiset.range (2 ^ 64 / 280 + 1) := by
    intro y hy
    obtain ⟨x, hx, rfl⟩ := Multiset.mem_map.mp hy
    have haddr := (hlive x hx).1.2
    simp only [Multiset.mem_range]
    omega
  have hcard := Multiset.card_le_card ((Multiset.le_iff_subset hnodup).mpr hsub)
  simpa only [Multiset.card_map, Multiset.card_range] using hcard

theorem Holds.height_lt {At : Place ksize} {root h : Nat} (hs : Sub At 1 h root es ns)
    (hcard : ns.card ≤ 2 ^ 64 / 280 + 1) : h < MAX_TREE_DEPTH := by
  cases h with
  | zero => decide
  | succ h =>
      obtain ⟨nb, ms, -, -, hlo, -, hb, rfl⟩ := hs
      obtain ⟨-, hrow⟩ := body_succ.mp hb
      have hrows := hrow.card_le fun c es ms hc => Sub.pow_le hc
      rw [Multiset.card_cons] at hcard
      -- `8 ^ 19` nodes do not fit
      by_contra hdeep
      have hpow : 8 ^ 19 ≤ T ^ h := Nat.pow_le_pow_right (by decide) (by
        simp only [MAX_TREE_DEPTH] at hdeep
        omega)
      have hone : T ^ h ≤ nb.children.length * T ^ h :=
        Nat.le_mul_of_pos_left _ (by rw [hrow.length_eq]; exact Nat.succ_pos _)
      have hbig : (2 : Nat) ^ 64 / 280 + 1 < 8 ^ 19 := by decide
      omega

theorem Holds.length_lt {At : Place ksize} {root : Nat} (ht : Holds At root es ns)
    (hcard : ns.card ≤ 2 ^ 64 / 280 + 1) : es.length < 2 ^ 64 := by
  rcases ht with ⟨-, rfl, -⟩ | ⟨_, hs⟩
  · simp
  · have hlen := hs.length_le
    have hbound : MAXKEYS * (2 ^ 64 / 280 + 1) < 2 ^ 64 := by decide
    exact Nat.lt_of_le_of_lt (hlen.trans (Nat.mul_le_mul_left _ hcard)) hbound

namespace TreeAt

theorem live (ht : TreeAt cmp a handle w es ns) :
    ∀ x ∈ ns, Addr x ∧ block ksize x ∈ (w.files a.stack).live := by
  intro x hx
  obtain ⟨haddr, nb, hnb⟩ := ht.tree.forall_mem x hx
  exact ⟨haddr, hnb.live⟩

/-- No node is as deep as the structural bound. -/
theorem height_lt (ht : TreeAt cmp a handle w es ns) {h root : Nat}
    (hs : Sub (OnDisk ksize a w) 1 h root es ns) : h < MAX_TREE_DEPTH :=
  Holds.height_lt hs (card_nodes ht.nodup ht.live)

theorem frame (ht : TreeAt cmp a handle w es ns)
    (hkeep : ∀ r ∈ (w.files a.stack).live, (r = ⟨handle, TREE_SIZE⟩ ∨ ∃ x ∈ ns, r = block ksize x) →
      r ∈ (w₁.files a.stack).live ∧ ∀ x, r.start ≤ x → x < r.stop →
        (w₁.files a.stack).bytes x = (w.files a.stack).bytes x) :
    TreeAt cmp a handle w₁ es ns := by
  obtain ⟨hheader, hbytes⟩ := hkeep _ ht.header (.inl rfl)
  have hword : ∀ off, handle ≤ off → off + 8 ≤ handle + TREE_SIZE →
      (w₁.files a.stack).bytes.word off = (w.files a.stack).bytes.word off := by
    intro off hlo hhi
    refine Mem.word_congr fun x hx hx' => hbytes x (hlo.trans hx) ?_
    simp only [Range.stop]
    omega
  refine ⟨hheader, ?_, ?_, ht.sorted, ht.nodup⟩
  · rw [hword _ (Nat.le_add_right _ _) (by simp only [ROOT_OFF, TREE_SIZE]; omega)]
    refine ht.tree.mono fun off nb hoff hnb => ?_
    obtain ⟨hlive, hnode⟩ := hkeep _ hnb.live (.inr ⟨off, hoff, rfl⟩)
    exact OnDisk.keep hnb hlive hnode
  · rw [hword _ (Nat.le_add_right _ _) (by simp only [LEN_OFF, TREE_SIZE]; omega)]
    exact ht.len

end TreeAt

/-! ### The state after a commit -/

section Committed

variable {em : List (Nat × BNode ksize)} {fs : List (Nat × List UInt8)} {rt done : List Nat}
  {ns' : Multiset Nat} {es' : List (Entry ksize)} {root' : Nat}

theorem apart_new (hg : Grown a.stack (blocks em) w₀ w₁) :
    em.Pairwise fun x y => (block ksize x.1).Apart (block ksize y.1) := by
  have hall := hg.live ▸ (w₁.files a.stack).apart
  have hrev := List.pairwise_reverse.mp (List.pairwise_append.mp hall).1
  exact (List.pairwise_map.mp hrev).imp Range.Apart.symm

theorem apart_old (hg : Grown a.stack (blocks em) w₀ w₁) {x : Nat × BNode ksize} (hx : x ∈ em)
    {r : Range} (hr : r ∈ (w₀.files a.stack).live) : (block ksize x.1).Apart r := by
  have hall := hg.live ▸ (w₁.files a.stack).apart
  exact (List.pairwise_append.mp hall).2.2 _ (mem_blocks hx) r hr

theorem block_ne_header (off handle : Nat) : block ksize off ≠ ⟨handle, TREE_SIZE⟩ := by
  intro h
  have hlen := congrArg Range.len h
  simp only [block, nodeSize, childrenOff, valsOff, KEYS_OFF, TREE_SIZE, HEADER_SIZE, MAXKEYS, MAXCHILDREN,
    T] at hlen
  omega

/-- No node is emitted twice, and none over a node that was there. -/
theorem nodup_offs (hg : Grown a.stack (blocks em) w₀ w₁) (hns : ns.Nodup)
    (hlive : ∀ x ∈ ns, block ksize x ∈ (w₀.files a.stack).live) : (offs em + ns).Nodup := by
  refine Multiset.nodup_add.mpr ⟨?_, hns, ?_⟩
  · refine Multiset.coe_nodup.mpr (List.pairwise_map.mpr ((apart_new hg).imp fun h => ?_))
    exact fun heq => h.1 (congrArg (block ksize) heq)
  · refine Multiset.disjoint_left.mpr fun hoff hold => ?_
    obtain ⟨x, hx, rfl⟩ := List.mem_map.mp (Multiset.mem_coe.mp hoff)
    exact (apart_old hg hx (hlive x.1 hold)).1 rfl

theorem writes_clear (hg : Grown a.stack (blocks em) w₀ w₁)
    (hheader : (⟨handle, TREE_SIZE⟩ : Range) ∈ (w₀.files a.stack).live)
    (hfs : ∀ x ∈ fs, handle ≤ x.1 ∧ x.1 + x.2.length ≤ handle + TREE_SIZE)
    (hclear : fs.Pairwise fun x y => Mem.Clear x.1 x.2.length y) :
    (writesOf em ++ fs).Pairwise fun x y => Mem.Clear x.1 x.2.length y := by
  refine List.pairwise_append.mpr ⟨?_, hclear, ?_⟩
  · refine List.pairwise_map.mpr ((apart_new hg).imp fun {x y} h => ?_)
    simp only [Mem.Clear, length_image]
    exact h.2
  · intro x hx y hy
    obtain ⟨z, hz, rfl⟩ := List.mem_map.mp hx
    have hapart := (apart_old hg hz hheader).2
    have hy' := hfs y hy
    simp only [Mem.Clear, length_image, block, Range.stop] at hapart ⊢
    omega

theorem writes_clear_old (hg : Grown a.stack (blocks em) w₀ w₁)
    (hheader : (⟨handle, TREE_SIZE⟩ : Range) ∈ (w₀.files a.stack).live)
    (hfs : ∀ x ∈ fs, handle ≤ x.1 ∧ x.1 + x.2.length ≤ handle + TREE_SIZE) {r : Range}
    (hr : r ∈ (w₀.files a.stack).live) (hne : r ≠ ⟨handle, TREE_SIZE⟩) :
    ∀ x ∈ writesOf em ++ fs, Mem.Clear r.start r.len x := by
  intro x hx
  rcases List.mem_append.mp hx with hx | hx
  · obtain ⟨z, hz, rfl⟩ := List.mem_map.mp hx
    simp only [Mem.Clear, length_image]
    exact (apart_old hg hz hr).symm.2
  · have hapart := (apart_of_mem (w₀.files a.stack).apart hr hheader hne).2
    have hx' := hfs x hx
    simp only [Mem.Clear, Range.stop] at hapart ⊢
    omega

/-- A commit and the frees behind it leave the new tree on disk. -/
theorem holds_committed (hg : Grown a.stack (blocks em) w₀ w₁)
    (hheader : (⟨handle, TREE_SIZE⟩ : Range) ∈ (w₀.files a.stack).live)
    (hfs : ∀ x ∈ fs, handle ≤ x.1 ∧ x.1 + x.2.length ≤ handle + TREE_SIZE)
    (hclear : fs.Pairwise fun x y => Mem.Clear x.1 x.2.length y) (hem : ∀ x ∈ em, Addr x.1 ∧ Fits x.2)
    (hnodup : (ns' + ↑rt : Multiset Nat).Nodup) (hdone : ∀ x ∈ done, x ∈ rt)
    (hw : Freed a.stack (done.map (block ksize)) (World.storeAll a.stack (writesOf em ++ fs) w₁) w₃)
    (ht : Holds (Later (nodeAt ksize a w₀) em) root' es' ns') : Holds (OnDisk ksize a w₃) root' es' ns' := by
  have hbytes : (w₃.files a.stack).bytes = Mem.writeAll (writesOf em ++ fs) (w₁.files a.stack).bytes := by
    rw [hw.bytes, World.files_storeAll_same]
  have hkept : ∀ off ∈ ns', block ksize off ∈ (w₁.files a.stack).live → block ksize off ∈ (w₃.files a.stack).live := by
    intro off hoff hlive
    refine (hw.live _).mpr ⟨by rwa [World.live_storeAll], fun hmem => ?_⟩
    obtain ⟨x, hx, heq⟩ := List.mem_map.mp hmem
    obtain rfl : x = off := congrArg Range.start heq
    exact Multiset.disjoint_left.mp (Multiset.nodup_add.mp hnodup).2.2 hoff (Multiset.mem_coe.mpr (hdone x hx))
  refine ht.mono fun off nb hoff hnb => ?_
  rcases hnb with hnb | hnb
  · -- a node that was there
    obtain ⟨hlive, hd⟩ := nodeAt_eq_some.mp hnb
    refine nodeAt_eq_some.mpr ⟨hkept off hoff (hg.mem_live hlive), ?_⟩
    have hread : (w₃.files a.stack).bytes.read off (nodeSize ksize) =
        (w₀.files a.stack).bytes.read off (nodeSize ksize) := by
      have hclear : ∀ x ∈ writesOf em ++ fs, Mem.Clear off (nodeSize ksize) x :=
        writes_clear_old hg hheader hfs hlive (block_ne_header off handle)
      rw [hbytes, Mem.read_writeAll_clear _ hclear]
      exact hg.read_eq hlive (Nat.le_refl off) (Nat.le_refl _)
    rw [hread]
    exact hd
  · -- a node of the commit
    have hlive : block ksize off ∈ (w₁.files a.stack).live := by
      rw [hg.live]
      exact List.mem_append_left _ (mem_blocks hnb)
    refine nodeAt_eq_some.mpr ⟨hkept off hoff hlive, ?_⟩
    have hwrite : (off, image nb) ∈ writesOf em ++ fs :=
      List.mem_append_left _ (List.mem_map.mpr ⟨(off, nb), hnb, rfl⟩)
    have hread := Mem.read_writeAll_mem (w₁.files a.stack).bytes (writes_clear hg hheader hfs hclear) hwrite
    rw [length_image, ← hbytes] at hread
    rw [hread]
    exact decode_image (hem _ hnb).2

theorem field_committed (hg : Grown a.stack (blocks em) w₀ w₁)
    (hheader : (⟨handle, TREE_SIZE⟩ : Range) ∈ (w₀.files a.stack).live)
    (hfs : ∀ x ∈ fs, handle ≤ x.1 ∧ x.1 + x.2.length ≤ handle + TREE_SIZE)
    (hclear : fs.Pairwise fun x y => Mem.Clear x.1 x.2.length y) {rs : List Range}
    (hw : Freed a.stack rs (World.storeAll a.stack (writesOf em ++ fs) w₁) w₃) {off v : Nat} (hv : v < 2 ^ 64)
    (hx : (off, leBytes 8 v) ∈ fs) : (w₃.files a.stack).bytes.word off = v := by
  have hread := Mem.read_writeAll_mem (w₁.files a.stack).bytes (writes_clear hg hheader hfs hclear)
    (List.mem_append_right _ hx)
  rw [length_leBytes] at hread
  rw [hw.bytes, World.files_storeAll_same, Mem.word, hread]
  exact leNat_leBytes (by simpa using hv)

theorem field_kept (hg : Grown a.stack (blocks em) w₀ w₁)
    (hheader : (⟨handle, TREE_SIZE⟩ : Range) ∈ (w₀.files a.stack).live) {rs : List Range}
    (hw : Freed a.stack rs (World.storeAll a.stack (writesOf em ++ fs) w₁) w₃) {off : Nat} (hlo : handle ≤ off)
    (hhi : off + 8 ≤ handle + TREE_SIZE) (hclear : ∀ x ∈ fs, Mem.Clear off 8 x) :
    (w₃.files a.stack).bytes.word off = (w₀.files a.stack).bytes.word off := by
  rw [hw.bytes, World.files_storeAll_same, Mem.word, Mem.read_writeAll_clear, hg.read_eq hheader hlo hhi, ← Mem.word]
  intro x hx
  rcases List.mem_append.mp hx with hx | hx
  · obtain ⟨z, hz, rfl⟩ := List.mem_map.mp hx
    have hapart := (apart_old hg hz hheader).2
    simp only [Mem.Clear, length_image, block, Range.stop] at hapart ⊢
    omega
  · exact hclear x hx

end Committed

end TreeAt

end BStackBTreeMap

end BStackRaii
