import Mathlib.Algebra.BigOperators.Group.Finset.Piecewise
import BStackRaii.Proof.Teardown.Drop
/-!
# Singly linked chains of owned blocks

The smallest recursive type: a block that owns the next of its own type. A chain of `n + 1` of them takes
`n` owned hops, so the depth bound is met up to `n = 500`, and past it the teardown gives up.
-/

namespace BStackRaii

def linkType (_ : Unit) : BlockType Unit := ⟨24, .plain, .struct [.owned 16 ()]⟩

def linkAt (i : Nat) : Nat := 16 + 24 * i

def linkNext (n i : Nat) : Nat := if i < n then linkAt (i + 1) else 0

def chainBytes (n : Nat) : Mem := fun k =>
  if k < 32 then 0 else ((leBytes 8 (linkNext n ((k - 32) / 24)))[(k - 32) % 24]?).getD 0

theorem chain_apart (n : Nat) : ((List.range (n + 1)).map fun i => (⟨linkAt i, 24⟩ : Range)).Pairwise Range.Apart := by
  refine List.pairwise_map.mpr ((List.pairwise_lt_range).imp fun {i j} hlt => ?_)
  refine ⟨fun heq => ?_, .inl ?_⟩
  · have := congrArg Range.start heq
    simp only [linkAt] at this
    omega
  · simp only [Range.stop, linkAt]
    omega

theorem chain_inside (n : Nat) : ∀ r ∈ (List.range (n + 1)).map fun i => (⟨linkAt i, 24⟩ : Range),
    16 ≤ r.start ∧ r.stop ≤ linkAt (n + 1) := by
  intro r hr
  obtain ⟨i, hi, rfl⟩ := List.mem_map.mp hr
  have := List.mem_range.mp hi
  simp only [Range.stop, linkAt]
  omega

/-- A file with a chain of `n + 1` blocks and nothing else. -/
def chainFile (n : Nat) (h : linkAt (n + 1) < 2 ^ 64) : File where
  bytes := chainBytes n
  len := linkAt (n + 1)
  live := (List.range (n + 1)).map fun i => ⟨linkAt i, 24⟩
  apart := chain_apart n
  inside := chain_inside n
  addressable := h

def chainPlaces (n : Nat) : Finset (Place Unit) := (Finset.range (n + 1)).image fun i => .block () (linkAt i)

variable {n i d : Nat} {h : linkAt (n + 1) < 2 ^ 64} {p q : Place Unit}

theorem laid_linkType : Laid linkType where
  size := fun () => by decide
  fits := fun () s hs => by
    obtain rfl := List.mem_singleton.mp hs
    exact ⟨⟨Nat.le_refl _, Nat.le_refl _⟩, rfl⟩

theorem mem_chainPlaces : p ∈ chainPlaces n ↔ ∃ i ≤ n, .block () (linkAt i) = p := by
  simp only [chainPlaces, Finset.mem_image, Finset.mem_range, Nat.lt_succ_iff]

theorem word_chainBytes (h : linkAt (n + 1) < 2 ^ 64) (i : Nat) :
    (chainBytes n).word (linkAt i + 16) = linkNext n i := by
  have hlt : linkNext n i < 2 ^ 64 := by
    simp only [linkNext, linkAt] at *
    split <;> omega
  have hread : (chainBytes n).read (linkAt i + 16) 8 = leBytes 8 (linkNext n i) := by
    refine List.ext_getElem? fun k => ?_
    by_cases hk : k < 8
    · rw [Mem.getElem?_read hk, chainBytes, if_neg (by simp only [linkAt]; omega)]
      have hdiv : (linkAt i + 16 + k - 32) / 24 = i := by
        simp only [linkAt]
        omega
      have hmod : (linkAt i + 16 + k - 32) % 24 = k := by
        simp only [linkAt]
        omega
      rw [hdiv, hmod, List.getElem?_eq_getElem (by rwa [length_leBytes])]
      rfl
    · rw [List.getElem?_eq_none (by rw [Mem.length_read]; omega),
        List.getElem?_eq_none (by rw [length_leBytes]; omega)]
  rw [Mem.word, hread, leNat_leBytes (by simpa using hlt)]

theorem tokens_chain (hi : i ≤ n) : (Place.block () (linkAt i)).tokens linkType (chainFile n h) =
    .ok (if i < n then [.owned () (linkAt (i + 1))] else []) := by
  have hword : fieldWord ((chainFile n h).bytes.read (linkAt i) 24) 16 = linkNext n i := by
    rw [fieldWord_read _ (by decide)]
    exact word_chainBytes h i
  have hlen : linkAt i + 24 ≤ (chainFile n h).len := by
    change linkAt i + 24 ≤ linkAt (n + 1)
    simp only [linkAt]
    omega
  change (Walk.read (linkAt i) 24 fun image => Walk.child (fieldWord image 16) (.owned ()) (.done (.ok ()))).tokens
    (chainFile n h) = _
  rw [Walk.tokens, if_pos hlen, hword, linkNext]
  by_cases hlast : i < n
  · rw [if_pos hlast, if_pos hlast, Walk.child, if_pos (by simp [linkAt])]
    rfl
  · rw [if_neg hlast, if_neg hlast]
    rfl

theorem holds_chain (hi : i ≤ n) : (Place.holdings linkType (chainFile n h)).holds (.block () (linkAt i)) =
    if i < n then [.block () (linkAt (i + 1))] else [] := by
  rw [Structure.holds_tokens (tokens_chain hi)]
  split <;> rfl

theorem reach_chain : p ∈ chainPlaces n ↔ Reach linkType (chainFile n h) (.block () 16) p := by
  rw [mem_chainPlaces]
  constructor
  · rintro ⟨i, hi, rfl⟩
    induction i with
    | zero => exact .root
    | succ i ih =>
        refine .step (ih (by omega)) ?_
        rw [holds_chain (by omega), if_pos (by omega)]
        exact List.mem_singleton_self _
  · intro hreach
    induction hreach with
    | root => exact ⟨0, Nat.zero_le n, rfl⟩
    | step hp hq ih =>
        obtain ⟨i, hi, rfl⟩ := ih
        rw [holds_chain hi] at hq
        split at hq
        · exact ⟨i + 1, by omega, (List.mem_singleton.mp hq).symm⟩
        · cases hq

theorem inbound_chain :
    (Place.holdings linkType (chainFile n h)).inbound (chainPlaces n) (.block () (linkAt i)) ≤ 1 := by
  have hinj : Set.InjOn (fun i => Place.block () (linkAt i)) (Finset.range (n + 1)) := by
    intro i _ j _ heq
    simp only [Place.block.injEq, linkAt] at heq
    omega
  rw [Holdings.inbound, chainPlaces, Finset.sum_image hinj]
  refine (Finset.sum_le_sum (g := fun j => if i = j + 1 then 1 else 0) fun j hj => ?_).trans ?_
  · rw [holds_chain (Nat.lt_succ_iff.mp (Finset.mem_range.mp hj))]
    split
    · rw [List.count_singleton]
      simp only [beq_iff_eq, Place.block.injEq, linkAt, true_and]
      split <;> split <;> omega
    · simp
  · rw [← Finset.card_filter]
    refine Finset.card_le_one.mpr fun j hj k hk => ?_
    have hj := (Finset.mem_filter.mp hj).2
    have hk := (Finset.mem_filter.mp hk).2
    omega

/-- How many bytes a place of the chain is before the end. -/
def chainRank (n : Nat) : Place Unit → Nat
  | .block _ off => linkAt (n + 1) - off
  | _ => 0

theorem structure_chain (n : Nat) (h : linkAt (n + 1) < 2 ^ 64) :
    Structure linkType (chainFile n h) (.block () 16) (chainPlaces n) where
  reach _ := reach_chain
  acyclic := by
    refine ⟨chainRank n, fun p hp q hq => ?_⟩
    obtain ⟨i, hi, rfl⟩ := mem_chainPlaces.mp hp
    rw [holds_chain hi] at hq
    split at hq
    · rw [List.mem_singleton.mp hq]
      simp only [chainRank, linkAt]
      omega
    · cases hq
  readable p hp := by
    obtain ⟨i, hi, rfl⟩ := mem_chainPlaces.mp hp
    exact ⟨_, tokens_chain hi⟩
  allocated p hp r hr := by
    obtain ⟨i, hi, rfl⟩ := mem_chainPlaces.mp hp
    cases hr
    exact List.mem_map.mpr ⟨i, List.mem_range.mpr (by omega), rfl⟩
  distinct p hp q hq r hr hr' := by
    obtain ⟨i, -, rfl⟩ := mem_chainPlaces.mp hp
    obtain ⟨j, -, rfl⟩ := mem_chainPlaces.mp hq
    cases hr
    exact congrArg (Place.block ()) (congrArg Range.start (Option.some.inj hr')).symm
  backed p hp _ := by
    obtain ⟨i, -, rfl⟩ := mem_chainPlaces.mp hp
    exact inbound_chain
  paired _ _ _ hmode := by cases hmode

theorem hops_chain (hhops : Hops linkType (chainFile n h) (.block () 16) (chainPlaces n) d p) :
    d ≤ n ∧ p = .block () (linkAt d) := by
  induction hhops with
  | root => exact ⟨Nat.zero_le n, rfl⟩
  | step hp _ htokens htok ih =>
      obtain ⟨hle, rfl⟩ := ih
      rw [tokens_chain hle] at htokens
      cases htokens
      split at htok
      · rw [List.mem_singleton.mp htok]
        exact ⟨by assumption, rfl⟩
      · cases htok

theorem shallow_chain (hn : n ≤ MAX_TEARDOWN_DEPTH) :
    Shallow linkType (chainFile n h) (.block () 16) (chainPlaces n) :=
  fun _ _ hhops => (hops_chain hhops).1.trans hn

theorem shallowFrom_chain {base : Nat} (hn : base + n ≤ MAX_TEARDOWN_DEPTH) :
    ShallowFrom base linkType (chainFile n h) (.block () 16) (chainPlaces n) :=
  fun _ _ hhops => (Nat.add_le_add_left (hops_chain hhops).1 base).trans hn

theorem not_batched_chain : ¬ Batched linkType (chainFile n h) (chainPlaces n) := by
  rintro ⟨p, hp, tokens, t, off, htokens, htok⟩
  obtain ⟨i, hi, rfl⟩ := mem_chainPlaces.mp hp
  rw [tokens_chain hi] at htokens
  cases htokens
  split at htok
  · cases List.mem_singleton.mp htok
  · cases htok

def chainWorld (n : Nat) (h : linkAt (n + 1) < 2 ^ 64) : World :=
  { World.blank [] with files := fun _ => chainFile n h }

/-! ### Past the bound -/

variable {a : Allocator} {w : World} {sink : Sink} {child : Token Unit → Teardown Unit}

/-- A block whose child is not torn down is not either. -/
theorem dropBlock_chain (hq : w.Quiet) (hfile : w.files a.stack = chainFile n h) (hi : i < n)
    (hchild : ∃ e w' cs, child (.owned () (linkAt (i + 1))) sink w = ⟨.error e, w', cs⟩) :
    ∃ e w' cs, Teardown.dropBlock linkType a child () (linkAt i) sink w = ⟨.error e, w', cs⟩ := by
  obtain ⟨e, w', cs, hchild⟩ := hchild
  have hlen : linkAt i + 24 ≤ (w.files a.stack).len := by
    rw [hfile]
    change linkAt i + 24 ≤ linkAt (n + 1)
    simp only [linkAt]
    omega
  have hget : getInto a.stack (linkAt i) 24 w = ⟨.ok ((w.files a.stack).bytes.read (linkAt i) 24), w, []⟩ :=
    getInto_run hq hlen
  have hword : fieldWord ((w.files a.stack).bytes.read (linkAt i) 24) 16 = linkAt (i + 1) := by
    rw [fieldWord_read _ (by decide), hfile]
    exact (word_chainBytes h i).trans (if_pos hi)
  have hwalk : ((linkType ()).dropChildren (linkAt i)).run a child sink w = ⟨.error e, w', [] ++ cs⟩ := by
    change ((getInto a.stack (linkAt i) 24 >>= fun b => pure (b, sink)) >>= fun res =>
      (Walk.child (fieldWord res.1 16) (.owned ()) (.done (.ok ()))).run a child res.2) w = _
    rw [Prog.bind_of_ok (Prog.bind_of_ok hget)]
    change ((Walk.child (fieldWord ((w.files a.stack).bytes.read (linkAt i) 24) 16) (.owned ())
      (.done (.ok ()))).run a child sink w).after _ = _
    rw [hword, Walk.child, if_pos (by simp [linkAt])]
    change ((child (.owned () (linkAt (i + 1))) sink >>= fun res => _) w).after _ = _
    rw [Prog.bind_of_error hchild]
    rfl
  exact ⟨e, w', _, Prog.bind_of_error hwalk⟩

/-- From the `d`-th block on, the bound is met before the end of the chain, or the native stack is. -/
theorem dropToken_chain (hq : w.Quiet) (hfile : w.files a.stack = chainFile n h)
    (hlong : MAX_TEARDOWN_DEPTH < n) (fuel : Nat) : ∀ d, d ≤ MAX_TEARDOWN_DEPTH →
    ∃ e w' cs, Teardown.dropToken linkType a fuel d (.owned () (linkAt (d + 1))) sink w = ⟨.error e, w', cs⟩ := by
  induction fuel with
  | zero => exact fun d _ => ⟨_, _, _, rfl⟩
  | succ fuel ih =>
      intro d hd
      by_cases hdeep : d + 1 > MAX_TEARDOWN_DEPTH
      · have henter : TeardownDepthGuard.enter d = .error teardownTooDeep := if_pos hdeep
        rw [Teardown.dropToken, Teardown.dropOwned, henter]
        exact ⟨_, _, _, rfl⟩
      · have henter : TeardownDepthGuard.enter d = .ok (d + 1) := if_neg hdeep
        obtain ⟨e, w', cs, hrun⟩ := dropBlock_chain hq hfile (i := d + 1) (by omega) (ih (d + 1) (by omega))
        rw [Teardown.dropToken, Teardown.dropOwned, henter]
        exact ⟨e, w', [] ++ cs, by
          change (Teardown.dropBlock linkType a (Teardown.dropToken linkType a fuel (d + 1)) ()
            (linkAt (d + 1)) sink w).after [] = _
          rw [hrun]
          rfl⟩

/-- A chain of more owned hops than the bound is not torn down. -/
theorem bstackDrop_chain (hq : w.Quiet) (hfile : w.files a.stack = chainFile n h)
    (hlong : MAX_TEARDOWN_DEPTH < n) (fuel : Nat) :
    ∃ e w' cs, Teardown.bstackDrop linkType a fuel () 16 w = ⟨.error e, w', cs⟩ := by
  have hdrop : ∀ sink, ∃ e w' cs, Teardown.dropBlock linkType a (Teardown.dropToken linkType a fuel 0) () 16 sink w =
      ⟨.error e, w', cs⟩ := fun sink =>
    dropBlock_chain hq hfile (i := 0) (by omega) (dropToken_chain hq hfile hlong fuel 0 (Nat.zero_le _))
  have hteardown : ∃ e w' cs, walTeardown a (Teardown.dropBlock linkType a
      (Teardown.dropToken linkType a fuel 0) () 16) none w = ⟨.error e, w', cs⟩ := by
    cases hanchor : a.walAnchor with
    | none =>
        simp only [walTeardown, hanchor]
        exact hdrop none
    | some slot =>
        obtain ⟨e, w', cs, hrun⟩ := hdrop (some (a.stack, []))
        simp only [walTeardown, hanchor]
        exact ⟨e, w', cs, Prog.bind_of_error hrun⟩
  obtain ⟨e, w', cs, hrun⟩ := hteardown
  exact ⟨e, w', cs, Prog.bind_of_error hrun⟩

end BStackRaii
