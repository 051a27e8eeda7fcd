import BStackRaii.Proof.Teardown.Release
/-!
# Every drop core pays its reference

The rules of `Drops` for walks, blocks and the drop cores, and the induction over the native stack that puts
them together. Its measure is the rank of what a token leads to, and the depth it is at is that of some path
of owned and strong hops.
-/

namespace BStackRaii

variable {τ : Type} [DecidableEq τ] {types : τ → BlockType τ} {a : Allocator} {w₀ w : World}
  {root : Place τ} {N : Finset (Place τ)} {gone going going' : List (Place τ)}
  {paid due due' lent : Multiset (Place τ)} {n : Nat} {uses : Range → Prop} {phase : Phase τ} {t t₀ : τ}
  {off off₀ ctrl depth : Nat}

theorem counterOff_field {base field : Nat} (hlt : base + field < 2 ^ 64) (hpos : 0 < field) :
    counterOff base field = .ok (base + field) := by
  rw [counterOff, checkedOff_ok hlt]
  exact fromField_ok (by omega)

theorem enter_ok (h : depth + 1 ≤ MAX_TEARDOWN_DEPTH) : TeardownDepthGuard.enter depth = .ok (depth + 1) :=
  if_neg (Nat.not_lt.mpr h)

namespace Drops

theorem lift {β : Type} {out : Except IoError β} {v : β} {c : β → Teardown Unit} (hout : out = .ok v)
    (hc : Drops types a root N n uses lent w₀ going due (c v) going' due') :
    Drops types a root N n uses lent w₀ going due (((Prog.lift out : Io β) : Teardown β) >>= c) going' due' := by
  subst hout
  exact hc.value fun _ _ _ _ _ => rfl

/-- A walk drops on the way what it would have dropped at the start. -/
theorem walk {walk : Walk τ} {tokens : List (Token τ)} {child : Token τ → Teardown Unit}
    (htokens : walk.tokens (w₀.files a.stack) = .ok tokens)
    (hblind : walk.Blind types (w₀.files a.stack) N)
    (hchild : ∀ tok ∈ tokens, ∀ due,
      Drops types a root N n uses lent w₀ going (tok.target ::ₘ due) (child tok) going due) :
    Drops types a root N n uses lent w₀ going ((tokens.map Token.target : List (Place τ)) + due) (walk.run a child)
      going due := by
  induction walk generalizing tokens with
  | done out =>
      cases out with
      | ok _ =>
          cases htokens
          rw [List.map_nil, Multiset.coe_nil, zero_add]
          exact nothing
      | error e => cases htokens
  | read off n rest ih =>
      rw [Walk.tokens] at htokens
      split at htokens
      case isFalse => cases htokens
      rename_i hlen
      intro phase gone paid w hledger hmid
      obtain ⟨gone', paid', w', cs, hrun, hrest⟩ :=
        ih _ htokens hblind.2 hchild phase gone paid w hledger hmid
      refine ⟨gone', paid', w', cs, ?_, hrest⟩
      have hget : getInto a.stack off n w = ⟨.ok ((w.files a.stack).bytes.read off n), w, []⟩ :=
        getInto_run hmid.quiet (by rw [hmid.len]; exact hlen)
      rw [Walk.run, bind_io hget]
      rw [hblind.1 _ hmid.agrees, hrun]
      rfl
  | drop token rest ih =>
      rw [Walk.tokens] at htokens
      cases hrest : rest.tokens (w₀.files a.stack) with
      | error e =>
          rw [hrest] at htokens
          cases htokens
      | ok tokens' =>
          rw [hrest] at htokens
          cases htokens
          obtain ⟨htoken, htokens'⟩ := List.forall_mem_cons.mp hchild
          rw [List.map_cons, ← Multiset.cons_coe, Multiset.cons_add]
          exact (htoken _).seq (ih hrest hblind htokens')

theorem deallocLeaf (hs : Structure types (w₀.files a.stack) root N) {p : Place τ} {r : Range}
    (hrange : p.range types = some r) (hleaf : (Place.holdings types (w₀.files a.stack)).holds p = []) :
    Drops types a root N n uses lent w₀ (p :: going) ((Place.holdings types (w₀.files a.stack)).holds p + due)
      (Sink.dealloc a r) going due := by
  rw [hleaf, Multiset.coe_nil, zero_add]
  exact dealloc hs hrange

/-- A block in its last moments: its children, then its shell. A phantom reference is still due. -/
theorem dropBlock (hl : Laid types) (hs : Structure types (w₀.files a.stack) root N)
    (hp : .block t off ∈ N) {tokens : List (Token τ)}
    (htokens : (Place.block t off).tokens types (w₀.files a.stack) = .ok tokens)
    {child : Token τ → Teardown Unit}
    (hchild : ∀ tok ∈ tokens, ∀ due, Drops types a root N n uses lent w₀ (.block t off :: going) (tok.target ::ₘ due)
      (child tok) (.block t off :: going) due) :
    Drops types a root N n uses lent w₀ (.block t off :: going)
      ((Place.holdings types (w₀.files a.stack)).holds (.block t off) + due)
      (Teardown.dropBlock types a child t off) going
      (((Place.block t off).phantom types (w₀.files a.stack) : List (Place τ)) + due) := by
  have hblind := blind_dropChildren hl hs (hs.clear_block hl hp) htokens fun tok htok =>
    hs.mem_target hp htokens htok
  rw [Structure.holds_tokens htokens, ← Multiset.coe_add, add_assoc]
  exact (walk htokens hblind hchild).seq (dealloc hs rfl)

theorem releaseWeak (hl : Laid types) (hs : Structure types (w₀.files a.stack) root N)
    (hp : .ctrl ctrl ∈ N) :
    Drops types a root N n uses lent w₀ going (.ctrl ctrl ::ₘ due) (Teardown.releaseWeak a ctrl) going due := by
  have hle := (hs.counter_le_len hl hp rfl).2
  have haddr := (w₀.files a.stack).addressable
  refine lift (counterOff_field (by omega) (by decide)) (payCounted hl hs rfl ?_)
  exact deallocLeaf hs rfl rfl

/-- `wal_teardown` of a part: its frees are collected and committed, unless a batch is under way that they join. -/
theorem walTeardown (hl : Laid types) (hs : Structure types (w₀.files a.stack) root N)
    (hbatched : Batched types (w₀.files a.stack) N) {c : Teardown Unit}
    (h : Drops types a root N n uses lent w₀ going due c going' due') :
    Drops types a root N n uses lent w₀ going due (BStackRaii.walTeardown a c) going' due' := by
  intro phase gone paid w hledger hmid
  cases phase with
  | inner before => exact h _ gone paid w hledger hmid
  | outer => exact h _ gone paid w hledger hmid
  | direct =>
      cases hanchor : a.walAnchor with
      | none =>
          simp only [Phase.sink, BStackRaii.walTeardown, hanchor]
          exact h _ gone paid w hledger hmid
      | some slot =>
          obtain ⟨gone', paid', w', cs, hrun, hledger', hmid'⟩ := h (.inner gone) gone paid w hledger
            { hmid with within := List.prefix_rfl }
          obtain ⟨w'', cs', hcommit, hmid''⟩ := hmid'.commit hl hs (by rw [hanchor]; exact Option.some_ne_none slot)
            hbatched hledger'
          have hstart : Phase.sink types a gone (.inner gone) = some (a.stack, []) := by
            simp only [Phase.sink, List.drop_length, ranges, List.filterMap_nil, batchOf, List.map_nil]
          rw [hstart] at hrun
          refine ⟨gone', paid', w'', cs ++ (cs' ++ []), ?_, hledger', hmid''⟩
          simp only [Phase.sink, BStackRaii.walTeardown, hanchor]
          rw [Prog.bind_of_ok hrun]
          simp only [Phase.sink, Option.elim_some]
          rw [Prog.bind_of_ok hcommit]
          rfl

end Drops

/-! ### The drop cores -/

/-- The tokens of a place below the depth bound can be dropped: the hypothesis of the induction. -/
def Droppable (types : τ → BlockType τ) (a : Allocator) (root : Place τ) (N : Finset (Place τ)) (n : Nat)
    (uses : Range → Prop) (lent : Multiset (Place τ)) (w₀ : World) (child : Token τ → Teardown Unit) (p : Place τ) :
    Prop :=
  ∀ tokens, p.tokens types (w₀.files a.stack) = .ok tokens → ∀ tok ∈ tokens, ∀ going due,
    Drops types a root N n uses lent w₀ going (tok.target ::ₘ due) (child tok) going due

namespace Droppable

variable {child : Nat → Token τ → Teardown Unit}

omit [DecidableEq τ] in
theorem phantom_none {f : File} (hmode : (types t).mode ≠ .rcWeak) (due : Multiset (Place τ)) :
    ((Place.block t off).phantom types f : List (Place τ)) + due = due := by
  rw [Place.phantom, if_neg hmode, Multiset.coe_nil, zero_add]

omit [DecidableEq τ] in
theorem phantom_weak {f : File} (hmode : (types t).mode = .rcWeak) (due : Multiset (Place τ)) :
    ((Place.block t off).phantom types f : List (Place τ)) + due = .ctrl (Place.ctrlOf f off) ::ₘ due := by
  rw [Place.phantom, if_pos hmode, Multiset.coe_singleton, Multiset.singleton_add]

theorem given_sole {p : Place τ} {c : Teardown Unit}
    (h : (Place.holdings types (w₀.files a.stack)).Sole root N p →
      Drops types a root N n uses lent w₀ (p :: going) due c going' due') :
    Drops types a root N n uses lent w₀ (p :: going) due c going' due' :=
  Drops.given (fun _ _ hledger => hledger.sole p (List.mem_append_right _ List.mem_cons_self)) h

theorem dropBlock {child : Token τ → Teardown Unit} (hl : Laid types)
    (hs : Structure types (w₀.files a.stack) root N) (hp : .block t off ∈ N)
    (hdue : ((Place.block t off).phantom types (w₀.files a.stack) : List (Place τ)) + due = due')
    (hchild : (Place.holdings types (w₀.files a.stack)).Sole root N (.block t off) →
      Droppable types a root N n uses lent w₀ child (.block t off)) :
    Drops types a root N n uses lent w₀ (.block t off :: going)
      ((Place.holdings types (w₀.files a.stack)).holds (.block t off) + due)
      (Teardown.dropBlock types a child t off) going due' := by
  obtain ⟨tokens, htokens⟩ := hs.readable _ hp
  rw [← hdue]
  refine given_sole fun hsole => Drops.dropBlock hl hs hp htokens fun tok htok due => ?_
  exact hchild hsole tokens htokens tok htok _ _

/-- The drop of the one owner of a block. -/
theorem sole {child : Token τ → Teardown Unit} (hl : Laid types)
    (hs : Structure types (w₀.files a.stack) root N) (hp : .block t off ∈ N)
    (hmode : (types t).mode = .plain)
    (hchild : (Place.holdings types (w₀.files a.stack)).Sole root N (.block t off) →
      Droppable types a root N n uses lent w₀ child (.block t off)) :
    Drops types a root N n uses lent w₀ going (.block t off ::ₘ due) (Teardown.dropBlock types a child t off) going
      due := by
  have hcounter : (Place.block t off).counter types (w₀.files a.stack) = none := by
    simp only [Place.counter, hmode]
  exact Drops.paySole hs hcounter (dropBlock hl hs hp (phantom_none (by rw [hmode]; decide) _) hchild)

theorem dropStrong (hl : Laid types) (hs : Structure types (w₀.files a.stack) root N)
    (hp : .block t off ∈ N) (hmode : (types t).mode = .rc) (hdepth : depth + 1 ≤ MAX_TEARDOWN_DEPTH)
    (hchild : (Place.holdings types (w₀.files a.stack)).Sole root N (.block t off) →
      Droppable types a root N n uses lent w₀ (child (depth + 1)) (.block t off)) :
    Drops types a root N n uses lent w₀ going (.block t off ::ₘ due) (Teardown.dropStrong types a child depth t off)
      going due := by
  have hcounter : (Place.block t off).counter types (w₀.files a.stack) = some (off + RC_REFCOUNT_OFFSET) := by
    simp only [Place.counter, hmode]
  have hle := (hs.counter_le_len hl hp hcounter).2
  have haddr := (w₀.files a.stack).addressable
  refine Drops.lift (enter_ok hdepth) (Drops.lift (counterOff_field (by omega) (by decide)) ?_)
  refine Drops.payCounted hl hs hcounter ?_
  exact dropBlock hl hs hp (phantom_none (by rw [hmode]; decide) _) hchild

/-- The back pointer of a block is what it was. -/
theorem resolveCtrl_run (hl : Laid types) (hs : Structure types (w₀.files a.stack) root N)
    (hp : .block t off ∈ N) (hmode : (types t).mode = .rcWeak)
    (hmid : Mid types a root N n uses lent w₀ phase gone paid w) :
    Teardown.resolveCtrl a off w = ⟨.ok (Place.ctrlOf (w₀.files a.stack) off), w, []⟩ := by
  have hsize := hl.size t
  have hstop := ((w₀.files a.stack).inside _ (hs.allocated _ hp _ rfl)).2
  have haddr := (w₀.files a.stack).addressable
  rw [hmode] at hsize
  simp only [Mode.userStart, HEADER_SIZE, Range.stop] at hsize hstop
  have hword : (w.files a.stack).bytes.word (off + CTRL_BACKPTR_OFFSET) =
      Place.ctrlOf (w₀.files a.stack) off := by
    refine Mem.word_congr fun i hge hlt => hmid.agrees i ?_
    simp only [CTRL_BACKPTR_OFFSET, HEADER_SIZE] at hge hlt
    refine ⟨⟨_, ⟨_, hp, rfl⟩, by simp only; omega, by simp only [Range.stop]; omega⟩, fun hcounted => ?_⟩
    have hrc := (hs.counted_block hl hp (by omega) (by omega) hcounted).1
    rw [hmode] at hrc
    cases hrc
  rw [Teardown.resolveCtrl, checkedOff_ok (by simp only [CTRL_BACKPTR_OFFSET, HEADER_SIZE]; omega), Prog.lift_ok,
    pure_bind, readU64_run hmid.quiet (by
      rw [hmid.len]
      simp only [CTRL_BACKPTR_OFFSET, HEADER_SIZE]
      omega), hword]

theorem dropStrongWeak (hl : Laid types) (hs : Structure types (w₀.files a.stack) root N)
    (hp : .block t off ∈ N) (hmode : (types t).mode = .rcWeak) (hdepth : depth + 1 ≤ MAX_TEARDOWN_DEPTH)
    (hchild : (Place.holdings types (w₀.files a.stack)).Sole root N (.block t off) →
      Droppable types a root N n uses lent w₀ (child (depth + 1)) (.block t off)) :
    Drops types a root N n uses lent w₀ going (.block t off ::ₘ due) (Teardown.dropStrongWeak types a child depth t off)
      going due := by
  have hcounter : (Place.block t off).counter types (w₀.files a.stack) =
      some (Place.ctrlOf (w₀.files a.stack) off + CTRL_STRONG_OFFSET) := by
    simp only [Place.counter, hmode]
  have hle := (hs.counter_le_len hl hp hcounter).2
  have haddr := (w₀.files a.stack).addressable
  refine Drops.value (fun _ _ _ _ hmid => resolveCtrl_run hl hs hp hmode hmid) ?_
  refine Drops.lift (enter_ok hdepth) (Drops.lift (counterOff_field (by omega) (by decide)) ?_)
  refine Drops.payCounted hl hs hcounter ?_
  exact (dropBlock hl hs hp (phantom_weak hmode _) hchild).seq
    (Drops.releaseWeak hl hs (hs.mem_ctrl hp hmode))

end Droppable

/-! ### The induction over the native stack -/

/-- The depth bound holds along every path of hops. -/
def Shallow (types : τ → BlockType τ) (f : File) (root : Place τ) (N : Finset (Place τ)) : Prop :=
  ∀ d p, Hops types f root N d p → d ≤ MAX_TEARDOWN_DEPTH

/-- The same for a teardown that starts at the depth `base`. -/
def ShallowFrom (base : Nat) (types : τ → BlockType τ) (f : File) (root : Place τ) (N : Finset (Place τ)) : Prop :=
  ∀ d p, Hops types f root N d p → base + d ≤ MAX_TEARDOWN_DEPTH

theorem Shallow.from_zero {f : File} (h : Shallow types f root N) : ShallowFrom 0 types f root N := fun d p hhops => by
  rw [Nat.zero_add]
  exact h d p hhops

theorem fits_of_place (hl : Laid types) {f : File} {p : Place τ} {tokens : List (Token τ)} {tok : Token τ}
    (htokens : p.tokens types f = .ok tokens) (htok : tok ∈ tokens) :
    ∃ t off, tok.Fits types (types t) off := by
  cases p with
  | block t off => exact ⟨t, off, Structure.token_fits hl htokens htok⟩
  | inline t off => exact ⟨t, off, Structure.token_fits hl htokens htok⟩
  | ctrl off =>
      cases htokens
      cases htok
  | data r =>
      cases htokens
      cases htok

/-- With more native stack than the rank of a place, its tokens are dropped without an error. -/
theorem droppable (hl : Laid types) (hs : Structure types (w₀.files a.stack) (.block t₀ off₀) N)
    {base : Nat} (hshallow : ShallowFrom base types (w₀.files a.stack) (.block t₀ off₀) N) {rank : Place τ → Nat}
    (hrank : ∀ p ∈ N, ∀ q ∈ (Place.holdings types (w₀.files a.stack)).holds p, rank q < rank p) (fuel : Nat) :
    ∀ {d : Nat} {p : Place τ}, p ∈ N → rank p ≤ fuel →
      Hops types (w₀.files a.stack) (.block t₀ off₀) N d p →
      (Place.holdings types (w₀.files a.stack)).Sole (.block t₀ off₀) N p →
      Droppable types a (.block t₀ off₀) N n uses lent w₀ (Teardown.dropToken types a fuel (base + d)) p := by
  induction fuel with
  | zero =>
      intro d p hp hle hhops hsole tokens htokens tok htok
      have hlt := hrank p hp tok.target (by
        rw [Structure.holds_tokens htokens]
        exact List.mem_append_left _ (List.mem_map_of_mem htok))
      omega
  | succ fuel ih =>
      intro d p hp hle hhops hsole tokens htokens tok htok going due
      have htarget := hs.mem_target hp htokens htok
      have hlt := hrank p hp tok.target (by
        rw [Structure.holds_tokens htokens]
        exact List.mem_append_left _ (List.mem_map_of_mem htok))
      have hnext := Hops.step hhops hsole htokens htok
      have hchild := ih htarget (by omega) hnext
      have hdepth := hshallow _ _ hnext
      obtain ⟨t', off', hfits⟩ := fits_of_place hl htokens htok
      cases tok with
      | owned t off =>
          exact Drops.lift (enter_ok hdepth) (Droppable.sole hl hs htarget hfits hchild)
      | element t off =>
          exact (Droppable.sole hl hs htarget hfits hchild).walTeardown hl hs ⟨p, hp, tokens, t, off, htokens, htok⟩
      | strong t off =>
          change Drops _ _ _ _ _ _ _ _ _ _
            (Teardown.dropStrongRef types a (Teardown.dropToken types a fuel) (base + d) t off) _ _
          rw [Teardown.dropStrongRef]
          cases hmode : (types t).mode with
          | plain => exact absurd hmode hfits
          | rc => exact Droppable.dropStrong hl hs htarget hmode hdepth hchild
          | rcWeak => exact Droppable.dropStrongWeak hl hs htarget hmode hdepth hchild
      | weak ctrl => exact Drops.releaseWeak hl hs htarget
      | embed t off =>
          obtain ⟨tokens', htokens'⟩ := hs.readable _ htarget
          have hblind := blind_dropChildren hl hs (hs.clear_inline hl htarget) htokens' fun tok htok =>
            hs.mem_target htarget htokens' htok
          refine Drops.paySole hs rfl ?_
          refine Drops.closeInline (show (Place.inline t off).range types = none from rfl) ?_
          rw [Structure.holds_tokens htokens', show (Token.embed t off).target.phantom types
            (w₀.files a.stack) = [] from rfl, List.append_nil]
          refine Droppable.given_sole fun hsole' => ?_
          exact Drops.walk htokens' hblind fun tok htok due => hchild hsole' tokens' htokens' tok htok _ _
      | data r => exact Drops.paySole hs rfl (Drops.deallocLeaf hs rfl rfl)

/-- The whole structure goes with its root, but for what the phantom reference of the root leads to. -/
theorem drops_root (hl : Laid types) (hs : Structure types (w₀.files a.stack) (.block t₀ off₀) N) {base : Nat}
    (hshallow : ShallowFrom base types (w₀.files a.stack) (.block t₀ off₀) N) :
    ∃ enough, ∀ fuel, enough ≤ fuel → ∀ (n : Nat) (uses : Range → Prop) (lent due' : Multiset (Place τ)),
      (((Place.block t₀ off₀).phantom types (w₀.files a.stack) : List (Place τ)) : Multiset (Place τ)) + 0 = due' →
      Drops types a (.block t₀ off₀) N n uses lent w₀ [.block t₀ off₀]
        ((Place.holdings types (w₀.files a.stack)).holds (.block t₀ off₀) + 0)
        (Teardown.dropBlock types a (Teardown.dropToken types a fuel base) t₀ off₀) [] due' := by
  obtain ⟨rank, hrank⟩ := hs.acyclic
  refine ⟨rank (.block t₀ off₀), fun fuel hfuel n uses lent due' hdue => ?_⟩
  exact Droppable.dropBlock hl hs hs.mem_root hdue
    (droppable hl hs hshallow hrank fuel hs.mem_root hfuel .root)

theorem drops_plain (hl : Laid types) (hs : Structure types (w₀.files a.stack) (.block t₀ off₀) N)
    (hplain : (types t₀).mode = .plain) {base : Nat}
    (hshallow : ShallowFrom base types (w₀.files a.stack) (.block t₀ off₀) N) :
    ∃ enough, ∀ fuel, enough ≤ fuel → ∀ n uses lent, Drops types a (.block t₀ off₀) N n uses lent w₀ [.block t₀ off₀]
      ((Place.holdings types (w₀.files a.stack)).holds (.block t₀ off₀) + 0)
      (Teardown.dropBlock types a (Teardown.dropToken types a fuel base) t₀ off₀) [] 0 := by
  obtain ⟨enough, hdrops⟩ := drops_root hl hs hshallow
  refine ⟨enough, fun fuel hfuel n uses lent => hdrops fuel hfuel n uses lent 0 ?_⟩
  exact Droppable.phantom_none (by rw [hplain]; decide) _

end BStackRaii
