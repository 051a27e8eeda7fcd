import BStackRaii.Model.ForeignHandle
import BStackRaii.Proof.Teardown
/-!
# Two drops of one root

A root is dropped in one batch or outside of any, and where it is counted, the drop takes one reference first.
However it goes, what is gone afterwards is what the root owned alone, and the counters are down by what that
held. So any two drops of a root leave the same, but for the block of the log.
-/

namespace BStackRaii

variable {τ : Type} [DecidableEq τ] {types : τ → BlockType τ} {a : Allocator} {w w₁ w₂ : World} {root : Place τ}
  {N : Finset (Place τ)} {gone gone' : List (Place τ)} {paid paid' lent : Multiset (Place τ)} {seen : Range → Prop}
  {log log' : List Range} {k : Nat}

/-! ### What a drop comes to -/

/-- The account behind a drop of the root: its last reference takes along what it owns alone, any other nothing. -/
def Accounted (G : Holdings (Place τ)) (root : Place τ) (N : Finset (Place τ)) (gone : List (Place τ))
    (paid : Multiset (Place τ)) : Prop :=
  if G.count root = 1 then G.Ledger root N gone [] paid 0 else gone = [] ∧ paid = 0

namespace Accounted

variable {G : Holdings (Place τ)}

theorem same (h : Accounted G root N gone paid) (h' : Accounted G root N gone' paid') :
    gone.Perm gone' ∧ paid = paid' := by
  rw [Accounted] at h h'
  split at h
  case isTrue hlast =>
    rw [if_pos hlast] at h'
    exact h.settled_same h'
  case isFalse hmore =>
    rw [if_neg hmore] at h'
    obtain ⟨rfl, rfl⟩ := h
    obtain ⟨rfl, rfl⟩ := h'
    exact ⟨.nil, rfl⟩

theorem distinct (h : Accounted G root N gone paid) : gone.Nodup ∧ ∀ p ∈ gone, p ∈ N := by
  rw [Accounted] at h
  split at h
  · exact ⟨by simpa only [List.append_nil] using h.nodup, by simpa only [List.append_nil] using h.mem⟩
  · obtain ⟨rfl, -⟩ := h
    exact ⟨List.nodup_nil, fun p hp => absurd hp List.not_mem_nil⟩

end Accounted

/-- The two runs from `w` leave the same of file `k`, for whoever looks at the blocks `seen`, and of all other
files. -/
structure SameBlocks (k : Nat) (seen : Range → Prop) (w w₁ w₂ : World) : Prop where
  others : ∀ j, j ≠ k → w₁.files j = w₂.files j
  live : ∀ r ∈ (w.files k).live, seen r → (r ∈ (w₁.files k).live ↔ r ∈ (w₂.files k).live)
  bytes : ∀ r ∈ (w.files k).live, seen r → ∀ i, r.start ≤ i → i < r.stop →
    (w₁.files k).bytes i = (w₂.files k).bytes i
  freed : ∀ r ∈ (w.files k).live, seen r → w₁.freed.count (k, r) = w₂.freed.count (k, r)

/-- Whatever is in the batches, and in which order. -/
theorem Torn.same (hs : Structure types (w.files k) root N) (hgone : gone.Nodup ∧ ∀ p ∈ gone, p ∈ N)
    (hperm : gone.Perm gone') (h : Torn types k N seen lent w gone paid log w₁)
    (h' : Torn types k N seen lent w gone' paid log' w₂) : SameBlocks k seen w w₁ w₂ := by
  have hranges : (ranges types gone).Perm (ranges types gone') := hperm.filterMap _
  have hnodup := nodup_ranges hs hgone.1 hgone.2
  refine ⟨fun j hj => (h.others j hj).trans (h'.others j hj).symm, fun r hr hu => ?_, fun r hr hu i hlo hhi => ?_,
    fun r hr hu => ?_⟩
  · rw [h.live r hr hu, h'.live r hr hu, hranges.mem_iff]
  · by_cases hused : Uses types N r
    · by_cases hcounter : InCounter types (w.files k) N i
      · obtain ⟨p, hp, c, hc, hge, hlt⟩ := hcounter
        have hcount := h.counted p hp c hc
        have hcount' := h'.counted p hp c hc
        exact Mem.eq_of_word (by omega) hge hlt
      · have huncounted : Uncounted types (w.files k) N i := ⟨⟨r, hused, hlo, hhi⟩, hcounter⟩
        rw [h.agrees i huncounted, h'.agrees i huncounted]
    · rw [h.aside r hr hu hused i hlo hhi, h'.aside r hr hu hused i hlo hhi]
  · rw [count_freed h.freed hnodup fun hmem => h.unused r hmem hu,
      count_freed h'.freed (hranges.nodup_iff.mp hnodup) fun hmem => h'.unused r hmem hu]
    simp only [hranges.mem_iff]

/-- The run is a drop of the root, and there is no error. -/
def Settles (types : τ → BlockType τ) (k : Nat) (root : Place τ) (N : Finset (Place τ)) (seen : Range → Prop)
    (lent : Multiset (Place τ)) (w : World) (run : Run IoError World Unit) : Prop :=
  ∃ gone paid log w' cs, run = ⟨.ok (), w', cs⟩ ∧ Accounted (Place.holdings types (w.files k)) root N gone paid ∧
    Torn types k N seen lent w gone paid log w'

theorem Settles.same {run₁ run₂ : Run IoError World Unit} (hs : Structure types (w.files k) root N)
    (h₁ : Settles types k root N seen lent w run₁) (h₂ : Settles types k root N seen lent w run₂) :
    ∃ w₁ w₂ cs₁ cs₂, run₁ = ⟨.ok (), w₁, cs₁⟩ ∧ run₂ = ⟨.ok (), w₂, cs₂⟩ ∧ SameBlocks k seen w w₁ w₂ := by
  obtain ⟨gone, paid, log, w₁, cs₁, hrun₁, hsettled, htorn⟩ := h₁
  obtain ⟨gone', paid', log', w₂, cs₂, hrun₂, hsettled', htorn'⟩ := h₂
  obtain ⟨hperm, rfl⟩ := hsettled.same hsettled'
  exact ⟨w₁, w₂, cs₁, cs₂, hrun₁, hrun₂, htorn.same hs hsettled.distinct hperm htorn'⟩

/-! ### Drops outside of any batch -/

section Direct

variable {c : Teardown Unit} {t : τ} {off pos fuel : Nat}

/-- The code drops the root without a batch of its own, and there is no error. -/
def Direct (types : τ → BlockType τ) (a : Allocator) (root : Place τ) (N : Finset (Place τ)) (seen : Range → Prop)
    (lent : Multiset (Place τ)) (w : World) (c : Teardown Unit) : Prop :=
  ∃ gone paid w' cs, c none w = ⟨.ok ((), none), w', cs⟩ ∧
    Accounted (Place.holdings types (w.files a.stack)) root N gone paid ∧
    Torn types a.stack N seen lent w gone paid [] w'

namespace Direct

theorem settles (h : Direct types a root N seen lent w c) :
    Settles types a.stack root N seen lent w (release c w) := by
  obtain ⟨gone, paid, w', cs, hrun, haccount, htorn⟩ := h
  refine ⟨gone, paid, [], w', cs ++ [], ?_, haccount, htorn⟩
  rw [release, Prog.bind_of_ok hrun]
  rfl

theorem value {β : Type} {v : β} {x : Io β} {c : β → Teardown Unit} (hx : x w = ⟨.ok v, w, []⟩)
    (h : Direct types a root N seen lent w (c v)) : Direct types a root N seen lent w ((x : Teardown β) >>= c) := by
  obtain ⟨gone, paid, w', cs, hrun, hrest⟩ := h
  refine ⟨gone, paid, w', cs, ?_, hrest⟩
  rw [bind_io hx]
  exact hrun

theorem lift {β : Type} {out : Except IoError β} {v : β} {c : β → Teardown Unit} (hout : out = .ok v)
    (h : Direct types a root N seen lent w (c v)) :
    Direct types a root N seen lent w (((Prog.lift out : Io β) : Teardown β) >>= c) := by
  subst hout
  exact h.value rfl

theorem cascade {w' : World} (hs : Structure types (w.files a.stack) root N)
    (hlast : (Place.holdings types (w.files a.stack)).count root = 1)
    (hmid : Mid types a root N 0 seen lent w .direct [] 0 w')
    (hdrops : Drops types a root N 0 seen lent w [root] ((Place.holdings types (w.files a.stack)).holds root + 0) c
      [] 0) :
    ∃ gone paid w'' cs, c none w' = ⟨.ok ((), none), w'', cs⟩ ∧
      Accounted (Place.holdings types (w.files a.stack)) root N gone paid ∧
      Torn types a.stack N seen lent w gone paid [] w'' := by
  have hledger := hs.sound.start
  rw [← add_zero ((Place.holdings types (w.files a.stack)).holds root : Multiset (Place τ))] at hledger
  obtain ⟨gone, paid, w'', cs, hrun, hledger', hmid'⟩ := hdrops .direct [] 0 w' hledger hmid
  exact ⟨gone, paid, w'', cs, hrun, by rwa [Accounted, if_pos hlast], hmid'.torn⟩

/-- A counted root: one reference is taken, and the last one takes the structure along. -/
theorem counted (hl : Laid types) (hs : Structure types (w.files a.stack) root N) (hq : w.Quiet)
    (hcovers : ∀ r, Uses types N r → seen r) (hready : Batched types (w.files a.stack) N → Batches a N.card seen w)
    (hc : root.counter types (w.files a.stack) = some pos) (hpos : 1 ≤ (w.files a.stack).bytes.word pos)
    (hdrops : Drops types a root N 0 seen {root} w [root]
      ((Place.holdings types (w.files a.stack)).holds root + 0) c [] 0) :
    Direct types a root N seen {root} w (do
      let prev ← Teardown.fetchSub a pos
      if prev = 1 then c else pure ()) := by
  have hcount : (Place.holdings types (w.files a.stack)).count root = (w.files a.stack).bytes.word pos := by
    simp only [Place.holdings, hc, Option.elim_some]
  have hstart : Mid types a root N 0 seen 0 w .direct [] 0 w := .start hq hcovers rfl hready trivial
  have hmid := hstart.store hl hs hs.mem_root hc hpos (fun q hq => Multiset.mem_singleton.mp hq)
    (show ({root} : Multiset (Place τ)) + 0 = root ::ₘ (0 + 0) from rfl)
  have hrun := fetchSub_run (a := a) (c := pos) hq (hs.counter_le_len hl hs.mem_root hc).2 hpos
  rw [Direct]
  simp only [bind_io hrun]
  by_cases hlast : (w.files a.stack).bytes.word pos = 1
  · obtain ⟨gone, paid, w', cs, hcascade, hrest⟩ := cascade hs (hcount.trans hlast) hmid hdrops
    rw [if_pos hlast, hcascade]
    exact ⟨gone, paid, w', [w] ++ cs, rfl, hrest⟩
  · rw [if_neg hlast]
    refine ⟨[], 0, _, [w] ++ [], rfl, ?_, hmid.torn⟩
    rw [Accounted, if_neg (by rwa [hcount])]
    exact ⟨rfl, rfl⟩

end Direct

/-! ### The drop cores of a root -/

/-- An owned root, outside of any batch: its children are one level down. -/
theorem dropOwned_settles (hl : Laid types) (hs : Structure types (w.files a.stack) (.block t off) N) (hq : w.Quiet)
    (hplain : (types t).mode = .plain) (hcovers : ∀ r, Uses types N r → seen r)
    (hready : Batched types (w.files a.stack) N → Batches a N.card seen w)
    (hshallow : ShallowFrom 1 types (w.files a.stack) (.block t off) N) :
    ∃ enough, ∀ fuel, enough ≤ fuel → Settles types a.stack (.block t off) N seen 0 w
      (release (Teardown.dropOwned types a (Teardown.dropToken types a fuel) 0 t off) w) := by
  obtain ⟨enough, hdrops⟩ := drops_plain (a := a) hl hs hplain hshallow
  refine ⟨enough, fun fuel hfuel => Direct.settles ?_⟩
  have hlast : (Place.holdings types (w.files a.stack)).count (.block t off) = 1 := by
    simp only [Place.holdings, Place.counter, hplain, Option.elim_none]
  refine .lift (enter_ok (by decide)) ?_
  exact .cascade hs hlast (.start hq hcovers rfl hready trivial) (hdrops fuel hfuel 0 seen 0)

/-- An owned root, in one batch. -/
theorem bstackDrop_settles (hl : Laid types) (hs : Structure types (w.files a.stack) (.block t off) N) (hq : w.Quiet)
    (hplain : (types t).mode = .plain) (hcovers : ∀ r, Uses types N r → seen r)
    (hserved : a.walAnchor ≠ none → Served a w)
    (hhome : a.atomicBulk = true → a.walFileId = FileId.SELF)
    (hcan : CanCommit a (soleFrees types (w.files a.stack) (.block t off) N) seen w)
    (hshallow : ShallowFrom 0 types (w.files a.stack) (.block t off) N) :
    ∃ enough, ∀ fuel, enough ≤ fuel → Settles types a.stack (.block t off) N seen 0 w
      (Teardown.bstackDrop types a fuel t off w) := by
  obtain ⟨enough, hdrops⟩ := drops_plain (a := a) hl hs hplain hshallow
  refine ⟨enough, fun fuel hfuel => ?_⟩
  have hlast : (Place.holdings types (w.files a.stack)).count (.block t off) = 1 := by
    simp only [Place.holdings, Place.counter, hplain, Option.elim_none]
  obtain ⟨gone, paid, w', cs, log, hrun, hledger, htorn⟩ :=
    bstackDrop_run hl hserved hhome hq hs hcovers hcan fun n => hdrops fuel hfuel n seen 0
  exact ⟨gone, paid, log, w', cs, hrun, by rwa [Accounted, if_pos hlast], htorn⟩

/-- A counted root, outside of any batch. -/
theorem dropStrong_settles (hl : Laid types) (hs : Structure types (w.files a.stack) (.block t off) N) (hq : w.Quiet)
    (hmode : (types t).mode = .rc) (hpos : 1 ≤ (Place.holdings types (w.files a.stack)).count (.block t off))
    (hcovers : ∀ r, Uses types N r → seen r) (hready : Batched types (w.files a.stack) N → Batches a N.card seen w)
    (hshallow : ShallowFrom 1 types (w.files a.stack) (.block t off) N) :
    ∃ enough, ∀ fuel, enough ≤ fuel → Settles types a.stack (.block t off) N seen {.block t off} w
      (release (Teardown.dropStrong types a (Teardown.dropToken types a fuel) 0 t off) w) := by
  obtain ⟨enough, hdrops⟩ := drops_root (a := a) hl hs hshallow
  have hcounter : (Place.block t off).counter types (w.files a.stack) = some (off + RC_REFCOUNT_OFFSET) := by
    simp only [Place.counter, hmode]
  have hle := (hs.counter_le_len hl hs.mem_root hcounter).2
  have haddr := (w.files a.stack).addressable
  simp only [Place.holdings, hcounter, Option.elim_some] at hpos
  refine ⟨enough, fun fuel hfuel => Direct.settles ?_⟩
  refine .lift (enter_ok (by decide)) (.lift (counterOff_field (by omega) (by decide)) ?_)
  exact .counted hl hs hq hcovers hready hcounter hpos
    (hdrops fuel hfuel 0 seen _ 0 (Droppable.phantom_none (by rw [hmode]; decide) _))

/-- A counted root with a control block: the strong owners together give up their weak reference. -/
theorem strongReleaseCtrl_settles (hl : Laid types) (hs : Structure types (w.files a.stack) (.block t off) N)
    (hq : w.Quiet) (hmode : (types t).mode = .rcWeak)
    (hpos : 1 ≤ (Place.holdings types (w.files a.stack)).count (.block t off)) (hcovers : ∀ r, Uses types N r → seen r)
    (hready : Batched types (w.files a.stack) N → Batches a N.card seen w)
    (hshallow : ShallowFrom 1 types (w.files a.stack) (.block t off) N) :
    ∃ enough, ∀ fuel, enough ≤ fuel → Settles types a.stack (.block t off) N seen {.block t off} w
      (release (Teardown.strongReleaseCtrl types a (Teardown.dropToken types a fuel) 0 t off
        (Place.ctrlOf (w.files a.stack) off)) w) := by
  obtain ⟨enough, hdrops⟩ := drops_root (a := a) hl hs hshallow
  have hcounter : (Place.block t off).counter types (w.files a.stack) =
      some (Place.ctrlOf (w.files a.stack) off + CTRL_STRONG_OFFSET) := by
    simp only [Place.counter, hmode]
  have hle := (hs.counter_le_len hl hs.mem_root hcounter).2
  have haddr := (w.files a.stack).addressable
  simp only [Place.holdings, hcounter, Option.elim_some] at hpos
  refine ⟨enough, fun fuel hfuel => Direct.settles ?_⟩
  refine .lift (enter_ok (by decide)) (.lift (counterOff_field (by omega) (by decide)) ?_)
  refine .counted hl hs hq hcovers hready hcounter hpos ?_
  exact (hdrops fuel hfuel 0 seen _ _ (Droppable.phantom_weak hmode _)).seq
    (Drops.releaseWeak hl hs (hs.mem_ctrl hs.mem_root hmode))

end Direct

end BStackRaii
