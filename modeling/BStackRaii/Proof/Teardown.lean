import BStackRaii.Proof.Teardown.Chain
import BStackRaii.Proof.Wal.Batch
/-!
# A teardown frees what its root owned alone

The cascade of `drops_root`, started from an empty account and followed by the commit of what it collected:
every place that no reference from outside keeps is freed once, and nothing else of the structure is.
-/

namespace BStackRaii

variable {τ : Type} [DecidableEq τ] {types : τ → BlockType τ} {a : Allocator} {w₀ w w' : World}
  {root : Place τ} {N : Finset (Place τ)} {gone going : List (Place τ)} {paid due lent : Multiset (Place τ)}
  {uses : Range → Prop} {phase : Phase τ}
  {t : τ} {off fuel n : Nat} {r : Range}

open Classical in
/-- The frees of the structure: its solely owned places with an allocation of their own. -/
noncomputable def soleFrees (types : τ → BlockType τ) (f : File) (root : Place τ) (N : Finset (Place τ)) : Nat :=
  (N.filter fun p => (Place.holdings types f).Sole root N p ∧ (p.range types).isSome).card

/-! ### What is gone -/

theorem length_ranges_gone {f : File} (hledger : (Place.holdings types f).Ledger root N gone [] paid 0) :
    (ranges types gone).length = soleFrees types f root N := by
  classical
  have hnodup : gone.Nodup := by simpa only [List.append_nil] using hledger.nodup
  have hN : ∀ p ∈ gone, p ∈ N := by simpa only [List.append_nil] using hledger.mem
  have hlen : ∀ ps : List (Place τ), (ranges types ps).length = (ps.filter fun p => (p.range types).isSome).length := by
    intro ps
    rw [ranges, List.length_filterMap_eq_countP, List.countP_eq_length_filter]
  rw [hlen, ← List.toFinset_card_of_nodup (hnodup.filter _), soleFrees]
  refine congrArg Finset.card (Finset.ext fun p => ?_)
  rw [List.mem_toFinset, List.mem_filter, Finset.mem_filter, hledger.settled]
  refine ⟨fun h => ⟨hN p (hledger.settled.mpr h.1), h⟩, fun h => h.2⟩

/-- What a batch frees, seen from one allocation of the structure. -/
theorem count_freed {log rs : List Range} {k : Nat} (hfreed : w'.freed = w.freed ++ log.map (fun r => (k, r)) ++
    rs.map fun r => (k, r)) (hnodup : rs.Nodup) (hlog : r ∉ log) :
    w'.freed.count (k, r) = w.freed.count (k, r) + if r ∈ rs then 1 else 0 := by
  have hinj : Function.Injective fun r : Range => (k, r) := fun _ _ h => congrArg Prod.snd h
  rw [hfreed, List.count_append, List.count_append, List.count_map_of_injective _ _ hinj,
    List.count_map_of_injective _ _ hinj, List.count_eq_zero.mpr hlog, hnodup.count, Nat.add_zero]

/-! ### The teardown of a root -/

/-- What a teardown that is over leaves of the process it started in, in file `k`: `gone` is free, `paid` is off the
counters, and old blocks of the log may be free as well. -/
structure Torn (types : τ → BlockType τ) (k : Nat) (N : Finset (Place τ)) (uses : Range → Prop)
    (lent : Multiset (Place τ)) (w₀ : World) (gone : List (Place τ)) (paid : Multiset (Place τ)) (log : List Range)
    (w : World) : Prop where
  others : ∀ j, j ≠ k → w.files j = w₀.files j
  live : ∀ r ∈ (w₀.files k).live, uses r → (r ∈ (w.files k).live ↔ r ∉ ranges types gone)
  agrees : AgreesOff types (w₀.files k) N (w.files k).bytes
  aside : ∀ r ∈ (w₀.files k).live, uses r → ¬ Uses types N r → ∀ i, r.start ≤ i → i < r.stop →
    (w.files k).bytes i = (w₀.files k).bytes i
  counted : ∀ p ∈ N, ∀ c, p.counter types (w₀.files k) = some c →
    (w.files k).bytes.word c + (lent + paid).count p = (w₀.files k).bytes.word c
  unused : ∀ r ∈ log, ¬ uses r
  freed : w.freed = w₀.freed ++ log.map (fun r => (k, r)) ++ (ranges types gone).map fun r => (k, r)

theorem Mid.torn (h : Mid types a root N n uses lent w₀ .direct gone paid w) :
    Torn types a.stack N uses lent w₀ gone paid [] w where
  others := h.others
  live r hr _ := by rw [h.live, and_iff_right hr, Phase.done_direct]
  agrees := h.agrees
  aside := h.aside
  counted := h.counted
  unused _ hr := absurd hr List.not_mem_nil
  freed := by simpa using h.freed

theorem Mid.committed {log : List Range} (hl : Laid types) (hs : Structure types (w₀.files a.stack) root N)
    (h : Mid types a root N n uses lent w₀ .outer gone paid w)
    (hcommit : Committed a.stack (ranges types gone) log uses w w') :
    Torn types a.stack N uses lent w₀ gone paid log w' := by
  have hlive : ∀ r, r ∈ (w.files a.stack).live ↔ r ∈ (w₀.files a.stack).live := fun r => by
    simpa [ranges] using h.live r
  have hused : ∀ r, Uses types N r → r ∈ (w.files a.stack).live := by
    rintro r ⟨p, hp, hr⟩
    exact (hlive r).mpr (hs.allocated p hp r hr)
  refine ⟨fun j hj => (hcommit.others j hj).trans (h.others j hj), fun r hr hu => hcommit.live r ((hlive r).mpr hr) hu,
    ?_, ?_, ?_, hcommit.unused, ?_⟩
  · intro i hi
    obtain ⟨r, hr, hlo, hhi⟩ := hi.used
    rw [hcommit.bytes r (hused r hr) (h.covers r hr) i hlo hhi]
    exact h.agrees i hi
  · intro r hr hu hother i hlo hhi
    rw [hcommit.bytes r ((hlive r).mpr hr) hu i hlo hhi]
    exact h.aside r hr hu hother i hlo hhi
  · intro p hp c hc
    obtain ⟨q, hq, r, hr, hge, hle, -⟩ := hs.counter_range hl hp hc
    have hword : (w'.files a.stack).bytes.word c = (w.files a.stack).bytes.word c :=
      Mem.word_congr fun i hlo hhi =>
        hcommit.bytes r (hused r ⟨q, hq, hr⟩) (h.covers r ⟨q, hq, hr⟩) i (by omega) (by omega)
    rw [hword]
    exact h.counted p hp c hc
  · rw [hcommit.freed, h.freed]
    simp only [Phase.done_outer, ranges, List.filterMap_nil, List.map_nil, List.append_nil]

theorem Mid.start (hq : w.Quiet) (hcovers : ∀ r, Uses types N r → uses r) (hphase : phase.done [] = [])
    (hready : phase.Ready types (w.files a.stack) a N n uses w) (hwithin : phase.Within ([] : List (Place τ))) :
    Mid types a root N n uses 0 w phase [] 0 w where
  quiet := hq
  held := rfl
  picks := rfl
  attached := rfl
  others _ _ := rfl
  len := rfl
  covers := hcovers
  lent_root _ hp := absurd hp (Multiset.notMem_zero _)
  agrees _ _ := rfl
  aside _ _ _ _ _ _ _ := rfl
  counted _ _ _ _ := by rw [add_zero, Multiset.count_zero, Nat.add_zero]
  freed := by simp [hphase, ranges]
  live := by simp [hphase, ranges]
  ready := hready
  within := hwithin

/-- The frees of a whole teardown. -/
theorem bstackDrop_run (hl : Laid types) (hserved : a.walAnchor ≠ none → Served a w)
    (hhome : a.atomicBulk = true → a.walFileId = FileId.SELF)
    (hq : w.Quiet) (hs : Structure types (w.files a.stack) (.block t off) N) (hcovers : ∀ r, Uses types N r → uses r)
    (hcan : CanCommit a (soleFrees types (w.files a.stack) (.block t off) N) uses w)
    (hdrops : ∀ n, Drops types a (.block t off) N n uses 0 w [.block t off]
      ((Place.holdings types (w.files a.stack)).holds (.block t off) + 0)
      (Teardown.dropBlock types a (Teardown.dropToken types a fuel 0) t off) [] 0) :
    ∃ gone paid w' cs, ∃ log : List Range, Teardown.bstackDrop types a fuel t off w = ⟨.ok (), w', cs⟩ ∧
      (Place.holdings types (w.files a.stack)).Ledger (.block t off) N gone [] paid 0 ∧
      Torn types a.stack N uses 0 w gone paid log w' := by
  have hledger₀ := hs.sound.start
  rw [← add_zero ((Place.holdings types (w.files a.stack)).holds (.block t off) : Multiset (Place τ))] at hledger₀
  cases hanchor : a.walAnchor with
  | none =>
      obtain ⟨gone, paid, w', cs, hrun, hledger, hmid⟩ := hdrops 0 .direct [] 0 w hledger₀
        (.start hq hcovers rfl (fun _ => .eager hanchor) trivial)
      have hteardown : walTeardown a
          (Teardown.dropBlock types a (Teardown.dropToken types a fuel 0) t off) none w = ⟨.ok ((), none), w', cs⟩ := by
        simp only [walTeardown, hanchor]
        exact hrun
      refine ⟨gone, paid, w', cs ++ [], [], ?_, hledger, hmid.torn⟩
      rw [Teardown.bstackDrop, Prog.bind_of_ok hteardown]
      rfl
  | some slot =>
      have hsome : a.walAnchor ≠ none := by rw [hanchor]; exact Option.some_ne_none slot
      obtain ⟨gone, paid, w', cs, hrun, hledger, hmid⟩ := hdrops _ .outer [] 0 w hledger₀
        (.start hq hcovers rfl hcan trivial)
      have hnodup : gone.Nodup := by simpa only [List.append_nil] using hledger.nodup
      have hN : ∀ p ∈ gone, p ∈ N := by simpa only [List.append_nil] using hledger.mem
      have hroot : .block t off ∈ gone := hledger.settled.mpr .root
      have hused : ∀ r ∈ ranges types gone, Uses types N r := by
        intro r hr
        obtain ⟨p, hp, hpr⟩ := mem_ranges.mp hr
        exact ⟨p, hN p hp, hpr⟩
      have hne : ranges types gone ≠ [] := List.ne_nil_of_mem (mem_ranges.mpr ⟨_, hroot, rfl⟩)
      have hcan' : CanCommit a (ranges types gone).length uses w' := by
        rw [length_ranges_gone hledger]
        exact hmid.ready
      have hlive : ∀ r ∈ ranges types gone, r ∈ (w'.files a.stack).live := by
        intro r hr
        obtain ⟨p, hp, hpr⟩ := hused r hr
        exact (hmid.live r).mpr ⟨hs.allocated p hp r hpr, List.not_mem_nil⟩
      obtain ⟨w'', cs', log, hcommit, hdone⟩ := commitFrees_run hmid.quiet hne hlive (nodup_ranges hs hnodup hN)
        (fun r hr => hcovers r (hused r hr)) hsome ((hserved hsome).congr hmid.attached) hhome hcan'
      have hteardown : ∃ cs'', walTeardown a
          (Teardown.dropBlock types a (Teardown.dropToken types a fuel 0) t off) none w =
            ⟨.ok ((), none), w'', cs''⟩ := by
        simp only [Phase.sink, batchOf, ranges, List.filterMap_nil, List.map_nil] at hrun
        simp only [walTeardown, hanchor]
        rw [Prog.bind_of_ok hrun]
        simp only [Option.elim_some]
        rw [batchOf, ranges] at hcommit
        rw [Prog.bind_of_ok hcommit]
        exact ⟨_, rfl⟩
      obtain ⟨cs'', hteardown⟩ := hteardown
      refine ⟨gone, paid, w'', cs'' ++ [], log, ?_, hledger, hmid.committed hl hs hdone⟩
      rw [Teardown.bstackDrop, Prog.bind_of_ok hteardown]
      rfl

/-- Tearing down an owned root frees every place that it owns alone, directly or through others, once. The
depth bound is met where no path through such places has more owned or strong hops. -/
theorem wal_teardown_frees_sole (hl : Laid types) (hhome : a.walFileId = FileId.SELF) (hq : w.Quiet)
    (hs : Structure types (w.files a.stack) (.block t off) N) (hplain : (types t).mode = .plain)
    (hshallow : Shallow types (w.files a.stack) (.block t off) N)
    (hcan : CanCommit a (soleFrees types (w.files a.stack) (.block t off) N) (Uses types N) w) :
    ∃ enough, ∀ fuel, enough ≤ fuel → ∃ w' cs, Teardown.bstackDrop types a fuel t off w = ⟨.ok (), w', cs⟩ ∧
      ∀ p ∈ N, ∀ r, p.range types = some r →
        ((Place.holdings types (w.files a.stack)).Sole (.block t off) N p →
          w'.freed.count (a.stack, r) = w.freed.count (a.stack, r) + 1) ∧
        (¬ (Place.holdings types (w.files a.stack)).Sole (.block t off) N p →
          w'.freed.count (a.stack, r) = w.freed.count (a.stack, r)) := by
  obtain ⟨enough, hdrops⟩ := drops_plain (a := a) hl hs hplain hshallow.from_zero
  refine ⟨enough, fun fuel hfuel => ?_⟩
  obtain ⟨gone, paid, w', cs, log, hrun, hledger, htorn⟩ :=
    bstackDrop_run hl (fun _ => .home hhome) (fun _ => hhome) hq hs (fun _ h => h) hcan fun n => hdrops fuel hfuel n _ 0
  have hnodup : gone.Nodup := by simpa only [List.append_nil] using hledger.nodup
  have hN : ∀ p ∈ gone, p ∈ N := by simpa only [List.append_nil] using hledger.mem
  refine ⟨w', cs, hrun, fun p hp r hr => ?_⟩
  have hcount := count_freed htorn.freed (nodup_ranges hs hnodup hN) fun hmem => htorn.unused r hmem ⟨p, hp, hr⟩
  have hmem : r ∈ ranges types gone ↔ (Place.holdings types (w.files a.stack)).Sole (.block t off) N p := by
    rw [← hledger.settled, mem_ranges]
    exact ⟨fun ⟨q, hq, hqr⟩ => (hs.distinct p hp q (hN q hq) r hr hqr).symm ▸ hq, fun h => ⟨p, h, hr⟩⟩
  exact ⟨fun hsole => by rw [hcount, if_pos (hmem.mpr hsole)], fun hsole => by
    rw [hcount, if_neg fun h => hsole (hmem.mp h), Nat.add_zero]⟩

/-- The longest chain that is torn down, by bulk frees. -/
theorem wal_teardown_frees_sole_chain :
    let w := chainWorld 500 (by decide)
    ∃ enough, ∀ fuel, enough ≤ fuel →
      ∃ w' cs, Teardown.bstackDrop linkType (ghostTree 0) fuel () 16 w = ⟨.ok (), w', cs⟩ ∧
      ∀ p ∈ chainPlaces 500, ∀ r, p.range linkType = some r →
        ((Place.holdings linkType (w.files 0)).Sole (.block () 16) (chainPlaces 500) p →
          w'.freed.count (0, r) = w.freed.count (0, r) + 1) ∧
        (¬ (Place.holdings linkType (w.files 0)).Sole (.block () 16) (chainPlaces 500) p →
          w'.freed.count (0, r) = w.freed.count (0, r)) :=
  wal_teardown_frees_sole (a := ghostTree 0) (w := chainWorld 500 (by decide)) laid_linkType rfl
    rfl (structure_chain 500 (by decide)) rfl (shallow_chain (Nat.le_refl _)) (.bulk rfl rfl)

/-- One more block, and no teardown of the chain succeeds: it is a finite structure of owned children, and
no I/O fails. -/
theorem long_chain_refused :
    Laid linkType ∧ (chainWorld 501 (by decide)).Quiet ∧
    Structure linkType ((chainWorld 501 (by decide)).files 0) (.block () 16) (chainPlaces 501) ∧
    ∀ fuel, ∃ e w' cs, Teardown.bstackDrop linkType (ghostTree 0) fuel () 16
      (chainWorld 501 (by decide)) = ⟨.error e, w', cs⟩ :=
  ⟨laid_linkType, rfl, structure_chain 501 (by decide),
    bstackDrop_chain (a := ghostTree 0) (w := chainWorld 501 (by decide)) rfl rfl (by decide)⟩

end BStackRaii
