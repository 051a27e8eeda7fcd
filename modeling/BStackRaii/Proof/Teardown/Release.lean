import BStackRaii.Proof.Teardown.Walk
import BStackRaii.Proof.Wal.Batch
/-!
# The run of a teardown

`Mid` is the state in the midst of a teardown, beside its account: the file is the one it started on but for
the counters, which are down by what was paid, and the allocations of what is gone are free or collected.
`Drops` is the triple of teardown code over both. Each drop core pays one reference, and whatever falls due
by it is paid before it returns.
-/

namespace BStackRaii

variable {τ : Type} [DecidableEq τ] {types : τ → BlockType τ} {a : Allocator} {w₀ w : World}
  {root : Place τ} {N : Finset (Place τ)} {gone going going' : List (Place τ)}
  {paid due due' lent : Multiset (Place τ)} {n : Nat} {uses : Range → Prop}

/-! ### What lies off the counters -/

namespace Structure

variable {f : File} {t t₀ : τ} {off off₀ : Nat} {p : Place τ}

/-- What a token of a place leads to. -/
theorem token_fits (hl : Laid types) {tokens : List (Token τ)}
    (htokens : ((types t).dropChildren off).tokens f = .ok tokens) {tok : Token τ} (htok : tok ∈ tokens) :
    tok.Fits types (types t) off :=
  (all_dropChildren hl t off).of_tokens htokens tok htok

theorem inline_inside (hl : Laid types) (hs : Structure types f (.block t₀ off₀) N) (hp : p ∈ N) :
    ∀ t off, p = .inline t off → ∃ t' off', .block t' off' ∈ N ∧
      off' + (types t').mode.userStart ≤ off ∧ off + (types t).size ≤ off' + (types t').size := by
  have hreach := (hs.reach p).mp hp
  clear hp
  induction hreach with
  | root =>
      intro t off heq
      cases heq
  | @step p q hp hq ih =>
      rintro t off rfl
      have hpN := (hs.reach p).mpr hp
      obtain ⟨tokens, htokens⟩ := hs.readable p hpN
      rw [holds_tokens htokens, List.mem_append] at hq
      have htarget : .inline t off ∈ tokens.map Token.target := by
        refine hq.resolve_right fun hphantom => ?_
        cases p with
        | block t' off' =>
            rw [Place.phantom] at hphantom
            split at hphantom
            · cases List.mem_singleton.mp hphantom
            · cases hphantom
        | _ => cases hphantom
      obtain ⟨tok, htok, heq⟩ := List.mem_map.mp htarget
      cases tok with
      | embed t' off' =>
          cases heq
          cases p with
          | block t' off' =>
              obtain ⟨-, hge, hle⟩ := token_fits hl htokens htok
              exact ⟨t', off', hpN, hge, hle⟩
          | inline t' off' =>
              obtain ⟨-, hge, hle⟩ := token_fits hl htokens htok
              obtain ⟨t'', off'', hmem, hge', hle'⟩ := ih t' off' rfl
              exact ⟨t'', off'', hmem, by omega, by omega⟩
          | ctrl off' =>
              cases htokens
              cases htok
          | data r =>
              cases htokens
              cases htok
      | _ => cases heq

theorem clear_block (hl : Laid types) (hs : Structure types f root N) (hp : .block t off ∈ N) :
    ClearAt types f N (types t) off := fun _ hge hlt => hs.uncounted_user hl hp hge hlt

theorem clear_inline (hl : Laid types) (hs : Structure types f (.block t₀ off₀) N)
    (hp : .inline t off ∈ N) : ClearAt types f N (types t) off := by
  obtain ⟨t', off', hmem, hge, hle⟩ := hs.inline_inside hl hp t off rfl
  exact fun i hi hi' => hs.uncounted_user hl hmem (by omega) (by omega)

end Structure

/-! ### The state -/

def ranges (types : τ → BlockType τ) (ps : List (Place τ)) : List Range := ps.filterMap (Place.range types)

/-- How a teardown frees: at once, into an inner batch that began when `before` was gone, or into the outermost
batch. -/
inductive Phase (τ : Type)
  | direct
  | inner (before : List (Place τ))
  | outer

namespace Phase

def done (gone : List (Place τ)) : Phase τ → List (Place τ)
  | direct => gone
  | inner before => before
  | outer => []

omit [DecidableEq τ] in
@[simp] theorem done_direct (gone : List (Place τ)) : (direct : Phase τ).done gone = gone := rfl

omit [DecidableEq τ] in
@[simp] theorem done_inner (before gone : List (Place τ)) : (inner before).done gone = before := rfl

omit [DecidableEq τ] in
@[simp] theorem done_outer (gone : List (Place τ)) : (outer : Phase τ).done gone = [] := rfl

def sink (types : τ → BlockType τ) (a : Allocator) (gone : List (Place τ)) : Phase τ → Sink
  | direct => none
  | inner before => some (a.stack, batchOf a (ranges types (gone.drop before.length)))
  | outer => some (a.stack, batchOf a (ranges types gone))

/-- The batches to come can be committed. -/
def Ready (types : τ → BlockType τ) (f : File) (a : Allocator) (N : Finset (Place τ)) (n : Nat) (uses : Range → Prop)
    (w : World) : Phase τ → Prop
  | outer => CanCommit a n uses w
  | _ => Batched types f N → Batches a N.card uses w

/-- An inner batch is about the last of what is gone. -/
def Within (gone : List (Place τ)) : Phase τ → Prop
  | inner before => before <+: gone
  | _ => True

end Phase

variable {phase : Phase τ}

/-- In the midst of a teardown that started in `w₀`, with `lent` paid before. What `uses` leaves out is the log's. -/
structure Mid (types : τ → BlockType τ) (a : Allocator) (root : Place τ) (N : Finset (Place τ)) (n : Nat)
    (uses : Range → Prop) (lent : Multiset (Place τ)) (w₀ : World) (phase : Phase τ) (gone : List (Place τ))
    (paid : Multiset (Place τ)) (w : World) : Prop where
  quiet : w.Quiet
  held : w.held = w₀.held
  picks : w.picks = w₀.picks
  attached : w.attached = w₀.attached
  others : ∀ j, j ≠ a.stack → w.files j = w₀.files j
  len : (w.files a.stack).len = (w₀.files a.stack).len
  covers : ∀ r, Uses types N r → uses r
  lent_root : ∀ p ∈ lent, p = root
  agrees : AgreesOff types (w₀.files a.stack) N (w.files a.stack).bytes
  aside : ∀ r ∈ (w₀.files a.stack).live, uses r → ¬ Uses types N r → ∀ i, r.start ≤ i → i < r.stop →
    (w.files a.stack).bytes i = (w₀.files a.stack).bytes i
  counted : ∀ p ∈ N, ∀ c, p.counter types (w₀.files a.stack) = some c →
    (w.files a.stack).bytes.word c + (lent + paid).count p = (w₀.files a.stack).bytes.word c
  freed : w.freed = w₀.freed ++ (ranges types (phase.done gone)).map fun r => (a.stack, r)
  live : ∀ r, r ∈ (w.files a.stack).live ↔
    r ∈ (w₀.files a.stack).live ∧ r ∉ ranges types (phase.done gone)
  ready : phase.Ready types (w₀.files a.stack) a N n uses w
  within : phase.Within gone

/-- From the account with `going` and `due` to the one with `going'` and `due'`, without an error. -/
def Drops (types : τ → BlockType τ) (a : Allocator) (root : Place τ) (N : Finset (Place τ)) (n : Nat)
    (uses : Range → Prop) (lent : Multiset (Place τ)) (w₀ : World) (going : List (Place τ))
    (due : Multiset (Place τ)) (c : Teardown Unit) (going' : List (Place τ)) (due' : Multiset (Place τ)) : Prop :=
  ∀ phase gone paid w, (Place.holdings types (w₀.files a.stack)).Ledger root N gone going paid due →
    Mid types a root N n uses lent w₀ phase gone paid w →
    ∃ gone' paid' w' cs, c (phase.sink types a gone) w = ⟨.ok ((), phase.sink types a gone'), w', cs⟩ ∧
      (Place.holdings types (w₀.files a.stack)).Ledger root N gone' going' paid' due' ∧
      Mid types a root N n uses lent w₀ phase gone' paid' w'

omit [DecidableEq τ] in
theorem ranges_append (ps qs : List (Place τ)) : ranges types (ps ++ qs) = ranges types ps ++ ranges types qs :=
  List.filterMap_append

omit [DecidableEq τ] in
theorem ranges_none {p : Place τ} (hrange : p.range types = none) : ranges types [p] = [] := by
  rw [ranges, List.filterMap_cons_none hrange, List.filterMap_nil]

omit [DecidableEq τ] in
theorem ranges_some {p : Place τ} {r : Range} (hrange : p.range types = some r) : ranges types [p] = [r] := by
  rw [ranges, List.filterMap_cons_some hrange, List.filterMap_nil]

omit [DecidableEq τ] in
theorem mem_ranges {ps : List (Place τ)} {r : Range} : r ∈ ranges types ps ↔ ∃ p ∈ ps, p.range types = some r :=
  List.mem_filterMap

namespace Phase

variable {p : Place τ} {r : Range} {pos : Nat} {data : List UInt8}

omit [DecidableEq τ] in
theorem Within.snoc (h : phase.Within gone) : phase.Within (gone ++ [p]) := by
  cases phase with
  | direct => trivial
  | inner before => exact h.trans (List.prefix_append _ _)
  | outer => trivial

omit [DecidableEq τ] in
/-- The last of what is gone lies behind the start of the batch. -/
theorem Within.drop_snoc {before : List (Place τ)} (h : before <+: gone) :
    (gone ++ [p]).drop before.length = gone.drop before.length ++ [p] :=
  List.drop_append_of_le_length h.length_le

omit [DecidableEq τ] in
theorem sink_none (h : phase.Within gone) (hrange : p.range types = none) :
    phase.sink types a (gone ++ [p]) = phase.sink types a gone := by
  cases phase with
  | direct => rfl
  | inner before => simp only [sink, Within.drop_snoc h, ranges_append, ranges_none hrange, List.append_nil]
  | outer => simp only [sink, ranges_append, ranges_none hrange, List.append_nil]

omit [DecidableEq τ] in
theorem ranges_done_none (hrange : p.range types = none) :
    ranges types (phase.done (gone ++ [p])) = ranges types (phase.done gone) := by
  cases phase with
  | direct => simp only [done_direct, ranges_append, ranges_none hrange, List.append_nil]
  | inner before => rfl
  | outer => rfl

theorem Ready.store {f : File} (h : phase.Ready types f a N n uses w) (hu : uses r)
    (hr : phase = .outer → r ∈ (w.files a.stack).live) (hge : 16 ≤ pos) (hlo : r.start ≤ pos)
    (hhi : pos + data.length ≤ r.stop) : phase.Ready types f a N n uses (w.store a.stack pos data) := by
  cases phase with
  | direct => exact fun hbatched => (h hbatched).store hu hge hlo hhi
  | inner before => exact fun hbatched => (h hbatched).store hu hge hlo hhi
  | outer => exact CanCommit.store h hu (hr rfl) hge hlo hhi

end Phase

/-! ### Rules -/

/-- Code that does not look at the sink, in front of code that may. -/
theorem bind_io {β : Type} {x : Io β} {k : β → Teardown Unit} {sink : Sink} {v : β} {w' : World} {cs : List World}
    (hx : x w = ⟨.ok v, w', cs⟩) : ((x : Teardown β) >>= k) sink w = (k v sink w').after cs := by
  change ((x >>= fun b => pure (b, sink)) >>= fun res => k res.1 res.2) w = _
  have hpair : (x >>= fun b => pure (b, sink)) w = ⟨.ok (v, sink), w', cs ++ []⟩ := Prog.bind_of_ok hx
  rw [Prog.bind_of_ok hpair, List.append_nil]

namespace Drops

variable {c d : Teardown Unit} {p : Place τ} {r : Range}

theorem seq {going'' : List (Place τ)} {due'' : Multiset (Place τ)}
    (hc : Drops types a root N n uses lent w₀ going due c going' due')
    (hd : Drops types a root N n uses lent w₀ going' due' d going'' due'') :
    Drops types a root N n uses lent w₀ going due (c >>= fun _ => d) going'' due'' := by
  intro phase gone paid w hledger hmid
  obtain ⟨gone', paid', w', cs, hrun, hledger', hmid'⟩ := hc phase gone paid w hledger hmid
  obtain ⟨gone'', paid'', w'', cs', hrun', hledger'', hmid''⟩ := hd phase gone' paid' w' hledger' hmid'
  refine ⟨gone'', paid'', w'', cs ++ cs', ?_, hledger'', hmid''⟩
  change (c (phase.sink types a gone) >>= fun res => d res.2) w = _
  rw [Prog.bind_of_ok hrun, hrun']
  rfl

theorem nothing : Drops types a root N n uses lent w₀ going due (pure ()) going due :=
  fun _ gone paid w hledger hmid => ⟨gone, paid, w, [], rfl, hledger, hmid⟩

theorem value {β : Type} {v : β} {x : Io β} {c : β → Teardown Unit}
    (hx : ∀ phase gone paid w, Mid types a root N n uses lent w₀ phase gone paid w → x w = ⟨.ok v, w, []⟩)
    (hc : Drops types a root N n uses lent w₀ going due (c v) going' due') :
    Drops types a root N n uses lent w₀ going due ((x : Teardown β) >>= c) going' due' := by
  intro phase gone paid w hledger hmid
  obtain ⟨gone', paid', w', cs, hrun, hrest⟩ := hc phase gone paid w hledger hmid
  refine ⟨gone', paid', w', cs, ?_, hrest⟩
  rw [bind_io (hx phase gone paid w hmid)]
  exact hrun

/-- What the account says of everything that goes is a hypothesis. -/
theorem given {φ : Prop} (hφ : ∀ gone paid,
      (Place.holdings types (w₀.files a.stack)).Ledger root N gone going paid due → φ)
    (h : φ → Drops types a root N n uses lent w₀ going due c going' due') :
    Drops types a root N n uses lent w₀ going due c going' due' :=
  fun phase gone paid w hledger hmid => h (hφ gone paid hledger) phase gone paid w hledger hmid

theorem closeInline (hrange : p.range types = none)
    (h : Drops types a root N n uses lent w₀ going due c (p :: going') due') :
    Drops types a root N n uses lent w₀ going due c going' due' := by
  intro phase gone paid w hledger hmid
  obtain ⟨gone', paid', w', cs, hrun, hledger', hmid'⟩ := h phase gone paid w hledger hmid
  refine ⟨gone' ++ [p], paid', w', cs, ?_, hledger'.close, { hmid' with
    freed := ?_, live := ?_, within := hmid'.within.snoc }⟩
  · rw [Phase.sink_none hmid'.within hrange]
    exact hrun
  · rw [Phase.ranges_done_none hrange]
    exact hmid'.freed
  · rw [Phase.ranges_done_none hrange]
    exact hmid'.live

theorem dealloc (hs : Structure types (w₀.files a.stack) root N) (hrange : p.range types = some r) :
    Drops types a root N n uses lent w₀ (p :: going) due (Sink.dealloc a r) going due := by
  intro phase gone paid w hledger hmid
  have hp : p ∈ N := hledger.mem p (List.mem_append_right _ List.mem_cons_self)
  have hcollect : ∀ rs, Sink.dealloc a r (some (a.stack, batchOf a rs)) w =
      ⟨.ok ((), some (a.stack, batchOf a (rs ++ [r]))), w, []⟩ := by
    intro rs
    rw [Sink.dealloc, Sink.collect, if_pos (.inr rfl), batchOf, batchOf, List.map_append]
    rfl
  cases phase with
  | direct =>
      have hnot : r ∉ ranges types gone := by
        intro hr
        obtain ⟨q, hq, hqr⟩ := mem_ranges.mp hr
        have hqN := hledger.mem q (List.mem_append_left _ hq)
        have heq := hs.distinct p hp q hqN r hrange hqr
        have hnodup := (List.nodup_append.mp hledger.nodup).2.2 q hq p List.mem_cons_self
        exact hnodup heq.symm
      have hr : r ∈ (w.files a.stack).live := (hmid.live r).mpr ⟨hs.allocated p hp r hrange, hnot⟩
      have hrun : Sink.dealloc a r none w = ⟨.ok ((), none), w.release a.stack r, [w]⟩ := by
        change (deallocRange a r >>= fun _ => pure ((), none)) w = _
        rw [Prog.bind_of_ok (deallocRange_run hmid.quiet hr)]
        rfl
      have hranges : ranges types (gone ++ [p]) = ranges types gone ++ [r] := by
        rw [ranges_append, ranges_some hrange]
      refine ⟨gone ++ [p], paid, w.release a.stack r, [w], hrun, hledger.close, hmid.quiet, hmid.held, hmid.picks,
        hmid.attached, ?_, ?_, hmid.covers, hmid.lent_root, ?_, ?_, ?_, ?_, ?_, ?_, trivial⟩
      · intro j hj
        rw [World.files_release_ne hj, hmid.others j hj]
      · rw [World.files_release_same, File.len_free, hmid.len]
      · rw [World.files_release_same, File.bytes_free]
        exact hmid.agrees
      · rw [World.files_release_same, File.bytes_free]
        exact hmid.aside
      · rw [World.files_release_same, File.bytes_free]
        exact hmid.counted
      · simp only [Phase.done_direct]
        rw [World.freed_release, hmid.freed, hranges, List.map_append, List.append_assoc]
        rfl
      · intro s
        simp only [Phase.done_direct]
        rw [World.files_release_same, File.live_free, (w.files a.stack).nodup_live.mem_erase_iff, hmid.live s,
          hranges, List.mem_append, List.mem_singleton]
        simp only [Phase.done_direct]
        tauto
      · exact fun hbatched => (hmid.ready hbatched).release (hmid.covers r ⟨p, hp, hrange⟩)
  | inner before =>
      refine ⟨gone ++ [p], paid, w, [], ?_, hledger.close, { hmid with within := hmid.within.snoc }⟩
      simp only [Phase.sink, Phase.Within.drop_snoc hmid.within, ranges_append, ranges_some hrange]
      exact hcollect _
  | outer =>
      refine ⟨gone ++ [p], paid, w, [], ?_, hledger.close, { hmid with within := trivial }⟩
      simp only [Phase.sink, ranges_append, ranges_some hrange]
      exact hcollect _

/-- Paying the reference to a place without a counter sets it going. -/
theorem paySole (hs : Structure types (w₀.files a.stack) root N) (hcounter : p.counter types (w₀.files a.stack) = none)
    (h : Drops types a root N n uses lent w₀ (p :: going) ((Place.holdings types (w₀.files a.stack)).holds p + due) c
      going' due') :
    Drops types a root N n uses lent w₀ going (p ::ₘ due) c going' due' := by
  intro phase gone paid w hledger hmid
  have hone : (Place.holdings types (w₀.files a.stack)).count p = 1 := by
    simp only [Place.holdings, hcounter, Option.elim_none]
  have hlt := (hledger.unpaid hs.sound).2.2
  refine h phase gone (p ::ₘ paid) w (hledger.payLast hs.sound (by omega)) { hmid with counted := ?_ }
  intro q hq k hk
  have hne : q ≠ p := by
    rintro rfl
    rw [hcounter] at hk
    cases hk
  rw [Multiset.add_cons, Multiset.count_cons_of_ne hne]
  exact hmid.counted q hq k hk

end Drops

/-! ### Inner batches -/

theorem nodup_ranges {f : File} (hs : Structure types f root N) {ps : List (Place τ)} (hnodup : ps.Nodup)
    (hN : ∀ p ∈ ps, p ∈ N) : (ranges types ps).Nodup := by
  induction ps with
  | nil => exact List.nodup_nil
  | cons p ps ih =>
      obtain ⟨hp, hps⟩ := List.forall_mem_cons.mp hN
      obtain ⟨hnot, hnodup⟩ := List.nodup_cons.mp hnodup
      have hrest := ih hnodup hps
      rw [ranges]
      cases hr : p.range types with
      | none =>
          rw [List.filterMap_cons_none hr]
          exact hrest
      | some r =>
          rw [List.filterMap_cons_some hr, List.nodup_cons]
          refine ⟨fun hmem => ?_, hrest⟩
          obtain ⟨q, hq, hqr⟩ := mem_ranges.mp hmem
          exact hnot (hs.distinct p hp q (hps q hq) r hr hqr ▸ hq)

theorem length_ranges_le {ps : List (Place τ)} (hnodup : ps.Nodup) (hN : ∀ p ∈ ps, p ∈ N) :
    (ranges types ps).length ≤ N.card := by
  have hlen : (ranges types ps).length ≤ ps.length := List.length_filterMap_le _ _
  have hcard := Finset.card_le_card (fun p hp => hN p (List.mem_toFinset.mp hp) : ps.toFinset ⊆ N)
  rw [List.toFinset_card_of_nodup hnodup] at hcard
  exact hlen.trans hcard

theorem Mid.commit {before : List (Place τ)} (hl : Laid types) (hs : Structure types (w₀.files a.stack) root N)
    (hanchor : a.walAnchor ≠ none) (hbatched : Batched types (w₀.files a.stack) N)
    (hledger : (Place.holdings types (w₀.files a.stack)).Ledger root N gone going paid due)
    (hmid : Mid types a root N n uses lent w₀ (.inner before) gone paid w) :
    ∃ w' cs, commitFrees a (batchOf a (ranges types (gone.drop before.length))) w = ⟨.ok (), w', cs⟩ ∧
      Mid types a root N n uses lent w₀ .direct gone paid w' := by
  obtain ⟨after, rfl⟩ : before <+: gone := hmid.within
  rw [List.drop_left]
  have hnodup : (before ++ after).Nodup := (List.nodup_append.mp hledger.nodup).1
  have hN : ∀ p ∈ before ++ after, p ∈ N := fun p hp => hledger.mem p (List.mem_append_left _ hp)
  have hafter : ∀ p ∈ after, p ∈ N := fun p hp => hN p (List.mem_append_right _ hp)
  have hlive : ∀ r ∈ ranges types after, r ∈ (w.files a.stack).live := by
    intro r hr
    obtain ⟨p, hp, hpr⟩ := mem_ranges.mp hr
    refine (hmid.live r).mpr ⟨hs.allocated p (hafter p hp) r hpr, fun hmem => ?_⟩
    obtain ⟨q, hq, hqr⟩ := mem_ranges.mp hmem
    have heq := hs.distinct q (hN q (List.mem_append_left _ hq)) p (hafter p hp) r hqr hpr
    exact (List.nodup_append.mp hnodup).2.2 q hq p hp heq
  have hused : ∀ r ∈ ranges types after, uses r := by
    intro r hr
    obtain ⟨p, hp, hpr⟩ := mem_ranges.mp hr
    exact hmid.covers r ⟨p, hafter p hp, hpr⟩
  have hnodup' : after.Nodup := (List.nodup_append.mp hnodup).2.1
  obtain ⟨w', cs, hrun, hcleared, hready⟩ := (hmid.ready hbatched).commitFrees_run hmid.quiet hanchor hlive
    (nodup_ranges hs hnodup' hafter) hused (length_ranges_le hnodup' hafter)
  refine ⟨w', cs, hrun, hcleared.quiet hmid.quiet, hcleared.held.trans hmid.held, hcleared.picks.trans hmid.picks,
    hcleared.attached.trans hmid.attached, fun j hj => (hcleared.others j hj).trans (hmid.others j hj),
    hcleared.len.trans hmid.len, hmid.covers, hmid.lent_root, ?_, ?_, ?_, ?_, ?_, fun _ => hready, trivial⟩
  · intro i hi
    obtain ⟨r, hr, hlo, hhi⟩ := hi.used
    rw [hcleared.bytes r (hmid.covers r hr) i hlo hhi]
    exact hmid.agrees i hi
  · intro r hr hu hother i hlo hhi
    rw [hcleared.bytes r hu i hlo hhi]
    exact hmid.aside r hr hu hother i hlo hhi
  · intro p hp c hc
    obtain ⟨q, hq, r, hr, hge, hle, -⟩ := hs.counter_range hl hp hc
    have hword : (w'.files a.stack).bytes.word c = (w.files a.stack).bytes.word c :=
      Mem.word_congr fun i hlo hhi => hcleared.bytes r (hmid.covers r ⟨q, hq, hr⟩) i (by omega) (by omega)
    rw [hword]
    exact hmid.counted p hp c hc
  · rw [hcleared.freed, hmid.freed, List.append_assoc, ← List.map_append]
    simp only [Phase.done_direct, Phase.done_inner, ranges_append]
  · intro r
    rw [hcleared.live, hmid.live]
    simp only [Phase.done_direct, Phase.done_inner, ranges_append, List.mem_append]
    tauto

/-! ### Counters -/

theorem fetchSub_run {c : Nat} (hq : w.Quiet) (hlen : c + 8 ≤ (w.files a.stack).len)
    (hpos : 1 ≤ (w.files a.stack).bytes.word c) :
    Teardown.fetchSub a c w = ⟨.ok ((w.files a.stack).bytes.word c),
      w.store a.stack c (leBytes 8 ((w.files a.stack).bytes.word c - 1)), [w]⟩ := by
  have haddr := (w.files a.stack).addressable
  have hsub : Refcount.subCounter 1 ((w.files a.stack).bytes.read c 8) =
      (leBytes 8 ((w.files a.stack).bytes.word c - 1), (w.files a.stack).bytes.word c, false) := by
    rw [Refcount.subCounter, ← Mem.word, if_pos hpos]
  have hprocess := process_run (f := Refcount.subCounter 1) hq hlen
  rw [hsub] at hprocess
  rw [Teardown.fetchSub, Refcount.fetchSub, Refcount.fetchWith, checkedAdd_ok (by omega)]
  simp only [Script.run_bind, Script.run_lift, Script.run_atom, Prog.lift_ok, pure_bind]
  rw [Prog.bind_of_ok hprocess]
  rfl

theorem Mid.store (hl : Laid types) (hs : Structure types (w₀.files a.stack) root N) {p : Place τ} {c : Nat}
    {lent' paid' : Multiset (Place τ)} (hmid : Mid types a root N n uses lent w₀ phase gone paid w) (hp : p ∈ N)
    (hc : p.counter types (w₀.files a.stack) = some c) (hpos : 1 ≤ (w.files a.stack).bytes.word c)
    (hlent : ∀ q ∈ lent', q = root) (hpaid : lent' + paid' = p ::ₘ (lent + paid)) :
    Mid types a root N n uses lent' w₀ phase gone paid'
      (w.store a.stack c (leBytes 8 ((w.files a.stack).bytes.word c - 1))) := by
  have hlt64 := Mem.word_lt (w.files a.stack).bytes c
  obtain ⟨q, hq, r, hr, hge, hle, -⟩ := hs.counter_range hl hp hc
  have hinside := (w₀.files a.stack).inside r (hs.allocated q hq r hr)
  have hlen := length_leBytes 8 ((w.files a.stack).bytes.word c - 1)
  refine ⟨hmid.quiet, hmid.held, hmid.picks, hmid.attached, ?_, ?_, hmid.covers, hlent, ?_, ?_, ?_, hmid.freed, ?_,
    ?_, hmid.within⟩
  · intro j hj
    rw [World.files_store_ne hj, hmid.others j hj]
  · rw [World.files_store_same, File.len_write, hmid.len]
  · intro i hi
    rw [World.files_store_same, File.bytes_write]
    have hout : i < c ∨ c + 8 ≤ i := by
      by_contra hin
      exact hi.clear ⟨p, hp, c, hc, by omega, by omega⟩
    rcases hout with hout | hout
    · rw [Mem.write_of_lt hout, hmid.agrees i hi]
    · rw [Mem.write_of_ge (by rwa [hlen]), hmid.agrees i hi]
  · intro s hs' hu hother i hlo hhi
    have hne : s ≠ r := fun heq => hother ⟨q, hq, heq ▸ hr⟩
    have hap := (apart_of_mem (w₀.files a.stack).apart hs' (hs.allocated q hq r hr) hne).2
    rw [World.files_store_same, File.bytes_write, ← hmid.aside s hs' hu hother i hlo hhi]
    rcases hap with hap | hap
    · exact Mem.write_of_lt (by omega)
    · exact Mem.write_of_ge (by omega)
  · intro q hq k hk
    rw [World.files_store_same, File.bytes_write, hpaid]
    by_cases hqp : q = p
    · subst hqp
      have hword := hmid.counted q hq k hk
      rw [hc] at hk
      cases hk
      rw [Mem.word_write_self (by omega), Multiset.count_cons_self]
      omega
    · have hapart := hs.counters_apart hl hq hp hk hc hqp
      rw [Mem.word_write_disjoint (by rw [hlen]; exact hapart), Multiset.count_cons_of_ne hqp]
      exact hmid.counted q hq k hk
  · simpa only [World.live_store] using hmid.live
  · refine hmid.ready.store (hmid.covers r ⟨q, hq, hr⟩) (fun houter => ?_) (by omega) (by omega)
      (by rw [hlen]; exact hle)
    subst houter
    exact (hmid.live r).mpr ⟨hs.allocated q hq r hr, List.not_mem_nil⟩

theorem Mid.fetchSub (hl : Laid types) (hs : Structure types (w₀.files a.stack) root N) {p : Place τ} {c : Nat}
    (hledger : (Place.holdings types (w₀.files a.stack)).Ledger root N gone going paid (p ::ₘ due))
    (hmid : Mid types a root N n uses lent w₀ phase gone paid w) (hc : p.counter types (w₀.files a.stack) = some c) :
    ∃ w', Teardown.fetchSub a c w =
        ⟨.ok ((Place.holdings types (w₀.files a.stack)).count p - paid.count p), w', [w]⟩ ∧
      Mid types a root N n uses lent w₀ phase gone (p ::ₘ paid) w' := by
  obtain ⟨hp, hroot, hlt⟩ := hledger.unpaid hs.sound
  have hcount : (Place.holdings types (w₀.files a.stack)).count p = (w₀.files a.stack).bytes.word c := by
    simp only [Place.holdings, hc, Option.elim_some]
  have hlent : lent.count p = 0 := Multiset.count_eq_zero.mpr fun hmem => hroot (hmid.lent_root p hmem)
  have hword := hmid.counted p hp c hc
  rw [Multiset.count_add, hlent, Nat.zero_add] at hword
  have hlen := (hs.counter_le_len hl hp hc).2
  rw [hcount] at hlt ⊢
  have hrun := fetchSub_run (a := a) (c := c) hmid.quiet (by rw [hmid.len]; exact hlen) (by omega)
  have heq : (w.files a.stack).bytes.word c = (w₀.files a.stack).bytes.word c - paid.count p := by omega
  refine ⟨_, by rw [heq] at hrun; exact hrun, ?_⟩
  rw [← heq]
  exact hmid.store hl hs hp hc (by omega) hmid.lent_root (Multiset.add_cons ..)

/-- Paying the reference to a counted place: the last one sets it going. -/
theorem Drops.payCounted (hl : Laid types) (hs : Structure types (w₀.files a.stack) root N) {p : Place τ}
    {c : Nat} {d : Teardown Unit} (hc : p.counter types (w₀.files a.stack) = some c)
    (h : Drops types a root N n uses lent w₀ (p :: going) ((Place.holdings types (w₀.files a.stack)).holds p + due) d
      going due) :
    Drops types a root N n uses lent w₀ going (p ::ₘ due)
      (do let prev ← Teardown.fetchSub a c
          if prev = 1 then d else pure ()) going due := by
  intro phase gone paid w hledger hmid
  obtain ⟨w', hrun, hmid'⟩ := hmid.fetchSub hl hs hledger hc
  have hlt := (hledger.unpaid hs.sound).2.2
  simp only [bind_io hrun]
  by_cases hlast : (Place.holdings types (w₀.files a.stack)).count p - paid.count p = 1
  · obtain ⟨gone', paid', w'', cs, hrun', hrest⟩ :=
      h phase gone (p ::ₘ paid) w' (hledger.payLast hs.sound (by omega)) hmid'
    rw [if_pos hlast, hrun']
    exact ⟨gone', paid', w'', [w] ++ cs, rfl, hrest⟩
  · rw [if_neg hlast]
    exact ⟨gone, p ::ₘ paid, w', [w] ++ [], rfl, hledger.payMore hs.sound (by omega), hmid'⟩

end BStackRaii
