import BStackRaii.Proof.HashSet.Threads
import BStackRaii.Proof.Update
/-!
# The hash set among threads: whole runs

A fresh set has no members, and its filter covers none. From there any number of calls interleave with each other and
with other code on the file. In every state that is reached the buckets hold the members, each member has all its
counters above zero, and the answers are those of a finite set.
-/

namespace BStackRaii

open Probing BucketTable Linearize CountingFilter

namespace BStackHashSet

open BStackCountingBloomFilter (Geometry)

variable {ksize : Nat}

/-! ### A fresh set -/

def noMembers : Held ksize := ⟨⟨⟨0, 0, 0, 0⟩, fun _ => .empty⟩, ∅⟩

section Fresh

variable {a : Allocator} {w₀ : World} {G : Geometry} {f f' : File} {m k : Nat}

theorem newFilter_spec (tag : UInt64) (hk : k < 2 ^ 32) :
    Prog.Spec (Under w₀ a.stack fun _ => True) (BStackCountingBloomFilter.new a tag m k)
      (fun b w => ∃ G : Geometry, (G.filter = b.start ∧ G.Fits) ∧ Under w₀ a.stack G.Stored w) (fun _ _ => True)
      fun _ => True := by
  rw [BStackCountingBloomFilter.new]
  apply Prog.Spec.bind (alloc_under (J := fun r f => r ∈ f.live ∧ r.len = max m 1)
    (fun f r hr _ hlen => ⟨List.mem_cons_self, hlen⟩) (fun _ _ => trivial) fun _ _ _ _ => trivial)
  intro r
  apply Prog.Spec.bind (Q := fun o w => o = .ok () → Under w₀ a.stack (fun f => r ∈ f.live ∧ r.len = max m 1) w)
  · apply Prog.Spec.attempt
    refine (set_under (J := fun f => r ∈ f.live ∧ r.len = max m 1) (fun f hf => ?_) (fun f hf => hf)
      (fun _ _ => trivial) fun e w _ _ h => ?_).weaken (fun _ h => h) (fun _ _ h _ => h) (fun _ _ h => h) fun _ h => h
    · rw [List.length_replicate, ← hf.2]
      exact (f.inside r hf.1).2
    · cases h
  intro zeroed
  cases zeroed with
  | error e =>
      apply Prog.Spec.bind (Q := fun _ _ => True)
      · exact fun w _ => ⟨fun _ _ => trivial, fun _ _ => trivial, fun _ _ => trivial⟩
      · exact fun _ => Prog.Spec.fail fun _ _ => trivial
  | ok u =>
      apply Prog.Spec.assume (φ := r.start < 2 ^ 64 ∧ max m 1 < 2 ^ 64 ∧ r = ⟨r.start, max m 1⟩)
      · intro w hw
        have hf := (hw rfl).1
        have hin := (w.files a.stack).inside r hf.1
        have haddr := (w.files a.stack).addressable
        have hlen := hf.2
        simp only [Range.stop] at hin
        exact ⟨by omega, by omega, by rw [← hlen]⟩
      rintro ⟨hstart, hm, hr⟩
      have hsmall : ∀ v ∈ [BStackCountingBloomFilter.BLOOM_SIZE, tag.toNat, r.start, max m 1, max k 1, 0],
        v < 2 ^ 64 := by
        have htag := tag.toNat_lt
        have hbloom : BStackCountingBloomFilter.BLOOM_SIZE = 48 := rfl
        intro v hv
        simp only [List.mem_cons, List.not_mem_nil, or_false] at hv
        rcases hv with rfl | rfl | rfl | rfl | rfl | rfl <;> omega
      have hpos : ∀ b ∈ [r], 0 < b.len := by
        intro b hb
        rw [List.mem_singleton.mp hb, hr]
        show 0 < max m 1
        omega
      let G : Range → Geometry := fun b => ⟨b.start, r.start, max m 1, max k 1⟩
      apply Prog.Spec.bind (Q := fun o w => ∀ b, o = .ok b → Under w₀ a.stack (G b).Stored w)
      · apply Prog.Spec.attempt
        refine (allocWords_spec hsmall (by simp) hpos).weaken (fun w hw => (hw rfl).mono fun f hf b hb => ?_)
          (fun b w hw b' hb' => ?_) (fun e w _ b hb => ?_) fun _ h => h
        · exact List.mem_singleton.mp hb ▸ hf.1
        · cases hb'
          refine hw.mono fun f hf => ?_
          obtain ⟨hlive, hne⟩ := hf.kept r (List.mem_singleton_self r)
          have hblock : (⟨r.start, max m 1⟩ : Range) ∈ f.live := by
            rw [← hr]
            exact hlive
          refine ⟨hf.block, hblock, fun heq => hne (congrArg Range.start heq).symm, ?_⟩
          exact ⟨hf.words 2 (by simp), hf.words 3 (by simp), hf.words 4 (by simp)⟩
        · cases hb
      · intro built
        cases built with
        | ok b => exact Prog.Spec.pure fun w hw =>
          ⟨G b, ⟨rfl, by show 0 < max m 1; omega, by show max k 1 < _; omega⟩, hw b rfl⟩
        | error e =>
            apply Prog.Spec.bind (Q := fun _ _ => True)
            · exact fun w _ => ⟨fun _ _ => trivial, fun _ _ => trivial, fun _ _ => trivial⟩
            · exact fun _ => Prog.Spec.fail fun _ _ => trivial

def setImage (tag : UInt64) (filter : Nat) : List UInt8 := [SET_SIZE, tag.toNat, 0, 0, 0, 0, filter].flatMap (leBytes 8)

theorem length_setImage (tag : UInt64) (filter : Nat) : (setImage tag filter).length = SET_SIZE := by
  rw [setImage, List.length_flatMap]
  simp [SET_SIZE, HEADER_SIZE]

/-- A table without buckets and a filter make a set without members. -/
theorem holds_fresh {b : Range} {tag : UInt64} (hb : Filled b (setImage tag G.filter) f) (hG : G.Stored f) :
    Holds G b.start (noMembers : Held ksize) 0 f := by
  have hvs : ∀ v ∈ [SET_SIZE, tag.toNat, 0, 0, 0, 0, G.filter], v < 2 ^ 64 := by
    have htag := tag.toNat_lt
    have hsize : SET_SIZE = 56 := rfl
    have hin := hG.header_inside
    have haddr := f.addressable
    intro v hv
    simp only [List.mem_cons, List.not_mem_nil, or_false] at hv
    rcases hv with rfl | rfl | rfl | rfl | rfl | rfl | rfl <;> omega
  have hlink : f.bytes.word (b.start + 6 * 8) = G.filter := word_image hvs hb.read (by simp)
  have hlen : b.len = SET_SIZE := hb.len.trans (length_setImage _ _)
  have hzero : leNat (leBytes 8 0) = 0 := leNat_leBytes (by decide)
  have htabled := tabled_of_filled ksize hb (by rw [length_setImage]; decide) (by
    simp [setImage, metaOf, getU64, HEADER_SIZE, List.drop_append, List.take_append, hzero]) keyPayload
  rw [hlen] at htabled
  exact ⟨htabled, maps_empty 0, hlink, hG, fun j _ => .inr (Nat.zero_le _)⟩

/-- A block beside those of a filter. -/
structure Beside (G : Geometry) (b : Range) (f : File) : Prop where
  stored : G.Stored f
  live : b ∈ f.live
  header : b ≠ G.header
  block : b ≠ G.block

theorem Beside.allocAt {r : Range} (h : G.Stored f) (hr : f.Admits r) : Beside G r (f.allocAt r hr) where
  stored := (h.frame fun _ hb => allocAt_keeps hr (hb.elim (fun hb => hb ▸ h.header) fun hb => hb ▸ h.block)).1
  live := List.mem_cons_self
  header := ne_of_apart (hr.2.2 _ h.header)
  block := ne_of_apart (hr.2.2 _ h.block)

theorem Beside.write {b : Range} {tag : UInt64} (h : Beside G b f) (hlen : b.len = SET_SIZE) :
    Holds G b.start (noMembers : Held ksize) 0 (f.write b.start (setImage tag G.filter)) ∧
      fixed G b.start ≤ (↑(f.write b.start (setImage tag G.filter)).live : Multiset Range) := by
  have hblock : (⟨b.start, SET_SIZE⟩ : Range) = b := by rw [← hlen]
  have hkeep : ∀ r, r = G.header ∨ r = G.block → r ∈ (f.write b.start (setImage tag G.filter)).live ∧
      ∀ i, r.start ≤ i → i < r.stop → (f.write b.start (setImage tag G.filter)).bytes i = f.bytes i := by
    intro r hr
    have hlive : r ∈ f.live := hr.elim (fun hr => hr ▸ h.stored.header) fun hr => hr ▸ h.stored.block
    have hne : b ≠ r := hr.elim (fun hr => hr ▸ h.header) fun hr => hr ▸ h.block
    refine ⟨hlive, fun i hlo hhi => ?_⟩
    rw [File.bytes_write]
    rcases (apart_of_mem f.apart h.live hlive hne).2 with hl | hl
    · exact Mem.write_of_ge (by rw [length_setImage, ← hlen]; exact Nat.le_trans hl hlo)
    · exact Mem.write_of_lt (by omega)
  have hfilled : Filled b (setImage tag G.filter) (f.write b.start (setImage tag G.filter)) :=
    ⟨hlen.trans (length_setImage _ _).symm, h.live, Mem.read_write_self _ _ _⟩
  refine ⟨holds_fresh hfilled (h.stored.frame hkeep).1, ?_⟩
  rw [fixed, hblock, Multiset.singleton_add, Multiset.singleton_add, File.live_write]
  apply (Multiset.le_iff_subset ?_).mpr
  · intro r hr
    simp only [Multiset.mem_cons, Multiset.mem_singleton] at hr
    rcases hr with rfl | rfl | rfl
    · exact Multiset.mem_coe.mpr h.live
    · exact Multiset.mem_coe.mpr h.stored.header
    · exact Multiset.mem_coe.mpr h.stored.block
  · simp only [Multiset.nodup_cons, Multiset.mem_cons, Multiset.mem_singleton, not_or]
    exact ⟨⟨h.header, h.block⟩, h.stored.distinct, Multiset.nodup_singleton _⟩

theorem withCapacity_spec (tag filterTag : UInt64) (hk : k < 2 ^ 32) (dropFilter : Range → Io Unit) :
    Prog.Spec (Under w₀ a.stack fun _ => True) (withCapacity a tag filterTag m k dropFilter)
      (fun b w => ∃ G : Geometry, G.Fits ∧ Under w₀ a.stack (fun f => Holds G b.start (noMembers : Held ksize) 0 f ∧
        fixed G b.start ≤ (↑f.live : Multiset Range)) w) (fun _ _ => True) fun _ => True := by
  rw [withCapacity]
  apply Prog.Spec.bind (newFilter_spec filterTag hk)
  intro filter
  apply Prog.Spec.exists
  intro G
  apply Prog.Spec.given
  rintro ⟨hfilter, hfits⟩
  have himage : [SET_SIZE, tag.toNat, 0, 0, 0, 0, filter.start].flatMap (leBytes 8) = setImage tag G.filter := by
    rw [hfilter]
    rfl
  rw [himage]
  apply Prog.Spec.bind (Q := fun o w => ∀ b, o = .ok b → Under w₀ a.stack (fun f =>
    Holds G b.start (noMembers : Held ksize) 0 f ∧ fixed G b.start ≤ (↑f.live : Multiset Range)) w)
  · apply Prog.Spec.attempt
    refine (allocImage_under _ (I := G.Stored) (J := fun b f => b.len = SET_SIZE ∧ Beside G b f)
      (K := fun b f => Holds G b.start (noMembers : Held ksize) 0 f ∧ fixed G b.start ≤ (↑f.live : Multiset Range))
      (fun f r hr hf hlen => ?_) (fun r f hf => ?_) fun r f hf => ?_).weaken (fun _ h => h) (fun b w hw b' hb => ?_)
      (fun e w _ b hb => ?_) fun _ h => h
    · exact ⟨hlen.trans (length_setImage _ _), Beside.allocAt hf hr⟩
    · rw [length_setImage, ← hf.1]
      exact (f.inside r hf.2.live).2
    · exact hf.2.write hf.1
    · cases hb
      exact hw
    · cases hb
  · intro built
    cases built with
    | ok b => exact Prog.Spec.pure fun w hw => ⟨G, hfits, hw b rfl⟩
    | error e =>
        apply Prog.Spec.bind (Q := fun _ _ => True)
        · exact fun w _ => ⟨fun _ _ => trivial, fun _ _ => trivial, fun _ _ => trivial⟩
        · exact fun _ => Prog.Spec.fail fun _ _ => trivial

end Fresh

/-! ### Runs -/

/-- Nobody has called the set yet. Its buckets are the one block that counts as granted. -/
structure Starts (a : Allocator) (G : Geometry) (handle : Nat) (x : Held ksize)
    (s : Shared (SetOp ksize) Bool) : Prop where
  fresh : s.Fresh
  fits : G.Fits
  holds : Holds G handle x 0 (s.world.files a.stack)
  granted : s.granted = x.table.blocks keyPayload
  live : fixed G handle + x.table.blocks keyPayload ≤ (↑(s.world.files a.stack).live : Multiset Range)

/-- The states that the calls of the set and other code reach, with the queries that were in flight when the buckets
moved. -/
def Reaches (a : Allocator) (G : Geometry) (handle : Nat) :
    Shared (SetOp ksize) Bool → Shared (SetOp ksize) Bool → Set Nat → Prop :=
  Shared.Run a.stack (fixed G handle) (SetOp.code a handle) (root handle)

/-- What a call in flight has counted. One that is done counts for nothing, as does a query. -/
inductive Counts (a : Allocator) (G : Geometry) (handle : Nat) (x : Held ksize) (t : Task (SetOp ksize) Bool) :
    Multiset (Key ksize) → Prop
  | rest {held : Multiset Range} {keys : Multiset (Key ksize)} {φ : Finset (Key ksize) → Prop}
      (h : Rest a G handle x t.op t.code held keys φ) : Counts a G handle x t keys
  | tail {held : Multiset Range} {keys : Multiset (Key ksize)} {out : Except IoError Bool}
      (h : Tail a G handle t.op t.code held keys out) : Counts a G handle x t keys
  | done {out : Except IoError Bool} (h : t.code = .done out) : Counts a G handle x t 0
  | astray (h : Astray a t.op t.code) : Counts a G handle x t 0

/-- The calls in flight have counted the keys `counted`, each of them those that it has. -/
def Counted (a : Allocator) (G : Geometry) (handle : Nat) (x : Held ksize) (tasks : Multiset (Task (SetOp ksize) Bool))
    (counted : Multiset (Key ksize)) : Prop :=
  ∃ flights : Multiset (Task (SetOp ksize) Bool × Multiset (Key ksize)), tasks = flights.map Prod.fst ∧
    counted = (flights.map Prod.snd).sum ∧ ∀ t ∈ flights, Counts a G handle x t.1 t.2

/-- What a run from the set `x₀` on has come to: the set is `x`, the calls in flight own the blocks `held` and have
counted the keys `counted`, and the calls that took effect did so in the order `l`. Of the queries in `lost` nothing is
said. -/
structure Agrees (a : Allocator) (G : Geometry) (handle : Nat) (x₀ : Held ksize) (s : Shared (SetOp ksize) Bool)
    (lost : Set Nat) (x : Held ksize) (held : Multiset Range) (counted : Multiset (Key ksize))
    (l : List (Effect (SetOp ksize) (Except IoError Bool))) : Prop where
  tabled : Tabled keyPayload (s.world.files a.stack) handle SET_SIZE x.table
  maps : Maps x.table.info.cap x.table.slots (present x.members)
  covers : Covers 255 G.m (fun key => G.weight key.val) (G.counter (s.world.files a.stack)) (x.members.val + counted)
  counting : Counted a G handle x s.tasks counted
  covered : ∀ key ∈ x.members, ∀ j ∈ G.named key.val, G.counter (s.world.files a.stack) j ≠ 0
  order : Linearizes object x₀.members lostᶜ s.events l
  members : after object x₀.members l = x.members
  blocks : s.granted = x.table.blocks keyPayload + held + s.freed
  live : fixed G handle + (x.table.blocks keyPayload + held) ≤ (↑(s.world.files a.stack).live : Multiset Range)
  idle : s.tasks = 0 → held = 0

section Runs

variable {a : Allocator} {G : Geometry} {handle : Nat} {x x₀ : Held ksize} {s₀ s : Shared (SetOp ksize) Bool}
  {lost : Set Nat} {members : Finset (Key ksize)} {events : List (Event (SetOp ksize) (Except IoError Bool))}
  {l : List (Effect (SetOp ksize) (Except IoError Bool))}

/-- A call counts for the keys that it holds, or for none of them. -/
theorem Counts.of_going {t : Discipline.Flight (SetOp ksize) Bool (Multiset (Key ksize))}
    (h : Discipline.Going (discipline a G handle) object members x lost events l t) :
    ∃ keys, keys ≤ t.tokens ∧ Counts a G handle x t.task keys := by
  cases h with
  | pending φ hrest _ _ => exact ⟨t.tokens, le_refl _, .rest hrest⟩
  | effected out hdone _ _ => exact ⟨0, Multiset.zero_le _, .done hdone⟩
  | trailing out htail _ => exact ⟨t.tokens, le_refl _, .tail htail⟩
  | astray hastray _ _ _ => exact ⟨0, Multiset.zero_le _, .astray hastray⟩

theorem Counted.of_going {ts : Multiset (Discipline.Flight (SetOp ksize) Bool (Multiset (Key ksize)))}
    (h : ∀ t ∈ ts, Discipline.Going (discipline a G handle) object members x lost events l t) :
    ∃ counted, counted ≤ (ts.map Discipline.Flight.tokens).sum ∧
      Counted a G handle x (ts.map Discipline.Flight.task) counted := by
  induction ts using Multiset.induction_on with
  | empty => exact ⟨0, le_refl _, 0, rfl, rfl, fun _ ht => absurd ht (Multiset.notMem_zero _)⟩
  | cons t ts ih =>
      obtain ⟨counted, hle, flights, htasks, rfl, hcounts⟩ := ih fun u hu => h u (Multiset.mem_cons_of_mem hu)
      obtain ⟨keys, hkeys, hcount⟩ := Counts.of_going (h t (Multiset.mem_cons_self t ts))
      refine ⟨keys + (flights.map Prod.snd).sum, ?_, (t.task, keys) ::ₘ flights, ?_, ?_, fun u hu => ?_⟩
      · rw [Multiset.map_cons, Multiset.sum_cons]
        exact add_le_add hkeys hle
      · rw [Multiset.map_cons, Multiset.map_cons, htasks]
      · rw [Multiset.map_cons, Multiset.sum_cons]
      · rcases Multiset.mem_cons.mp hu with rfl | hu
        · exact hcount
        · exact hcounts u hu

/-- The calls of a set take effect one after the other, but for the queries that were in flight when the buckets moved.
In every state that a run reaches, the buckets are well formed and hold the members, each counter of the filter is
pinned or counts the members and what calls in flight have counted, and each block that was ever allocated for buckets
is the table, or is in the hands of one call, or was freed, and each of these once. -/
theorem set_linearizes (hstart : Starts a G handle x₀ s₀) (hrun : Reaches a G handle s₀ s lost) :
    ∃ x held counted l, Agrees a G handle x₀ s lost x held counted l := by
  obtain ⟨x, ts, l, hi⟩ :=
    (sound a hstart.fits handle).run hstart.fresh hstart.holds hstart.granted hstart.live hrun
  have hholds : Holds G handle x (ts.map Discipline.Flight.tokens).sum (s.world.files a.stack) := hi.holds
  obtain ⟨counted, hle, hcounted⟩ := Counted.of_going hi.going
  obtain ⟨rest, hrest⟩ := Multiset.le_iff_exists_add.mp hle
  have hcovers := hholds.covers
  rw [hrest, ← add_assoc] at hcovers
  refine ⟨x, (ts.map Discipline.Flight.held).sum, counted, l, hholds.tabled, hholds.maps, hcovers.mono, ?_,
    fun key hmem j hj => hholds.shows hstart.fits hmem hj, hi.lin, hi.value, hi.granted, hi.own, fun hidle => ?_⟩
  · rw [hi.tasks]
    exact hcounted
  · have htasks := hi.tasks
    rw [hidle] at htasks
    rw [Multiset.map_eq_zero.mp htasks.symm]
    rfl

end Runs

/-! ### A run -/

section Example

def oneAllocator : Allocator := ⟨0, true, none, 0⟩

def byteKey (b : UInt8) : Key 1 := ⟨[b], List.length_singleton⟩

/-- An empty set, with a filter of four counters and two hashes. -/
def freshSet : World := (withCapacity oneAllocator 7 8 4 2 (fun _ => pure ()) (World.blank [200, 300, 16, 1000])).final

def quietSet : Shared (SetOp 1) Bool := ⟨freshSet, 0, [], 0, 0⟩

theorem quietSet_starts : ∃ G, Starts oneAllocator G 16 (noMembers : Held 1) quietSet := by
  obtain ⟨hok, -⟩ := @withCapacity_spec 1 oneAllocator (World.blank [200, 300, 16, 1000]) 4 2 7 8 (by decide)
    (fun _ => pure ()) _ (Under.refl trivial)
  obtain ⟨G, hfits, hholds, hquiet⟩ := hok ⟨16, 56⟩ (by decide +kernel)
  refine ⟨G, ⟨hquiet.quiet rfl, rfl, rfl, rfl⟩, hfits, hholds.1, rfl, ?_⟩
  exact hholds.2

/-- A query while an insertion has counted its key and not yet placed it, and a query and a removal after that. -/
def asksAround : List (Move (SetOp 1)) :=
  [.call 0 3 (.insert (byteKey 5)), .turn 0, .turn 0, .turn 0, .call 1 0 (.contains (byteKey 5))] ++
    Move.turns 20 1 ++ Move.turns 20 0 ++ [.call 2 0 (.contains (byteKey 5)), .call 3 0 (.remove (byteKey 5))] ++
    Move.turns 20 2 ++ Move.turns 20 3

theorem set_linearizes_asked : ∃ G s lost, Reaches oneAllocator G 16 quietSet s lost ∧
    s.events = [.call 0 (.insert (byteKey 5)), .call 1 (.contains (byteKey 5)), .ret 1 (.ok false), .ret 0 (.ok true),
      .call 2 (.contains (byteKey 5)), .call 3 (.remove (byteKey 5)), .ret 2 (.ok true), .ret 3 (.ok true)] ∧
    ∃ x held counted l, Agrees oneAllocator G 16 (noMembers : Held 1) s lost x held counted l := by
  obtain ⟨G, hstart⟩ := quietSet_starts
  have hsteps : Relation.ReflTransGen (Shared.Step 0 (fixed G 16) (SetOp.code oneAllocator 16)) quietSet _ :=
    Played.play_steps (Played.idle freshSet) asksAround
  obtain ⟨lost, hrun⟩ := Shared.Run.exists_of_steps (root 16) hsteps
  exact ⟨G, _, lost, hrun, by decide +kernel, set_linearizes hstart hrun⟩

end Example

end BStackHashSet

end BStackRaii
