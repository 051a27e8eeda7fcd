import BStackRaii.Logic.CountingFilter
import BStackRaii.Model.HashSet
import BStackRaii.Proof.Table.Stages
/-!
# The counting filter on its file

A `Geometry` is what the handle of a filter says for good: where its counters are, how many, and how many hashes a key
has. Each call reads it first. An adjustment then is one atomic step, which raises or lowers every counter that its
key names as often as it names it; a query reads one counter at a time.
-/

namespace BStackRaii

open CountingFilter

namespace BStackCountingBloomFilter

/-! ### Aggregation -/

/-- Each index that is named, once, with how often it is. -/
structure Aggregates (idxs : List Nat) (agg : List (Nat × Nat)) : Prop where
  once : (agg.map Prod.fst).Nodup
  count : ∀ p ∈ agg, p.2 = idxs.count p.1
  all : ∀ i, i ∈ agg.map Prod.fst ↔ i ∈ idxs

theorem count_cons_nat (x : Nat) (xs : List Nat) (i : Nat) :
    (x :: xs).count i = xs.count i + if i = x then 1 else 0 := by
  rw [List.count_cons]
  by_cases hx : i = x
  · rw [if_pos hx, if_pos (beq_iff_eq.mpr hx.symm)]
  · rw [if_neg hx, if_neg fun h => hx (beq_iff_eq.mp h).symm]

/-- The loop over sorted indices, none of which is below the last one. -/
theorem collapse_spec {xs : List Nat} (last : Nat × Nat) (hsorted : (last.1 :: xs).Pairwise (· ≤ ·))
    (hlt : last.2 + xs.length < 2 ^ 32) :
    ∃ agg, collapse xs last = .ok agg ∧ (agg.map Prod.fst).Pairwise (· < ·) ∧
      (∀ p ∈ agg, last.1 ≤ p.1 ∧ p.2 = xs.count p.1 + if p.1 = last.1 then last.2 else 0) ∧
      ∀ i, i ∈ agg.map Prod.fst ↔ i = last.1 ∨ i ∈ xs := by
  induction xs generalizing last with
  | nil => exact ⟨[last], rfl, List.pairwise_singleton _ _, by simp, by simp⟩
  | cons x xs ih =>
      obtain ⟨hle, hsorted'⟩ := List.pairwise_cons.mp hsorted
      rw [List.length_cons] at hlt
      by_cases heq : last.1 = x
      · have hbump : bump last.2 = .ok (last.2 + 1) := if_pos (by omega)
        obtain ⟨agg, hagg, hmono, hcount, hall⟩ := ih (x, last.2 + 1) hsorted' (by omega)
        refine ⟨agg, ?_, hmono, fun p hp => ?_, fun i => ?_⟩
        · rw [collapse, if_pos heq, hbump]
          exact hagg
        · obtain ⟨hge, hp⟩ := hcount p hp
          refine ⟨heq ▸ hge, ?_⟩
          rw [hp, count_cons_nat, heq]
          split <;> omega
        · rw [hall i, heq, List.mem_cons]
          tauto
      · have hlt' : last.1 < x := Nat.lt_of_le_of_ne (hle x List.mem_cons_self) heq
        obtain ⟨agg, hagg, hmono, hcount, hall⟩ := ih (x, 1) hsorted' (by omega)
        refine ⟨last :: agg, ?_, ?_, fun p hp => ?_, fun i => ?_⟩
        · rw [collapse, if_neg heq, hagg]
          rfl
        · rw [List.map_cons, List.pairwise_cons]
          refine ⟨fun i hi => ?_, hmono⟩
          obtain ⟨p, hp, rfl⟩ := List.mem_map.mp hi
          exact Nat.lt_of_lt_of_le hlt' (hcount p hp).1
        · rcases List.mem_cons.mp hp with rfl | hp
          · refine ⟨Nat.le_refl _, ?_⟩
            have hnone : (x :: xs).count p.1 = 0 := by
              rw [List.count_eq_zero]
              intro hmem
              rcases List.mem_cons.mp hmem with hx | hxs
              · exact heq hx
              · have hge := (List.pairwise_cons.mp hsorted').1 p.1 hxs
                omega
            rw [hnone, if_pos rfl, Nat.zero_add]
          · obtain ⟨hge, hp⟩ := hcount p hp
            replace hge : x ≤ p.1 := hge
            refine ⟨by omega, ?_⟩
            rw [hp, count_cons_nat, if_neg (show ¬ p.1 = last.1 by omega), Nat.add_zero]
        · rw [List.map_cons, List.mem_cons, hall i, List.mem_cons]

theorem aggregate_spec {idxs : List Nat} (hlt : idxs.length < 2 ^ 32) :
    ∃ agg, aggregate idxs = .ok agg ∧ Aggregates idxs agg := by
  have hperm := List.perm_insertionSort (· ≤ ·) idxs
  have hsorted := List.pairwise_insertionSort (· ≤ ·) idxs
  rw [aggregate]
  cases hsort : idxs.insertionSort (· ≤ ·) with
  | nil =>
      rw [hsort] at hperm
      have hnil := List.nil_perm.mp hperm
      subst hnil
      exact ⟨[], rfl, List.nodup_nil, by simp, fun i => Iff.rfl⟩
  | cons x xs =>
      rw [hsort] at hsorted hperm
      have hlen := hperm.length_eq
      rw [List.length_cons] at hlen
      obtain ⟨agg, hagg, hmono, hcount, hall⟩ := collapse_spec (x, 1) hsorted (by show 1 + _ < _; omega)
      refine ⟨agg, hagg, hmono.imp fun h => Nat.ne_of_lt h, fun p hp => ?_, fun i => ?_⟩
      · rw [(hcount p hp).2, ← hperm.count_eq, count_cons_nat]
      · rw [hall i, ← hperm.mem_iff, List.mem_cons]

/-! ### The filter in its file -/

/-- What the handle of a filter says for good. -/
structure Geometry where
  filter : Nat
  data : Nat
  m : Nat
  k : Nat
deriving DecidableEq, Repr

namespace Geometry

variable (G : Geometry)

def header : Range := ⟨G.filter, BLOOM_SIZE⟩

def block : Range := ⟨G.data, G.m⟩

/-- The counters that a key names. -/
def named (keyBytes : List UInt8) : List Nat := (List.range G.k).map (indexOf G.m keyBytes)

def weight (keyBytes : List UInt8) (j : Nat) : Nat := (G.named keyBytes).count j

def counter (f : File) (j : Nat) : Nat := (f.bytes (G.data + j)).toNat

/-- A filter that can be worked with. `new` makes sure of the first. -/
structure Fits : Prop where
  m_pos : 0 < G.m
  k_lt : G.k < 2 ^ 32

/-- The file holds the two blocks of the filter. -/
structure Stored (f : File) : Prop where
  header : G.header ∈ f.live
  block : G.block ∈ f.live
  distinct : G.header ≠ G.block
  fields : f.bytes.word (G.filter + DATA_OFF) = G.data ∧ f.bytes.word (G.filter + M_OFF) = G.m ∧
    f.bytes.word (G.filter + M_OFF + 8) = G.k

/-- A write to the item count, or to a counter. -/
def InFilter (x : Nat × List UInt8) : Prop :=
  (G.filter + N_OFF ≤ x.1 ∧ x.1 + x.2.length ≤ G.header.stop) ∨ (G.data ≤ x.1 ∧ x.1 + x.2.length ≤ G.block.stop)

end Geometry

section Stored

variable {G : Geometry} {f f' : File} {keyBytes : List UInt8} {a : Allocator} {w : World} {agg : List (Nat × Nat)}

theorem Geometry.named_lt (h : G.Fits) {i : Nat} (hi : i ∈ G.named keyBytes) : i < G.m := by
  obtain ⟨j, -, rfl⟩ := List.mem_map.mp hi
  exact Nat.mod_lt _ h.m_pos

theorem Geometry.weight_pos {i : Nat} (hi : i ∈ G.named keyBytes) : 0 < G.weight keyBytes i := List.count_pos_iff.mpr hi

theorem Geometry.indices_eq (h : G.Fits) (keyBytes : List UInt8) :
    indices G.m G.k keyBytes = .ok (G.named keyBytes) := by
  have hm := h.m_pos
  have hk := h.k_lt
  rw [indices, if_neg (by omega), if_neg (by simp only [vecCapacity]; omega)]
  rfl

theorem Geometry.aggregated (h : G.Fits) (keyBytes : List UInt8) :
    ∃ agg, aggregate (G.named keyBytes) = .ok agg ∧ Aggregates (G.named keyBytes) agg := by
  apply aggregate_spec
  rw [Geometry.named, List.length_map, List.length_range]
  exact h.k_lt

namespace Geometry.Stored

theorem header_inside (h : G.Stored f) : G.filter + 48 ≤ f.len := (f.inside _ h.header).2

theorem block_inside (h : G.Stored f) : G.data + G.m ≤ f.len := (f.inside _ h.block).2

theorem apart (h : G.Stored f) : G.filter + 48 ≤ G.data ∨ G.data + G.m ≤ G.filter :=
  (apart_of_mem f.apart h.header h.block h.distinct).2

theorem frame (h : G.Stored f) (hkeep : ∀ r, r = G.header ∨ r = G.block → r ∈ f'.live ∧
    ∀ x, r.start ≤ x → x < r.stop → f'.bytes x = f.bytes x) :
    G.Stored f' ∧ ∀ j < G.m, G.counter f' j = G.counter f j := by
  have hword : ∀ off, off + 8 ≤ 48 → f'.bytes.word (G.filter + off) = f.bytes.word (G.filter + off) := by
    intro off hoff
    apply Mem.word_congr
    intro x hlo hhi
    refine (hkeep _ (.inl rfl)).2 x (Nat.le_trans (Nat.le_add_right _ _) hlo) ?_
    show x < G.filter + 48
    omega
  refine ⟨⟨(hkeep _ (.inl rfl)).1, (hkeep _ (.inr rfl)).1, h.distinct, ?_⟩, fun j hj => ?_⟩
  · have hfields := h.fields
    rw [← hword DATA_OFF (by decide), ← hword M_OFF (by decide), Nat.add_assoc,
      ← hword (M_OFF + 8) (by decide)] at hfields
    exact hfields
  · refine congrArg UInt8.toNat ((hkeep _ (.inr rfl)).2 _ (Nat.le_add_right _ _) ?_)
    show G.data + j < G.data + G.m
    omega

theorem counterOff_ok (h : G.Stored f) {i : Nat} (hi : i < G.m) : counterOff G.data i = .ok (G.data + i) := by
  have hin := h.block_inside
  have haddr := f.addressable
  exact if_pos (by omega)

end Geometry.Stored

namespace Geometry

/-- Writes to a filter leave its geometry. -/
theorem Stored.writeAll (h : G.Stored f) {ws : Batch} (hin : ∀ x ∈ ws, G.InFilter x) :
    G.Stored (File.writeAll ws f) := by
  have hword : ∀ off, off + 8 ≤ N_OFF → (File.writeAll ws f).bytes.word (G.filter + off) =
    f.bytes.word (G.filter + off) := by
    intro off hoff
    rw [File.bytes_writeAll]
    apply congrArg leNat
    apply Mem.read_writeAll_clear
    intro x hx
    have hapart := h.apart
    have hstop : G.block.stop = G.data + G.m := rfl
    have hn : N_OFF = 40 := rfl
    have hlo := hin x hx
    simp only [InFilter, hstop] at hlo
    simp only [Mem.Clear]
    omega
  have hfields := h.fields
  rw [← hword DATA_OFF (by decide), ← hword M_OFF (by decide), Nat.add_assoc,
    ← hword (M_OFF + 8) (by decide)] at hfields
  exact ⟨(File.live_writeAll ws f).symm ▸ h.header, (File.live_writeAll ws f).symm ▸ h.block, h.distinct, hfields⟩

theorem Stored.write_inside (h : G.Stored f) {x : Nat × List UInt8} (hx : G.InFilter x) : x.1 + x.2.length ≤ f.len := by
  have hheader := h.header_inside
  have hblock := h.block_inside
  rcases hx with ⟨-, hx⟩ | ⟨-, hx⟩
  · exact Nat.le_trans hx hheader
  · exact Nat.le_trans hx hblock

end Geometry

/-! ### Reading the handle -/

theorem Geometry.Stored.read (h : G.Stored (w.files a.stack)) (hq : w.Quiet) :
    readFields a.stack (G.filter + DATA_OFF) 3 w = ⟨.ok [G.data, G.m, G.k], w, []⟩ := by
  have hin := h.header_inside
  obtain ⟨hdata, hm, hk⟩ := h.fields
  rw [readFields_run hq (by simp only [DATA_OFF, HEADER_SIZE]; omega), ← hdata, ← hm, ← hk]
  rfl

theorem counterOffs_ok (h : G.Stored f) {is : List Nat} (his : ∀ i ∈ is, i < G.m) :
    is.mapM (counterOff G.data) = .ok (is.map (G.data + ·)) := by
  induction is with
  | nil => rfl
  | cons i is ih =>
      rw [List.mapM_cons, h.counterOff_ok (his i List.mem_cons_self), ih fun j hj => his j (List.mem_cons_of_mem i hj)]
      rfl

def adjustStep (a : Allocator) (G : Geometry) (agg : List (Nat × Nat)) (add : Bool) : Script IoError World Unit :=
  .step (inplaceGen a.stack (adjustGen G.filter add (agg.map fun p => G.data + p.1) (agg.map Prod.snd))) fun r =>
    Script.done r >>= Script.lift

theorem adjust_reads (hfits : G.Fits) (h : G.Stored (w.files a.stack)) (hq : w.Quiet) (keyBytes : List UInt8)
    (add : Bool) : ∃ agg, Aggregates (G.named keyBytes) agg ∧ (Steps.adjust a G.filter keyBytes add).Running ∧
      (Steps.adjust a G.filter keyBytes add).advance w = (adjustStep a G agg add, w) := by
  obtain ⟨agg, hagg, haggs⟩ := Geometry.aggregated hfits keyBytes
  refine ⟨agg, haggs, trivial, ?_⟩
  have hoffs : (agg.map Prod.fst).mapM (counterOff G.data) = .ok (agg.map fun p => G.data + p.1) := by
    rw [counterOffs_ok h, List.map_map]
    · rfl
    · exact fun i hi => Geometry.named_lt hfits ((haggs.all i).mp hi)
  rw [Steps.adjust, Script.atom_bind, Script.advance, h.read hq]
  simp only [Script.done_ok_bind, List.getD_cons_zero, List.getD_cons_succ, Geometry.indices_eq hfits, Script.lift_bind,
    hagg, hoffs]
  rfl

/-! ### Adjusting -/

theorem readCounters_eval {offs : List Nat} (h : ∀ off ∈ offs, off + 1 ≤ f.len) :
    (readCounters offs).eval f = .ok (offs.map fun off => (f.bytes off).toNat) := by
  induction offs with
  | nil => rfl
  | cons off offs ih =>
      rw [readCounters, Gen.eval_bind_ok (Gen.eval_get (h off List.mem_cons_self)),
        Gen.eval_bind_ok (ih fun o ho => h o (List.mem_cons_of_mem off ho))]
      rfl

def adjustWrites (G : Geometry) (f : File) (agg : List (Nat × Nat)) (add : Bool) : Batch :=
  (agg.map fun p => (G.data + p.1, leBytes 1 (adjusted add (G.counter f p.1) p.2))) ++
    [w8 (G.filter + N_OFF) (adjustedCount add (f.bytes.word (G.filter + N_OFF)))]

theorem adjust_eval (hfits : G.Fits) (h : G.Stored f) (hagg : Aggregates (G.named keyBytes) agg) (add : Bool) :
    (adjustGen G.filter add (agg.map fun p => G.data + p.1) (agg.map Prod.snd)).eval f =
      .ok (adjustWrites G f agg add, ()) := by
  have hin := h.block_inside
  have hheader := h.header_inside
  have hoffs : ∀ off ∈ agg.map fun p => G.data + p.1, off + 1 ≤ f.len := by
    intro off hoff
    obtain ⟨p, hp, rfl⟩ := List.mem_map.mp hoff
    have hlt := Geometry.named_lt hfits ((hagg.all p.1).mp (List.mem_map_of_mem hp))
    omega
  have hcount : G.filter + N_OFF + 8 ≤ f.len := hheader
  rw [adjustGen, Gen.eval_bind_ok (readCounters_eval hoffs), Gen.eval_bind_ok (Gen.eval_get hcount), List.map_map,
    List.zip_map', List.map_map, List.zip_map']
  rfl

theorem adjustWrites_inFilter (hfits : G.Fits) (hagg : Aggregates (G.named keyBytes) agg) (add : Bool) :
    ∀ x ∈ adjustWrites G f agg add, G.InFilter x := by
  intro x hx
  rcases List.mem_append.mp hx with hx | hx
  · obtain ⟨p, hp, rfl⟩ := List.mem_map.mp hx
    have hlt := Geometry.named_lt hfits ((hagg.all p.1).mp (List.mem_map_of_mem hp))
    refine .inr ⟨Nat.le_add_right _ _, ?_⟩
    show G.data + p.1 + 1 ≤ G.data + G.m
    omega
  · rw [List.mem_singleton.mp hx]
    exact .inl ⟨Nat.le_refl _, Nat.le_refl _⟩

theorem adjustWrites_apart (hfits : G.Fits) (h : G.Stored f) (hagg : Aggregates (G.named keyBytes) agg) (add : Bool) :
    (adjustWrites G f agg add).Pairwise fun x y => Mem.Clear x.1 x.2.length y := by
  rw [adjustWrites, List.pairwise_append]
  refine ⟨?_, List.pairwise_singleton _ _, fun x hx y hy => ?_⟩
  · rw [List.pairwise_map]
    refine (List.pairwise_map.mp hagg.once).imp fun {p q} hne => ?_
    show G.data + p.1 + 1 ≤ G.data + q.1 ∨ G.data + q.1 + 1 ≤ G.data + p.1
    omega
  · obtain ⟨p, hp, rfl⟩ := List.mem_map.mp hx
    rw [List.mem_singleton.mp hy]
    have hlt := Geometry.named_lt hfits ((hagg.all p.1).mp (List.mem_map_of_mem hp))
    have hapart := h.apart
    show G.data + p.1 + 1 ≤ G.filter + 40 ∨ G.filter + 40 + 8 ≤ G.data + p.1
    omega

theorem counter_lt (G : Geometry) (f : File) (j : Nat) : G.counter f j < 256 := (f.bytes (G.data + j)).toNat_lt

theorem adjusted_lt {n : Nat} (hn : n < 256) (add : Bool) (times : Nat) : adjusted add n times < 256 := by
  rw [adjusted]
  split
  · omega
  · split <;> omega

/-- An adjustment raises or lowers the counters that its key names. -/
theorem counter_adjusted (hfits : G.Fits) (h : G.Stored f) (hagg : Aggregates (G.named keyBytes) agg) (add : Bool)
    {j : Nat} (hj : j < G.m) : G.counter (File.writeAll (adjustWrites G f agg add) f) j =
      adjusted add (G.counter f j) (G.weight keyBytes j) := by
  by_cases hmem : j ∈ agg.map Prod.fst
  · obtain ⟨p, hp, rfl⟩ := List.mem_map.mp hmem
    have hread := Mem.read_writeAll_mem f.bytes (adjustWrites_apart hfits h hagg add)
      (x := (G.data + p.1, leBytes 1 (adjusted add (G.counter f p.1) p.2)))
      (List.mem_append_left _ (List.mem_map.mpr ⟨p, hp, rfl⟩))
    rw [length_leBytes] at hread
    rw [Geometry.counter, File.bytes_writeAll, Geometry.weight, ← hagg.count p hp]
    calc _ = leNat ((Mem.writeAll (adjustWrites G f agg add) f.bytes).read (G.data + p.1) 1) := rfl
      _ = leNat (leBytes 1 (adjusted add (G.counter f p.1) p.2)) := congrArg leNat hread
      _ = adjusted add (G.counter f p.1) p.2 := leNat_leBytes (adjusted_lt (counter_lt G f p.1) add p.2)
  · have hnone : G.weight keyBytes j = 0 := List.count_eq_zero.mpr fun hno => hmem ((hagg.all j).mpr hno)
    have hsame : (Mem.writeAll (adjustWrites G f agg add) f.bytes) (G.data + j) = f.bytes (G.data + j) := by
      apply Mem.writeAll_clear
      intro x hx
      rcases List.mem_append.mp hx with hx | hx
      · obtain ⟨p, hp, rfl⟩ := List.mem_map.mp hx
        have hne : p.1 ≠ j := fun heq => hmem (heq ▸ List.mem_map_of_mem hp)
        show G.data + j + 1 ≤ G.data + p.1 ∨ G.data + p.1 + 1 ≤ G.data + j
        omega
      · rw [List.mem_singleton.mp hx]
        have hapart := h.apart
        show G.data + j + 1 ≤ G.filter + 40 ∨ G.filter + 40 + 8 ≤ G.data + j
        omega
    have hlt := counter_lt G f j
    rw [hnone, Geometry.counter, File.bytes_writeAll, hsame]
    show G.counter f j = _
    simp only [adjusted]
    split
    · omega
    · split <;> omega

theorem adjust_writes (hfits : G.Fits) (h : G.Stored (w.files a.stack)) (hq : w.Quiet)
    (hagg : Aggregates (G.named keyBytes) agg) (add : Bool) :
    (adjustStep a G agg add).advance w =
      (.done (.ok ()), World.storeAll a.stack (adjustWrites G (w.files a.stack) agg add) w) := by
  rw [adjustStep, Script.advance, inplaceGen_run hq (adjust_eval hfits h hagg add) fun x hx =>
    h.write_inside (adjustWrites_inFilter hfits hagg add x hx)]
  rfl

/-! ### Asking -/

theorem contains_reads (hfits : G.Fits) (h : G.Stored (w.files a.stack)) (hq : w.Quiet) (keyBytes : List UInt8) :
    (Steps.contains a G.filter keyBytes).advance w = (Steps.containsFrom a G.data (G.named keyBytes), w) := by
  rw [Steps.contains, Script.atom_bind, Script.advance, h.read hq]
  simp only [Script.done_ok_bind, List.getD_cons_zero, List.getD_cons_succ, Geometry.indices_eq hfits, Script.lift_bind]

theorem containsFrom_asks (h : G.Stored (w.files a.stack)) (hq : w.Quiet) {idx : Nat} (hidx : idx < G.m)
    (idxs : List Nat) : (Steps.containsFrom a G.data (idx :: idxs)).Running ∧
      (Steps.containsFrom a G.data (idx :: idxs)).advance w =
        (if G.counter (w.files a.stack) idx = 0 then .done (.ok false) else Steps.containsFrom a G.data idxs, w) := by
  have hin := h.block_inside
  rw [Steps.containsFrom, h.counterOff_ok hidx, Script.lift_bind, Script.done_ok_bind, Script.atom_bind]
  refine ⟨trivial, ?_⟩
  rw [Script.advance, getInto_run hq (by omega)]
  rfl

end Stored

end BStackCountingBloomFilter

end BStackRaii
