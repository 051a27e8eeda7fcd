import BStackRaii.Proof.BloomFilter
import BStackRaii.Proof.Table.Lookups
import Mathlib.Data.Finset.Erase
import Mathlib.Data.Finset.Insert
/-!
# The hash set on its file

A set has four blocks: its handle, its buckets, and the handle and the counters of its filter. `Holds` says what they
hold: a table of the members, and a filter that covers the members and besides the keys that calls in flight have
counted. A write to the table leaves the filter alone, and the other way round.
-/

namespace BStackRaii

open Probing BucketTable CountingFilter

namespace BStackHashSet

open BStackCountingBloomFilter (Geometry)

variable {ksize : Nat}

/-- An allocation leaves the blocks that are there alone. -/
theorem allocAt_keeps {f : File} {r b : Range} (hr : f.Admits r) (hb : b ∈ f.live) :
    b ∈ (f.allocAt r hr).live ∧ ∀ i, b.start ≤ i → i < b.stop → (f.allocAt r hr).bytes i = f.bytes i := by
  refine ⟨List.mem_cons_of_mem _ hb, fun i hlo hhi => ?_⟩
  rw [File.bytes_allocAt]
  rcases (hr.2.2 b hb).2 with hl | hl
  · exact Mem.write_of_lt (by omega)
  · exact Mem.write_of_ge (by rw [List.length_replicate]; exact Nat.le_trans hl hlo)

def keyPayload : Payload Unit := ⟨0, fun _ => [], fun _ => rfl⟩

theorem stride_eq (ksize : Nat) : stride ksize = width keyPayload ksize := rfl

theorem keep_hits : Hits keyPayload ksize keep fun v => v := by
  intro f handle size t i k v h hi hs
  refine ⟨[], rfl, fun x hx => absurd hx List.not_mem_nil, ?_⟩
  rw [← hs, Function.update_eq_self]
  exact h

def present (members : Finset (Key ksize)) (key : Key ksize) : Option Unit := if key ∈ members then some () else none

theorem present_some {members : Finset (Key ksize)} {key : Key ksize} :
    present members key = some () ↔ key ∈ members := by
  rw [present]
  split <;> simp [*]

theorem present_none {members : Finset (Key ksize)} {key : Key ksize} : present members key = none ↔ key ∉ members := by
  rw [present]
  split <;> simp [*]

theorem update_present (members : Finset (Key ksize)) (key : Key ksize) :
    Function.update (present members) key (some ()) = present (Insert.insert key members) ∧
      Function.update (present members) key none = present (members.erase key) := by
  constructor <;> funext other <;> by_cases heq : other = key
  · subst heq
    rw [Function.update_self, present, if_pos (Finset.mem_insert_self _ _)]
  · rw [Function.update_of_ne heq, present, present]
    simp only [Finset.mem_insert, heq, false_or]
  · subst heq
    rw [Function.update_self, present, if_neg (Finset.notMem_erase _ _)]
  · rw [Function.update_of_ne heq, present, present]
    simp only [Finset.mem_erase, ne_eq, heq, not_false_eq_true, true_and]

structure Held (ksize : Nat) where
  table : Table ksize Unit
  members : Finset (Key ksize)

/-- The blocks of a set besides its buckets. -/
def fixed (G : Geometry) (handle : Nat) : Multiset Range := {⟨handle, SET_SIZE⟩} + ({G.header} + {G.block})

/-- What the file holds, when calls in flight have counted the keys `counted` besides the members. -/
structure Holds (G : Geometry) (handle : Nat) (x : Held ksize) (counted : Multiset (Key ksize)) (f : File) : Prop where
  tabled : Tabled keyPayload f handle SET_SIZE x.table
  maps : Maps x.table.info.cap x.table.slots (present x.members)
  link : f.bytes.word (handle + BLOOM_OFF) = G.filter
  stored : G.Stored f
  covers : Covers 255 G.m (fun key => G.weight key.val) (G.counter f) (x.members.val + counted)

section Blocks

variable {G : Geometry} {handle : Nat} {f f' : File} {bs : Multiset Range} {t t' : Table ksize Unit} {x x' : Held ksize}
  {counted : Multiset (Key ksize)} {ws : Batch}

/-- The blocks of a set are four different ones, and those in the hands of a call are others. -/
structure Own (G : Geometry) (handle : Nat) (bs : Multiset Range) (f : File) : Prop where
  root : (⟨handle, SET_SIZE⟩ : Range) ∈ f.live
  header : G.header ∈ f.live
  block : G.block ∈ f.live
  apart : G.header ≠ ⟨handle, SET_SIZE⟩ ∧ G.block ≠ ⟨handle, SET_SIZE⟩ ∧ G.header ≠ G.block
  others : ∀ r ∈ bs, r ∈ f.live ∧ r ≠ ⟨handle, SET_SIZE⟩ ∧ r ≠ G.header ∧ r ≠ G.block
  mine : {⟨handle, SET_SIZE⟩} + bs ≤ (↑f.live : Multiset Range)

theorem own_of_le (hown : fixed G handle + bs ≤ (↑f.live : Multiset Range)) : Own G handle bs f := by
  have hcons : fixed G handle + bs = ⟨handle, SET_SIZE⟩ ::ₘ G.header ::ₘ G.block ::ₘ bs := by
    rw [fixed, Multiset.singleton_add, Multiset.singleton_add, Multiset.cons_add, Multiset.cons_add,
      Multiset.singleton_add]
  rw [hcons] at hown
  have hnodup := Multiset.nodup_of_le hown (Multiset.coe_nodup.mpr f.nodup_live)
  have hmem : ∀ r ∈ (⟨handle, SET_SIZE⟩ ::ₘ G.header ::ₘ G.block ::ₘ bs : Multiset Range), r ∈ f.live :=
    fun r hr => Multiset.mem_coe.mp (Multiset.mem_of_le hown hr)
  simp only [Multiset.nodup_cons, Multiset.mem_cons, not_or] at hnodup
  obtain ⟨⟨hheader, hblock, hbs⟩, ⟨hheaders, hbs'⟩, hbs'', -⟩ := hnodup
  refine ⟨hmem _ (by simp), hmem _ (by simp), hmem _ (by simp), ⟨Ne.symm hheader, Ne.symm hblock, hheaders⟩,
    fun r hr => ⟨hmem r (by simp [hr]), ?_, ?_, ?_⟩, le_trans ?_ hown⟩
  · exact fun heq => hbs (heq ▸ hr)
  · exact fun heq => hbs' (heq ▸ hr)
  · exact fun heq => hbs'' (heq ▸ hr)
  · rw [Multiset.singleton_add]
    exact Multiset.cons_le_cons _ (le_trans (Multiset.le_cons_self _ _) (Multiset.le_cons_self _ _))

theorem block_mem {t : Table ksize Unit} (hcap : 0 < t.info.cap) : t.block keyPayload ∈ t.blocks keyPayload := by
  rw [Table.blocks, if_pos hcap]
  exact Multiset.mem_singleton_self _

/-- What a call holds is no block of the set. -/
theorem Own.not_both {table held : Multiset Range} (h : Own G handle (table + held) f) {r : Range}
    (hr : r ∈ fixed G handle + table) (hr' : r ∈ held) : False := by
  obtain ⟨-, hne⟩ := h.others r (Multiset.mem_add.mpr (.inr hr'))
  rcases Multiset.mem_add.mp hr with hr | hr
  · simp only [fixed, Multiset.mem_add, Multiset.mem_singleton] at hr
    tauto
  · have hnodup := Multiset.nodup_of_le h.mine (Multiset.coe_nodup.mpr f.nodup_live)
    rw [Multiset.singleton_add, Multiset.nodup_cons] at hnodup
    exact Multiset.disjoint_left.mp (Multiset.nodup_add.mp hnodup.2).2.2 hr hr'

/-- A write that touches neither the filter nor the word that points to it. -/
structure Aside (G : Geometry) (handle : Nat) (y : Nat × List UInt8) : Prop where
  link : Mem.Clear (handle + BLOOM_OFF) 8 y
  header : Mem.Clear G.filter 48 y
  block : Mem.Clear G.data G.m y

theorem aside_of_inWords (hown : Own G handle bs f) (hblock : 0 < t.info.cap → t.block keyPayload ∈ bs)
    {y : Nat × List UInt8} (hy : InWords keyPayload handle t y) : Aside G handle y := by
  have hheader := (apart_of_mem f.apart hown.root hown.header hown.apart.1.symm).2
  have hcounters := (apart_of_mem f.apart hown.root hown.block hown.apart.2.1.symm).2
  simp only [Range.stop, Geometry.header, Geometry.block, SET_SIZE, HEADER_SIZE,
    BStackCountingBloomFilter.BLOOM_SIZE] at hheader hcounters
  rcases hy with ⟨hlo, hhi⟩ | ⟨hcap, hlo, hhi⟩
  · simp only [HEADER_SIZE] at hlo
    constructor <;> simp only [Mem.Clear, BLOOM_OFF, HEADER_SIZE] <;> omega
  · obtain ⟨hlive, hne, hne', hne''⟩ := hown.others _ (hblock hcap)
    have hhandle' := (apart_of_mem f.apart hlive hown.root hne).2
    have hheader' := (apart_of_mem f.apart hlive hown.header hne').2
    have hblock' := (apart_of_mem f.apart hlive hown.block hne'').2
    simp only [Range.stop, Geometry.header, Geometry.block, SET_SIZE, HEADER_SIZE, Table.block,
      BStackCountingBloomFilter.BLOOM_SIZE] at hhandle' hheader' hblock' hhi
    constructor <;> simp only [Mem.Clear, BLOOM_OFF, HEADER_SIZE] <;> omega

/-- Bytes that no write of a batch touches. -/
theorem clear_bytes {off n : Nat} (h : ∀ y ∈ ws, Mem.Clear off n y) {i : Nat} (hlo : off ≤ i) (hhi : i < off + n) :
    (File.writeAll ws f).bytes i = f.bytes i := by
  rw [File.bytes_writeAll]
  apply Mem.writeAll_clear
  intro y hy
  have hclear := h y hy
  simp only [Mem.Clear] at hclear ⊢
  omega

theorem Holds.write_table (h : Holds G handle x counted f) (haside : ∀ y ∈ ws, Aside G handle y)
    (htabled : Tabled keyPayload (File.writeAll ws f) handle SET_SIZE t')
    {members : Finset (Key ksize)} {counted' : Multiset (Key ksize)}
    (hmaps : Maps t'.info.cap t'.slots (present members))
    (hsame : members.val + counted' = x.members.val + counted) :
    Holds G handle ⟨t', members⟩ counted' (File.writeAll ws f) := by
  have hkeep : ∀ r, r = G.header ∨ r = G.block → r ∈ (File.writeAll ws f).live ∧
      ∀ i, r.start ≤ i → i < r.stop → (File.writeAll ws f).bytes i = f.bytes i := by
    intro r hr
    rw [File.live_writeAll]
    rcases hr with rfl | rfl
    · exact ⟨h.stored.header, fun i hlo hhi => clear_bytes (fun y hy => (haside y hy).header) hlo hhi⟩
    · exact ⟨h.stored.block, fun i hlo hhi => clear_bytes (fun y hy => (haside y hy).block) hlo hhi⟩
  obtain ⟨hstored, hcounters⟩ := h.stored.frame hkeep
  refine ⟨htabled, hmaps, ?_, hstored, ?_⟩
  · rw [← h.link]
    exact Mem.word_congr fun i hlo hhi => clear_bytes (fun y hy => (haside y hy).link) hlo hhi
  · show Covers 255 G.m _ _ (members.val + counted')
    rw [hsame]
    exact h.covers.congr hcounters

theorem Holds.write_filter (h : Holds G handle x counted f) (hown : Own G handle bs f)
    (hblock : 0 < x.table.info.cap → x.table.block keyPayload ∈ bs) (hin : ∀ y ∈ ws, G.InFilter y)
    {counted' : Multiset (Key ksize)}
    (hcovers : Covers 255 G.m (fun key => G.weight key.val) (G.counter (File.writeAll ws f))
      (x.members.val + counted')) :
    Holds G handle x counted' (File.writeAll ws f) := by
  have hkeep : ∀ r ∈ f.live, r ≠ G.header → r ≠ G.block → ∀ i, r.start ≤ i → i < r.stop →
      (File.writeAll ws f).bytes i = f.bytes i := by
    intro r hr hne hne' i hlo hhi
    have hheader := (apart_of_mem f.apart hr hown.header hne).2
    have hcounters := (apart_of_mem f.apart hr hown.block hne').2
    have hclear : ∀ y ∈ ws, Mem.Clear r.start r.len y := by
      intro y hy
      have hn : BStackCountingBloomFilter.N_OFF = 40 := rfl
      rcases hin y hy with ⟨hylo, hyhi⟩ | ⟨hylo, hyhi⟩
      · simp only [Range.stop, Geometry.header] at hheader hyhi
        simp only [Mem.Clear]
        omega
      · simp only [Range.stop, Geometry.block] at hcounters hyhi
        simp only [Mem.Clear]
        omega
    exact clear_bytes hclear hlo hhi
  refine ⟨⟨h.tabled.toLaid.frame fun r hr => ?_, h.tabled.toSound⟩, h.maps, ?_, h.stored.writeAll hin, hcovers⟩
  · rw [File.live_writeAll]
    rcases hr with rfl | ⟨hcap, rfl⟩
    · exact ⟨hown.root, hkeep _ hown.root hown.apart.1.symm hown.apart.2.1.symm⟩
    · obtain ⟨hlive, -, hne, hne'⟩ := hown.others _ (hblock hcap)
      exact ⟨hlive, hkeep _ hlive hne hne'⟩
  · rw [← h.link]
    apply Mem.word_congr
    intro i hlo hhi
    refine hkeep _ hown.root hown.apart.1.symm hown.apart.2.1.symm i (Nat.le_trans (Nat.le_add_right _ _) hlo) ?_
    simp only [Range.stop, SET_SIZE, BLOOM_OFF, HEADER_SIZE] at hhi ⊢
    omega

/-- A set is what its blocks hold. -/
theorem Holds.frame (h : Holds G handle x counted f) (hkeep : ∀ r ∈ fixed G handle + x.table.blocks keyPayload,
    r ∈ f.live → r ∈ f'.live ∧ ∀ i, r.start ≤ i → i < r.stop → f'.bytes i = f.bytes i) :
    Holds G handle x counted f' := by
  have hhandle := hkeep ⟨handle, SET_SIZE⟩ (by simp [fixed]) h.tabled.header
  have hfilter : ∀ r, r = G.header ∨ r = G.block → r ∈ f'.live ∧
      ∀ i, r.start ≤ i → i < r.stop → f'.bytes i = f.bytes i := by
    intro r hr
    rcases hr with rfl | rfl
    · exact hkeep _ (by simp [fixed]) h.stored.header
    · exact hkeep _ (by simp [fixed]) h.stored.block
  obtain ⟨hstored, hcounters⟩ := h.stored.frame hfilter
  refine ⟨⟨h.tabled.toLaid.frame fun r hr => ?_, h.tabled.toSound⟩, h.maps, ?_, hstored, h.covers.congr hcounters⟩
  · rcases hr with rfl | ⟨hcap, rfl⟩
    · exact hhandle
    · exact hkeep _ (Multiset.mem_add.mpr (.inr (block_mem hcap))) (h.tabled.block hcap)
  · rw [← h.link]
    apply Mem.word_congr
    intro i hlo hhi
    refine hhandle.2 i (Nat.le_trans (Nat.le_add_right _ _) hlo) ?_
    simp only [Range.stop, SET_SIZE, BLOOM_OFF, HEADER_SIZE] at hhi ⊢
    omega

/-- A call that ends takes its counts with it. -/
theorem Holds.waste {wasted : Multiset (Key ksize)} (h : Holds G handle x (wasted + counted) f) :
    Holds G handle x counted f := by
  have hcovers := h.covers
  rw [add_comm wasted, ← add_assoc] at hcovers
  exact { h with covers := hcovers.mono }

/-- A member has no counter at zero. -/
theorem Holds.shows (h : Holds G handle x counted f) (hfits : G.Fits) {key : Key ksize} (hmem : key ∈ x.members)
    {j : Nat} (hj : j ∈ G.named key.val) : G.counter f j ≠ 0 := by
  have hcovers := h.covers
  rw [← Multiset.cons_erase (Finset.mem_val.mpr hmem), Multiset.cons_add] at hcovers
  exact hcovers.shows (by decide) (BStackCountingBloomFilter.Geometry.named_lt hfits hj)
    (BStackCountingBloomFilter.Geometry.weight_pos hj)

end Blocks

end BStackHashSet

end BStackRaii
