import BStackRaii.Proof.HashSet.Disk
import BStackRaii.Proof.Interleaving
/-!
# Threads that share a hash set

An insertion counts its key in the filter before it touches the table, and takes its count back when the key was
there. A removal takes effect at the table, and its count goes afterwards. So at any moment the filter covers the
members, and a query that finds a counter at zero has seen a moment at which its key was no member.
-/

namespace BStackRaii

open Probing BucketTable Linearize CountingFilter

namespace BStackHashSet

open BStackCountingBloomFilter (Geometry Aggregates adjustStep)

variable {ksize : Nat}

inductive SetOp (ksize : Nat)
  | insert (key : Key ksize)
  | remove (key : Key ksize)
  | contains (key : Key ksize)
deriving DecidableEq, Repr

def SetOp.code (a : Allocator) (handle attempts : Nat) : SetOp ksize → Script IoError World Bool
  | insert key => Steps.insert a handle attempts key
  | remove key => Steps.remove a handle key
  | contains key => Steps.contains a handle key

def SetOp.IsContains : SetOp ksize → Prop
  | contains _ => True
  | _ => False

def SetOp.answer (members : Finset (Key ksize)) : SetOp ksize → Bool
  | insert key => decide (key ∉ members)
  | remove key => decide (key ∈ members)
  | contains key => decide (key ∈ members)

def SetOp.apply (members : Finset (Key ksize)) : SetOp ksize → Finset (Key ksize)
  | insert key => Insert.insert key members
  | remove key => members.erase key
  | contains _ => members

def SetOp.IsInsert : SetOp ksize → Prop
  | insert _ => True
  | _ => False

/-- The finite set as a sequential object. An insertion that fails changes nothing. -/
def object : Object (Finset (Key ksize)) (SetOp ksize) (Except IoError Bool) where
  allows members op out := out = .ok (op.answer members) ∨ op.IsInsert ∧ ∃ e, out = .error e ∧ InsertError e
  next members op out :=
    match out with
    | .ok _ => op.apply members
    | .error _ => members

section Code

variable (a : Allocator) (G : Geometry) (handle : Nat)

/-- What an insertion has left to do once its key is counted. -/
def placing (key : Key ksize) (s : Stage) : Script IoError World Bool :=
  s.code a (entryFor keyPayload handle key ()) keep >>= Steps.settle a G.filter key

/-- What is left once the key of a duplicate is no longer counted. -/
def refuse (_ : Unit) : Script IoError World Bool := pure false

/-- What a removal has left to do, when `c` takes its count back. -/
def forgetting (c : Script IoError World Unit) : Script IoError World Bool := Steps.discard c >>= fun _ => pure true

/-- What a query has left to do once the filter has answered. -/
def judge (key : Key ksize) (possible : Bool) : Script IoError World Bool :=
  if possible then Steps.tableContains a handle key else pure false

def found (old : Option (List UInt8)) : Script IoError World Bool := pure old.isSome

/-- What a call may have left to do, the blocks it owns and the keys it has counted then, and what a moment that it
has seen must satisfy. -/
inductive Rest (x : Held ksize) : SetOp ksize → Script IoError World Bool → Multiset Range → Multiset (Key ksize) →
    (Finset (Key ksize) → Prop) → Prop
  | insert (attempts : Nat) (k : Key ksize) : Rest x (.insert k) (Steps.insert a handle attempts k) 0 0 fun _ => True
  | adding (attempts : Nat) (k : Key ksize) : Rest x (.insert k)
      (BStackCountingBloomFilter.Steps.adjust a G.filter k.val true >>= fun _ => placing a G handle k (.loop attempts))
      0 0 fun _ => True
  | raising (attempts : Nat) {k : Key ksize} {agg : List (Nat × Nat)} (hagg : Aggregates (G.named k.val) agg) :
      Rest x (.insert k) (adjustStep a G agg true >>= fun _ => placing a G handle k (.loop attempts)) 0 0 fun _ => True
  | placing {k : Key ksize} (s : Stage) (hfits : s.Fits keyPayload x.table) :
      Rest x (.insert k) (placing a G handle k s) s.held {k} fun _ => True
  | failed {k : Key ksize} {e : IoError} (he : InsertError e) :
    Rest x (.insert k) (.done (.error e)) 0 {k} fun _ => True
  | taking (k : Key ksize) : Rest x (.insert k)
      (BStackCountingBloomFilter.Steps.adjust a G.filter k.val false >>= refuse) 0 {k} fun members => k ∈ members
  | lowering {k : Key ksize} {agg : List (Nat × Nat)} (hagg : Aggregates (G.named k.val) agg) :
      Rest x (.insert k) (adjustStep a G agg false >>= refuse) 0 {k} fun members => k ∈ members
  | refused (k : Key ksize) : Rest x (.insert k) (.done (.ok false)) 0 0 fun members => k ∈ members
  | remove (k : Key ksize) : Rest x (.remove k) (Steps.remove a handle k) 0 0 fun _ => True
  | contains (k : Key ksize) : Rest x (.contains k) (Steps.contains a handle k) 0 0 fun _ => True
  | asking (k : Key ksize) : Rest x (.contains k)
      (BStackCountingBloomFilter.Steps.contains a G.filter k.val >>= judge a handle k) 0 0 fun _ => True
  | checking {k : Key ksize} {i : Nat} {is : List Nat} (his : ∀ j ∈ i :: is, j ∈ G.named k.val)
    (hin : G.data + i < 2 ^ 64) :
      Rest x (.contains k) (BStackCountingBloomFilter.Steps.containsFrom a G.data (i :: is) >>= judge a handle k) 0 0
        fun _ => True
  | absent (k : Key ksize) : Rest x (.contains k) (.done (.ok false)) 0 0 fun members => k ∉ members
  | looking {k : Key ksize} {c : Script IoError World (Option (List UInt8))} {φ : (Key ksize → Option Unit) → Prop}
      (h : Lookup keyPayload a handle x.table k c φ) :
      Rest x (.contains k) (c >>= found) 0 0 fun members => φ (present members)

/-- What a removal may have left to do once its key is gone. -/
inductive Tail : SetOp ksize → Script IoError World Bool → Multiset Range → Multiset (Key ksize) →
    Except IoError Bool → Prop
  | reading (k : Key ksize) : Tail (.remove k) (forgetting (Steps.bloom a handle >>= fun filter =>
      BStackCountingBloomFilter.Steps.remove a filter k.val)) 0 {k} (.ok true)
  | taking (k : Key ksize) : Tail (.remove k)
    (forgetting (BStackCountingBloomFilter.Steps.remove a G.filter k.val)) 0 {k}
      (.ok true)
  | lowering {k : Key ksize} {agg : List (Nat × Nat)} (hagg : Aggregates (G.named k.val) agg) :
      Tail (.remove k) (forgetting (adjustStep a G agg false)) 0 {k} (.ok true)
  | lowered (k : Key ksize) : Tail (.remove k) (.done (.ok true)) 0 0 (.ok true)

/-- A query that goes on where the buckets were. -/
inductive Astray : SetOp ksize → Script IoError World Bool → Prop
  | stray {k : Key ksize} {c : Script IoError World (Option (List UInt8))}
      (h : Stray a (width keyPayload ksize) ksize k.val c) : Astray (.contains k) (c >>= found)

def discipline : Discipline (Finset (Key ksize)) (SetOp ksize) Bool (Held ksize) (Multiset (Key ksize)) where
  Holds x counted f := Holds G handle x counted f
  value := Held.members
  blocks x := x.table.blocks keyPayload
  Drift x x' := Drifts x.table x'.table
  Rest x op c held counted φ := Rest a G handle x op c held counted φ
  Astray := Astray a
  Tail _ op c held counted out := Tail a G handle op c held counted out

def root : Root (SetOp ksize) := ⟨fun f => f.bytes.word (handle + TABLE_OFF), SetOp.IsContains⟩

end Code

section Steps

variable {a : Allocator} {G : Geometry} {handle : Nat} {w w' : World} {x x' : Held ksize} {k : Key ksize}
  {op : SetOp ksize} {held held' : Multiset Range} {g counted counted' : Multiset (Key ksize)}
  {c : Script IoError World Bool} {f f' : File} {φ : Finset (Key ksize) → Prop} {agg : List (Nat × Nat)}

/-- What the step lemmas say of a call of `op` that has `c` left to do, when the others have counted `g`: the state
`x'`, the rest of the call and the world once the step is made. -/
def Stepped (a : Allocator) (G : Geometry) (handle : Nat) (g : Multiset (Key ksize)) (w : World) (x : Held ksize)
    (op : SetOp ksize) (held : Multiset Range) (φ : Finset (Key ksize) → Prop) (c : Script IoError World Bool) : Prop :=
  ∃ x' held' counted', (discipline a G handle).After a.stack g w (c.advance w).2 x x' held held' counted' ∧
    (discipline a G handle).Outcome object x x' op (c.advance w).1 held' counted' φ

theorem read_stepped {c' : Script IoError World Bool} {φ' : Finset (Key ksize) → Prop} (hq : w.Quiet)
    (hx : Holds G handle x (counted + g) (w.files a.stack)) (hstep : c.advance w = (c', w))
    (hrest : Rest a G handle x op c' held counted φ') (hφ : φ' = φ ∨ φ' x.members) :
    Stepped a G handle g w x op held φ c := by
  rw [Stepped, hstep]
  exact ⟨x, held, counted, .idle hq rfl hx (drifts_refl _) rfl, .further φ' rfl hrest hφ⟩

/-! ### The filter -/

theorem bloom_reads {β : Type} (hq : w.Quiet) (hx : Holds G handle x counted (w.files a.stack))
    (f : Nat → Script IoError World β) : (Steps.bloom a handle >>= f).advance w = (f G.filter, w) := by
  have hin := hx.tabled.toLaid.header_inside
  have hword : handle + BLOOM_OFF + 8 ≤ (w.files a.stack).len := hin
  rw [Steps.bloom, Script.atom_bind, Script.advance, readU64_run hq hword, hx.link]
  rfl

theorem adjust_advance {β : Type} (hfits : G.Fits) (hq : w.Quiet) (hx : Holds G handle x counted (w.files a.stack))
    (k : Key ksize) (add : Bool) (f : Unit → Script IoError World β) :
    ∃ agg, Aggregates (G.named k.val) agg ∧ (BStackCountingBloomFilter.Steps.adjust a G.filter k.val add).Running ∧
      (BStackCountingBloomFilter.Steps.adjust a G.filter k.val add >>= f).advance w =
        (adjustStep a G agg add >>= f, w) := by
  obtain ⟨agg, hagg, hrun, hadvance⟩ := BStackCountingBloomFilter.adjust_reads hfits hx.stored hq k.val add
  refine ⟨agg, hagg, hrun, ?_⟩
  rw [hrun.advance_bind, hadvance]

/-- A key comes into the filter, or goes out. -/
theorem adjusts (hfits : G.Fits) (hx : Holds G handle x counted f)
    (hown : Own G handle (x.table.blocks keyPayload + held) f) (hagg : Aggregates (G.named k.val) agg) {add : Bool}
    (hkeys : (add = true ∧ counted' = k ::ₘ counted) ∨ (add = false ∧ counted = k ::ₘ counted')) :
    Holds G handle x counted' (File.writeAll (BStackCountingBloomFilter.adjustWrites G f agg add) f) := by
  have hblock : 0 < x.table.info.cap → x.table.block keyPayload ∈ x.table.blocks keyPayload + held := by
    intro hcap
    rw [Table.blocks, if_pos hcap]
    exact Multiset.mem_add.mpr (.inl (Multiset.mem_singleton_self _))
  refine hx.write_filter hown hblock (BStackCountingBloomFilter.adjustWrites_inFilter hfits hagg add) ?_
  have hcounters : ∀ j < G.m, G.counter (File.writeAll (BStackCountingBloomFilter.adjustWrites G f agg add) f) j =
      BStackCountingBloomFilter.adjusted add (G.counter f j) (G.weight k.val j) :=
    fun j hj => BStackCountingBloomFilter.counter_adjusted hfits hx.stored hagg add hj
  rcases hkeys with ⟨rfl, rfl⟩ | ⟨rfl, rfl⟩
  · rw [Multiset.add_cons]
    exact (hx.covers.raise k).congr hcounters
  · have hcovers := hx.covers
    rw [Multiset.add_cons] at hcovers
    exact hcovers.lower.congr hcounters

theorem adjust_after (hfits : G.Fits) (hq : w.Quiet) (hx : Holds G handle x (counted + g) (w.files a.stack))
    (hown : Own G handle (x.table.blocks keyPayload + held) (w.files a.stack)) (hagg : Aggregates (G.named k.val) agg)
    {add : Bool} (hkeys : (add = true ∧ counted' = k ::ₘ counted) ∨ (add = false ∧ counted = k ::ₘ counted')) :
    (discipline a G handle).After a.stack g w
      (World.storeAll a.stack (BStackCountingBloomFilter.adjustWrites G (w.files a.stack) agg add) w) x x held held
      counted' := by
  refine .commit hq (adjusts hfits hx hown hagg ?_) (drifts_refl _) rfl
  rcases hkeys with ⟨rfl, rfl⟩ | ⟨rfl, rfl⟩
  · exact .inl ⟨rfl, Multiset.cons_add _ _ _⟩
  · exact .inr ⟨rfl, Multiset.cons_add _ _ _⟩

theorem adjustStep_advance {β : Type} (hfits : G.Fits) (hq : w.Quiet) (hx : Holds G handle x counted (w.files a.stack))
    (hagg : Aggregates (G.named k.val) agg) (add : Bool) (f : Unit → Script IoError World β) :
    (adjustStep a G agg add >>= f).advance w =
      (f (), World.storeAll a.stack (BStackCountingBloomFilter.adjustWrites G (w.files a.stack) agg add) w) := by
  have hrun : (adjustStep a G agg add).Running := trivial
  rw [hrun.advance_bind, BStackCountingBloomFilter.adjust_writes hfits hx.stored hq hagg add]
  rfl

/-! ### Insertions -/

theorem insert_stepped (hq : w.Quiet) (hx : Holds G handle x (0 + g) (w.files a.stack)) (attempts : Nat)
    (k : Key ksize) :
    Stepped a G handle g w x (.insert k) 0 (fun _ => True) (Steps.insert a handle attempts k) :=
  read_stepped hq hx (bloom_reads hq hx _) (.adding attempts k) (.inl rfl)

theorem adding_stepped (hfits : G.Fits) (hq : w.Quiet) (hx : Holds G handle x (0 + g) (w.files a.stack))
    (attempts : Nat) (k : Key ksize) : Stepped a G handle g w x (.insert k) 0 (fun _ => True)
      (BStackCountingBloomFilter.Steps.adjust a G.filter k.val true >>=
        fun _ => placing a G handle k (.loop attempts)) := by
  obtain ⟨agg, hagg, -, hadvance⟩ := adjust_advance hfits hq hx k true fun _ => placing a G handle k (.loop attempts)
  exact read_stepped hq hx hadvance (.raising attempts hagg) (.inl rfl)

theorem raising_stepped (hfits : G.Fits) (hq : w.Quiet) (hx : Holds G handle x (0 + g) (w.files a.stack))
    (hown : Own G handle (x.table.blocks keyPayload + 0) (w.files a.stack)) (attempts : Nat)
    (hagg : Aggregates (G.named k.val) agg) : Stepped a G handle g w x (.insert k) 0 (fun _ => True)
      (adjustStep a G agg true >>= fun _ => placing a G handle k (.loop attempts)) := by
  rw [Stepped, adjustStep_advance hfits hq hx hagg]
  exact ⟨x, 0, {k}, adjust_after hfits hq hx hown hagg (.inl ⟨rfl, rfl⟩),
    .further _ rfl (.placing (.loop attempts) trivial) (.inl rfl)⟩

theorem taking_stepped (hfits : G.Fits) (hq : w.Quiet) (hx : Holds G handle x ({k} + g) (w.files a.stack)) :
    Stepped a G handle g w x (.insert k) 0 (fun members => k ∈ members)
      (BStackCountingBloomFilter.Steps.adjust a G.filter k.val false >>= refuse) := by
  obtain ⟨agg, hagg, -, hadvance⟩ := adjust_advance hfits hq hx k false refuse
  exact read_stepped hq hx hadvance (.lowering hagg) (.inl rfl)

theorem lowering_stepped (hfits : G.Fits) (hq : w.Quiet) (hx : Holds G handle x ({k} + g) (w.files a.stack))
    (hown : Own G handle (x.table.blocks keyPayload + 0) (w.files a.stack)) (hagg : Aggregates (G.named k.val) agg) :
    Stepped a G handle g w x (.insert k) 0 (fun members => k ∈ members) (adjustStep a G agg false >>= refuse) := by
  rw [Stepped, adjustStep_advance hfits hq hx hagg]
  exact ⟨x, 0, 0, adjust_after hfits hq hx hown hagg (.inr ⟨rfl, rfl⟩), .further _ rfl (.refused k) (.inl rfl)⟩

/-! ### The table -/

theorem settle_code (key : Key ksize) (p : Placed) : Script.done (.ok p.answer) >>= Steps.settle a G.filter key =
    if p.answer.isNone then .done (.ok true)
    else BStackCountingBloomFilter.Steps.adjust a G.filter key.val false >>= refuse := by
  rw [Script.done_ok_bind, Steps.settle]
  rfl

theorem placed_spec {p : Placed} {t' : Table ksize Unit} (hx : Holds G handle x counted f)
    (hins : Inserted keyPayload x.table k () (fun v => v) p t') (hne : p ≠ .noRoom) :
    Maps t'.info.cap t'.slots (present (Insert.insert k x.members)) ∧ (p.answer.isNone = true ↔ k ∉ x.members) := by
  obtain ⟨hmaps, hanswer⟩ := hins.maps hx.tabled.toSound hne hx.maps
  have hentered : BucketTable.entered () (fun v => v) (present x.members k) = some () := rfl
  rw [hentered, (update_present x.members k).1] at hmaps
  refine ⟨hmaps, ?_⟩
  rw [hanswer, Option.isNone_map, Option.isNone_iff_eq_none, present_none]

theorem turn_stepped {s : Stage} {code : Script IoError World (Option (List UInt8))} (hq : w.Quiet)
    (hx : Holds G handle x ({k} + g) (w.files a.stack))
    (hown : Own G handle (x.table.blocks keyPayload + s.held) (w.files a.stack))
    (h : Turn keyPayload a handle SET_SIZE keep (fun v => v) k () x.table s w code w') :
    ∃ x' held' counted', (discipline a G handle).After a.stack g w w' x x' s.held held' counted' ∧
      (discipline a G handle).Outcome object x x' (.insert k) (code >>= Steps.settle a G.filter k) held' counted'
        fun _ => True := by
  cases h with
  | idle s' w' hq' hfiles hfits hheld =>
      refine ⟨x, s'.held, {k}, .idle hq' (congrFun hfiles a.stack) hx (drifts_refl _) (by rw [hheld]), ?_⟩
      exact .further _ rfl (.placing s' hfits) (.inl rfl)
  | failed e w' hq' hfiles he hheld =>
      refine ⟨x, 0, {k}, .idle hq' (congrFun hfiles a.stack) hx (drifts_refl _) (by rw [hheld]), ?_⟩
      exact .further _ rfl (.failed he) (.inl rfl)
  | grant s' r hr hfits hheld =>
      have hblocks : x.table.blocks keyPayload + s'.held = x.table.blocks keyPayload + s.held + {r} := by
        rw [hheld, add_assoc]
      have hkept := hx.frame fun b _ hlive => allocAt_keeps hr hlive
      refine ⟨x, s'.held, {k}, .grant hq hr hkept (drifts_refl _) hblocks, ?_⟩
      exact .further _ rfl (.placing s' hfits) (.inl rfl)
  | release s' r hr hfits hheld =>
      have hblocks : x.table.blocks keyPayload + s'.held + {r} = x.table.blocks keyPayload + s.held := by
        rw [add_assoc, hheld]
      have hr' : r ∈ s.held := by
        rw [← hheld]
        exact Multiset.mem_add.mpr (.inr (Multiset.mem_singleton_self r))
      refine ⟨x, s'.held, {k}, .release hq hr ?_ (drifts_refl _) hblocks, ?_⟩
      · refine hx.frame fun b hb hlive => ⟨?_, fun _ _ _ => rfl⟩
        rw [File.live_free]
        refine (List.mem_erase_of_ne ?_).mpr hlive
        rintro rfl
        exact hown.not_both hb hr'
      · exact .further _ rfl (.placing s' hfits) (.inl rfl)
  | swap s' ws t' hin htabled hmaps hcap htable hfits hblocks =>
      have hown' : Own G handle (t'.blocks keyPayload + s'.held) (w.files a.stack) := hblocks ▸ hown
      have haside : ∀ y ∈ ws, Aside G handle y := fun y hy =>
        aside_of_inWords hown' (fun hcap => Multiset.mem_add.mpr (.inl (block_mem hcap))) (hin y hy)
      refine ⟨⟨t', x.members⟩, s'.held, {k}, .commit hq (hx.write_table haside htabled (hmaps _ hx.maps) rfl)
        ⟨Nat.le_of_lt hcap, .inr htable⟩ hblocks, ?_⟩
      exact .further _ rfl (.placing s' hfits) (.inl rfl)
  | placed ws p t' hne hin hins htabled hheld =>
      obtain ⟨htable, hcap, hsteady⟩ := hins.steady
      obtain ⟨hmaps, hnew⟩ := placed_spec hx hins hne
      have hblocks : t'.blocks keyPayload + 0 = x.table.blocks keyPayload + s.held := by
        rw [hheld, Table.blocks, Table.blocks, Table.block, Table.block, htable, hcap]
      have haside : ∀ y ∈ ws, Aside G handle y := fun y hy =>
        aside_of_inWords hown (fun hcap => Multiset.mem_add.mpr (.inl (block_mem hcap))) (hin y hy)
      have hdrift : Drifts x.table t' := ⟨Nat.le_of_eq hcap.symm, .inl ⟨htable, hcap, hsteady⟩⟩
      rw [settle_code]
      by_cases hmem : k ∈ x.members
      · have hold : ¬ p.answer.isNone = true := fun hno => hnew.mp hno hmem
        have hsame : Insert.insert k x.members = x.members := Finset.insert_eq_of_mem hmem
        rw [if_neg hold]
        refine ⟨⟨t', x.members⟩, 0, {k},
          .commit hq (hx.write_table haside htabled (hsame ▸ hmaps) rfl) hdrift hblocks, ?_⟩
        exact .further _ rfl (.taking k) (.inr hmem)
      · rw [if_pos (hnew.mpr hmem)]
        have hkeys : (Insert.insert k x.members).val + (0 + g) = x.members.val + ({k} + g) := by
          rw [Finset.insert_val_of_notMem hmem, zero_add, Multiset.cons_add, Multiset.singleton_add, Multiset.add_cons]
        refine ⟨⟨t', Insert.insert k x.members⟩, 0, 0,
          .commit hq (hx.write_table haside htabled hmaps hkeys) hdrift hblocks, ?_⟩
        refine .effect (.ok true) rfl rfl (.inl ?_) rfl
        show Except.ok true = Except.ok (decide (k ∉ x.members))
        rw [decide_eq_true hmem]

theorem remove_stepped (hq : w.Quiet) (hx : Holds G handle x (0 + g) (w.files a.stack))
    (hown : Own G handle (x.table.blocks keyPayload + 0) (w.files a.stack)) (k : Key ksize) :
    Stepped a G handle g w x (.remove k) 0 (fun _ => True) (Steps.remove a handle k) := by
  obtain ⟨ws, old, t', heval, hin, hrem, htabled⟩ := remove_turn hx.tabled k
  obtain ⟨htable, hcap, hsteady⟩ := hrem.steady hx.tabled.probed
  obtain ⟨hmaps, hold⟩ := hrem.maps hx.tabled.toSound hx.maps
  rw [(update_present x.members k).2] at hmaps
  have hsome : old.isSome = true ↔ k ∈ x.members := by
    rw [hold, Option.isSome_map, ← present_some]
    cases present x.members k <;> simp
  have hcode : Steps.remove a handle k =
      .step (inplaceGen a.stack (probe handle (width keyPayload ksize) (fnv1a k.val) ()
        (inspectRemove handle (width keyPayload ksize) ksize k.val) fun _ _ => .ok ([], none))) fun r =>
        (Script.done r >>= Script.lift) >>= fun old =>
          if old.isSome then forgetting (Steps.bloom a handle >>= fun filter =>
          BStackCountingBloomFilter.Steps.remove a filter k.val) else pure false := rfl
  have haside : ∀ y ∈ ws, Aside G handle y := fun y hy =>
    aside_of_inWords hown (fun hcap => Multiset.mem_add.mpr (.inl (block_mem hcap))) (hin y hy)
  have hblocks : t'.blocks keyPayload + 0 = x.table.blocks keyPayload + 0 := by
    rw [Table.blocks, Table.blocks, Table.block, Table.block, htable, hcap]
  have hdrift : Drifts x.table t' := ⟨Nat.le_of_eq hcap.symm, .inl ⟨htable, hcap, hsteady⟩⟩
  rw [Stepped, hcode, Script.advance, inplaceGen_run hq heval fun y hy => (hin y hy).inside hx.tabled.toLaid]
  simp only [Script.done_ok_bind, Script.lift_bind]
  by_cases hmem : k ∈ x.members
  · have hkeys : (x.members.erase k).val + ({k} + g) = x.members.val + (0 + g) := by
      rw [zero_add, Finset.erase_val, ← add_assoc, add_comm (x.members.val.erase k), Multiset.singleton_add,
        Multiset.cons_erase (Finset.mem_val.mpr hmem)]
    refine ⟨⟨t', x.members.erase k⟩, 0, {k}, .commit hq (hx.write_table haside htabled hmaps hkeys) hdrift hblocks, ?_⟩
    refine .early (.ok true) ?_ (.inl ?_) rfl
    · rw [if_pos (hsome.mpr hmem)]
      exact .reading k
    · show Except.ok true = Except.ok (decide (k ∈ x.members))
      rw [decide_eq_true hmem]
  · have hsame : x.members.erase k = x.members := Finset.erase_eq_of_notMem hmem
    have hnone : ¬ old.isSome = true := fun hno => hmem (hsome.mp hno)
    refine ⟨⟨t', x.members.erase k⟩, 0, 0,
      .commit hq (hx.write_table haside htabled hmaps (by rw [hsame])) hdrift hblocks, ?_⟩
    refine .effect (.ok false) ?_ rfl (.inl ?_) rfl
    · rw [if_neg hnone]
      rfl
    · show Except.ok false = Except.ok (decide (k ∈ x.members))
      rw [decide_eq_false hmem]

/-! ### What a removal still does -/

theorem forgetting_advance {c : Script IoError World Unit} (hrun : c.Running) :
    (forgetting c).advance w = (forgetting (c.advance w).1, (c.advance w).2) := by
  cases c with
  | done out => exact hrun.elim
  | step c next => rfl

theorem Tail.stepped {out : Except IoError Bool} (hfits : G.Fits) (hq : w.Quiet)
    (hx : Holds G handle x (counted + g) (w.files a.stack))
    (hown : Own G handle (x.table.blocks keyPayload + held) (w.files a.stack))
    (htail : Tail a G handle op c held counted out) (hrun : c.Running) :
    ∃ held' counted', (discipline a G handle).After a.stack g w (c.advance w).2 x x held held' counted' ∧
      Tail a G handle op (c.advance w).1 held' counted' out := by
  cases htail with
  | reading k =>
      have hrun : (Steps.bloom a handle >>=
        fun filter => BStackCountingBloomFilter.Steps.remove a filter k.val).Running :=
        trivial
      rw [forgetting_advance hrun, bloom_reads hq hx]
      exact ⟨0, {k}, .idle hq rfl hx (drifts_refl _) rfl, .taking k⟩
  | taking k =>
      obtain ⟨agg, hagg, hrun, hadvance⟩ := BStackCountingBloomFilter.adjust_reads hfits hx.stored hq k.val false
      have hcode : BStackCountingBloomFilter.Steps.remove a G.filter k.val =
          BStackCountingBloomFilter.Steps.adjust a G.filter k.val false := rfl
      rw [hcode, forgetting_advance hrun, hadvance]
      exact ⟨0, {k}, .idle hq rfl hx (drifts_refl _) rfl, .lowering hagg⟩
  | @lowering k agg hagg =>
      have hrun : (adjustStep a G agg false).Running := trivial
      rw [forgetting_advance hrun, BStackCountingBloomFilter.adjust_writes hfits hx.stored hq hagg]
      exact ⟨0, 0, adjust_after hfits hq hx hown hagg (.inr ⟨rfl, rfl⟩), .lowered k⟩
  | lowered k => exact hrun.elim

theorem Tail.finish {out out' : Except IoError Bool} (htail : Tail a G handle op c held counted out)
    (hdone : c = .done out') : out' = out ∧ held = 0 := by
  cases htail with
  | reading k => cases hdone
  | taking k => cases hdone
  | lowering hagg => cases hdone
  | lowered k =>
      cases hdone
      exact ⟨rfl, rfl⟩

/-! ### Queries -/

theorem judge_true (key : Key ksize) : (pure true >>= judge a handle key : Script IoError World Bool) =
    lookup a handle (width keyPayload ksize) ksize key.val >>= found := rfl

/-- A query that still asks the filter for the counters `is`. -/
theorem asks (hx : Holds G handle x counted f) (is : List Nat) (hfits : G.Fits) (his : ∀ j ∈ is, j ∈ G.named k.val) :
    ∃ φ', Rest a G handle x (.contains k)
      (BStackCountingBloomFilter.Steps.containsFrom a G.data is >>= judge a handle k) 0 0 φ' ∧ φ' = fun _ => True := by
  cases is with
  | nil =>
      refine ⟨_, ?_, rfl⟩
      show Rest a G handle x (.contains k) (pure true >>= judge a handle k) 0 0 _
      rw [judge_true]
      exact .looking .start
  | cons i is =>
      have hlt := BStackCountingBloomFilter.Geometry.named_lt hfits (his i List.mem_cons_self)
      have hin := hx.stored.block_inside
      have haddr := f.addressable
      exact ⟨_, .checking his (by omega), rfl⟩

theorem asking_stepped (hfits : G.Fits) (hq : w.Quiet) (hx : Holds G handle x (0 + g) (w.files a.stack))
    (k : Key ksize) :
    Stepped a G handle g w x (.contains k) 0 (fun _ => True)
      (BStackCountingBloomFilter.Steps.contains a G.filter k.val >>= judge a handle k) := by
  have hrun : (BStackCountingBloomFilter.Steps.contains a G.filter k.val).Running := trivial
  obtain ⟨φ', hrest, hφ⟩ := asks (a := a) hx (G.named k.val) hfits fun j hj => hj
  refine read_stepped hq hx ?_ hrest (.inl hφ)
  rw [hrun.advance_bind, BStackCountingBloomFilter.contains_reads hfits hx.stored hq]

/-- A counter at zero is a counter of no member. -/
theorem checking_stepped (hfits : G.Fits) (hq : w.Quiet) (hx : Holds G handle x (0 + g) (w.files a.stack)) {i : Nat}
    {is : List Nat} (his : ∀ j ∈ i :: is, j ∈ G.named k.val) : Stepped a G handle g w x (.contains k) 0 (fun _ => True)
      (BStackCountingBloomFilter.Steps.containsFrom a G.data (i :: is) >>= judge a handle k) := by
  have hnamed := his i List.mem_cons_self
  have hlt := BStackCountingBloomFilter.Geometry.named_lt hfits hnamed
  obtain ⟨hrun, hadvance⟩ := BStackCountingBloomFilter.containsFrom_asks hx.stored hq hlt is
  by_cases hzero : G.counter (w.files a.stack) i = 0
  · have hstep : (BStackCountingBloomFilter.Steps.containsFrom a G.data (i :: is) >>= judge a handle k).advance w =
        (.done (.ok false), w) := by
      rw [hrun.advance_bind, hadvance, if_pos hzero]
      rfl
    refine read_stepped hq hx hstep (.absent k) (.inr fun hmem => ?_)
    exact hx.shows hfits hmem hnamed hzero
  · obtain ⟨φ', hrest, hφ⟩ := asks (a := a) hx is hfits fun j hj => his j (List.mem_cons_of_mem i hj)
    refine read_stepped hq hx ?_ hrest (.inl hφ)
    rw [hrun.advance_bind, hadvance, if_neg hzero]

theorem found_running {c : Script IoError World (Option (List UInt8))} (hrun : (c >>= found).Running) : c.Running := by
  cases c with
  | done out => cases out <;> exact hrun.elim
  | step c next => exact trivial

theorem looking_stepped {c : Script IoError World (Option (List UInt8))} {φ : (Key ksize → Option Unit) → Prop}
    (hq : w.Quiet) (hx : Holds G handle x (0 + g) (w.files a.stack)) (hl : Lookup keyPayload a handle x.table k c φ)
    (hrun : (c >>= found).Running) :
    Stepped a G handle g w x (.contains k) 0 (fun members => φ (present members)) (c >>= found) := by
  obtain ⟨hworld, φ', hrest, hφ⟩ := hl.advance hq hx.tabled hx.maps (found_running hrun)
  refine read_stepped hq hx ?_ (.looking hrest) (hφ.imp (fun heq => by rw [heq]) id)
  rw [(found_running hrun).advance_bind, hworld]

/-! ### Every call -/

theorem Rest.stepped (hfits : G.Fits) (hq : w.Quiet) (hx : Holds G handle x (counted + g) (w.files a.stack))
    (hrest : Rest a G handle x op c held counted φ)
    (hown : Own G handle (x.table.blocks keyPayload + held) (w.files a.stack)) (hrun : c.Running) :
    Stepped a G handle g w x op held φ c := by
  cases hrest with
  | insert attempts k => exact insert_stepped hq hx attempts k
  | adding attempts k => exact adding_stepped hfits hq hx attempts k
  | raising attempts hagg => exact raising_stepped hfits hq hx hown attempts hagg
  | @placing k s hs =>
      have hcode : (s.code a (entryFor keyPayload handle k ()) keep).Running := by
        cases hdone : s.code a (entryFor keyPayload handle k ()) keep with
        | done out =>
            obtain ⟨hout, -⟩ := Stage.spent hs hdone
            rw [BStackHashSet.placing, hdone, hout] at hrun
            exact hrun.elim
        | step c next => exact trivial
      have hturn := Stage.turn hq hx.tabled keep_hits hs hown.mine hcode
      rw [Stepped, BStackHashSet.placing, hcode.advance_bind]
      exact turn_stepped hq hx hown hturn
  | failed he => exact hrun.elim
  | taking k => exact taking_stepped hfits hq hx
  | lowering hagg => exact lowering_stepped hfits hq hx hown hagg
  | refused k => exact hrun.elim
  | remove k => exact remove_stepped hq hx hown k
  | contains k => exact read_stepped hq hx (bloom_reads hq hx _) (.asking k) (.inl rfl)
  | asking k => exact asking_stepped hfits hq hx k
  | checking his hin => exact checking_stepped hfits hq hx his
  | absent k => exact hrun.elim
  | looking hl => exact looking_stepped hq hx hl hrun

theorem Holds.root_word (h : Holds G handle x counted f) : f.bytes.word (handle + TABLE_OFF) = x.table.info.table := by
  rw [← h.tabled.info, metaOf_read]
  rfl

/-- A call when another one has changed the set. -/
theorem Rest.drifts {g' : Multiset (Key ksize)} (hx : Holds G handle x g f) (hx' : Holds G handle x' g' f')
    (hd : Drifts x.table x'.table) (hrest : Rest a G handle x op c held counted φ) :
    (∃ φ', Rest a G handle x' op c held counted φ' ∧ (φ' = φ ∨ φ' x'.members)) ∨
      ((root handle : Root (SetOp ksize)).word f ≠ (root handle : Root (SetOp ksize)).word f' ∧
        (root handle).reader op ∧ Astray a op c ∧ held = 0) := by
  cases hrest with
  | insert attempts k => exact .inl ⟨_, .insert attempts k, .inl rfl⟩
  | adding attempts k => exact .inl ⟨_, .adding attempts k, .inl rfl⟩
  | raising attempts hagg => exact .inl ⟨_, .raising attempts hagg, .inl rfl⟩
  | placing s hs => exact .inl ⟨_, .placing s (hs.mono hd.cap), .inl rfl⟩
  | failed he => exact .inl ⟨_, .failed he, .inl rfl⟩
  | taking k => exact .inl ⟨_, .taking k, .inl rfl⟩
  | lowering hagg => exact .inl ⟨_, .lowering hagg, .inl rfl⟩
  | refused k => exact .inl ⟨_, .refused k, .inl rfl⟩
  | remove k => exact .inl ⟨_, .remove k, .inl rfl⟩
  | contains k => exact .inl ⟨_, .contains k, .inl rfl⟩
  | asking k => exact .inl ⟨_, .asking k, .inl rfl⟩
  | checking his hin => exact .inl ⟨_, .checking his hin, .inl rfl⟩
  | absent k => exact .inl ⟨_, .absent k, .inl rfl⟩
  | looking hl =>
      rcases hl.drifts hx'.tabled hx'.maps hd with ⟨φ', hrest, hφ⟩ | ⟨hne, hstray⟩
      · exact .inl ⟨_, .looking hrest, hφ.imp (fun heq => by rw [heq]) id⟩
      · refine .inr ⟨?_, trivial, .stray hstray, rfl⟩
        show f.bytes.word (handle + TABLE_OFF) ≠ f'.bytes.word (handle + TABLE_OFF)
        rw [hx.root_word, hx'.root_word]
        exact hne.symm

theorem Rest.finish {out : Except IoError Bool} (hrest : Rest a G handle x op c held counted φ)
    (hdone : c = .done out) :
    held = 0 ∧ ∀ members, φ members → object.allows members op out ∧ object.next members op out = members := by
  have hrefused : ∀ {k : Key ksize} {members : Finset (Key ksize)}, k ∈ members →
      object.allows members (.insert k) (.ok false) ∧ object.next members (.insert k) (.ok false) = members := by
    intro k members hmem
    refine ⟨.inl ?_, Finset.insert_eq_of_mem hmem⟩
    show Except.ok false = Except.ok (decide (k ∉ members))
    rw [decide_eq_false (not_not_intro hmem)]
  cases hrest with
  | insert attempts k => cases hdone
  | adding attempts k => cases hdone
  | raising attempts hagg => cases hdone
  | @placing k s hs =>
      cases hcode : s.code a (entryFor keyPayload handle k ()) keep with
      | done o =>
          obtain ⟨hout, hheld⟩ := Stage.spent hs hcode
          rw [BStackHashSet.placing, hcode, hout] at hdone
          cases hdone
          exact ⟨hheld, fun members _ => ⟨.inr ⟨trivial, _, rfl, .inr (.inr rfl)⟩, rfl⟩⟩
      | step c next =>
          rw [BStackHashSet.placing, hcode] at hdone
          cases hdone
  | failed he =>
      cases hdone
      exact ⟨rfl, fun members _ => ⟨.inr ⟨trivial, _, rfl, he⟩, rfl⟩⟩
  | taking k => cases hdone
  | lowering hagg => cases hdone
  | refused k =>
      cases hdone
      exact ⟨rfl, fun members hmem => hrefused hmem⟩
  | remove k => cases hdone
  | contains k => cases hdone
  | asking k => cases hdone
  | checking his hin =>
      rw [BStackCountingBloomFilter.Steps.containsFrom, BStackCountingBloomFilter.counterOff, if_pos hin] at hdone
      cases hdone
  | absent k =>
      cases hdone
      refine ⟨rfl, fun members hmem => ⟨.inl ?_, rfl⟩⟩
      show Except.ok false = Except.ok (decide (k ∈ members))
      rw [decide_eq_false hmem]
  | @looking k c φ hl =>
      cases c with
      | step c next => cases hdone
      | done out' =>
          obtain ⟨o, rfl, hanswer⟩ := hl.finish rfl
          cases hdone
          refine ⟨rfl, fun members hm => ⟨.inl ?_, rfl⟩⟩
          have hpresent := hanswer _ hm
          show Except.ok (o.map keyPayload.enc).isSome = Except.ok (decide (k ∈ members))
          rw [← hpresent, present]
          by_cases hmem : k ∈ members
          · rw [if_pos hmem, decide_eq_true hmem]
            rfl
          · rw [if_neg hmem, decide_eq_false hmem]
            rfl

end Steps

/-- The conditions under which calls on a hash set linearize. -/
theorem sound (a : Allocator) {G : Geometry} (hfits : G.Fits) (handle : Nat) :
    (discipline a G handle : Discipline (Finset (Key ksize)) (SetOp ksize) _ _ _).Sound a.stack (fixed G handle)
      (SetOp.code a handle) object (root handle) where
  waste h := Holds.waste h
  frame h hkeep := Holds.frame h hkeep
  start := by
    intro x attempts op
    cases op with
    | insert k => exact ⟨_, .insert attempts k, trivial⟩
    | remove k => exact ⟨_, .remove k, trivial⟩
    | contains k => exact ⟨_, .contains k, trivial⟩
  drift hx hx' hd hrest := Rest.drifts hx hx' hd hrest
  step hq hx hown hrest := Rest.stepped hfits hq hx hrest (own_of_le hown) trivial
  finish h := Rest.finish h rfl
  wander := by
    intro β w op c next hq hastray
    generalize hcode : Script.step c next = code at hastray
    cases hastray with
    | @stray k c' hstray =>
        cases c' with
        | done out =>
            cases out <;> cases hcode
        | step c₁ next₁ =>
            cases hcode
            obtain ⟨hrest, hworld⟩ := hstray.advance hq
            have hfinal : (c w).final = w := hworld
            rw [hfinal]
            exact ⟨hq, rfl, .stray hrest⟩
  tailDrift _ _ _ h := h
  tailStep := by
    intro β w x g counted op held out c next hq hx hown htail
    obtain ⟨held', counted', hafter, htail'⟩ := Tail.stepped hfits hq hx (own_of_le hown) htail trivial
    exact ⟨x, held', counted', hafter, rfl, htail'⟩
  tailEnd h := Tail.finish h rfl

end BStackHashSet

end BStackRaii
