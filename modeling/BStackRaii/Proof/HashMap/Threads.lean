import BStackRaii.Proof.HashMap
import BStackRaii.Proof.Interleaving
import BStackRaii.Proof.Table.Lookups
import Mathlib.Algebra.Order.PUnit
/-!
# Threads that share a hash map

An insertion takes effect with the probe that places its entry, and a removal with its one probe. A lookup looks at
one bucket at a time. It takes effect when it sees its key, or at a moment at which its key was absent; and it has
seen such a moment, unless the buckets were moved while it was on its way.
-/

namespace BStackRaii

open Probing BucketTable Linearize

namespace BStackHashMap

variable {ksize : Nat}

def MapOp.code (a : Allocator) (handle attempts : Nat) : MapOp ksize → Script IoError World (Option UInt64)
  | insert key valRef => BStackHashMap.insert a handle attempts key valRef
  | remove key => BStackHashMap.remove a handle key
  | get key => BStackHashMap.get a handle key

def MapOp.IsInsert : MapOp ksize → Prop
  | insert _ _ => True
  | _ => False

def MapOp.IsGet : MapOp ksize → Prop
  | get _ => True
  | _ => False

/-- The finite map as a sequential object. An insertion that fails changes nothing. -/
def object : Object (Key ksize → Option UInt64) (MapOp ksize) (Except IoError (Option UInt64)) where
  allows m op out := out = .ok (m op.key) ∨ op.IsInsert ∧ ∃ e, out = .error e ∧ InsertError e
  next m op out :=
    match out with
    | .ok _ => op.apply m
    | .error _ => m

/-- The table, and the finite map that it holds. -/
structure Held (ksize : Nat) where
  table : Table ksize UInt64
  entries : Key ksize → Option UInt64

structure Holds (handle : Nat) (x : Held ksize) (f : File) : Prop where
  tabled : Tabled valuePayload f handle MAP_SIZE x.table
  maps : Maps x.table.info.cap x.table.slots x.entries

section Code

variable (a : Allocator) (handle : Nat)

def answer (old : Option (List UInt8)) : Script IoError World (Option UInt64) := pure (old.map valueRef)

def inserting (k : Key ksize) (v : UInt64) (s : Stage) : Script IoError World (Option UInt64) :=
  s.code a (entryFor valuePayload handle k v) (overwrite ksize v) >>= answer

/-- What a call may have left to do, the blocks it owns then, and what a moment that it has seen must satisfy. -/
inductive Rest (x : Held ksize) :
    MapOp ksize → Script IoError World (Option UInt64) → Multiset Range → ((Key ksize → Option UInt64) → Prop) → Prop
  | insert {k : Key ksize} {v : UInt64} (s : Stage) (hfits : s.Fits valuePayload x.table) :
      Rest x (.insert k v) (inserting a handle k v s) s.held fun _ => True
  | failed {k : Key ksize} {v : UInt64} {e : IoError} (he : InsertError e) :
      Rest x (.insert k v) (.done (.error e)) 0 fun _ => True
  | remove (k : Key ksize) : Rest x (.remove k) (BStackHashMap.remove a handle k) 0 fun _ => True
  | get {k : Key ksize} {c : Script IoError World (Option (List UInt8))} {φ : (Key ksize → Option UInt64) → Prop}
      (h : Lookup valuePayload a handle x.table k c φ) : Rest x (.get k) (c >>= answer) 0 φ

/-- A lookup that goes on where the buckets were. -/
inductive Astray : MapOp ksize → Script IoError World (Option UInt64) → Prop
  | stray {k : Key ksize} {c : Script IoError World (Option (List UInt8))}
      (h : Stray a (width valuePayload ksize) ksize k.val c) : Astray (.get k) (c >>= answer)

def discipline : Discipline (Key ksize → Option UInt64) (MapOp ksize) (Option UInt64) (Held ksize) Unit where
  Holds x _ f := Holds handle x f
  value := Held.entries
  blocks x := x.table.blocks valuePayload
  Drift x x' := Drifts x.table x'.table
  Rest x op c held _ φ := Rest a handle x op c held φ
  Astray := Astray a

def root : Root (MapOp ksize) := ⟨fun f => f.bytes.word (handle + TABLE_OFF), MapOp.IsGet⟩

end Code

section Steps

variable {a : Allocator} {handle left cur : Nat} {w w' : World} {x x' : Held ksize} {k : Key ksize} {v : UInt64}
  {op : MapOp ksize} {held held' : Multiset Range} {c : Script IoError World (Option UInt64)} {f f' : File}
  {φ : (Key ksize → Option UInt64) → Prop}

theorem Holds.root_word (h : Holds handle x f) : f.bytes.word (handle + TABLE_OFF) = x.table.info.table := by
  rw [← h.tabled.info, metaOf_read]
  rfl

theorem insert_code (attempts : Nat) (k : Key ksize) (v : UInt64) :
    BStackHashMap.insert a handle attempts k v = inserting a handle k v (.loop attempts) := by
  rw [BStackHashMap.insert, newEntry_eq]
  rfl

/-- What the step lemmas say of a call of `op` that has `c` left to do: the state `x'`, the rest of the call and the
world once the step is made. -/
def Stepped (a : Allocator) (handle : Nat) (w : World) (x : Held ksize) (op : MapOp ksize) (held : Multiset Range)
    (φ : (Key ksize → Option UInt64) → Prop) (c : Script IoError World (Option UInt64)) : Prop :=
  ∃ x' held', (discipline a handle).After a.stack () w (c.advance w).2 x x' held held' () ∧
    (discipline a handle).Outcome object x x' op (c.advance w).1 held' () φ

/-- A turn of an insertion. -/
theorem turn_stepped {s : Stage} {code : Script IoError World (Option (List UInt8))} (hq : w.Quiet)
    (hx : Holds handle x (w.files a.stack))
    (hown : {⟨handle, MAP_SIZE⟩} + (x.table.blocks valuePayload + s.held) ≤ (↑(w.files a.stack).live : Multiset Range))
    (h : Turn valuePayload a handle MAP_SIZE (overwrite ksize v) (fun _ => v) k v x.table s w code w') :
    ∃ x' held', (discipline a handle).After a.stack () w w' x x' s.held held' () ∧
      (discipline a handle).Outcome object x x' (.insert k v) (code >>= answer) held' () fun _ => True := by
  cases h with
  | idle s' w' hq' hfiles hfits hheld =>
      refine ⟨x, s'.held, .idle hq' (congrFun hfiles a.stack) hx (drifts_refl _) (by rw [hheld]), ?_⟩
      exact .further _ rfl (.insert s' hfits) (.inl rfl)
  | failed e w' hq' hfiles he hheld =>
      refine ⟨x, 0, .idle hq' (congrFun hfiles a.stack) hx (drifts_refl _) (by rw [hheld]), ?_⟩
      exact .further _ rfl (.failed he) (.inl rfl)
  | grant s' r hr hfits hheld =>
      have hblocks : x.table.blocks valuePayload + s'.held = x.table.blocks valuePayload + s.held + {r} := by
        rw [hheld, add_assoc]
      refine ⟨x, s'.held, .grant hq hr ⟨hx.tabled.allocAt hr, hx.maps⟩ (drifts_refl _) hblocks, ?_⟩
      exact .further _ rfl (.insert s' hfits) (.inl rfl)
  | release s' r hr hfits hheld =>
      have hblocks : x.table.blocks valuePayload + s'.held + {r} = x.table.blocks valuePayload + s.held := by
        rw [add_assoc, hheld]
      have hmine : {⟨handle, MAP_SIZE⟩} + (x.table.blocks valuePayload + {r}) ≤
          (↑(w.files a.stack).live : Multiset Range) := by
        refine le_trans (add_le_add_right (add_le_add_right ?_ _) _) hown
        rw [← hheld]
        exact Multiset.le_add_left _ _
      obtain ⟨-, hne, hblock⟩ := own_apart hmine
      refine ⟨x, s'.held, .release hq hr ⟨hx.tabled.free hne hblock, hx.maps⟩ (drifts_refl _) hblocks, ?_⟩
      exact .further _ rfl (.insert s' hfits) (.inl rfl)
  | swap s' ws t' hin htabled hmaps hcap htable hfits hblocks =>
      refine ⟨⟨t', x.entries⟩, s'.held,
        .commit hq ⟨htabled, hmaps _ hx.maps⟩ ⟨Nat.le_of_lt hcap, .inr htable⟩ hblocks, ?_⟩
      exact .further _ rfl (.insert s' hfits) (.inl rfl)
  | placed ws p t' hne hin hins htabled hheld =>
      obtain ⟨htable, hcap, hsteady⟩ := hins.steady
      obtain ⟨hmaps, hanswer⟩ := hins.maps hx.tabled.toSound hne hx.maps
      have hentered : BucketTable.entered v (fun _ => v) (x.entries k) = some v := by
        cases x.entries k <;> rfl
      rw [hentered] at hmaps
      have hblocks : t'.blocks valuePayload + 0 = x.table.blocks valuePayload + s.held := by
        rw [hheld, Table.blocks, Table.blocks, Table.block, Table.block, htable, hcap]
      refine ⟨⟨t', Function.update x.entries k (some v)⟩, 0, .commit hq ⟨htabled, hmaps⟩
        ⟨Nat.le_of_eq hcap.symm, .inl ⟨htable, hcap, hsteady⟩⟩ hblocks, ?_⟩
      refine .effect (.ok (p.answer.map valueRef)) rfl rfl (.inl ?_) rfl
      rw [hanswer, map_valueRef]
      rfl

theorem insert_stepped {s : Stage} (hq : w.Quiet) (hx : Holds handle x (w.files a.stack))
    (hfits : s.Fits valuePayload x.table)
    (hown : {⟨handle, MAP_SIZE⟩} + (x.table.blocks valuePayload + s.held) ≤ (↑(w.files a.stack).live : Multiset Range))
    (hrun : (inserting a handle k v s).Running) :
    Stepped a handle w x (.insert k v) s.held (fun _ => True) (inserting a handle k v s) := by
  have hcode : (s.code a (entryFor valuePayload handle k v) (overwrite ksize v)).Running := by
    cases hs : s.code a (entryFor valuePayload handle k v) (overwrite ksize v) with
    | done out =>
        obtain ⟨hout, -⟩ := Stage.spent hfits hs
        rw [inserting, hs, hout] at hrun
        exact hrun.elim
    | step c next => exact trivial
  have hturn := Stage.turn hq hx.tabled (overwrite_hits v) hfits hown hcode
  rw [Stepped, inserting, hcode.advance_bind]
  exact turn_stepped hq hx hown hturn

theorem remove_stepped (hq : w.Quiet) (hx : Holds handle x (w.files a.stack)) (k : Key ksize) :
    Stepped a handle w x (.remove k) 0 (fun _ => True) (BStackHashMap.remove a handle k) := by
  obtain ⟨ws, old, t', heval, hin, hrem, htabled⟩ := remove_turn hx.tabled k
  obtain ⟨htable, hcap, hsteady⟩ := hrem.steady hx.tabled.probed
  obtain ⟨hmaps, hold⟩ := hrem.maps hx.tabled.toSound hx.maps
  have hcode : BStackHashMap.remove a handle k =
      .step (inplaceGen a.stack (probe handle (width valuePayload ksize) (fnv1a k.val) ()
        (inspectRemove handle (width valuePayload ksize) ksize k.val) fun _ _ => .ok ([], none))) fun r =>
        (Script.done r >>= Script.lift) >>= answer := by
    rw [BStackHashMap.remove, stride_eq]
    rfl
  have hblocks : t'.blocks valuePayload + 0 = x.table.blocks valuePayload + 0 := by
    rw [Table.blocks, Table.blocks, Table.block, Table.block, htable, hcap]
  rw [Stepped, hcode, Script.advance, inplaceGen_run hq heval fun y hy => (hin y hy).inside hx.tabled.toLaid]
  refine ⟨⟨t', Function.update x.entries k none⟩, 0, .commit hq ⟨htabled, hmaps⟩
    ⟨Nat.le_of_eq hcap.symm, .inl ⟨htable, hcap, hsteady⟩⟩ hblocks, ?_⟩
  refine .effect (.ok (old.map valueRef)) rfl rfl (.inl ?_) rfl
  rw [hold, map_valueRef]
  rfl

theorem get_code (k : Key ksize) :
    BStackHashMap.get a handle k = lookup a handle (width valuePayload ksize) ksize k.val >>= answer := by
  rw [BStackHashMap.get, stride_eq]
  rfl

theorem answer_running {c : Script IoError World (Option (List UInt8))} (hrun : (c >>= answer).Running) :
    c.Running := by
  cases c with
  | done out => cases out <;> exact hrun.elim
  | step c next => exact trivial

theorem get_stepped {c : Script IoError World (Option (List UInt8))} (hq : w.Quiet)
    (hx : Holds handle x (w.files a.stack)) (hl : Lookup valuePayload a handle x.table k c φ)
    (hrun : (c >>= answer).Running) : Stepped a handle w x (.get k) 0 φ (c >>= answer) := by
  obtain ⟨hworld, φ', hrest, hφ⟩ := hl.advance hq hx.tabled hx.maps (answer_running hrun)
  rw [Stepped, (answer_running hrun).advance_bind, hworld]
  exact ⟨x, 0, .idle hq rfl hx (drifts_refl _) rfl, .further φ' rfl (.get hrest) hφ⟩

theorem Rest.stepped (hq : w.Quiet) (hx : Holds handle x (w.files a.stack)) (hrest : Rest a handle x op c held φ)
    (hown : {⟨handle, MAP_SIZE⟩} + (x.table.blocks valuePayload + held) ≤ (↑(w.files a.stack).live : Multiset Range))
    (hrun : c.Running) : Stepped a handle w x op held φ c := by
  cases hrest with
  | insert s hfits => exact insert_stepped hq hx hfits hown hrun
  | failed he => exact hrun.elim
  | remove k => exact remove_stepped hq hx k
  | get hl => exact get_stepped hq hx hl hrun

/-- A call when another one has changed the table. -/
theorem Rest.drifts (hx : Holds handle x f) (hx' : Holds handle x' f') (hd : Drifts x.table x'.table)
    (hrest : Rest a handle x op c held φ) :
    (∃ φ', Rest a handle x' op c held φ' ∧ (φ' = φ ∨ φ' x'.entries)) ∨
      ((root handle : Root (MapOp ksize)).word f ≠ (root handle : Root (MapOp ksize)).word f' ∧
        (root handle).reader op ∧ Astray a op c ∧ held = 0) := by
  have hmoved : x'.table.info.table ≠ x.table.info.table →
      (root handle : Root (MapOp ksize)).word f ≠ (root handle : Root (MapOp ksize)).word f' := by
    intro hne
    show f.bytes.word (handle + TABLE_OFF) ≠ f'.bytes.word (handle + TABLE_OFF)
    rw [hx.root_word, hx'.root_word]
    exact hne.symm
  cases hrest with
  | insert s hfits => exact .inl ⟨_, .insert s (hfits.mono hd.cap), .inl rfl⟩
  | failed he => exact .inl ⟨_, .failed he, .inl rfl⟩
  | remove k => exact .inl ⟨_, .remove k, .inl rfl⟩
  | get hl =>
      rcases hl.drifts hx'.tabled hx'.maps hd with ⟨φ', hrest, hφ⟩ | ⟨hne, hstray⟩
      · exact .inl ⟨φ', .get hrest, hφ⟩
      · exact .inr ⟨hmoved hne, trivial, .stray hstray, rfl⟩

theorem Rest.finish {out : Except IoError (Option UInt64)} (hrest : Rest a handle x op (.done out) held φ) :
    held = 0 ∧ ∀ m, φ m → object.allows m op out ∧ object.next m op out = m := by
  generalize hcode : Script.done out = code at hrest
  cases hrest with
  | @insert k v s hfits =>
      cases hs : s.code a (entryFor valuePayload handle k v) (overwrite ksize v) with
      | done o =>
          obtain ⟨hout, hheld⟩ := Stage.spent hfits hs
          rw [inserting, hs, hout] at hcode
          cases hcode
          exact ⟨hheld, fun m _ => ⟨.inr ⟨trivial, _, rfl, .inr (.inr rfl)⟩, rfl⟩⟩
      | step c next =>
          rw [inserting, hs] at hcode
          cases hcode
  | failed he =>
      cases hcode
      exact ⟨rfl, fun m _ => ⟨.inr ⟨trivial, _, rfl, he⟩, rfl⟩⟩
  | remove k => cases hcode
  | @get k c φ hl =>
      cases c with
      | step c next => cases hcode
      | done out' =>
          obtain ⟨o, rfl, hanswer⟩ := hl.finish rfl
          rw [Script.done_ok_bind, answer, map_valueRef] at hcode
          cases hcode
          exact ⟨rfl, fun m hm => ⟨.inl (congrArg Except.ok (hanswer m hm).symm), rfl⟩⟩

end Steps

/-- The conditions under which calls on a hash map linearize. -/
theorem sound (a : Allocator) (handle : Nat) :
    (discipline a handle : Discipline (Key ksize → Option UInt64) (MapOp ksize) _ _ Unit).Sound a.stack
      {⟨handle, MAP_SIZE⟩} (MapOp.code a handle) object (root handle) where
  waste h := h
  frame := by
    intro x g f f' hx hkeep
    refine ⟨⟨hx.tabled.toLaid.frame fun r hr => ?_, hx.tabled.toSound⟩, hx.maps⟩
    rcases hr with rfl | ⟨hcap, rfl⟩
    · exact hkeep _ (Multiset.mem_add.mpr (.inl (Multiset.mem_singleton_self _))) hx.tabled.header
    · refine hkeep _ (Multiset.mem_add.mpr (.inr ?_)) (hx.tabled.block hcap)
      show _ ∈ x.table.blocks valuePayload
      rw [Table.blocks, if_pos hcap]
      exact Multiset.mem_singleton_self _
  start := by
    intro x attempts op
    cases op with
    | insert k v =>
        refine ⟨fun _ => True, ?_, trivial⟩
        show Rest a handle x (.insert k v) (BStackHashMap.insert a handle attempts k v) 0 fun _ => True
        rw [insert_code]
        exact .insert (.loop attempts) trivial
    | remove k => exact ⟨_, .remove k, trivial⟩
    | get k =>
        refine ⟨fun _ => True, ?_, trivial⟩
        show Rest a handle x (.get k) (BStackHashMap.get a handle k) 0 fun _ => True
        rw [get_code]
        exact .get .start
  drift hx hx' hd hrest := Rest.drifts hx hx' hd hrest
  step := by
    intro β w x g tokens op held φ c next hq hx hown hrest
    obtain ⟨x', held', hafter, hout⟩ := Rest.stepped hq hx hrest hown trivial
    exact ⟨x', held', (), hafter, hout⟩
  finish h := Rest.finish h
  wander := by
    intro β w op c next hq hastray
    generalize hcode : Script.step c next = code at hastray
    cases hastray with
    | @stray k c' hstray =>
        cases c' with
        | done out =>
            cases out <;> cases hcode
        | step c₁ next₁ =>
            cases hcode
            obtain ⟨hrest, hworld⟩ := hstray.advance hq
            have hfinal : (c w).final = w := hworld
            rw [hfinal]
            exact ⟨hq, rfl, .stray hrest⟩

/-! ### Runs -/

/-- Nobody has called the map yet. Its buckets are the one block that counts as granted. -/
structure Starts (a : Allocator) (handle : Nat) (x : Held ksize) (s : Shared (MapOp ksize) (Option UInt64)) : Prop where
  fresh : s.Fresh
  holds : Holds handle x (s.world.files a.stack)
  granted : s.granted = x.table.blocks valuePayload

/-- The states that the calls of the map and other code reach, with the gets that were in flight when the buckets
moved. -/
def Reaches (a : Allocator) (handle : Nat) :
    Shared (MapOp ksize) (Option UInt64) → Shared (MapOp ksize) (Option UInt64) → Set Nat → Prop :=
  Shared.Run a.stack {⟨handle, MAP_SIZE⟩} (MapOp.code a handle) (root handle)

/-- What a run from the map `x₀` on has come to: the map is `x`, the calls in flight own the blocks `held`, and the
calls that took effect did so in the order `l`. Of the gets in `lost` nothing is said. -/
structure Agrees (a : Allocator) (handle : Nat) (x₀ : Held ksize) (s : Shared (MapOp ksize) (Option UInt64))
    (lost : Set Nat) (x : Held ksize) (held : Multiset Range)
    (l : List (Effect (MapOp ksize) (Except IoError (Option UInt64)))) : Prop where
  holds : Holds handle x (s.world.files a.stack)
  order : Linearizes object x₀.entries lostᶜ s.events l
  entries : after object x₀.entries l = x.entries
  blocks : s.granted = x.table.blocks valuePayload + held + s.freed
  live : {⟨handle, MAP_SIZE⟩} + (x.table.blocks valuePayload + held) ≤
    (↑(s.world.files a.stack).live : Multiset Range)
  idle : s.tasks = 0 → held = 0

section Runs

variable {a : Allocator} {handle : Nat} {x₀ : Held ksize} {s₀ s : Shared (MapOp ksize) (Option UInt64)}
  {lost : Set Nat}

theorem Starts.live (h : Starts a handle x₀ s₀) :
    {⟨handle, MAP_SIZE⟩} + x₀.table.blocks valuePayload ≤ (↑(s₀.world.files a.stack).live : Multiset Range) := by
  have htabled := h.holds.tabled
  rw [Multiset.singleton_add, Table.blocks]
  by_cases hcap : 0 < x₀.table.info.cap
  · rw [if_pos hcap]
    apply (Multiset.le_iff_subset ?_).mpr
    · intro r hr
      rcases Multiset.mem_cons.mp hr with rfl | hr
      · exact Multiset.mem_coe.mpr htabled.header
      · exact Multiset.mem_singleton.mp hr ▸ Multiset.mem_coe.mpr (htabled.block hcap)
    · rw [Multiset.nodup_cons]
      refine ⟨fun hmem => htabled.distinct ?_, Multiset.nodup_singleton _⟩
      exact (Multiset.mem_singleton.mp hmem).symm
  · rw [if_neg hcap]
    exact Multiset.singleton_le.mpr (Multiset.mem_coe.mpr htabled.header)

/-- The calls of a map take effect one after the other, but for the gets that were in flight when the buckets moved. In
every state that a run reaches, the buckets are well formed and hold what the calls leave; and each block that was ever
allocated for buckets is the table, or is in the hands of one call, or was freed, and each of these once. -/
theorem map_linearizes (hstart : Starts a handle x₀ s₀) (hrun : Reaches a handle s₀ s lost) :
    ∃ x held l, Agrees a handle x₀ s lost x held l := by
  obtain ⟨x, ts, l, hi⟩ := (sound a handle).run hstart.fresh hstart.holds hstart.granted hstart.live hrun
  refine ⟨x, (ts.map Discipline.Flight.held).sum, l, hi.holds, hi.lin, hi.value, hi.granted, hi.own, fun hidle => ?_⟩
  have htasks := hi.tasks
  rw [hidle] at htasks
  rw [Multiset.map_eq_zero.mp htasks.symm]
  rfl

end Runs

/-! ### A run -/

section Example

/-- The empty map at 16, without a call. -/
def quietMap : Shared (MapOp 1) (Option UInt64) where
  world := freshMap
  tasks := 0
  events := []
  granted := 0
  freed := 0

def noEntries : Held 1 := ⟨⟨⟨0, 0, 0, 0⟩, fun _ => .empty⟩, fun _ => none⟩

theorem quietMap_starts : Starts oneAllocator 16 noEntries quietMap := by
  refine ⟨⟨?_, rfl, rfl, rfl⟩, ⟨⟨⟨by decide, by decide +kernel, by decide +kernel, .inl rfl, ?_, by decide, ?_⟩,
    probed_empty home 0, rfl, rfl⟩, maps_empty 0⟩, rfl⟩
  · show quietMap.world.faults = []
    decide +kernel
  · exact fun hcap => absurd hcap (Nat.not_lt_zero _)
  · exact fun i hi => absurd hi (Nat.not_lt_zero i)

/-- A get that comes before the bucket of an insertion is there, and a get and a removal after it. -/
def asksAround : List (Move (MapOp 1)) :=
  [.call 0 3 (.insert (byteKey 5) 9), .call 1 0 (.get (byteKey 5)), .turn 1] ++ Move.turns 20 0 ++ Move.turns 3 1 ++
    [.call 2 0 (.get (byteKey 5)), .turn 2, .call 3 0 (.remove (byteKey 5))] ++ Move.turns 4 2 ++ Move.turns 9 3

theorem map_linearizes_looked : ∃ s lost, Reaches oneAllocator 16 quietMap s lost ∧
    s.events = [.call 0 (.insert (byteKey 5) 9), .call 1 (.get (byteKey 5)), .ret 0 (.ok none), .ret 1 (.ok none),
      .call 2 (.get (byteKey 5)), .call 3 (.remove (byteKey 5)), .ret 2 (.ok (some 9)), .ret 3 (.ok (some 9))] ∧
    ∃ x held l, Agrees oneAllocator 16 noEntries s lost x held l := by
  have hsteps : Relation.ReflTransGen (Shared.Step 0 {⟨16, MAP_SIZE⟩} (MapOp.code oneAllocator 16)) quietMap _ :=
    Played.play_steps (Played.idle freshMap) asksAround
  obtain ⟨lost, hrun⟩ := Shared.Run.exists_of_steps (root 16) hsteps
  exact ⟨_, lost, hrun, by decide +kernel, map_linearizes quietMap_starts hrun⟩

end Example

end BStackHashMap

end BStackRaii
