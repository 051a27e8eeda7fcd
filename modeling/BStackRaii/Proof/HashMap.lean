import BStackRaii.Model.HashMap
import BStackRaii.Proof.Table.Calls
/-!
# The hash map refines a finite map

The reference is a function from keys to optional value references. In every state of its life the map's
table satisfies the probing invariant and holds the entries of the reference, and the calls answer from
it. A call may fail with the environment, and then leaves the entries as they were.
-/

namespace BStackRaii

open Probing BucketTable

namespace BStackHashMap

variable {ksize : Nat} {a : Allocator} {handle : Nat} {w w₀ : World} {r : Key ksize → Option UInt64}

/-- The payload of the map: the reference of the value. -/
def valuePayload : Payload UInt64 := ⟨8, fun v => leBytes 8 v.toNat, fun _ => length_leBytes 8 _⟩

theorem stride_eq (ksize : Nat) : stride ksize = width valuePayload ksize := by
  simp only [stride, width, valuePayload]
  omega

theorem newEntry_eq (handle : Nat) (key : Key ksize) (valRef : UInt64) :
    newEntry handle key valRef = entryFor valuePayload handle key valRef := by
  rw [newEntry, stride_eq]
  rfl

theorem valueRef_enc (v : UInt64) : valueRef (valuePayload.enc v) = v := by
  have hword := getU64_leBytes v.toNat_lt []
  rw [List.append_nil] at hword
  rw [valueRef, valuePayload, hword, UInt64.ofNat_toNat]

theorem map_valueRef (o : Option UInt64) : (o.map valuePayload.enc).map valueRef = o := by
  cases o with
  | none => rfl
  | some v => exact congrArg some (valueRef_enc v)

/-- Overwriting puts the new reference into the bucket of the key. -/
theorem overwrite_hits (valRef : UInt64) :
    Hits valuePayload ksize (overwrite ksize valRef) fun _ => valRef := by
  intro f handle size t i k v h hi hs
  have hin := h.bucket_inside hi
  have haddr := f.addressable
  have hwidth : width valuePayload ksize = 8 + ksize + 8 := rfl
  have hbound : t.at valuePayload i + (8 + ksize) + (leBytes 8 valRef.toNat).length ≤
      t.at valuePayload i + width valuePayload ksize := by
    rw [length_leBytes, hwidth]
    omega
  refine ⟨[w8 (t.at valuePayload i + (8 + ksize)) valRef.toNat], ?_, ?_, ?_⟩
  · rw [overwrite, stride_eq, h.checked_at hi]
    show (checkedOff (t.at valuePayload i) (8 + ksize) >>= fun valueOff => pure [w8 valueOff valRef.toNat]) = _
    rw [checkedOff_ok (by omega)]
    rfl
  · intro x hx
    cases List.mem_singleton.mp hx
    exact ⟨Nat.le_add_right _ _, hbound⟩
  · apply h.put hi _ _ (Nat.le_add_right _ _) hbound
    have hold := h.stored i hi
    rw [hs] at hold
    have hbuf : f.bytes.read (t.at valuePayload i) (8 + ksize + 8) =
        leBytes 8 OCCUPIED ++ k.val ++ leBytes 8 v.toNat := hold
    rw [Mem.read_add] at hbuf
    have hpre := List.append_inj_left hbuf (by
      rw [Mem.length_read, List.length_append, length_leBytes, k.property])
    show _ = leBytes 8 OCCUPIED ++ k.val ++ leBytes 8 valRef.toNat
    rw [hwidth, Mem.read_add, Mem.read_write_disjoint (.inl (Nat.le_refl _)), hpre,
      Mem.read_write_eq _ _ (length_leBytes 8 _)]

/-- The table of the map, with the entries of `r`. -/
structure MapAt (a : Allocator) (handle : Nat) (w : World) (r : Key ksize → Option UInt64)
    (t : Table ksize UInt64) : Prop where
  tabled : Tabled valuePayload (w.files a.stack) handle MAP_SIZE t
  maps : Maps t.info.cap t.slots r
  roomy : Roomy t

/-! ### The operations -/

inductive MapOp (ksize : Nat)
  | insert (key : Key ksize) (valRef : UInt64)
  | remove (key : Key ksize)
  | get (key : Key ksize)
deriving DecidableEq, Repr

namespace MapOp

def key : MapOp ksize → Key ksize
  | insert key _ => key
  | remove key => key
  | get key => key

def run (a : Allocator) (handle attempts : Nat) : MapOp ksize → Io (Option UInt64)
  | insert key valRef => (BStackHashMap.insert a handle (attempts + 2) key valRef).run
  | remove key => (BStackHashMap.remove a handle key).run
  | get key => (BStackHashMap.get a handle key).run

def apply (r : Key ksize → Option UInt64) : MapOp ksize → Key ksize → Option UInt64
  | insert key valRef => Function.update r key (some valRef)
  | remove key => Function.update r key none
  | get _ => r

end MapOp

/-- The errors of a call on the table `t` from `w` to `w'`. Only an insertion allocates. -/
def MapOp.Fails (a : Allocator) (w : World) (t : Table ksize UInt64) : MapOp ksize → IoError → World → Prop
  | insert _ _, e, w' => InsertFailure valuePayload a w t e w'
  | remove _, e, _ => IoFailed w e
  | get _, e, _ => IoFailed w e

section Calls

variable {t : Table ksize UInt64}

theorem insert_spec (attempts : Nat) (key : Key ksize) (valRef : UInt64) (h : MapAt a handle w r t) :
    Prog.Spec (Under w a.stack fun f => Tabled valuePayload f handle MAP_SIZE t)
      (BStackHashMap.insert a handle (attempts + 2) key valRef).run
      (fun o w' => o = r key ∧ ∃ t', MapAt a handle w' (Function.update r key (some valRef)) t')
      (fun e w' => InsertFailure valuePayload a w t e w' ∧ ∃ t', MapAt a handle w' r t') fun _ => True := by
  rw [BStackHashMap.insert, newEntry_eq, Script.run_bind]
  apply ((insertLoop_spec (overwrite_hits valRef) attempts h.roomy).onError fun e w' he => ?_).bind
  · intro old
    apply Prog.Spec.pure
    intro w' hw
    obtain ⟨t', he, hw⟩ := hw
    refine ⟨?_, t', hw.1, ?_, he.roomy⟩
    · rw [he.answer r h.maps, map_valueRef]
    · have hm := he.maps r h.maps
      have hentered : entered valRef (fun _ => valRef) (r key) = some valRef := by
        cases r key <;> rfl
      rwa [hentered] at hm
  · obtain ⟨hfail, t', hkept, hw⟩ := he
    exact ⟨hfail, t', hw.1, hkept.maps r h.maps, hkept.roomy⟩

theorem remove_spec (key : Key ksize) (h : MapAt a handle w r t) :
    Prog.Spec (Under w a.stack fun f => Tabled valuePayload f handle MAP_SIZE t)
      (BStackHashMap.remove a handle key).run
      (fun o w' => o = r key ∧ ∃ t', MapAt a handle w' (Function.update r key none) t')
      (fun e w' => IoFailed w e ∧ ∃ t', MapAt a handle w' r t') fun _ => True := by
  rw [BStackHashMap.remove, stride_eq, Script.run_bind]
  apply ((removeKey_spec h.roomy).onError fun e w' he => ?_).bind
  · intro old
    apply Prog.Spec.pure
    intro w' hw
    obtain ⟨t', he, hw⟩ := hw
    exact ⟨by rw [he.answer r h.maps, map_valueRef], t', hw.1, he.maps r h.maps, he.roomy⟩
  · exact ⟨he.1, t, he.2.1, h.maps, h.roomy⟩

theorem get_spec (key : Key ksize) (h : MapAt a handle w r t) :
    Prog.Spec (Under w a.stack fun f => Tabled valuePayload f handle MAP_SIZE t)
      (BStackHashMap.get a handle key).run
      (fun o w' => o = r key ∧ ∃ t', MapAt a handle w' r t')
      (fun e w' => IoFailed w e ∧ ∃ t', MapAt a handle w' r t') fun _ => True := by
  rw [BStackHashMap.get, stride_eq, Script.run_bind]
  apply (lookup_spec.onError fun e w' he => ?_).bind
  · intro found
    apply Prog.Spec.pure
    intro w' hw
    exact ⟨by rw [hw.1 r h.maps, map_valueRef], t, hw.2.1, h.maps, h.roomy⟩
  · exact ⟨he.1, t, he.2.1, h.maps, h.roomy⟩

/-- A call returns what the reference holds and keeps to it, or fails and changes no entry. -/
theorem MapOp.run_cases (h : MapAt a handle w r t) (attempts : Nat) (op : MapOp ksize) :
    ((op.run a handle attempts w).out = .ok (r op.key) ∧
      ∃ t', MapAt a handle (op.run a handle attempts w).final (op.apply r) t') ∨
    ((∃ e, (op.run a handle attempts w).out = .error e ∧ op.Fails a w t e (op.run a handle attempts w).final) ∧
      ∃ t', MapAt a handle (op.run a handle attempts w).final r t') := by
  have hspec : Prog.Spec (Under w a.stack fun f => Tabled valuePayload f handle MAP_SIZE t)
      (op.run a handle attempts) (fun o w' => o = r op.key ∧ ∃ t', MapAt a handle w' (op.apply r) t')
      (fun e w' => op.Fails a w t e w' ∧ ∃ t', MapAt a handle w' r t') fun _ => True := by
    cases op with
    | insert key valRef => exact insert_spec attempts key valRef h
    | remove key => exact remove_spec key h
    | get key => exact get_spec key h
  obtain ⟨hok, herr, -⟩ := hspec w (Under.refl h.tabled)
  cases hout : (op.run a handle attempts w).out with
  | ok o =>
      obtain ⟨ho, ht⟩ := hok o hout
      exact .inl ⟨by rw [ho], ht⟩
  | error e =>
      obtain ⟨he, ht⟩ := herr e hout
      exact .inr ⟨⟨e, rfl, he⟩, ht⟩

/-! ### The iterator -/

theorem itemOf_image (k : Key ksize) (v : UInt64) : itemOf ksize (bucketImage valuePayload k v) = (k, v) := by
  have hlen := length_bucketImage valuePayload k v
  have hwidth : width valuePayload ksize = 8 + ksize + 8 := rfl
  have hkey := Mem.read_write_window Mem.zero 0 (bucketImage valuePayload k v) (i := 8) (n := ksize)
    (by rw [hlen, hwidth]; omega)
  rw [key_bucketImage, Nat.zero_add] at hkey
  have hval : getU64 (bucketImage valuePayload k v) (8 + ksize) = getU64 (valuePayload.enc v) 0 := by
    rw [getU64, getU64, payload_bucketImage, List.drop_zero]
  refine Prod.ext (Subtype.ext hkey) ?_
  show UInt64.ofNat (getU64 (bucketImage valuePayload k v) (8 + ksize)) = v
  rw [hval]
  exact valueRef_enc v

theorem iter_spec : Prog.Spec (Under w₀ a.stack fun f => Tabled valuePayload f handle MAP_SIZE t)
    (iter a handle)
    (fun it w' => (Walking handle t it t.info.cap ∧ it.idx = 0) ∧
      Under w₀ a.stack (fun f => Tabled valuePayload f handle MAP_SIZE t) w')
    (fun e w' => IoFailed w₀ e ∧ Under w₀ a.stack (fun f => Tabled valuePayload f handle MAP_SIZE t) w')
    fun _ => True := by
  rw [iter]
  apply Prog.Spec.bind_value (tableFields_under (n := 3) (by omega))
  apply Prog.Spec.pure
  intro w' hw
  exact ⟨⟨⟨rfl, rfl, rfl, rfl, Nat.zero_add _⟩, rfl⟩, hw⟩

/-- The iterator yields the entries of the table, in the order of their buckets. -/
theorem toVec_spec : Prog.Spec (Under w₀ a.stack fun f => Tabled valuePayload f handle MAP_SIZE t)
    (toVec a handle ksize)
    (fun es w' => es = entries t.info.cap t.slots ∧
      Under w₀ a.stack (fun f => Tabled valuePayload f handle MAP_SIZE t) w')
    (fun e w' => IoFailed w₀ e ∧ Under w₀ a.stack (fun f => Tabled valuePayload f handle MAP_SIZE t) w')
    fun _ => True := by
  rw [toVec]
  apply iter_spec.bind
  intro it
  apply Prog.Spec.given
  intro ⟨hit, hidx⟩
  rw [stride_eq]
  apply Prog.Spec.bind_value (drain_spec hit (by rw [hit.cap]; exact Nat.lt_succ_self _) mutatedMsg)
  apply Prog.Spec.pure
  intro w' hw
  refine ⟨?_, hw⟩
  rw [List.map_map, hidx, entriesFrom, entries, List.range_eq_range']
  have hid : itemOf ksize ∘ (fun x : Key ksize × UInt64 => bucketImage valuePayload x.1 x.2) = id := by
    funext x
    exact itemOf_image x.1 x.2
  rw [hid, List.map_id]

end Calls

/-! ### The life of a map -/

theorem new_spec (ksize : Nat) (tag : UInt64) : Prog.Spec (Under w₀ a.stack fun _ => True) (new a tag)
    (fun b w' => ∃ t : Table ksize UInt64, MapAt a b.start w' (fun _ => none) t) (fun _ _ => True)
    fun _ => True := by
  apply (allocImage_spec _).weaken (fun _ h => h) ?_ (fun _ _ h => h) fun _ h => h
  intro b w' hw
  have hf := hw.1
  have hlen : b.len = MAP_SIZE := by
    rw [hf.len]
    simp [MAP_SIZE, HEADER_SIZE]
  have ht := tabled_of_filled ksize hf (by simp) (by
    have hzero : leNat (leBytes 8 0) = 0 := leNat_leBytes (by decide)
    simp [metaOf, getU64, HEADER_SIZE, List.drop_append, List.take_append, hzero]) valuePayload
  rw [hlen] at ht
  exact ⟨_, ht, maps_empty 0, .inl rfl⟩

section Histories

variable (a handle)

/-- From `w` to `w'`, the blocks of the map are left alone. -/
def Untouched (ksize : Nat) (w w' : World) : Prop := ∀ t : Table ksize UInt64,
  Tabled valuePayload (w.files a.stack) handle MAP_SIZE t →
  ∀ b, b = ⟨handle, MAP_SIZE⟩ ∨ (0 < t.info.cap ∧ b = t.block valuePayload) →
    b ∈ (w'.files a.stack).live ∧ ∀ x, b.start ≤ x → x < b.stop →
      (w'.files a.stack).bytes x = (w.files a.stack).bytes x

/-- The life of a map: it is made, called any number of times, and other code runs in between. The
reference is what the calls that succeeded build. -/
inductive History : World → (Key ksize → Option UInt64) → Prop
  | new {w : World} {tag : UInt64} {b : Range} (hnew : (new a tag w).out = .ok b) (hb : b.start = handle) :
      History (new a tag w).final fun _ => none
  | done {w : World} {r : Key ksize → Option UInt64} {o : Option UInt64} (op : MapOp ksize) (attempts : Nat)
      (h : History w r) (hrun : (op.run a handle attempts w).out = .ok o) :
      History (op.run a handle attempts w).final (op.apply r)
  | failed {w : World} {r : Key ksize → Option UInt64} {e : IoError} (op : MapOp ksize) (attempts : Nat)
      (h : History w r) (hrun : (op.run a handle attempts w).out = .error e) :
      History (op.run a handle attempts w).final r
  | elsewhere {w w' : World} {r : Key ksize → Option UInt64} (h : History w r)
      (hkeep : Untouched a handle ksize w w') : History w' r

end Histories

theorem History.holds (h : History a handle w r) : ∃ t, MapAt a handle w r t := by
  induction h with
  | new hnew hb =>
      obtain ⟨hok, -⟩ := new_spec _ _ _ (Under.refl trivial)
      exact hb ▸ hok _ hnew
  | done op attempts _ hrun ih =>
      obtain ⟨t, ht⟩ := ih
      cases MapOp.run_cases ht attempts op with
      | inl hcase => exact hcase.2
      | inr hcase =>
          obtain ⟨⟨e, hout, -⟩, -⟩ := hcase
          rw [hrun] at hout
          cases hout
  | failed op attempts _ hrun ih =>
      obtain ⟨t, ht⟩ := ih
      cases MapOp.run_cases ht attempts op with
      | inl hcase =>
          rw [hrun] at hcase
          cases hcase.1
      | inr hcase => exact hcase.2
  | elsewhere _ hkeep ih =>
      obtain ⟨t, ht⟩ := ih
      exact ⟨t, ⟨ht.tabled.toLaid.frame (hkeep t ht.tabled), ht.tabled.toSound⟩, ht.maps, ht.roomy⟩

/-- A growth of the table `t` makes the bigger `t'` without a tombstone, or fails. -/
def Growth (a : Allocator) (handle : Nat) (w : World) (t t' : Table ksize UInt64) : Prop :=
  (((growTable a handle (stride ksize) ksize).run w).out = .ok () ∧
    t'.info.cap = newcapOf t.info.cap ∧ t'.info.used = t'.info.len) ∨
  ∃ e, ((growTable a handle (stride ksize) ksize).run w).out = .error e ∧
    Failure valuePayload a w t e ((growTable a handle (stride ksize) ksize).run w).final

/-- What the map is worth in the state `w` when the reference is `r`. -/
structure Refines (a : Allocator) (handle : Nat) (w : World) (r : Key ksize → Option UInt64)
    (t : Table ksize UInt64) : Prop where
  map : MapAt a handle w r t
  calls : ∀ (attempts : Nat) (op : MapOp ksize),
    (op.run a handle attempts w).out = .ok (r op.key) ∨
      ∃ e, (op.run a handle attempts w).out = .error e ∧ op.Fails a w t e (op.run a handle attempts w).final
  growth : ∃ t', MapAt a handle ((growTable a handle (stride ksize) ksize).run w).final r t' ∧ Growth a handle w t t'
  items : ∃ es : List (Key ksize × UInt64), (es.map Prod.fst).Nodup ∧ (∀ k v, (k, v) ∈ es ↔ r k = some v) ∧
    ((toVec a handle ksize w).out = .ok es ∨ ∃ e, (toVec a handle ksize w).out = .error e ∧ IoFailed w e)

theorem MapAt.growth {t : Table ksize UInt64} (h : MapAt a handle w r t) :
    ∃ t', MapAt a handle ((growTable a handle (stride ksize) ksize).run w).final r t' ∧ Growth a handle w t t' := by
  simp only [Growth, stride_eq]
  obtain ⟨hok, herr, -⟩ := growTable_spec (t := t) w (Under.refl h.tabled)
  cases hout : ((growTable a handle (width valuePayload ksize) ksize).run w).out with
  | ok u =>
      obtain ⟨t', hg, hw⟩ := hok u hout
      have hfree := hg.not_crowded h.tabled
      exact ⟨t', ⟨hw.1, hg.maps r h.maps, roomy_of_not_crowded hfree⟩,
        .inl ⟨rfl, hg.cap, hg.used.trans hg.len.symm⟩⟩
  | error e =>
      obtain ⟨hfail, hw⟩ := herr e hout
      exact ⟨t, ⟨hw.1, h.maps, h.roomy⟩, .inr ⟨e, rfl, hfail⟩⟩

theorem MapAt.items {t : Table ksize UInt64} (h : MapAt a handle w r t) :
    (toVec a handle ksize w).out = .ok (entries t.info.cap t.slots) ∨
      ∃ e, (toVec a handle ksize w).out = .error e ∧ IoFailed w e := by
  obtain ⟨hok, herr, -⟩ := toVec_spec w (Under.refl h.tabled)
  cases hout : (toVec a handle ksize w).out with
  | ok es => exact .inl (by rw [(hok es hout).1])
  | error e => exact .inr ⟨e, rfl, (herr e hout).1⟩

/-- Refinement. In every state of its life the map's table satisfies the probing invariant and holds the
entries of the reference; the next call returns what the reference holds; growing keeps the entries and
drops the tombstones; and the iterator yields each entry once. -/
theorem map_refines_finite_map (h : History a handle w r) :
    ∃ t : Table ksize UInt64, Refines a handle w r t := by
  obtain ⟨t, ht⟩ := h.holds
  refine ⟨t, ht, fun attempts op => ?_, ht.growth, entries t.info.cap t.slots, ?_, fun k v => ?_, ht.items⟩
  · exact (MapOp.run_cases ht attempts op).imp (fun hcase => hcase.1) fun hcase => hcase.1
  · exact ht.tabled.probed.nodup_entries
  · rw [mem_entries, ht.maps k v]

/-! ### A run -/

section Example

def byteKey (b : UInt8) : Key 1 := ⟨[b], List.length_singleton⟩

def oneAllocator : Allocator := ⟨0, true, none, 0⟩

/-- An empty map at 16, with room for two tables. -/
def freshMap : World := (new oneAllocator 7 (World.blank [16, 1000, 2000])).final

/-- The world behind the calls `ops`, where all of them return. -/
def ran : List (MapOp 1) → World → Option World
  | [], w => some w
  | op :: ops, w =>
      let r := op.run oneAllocator 16 0 w
      if r.out.toOption.isSome then ran ops r.final else none

theorem ran_history {ops : List (MapOp 1)} {w w' : World} {r : Key 1 → Option UInt64}
    (h : History oneAllocator 16 w r) (hran : ran ops w = some w') :
    History oneAllocator 16 w' (ops.foldl (fun r op => op.apply r) r) := by
  induction ops generalizing w r with
  | nil =>
      cases hran
      exact h
  | cons op ops ih =>
      rw [ran] at hran
      cases hout : (op.run oneAllocator 16 0 w).out with
      | ok v =>
          rw [hout] at hran
          exact ih (.done op 0 h hout) hran
      | error e =>
          rw [hout] at hran
          cases hran

/-- Two growths, a removal, an insertion that finds its tombstone, and an overwrite. -/
def mixed : List (MapOp 1) :=
  [.insert (byteKey 1) 11, .insert (byteKey 2) 12, .insert (byteKey 3) 13, .insert (byteKey 4) 14,
    .insert (byteKey 5) 15, .remove (byteKey 2), .remove (byteKey 5), .insert (byteKey 2) 22, .insert (byteKey 1) 21]

def mixedMap : World := (ran mixed freshMap).getD (World.blank [])

theorem mixedMap_history :
    History oneAllocator 16 mixedMap (mixed.foldl (fun r op => op.apply r) fun _ => none) := by
  have hnew : History oneAllocator 16 freshMap fun _ => none := @History.new 1 _ _ _ 7 ⟨16, 48⟩ rfl rfl
  apply ran_history hnew
  have hsome : (ran mixed freshMap).isSome = true := by decide +kernel
  obtain ⟨w, hw⟩ := Option.isSome_iff_exists.mp hsome
  rw [mixedMap, hw]
  rfl

theorem map_refines_finite_map_mixed : mixedMap.Quiet ∧
    ((MapOp.get (byteKey 1)).run oneAllocator 16 0 mixedMap).out = .ok (some 21) ∧
    ((MapOp.get (byteKey 5)).run oneAllocator 16 0 mixedMap).out = .ok none ∧
    ((MapOp.remove (byteKey 4)).run oneAllocator 16 0 mixedMap).out = .ok (some 14) ∧
    ∃ es, (toVec oneAllocator 16 1 mixedMap).out = .ok es ∧ (es.map Prod.fst).Nodup ∧
      (byteKey 2, 22) ∈ es := by
  have hquiet : mixedMap.Quiet := by decide +kernel
  obtain ⟨t, h⟩ := map_refines_finite_map mixedMap_history
  have hcalls : ∀ op : MapOp 1, (∀ e w, op.Fails oneAllocator mixedMap t e w → IoFailed mixedMap e) →
      (op.run oneAllocator 16 0 mixedMap).out =
        .ok ((mixed.foldl (fun r op => op.apply r) fun _ => none) op.key) := by
    intro op hop
    rcases h.calls 0 op with hout | ⟨e, -, hfails⟩
    · exact hout
    · exact absurd hquiet (hop e _ hfails).2
  refine ⟨hquiet, hcalls _ fun _ _ hf => hf, hcalls _ fun _ _ hf => hf, hcalls _ fun _ _ hf => hf, ?_⟩
  obtain ⟨es, hnodup, hmem, hout | ⟨e, -, hfails⟩⟩ := h.items
  · exact ⟨es, hout, hnodup, (hmem _ _).mpr rfl⟩
  · exact absurd hquiet hfails.2

end Example

end BStackHashMap

end BStackRaii
