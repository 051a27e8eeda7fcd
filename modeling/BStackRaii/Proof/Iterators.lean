import BStackRaii.Logic.Cursor
import BStackRaii.Model.Deque
import BStackRaii.Model.HashMap
import BStackRaii.Model.LinkedList
import BStackRaii.Proof.Tree.Iter
import BStackRaii.Proof.LinkedList
/-!
# Iterators of a structure that changes

An iterator keeps the header words it read first and compares them in every call. Four structures do so, each
with the words its mutations change. What the comparison cannot see is a sequence of mutations that brings the
words back.
-/

namespace BStackRaii

variable {a : Allocator} {w : World}

/-! ### What a read returned -/

theorem getInto_ok {k off n : Nat} {buf : List UInt8} (h : (getInto k off n w).out = .ok buf) :
    buf = (w.files k).bytes.read off n := by
  simp only [getInto, Prog.volatile_apply] at h
  split at h
  · cases h
  · split at h <;> cases h
    rfl

theorem readU64_ok {k off v : Nat} (h : (readU64 k off w).out = .ok v) : v = (w.files k).bytes.word off := by
  obtain ⟨buf, hbuf, hv, -⟩ := Prog.bind_ok_inv h
  cases hv
  rw [getInto_ok hbuf]
  rfl

theorem readFields_ok {k off n : Nat} {fields : List Nat} (h : (readFields k off n w).out = .ok fields) :
    fields = (List.range n).map fun i => (w.files k).bytes.word (off + i * 8) := by
  obtain ⟨buf, hbuf, hfields, -⟩ := Prog.bind_ok_inv h
  cases hfields
  rw [getInto_ok hbuf]
  refine List.map_congr_left fun i hi => getU64_read ?_
  have hlt := List.mem_range.mp hi
  omega

def headerWords (a : Allocator) (offs : List Nat) (w : World) : List Nat := offs.map (w.files a.stack).bytes.word

theorem getInto_files (k off n : Nat) (w : World) : (getInto k off n w).final.files = w.files := by
  simp only [getInto, Prog.volatile_apply]
  split
  · rfl
  · split <;> rfl

theorem readU64_files {k off v : Nat} (h : (readU64 k off w).out = .ok v) :
    (readU64 k off w).final.files = w.files := by
  obtain ⟨buf, -, -, hfinal, -⟩ := Prog.bind_ok_inv h
  rw [readU64, hfinal]
  exact getInto_files k off 8 w

theorem readFields_header {off n : Nat} {fields : List Nat} (h : (readFields a.stack off n w).out = .ok fields) :
    fields = headerWords a ((List.range n).map fun i => off + i * 8) w := by
  rw [readFields_ok h, headerWords, List.map_map]
  rfl

/-! ### The four structures -/

namespace BStackLinkedList

def cursor (a : Allocator) : Cursor IoError World ListIter UInt64 := ⟨ListIter.next a, fun it => { it with cur := 0 }⟩

def Current (a : Allocator) (it : ListIter) (w : World) : Prop := headerWords a [it.blockOff + LEN_OFF] w = [it.len0]

theorem next_inv {it it' : ListIter} {item : Option UInt64} (h : (it.next a w).out = .ok (item, it')) :
    (it.cur = 0 ∨ Current a it w) ∧ it'.blockOff = it.blockOff ∧ it'.len0 = it.len0 := by
  unfold ListIter.next at h
  by_cases hcur : it.cur = 0
  · rw [if_pos hcur] at h
    cases h
    exact ⟨.inl hcur, rfl, rfl⟩
  · rw [if_neg hcur] at h
    obtain ⟨len, hlen, h, -⟩ := Prog.bind_ok_inv h
    by_cases hsame : len = it.len0
    · have hcurrent : Current a it w := congrArg (fun len => [len]) ((readU64_ok hlen).symm.trans hsame)
      rw [if_neg (not_not_intro hsame)] at h
      cases hremaining : it.remaining with
      | zero =>
          rw [hremaining] at h
          cases h
      | succ remaining =>
          rw [hremaining] at h
          obtain ⟨off, -, h, -⟩ := Prog.bind_ok_inv h
          obtain ⟨fields, -, h, -⟩ := Prog.bind_ok_inv h
          cases h
          exact ⟨.inr hcurrent, rfl, rfl⟩
    · rw [if_pos hsame] at h
      cases h

theorem cursor_checks (a : Allocator) : (cursor a).Checks (·.cur = 0) (Current a) where
  atEnd hit := by
    simp only [cursor, ListIter.next, if_pos hit, Prog.pure_apply]
  stopped _ := rfl
  checked h := (next_inv h).1
  kept h t := by
    obtain ⟨-, hoff, hlen⟩ := next_inv h
    rw [Current, Current, hoff, hlen]

theorem iter_inv {list : Nat} {it : ListIter} (h : (iter a list w).out = .ok it) :
    it.blockOff = list ∧ Current a it w := by
  obtain ⟨head, hhead, h, -⟩ := Prog.bind_ok_inv h
  obtain ⟨len, hlen, h, -⟩ := Prog.bind_ok_inv h
  cases h
  have hword := readU64_ok hlen
  rw [readU64_files hhead] at hword
  exact ⟨rfl, congrArg (fun len => [len]) hword.symm⟩

end BStackLinkedList

namespace BStackDeque

def cursor (a : Allocator) : Cursor IoError World DequeIter UInt64 :=
  ⟨DequeIter.next a, fun it => { it with pos := it.ring.len }⟩

def ringOffs (handle : Nat) : List Nat := (List.range 4).map fun i => handle + DATA_OFF + i * 8

def Current (a : Allocator) (it : DequeIter) (w : World) : Prop :=
  headerWords a (ringOffs it.blockOff) w = [it.ring.data, it.ring.cap, it.ring.head, it.ring.len]

theorem readMeta_ok {handle : Nat} {ring : Ring} (h : (readMeta a handle w).out = .ok ring) :
    headerWords a (ringOffs handle) w = [ring.data, ring.cap, ring.head, ring.len] := by
  obtain ⟨fields, hfields, h, -⟩ := Prog.bind_ok_inv h
  cases h
  rw [readFields_header hfields]
  rfl

theorem next_inv {it it' : DequeIter} {item : Option UInt64} (h : (it.next a w).out = .ok (item, it')) :
    (it.ring.len ≤ it.pos ∨ Current a it w) ∧ it'.blockOff = it.blockOff ∧ it'.ring = it.ring := by
  unfold DequeIter.next at h
  by_cases hend : it.ring.len ≤ it.pos
  · rw [if_pos hend] at h
    cases h
    exact ⟨.inl hend, rfl, rfl⟩
  · rw [if_neg hend] at h
    obtain ⟨ring, hring, h, -⟩ := Prog.bind_ok_inv h
    by_cases hsame : ring = it.ring
    · subst hsame
      rw [if_neg (not_not_intro rfl)] at h
      obtain ⟨idx, -, h, -⟩ := Prog.bind_ok_inv h
      obtain ⟨slot, -, h, -⟩ := Prog.bind_ok_inv h
      obtain ⟨vref, -, h, -⟩ := Prog.bind_ok_inv h
      cases h
      exact ⟨.inr (readMeta_ok hring), rfl, rfl⟩
    · rw [if_pos hsame] at h
      cases h

theorem cursor_checks (a : Allocator) : (cursor a).Checks (fun it => it.ring.len ≤ it.pos) (Current a) where
  atEnd hit := by
    simp only [cursor, DequeIter.next, if_pos hit, Prog.pure_apply]
  stopped it := Nat.le_refl it.ring.len
  checked h := (next_inv h).1
  kept h t := by
    obtain ⟨-, hoff, hring⟩ := next_inv h
    rw [Current, Current, hoff, hring]

theorem iter_inv {handle : Nat} {it : DequeIter} (h : (iter a handle w).out = .ok it) :
    it.blockOff = handle ∧ Current a it w := by
  obtain ⟨ring, hring, h, -⟩ := Prog.bind_ok_inv h
  cases h
  exact ⟨rfl, readMeta_ok hring⟩

end BStackDeque

namespace BStackHashMap

open BucketTable

def cursor (a : Allocator) (ksize : Nat) : Cursor IoError World Iter (Key ksize × UInt64) :=
  ⟨next a ksize, fun it => { it with idx := it.cap }⟩

def tableOffs (handle : Nat) : List Nat := (List.range 3).map fun i => handle + TABLE_OFF + i * 8

def Current (a : Allocator) (it : Iter) (w : World) : Prop :=
  headerWords a (tableOffs it.handle) w = [it.table, it.cap, it.len]

theorem scan_inv {stride left idx : Nat} {it it' : Iter} {item : Option (List UInt8)}
    (h : (it.scan a stride left idx w).out = .ok (item, it')) : ∃ idx', it' = { it with idx := idx' } := by
  induction left generalizing idx w with
  | zero =>
      cases h
      exact ⟨it.cap, rfl⟩
  | succ left ih =>
      obtain ⟨bucket, -, h, -⟩ := Prog.bind_ok_inv h
      obtain ⟨buf, -, h, -⟩ := Prog.bind_ok_inv h
      by_cases hlive : getU64 buf 0 = OCCUPIED
      · rw [if_pos hlive] at h
        cases h
        exact ⟨idx + 1, rfl⟩
      · rw [if_neg hlive] at h
        exact ih h

theorem next_inv {ksize : Nat} {it it' : Iter} {item : Option (Key ksize × UInt64)}
    (h : (next a ksize it w).out = .ok (item, it')) :
    (it.cap ≤ it.idx ∨ Current a it w) ∧ ∃ idx, it' = { it with idx } := by
  obtain ⟨⟨buf, last⟩, hnext, h, -⟩ := Prog.bind_ok_inv h
  cases h
  unfold Iter.next at hnext
  by_cases hidx : it.idx < it.cap
  · rw [if_pos hidx] at hnext
    obtain ⟨fields, hfields, hnext, -⟩ := Prog.bind_ok_inv hnext
    by_cases hsame : fields = [it.table, it.cap, it.len]
    · rw [if_pos hsame] at hnext
      exact ⟨.inr ((readFields_header hfields).symm.trans hsame), scan_inv hnext⟩
    · rw [if_neg hsame] at hnext
      cases hnext
  · rw [if_neg hidx] at hnext
    cases hnext
    exact ⟨.inl (Nat.le_of_not_lt hidx), it.idx, rfl⟩

theorem cursor_checks (a : Allocator) (ksize : Nat) :
    (cursor a ksize).Checks (fun it => it.cap ≤ it.idx) (Current a) where
  atEnd hit := by
    simp only [cursor, next, Iter.next, if_neg (Nat.not_lt.mpr hit), pure_bind]
    rfl
  stopped it := Nat.le_refl it.cap
  checked h := (next_inv h).1
  kept h t := by
    obtain ⟨-, idx, rfl⟩ := next_inv h
    rfl

theorem iter_inv {handle : Nat} {it : Iter} (h : (iter a handle w).out = .ok it) :
    it.handle = handle ∧ Current a it w := by
  obtain ⟨fields, hfields, h, -⟩ := Prog.bind_ok_inv h
  cases h
  refine ⟨rfl, ?_⟩
  rw [readFields_header hfields]
  rfl

end BStackHashMap

namespace BStackBTreeMap

variable {ksize : Nat} {cmp : Key ksize → Key ksize → Ordering}

def cursor (cmp : Key ksize → Key ksize → Ordering) (a : Allocator) :
    Cursor IoError World (BTreeMapIter ksize) (Entry ksize) :=
  ⟨BTreeMapIter.next cmp a, fun it => { it with frames := [] }⟩

def rootOffs (handle : Nat) : List Nat := [handle + ROOT_OFF, handle + LEN_OFF]

def Current (a : Allocator) (it : BTreeMapIter ksize) (w : World) : Prop :=
  headerWords a (rootOffs it.blockOff) w = [it.root0, it.len0]

theorem readFields_inv {handle root len : Nat} (h : (readFields a handle w).out = .ok (root, len)) :
    headerWords a (rootOffs handle) w = [root, len] := by
  obtain ⟨buf, hbuf, h, -⟩ := Prog.bind_ok_inv h
  cases h
  have hroot : (buf.drop 0).take 8 = (w.files a.stack).bytes.read (handle + ROOT_OFF) 8 := by
    rw [getInto_ok hbuf]
    exact Mem.take_drop_read (by decide)
  have hlen : (buf.drop 8).take 8 = (w.files a.stack).bytes.read (handle + LEN_OFF) 8 := by
    rw [getInto_ok hbuf]
    exact Mem.take_drop_read (by decide)
  rw [List.take_of_length_le (by rw [getInto_ok hbuf]; simp)] at hlen
  rw [List.drop_zero] at hroot
  rw [hroot, hlen]
  rfl

theorem check_inv {it : BTreeMapIter ksize} {u : Unit} (h : (it.check a w).out = .ok u) :
    it.frames = [] ∨ Current a it w := by
  unfold BTreeMapIter.check at h
  cases hframes : it.frames with
  | nil => exact .inl rfl
  | cons frame frames =>
      rw [hframes, if_neg (by simp)] at h
      obtain ⟨⟨root, len⟩, hfields, h, -⟩ := Prog.bind_ok_inv h
      by_cases hsame : (root, len) = (it.root0, it.len0)
      · cases hsame
        exact .inr (readFields_inv hfields)
      · rw [if_neg hsame] at h
        cases h

theorem next_inv {it it' : BTreeMapIter ksize} {item : Option (Entry ksize)}
    (h : (it.next cmp a w).out = .ok (item, it')) :
    (it.frames = [] ∨ Current a it w) ∧ ∃ frames, it' = { it with frames } := by
  unfold BTreeMapIter.next at h
  obtain ⟨_, hcheck, h, -⟩ := Prog.bind_ok_inv h
  refine ⟨check_inv hcheck, ?_⟩
  cases hrest : BTreeMapIter.unfinished it.frames with
  | nil =>
      rw [hrest] at h
      cases h
      exact ⟨[], rfl⟩
  | cons frame outer =>
      rw [hrest] at h
      obtain ⟨nb, i⟩ := frame
      obtain ⟨e, -, h, -⟩ := Prog.bind_ok_inv h
      by_cases hpast : it.past cmp e.1 = true
      · rw [if_pos hpast] at h
        cases h
        exact ⟨[], rfl⟩
      · rw [if_neg hpast] at h
        by_cases hleaf : nb.leaf = true
        · rw [if_pos hleaf] at h
          cases h
          exact ⟨_, rfl⟩
        · rw [if_neg hleaf] at h
          obtain ⟨child, -, h, -⟩ := Prog.bind_ok_inv h
          obtain ⟨frames, -, h, -⟩ := Prog.bind_ok_inv h
          cases h
          exact ⟨frames, rfl⟩

theorem cursor_checks (cmp : Key ksize → Key ksize → Ordering) (a : Allocator) :
    (cursor cmp a).Checks (·.frames = []) (Current a) where
  atEnd {it _} hit := by
    obtain ⟨blockOff, root0, len0, frames, hi⟩ := it
    cases hit
    rfl
  stopped _ := rfl
  checked h := (next_inv h).1
  kept h t := by
    obtain ⟨-, frames, rfl⟩ := next_inv h
    rfl

theorem iter_inv {handle : Nat} {it : BTreeMapIter ksize} (h : (iter a handle w).out = .ok it) :
    it.blockOff = handle ∧ Current a it w := by
  obtain ⟨⟨root, len⟩, hfields, h, -⟩ := Prog.bind_ok_inv h
  obtain ⟨frames, -, h, -⟩ := Prog.bind_ok_inv h
  cases h
  exact ⟨rfl, readFields_inv hfields⟩

theorem range_inv {handle : Nat} {lo hi : Key ksize} {it : BTreeMapIter ksize}
    (h : (range cmp a handle lo hi w).out = .ok it) : it.blockOff = handle ∧ Current a it w := by
  obtain ⟨⟨root, len⟩, hfields, h, -⟩ := Prog.bind_ok_inv h
  obtain ⟨frames, -, h, -⟩ := Prog.bind_ok_inv h
  cases h
  exact ⟨rfl, readFields_inv hfields⟩

end BStackBTreeMap

/-! ### Fail fast -/

theorem failsFast_header {ι α : Type} {c : Cursor IoError World ι α} {ended : ι → Prop} {current : ι → World → Prop}
    {it : ι} {offs snapshot : List Nat} {w₀ : World} (h : c.Checks ended current)
    (hsnapshot : ∀ w, current it w → headerWords a offs w = snapshot) (hit : current it w₀) :
    c.FailsFast ended (fun w => headerWords a offs w = headerWords a offs w₀) it :=
  h.failsFast fun w hw => (hsnapshot w hw).trans (hsnapshot w₀ hit).symm

section Example

open BStackLinkedList

/-- The next node takes the place of the one that is freed. -/
def reusing : World := { oneNode with picks := [100] }

def afterOps (ops : List ListOp) (w : World) : World :=
  ops.foldl (fun w op => ((op.code oneAllocator 16 3).run w).final) w

end Example

end BStackRaii
