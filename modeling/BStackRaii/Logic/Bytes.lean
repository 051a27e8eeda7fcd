import Mathlib.Algebra.Group.Nat.Defs
import Mathlib.Data.List.Basic
/-!
# Byte-addressed memory and little-endian words

A memory is a total map from addresses to bytes. A read yields the bytes of a window, and a write
replaces them. The rules below say how a read sees a write: all of it, a window of it, or nothing.
-/

namespace BStackRaii

/-- A byte-addressed memory. Bounds are a matter for its owner. -/
def Mem : Type := Nat → UInt8

def Mem.zero : Mem := fun _ => 0

abbrev Key (ksize : Nat) : Type := { bytes : List UInt8 // bytes.length = ksize }

/-! ### Little-endian words -/

/-- The `width` little-endian bytes of `v`. -/
def leBytes : Nat → Nat → List UInt8
  | 0, _ => []
  | width + 1, v => UInt8.ofNat (v % 256) :: leBytes width (v / 256)

def leNat : List UInt8 → Nat
  | [] => 0
  | b :: bs => b.toNat + 256 * leNat bs

@[simp] theorem length_leBytes (width v : Nat) : (leBytes width v).length = width := by
  induction width generalizing v with
  | zero => rfl
  | succ width ih => simp only [leBytes, List.length_cons, ih]

@[simp] theorem drop_leBytes {width n : Nat} (h : width ≤ n) (v : Nat) :
    (leBytes width v).drop n = [] := List.drop_eq_nil_of_le (by simpa using h)

@[simp] theorem take_leBytes {width n : Nat} (h : width ≤ n) (v : Nat) :
    (leBytes width v).take n = leBytes width v := List.take_of_length_le (by simpa using h)

theorem leNat_leBytes {width v : Nat} (hv : v < 256 ^ width) : leNat (leBytes width v) = v := by
  induction width generalizing v with
  | zero =>
      have hzero : v = 0 := by simpa using hv
      rw [hzero]
      rfl
  | succ width ih =>
      have hdiv : v / 256 < 256 ^ width := by
        rw [Nat.pow_succ, Nat.mul_comm] at hv
        exact Nat.div_lt_of_lt_mul hv
      have hbyte : (UInt8.ofNat (v % 256)).toNat = v % 256 := by
        simp only [UInt8.toNat_ofNat']
        omega
      simp only [leBytes, leNat, ih hdiv, hbyte]
      omega

theorem leNat_lt (bs : List UInt8) : leNat bs < 256 ^ bs.length := by
  induction bs with
  | nil => simp [leNat]
  | cons b bs ih =>
      have hb := b.toNat_lt
      simp only [leNat, List.length_cons, Nat.pow_succ]
      omega

theorem leBytes_leNat (bs : List UInt8) : leBytes bs.length (leNat bs) = bs := by
  induction bs with
  | nil => rfl
  | cons b bs ih =>
      have hb := b.toNat_lt
      have hmod : (b.toNat + 256 * leNat bs) % 256 = b.toNat := by omega
      have hdiv : (b.toNat + 256 * leNat bs) / 256 = leNat bs := by omega
      rw [leNat, List.length_cons, leBytes, hmod, hdiv, ih, UInt8.ofNat_toNat]

namespace Mem

/-! ### Reading and writing windows -/

def read (m : Mem) : Nat → Nat → List UInt8
  | _, 0 => []
  | off, n + 1 => m off :: read m (off + 1) n

def write (m : Mem) (off : Nat) (bs : List UInt8) : Mem := fun a =>
  if off ≤ a then (bs[a - off]?).getD (m a) else m a

/-- The little-endian `u64` word at `off`. -/
def word (m : Mem) (off : Nat) : Nat := leNat (m.read off 8)

variable {m m' : Mem} {off off' n k : Nat} {bs : List UInt8}

@[simp] theorem length_read (m : Mem) (off n : Nat) : (m.read off n).length = n := by
  induction n generalizing off with
  | zero => rfl
  | succ n ih => simp only [read, List.length_cons, ih]

theorem getElem?_read {i : Nat} (hi : i < n) : (m.read off n)[i]? = some (m (off + i)) := by
  induction n generalizing off i with
  | zero => omega
  | succ n ih =>
      cases i with
      | zero => rfl
      | succ i =>
          simp only [read, List.getElem?_cons_succ]
          rw [ih (by omega)]
          congr 2
          omega

theorem read_congr (h : ∀ a, off ≤ a → a < off + n → m a = m' a) : m.read off n = m'.read off n := by
  induction n generalizing off with
  | zero => rfl
  | succ n ih =>
      simp only [read]
      rw [h off (by omega) (by omega), ih fun a h1 h2 => h a (by omega) (by omega)]

theorem read_add (m : Mem) (off n k : Nat) :
    m.read off (n + k) = m.read off n ++ m.read (off + n) k := by
  induction n generalizing off with
  | zero => simp [read]
  | succ n ih =>
      rw [Nat.succ_add]
      simp only [read, List.cons_append, ih]
      congr 3
      omega

theorem write_of_lt {a : Nat} (h : a < off) : m.write off bs a = m a := by
  simp only [write, if_neg (Nat.not_le.mpr h)]

theorem write_of_ge {a : Nat} (h : off + bs.length ≤ a) : m.write off bs a = m a := by
  simp only [write]
  split
  · rw [List.getElem?_eq_none (by omega)]
    rfl
  · rfl

theorem write_at (m : Mem) (off : Nat) (bs : List UInt8) {i : Nat} (hi : i < bs.length) :
    m.write off bs (off + i) = bs[i] := by
  simp only [write, if_pos (Nat.le_add_right off i), Nat.add_sub_cancel_left]
  rw [List.getElem?_eq_getElem hi]
  rfl

/-- A read next to a write does not see it. -/
theorem read_write_disjoint (h : off' + n ≤ off ∨ off + bs.length ≤ off') :
    (m.write off bs).read off' n = m.read off' n := by
  refine read_congr fun a h1 h2 => ?_
  rcases h with h | h
  · exact write_of_lt (by omega)
  · exact write_of_ge (by omega)

/-- A read inside a write sees the window of it. -/
theorem read_write_window (m : Mem) (off : Nat) (bs : List UInt8) {i n : Nat} (h : i + n ≤ bs.length) :
    (m.write off bs).read (off + i) n = (bs.drop i).take n := by
  refine List.ext_getElem? fun j => ?_
  by_cases hj : j < n
  · rw [getElem?_read hj, List.getElem?_take_of_lt hj, List.getElem?_drop, Nat.add_assoc,
      write_at _ _ _ (by omega), List.getElem?_eq_getElem (by omega)]
  · rw [List.getElem?_eq_none (by simpa using hj), List.getElem?_eq_none (by simp; omega)]

theorem read_write_self (m : Mem) (off : Nat) (bs : List UInt8) :
    (m.write off bs).read off bs.length = bs := by
  have h := read_write_window m off bs (i := 0) (n := bs.length) (by omega)
  simpa using h

theorem read_write_eq (m : Mem) (off : Nat) (hlen : bs.length = n) : (m.write off bs).read off n = bs := by
  rw [← hlen]
  exact read_write_self m off bs

theorem word_write_self {v : Nat} (hv : v < 2 ^ 64) : (m.write off (leBytes 8 v)).word off = v := by
  rw [word, read_write_eq _ _ (length_leBytes 8 v)]
  exact leNat_leBytes (by simpa using hv)

theorem word_write_disjoint (h : off' + 8 ≤ off ∨ off + bs.length ≤ off') :
    (m.write off bs).word off' = m.word off' := by
  rw [word, read_write_disjoint h, ← word]

theorem word_congr (h : ∀ a, off ≤ a → a < off + 8 → m a = m' a) : m.word off = m'.word off := by
  rw [word, read_congr h, ← word]

/-- Equal words have equal bytes. -/
theorem eq_of_word {a : Nat} (h : m.word off = m'.word off) (hlo : off ≤ a) (hhi : a < off + 8) : m a = m' a := by
  have hbytes : ∀ x : Mem, leBytes 8 (x.word off) = x.read off 8 := fun x => by
    have hread := leBytes_leNat (x.read off 8)
    rwa [length_read] at hread
  have hread : m.read off 8 = m'.read off 8 := by rw [← hbytes m, h, hbytes m']
  have hget := congrArg (fun bs : List UInt8 => bs[a - off]?) hread
  simp only [getElem?_read (show a - off < 8 by omega), Nat.add_sub_cancel' hlo] at hget
  exact Option.some.inj hget

theorem read_zero (off n : Nat) : Mem.read (fun _ => 0) off n = List.replicate n 0 := by
  induction n generalizing off with
  | zero => rfl
  | succ n ih => exact congrArg (List.cons 0) (ih (off + 1))

theorem word_zero (off : Nat) : Mem.word (fun _ => 0) off = 0 :=
  (congrArg leNat (read_zero off 8)).trans (by decide)

theorem word_lt (m : Mem) (off : Nat) : m.word off < 2 ^ 64 := by
  have h := leNat_lt (m.read off 8)
  rw [length_read] at h
  simpa [word] using h

/-- A window of a read is a read. -/
theorem take_drop_read {i j : Nat} (h : i + j ≤ n) :
    ((m.read off n).drop i).take j = m.read (off + i) j := by
  refine List.ext_getElem? fun l => ?_
  by_cases hl : l < j
  · rw [List.getElem?_take_of_lt hl, List.getElem?_drop, getElem?_read (by omega), getElem?_read hl,
      Nat.add_assoc]
  · rw [List.getElem?_eq_none (by simp; omega), List.getElem?_eq_none (by simpa using hl)]

theorem head_drop_read {i : Nat} (h : i < n) : ((m.read off n).drop i).headD 0 = m (off + i) := by
  rw [List.headD_eq_head?_getD, List.head?_drop, getElem?_read h]
  rfl

/-! ### Many writes -/

/-- The writes `ws`, pairs of an offset and its bytes, in order. -/
def writeAll : List (Nat × List UInt8) → Mem → Mem
  | [], m => m
  | x :: ws, m => writeAll ws (m.write x.1 x.2)

/-- A window that a write does not touch. -/
def Clear (off n : Nat) (x : Nat × List UInt8) : Prop := off + n ≤ x.1 ∨ x.1 + x.2.length ≤ off

theorem read_writeAll_clear {ws : List (Nat × List UInt8)} (m : Mem)
    (h : ∀ x ∈ ws, Clear off n x) : (writeAll ws m).read off n = m.read off n := by
  induction ws generalizing m with
  | nil => rfl
  | cons x ws ih =>
      rw [writeAll, ih _ fun y hy => h y (List.mem_cons_of_mem x hy)]
      exact read_write_disjoint (h x List.mem_cons_self)

theorem writeAll_clear {ws : List (Nat × List UInt8)} (m : Mem) {i : Nat} (h : ∀ x ∈ ws, Clear i 1 x) :
    writeAll ws m i = m i := by
  induction ws generalizing m with
  | nil => rfl
  | cons x ws ih =>
      rw [writeAll, ih _ fun y hy => h y (List.mem_cons_of_mem x hy)]
      cases h x List.mem_cons_self with
      | inl hlt => exact write_of_lt (by omega)
      | inr hge => exact write_of_ge hge

/-- Of writes that do not touch each other, each is read back. -/
theorem read_writeAll_mem {ws : List (Nat × List UInt8)} (m : Mem)
    (h : ws.Pairwise fun x y => Clear x.1 x.2.length y) {x : Nat × List UInt8} (hx : x ∈ ws) :
    (writeAll ws m).read x.1 x.2.length = x.2 := by
  induction ws generalizing m with
  | nil => cases hx
  | cons y ws ih =>
      obtain ⟨hy, hws⟩ := List.pairwise_cons.mp h
      rcases List.mem_cons.mp hx with rfl | hx
      · rw [writeAll, read_writeAll_clear _ hy, read_write_self]
      · exact ih _ hws hx

end Mem

/-! ### Arrays of fixed-size records -/

theorem take_drop_records {α : Type} (enc : α → List UInt8) {size : Nat}
    (hsize : ∀ x, (enc x).length = size) (xs : List α) {i : Nat} (hi : i < xs.length) :
    ((xs.flatMap enc).drop (i * size)).take size = enc xs[i] := by
  induction xs generalizing i with
  | nil => simp at hi
  | cons x xs ih =>
      cases i with
      | zero => simp [hsize]
      | succ i =>
          have hdrop : ((x :: xs).flatMap enc).drop ((i + 1) * size) =
              (xs.flatMap enc).drop (i * size) := by
            rw [List.flatMap_cons, Nat.succ_mul, Nat.add_comm, ← List.drop_drop]
            congr 1
            rw [← hsize x, List.drop_left]
          rw [hdrop]
          exact ih (by simpa using hi)

theorem length_records {α : Type} (enc : α → List UInt8) {size : Nat}
    (hsize : ∀ x, (enc x).length = size) (xs : List α) :
    (xs.flatMap enc).length = xs.length * size := by
  rw [List.length_flatMap]
  simp [hsize]

end BStackRaii
