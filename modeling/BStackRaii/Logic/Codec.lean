import BStackRaii.Logic.Bytes
import Mathlib.Data.Nat.ModEq
/-!
# Writers, readers and codecs

A writer appends to a byte buffer, and a reader moves over one. An encoder is a writer that may
refuse its value, and a decoder a reader that may refuse its bytes.

`Coded m e d v` is what joins the two: whatever `e` appends, `d` reads back as `v`, wherever the
bytes stand, as long as their place keeps its remainder modulo `m`. It composes along `>>=`, so an
encoder and its decoder are proved inverse by walking both at once.
-/

namespace BStackRaii

/-- The bytes written so far. -/
abbrev Writer := List UInt8

/-- A cursor over a byte buffer. -/
structure Reader where
  buf : List UInt8
  pos : Nat
deriving DecidableEq, Repr

abbrev Encoder (ε : Type) := StateT Writer (Except ε)

abbrev Decoder (ε : Type) := StateT Reader (Except ε)

def alignUp (n a : Nat) : Nat := (n + (a - 1)) / a * a

theorem le_alignUp {a : Nat} (ha : 0 < a) (n : Nat) : n ≤ alignUp n a := by
  have h := Nat.lt_div_mul_add (a := n + (a - 1)) ha
  simp only [alignUp]
  omega

theorem alignUp_add_mul {a : Nat} (ha : 0 < a) (n k : Nat) :
    alignUp (n + k * a) a = alignUp n a + k * a := by
  rw [alignUp, alignUp, Nat.add_right_comm, Nat.add_mul_div_right _ _ ha, Nat.add_mul]

/-- How far `n` is below the next multiple of `a` depends on its remainder only. -/
theorem alignUp_sub_congr {n k a m : Nat} (ha : 0 < a) (ham : a ∣ m) (h : n ≡ k [MOD m]) :
    alignUp n a - n = alignUp k a - k := by
  have hmod : n ≡ k [MOD a] := h.of_dvd ham
  have hn : alignUp n a = alignUp (n % a) a + n / a * a := by
    conv_lhs => rw [← Nat.mod_add_div' n a]
    exact alignUp_add_mul ha _ _
  have hk : alignUp k a = alignUp (k % a) a + k / a * a := by
    conv_lhs => rw [← Nat.mod_add_div' k a]
    exact alignUp_add_mul ha _ _
  have hrem : n % a = k % a := hmod
  have hn' := Nat.mod_add_div' n a
  have hk' := Nat.mod_add_div' k a
  rw [hn, hk, hrem]
  omega

/-! ### Sequencing -/

variable {ε σ α β : Type}

theorem except_bind_ok {x : Except ε α} {f : α → Except ε β} {b : β} :
    x >>= f = .ok b ↔ ∃ a, x = .ok a ∧ f a = .ok b := by
  cases x with
  | error e => exact ⟨nofun, nofun⟩
  | ok a =>
      constructor
      · exact fun h => ⟨a, rfl, h⟩
      · rintro ⟨a', ha, hf⟩
        cases ha
        exact hf

theorem stateT_bind_ok {x : StateT σ (Except ε) α} {f : α → StateT σ (Except ε) β} {s s' : σ}
    {b : β} : (x >>= f) s = .ok (b, s') ↔ ∃ a t, x s = .ok (a, t) ∧ f a t = .ok (b, s') := by
  show (x s >>= fun p => f p.1 p.2) = _ ↔ _
  rw [except_bind_ok]
  exact Prod.exists

/-! ### Writers -/

namespace Encoder

def emit (bs : List UInt8) : Encoder ε Unit := fun w => .ok ((), w ++ bs)

/-- Pad with zero bytes to the next `a`-byte boundary. -/
def align (a : Nat) : Encoder ε Unit := fun w =>
  .ok ((), w ++ List.replicate (alignUp w.length a - w.length) 0)

/-- The value of a fallible computation. -/
def given (x : Except ε α) : Encoder ε α := fun w => x.map (·, w)

def each (e : α → Encoder ε Unit) : List α → Encoder ε Unit
  | [] => pure ()
  | x :: xs => e x >>= fun _ => each e xs

/-- The bytes `e` writes into an empty buffer. -/
def alone (e : Encoder ε Unit) : Except ε (List UInt8) := (e []).map (·.2)

theorem alone_ok {e : Encoder ε Unit} {bytes : List UInt8} :
    e.alone = .ok bytes ↔ e [] = .ok ((), bytes) := by
  cases he : e [] with
  | error err => simp [alone, he, Except.map]
  | ok p => simp [alone, he, Except.map, Prod.ext_iff]

theorem given_ok {x : Except ε α} {a : α} {w w' : Writer} :
    given x w = .ok (a, w') ↔ x = .ok a ∧ w' = w := by
  cases x with
  | error err => simp [given, Except.map]
  | ok b => simp [given, Except.map, eq_comm]

end Encoder

/-! ### Readers -/

namespace Reader

/-- The next `n` bytes. `none` when fewer remain. -/
def take (n : Nat) (r : Reader) : Option (List UInt8 × Reader) :=
  if r.pos + n ≤ r.buf.length then some ((r.buf.drop r.pos).take n, { r with pos := r.pos + n })
  else none

def mapFst (f : α → β) (read : Reader → Option (α × Reader)) (r : Reader) : Option (β × Reader) :=
  (read r).map fun p => (f p.1, p.2)

def u8 : Reader → Option (UInt8 × Reader) := mapFst (UInt8.ofNat ∘ leNat) (take 1)

def u16 : Reader → Option (UInt16 × Reader) := mapFst (UInt16.ofNat ∘ leNat) (take 2)

def u32 : Reader → Option (UInt32 × Reader) := mapFst (UInt32.ofNat ∘ leNat) (take 4)

def u64 : Reader → Option (UInt64 × Reader) := mapFst (UInt64.ofNat ∘ leNat) (take 8)

def i64 : Reader → Option (Int64 × Reader) :=
  mapFst (fun bs => (UInt64.ofNat (leNat bs)).toInt64) (take 8)

/-- Skip to the next `a`-byte boundary. `none` when it lies past the end. -/
def skipPad (a : Nat) (r : Reader) : Option (Unit × Reader) :=
  if alignUp r.pos a ≤ r.buf.length then some ((), { r with pos := alignUp r.pos a }) else none

end Reader

namespace Decoder

/-- Read, or fail with `e`. -/
def ofOption (e : ε) (read : Reader → Option (α × Reader)) : Decoder ε α := fun r =>
  match read r with
  | some p => .ok p
  | none => .error e

def position : Decoder ε Nat := fun r => .ok (r.pos, r)

def size : Decoder ε Nat := fun r => .ok (r.buf.length, r)

def times (d : Decoder ε α) : Nat → Decoder ε (List α)
  | 0 => pure []
  | k + 1 => d >>= fun x => times d k >>= fun xs => pure (x :: xs)

/-- Decode from the start of `bytes`. What follows the value is not looked at. -/
def run (d : Decoder ε α) (bytes : List UInt8) : Except ε α := (d ⟨bytes, 0⟩).map (·.1)

end Decoder

/-! ### What a decoder can return -/

/-- Every value that `d` returns has `P`. -/
def Yields (d : Decoder ε α) (P : α → Prop) : Prop := ∀ r v r', d r = .ok (v, r') → P v

namespace Yields

variable {d : Decoder ε α} {P : α → Prop}

theorem any (d : Decoder ε α) : Yields d fun _ => True := fun _ _ _ _ => trivial

theorem pure {v : α} (h : P v) : Yields (pure v : Decoder ε α) P := by
  intro r v' r' hrun
  cases hrun
  exact h

theorem throw (e : ε) : Yields (throw e : Decoder ε α) P := by
  intro r v r' hrun
  cases hrun

theorem bind {f : α → Decoder ε β} {Q : β → Prop} (hd : Yields d P)
    (hf : ∀ v, P v → Yields (f v) Q) : Yields (d >>= f) Q := by
  intro r v r' hrun
  obtain ⟨a, t, hx, hrest⟩ := stateT_bind_ok.mp hrun
  exact hf a (hd r a t hx) t v r' hrest

theorem times (hd : Yields d P) (k : Nat) : Yields (d.times k) fun xs => ∀ x ∈ xs, P x := by
  induction k with
  | zero => exact pure (by simp)
  | succ k ih =>
      refine bind hd fun x hx => ?_
      refine bind ih fun xs hxs => pure ?_
      intro y hy
      cases hy with
      | head => exact hx
      | tail _ hy => exact hxs y hy

theorem of_run (h : Yields d P) {bytes : List UInt8} {v : α} (hrun : d.run bytes = .ok v) :
    P v := by
  cases hd : d ⟨bytes, 0⟩ with
  | error e =>
      rw [Decoder.run, hd] at hrun
      cases hrun
  | ok p =>
      rw [Decoder.run, hd] at hrun
      cases hrun
      exact h _ p.1 p.2 hd

end Yields

/-! ### How far a decoder moves -/

/-- A decoder that starts within its buffer ends within it. Every value that it returns satisfies `P`
together with the number of bytes that the cursor moved over. -/
def Consumes (d : Decoder ε α) (P : α → Nat → Prop) : Prop := ∀ r v r', d r = .ok (v, r') →
  r'.buf = r.buf ∧ (r.pos ≤ r.buf.length → r'.pos ≤ r.buf.length) ∧ ∃ n, r'.pos = r.pos + n ∧ P v n

namespace Consumes

variable {d : Decoder ε α} {P : α → Nat → Prop} {R : β → Nat → Prop}

theorem pure {v : α} (h : P v 0) : Consumes (pure v : Decoder ε α) P := by
  intro r v' r' hrun
  cases hrun
  exact ⟨rfl, id, 0, rfl, h⟩

theorem throw (e : ε) : Consumes (throw e : Decoder ε α) P := by
  intro r v r' hrun
  cases hrun

theorem bind {f : α → Decoder ε β} (hd : Consumes d P)
    (hf : ∀ v n, P v n → Consumes (f v) fun b k => R b (n + k)) : Consumes (d >>= f) R := by
  intro r b r' hrun
  obtain ⟨v, t, hx, hrest⟩ := stateT_bind_ok.mp hrun
  obtain ⟨hbuf, hin, n, hpos, hv⟩ := hd r v t hx
  obtain ⟨hbuf', hin', k, hpos', hb⟩ := hf v n hv t b r' hrest
  rw [hbuf] at hbuf' hin'
  exact ⟨hbuf', fun h => hin' (hin h), n + k, by omega, hb⟩

end Consumes

theorem Reader.take_inside {n : Nat} {r r' : Reader} {bs : List UInt8} (h : Reader.take n r = some (bs, r')) :
    r.pos + n ≤ r.buf.length ∧ bs.length = n ∧ r' = { r with pos := r.pos + n } := by
  unfold Reader.take at h
  split at h
  · cases h
    refine ⟨‹_›, ?_, rfl⟩
    rw [List.length_take, List.length_drop]
    omega
  · cases h

theorem Consumes.ofOption {read : Reader → Option (α × Reader)} {P : α → Nat → Prop} {e : ε}
    (h : ∀ r v r', read r = some (v, r') → ∃ n, r' = { r with pos := r.pos + n } ∧
      (r.pos ≤ r.buf.length → r.pos + n ≤ r.buf.length) ∧ P v n) : Consumes (Decoder.ofOption e read) P := by
  intro r v r' hrun
  rw [Decoder.ofOption] at hrun
  cases hread : read r with
  | none =>
      rw [hread] at hrun
      cases hrun
  | some p =>
      rw [hread] at hrun
      cases hrun
      obtain ⟨n, hr, hin, hp⟩ := h r v r' hread
      rw [hr]
      exact ⟨rfl, hin, n, rfl, hp⟩

theorem Consumes.word {f : List UInt8 → α} (k : Nat) (e : ε) :
    Consumes (Decoder.ofOption e (Reader.mapFst f (Reader.take k))) fun _ n => n = k := by
  apply Consumes.ofOption
  intro r v r' hread
  rw [Reader.mapFst, Option.map_eq_some_iff] at hread
  obtain ⟨p, hp, hv⟩ := hread
  cases hv
  obtain ⟨hin, -, hr⟩ := Reader.take_inside hp
  exact ⟨k, hr, fun _ => hin, rfl⟩

theorem Consumes.take (k : Nat) (e : ε) :
    Consumes (Decoder.ofOption e (Reader.take k)) fun bs n => bs.length = k ∧ n = k := by
  apply Consumes.ofOption
  intro r v r' hread
  obtain ⟨hin, hlen, hr⟩ := Reader.take_inside hread
  exact ⟨k, hr, fun _ => hin, hlen, rfl⟩

theorem Consumes.skipPad {a : Nat} (ha : 0 < a) (e : ε) :
    Consumes (Decoder.ofOption e (Reader.skipPad a)) fun _ _ => True := by
  apply Consumes.ofOption
  intro r v r' hread
  rw [Reader.skipPad] at hread
  split at hread
  · cases hread
    have hle := le_alignUp ha r.pos
    refine ⟨alignUp r.pos a - r.pos, ?_, fun _ => by omega, trivial⟩
    simp only [Reader.mk.injEq, true_and]
    omega
  · cases hread

/-! ### Encoders that do not refuse -/

def Emits (e : Encoder ε Unit) (n : Nat) : Prop := ∀ w, ∃ bytes, e w = .ok ((), w ++ bytes) ∧ bytes.length = n

def Succeeds (e : Encoder ε Unit) : Prop := ∀ w, ∃ w', e w = .ok ((), w')

theorem Emits.emit (bs : List UInt8) : Emits (Encoder.emit bs : Encoder ε Unit) bs.length := fun _ => ⟨bs, rfl, rfl⟩

theorem Emits.pure : Emits (pure () : Encoder ε Unit) 0 := fun w => ⟨[], by rw [List.append_nil]; rfl, rfl⟩

theorem Emits.bind {e : Encoder ε Unit} {f : Unit → Encoder ε Unit} {n k : Nat} (he : Emits e n)
    (hf : Emits (f ()) k) : Emits (e >>= f) (n + k) := by
  intro w
  obtain ⟨bs, hrun, hlen⟩ := he w
  obtain ⟨bs', hrun', hlen'⟩ := hf (w ++ bs)
  refine ⟨bs ++ bs', stateT_bind_ok.mpr ⟨(), _, hrun, ?_⟩, ?_⟩
  · rw [← List.append_assoc]
    exact hrun'
  · rw [List.length_append, hlen, hlen']

theorem Emits.given {x : Except ε α} {a : α} {f : α → Encoder ε Unit} {n : Nat} (hx : x = .ok a)
    (hf : Emits (f a) n) : Emits (Encoder.given x >>= f) n := by
  intro w
  obtain ⟨bs, hrun, hlen⟩ := hf w
  exact ⟨bs, stateT_bind_ok.mpr ⟨a, w, Encoder.given_ok.mpr ⟨hx, rfl⟩, hrun⟩, hlen⟩

theorem Emits.alone {e : Encoder ε Unit} {n : Nat} (he : Emits e n) : ∃ bs, e.alone = .ok bs ∧ bs.length = n := by
  obtain ⟨bs, hrun, hlen⟩ := he []
  exact ⟨bs, Encoder.alone_ok.mpr hrun, hlen⟩

namespace Succeeds

theorem emit (bs : List UInt8) : Succeeds (Encoder.emit bs : Encoder ε Unit) := fun _ => ⟨_, rfl⟩

theorem align (a : Nat) : Succeeds (Encoder.align a : Encoder ε Unit) := fun _ => ⟨_, rfl⟩

theorem bind {e : Encoder ε Unit} {f : Unit → Encoder ε Unit} (he : Succeeds e) (hf : Succeeds (f ())) :
    Succeeds (e >>= f) := by
  intro w
  obtain ⟨w₁, hrun⟩ := he w
  obtain ⟨w', hrun'⟩ := hf w₁
  exact ⟨w', stateT_bind_ok.mpr ⟨(), w₁, hrun, hrun'⟩⟩

theorem given {x : Except ε α} {a : α} {f : α → Encoder ε Unit} (hx : x = .ok a) (hf : Succeeds (f a)) :
    Succeeds (Encoder.given x >>= f) := by
  intro w
  obtain ⟨w', hrun⟩ := hf w
  exact ⟨w', stateT_bind_ok.mpr ⟨a, w, Encoder.given_ok.mpr ⟨hx, rfl⟩, hrun⟩⟩

theorem each {e : α → Encoder ε Unit} {xs : List α} (h : ∀ x ∈ xs, Succeeds (e x)) :
    Succeeds (Encoder.each e xs) := by
  induction xs with
  | nil => exact fun w => ⟨w, rfl⟩
  | cons x xs ih =>
      apply bind (h x List.mem_cons_self)
      exact ih fun y hy => h y (List.mem_cons_of_mem x hy)

end Succeeds

/-- Where `e` does not refuse, `e'` appends as many bytes. -/
def Mirrors (e e' : Encoder ε Unit) : Prop := ∀ w w' v, w.length = w'.length → e w = .ok ((), v) →
  ∃ v', e' w' = .ok ((), v') ∧ v'.length = v.length

namespace Mirrors

theorem emit {bs bs' : List UInt8} (h : bs'.length = bs.length) :
    Mirrors (Encoder.emit bs : Encoder ε Unit) (Encoder.emit bs') := by
  intro w w' v hw hrun
  cases hrun
  exact ⟨_, rfl, by rw [List.length_append, List.length_append, hw, h]⟩

theorem align (a : Nat) : Mirrors (Encoder.align a : Encoder ε Unit) (Encoder.align a) := by
  intro w w' v hw hrun
  cases hrun
  refine ⟨_, rfl, ?_⟩
  rw [List.length_append, List.length_append, List.length_replicate, List.length_replicate, hw]

theorem pure : Mirrors (pure () : Encoder ε Unit) (pure ()) := by
  intro w w' v hw hrun
  cases hrun
  exact ⟨w', rfl, hw.symm⟩

theorem bind {e e' : Encoder ε Unit} {f f' : Unit → Encoder ε Unit} (he : Mirrors e e')
    (hf : Mirrors (f ()) (f' ())) : Mirrors (e >>= f) (e' >>= f') := by
  intro w w' v hw hrun
  obtain ⟨_, u, hfirst, hrest⟩ := stateT_bind_ok.mp hrun
  obtain ⟨u', hfirst', hu⟩ := he w w' u hw hfirst
  obtain ⟨v', hrest', hv⟩ := hf u u' v hu.symm hrest
  exact ⟨v', stateT_bind_ok.mpr ⟨(), u', hfirst', hrest'⟩, hv⟩

theorem given {x : Except ε α} {f f' : α → Encoder ε Unit} (hf : ∀ a, x = .ok a → Mirrors (f a) (f' a)) :
    Mirrors (Encoder.given x >>= f) (Encoder.given x >>= f') := by
  intro w w' v hw hrun
  obtain ⟨a, u, hx, hrest⟩ := stateT_bind_ok.mp hrun
  obtain ⟨ha, rfl⟩ := Encoder.given_ok.mp hx
  obtain ⟨v', hrest', hv⟩ := hf a ha u w' v hw hrest
  exact ⟨v', stateT_bind_ok.mpr ⟨a, w', Encoder.given_ok.mpr ⟨ha, rfl⟩, hrest'⟩, hv⟩

/-- What follows may write the bytes of another encoder. -/
theorem alone {e e' : Encoder ε Unit} {f f' : Writer → Encoder ε Unit} (he : Mirrors e e')
    (hf : ∀ bs bs', bs'.length = bs.length → Mirrors (f bs) (f' bs')) :
    Mirrors (Encoder.given e.alone >>= f) (Encoder.given e'.alone >>= f') := by
  intro w w' v hw hrun
  obtain ⟨bs, u, hx, hrest⟩ := stateT_bind_ok.mp hrun
  obtain ⟨hbs, rfl⟩ := Encoder.given_ok.mp hx
  obtain ⟨bs', hrun', hlen⟩ := he [] [] bs rfl (Encoder.alone_ok.mp hbs)
  obtain ⟨v', hrest', hv⟩ := hf bs bs' hlen u w' v hw hrest
  exact ⟨v', stateT_bind_ok.mpr ⟨bs', w', Encoder.given_ok.mpr ⟨Encoder.alone_ok.mpr hrun', rfl⟩, hrest'⟩, hv⟩

theorem each {e : α → Encoder ε Unit} {xs ys : List α} (h : List.Forall₂ (fun x y => Mirrors (e x) (e y)) xs ys) :
    Mirrors (Encoder.each e xs) (Encoder.each e ys) := by
  induction h with
  | nil => exact pure
  | cons hhead _ ih => exact hhead.bind ih

theorem run {e e' : Encoder ε Unit} (h : Mirrors e e') {bs : List UInt8} (hbs : e.alone = .ok bs) :
    ∃ bs', e'.alone = .ok bs' ∧ bs'.length = bs.length := by
  obtain ⟨bs', hrun, hlen⟩ := h [] [] bs rfl (Encoder.alone_ok.mp hbs)
  exact ⟨bs', Encoder.alone_ok.mpr hrun, hlen⟩

end Mirrors

/-! ### Bytes that read back -/

/-- `read` finds `v` in `bytes`, wherever they stand. -/
def Fetches (read : Reader → Option (α × Reader)) (bytes : List UInt8) (v : α) : Prop :=
  ∀ pre post : List UInt8,
    read ⟨pre ++ bytes ++ post, pre.length⟩
      = some (v, ⟨pre ++ bytes ++ post, (pre ++ bytes).length⟩)

namespace Fetches

theorem take (bytes : List UInt8) : Fetches (Reader.take bytes.length) bytes bytes := by
  intro pre post
  rw [Reader.take, if_pos (by simp), List.append_assoc, List.drop_left, List.take_left]
  simp

theorem mapFst {read : Reader → Option (α × Reader)} {bytes : List UInt8} {v : α}
    (h : Fetches read bytes v) (f : α → β) : Fetches (Reader.mapFst f read) bytes (f v) := by
  intro pre post
  rw [Reader.mapFst, h pre post]
  rfl

private theorem word {width n : Nat} {f : List UInt8 → α} {v : α}
    (h : f (leBytes width n) = v) : Fetches (Reader.mapFst f (Reader.take width))
      (leBytes width n) v := by
  have hbytes := (take (leBytes width n)).mapFst f
  rwa [length_leBytes, h] at hbytes

theorem u8 (v : UInt8) : Fetches Reader.u8 (leBytes 1 v.toNat) v := by
  apply word
  show UInt8.ofNat (leNat (leBytes 1 v.toNat)) = v
  rw [leNat_leBytes (by simpa using v.toNat_lt), UInt8.ofNat_toNat]

theorem u16 (v : UInt16) : Fetches Reader.u16 (leBytes 2 v.toNat) v := by
  apply word
  show UInt16.ofNat (leNat (leBytes 2 v.toNat)) = v
  rw [leNat_leBytes (by simpa using v.toNat_lt), UInt16.ofNat_toNat]

theorem u32 (v : UInt32) : Fetches Reader.u32 (leBytes 4 v.toNat) v := by
  apply word
  show UInt32.ofNat (leNat (leBytes 4 v.toNat)) = v
  rw [leNat_leBytes (by simpa using v.toNat_lt), UInt32.ofNat_toNat]

theorem u64 (v : UInt64) : Fetches Reader.u64 (leBytes 8 v.toNat) v := by
  apply word
  show UInt64.ofNat (leNat (leBytes 8 v.toNat)) = v
  rw [leNat_leBytes (by simpa using v.toNat_lt), UInt64.ofNat_toNat]

theorem i64 (v : Int64) : Fetches Reader.i64 (leBytes 8 v.toUInt64.toNat) v := by
  apply word
  show (UInt64.ofNat (leNat (leBytes 8 v.toUInt64.toNat))).toInt64 = v
  rw [leNat_leBytes (by simpa using v.toUInt64.toNat_lt), UInt64.ofNat_toNat]
  rfl

end Fetches

/-- `d` finds `v` in `bytes` when they stand after `pre`, and moves past them. -/
def Reads (d : Decoder ε α) (pre bytes : List UInt8) (v : α) : Prop :=
  ∀ post : List UInt8,
    d ⟨pre ++ bytes ++ post, pre.length⟩
      = .ok (v, ⟨pre ++ bytes ++ post, (pre ++ bytes).length⟩)

namespace Reads

variable {d : Decoder ε α} {pre bytes rest : List UInt8} {v : α}

theorem pure (pre : List UInt8) (v : α) : Reads (pure v : Decoder ε α) pre [] v := by
  intro post
  simp only [List.append_nil]
  rfl

theorem bind {f : α → Decoder ε β} {b : β} (hd : Reads d pre bytes v)
    (hf : Reads (f v) (pre ++ bytes) rest b) : Reads (d >>= f) pre (bytes ++ rest) b := by
  intro post
  refine stateT_bind_ok.mpr ⟨v, ⟨pre ++ bytes ++ rest ++ post, (pre ++ bytes).length⟩, ?_, ?_⟩
  · have h := hd (rest ++ post)
    simpa only [List.append_assoc] using h
  · have h := hf post
    simpa only [List.append_assoc] using h

theorem run (h : Reads d [] bytes v) : d.run bytes = .ok v := by
  have hd := h []
  rw [List.nil_append, List.append_nil] at hd
  rw [Decoder.run]
  show (d ⟨bytes, ([] : List UInt8).length⟩).map (·.1) = .ok v
  rw [hd]
  rfl

theorem ofOption {read : Reader → Option (α × Reader)} (h : Fetches read bytes v) (e : ε)
    (pre : List UInt8) : Reads (Decoder.ofOption e read) pre bytes v := by
  intro post
  rw [Decoder.ofOption, h pre post]

theorem position (pre : List UInt8) :
    Reads (Decoder.position : Decoder ε Nat) pre [] pre.length := by
  intro post
  simp only [List.append_nil]
  rfl

end Reads

/-- `e` appends `bytes` to `pre`. -/
def Writes (e : Encoder ε Unit) (pre bytes : List UInt8) : Prop := e pre = .ok ((), pre ++ bytes)

theorem Writes.bind {e e' : Encoder ε Unit} {pre bytes rest : List UInt8}
    (he : Writes e pre bytes) (he' : Writes e' (pre ++ bytes) rest) :
    Writes (e >>= fun _ => e') pre (bytes ++ rest) := by
  refine stateT_bind_ok.mpr ⟨(), pre ++ bytes, he, ?_⟩
  rw [← List.append_assoc]
  exact he'

/-- Whatever `e` appends at one place, it appends at every place of the same remainder modulo `m`,
and `d` reads it back there as `v`. -/
def Coded (m : Nat) (e : Encoder ε Unit) (d : Decoder ε α) (v : α) : Prop :=
  ∀ w w', e w = .ok ((), w') → ∃ bytes, w' = w ++ bytes ∧
    ∀ pre : List UInt8, pre.length ≡ w.length [MOD m] → Writes e pre bytes ∧ Reads d pre bytes v

namespace Coded

variable {m : Nat} {e e' : Encoder ε Unit} {d : Decoder ε α} {v : α}

theorem pure (m : Nat) (v : α) :
    Coded m (pure () : Encoder ε Unit) (pure v : Decoder ε α) v := by
  intro w w' hrun
  cases hrun
  refine ⟨[], by simp, fun pre _ => ⟨?_, Reads.pure pre v⟩⟩
  rw [Writes, List.append_nil]
  rfl

theorem bind {f : α → Decoder ε β} {b : β} (hd : Coded m e d v) (hf : Coded m e' (f v) b) :
    Coded m (e >>= fun _ => e') (d >>= f) b := by
  intro w w' hrun
  obtain ⟨⟨⟩, w₁, he, he'⟩ := stateT_bind_ok.mp hrun
  obtain ⟨bytes, rfl, hbytes⟩ := hd w w₁ he
  obtain ⟨rest, rfl, hrest⟩ := hf _ w' he'
  refine ⟨bytes ++ rest, by rw [List.append_assoc], fun pre hpre => ?_⟩
  obtain ⟨hwrites, hreads⟩ := hbytes pre hpre
  have hnext : (pre ++ bytes).length ≡ (w ++ bytes).length [MOD m] := by
    rw [List.length_append, List.length_append]
    exact hpre.add_right _
  obtain ⟨hwrites', hreads'⟩ := hrest (pre ++ bytes) hnext
  exact ⟨hwrites.bind hwrites', hreads.bind hreads'⟩

theorem map {g : α → Decoder ε β} {b : β} (hd : Coded m e d v) (hg : g v = Pure.pure b) :
    Coded m e (d >>= g) b := by
  have hnext : Coded m (Pure.pure () : Encoder ε Unit) (g v) b := by
    rw [hg]
    exact pure m b
  have h := hd.bind hnext
  have hunit : (e >>= fun _ => Pure.pure ()) = e := by
    funext w
    cases hw : e w with
    | error err => exact (congrArg (· >>= _) hw).trans rfl
    | ok p => exact (congrArg (· >>= _) hw).trans rfl
  rwa [hunit] at h

theorem weaken {m' : Nat} (h : Coded m e d v) (hm : m ∣ m') : Coded m' e d v := by
  intro w w' hrun
  obtain ⟨bytes, hw, hbytes⟩ := h w w' hrun
  exact ⟨bytes, hw, fun pre hpre => hbytes pre (hpre.of_dvd hm)⟩

theorem emit {read : Reader → Option (α × Reader)} {bytes : List UInt8}
    (h : Fetches read bytes v) (err : ε) (m : Nat) :
    Coded m (Encoder.emit bytes) (Decoder.ofOption err read) v := by
  intro w w' hrun
  cases hrun
  exact ⟨bytes, rfl, fun pre _ => ⟨rfl, Reads.ofOption h err pre⟩⟩

theorem align {a : Nat} (ha : 0 < a) (ham : a ∣ m) (err : ε) :
    Coded m (Encoder.align a) (Decoder.ofOption err (Reader.skipPad a)) () := by
  intro w w' hrun
  cases hrun
  refine ⟨_, rfl, fun pre hpre => ?_⟩
  have hgap := alignUp_sub_congr ha ham hpre
  have hle := le_alignUp ha pre.length
  constructor
  · rw [Writes, Encoder.align, hgap]
  · intro post
    have hend : (pre ++ List.replicate (alignUp w.length a - w.length) (0 : UInt8)).length
        = alignUp pre.length a := by
      rw [List.length_append, List.length_replicate, ← hgap]
      omega
    rw [Decoder.ofOption, Reader.skipPad, if_pos]
    · rw [hend]
    · rw [List.length_append, hend]
      exact Nat.le_add_right _ _

/-- A refusal of the encoder leaves nothing to read back. -/
theorem given {x : Except ε β} {k : β → Encoder ε Unit} (h : ∀ b, x = .ok b → Coded m (k b) d v) :
    Coded m (Encoder.given x >>= k) d v := by
  intro w w' hrun
  obtain ⟨b, w₁, hx, hk⟩ := stateT_bind_ok.mp hrun
  obtain ⟨hb, rfl⟩ := Encoder.given_ok.mp hx
  obtain ⟨bytes, hw, hbytes⟩ := h b hb _ w' hk
  refine ⟨bytes, hw, fun pre hpre => ⟨?_, (hbytes pre hpre).2⟩⟩
  exact stateT_bind_ok.mpr ⟨b, pre, Encoder.given_ok.mpr ⟨hb, rfl⟩, (hbytes pre hpre).1⟩

/-- What `e` writes into a buffer of its own reads back wherever it is copied. -/
theorem alone {bytes : List UInt8} (h : Coded 1 e d v) (hrun : e.alone = .ok bytes) :
    Coded m (Encoder.emit bytes) d v := by
  obtain ⟨own, hown, hall⟩ := h [] bytes (Encoder.alone_ok.mp hrun)
  obtain rfl : bytes = own := hown
  intro w w' hw
  cases hw
  exact ⟨bytes, rfl, fun pre _ => ⟨rfl, (hall pre Nat.modEq_one).2⟩⟩

theorem alone_run {bytes : List UInt8} (h : Coded m e d v) (hrun : e.alone = .ok bytes) :
    d.run bytes = .ok v := by
  obtain ⟨own, hown, hall⟩ := h [] bytes (Encoder.alone_ok.mp hrun)
  obtain rfl : bytes = own := hown
  exact (hall [] rfl).2.run

theorem each {e : α → Encoder ε Unit} {xs : List α} (h : ∀ x ∈ xs, Coded m (e x) d x) :
    Coded m (Encoder.each e xs) (d.times xs.length) xs := by
  induction xs with
  | nil => exact pure m []
  | cons x xs ih =>
      apply bind (h x (by simp))
      exact (ih fun y hy => h y (by simp [hy])).map rfl

end Coded

/-! ### Slots

A decoder may look for one value of fixed width among the bytes of a longer encoding. -/

/-- `d` answers `v` on `bytes` after `pre`, wherever it stops. -/
def Finds (d : Decoder ε α) (pre bytes : List UInt8) (v : α) : Prop :=
  ∀ post : List UInt8, ∃ r, d ⟨pre ++ bytes ++ post, pre.length⟩ = .ok (v, r)

theorem Finds.bind {d : Decoder ε α} {f : α → Decoder ε β} {pre bytes rest : List UInt8} {v : α}
    {b : β} (hd : Reads d pre bytes v) (hf : Finds (f v) (pre ++ bytes) rest b) :
    Finds (d >>= f) pre (bytes ++ rest) b := by
  intro post
  obtain ⟨r, hr⟩ := hf post
  refine ⟨r, stateT_bind_ok.mpr
    ⟨v, ⟨pre ++ bytes ++ rest ++ post, (pre ++ bytes).length⟩, ?_, ?_⟩⟩
  · have h := hd (rest ++ post)
    simpa only [List.append_assoc] using h
  · simpa only [List.append_assoc] using hr

theorem Finds.extend {d : Decoder ε α} {pre bytes : List UInt8} {v : α} (h : Finds d pre bytes v)
    (rest : List UInt8) : Finds d pre (bytes ++ rest) v := by
  intro post
  have hrest := h (rest ++ post)
  simpa only [List.append_assoc] using hrest

theorem Finds.run {d : Decoder ε α} {bytes : List UInt8} {v : α} (h : Finds d [] bytes v) :
    d.run bytes = .ok v := by
  obtain ⟨r, hr⟩ := h []
  rw [List.nil_append, List.append_nil] at hr
  show (d ⟨bytes, ([] : List UInt8).length⟩).map (·.1) = .ok v
  rw [hr]
  rfl

/-- `e` writes its argument, `n` bytes long, somewhere among bytes that do not depend on it, and
`d` answers `answer` of the place. -/
def Slotted (m n : Nat) (e : List UInt8 → Encoder ε Unit) (d : Decoder ε α) (answer : Nat → α) :
    Prop :=
  ∀ w w' old, old.length = n → e old w = .ok ((), w') →
    ∃ front back, w' = w ++ (front ++ old ++ back) ∧
      ∀ pre : List UInt8, pre.length ≡ w.length [MOD m] → ∀ value : List UInt8, value.length = n →
        Writes (e value) pre (front ++ value ++ back) ∧
        Finds d pre (front ++ value ++ back) (answer (pre.length + front.length))

namespace Slotted

variable {m n : Nat} {e : List UInt8 → Encoder ε Unit} {e' : Encoder ε Unit} {d : Decoder ε α}
  {v : α} {answer : Nat → β}

theorem congr {d : Decoder ε β} (e₁ : List UInt8 → Encoder ε Unit) {e₂ : List UInt8 → Encoder ε Unit}
    (h : Slotted m n e₁ d answer) (he : ∀ value, value.length = n → e₂ value = e₁ value) :
    Slotted m n e₂ d answer := by
  intro w w' old hold hrun
  rw [he old hold] at hrun
  obtain ⟨front, back, hw, hall⟩ := h w w' old hold hrun
  refine ⟨front, back, hw, fun pre hpre value hvalue => ?_⟩
  rw [he value hvalue]
  exact hall pre hpre value hvalue

theorem weaken {d : Decoder ε β} {m' : Nat} (h : Slotted m n e d answer) (hm : m ∣ m') :
    Slotted m' n e d answer := by
  intro w w' old hold hrun
  obtain ⟨front, back, hw, hall⟩ := h w w' old hold hrun
  exact ⟨front, back, hw, fun pre hpre => hall pre (hpre.of_dvd hm)⟩

/-- A search that ends before any slot. -/
theorem none_here {d' : Decoder ε β} {b : β} (h : Coded m e' d v)
    (hd' : ∀ pre bytes : List UInt8, Reads d pre bytes v → Finds d' pre bytes b) :
    Slotted m 0 (fun _ => e') d' fun _ => b := by
  intro w w' old hold hrun
  obtain ⟨bytes, hw, hbytes⟩ := h w w' hrun
  obtain rfl : old = [] := List.eq_nil_of_length_eq_zero hold
  refine ⟨bytes, [], by simpa using hw, fun pre hpre value hvalue => ?_⟩
  obtain rfl : value = [] := List.eq_nil_of_length_eq_zero hvalue
  simp only [List.append_nil]
  exact ⟨(hbytes pre hpre).1, hd' pre bytes (hbytes pre hpre).2⟩

theorem here {d : Decoder ε β} (front back : List UInt8)
    (h : ∀ pre value : List UInt8, value.length = n →
      Finds d pre (front ++ value ++ back) (answer (pre.length + front.length))) :
    Slotted m n (fun value => Encoder.emit (front ++ value ++ back)) d answer := by
  intro w w' old hold hrun
  cases hrun
  exact ⟨front, back, rfl, fun pre _ value hvalue => ⟨rfl, h pre value hvalue⟩⟩

theorem alone {d₁ : Decoder ε α} {d : Decoder ε β} {place : Nat → α}
    {k : List UInt8 → Encoder ε Unit} (he : Slotted 1 n e d₁ place)
    (hk : ∀ front back : List UInt8,
      (∀ pre value : List UInt8, value.length = n →
        Finds d₁ pre (front ++ value ++ back) (place (pre.length + front.length))) →
      Slotted m n (fun value => k (front ++ value ++ back)) d answer) :
    Slotted m n (fun value => Encoder.given (e value).alone >>= k) d answer := by
  intro w w' old hold hrun
  obtain ⟨sw, w₁, hsw, hrest⟩ := stateT_bind_ok.mp hrun
  obtain ⟨hown, rfl⟩ := Encoder.given_ok.mp hsw
  obtain ⟨front, back, hp, hall⟩ := he [] sw old hold (Encoder.alone_ok.mp hown)
  obtain rfl : sw = front ++ old ++ back := hp
  have hslot := hk front back fun pre value hvalue => (hall pre Nat.modEq_one value hvalue).2
  obtain ⟨front', back', hw, hall'⟩ := hslot _ w' old hold hrest
  refine ⟨front', back', hw, fun pre hpre value hvalue => ?_⟩
  obtain ⟨hwrites, hfinds⟩ := hall' pre hpre value hvalue
  have halone := Encoder.alone_ok.mpr (hall [] Nat.modEq_one value hvalue).1
  exact ⟨stateT_bind_ok.mpr ⟨_, pre, Encoder.given_ok.mpr ⟨halone, rfl⟩, hwrites⟩, hfinds⟩

theorem after {f : α → Decoder ε β} (hd : Coded m e' d v) (hf : Slotted m n e (f v) answer) :
    Slotted m n (fun x => e' >>= fun _ => e x) (d >>= f) answer := by
  intro w w' old hold hrun
  obtain ⟨⟨⟩, w₁, he', he⟩ := stateT_bind_ok.mp hrun
  obtain ⟨bytes, rfl, hbytes⟩ := hd w w₁ he'
  obtain ⟨front, back, rfl, hall⟩ := hf _ w' old hold he
  refine ⟨bytes ++ front, back, by simp only [List.append_assoc], fun pre hpre value hvalue => ?_⟩
  obtain ⟨hwrites, hreads⟩ := hbytes pre hpre
  have hnext : (pre ++ bytes).length ≡ (w ++ bytes).length [MOD m] := by
    rw [List.length_append, List.length_append]
    exact hpre.add_right _
  obtain ⟨hwrites', hfinds⟩ := hall (pre ++ bytes) hnext value hvalue
  have hplace : (pre ++ bytes).length + front.length = pre.length + (bytes ++ front).length := by
    simp only [List.length_append]
    omega
  have hsplit : bytes ++ front ++ value ++ back = bytes ++ (front ++ value ++ back) := by
    simp only [List.append_assoc]
  rw [hsplit, ← hplace]
  exact ⟨hwrites.bind hwrites', hfinds.bind hreads⟩

theorem before {d : Decoder ε β} {d' : Decoder ε α} (h : Slotted m n e d answer)
    (hd : Coded m e' d' v) : Slotted m n (fun x => e x >>= fun _ => e') d answer := by
  intro w w' old hold hrun
  obtain ⟨⟨⟩, w₁, he, he'⟩ := stateT_bind_ok.mp hrun
  obtain ⟨front, back, rfl, hall⟩ := h w w₁ old hold he
  obtain ⟨rest, rfl, hrest⟩ := hd _ w' he'
  refine ⟨front, back ++ rest, by simp only [List.append_assoc], fun pre hpre value hvalue => ?_⟩
  obtain ⟨hwrites, hfinds⟩ := hall pre hpre value hvalue
  have hnext : (pre ++ (front ++ value ++ back)).length
      ≡ (w ++ (front ++ old ++ back)).length [MOD m] := by
    simp only [List.length_append, hold, hvalue]
    exact hpre.add_right _
  have hsplit : front ++ value ++ (back ++ rest) = front ++ value ++ back ++ rest := by
    simp only [List.append_assoc]
  rw [hsplit]
  exact ⟨hwrites.bind (hrest _ hnext).1, hfinds.extend rest⟩

theorem given {d : Decoder ε β} {x : Except ε α} {k : α → List UInt8 → Encoder ε Unit}
    (h : ∀ a, x = .ok a → Slotted m n (k a) d answer) :
    Slotted m n (fun bs => Encoder.given x >>= fun a => k a bs) d answer := by
  intro w w' old hold hrun
  obtain ⟨a, w₁, hx, hk⟩ := stateT_bind_ok.mp hrun
  obtain ⟨ha, rfl⟩ := Encoder.given_ok.mp hx
  obtain ⟨front, back, hw, hall⟩ := h a ha _ w' old hold hk
  refine ⟨front, back, hw, fun pre hpre value hvalue => ?_⟩
  obtain ⟨hwrites, hfinds⟩ := hall pre hpre value hvalue
  exact ⟨stateT_bind_ok.mpr ⟨a, pre, Encoder.given_ok.mpr ⟨ha, rfl⟩, hwrites⟩, hfinds⟩

end Slotted

end BStackRaii
