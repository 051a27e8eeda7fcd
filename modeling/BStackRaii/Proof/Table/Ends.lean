import BStackRaii.Model.TableCalls
/-!
# Code that ends

`EndsAt` follows the code: a sequence ends if its first half does, and its second half from where that left off. The
calls of a table that have no bound but one of their own end on any bytes.
-/

namespace BStackRaii

/-! ### The rules -/

section Rules

variable {σ ρ α β : Type} {c : Prog IoError σ α} {f : α → Prog IoError σ β} {s : σ}

theorem endsAt_pure (x : α) (s : σ) : EndsAt (pure x : Prog IoError σ α) s := by
  intro e he
  cases he

theorem Ends.pure (x : α) : Ends (pure x : Prog IoError σ α) := endsAt_pure x

theorem endsAt_lift_iff {out : Except IoError α} : EndsAt (Prog.lift out : Prog IoError σ α) s ↔
    ∀ e, out = .error e → ¬ Wedged e := by
  cases out with
  | ok x =>
      constructor
      · intro _ e he
        cases he
      · intro _
        exact endsAt_pure x s
  | error e => exact Iff.rfl

theorem endsAt_fail_iff {e : IoError} : EndsAt (Prog.fail e : Prog IoError σ α) s ↔ ¬ Wedged e :=
  ⟨fun h => h e rfl, fun h e' he => by cases he; exact h⟩

theorem Ends.lift {out : Except IoError α} (h : ∀ e, out = .error e → ¬ Wedged e) :
    Ends (Prog.lift out : Prog IoError σ α) := fun _ => endsAt_lift_iff.mpr h

theorem Ends.lift_ok {out : Except IoError α} {x : α} (h : out = .ok x) :
    Ends (Prog.lift out : Prog IoError σ α) := by
  rw [h]
  exact Ends.pure x

theorem Ends.fail {e : IoError} (h : ¬ Wedged e) : Ends (Prog.fail e : Prog IoError σ α) :=
  fun _ => endsAt_fail_iff.mpr h

theorem endsAt_bind_iff : EndsAt (c >>= f) s ↔
    EndsAt c s ∧ ∀ x, (c s).out = .ok x → EndsAt (f x) (c s).final := by
  cases hc : c s with
  | mk out t cs =>
    cases out with
    | ok x =>
        rw [EndsAt, Prog.bind_of_ok hc, EndsAt, hc]
        simp only [Run.after]
        constructor
        · intro h
          constructor
          · intro e he
            cases he
          · intro y hy
            cases hy
            exact h
        · exact fun h => h.2 x rfl
    | error e =>
        rw [EndsAt, Prog.bind_of_error hc, EndsAt, hc]
        constructor
        · intro h
          constructor
          · intro e' he
            cases he
            exact h e rfl
          · intro y hy
            cases hy
        · intro h e' he
          cases he
          exact h.1 e rfl

theorem EndsAt.bind (hc : EndsAt c s) (hf : ∀ x, (c s).out = .ok x → EndsAt (f x) (c s).final) :
    EndsAt (c >>= f) s := endsAt_bind_iff.mpr ⟨hc, hf⟩

theorem Ends.bind (hc : Ends c) (hf : ∀ x, Ends (f x)) : Ends (c >>= f) :=
  fun s => (hc s).bind fun x _ => hf x _

theorem Ends.ite {p : Prop} [Decidable p] {c c' : Prog IoError σ α} (h : p → Ends c) (h' : ¬ p → Ends c') :
    Ends (if p then c else c') := by
  by_cases hp : p
  · rw [if_pos hp]
    exact h hp
  · rw [if_neg hp]
    exact h' hp

theorem Ends.attempt (c : Prog IoError σ α) : Ends (Prog.attempt c) := by
  intro s e he
  cases he

theorem Ends.onSnd (h : Ends c) : Ends (Prog.onSnd c : Prog IoError (ρ × σ) α) := fun s => h s.2

theorem Ends.onFst (g : ρ → ρ) : Ends (Prog.onFst g : Prog IoError (ρ × σ) Unit) := by
  intro s e he
  cases he

end Rules

/-! ### The primitive steps -/

section Steps

variable {α β : Type}

theorem ends_getInto (k off n : Nat) : Ends (getInto k off n) := by
  intro w e he
  simp only [getInto, Prog.volatile_apply] at he
  split at he
  · cases he
    decide
  split at he
  · cases he
  · cases he
    decide

theorem ends_readU64 (k off : Nat) : Ends (readU64 k off) := (ends_getInto k off 8).bind fun _ => .pure _

theorem ends_readFields (k off n : Nat) : Ends (readFields k off n) := (ends_getInto k off _).bind fun _ => .pure _

theorem ends_stackLen (k : Nat) : Ends (stackLen k) := by
  intro w e he
  simp only [stackLen, Prog.volatile_apply] at he
  split at he
  · cases he
    decide
  · cases he

theorem ends_alloc (a : Allocator) (size : Nat) : Ends (alloc a size) := by
  intro w e he
  simp only [alloc, Prog.durable_apply] at he
  split at he
  · cases he
    decide
  split at he
  · cases he
    decide
  split at he
  · cases he
  · cases he
    decide

theorem ends_inplaceGen (k : Nat) (g : Gen (Batch × α)) : Ends (inplaceGen k g) := by
  intro w e he
  simp only [inplaceGen, Prog.durable_apply] at he
  split at he
  · cases he
  split at he
  · cases he
    decide
  split at he
  · cases he
  · cases he
    decide

theorem endsAt_inplaceGen_iff {k : Nat} {g : Gen (Batch × α)} {f : Except IoError α → Io β}
    (hok : ∀ x, Ends (f (.ok x)))
    (herror : ∀ e w, EndsAt (f (.error e)) w ↔ ¬ Wedged e) (w : World) :
    EndsAt (inplaceGen k g >>= f) w ↔ ∀ e, (g.reads k w).1 = .error e → ¬ Wedged e := by
  rw [endsAt_bind_iff]
  simp only [ends_inplaceGen k g w, true_and]
  rcases hg : g.reads k w with ⟨e | ⟨ws, x⟩, w'⟩
  · have hrun : (inplaceGen k g w).out = .ok (.error e) := by simp only [inplaceGen, Prog.durable_apply, hg]
    simp [hrun, herror]
  · simp only [reduceCtorEq, false_implies, implies_true, iff_true]
    intro r hr
    simp only [inplaceGen, Prog.durable_apply, hg] at hr
    split at hr
    · cases hr
    split at hr
    · cases hr
      exact hok x _
    · cases hr

end Steps

/-! ### Checked arithmetic -/

theorem plus_ok {x y : Nat} (h : x + y < 2 ^ 64) : plus x y = .ok (x + y) := if_pos h

theorem minus_ok {x y : Nat} (h : y ≤ x) : minus x y = .ok (x - y) := if_pos h

theorem times_ok {x y : Nat} (h : x * y < 2 ^ 64) : times x y = .ok (x * y) := if_pos h

theorem slice_ok {buf : List UInt8} {lo hi : Nat} (hlo : lo ≤ hi) (hhi : hi ≤ buf.length) :
    slice buf lo hi = .ok ((buf.drop lo).take (hi - lo)) := if_pos ⟨hlo, hhi⟩

theorem wordAt_ok {buf : List UInt8} {lo : Nat} (hlo : lo + 8 < 2 ^ 64) (hbuf : lo + 8 ≤ buf.length) :
    wordAt buf lo = .ok (getU64 buf lo) := by
  rw [wordAt, plus_ok hlo]
  show (slice buf lo (lo + 8) >>= fun bytes => pure (leNat bytes)) = _
  rw [slice_ok (by omega) hbuf, Nat.add_sub_cancel_left]
  rfl

theorem splice_ok {buf bytes : List UInt8} {lo : Nat} (h : lo + bytes.length ≤ buf.length) :
    splice buf lo bytes = .ok (buf.take lo ++ bytes ++ buf.drop (lo + bytes.length)) := if_pos h

theorem checkedOffMul_calm {base index stride : Nat} {e : IoError} (h : checkedOffMul base index stride = .error e) :
    ¬ Wedged e := by
  rw [checkedOffMul] at h
  split at h
  · cases h
  · cases h
    decide

theorem checkedMul_calm {x y : Nat} {e : IoError} (h : BucketTable.checkedMul x y = .error e) : ¬ Wedged e := by
  rw [BucketTable.checkedMul] at h
  split at h
  · cases h
  · cases h
    decide

theorem getInto_length {k off n : Nat} {w : World} {buf : List UInt8} (h : (getInto k off n w).out = .ok buf) :
    buf.length = n := by
  simp only [getInto, Prog.volatile_apply] at h
  split at h
  · cases h
  split at h
  · cases h
    exact Mem.length_read ..
  · cases h

theorem getU64_lt (buf : List UInt8) (off : Nat) : getU64 buf off < 2 ^ 64 := by
  have hlt := leNat_lt ((buf.drop off).take 8)
  have hlen : ((buf.drop off).take 8).length ≤ 8 := List.length_take_le 8 _
  have hpow : (256 : Nat) ^ ((buf.drop off).take 8).length ≤ 256 ^ 8 := Nat.pow_le_pow_right (by decide) hlen
  rw [getU64]
  omega

theorem readFields_lt {k off n : Nat} {w : World} {fields : List Nat} (h : (readFields k off n w).out = .ok fields)
    (i : Nat) : fields.getD i 0 < 2 ^ 64 := by
  obtain ⟨buf, -, hbuf, -⟩ := Prog.bind_ok_inv h
  cases hbuf
  rw [List.getD_eq_getElem?_getD, List.getElem?_map]
  cases (List.range n)[i]? with
  | none => exact Nat.two_pow_pos 64
  | some j => exact getU64_lt _ _

/-! ### Calls with a bound of their own -/

namespace BucketTable

namespace Checked

/-- A bucket has a state, a key and what `taken` yields. -/
structure Shape (stride ksz : Nat) (taken : Taken) : Prop where
  fits : 8 + ksz ≤ stride
  small : stride < 2 ^ 63
  taken : ∀ buf, buf.length = stride → taken buf = .ok (buf.drop (8 + ksz))

variable {a : Allocator} {handle stride ksz : Nat} {keyBytes : List UInt8} {taken : Taken}

theorem Shape.state (h : Shape stride ksz taken) {buf : List UInt8} (hbuf : buf.length = stride) :
    wordAt buf 0 = .ok (getU64 buf 0) := by
  have hfits := h.fits
  exact wordAt_ok (by decide) (by omega)

theorem Shape.key (h : Shape stride ksz taken) {buf : List UInt8} (hbuf : buf.length = stride) :
    slice buf 8 (8 + ksz) = .ok ((buf.drop 8).take ksz) := by
  have hfits := h.fits
  rw [slice_ok (by omega) (by omega), Nat.add_sub_cancel_left]

theorem Shape.kend (h : Shape stride ksz taken) : plus 8 ksz = .ok (8 + ksz) := by
  have hfits := h.fits
  have hsmall := h.small
  exact plus_ok (by omega)

theorem Shape.matches (h : Shape stride ksz taken) {buf : List UInt8} (hbuf : buf.length = stride) :
    matchesKey ksz keyBytes buf (getU64 buf 0) = .ok (decide (BucketTable.matchesKey ksz keyBytes buf)) := by
  rw [matchesKey]
  by_cases hstate : getU64 buf 0 = OCCUPIED
  · rw [if_pos hstate, h.kend]
    show (slice buf 8 (8 + ksz) >>= fun kb => pure (decide (kb = keyBytes))) = _
    rw [h.key hbuf]
    simp only [BucketTable.matchesKey, hstate, true_and]
    rfl
  · rw [if_neg hstate]
    simp [BucketTable.matchesKey, hstate]

theorem ends_lookupFrom (h : Shape stride ksz taken) {table mask : Nat} (hmask : mask + 1 < 2 ^ 64)
    (left : Nat) {idx : Nat}
    (hidx : idx ≤ mask) : Ends (lookupFrom a stride ksz table mask keyBytes taken left idx) := by
  induction left generalizing idx with
  | zero => exact .pure none
  | succ left ih =>
      rw [lookupFrom]
      refine (Ends.lift fun e he => checkedOffMul_calm he).bind fun bucket => ?_
      refine fun w => (ends_getInto _ _ _ w).bind fun buf hread => ?_
      have hbuf := getInto_length hread
      rw [h.state hbuf, Prog.lift_ok, pure_bind]
      refine Ends.ite (fun _ => .pure none) (fun _ => ?_) _
      rw [h.matches hbuf, Prog.lift_ok, pure_bind]
      refine Ends.ite (fun _ => ?_) fun _ => ?_
      · exact (Ends.lift_ok (h.taken buf hbuf)).bind fun _ => .pure _
      · rw [plus_ok (by omega), Prog.lift_ok, pure_bind]
        exact ih Nat.and_le_right

theorem ends_lookup (h : Shape stride ksz taken) : Ends (lookup a handle stride ksz keyBytes taken) := by
  intro w
  refine (ends_readFields _ _ _ w).bind fun fields hread => ?_
  have hcap := readFields_lt hread 1
  refine Ends.ite (fun _ => .pure none) (fun hne => ?_) _
  rw [minus_ok (by omega), Prog.lift_ok, pure_bind]
  exact ends_lookupFrom h (by omega) _ Nat.and_le_right

/-! ### Iterations -/

section Iterate

variable {β : Type} {item : Item β} {msg : String} {it : Iter}

def Itemed (stride : Nat) (item : Item β) : Prop := ∀ buf, buf.length = stride → ∃ x, item buf = .ok x

theorem ends_scan (hstride : 8 ≤ stride) (hitem : Itemed stride item) (left : Nat) {idx : Nat}
    (hleft : idx + left < 2 ^ 64) : Ends (scan a stride item it left idx) := by
  induction left generalizing idx with
  | zero => exact .pure _
  | succ left ih =>
      rw [scan, plus_ok (by omega), Prog.lift_ok, pure_bind]
      refine (Ends.lift fun e he => checkedOffMul_calm he).bind fun bucket => ?_
      refine fun w => (ends_getInto _ _ _ w).bind fun buf hread => ?_
      have hbuf := getInto_length hread
      rw [wordAt_ok (by decide) (by omega), Prog.lift_ok, pure_bind]
      refine Ends.ite (fun _ => ?_) (fun _ => ih (by omega)) _
      obtain ⟨x, hx⟩ := hitem buf hbuf
      exact (Ends.lift_ok hx).bind fun _ => .pure _

/-- A scan that finds a bucket comes to one behind it. -/
theorem scan_idx {left idx : Nat} {w : World} {x : β} {it' : Iter}
    (h : (scan a stride item it left idx w).out = .ok (some x, it')) :
    idx < it'.idx ∧ it'.idx ≤ idx + left ∧ it'.cap = it.cap := by
  induction left generalizing idx w with
  | zero => cases h
  | succ left ih =>
      rw [scan] at h
      obtain ⟨next, hnext, h, -⟩ := Prog.bind_ok_inv h
      obtain ⟨bucket, -, h, -⟩ := Prog.bind_ok_inv h
      obtain ⟨buf, -, h, -⟩ := Prog.bind_ok_inv h
      obtain ⟨state, -, h, -⟩ := Prog.bind_ok_inv h
      have hidx : next = idx + 1 := by
        rw [plus] at hnext
        split at hnext
        · cases hnext
          rfl
        · cases hnext
      split at h
      · obtain ⟨y, -, h, -⟩ := Prog.bind_ok_inv h
        cases h
        exact ⟨by show idx < next; omega, by show next ≤ _; omega, rfl⟩
      · obtain ⟨h1, h2, h3⟩ := ih h
        exact ⟨by omega, by omega, h3⟩

theorem ends_next (hstride : 8 ≤ stride) (hitem : Itemed stride item) (hcap : it.cap < 2 ^ 64) :
    Ends (next a stride msg item it) := by
  rw [next]
  refine Ends.ite (fun hlt => ?_) fun _ => .pure _
  refine (ends_readFields _ _ _).bind fun fields => ?_
  refine Ends.ite (fun _ => ends_scan hstride hitem _ (by omega)) fun _ => .fail ?_
  intro hwedged
  rcases hwedged with h | h
  · cases h
  · cases h

theorem ends_drain (hstride : 8 ≤ stride) (hitem : Itemed stride item) {calls : Nat} {it : Iter}
    (hcap : it.cap < 2 ^ 64)
    (hcalls : it.cap < it.idx + calls) (hidx : it.idx ≤ it.cap) : Ends (drain a stride msg item calls it) := by
  induction calls generalizing it with
  | zero => omega
  | succ calls ih =>
      rw [drain]
      refine fun w => (ends_next hstride hitem hcap w).bind fun r hr => ?_
      obtain ⟨x, it'⟩ := r
      cases x with
      | none => exact endsAt_pure _ _
      | some x =>
          have hstep : it.idx < it'.idx ∧ it'.idx ≤ it.cap ∧ it'.cap = it.cap := by
            rw [next] at hr
            split at hr
            · obtain ⟨fields, -, hr, -⟩ := Prog.bind_ok_inv hr
              split at hr
              · obtain ⟨h1, h2, h3⟩ := scan_idx hr
                exact ⟨h1, by omega, h3⟩
              · cases hr
            · cases hr
          exact ((ih (by omega) (by omega) (by omega)).bind fun _ => .pure _) _

/-- An iteration ends on any bytes. -/
theorem ends_iterate (hstride : 8 ≤ stride) (hitem : Itemed stride item) :
    Ends (iterate a handle stride msg item) := by
  intro w
  refine EndsAt.bind ((ends_readFields _ _ _).bind (fun _ => .pure _) w) fun it hit => ?_
  obtain ⟨fields, hread, hit, -⟩ := Prog.bind_ok_inv hit
  have hcap := readFields_lt hread 1
  cases hit
  exact ends_drain hstride hitem hcap (by simp) (Nat.zero_le _) _

end Iterate

end Checked

end BucketTable

end BStackRaii
