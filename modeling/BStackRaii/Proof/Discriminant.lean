import BStackRaii.Model.Discriminant
/-!
# Discriminants of a generated enum: the match and the interpreter

The values are pairwise distinct and fit the type that is chosen. So a stored word has the bits of at most one of
them, and the interpreter's comparison of the low bytes finds the variant that the generated match finds.
-/

namespace BStackRaii

/-! ### Values -/

section Values

variable {variants : List EnumVariant} {values : List Int} {ty : DiscTy}

/-- The loop adds a new value for each variant. -/
theorem discValues_spec : ∀ {variants : List EnumVariant} {next : Int} {out values : List Int},
    discValues next out variants = .ok values → out.Nodup →
      values.Nodup ∧ values.length = out.length + variants.length
  | [], _, _, _, h, hout => by
      obtain rfl : _ = _ := Except.ok.inj h
      exact ⟨hout, rfl⟩
  | v :: variants, next, out, values, h, hout => by
      rw [discValues] at h
      cases hd : discValue next v with
      | error e => simp [hd, bind, Except.bind] at h
      | ok d =>
          rw [hd] at h
          change (if d ∈ out then _ else _) = _ at h
          split_ifs at h with hmem hmax
          have hout' : (out ++ [d]).Nodup := by
            refine List.nodup_append.2 ⟨hout, by simp, fun a ha b hb hab => hmem ?_⟩
            rwa [← List.mem_singleton.1 hb, ← hab]
          obtain ⟨hnodup, hlen⟩ := discValues_spec h hout'
          refine ⟨hnodup, ?_⟩
          simp only [hlen, List.length_append, List.length_cons, List.length_nil]
          omega

theorem min_le {v : Int} (h : v ∈ values) : values.min?.getD 0 ≤ v := by
  cases hmin : values.min? with
  | none => simp [List.min?_eq_none_iff.1 hmin] at h
  | some m => exact (List.min?_eq_some_iff.1 hmin).2 v h

theorem le_max {v : Int} (h : v ∈ values) : v ≤ values.max?.getD 0 := by
  cases hmax : values.max? with
  | none => simp [List.max?_eq_none_iff.1 hmax] at h
  | some m => exact (List.max?_eq_some_iff.1 hmax).2 v h

theorem bounds_of_forall {lo hi : Int} (hlo : lo ≤ 0) (hhi : 0 ≤ hi) (h : ∀ v ∈ values, lo ≤ v ∧ v ≤ hi) :
    lo ≤ values.min?.getD 0 ∧ values.max?.getD 0 ≤ hi := by
  constructor
  · cases hmin : values.min? with
    | none => exact hlo
    | some m => exact (h m (List.min?_eq_some_iff.1 hmin).1).1
  · cases hmax : values.max? with
    | none => exact hhi
    | some m => exact (h m (List.max?_eq_some_iff.1 hmax).1).2

/-- The inferred type holds what fits into 64 bits. -/
theorem inBounds_inferDiscTy {min max v : Int} (hmin : min ≤ v) (hmax : v ≤ max)
    (hfit : inBounds .i64 min ∧ inBounds .i64 max ∨ 0 ≤ min ∧ inBounds .u64 max) :
    inBounds (inferDiscTy min max) v := by
  unfold inferDiscTy
  by_cases hneg : min < 0
  · have hhi : max ≤ 2 ^ 63 - 1 := by
      rcases hfit with ⟨-, -, h⟩ | ⟨h, -⟩
      · exact h
      · omega
    have hlo : -2 ^ 63 ≤ min := by
      rcases hfit with ⟨⟨h, -⟩, -⟩ | ⟨h, -⟩
      · exact h
      · omega
    simp only [hneg, if_true, List.find?_cons, intBounds, ge_iff_le]
    split <;> (try split) <;> (try split) <;> (try split) <;> simp_all [inBounds, intBounds] <;> omega
  · have hhi : max ≤ 2 ^ 64 - 1 := by
      rcases hfit with ⟨-, -, h⟩ | ⟨-, -, h⟩
      · exact h.trans (by decide)
      · exact h
    simp only [hneg, if_false, List.find?_cons, intBounds, ge_iff_le]
    split <;> (try split) <;> (try split) <;> (try split) <;> simp_all [inBounds, intBounds] <;> omega

end Values

/-! ### Bits -/

section Bits

/-- The interpreter sees the low bytes of a value. -/
theorem masked (v : Int) (ty : DiscTy) :
    (Int64.ofInt v).toUInt64.toNat &&& discMask ty.width = (v % 2 ^ (8 * ty.width)).toNat := by
  have hbits : (Int64.ofInt v).toUInt64.toNat = (v % 2 ^ 64).toNat := by
    change (Int64.ofInt v).toBitVec.toNat = _
    rw [Int64.toBitVec_ofInt, BitVec.toNat_ofInt]
    rfl
  have hmask : discMask ty.width = 2 ^ (8 * ty.width) - 1 := by cases ty <;> rfl
  rw [hbits, hmask, Nat.and_two_pow_sub_one_eq_mod]
  cases ty <;> simp only [DiscTy.width] <;> omega

/-- A word of the width reads as a value in bounds exactly if it has that value's bits. -/
theorem ofBits_eq_iff {ty : DiscTy} {v : Int} {raw : Nat} (hv : inBounds ty v) (hraw : raw < 2 ^ (8 * ty.width)) :
    ty.ofBits raw = v ↔ (v % 2 ^ (8 * ty.width)).toNat = raw := by
  obtain ⟨hlo, hhi⟩ := hv
  cases ty <;> simp only [intBounds, DiscTy.width] at hlo hhi hraw ⊢ <;>
    simp only [DiscTy.ofBits, DiscTy.signed, DiscTy.width, true_and, false_and, if_false, Bool.false_eq_true] <;>
    (try split_ifs) <;> omega

end Bits

/-! ### Selection -/

/-- A search among pairs goes by the place that the search among their second halves finds. -/
theorem find?_zipWith {α β γ : Type} {f : α → β → γ} {p : β → Bool} {q : γ → Bool} : ∀ {xs : List α} {ys : List β},
    xs.length = ys.length → (∀ x, ∀ y ∈ ys, q (f x y) = p y) →
      (List.zipWith f xs ys).find? q = (ys.findIdx? p).bind fun i => (List.zipWith f xs ys)[i]?
  | [], [], _, _ => rfl
  | x :: xs, y :: ys, hlen, h => by
      have hlen' : xs.length = ys.length := by simpa using hlen
      have ih := find?_zipWith (f := f) (p := p) (q := q) hlen' fun x' y' hy' => h x' y' (List.mem_cons_of_mem y hy')
      rw [List.zipWith_cons_cons, List.find?_cons, List.findIdx?_cons, h x y List.mem_cons_self]
      cases p y with
      | true => rfl
      | false =>
          rw [ih]
          cases ys.findIdx? p <;> rfl

section Selection

variable {variants : List EnumVariant} {repr : Option DiscTy} {d : Discriminants} {discOff payloadOff : UInt16}
  {data : List UInt8} {blockOff raw base : Nat}

theorem discriminants_ok (h : discriminants variants repr = .ok d) :
    d.values.Nodup ∧ d.values.length = variants.length ∧ d.pats = d.values.map (fun v => (v, d.ty)) ∧
      discTy repr (d.values.min?.getD 0) (d.values.max?.getD 0) = .ok d.ty := by
  rw [discriminants] at h
  cases hvalues : discValues 0 [] variants with
  | error e => simp [hvalues, bind, Except.bind] at h
  | ok values =>
      cases hty : discTy repr (values.min?.getD 0) (values.max?.getD 0) with
      | error e => simp [hvalues, hty, bind, Except.bind] at h
      | ok ty =>
          have hd : (⟨ty, values.map fun v => (v, ty), values⟩ : Discriminants) = d := by
            simpa [hvalues, hty, bind, Except.bind, pure, Except.pure] using h
          obtain ⟨hnodup, hlen⟩ := discValues_spec hvalues List.nodup_nil
          subst hd
          exact ⟨hnodup, by simpa using hlen, rfl, hty⟩

/-- The values fit the type that is chosen. -/
theorem discriminants_inBounds (h : discriminants variants repr = .ok d)
    (hfit : (∀ v ∈ d.values, inBounds .i64 v) ∨ ∀ v ∈ d.values, inBounds .u64 v) :
    ∀ v ∈ d.values, inBounds d.ty v := by
  intro v hv
  obtain ⟨-, -, -, hty⟩ := discriminants_ok h
  cases repr with
  | some r =>
      rw [discTy] at hty
      split_ifs at hty with hout
      obtain rfl := Except.ok.inj hty
      exact ⟨(Int.not_lt.1 fun h => hout (.inl h)).trans (min_le hv),
        (le_max hv).trans (Int.not_lt.1 fun h => hout (.inr h))⟩
  | none =>
      have hinfer : inferDiscTy (d.values.min?.getD 0) (d.values.max?.getD 0) = d.ty := Except.ok.inj hty
      rw [← hinfer]
      refine inBounds_inferDiscTy (min_le hv) (le_max hv) ?_
      rcases hfit with hfit | hfit
      · have hb := bounds_of_forall (by decide) (by decide) hfit
        have hle := (min_le hv).trans (le_max hv)
        exact .inl ⟨⟨hb.1, hle.trans hb.2⟩, hb.1.trans hle, hb.2⟩
      · have hb := bounds_of_forall (by decide) (by decide) hfit
        exact .inr ⟨hb.1, hb.1.trans ((min_le hv).trans (le_max hv)), hb.2⟩

/-- The interpreter's comparison finds the place that the generated match finds. -/
theorem find?_schema (h : discriminants variants repr = .ok d) (hin : ∀ v ∈ d.values, inBounds d.ty v)
    (hraw : raw < 2 ^ (8 * d.ty.width)) :
    (d.schema variants discOff payloadOff).variants.find? (fun v =>
        v.discValue.toUInt64.toNat &&& discMask d.ty.width = raw) =
      (d.select raw).bind fun i => (List.zipWith enumVariant variants d.values)[i]? := by
  obtain ⟨-, hlen, hpats, -⟩ := discriminants_ok h
  have hselect : d.select raw = d.values.findIdx? fun v => d.ty.ofBits raw = v := by
    rw [Discriminants.select, hpats, List.findIdx?_map]
    exact congrArg (d.values.findIdx? ·) (funext fun v => decide_eq_decide.2 eq_comm)
  rw [hselect]
  refine find?_zipWith hlen.symm fun v value hvalue => decide_eq_decide.2 ?_
  change (Int64.ofInt value).toUInt64.toNat &&& discMask d.ty.width = raw ↔ _
  rw [masked, ofBits_eq_iff (hin value hvalue) hraw]

/-- A discriminant that is read has the width of the type. -/
theorem readDisc_lt {off : Nat} {ty : DiscTy} (h : readDisc data off ty.width = .ok raw) :
    raw < 2 ^ (8 * ty.width) := by
  have hwidth : ¬ty.width > 8 := by cases ty <;> decide
  rw [readDisc, if_neg hwidth] at h
  cases hget : stackGet data off ty.width with
  | error e => simp [hget, Except.map] at h
  | ok bytes =>
      have hlen : bytes.length = ty.width := by
        rw [stackGet] at hget
        split_ifs at hget with hle
        obtain rfl := Except.ok.inj hget
        simp only [List.length_take, List.length_drop]
        omega
      obtain rfl : leNat bytes = raw := by simpa [hget, Except.map] using h
      have hlt := leNat_lt bytes
      rwa [hlen, show (256 : Nat) = 2 ^ 8 by rfl, ← Nat.pow_mul] at hlt

/-- The values are distinct and fit the type, and the interpreter resolves a stored word to the variant that the
generated match selects, or to none if the match rejects the word. -/
theorem discriminants_agree (h : discriminants variants repr = .ok d)
    (hfit : (∀ v ∈ d.values, inBounds .i64 v) ∨ ∀ v ∈ d.values, inBounds .u64 v) :
    d.values.Nodup ∧ (∀ v ∈ d.values, inBounds d.ty v) ∧
      ∀ (discOff payloadOff : UInt16) (data : List UInt8) (blockOff off raw base : Nat),
        addOff blockOff discOff.toNat = .ok off → readDisc data off d.ty.width = .ok raw →
        addOff blockOff payloadOff.toNat = .ok base →
          match d.select raw with
          | none => (d.schema variants discOff payloadOff).resolveVariant data blockOff = .error (noVariant raw)
          | some i => ∃ v value, variants[i]? = some v ∧ d.values[i]? = some value ∧
              (d.schema variants discOff payloadOff).resolveVariant data blockOff =
                .ok (enumVariant v value, base) := by
  obtain ⟨hnodup, hlen, hpats, -⟩ := discriminants_ok h
  have hin := discriminants_inBounds h hfit
  refine ⟨hnodup, hin, fun discOff payloadOff data blockOff off raw base hoff hread hbase => ?_⟩
  have hfind : (d.schema variants discOff payloadOff).variants.find? _ = _ := find?_schema h hin (readDisc_lt hread)
  have hwidth : (d.schema variants discOff payloadOff).discWidth.toNat = d.ty.width := by
    change (UInt8.ofNat d.ty.width).toNat = _
    cases d.ty <;> rfl
  have hresolve : (d.schema variants discOff payloadOff).resolveVariant data blockOff =
      ((d.select raw).bind fun i => (List.zipWith enumVariant variants d.values)[i]?).elim (.error (noVariant raw))
        fun variant => .ok (variant, base) := by
    rw [← hfind, RttiEnum.resolveVariant, hwidth]
    change (addOff blockOff discOff.toNat >>= _) = _
    simp only [hoff, hread, bind, Except.bind]
    cases (d.schema variants discOff payloadOff).variants.find? fun v =>
        v.discValue.toUInt64.toNat &&& discMask d.ty.width = raw with
    | none => rfl
    | some variant =>
        change (addOff blockOff payloadOff.toNat >>= _) = _
        rw [hbase]
        rfl
  rw [hresolve]
  cases hselect : d.select raw with
  | none => rfl
  | some i =>
      have hi : i < d.values.length := by
        rw [Discriminants.select, hpats] at hselect
        simpa using (List.findIdx?_eq_some_iff_getElem.1 hselect).1
      have hi' : i < variants.length := hlen ▸ hi
      refine ⟨variants[i], d.values[i], List.getElem?_eq_getElem hi', List.getElem?_eq_getElem hi, ?_⟩
      simp [List.getElem?_zipWith, List.getElem?_eq_getElem hi', List.getElem?_eq_getElem hi]

/-- `A = -1, B, C = 200`. -/
def signedVariants : List EnumVariant :=
  [⟨"A", some (.neg (.lit 1)), []⟩, ⟨"B", none, []⟩, ⟨"C", some (.lit 200), []⟩]

def signedDiscriminants : Discriminants := ⟨.i16, [(-1, .i16), (0, .i16), (200, .i16)], [-1, 0, 200]⟩

theorem signed_variants_agree : signedDiscriminants.values.Nodup ∧
    (signedDiscriminants.schema signedVariants 0 8).resolveVariant [0xff, 0xff] 0 = .ok (⟨"A", -1, []⟩, 8) ∧
      (signedDiscriminants.schema signedVariants 0 8).resolveVariant [200, 0xff] 0 = .error (noVariant 65480) := by
  have h := discriminants_agree (d := signedDiscriminants) (show discriminants signedVariants none = _ from rfl)
    (.inl (by decide))
  have hA := h.2.2 0 8 [0xff, 0xff] 0 0 65535 8 rfl rfl rfl
  have hnone := h.2.2 0 8 [200, 0xff] 0 0 65480 8 rfl rfl rfl
  obtain ⟨v, value, hv, hvalue, hresolve⟩ := hA
  cases hv
  cases hvalue
  exact ⟨h.1, hresolve, hnone⟩

end Selection

end BStackRaii
