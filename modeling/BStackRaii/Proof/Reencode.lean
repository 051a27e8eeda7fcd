import BStackRaii.Proof.Schema
/-!
# What the decoder accepts can be encoded

The encoder refuses only what does not fit a length field. A decoded length did fit, and the shape of a
field takes as many bytes as it was read from, which the decoder has compared with the length of the
field.
-/

namespace BStackRaii

/-! ### Words and strings -/

theorem utf8Bytes_of_fromUtf8 {bs : List UInt8} {s : String} (h : fromUtf8 bs = some s) : utf8Bytes s = bs := by
  rw [fromUtf8, String.fromUTF8?] at h
  split at h
  · cases h
    rfl
  · cases h

theorem tryU8_toNat (v : UInt8) (what limit : String) : tryU8 v.toNat what limit = .ok v := by
  rw [tryU8, if_pos v.toNat_lt, UInt8.ofNat_toNat]

theorem tryU16_toNat (v : UInt16) (what limit : String) : tryU16 v.toNat what limit = .ok v := by
  rw [tryU16, if_pos v.toNat_lt, UInt16.ofNat_toNat]

theorem tryU32_toNat (v : UInt32) (what limit : String) : tryU32 v.toNat what limit = .ok v := by
  rw [tryU32, if_pos v.toNat_lt, UInt32.ofNat_toNat]

namespace Consumes

theorem u8 : Consumes (need Reader.u8) fun _ n => n = 1 := word 1 _

theorem u16 : Consumes (need Reader.u16) fun _ n => n = 2 := word 2 _

theorem u32 : Consumes (need Reader.u32) fun _ n => n = 4 := word 4 _

theorem u64 : Consumes (need Reader.u64) fun _ n => n = 8 := word 8 _

theorem i64 : Consumes (need Reader.i64) fun _ n => n = 8 := word 8 _

theorem eightcc : Consumes (need Reader.eightcc) fun _ n => n = 8 := word 8 _

theorem bytes (k : Nat) : Consumes (need (Reader.take k)) fun bs n => bs.length = k ∧ n = k := take k _

theorem aligned {a : Nat} (ha : 0 < a) : Consumes (align a) fun _ _ => True := skipPad ha _

theorem string (k : Nat) : Consumes (string k) fun s n => (utf8Bytes s).length = k ∧ n = k := by
  apply (bytes k).bind
  intro bs n hbs
  cases hs : fromUtf8 bs with
  | none => exact throw _
  | some s =>
      apply pure
      rw [utf8Bytes_of_fromUtf8 hs, Nat.add_zero]
      exact hbs

end Consumes

namespace Emits

theorem u8 (v : UInt8) : Emits (Encoder.u8 v : Encoder RttiError Unit) 1 := emit _

theorem u32 (v : UInt32) : Emits (Encoder.u32 v : Encoder RttiError Unit) 4 := emit _

theorem eightcc (cc : EightCC) : Emits (Encoder.eightcc cc : Encoder RttiError Unit) 8 := by
  have h : Emits (Encoder.emit cc.bytes : Encoder RttiError Unit) cc.bytes.length := emit cc.bytes
  rwa [cc.length_eq] at h

end Emits

/-! ### Shapes -/

namespace Shape

theorem emits_nested {inner : Decoder RttiError Shape} (h : Consumes inner fun s n => Emits s.encode n)
    (k : Nat) : Consumes (inner.times k) fun items n => items.length = k ∧ Emits (encodeItems items) n := by
  induction k with
  | zero => exact Consumes.pure ⟨rfl, Emits.pure⟩
  | succ k ih =>
      apply h.bind
      intro s n hs
      apply ih.bind
      intro items m hitems
      apply Consumes.pure
      refine ⟨by rw [List.length_cons, hitems.1], ?_⟩
      rw [encodeItems]
      exact hs.bind hitems.2

theorem decodeAt_consumes (levels : Nat) : Consumes (decodeAt levels) fun s n => Emits s.encode n := by
  induction levels with
  | zero => exact Consumes.throw _
  | succ levels ih =>
      have hcc : ∀ (b : UInt8) (make : EightCC → Shape),
          (∀ cc, (make cc).encode = Encoder.u8 b >>= fun _ => Encoder.eightcc cc) →
          Consumes (need Reader.eightcc >>= fun cc => pure (make cc)) fun s k => Emits s.encode (1 + k) := by
        intro b make hmake
        apply Consumes.eightcc.bind
        intro cc n hn
        apply Consumes.pure
        rw [hmake, hn]
        exact (Emits.u8 b).bind (Emits.eightcc cc)
      apply Consumes.u8.bind
      intro tag n hn
      rw [hn]
      unfold decodeTagged
      split
      · apply Consumes.u32.bind
        intro width k hk
        apply Consumes.pure
        rw [hk, encode]
        exact (Emits.u8 0x00).bind (Emits.u32 width)
      · exact hcc 0x01 owned fun cc => by rw [encode]
      · exact hcc 0x02 strong fun cc => by rw [encode]
      · exact hcc 0x03 weak fun cc => by rw [encode]
      · exact hcc 0x04 ref fun cc => by rw [encode]
      · exact hcc 0x05 embed fun cc => by rw [encode]
      · apply Consumes.eightcc.bind
        intro cc k hk
        apply Consumes.u8.bind
        intro kb j hj
        cases hkind : OwnershipKind.fromU8 kb with
        | none => exact Consumes.throw _
        | some kind =>
            apply Consumes.pure
            rw [hk, hj, encode]
            exact (Emits.u8 0x06).bind ((Emits.eightcc cc).bind (Emits.u8 kind.asU8))
      · apply ih.bind
        intro inner k hinner
        apply Consumes.pure
        rw [encode]
        exact (Emits.u8 0x10).bind hinner
      · apply Consumes.u32.bind
        intro n k hk
        apply ih.bind
        intro inner j hinner
        apply Consumes.pure
        rw [hk, encode]
        exact (Emits.u8 0x11).bind ((Emits.u32 n).bind hinner)
      · apply ih.bind
        intro inner k hinner
        by_cases hleaf : inner.isVecElementLeaf = true
        · rw [if_pos hleaf]
          apply Consumes.pure
          rw [encode]
          exact (Emits.u8 0x12).bind hinner
        · rw [if_neg hleaf]
          exact Consumes.throw _
      · apply Consumes.u8.bind
        intro arity k hk
        apply (emits_nested ih arity.toNat).bind
        intro items j hitems
        apply Consumes.pure
        have harity : tryU8 items.length "tuple arity" "255 elements" = .ok arity := by
          rw [hitems.1]
          exact tryU8_toNat arity _ _
        rw [hk, encode]
        exact (Emits.u8 0x13).bind (Emits.given harity ((Emits.u8 arity).bind hitems.2))
      · apply Consumes.u8.bind
        intro flag k hk
        apply ih.bind
        intro inner j hinner
        apply Consumes.u32.bind
        intro valueLen i hi
        apply (Consumes.bytes valueLen.toNat).bind
        intro value m hvalue
        apply Consumes.pure
        have hlen : tryU32 value.length "class-variable value length" "4 GiB" = .ok valueLen := by
          rw [hvalue.1]
          exact tryU32_toNat valueLen _ _
        rw [hk, hi, hvalue.2, encode, ← hvalue.1]
        exact (Emits.u8 0x20).bind ((Emits.u8 _).bind (hinner.bind
          (Emits.given hlen ((Emits.u32 valueLen).bind (Emits.emit value)))))
      · exact Consumes.throw _

end Shape

/-! ### Fields, variants and types -/

theorem RttiField.decode_consumes : Consumes RttiField.decode fun f _ => Succeeds f.encode := by
  apply Consumes.u32.bind
  intro offset _ _
  apply Consumes.u16.bind
  intro nameLen _ _
  apply Consumes.u16.bind
  intro shapeLen _ _
  apply (Consumes.string nameLen.toNat).bind
  intro name _ hname
  apply (Consumes.aligned (a := 4) (by decide)).bind
  -- the two positions differ by what the shape consumed
  intro _ _ _ r f r' hrun
  obtain ⟨start, r₁, hstart, hrest⟩ := stateT_bind_ok.mp hrun
  cases hstart
  obtain ⟨shape, r₂, hshape, hrest⟩ := stateT_bind_ok.mp hrest
  obtain ⟨hbuf, hin, n, hpos, hemits⟩ := Shape.decodeAt_consumes MAX_SHAPE_DEPTH r shape r₂ hshape
  obtain ⟨stop, r₃, hstop, hrest⟩ := stateT_bind_ok.mp hrest
  cases hstop
  have hn : r₂.pos - r.pos = n := by omega
  rw [hn] at hrest
  by_cases hlen : n = shapeLen.toNat
  · rw [if_neg (by simpa using hlen)] at hrest
    obtain ⟨_, r₄, hpad, hrest⟩ := stateT_bind_ok.mp hrest
    cases hrest
    obtain ⟨hbuf', hin', m, hpos', -⟩ := Consumes.aligned (by decide) _ _ _ hpad
    refine ⟨hbuf'.trans hbuf, fun h => ?_, n + m, by omega, ?_⟩
    · rw [hbuf] at hin'
      exact hin' (hin h)
    · obtain ⟨sw, hsw, hswlen⟩ := hemits.alone
      have hname' : tryU16 (utf8Bytes name).length "field name length" "65535 bytes" = .ok nameLen := by
        rw [hname.1]
        exact tryU16_toNat nameLen _ _
      have hshape' : tryU16 sw.length "field shape encoding length" "65535 bytes" = .ok shapeLen := by
        rw [hswlen, hlen]
        exact tryU16_toNat shapeLen _ _
      apply Succeeds.given hsw
      apply Succeeds.given hname'
      apply Succeeds.given hshape'
      apply (Succeeds.emit _).bind
      apply (Succeeds.emit _).bind
      apply (Succeeds.emit _).bind
      apply (Succeeds.emit _).bind
      apply (Succeeds.align 4).bind
      exact (Succeeds.emit sw).bind (Succeeds.align 4)
  · rw [if_pos hlen] at hrest
    cases hrest

theorem Consumes.all {α : Type} {d : Decoder RttiError α} {e : α → Encoder RttiError Unit}
    (h : Consumes d fun v _ => Succeeds (e v)) (k : Nat) :
    Consumes (d.times k) fun vs _ => vs.length = k ∧ Succeeds (Encoder.each e vs) := by
  induction k with
  | zero => exact Consumes.pure ⟨rfl, Succeeds.each fun x hx => by cases hx⟩
  | succ k ih =>
      apply h.bind
      intro v _ hv
      apply ih.bind
      intro vs _ hvs
      apply Consumes.pure
      exact ⟨by rw [List.length_cons, hvs.1], hv.bind hvs.2⟩

theorem RttiVariant.decode_consumes : Consumes RttiVariant.decode fun v _ => Succeeds v.encode := by
  apply (Consumes.aligned (a := 8) (by decide)).bind
  intro _ _ _
  apply Consumes.i64.bind
  intro disc _ _
  apply Consumes.u16.bind
  intro nameLen _ _
  apply Consumes.u16.bind
  intro count _ _
  apply Consumes.u32.bind
  intro _ _ _
  apply (Consumes.string nameLen.toNat).bind
  intro name _ hname
  apply (Consumes.aligned (a := 8) (by decide)).bind
  intro _ _ _
  apply (RttiField.decode_consumes.all count.toNat).bind
  intro fields _ hfields
  apply Consumes.pure
  have hname' : tryU16 (utf8Bytes name).length "variant name length" "65535 bytes" = .ok nameLen := by
    rw [hname.1]
    exact tryU16_toNat nameLen _ _
  have hcount : tryU16 fields.length "variant field count" "65535 fields" = .ok count := by
    rw [hfields.1]
    exact tryU16_toNat count _ _
  apply (Succeeds.align 8).bind
  apply (Succeeds.emit _).bind
  apply Succeeds.given hname'
  apply Succeeds.given hcount
  apply (Succeeds.emit _).bind
  apply (Succeeds.emit _).bind
  apply (Succeeds.emit _).bind
  apply (Succeeds.emit _).bind
  exact (Succeeds.align 8).bind hfields.2

theorem TypeHeader.decode_consumes : Consumes TypeHeader.decode fun h _ => (utf8Bytes h.name).length < 2 ^ 16 := by
  apply Consumes.u8.bind
  intro flags _ _
  apply Consumes.u8.bind
  intro discWidth _ _
  apply Consumes.u16.bind
  intro nameLen _ _
  apply Consumes.u16.bind
  intro count _ _
  apply Consumes.u16.bind
  intro discOff _ _
  apply Consumes.u16.bind
  intro payloadOff _ _
  apply Consumes.u64.bind
  intro ondiskSize _ _
  apply Consumes.eightcc.bind
  intro ctrlTag _ _
  apply (Consumes.string nameLen.toNat).bind
  intro name _ hname
  apply (Consumes.aligned (a := 8) (by decide)).bind
  intro _ _ _
  apply Consumes.pure
  show (utf8Bytes name).length < 2 ^ 16
  rw [hname.1]
  exact nameLen.toNat_lt

/-- The number of fields or variants fits, and each of them can be encoded. -/
def RttiBody.Encodable : RttiBody → Prop
  | .struct fields => fields.length < 2 ^ 16 ∧ Succeeds (Encoder.each RttiField.encode fields)
  | .enum e => e.variants.length < 2 ^ 16 ∧ Succeeds (Encoder.each RttiVariant.encode e.variants)

theorem RttiBody.decode_consumes (h : TypeHeader) : Consumes (RttiBody.decode h) fun b _ => b.Encodable := by
  have hcount : h.count.toNat < 2 ^ 16 := h.count.toNat_lt
  unfold RttiBody.decode
  split
  · split
    · exact Consumes.throw _
    · split
      · exact Consumes.throw _
      · apply (RttiVariant.decode_consumes.all h.count.toNat).bind
        intro variants _ hvariants
        exact Consumes.pure ⟨by rw [hvariants.1]; exact hcount, hvariants.2⟩
  · apply (RttiField.decode_consumes.all h.count.toNat).bind
    intro fields _ hfields
    exact Consumes.pure ⟨by rw [hfields.1]; exact hcount, hfields.2⟩

theorem RttiBody.Encodable.encode {ty : RttiType} (h : ty.body.Encodable) :
    (∃ count, ty.count = .ok count) ∧ Succeeds ty.encodeBody := by
  unfold RttiType.count RttiType.encodeBody
  cases hbody : ty.body with
  | struct fields =>
      rw [hbody] at h
      exact ⟨⟨_, if_pos h.1⟩, h.2⟩
  | enum e =>
      rw [hbody] at h
      exact ⟨⟨_, if_pos h.1⟩, h.2⟩

theorem RttiType.encode_succeeds {ty : RttiType} (hname : (utf8Bytes ty.name).length < 2 ^ 16)
    (hbody : ty.body.Encodable) : Succeeds ty.encode := by
  obtain ⟨⟨count, hcount⟩, hencode⟩ := hbody.encode
  apply Succeeds.given hcount
  apply Succeeds.given (if_pos hname)
  refine Succeeds.bind ?_ hencode
  apply (Succeeds.emit _).bind
  apply (Succeeds.emit _).bind
  apply (Succeeds.emit _).bind
  apply (Succeeds.emit _).bind
  apply (Succeeds.emit _).bind
  apply (Succeeds.emit _).bind
  apply (Succeeds.emit _).bind
  apply (Succeeds.emit _).bind
  exact (Succeeds.emit _).bind (Succeeds.align 8)

theorem RttiType.decode_consumes (tag : EightCC) :
    Consumes (RttiType.decode tag) fun ty _ => ty.tag = tag ∧ Succeeds ty.encode := by
  apply TypeHeader.decode_consumes.bind
  intro h _ hname
  apply (RttiBody.decode_consumes h).bind
  intro body _ hbody
  apply Consumes.pure
  exact ⟨rfl, RttiType.encode_succeeds hname hbody⟩

/-- Decoding is total and stable. Every slice it takes lies in the buffer and has the length asked for, a
shape never moves the cursor back, and the cursor ends within the buffer. What it returns can be encoded
and decoded to the same type. -/
theorem decodeType_stable (tag : EightCC) (b : List UInt8) :
    (∀ n r bs r', Reader.take n r = some (bs, r') → r.pos + n ≤ r.buf.length ∧ bs.length = n) ∧
    (∀ r s r', Shape.decode r = .ok (s, r') → r'.buf = r.buf ∧ r.pos ≤ r'.pos) ∧
    (∀ ty r', RttiType.decode tag ⟨b, 0⟩ = .ok (ty, r') → r'.buf = b ∧ r'.pos ≤ b.length) ∧
    ∀ ty, decodeType tag b = .ok ty → ∃ b', encodeType ty = .ok b' ∧ decodeType tag b' = .ok ty := by
  refine ⟨fun n r bs r' h => ?_, fun r s r' h => ?_, fun ty r' h => ?_, fun ty h => ?_⟩
  · obtain ⟨hin, hlen, -⟩ := Reader.take_inside h
    exact ⟨hin, hlen⟩
  · obtain ⟨hbuf, -, n, hpos, -⟩ := Shape.decodeAt_consumes MAX_SHAPE_DEPTH r s r' h
    exact ⟨hbuf, by omega⟩
  · obtain ⟨hbuf, hin, -⟩ := RttiType.decode_consumes tag ⟨b, 0⟩ ty r' h
    exact ⟨hbuf, hin (Nat.zero_le _)⟩
  · have hready := (RttiType.decode_yields tag).of_run h
    have hencode : ty.tag = tag ∧ Succeeds ty.encode := by
      rw [decodeType, Decoder.run] at h
      cases hrun : RttiType.decode tag ⟨b, 0⟩ with
      | error e =>
          rw [hrun] at h
          cases h
      | ok p =>
          rw [hrun] at h
          cases h
          obtain ⟨-, -, n, -, hp⟩ := RttiType.decode_consumes tag ⟨b, 0⟩ p.1 p.2 hrun
          exact hp
    obtain ⟨b', hb'⟩ := hencode.2 []
    have hok : encodeType ty = .ok b' := Encoder.alone_ok.mpr hb'
    refine ⟨b', hok, ?_⟩
    rw [← hencode.1]
    exact (decode_of_encode hok).mpr hready

end BStackRaii
