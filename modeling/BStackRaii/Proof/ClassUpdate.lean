import BStackRaii.Proof.ClassSlot
/-!
# Updates in place

`set_class_value` writes into the middle of a schema stack. The records of a registry lie one behind the other,
whatever bytes its stack was opened on, so the write reaches one record, and in that one only the value.
-/

namespace BStackRaii

namespace RttiRegistry

/-! ### Slices of a stack -/

section Slices

variable {stack stack' value : List UInt8} {off o n : Nat}

theorem stackGet_ok {data : List UInt8} (h : stackGet stack off n = .ok data) :
    off + n ≤ stack.length ∧ data = (stack.drop off).take n ∧ data.length = n := by
  rw [stackGet] at h
  split at h
  · rename_i hin
    cases h
    refine ⟨hin, rfl, ?_⟩
    rw [List.length_take, List.length_drop]
    omega
  · cases h

theorem stackSet_ok (h : stackSet stack off value = .ok stack') : off + value.length ≤ stack.length ∧
    stack' = stack.take off ++ value ++ stack.drop (off + value.length) ∧ stack'.length = stack.length := by
  rw [stackSet] at h
  split at h
  · rename_i hin
    cases h
    refine ⟨hin, rfl, ?_⟩
    simp only [List.length_append, List.length_take, List.length_drop]
    omega
  · cases h

theorem stackGet_apart (h : stackSet stack off value = .ok stack') (hapart : o + n ≤ off ∨ off + value.length ≤ o) :
    stackGet stack' o n = stackGet stack o n := by
  obtain ⟨hin, hstack, hlen⟩ := stackSet_ok h
  rw [stackGet, stackGet, hlen]
  split
  · rename_i hread
    refine congrArg Except.ok ?_
    have hpre : (stack.take off).length = off := by
      rw [List.length_take]
      omega
    apply List.ext_getElem?
    intro i
    rw [List.getElem?_take, List.getElem?_take]
    split
    · rename_i hi
      rw [List.getElem?_drop, List.getElem?_drop, hstack]
      cases hapart with
      | inl hbefore =>
          rw [List.append_assoc, List.getElem?_append_left (by omega), List.getElem?_take, if_pos (by omega)]
      | inr hafter =>
          rw [List.getElem?_append_right (by rw [List.length_append]; omega), List.length_append, hpre,
            List.getElem?_drop]
          congr 1
          omega
    · rfl
  · rfl

end Slices

end RttiRegistry

/-! ### Where the records lie -/

def RecordRef.stop (rec : RecordRef) : Nat := rec.offset + RECORD_HEADER_LEN + rec.bodyLen.toNat

namespace RttiRegistry

/-- The registries that successful operations lead to from an opened stack, whatever its bytes. -/
inductive Reached : RttiRegistry → Prop
  | opened {stack : List UInt8} {reg : RttiRegistry} (h : RttiRegistry.open stack = .ok reg) : Reached reg
  | step {reg reg' : RttiRegistry} (op : Op) (h : Reached reg) (hrun : op.run reg = .ok reg') : Reached reg'

/-- The records lie one behind the other, and a tag resolves to a record of its own. -/
structure Laid (reg : RttiRegistry) : Prop where
  inside : ∀ rec ∈ reg.records, rec.stop ≤ reg.stack.length
  apart : reg.records.Pairwise fun a b => a.stop ≤ b.offset
  resolves : ∀ tag ord, reg.byTag tag = some ord →
    ∃ i rec, ord = UInt32.ofNat i ∧ reg.records[i]? = some rec ∧ rec.tag = tag

variable {reg reg' : RttiRegistry}

theorem ofNat_toNat_le (i : Nat) : (UInt32.ofNat i).toNat ≤ i := Nat.mod_le i (2 ^ 32)

theorem Laid.found (h : Laid reg) {tag : EightCC} {ord : RttiOrdinal} (hord : reg.ordinalOf tag = some ord) :
    ∃ rec, reg.records[ord.toNat]? = some rec := by
  obtain ⟨i, rec, rfl, hrec, -⟩ := h.resolves tag ord hord
  have hi := (List.getElem?_eq_some_iff.mp hrec).1
  exact ⟨_, List.getElem?_eq_getElem (Nat.lt_of_le_of_lt (ofNat_toNat_le i) hi)⟩

/-- As long as ordinals do not run out, no two tags resolve to one record. -/
theorem Laid.ordinalOf_ne (h : Laid reg) (hcount : reg.records.length ≤ 2 ^ 32) {tag tag' : EightCC} {ord : RttiOrdinal}
    (hord : reg.ordinalOf tag = some ord) (hne : tag' ≠ tag) : reg.ordinalOf tag' ≠ some ord := by
  intro hord'
  obtain ⟨i, rec, hi, hrec, htag⟩ := h.resolves tag ord hord
  obtain ⟨j, rec', hj, hrec', htag'⟩ := h.resolves tag' ord hord'
  have hlti : i < 2 ^ 32 := Nat.lt_of_lt_of_le (List.getElem?_eq_some_iff.mp hrec).1 hcount
  have hltj : j < 2 ^ 32 := Nat.lt_of_lt_of_le (List.getElem?_eq_some_iff.mp hrec').1 hcount
  have hsame := congrArg UInt32.toNat (hi.symm.trans hj)
  rw [UInt32.toNat_ofNat_of_lt' hlti, UInt32.toNat_ofNat_of_lt' hltj] at hsame
  subst hsame
  rw [hrec] at hrec'
  cases hrec'
  exact hne (htag'.symm.trans htag)

theorem Laid.index (h : Laid reg) {tag : EightCC} {offset : Nat} {bodyLen : UInt32} {ord : RttiOrdinal}
    (hbefore : ∀ rec ∈ reg.records, rec.stop ≤ offset)
    (hin : offset + RECORD_HEADER_LEN + bodyLen.toNat ≤ reg.stack.length)
    (hrun : reg.index tag offset bodyLen = .ok (ord, reg')) :
    Laid reg' ∧ ∀ rec ∈ reg'.records, rec.stop ≤ offset + RECORD_HEADER_LEN + bodyLen.toNat := by
  unfold RttiRegistry.index at hrun
  split at hrun
  · cases hrun
  · cases hrun
    refine ⟨⟨fun rec hrec => ?_, ?_, fun tag' ord hord => ?_⟩, fun rec hrec => ?_⟩
    · rw [List.mem_append, List.mem_singleton] at hrec
      cases hrec with
      | inl hold => exact h.inside rec hold
      | inr hnew =>
          subst hnew
          exact hin
    · refine List.pairwise_append.mpr ⟨h.apart, List.pairwise_singleton _ _, fun a ha b hb => ?_⟩
      rw [List.mem_singleton.mp hb]
      exact hbefore a ha
    · replace hord : Function.update reg.byTag tag (some (UInt32.ofNat reg.records.length)) tag' = some ord := hord
      by_cases heq : tag' = tag
      · subst heq
        rw [Function.update_self] at hord
        refine ⟨reg.records.length, ⟨tag', offset, bodyLen⟩, (Option.some.inj hord).symm, ?_, rfl⟩
        exact List.getElem?_concat_length
      · rw [Function.update_of_ne heq] at hord
        obtain ⟨i, rec, hi, hrec, htag⟩ := h.resolves tag' ord hord
        refine ⟨i, rec, hi, ?_, htag⟩
        exact (List.getElem?_append_left (List.getElem?_eq_some_iff.mp hrec).1).trans hrec
    · rw [List.mem_append, List.mem_singleton] at hrec
      cases hrec with
      | inl hold =>
          have hle := hbefore rec hold
          omega
      | inr hnew =>
          subst hnew
          exact Nat.le_refl _

theorem Laid.scan {off : Nat} (h : Laid reg) (hbefore : ∀ rec ∈ reg.records, rec.stop ≤ off)
    (hrun : reg.scan off = .ok reg') : Laid reg' := by
  fun_induction RttiRegistry.scan reg off with
  | case1 => cases hrun
  | case2 => cases hrun
  | case3 => cases hrun
  | case4 reg off hoff header hheader tag bodyLen hbound ord reg₁ hindex ih =>
      have hle := le_alignUp (by decide : 0 < 8) (RECORD_HEADER_LEN + bodyLen.toNat)
      obtain ⟨hlaid, hstops⟩ := h.index hbefore (by omega) hindex
      refine ih hlaid (fun rec hrec => ?_) hrun
      have hstop := hstops rec hrec
      omega
  | case5 =>
      cases hrun
      exact h

theorem Laid.open {stack : List UInt8} (h : RttiRegistry.open stack = .ok reg) : Laid reg :=
  Laid.scan ⟨fun _ hrec => absurd hrec List.not_mem_nil, List.Pairwise.nil,
    fun _ _ hord => absurd hord (Option.some_ne_none _).symm⟩
    (fun _ hrec => absurd hrec List.not_mem_nil) h

theorem setClassValue_ok {tag : EightCC} {name : String} {value : List UInt8}
    (h : reg.setClassValue tag name value = .ok reg') :
    ∃ off stack, reg.locateClassValue tag name = .ok (off, value.length, true) ∧
      stackSet reg.stack off value = .ok stack ∧ reg' = { reg with stack } := by
  obtain ⟨⟨off, len, mutable⟩, hlocate, hset⟩ := except_bind_ok.mp h
  simp only at hset
  split at hset
  · cases hset
  · rename_i hmutable
    split at hset
    · cases hset
    · rename_i hlen
      obtain ⟨stack, hstack, heq⟩ := except_bind_ok.mp hset
      rw [Decidable.not_not] at hlen
      cases heq
      refine ⟨off, stack, ?_, hstack, rfl⟩
      rw [hlocate, hlen]
      cases mutable with
      | true => rfl
      | false => exact absurd rfl hmutable

theorem Reached.laid (h : Reached reg) : Laid reg := by
  induction h with
  | opened h => exact Laid.open h
  | @step reg reg' op _ hrun ih =>
      cases op with
      | append ty =>
          obtain ⟨⟨ord, reg₁⟩, happend, heq⟩ := except_bind_ok.mp hrun
          cases heq
          rw [RttiRegistry.append] at happend
          split at happend
          · cases happend
          · obtain ⟨body, -, happend⟩ := except_bind_ok.mp happend
            obtain ⟨⟨record, bodyLen⟩, hframe, hindex⟩ := except_bind_ok.mp happend
            obtain ⟨hshort, rfl, rfl⟩ := frameRecord_ok hframe
            have hlen := Entry.length_frame (ty.tag, body)
            have hle := le_alignUp (by decide : 0 < 8) (RECORD_HEADER_LEN + body.length)
            have hbody : (UInt32.ofNat body.length).toNat = body.length := UInt32.toNat_ofNat_of_lt' hshort
            have hgrown : Laid { reg with stack := reg.stack ++ Entry.frame (ty.tag, body) } := by
              refine ⟨fun rec hrec => ?_, ih.apart, ih.resolves⟩
              have hin := ih.inside rec hrec
              rw [List.length_append]
              omega
            refine (hgrown.index ih.inside ?_ hindex).1
            simp only [List.length_append, hlen, hbody]
            omega
      | setClassValue tag name value =>
          obtain ⟨off, stack, -, hset, rfl⟩ := setClassValue_ok hrun
          refine ⟨fun rec hrec => ?_, ih.apart, ih.resolves⟩
          rw [(stackSet_ok hset).2.2]
          exact ih.inside rec hrec
      | reopen => exact Laid.open hrun

/-! ### One update -/

section Update

variable {tag : EightCC} {ord : RttiOrdinal} {rec : RecordRef} {name : String} {ty : RttiType} {value : List UInt8}

theorem loadType_ok (hload : reg.loadType ord = .ok ty) : ∃ rec body, reg.records[ord.toNat]? = some rec ∧
    stackGet reg.stack (rec.offset + RECORD_HEADER_LEN) rec.bodyLen.toNat = .ok body ∧
    decodeType rec.tag body = .ok ty := by
  rw [loadType] at hload
  split at hload
  · cases hload
  · rename_i rec hrec
    obtain ⟨body, hbody, hdecode⟩ := except_bind_ok.mp hload
    exact ⟨rec, body, hrec, hbody, hdecode⟩

theorem locateClassValue_eq (hord : reg.ordinalOf tag = some ord) (hrec : reg.records[ord.toNat]? = some rec)
    (name : String) : reg.locateClassValue tag name = (do
      let body ← stackGet reg.stack (rec.offset + RECORD_HEADER_LEN) rec.bodyLen.toNat
      match ← classValueSlot body name with
      | none => .error ⟨.classVar, "RTTI class variable: no class variable named `" ++ name ++ "`"⟩
      | some (pos, len, mutable) => .ok (rec.offset + RECORD_HEADER_LEN + pos, len, mutable)) := by
  unfold locateClassValue
  generalize reg.ordinalOf tag = known at hord
  subst hord
  dsimp only
  generalize reg.records[ord.toNat]? = found at hrec
  subst hrec
  rfl

theorem record_split (hload : reg.loadType ord = .ok ty) (name : String) : ∃ rec front back rest,
    reg.records[ord.toNat]? = some rec ∧
    reg.stack = front ++ slotValue (ty.classVariable name) ++ (back ++ rest) ∧
    rec.offset + RECORD_HEADER_LEN ≤ front.length ∧
    rec.offset + RECORD_HEADER_LEN + rec.bodyLen.toNat =
      (front ++ slotValue (ty.classVariable name) ++ back).length ∧
    ∀ (reg' : RttiRegistry) (value : List UInt8), reg'.records = reg.records →
      value.length = (slotValue (ty.classVariable name)).length →
      reg'.stack = front ++ value ++ (back ++ rest) →
      reg'.loadType ord = .ok (ty.withClassValue name value) ∧
      ∀ tag, reg'.ordinalOf tag = some ord → reg'.locateClassValue tag name =
        match ty.classVariable name with
        | none => .error ⟨.classVar, "RTTI class variable: no class variable named `" ++ name ++ "`"⟩
        | some (mutable, old) => .ok (front.length, old.length, mutable) := by
  obtain ⟨rec, body, hrec, hbody, hdecode⟩ := loadType_ok hload
  obtain ⟨front, back, hsplit, hall⟩ := decodeType_slot hdecode name
  obtain ⟨hin, hdata, hlen⟩ := stackGet_ok hbody
  have hhead : (reg.stack.take (rec.offset + RECORD_HEADER_LEN)).length = rec.offset + RECORD_HEADER_LEN := by
    rw [List.length_take]
    omega
  have hstack : reg.stack = reg.stack.take (rec.offset + RECORD_HEADER_LEN) ++ body ++
      (reg.stack.drop (rec.offset + RECORD_HEADER_LEN)).drop rec.bodyLen.toNat := by
    rw [hdata, List.append_assoc, List.take_append_drop, List.take_append_drop]
  refine ⟨rec, reg.stack.take (rec.offset + RECORD_HEADER_LEN) ++ front, back,
    (reg.stack.drop (rec.offset + RECORD_HEADER_LEN)).drop rec.bodyLen.toNat, hrec, ?_, ?_, ?_, ?_⟩
  · conv_lhs => rw [hstack, hsplit]
    simp only [List.append_assoc]
  · rw [List.length_append, hhead]
    exact Nat.le_add_right _ _
  · rw [← hlen, hsplit]
    simp only [List.length_append, hhead]
    omega
  · intro reg' value hrecords hvalue hstack'
    obtain ⟨hdecode', hslot⟩ := hall value hvalue
    have hget : stackGet reg'.stack (rec.offset + RECORD_HEADER_LEN) rec.bodyLen.toNat =
      .ok (front ++ value ++ back) := by
      have hcount : rec.bodyLen.toNat = (front ++ value ++ back).length := by
        rw [← hlen, hsplit]
        simp only [List.length_append, hvalue]
      have hshape : reg'.stack = reg.stack.take (rec.offset + RECORD_HEADER_LEN) ++ (front ++ value ++ back) ++
          (reg.stack.drop (rec.offset + RECORD_HEADER_LEN)).drop rec.bodyLen.toNat := by
        rw [hstack']
        simp only [List.append_assoc]
      have hmiddle := stackGet_middle (reg.stack.take (rec.offset + RECORD_HEADER_LEN)) (front ++ value ++ back)
        ((reg.stack.drop (rec.offset + RECORD_HEADER_LEN)).drop rec.bodyLen.toNat)
      rw [hhead] at hmiddle
      rw [hcount] at hmiddle
      rw [hshape, hcount]
      exact hmiddle
    have hrec' : reg'.records[ord.toNat]? = some rec := hrecords ▸ hrec
    constructor
    · rw [loadType, hrec']
      show (stackGet reg'.stack _ _ >>= _) = _
      rw [hget]
      exact hdecode'
    · intro tag hord
      rw [locateClassValue_eq hord hrec', hget]
      show (classValueSlot (front ++ value ++ back) name >>= _) = _
      rw [hslot]
      cases ty.classVariable name with
      | none => rfl
      | some s =>
          rw [List.length_append, hhead]
          rfl

/-- A read of a class variable of a record that decodes. -/
theorem classValue_of_type (hload : reg.loadType ord = .ok ty) (hord : reg.ordinalOf tag = some ord) (name : String) :
    reg.classValue tag name = match ty.classVariable name with
      | none => .error ⟨.classVar, "RTTI class variable: no class variable named `" ++ name ++ "`"⟩
      | some (_, old) => .ok old := by
  obtain ⟨rec, front, back, rest, -, hstack, -, -, hall⟩ := record_split hload name
  have hlocate := (hall reg (slotValue (ty.classVariable name)) rfl rfl hstack).2 tag hord
  rw [classValue, hlocate]
  cases hvar : ty.classVariable name with
  | none => rfl
  | some s =>
      show stackGet reg.stack front.length s.2.length = _
      rw [hstack, hvar]
      exact stackGet_middle front s.2 (back ++ rest)

theorem locateClassValue_inside {off len : Nat} {mutable : Bool}
    (h : reg.locateClassValue tag name = .ok (off, len, mutable)) :
    ∃ ord rec, reg.ordinalOf tag = some ord ∧ reg.records[ord.toNat]? = some rec ∧
      rec.offset + RECORD_HEADER_LEN ≤ off ∧ off + len ≤ rec.stop := by
  cases hord : reg.ordinalOf tag with
  | none =>
      rw [locateClassValue, hord] at h
      cases h
  | some ord =>
      cases hrec : reg.records[ord.toNat]? with
      | none =>
          rw [locateClassValue, hord] at h
          simp only [hrec] at h
          cases h
      | some rec =>
          rw [locateClassValue_eq hord hrec] at h
          obtain ⟨body, hbody, h⟩ := except_bind_ok.mp h
          obtain ⟨slot, hslot, h⟩ := except_bind_ok.mp h
          cases slot with
          | none => cases h
          | some s =>
              cases h
              have hbound := classValueSlot_bounded hslot
              rw [(stackGet_ok hbody).2.2] at hbound
              refine ⟨ord, rec, rfl, hrec, Nat.le_add_right _ _, ?_⟩
              rw [RecordRef.stop]
              omega

/-- A read looks only at the record of its tag. -/
theorem classValue_congr (hord : reg.ordinalOf tag = some ord) (hrec : reg.records[ord.toNat]? = some rec)
    (hbody : ∀ o n, rec.offset + RECORD_HEADER_LEN ≤ o → o + n ≤ rec.stop →
      stackGet reg'.stack o n = stackGet reg.stack o n)
    (hrec' : reg'.records[ord.toNat]? = some rec) (hord' : reg'.ordinalOf tag = some ord) :
    reg'.classValue tag name = reg.classValue tag name := by
  have hlocate : reg'.locateClassValue tag name = reg.locateClassValue tag name := by
    rw [locateClassValue_eq hord' hrec', locateClassValue_eq hord hrec, hbody _ _ (Nat.le_refl _) (Nat.le_refl _)]
  rw [classValue, classValue, hlocate]
  cases hslot : reg.locateClassValue tag name with
  | error e => rfl
  | ok s =>
      obtain ⟨off, len, mutable⟩ := s
      obtain ⟨ord₁, rec₁, hord₁, hrec₁, hlow, hhigh⟩ := locateClassValue_inside hslot
      rw [hord] at hord₁
      cases hord₁
      rw [hrec] at hrec₁
      cases hrec₁
      exact hbody off len hlow hhigh

/-- What an update of the class variable `name` of the record `ord` leaves. -/
structure Updated (reg reg' : RttiRegistry) (tag : EightCC) (ord : RttiOrdinal) (ty : RttiType) (name : String)
    (value : List UInt8) : Prop where
  target : reg'.loadType ord = .ok (ty.withClassValue name value)
  others : ∀ ord', ord' ≠ ord → reg'.loadType ord' = reg.loadType ord'
  layout : layoutsMatch ty (ty.withClassValue name value) = true
  read : reg'.classValue tag name = .ok value
  reads : ∀ tag' name', reg.ordinalOf tag' ≠ some ord ∨ name' ≠ name →
    reg'.classValue tag' name' = reg.classValue tag' name'
  index : reg'.records = reg.records ∧ reg'.byTag = reg.byTag
  size : reg'.stack.length = reg.stack.length

theorem Laid.before_or_after (h : Laid reg) {i j : Nat} {a b : RecordRef} (ha : reg.records[i]? = some a)
    (hb : reg.records[j]? = some b) (hne : i ≠ j) : a.stop ≤ b.offset ∨ b.stop ≤ a.offset := by
  obtain ⟨hi, rfl⟩ := List.getElem?_eq_some_iff.mp ha
  obtain ⟨hj, rfl⟩ := List.getElem?_eq_some_iff.mp hb
  have hapart := List.pairwise_iff_getElem.mp h.apart
  cases Nat.lt_or_gt_of_ne hne with
  | inl hlt => exact .inl (hapart i j hi hj hlt)
  | inr hgt => exact .inr (hapart j i hj hi hgt)

theorem Laid.updated (h : Laid reg) (hord : reg.ordinalOf tag = some ord) (hload : reg.loadType ord = .ok ty)
    (hset : reg.setClassValue tag name value = .ok reg') : Updated reg reg' tag ord ty name value := by
  obtain ⟨off, stack, hlocate, hstack', rfl⟩ := setClassValue_ok hset
  obtain ⟨rec, front, back, rest, hrec, hstack, hhead, hstop, hall⟩ := record_split hload name
  have hplace := (hall reg (slotValue (ty.classVariable name)) rfl rfl hstack).2 tag hord
  rw [hlocate] at hplace
  cases hvar : ty.classVariable name with
  | none =>
      rw [hvar] at hplace
      cases hplace
  | some s =>
      obtain ⟨mutable, old⟩ := s
      rw [hvar] at hplace hstack hstop hall
      simp only [Except.ok.injEq, Prod.mk.injEq] at hplace
      obtain ⟨rfl, hlen, rfl⟩ := hplace
      rw [hstack, stackSet_middle front (slotValue (some (true, old))) (back ++ rest) value hlen] at hstack'
      cases hstack'
      have hset' : stackSet reg.stack front.length value = .ok (front ++ value ++ (back ++ rest)) := by
        rw [hstack]
        exact stackSet_middle front (slotValue (some (true, old))) (back ++ rest) value hlen
      -- the written bytes lie in this record and so in no other
      have hwritten : rec.offset + RECORD_HEADER_LEN ≤ front.length ∧ front.length + value.length ≤ rec.stop := by
        refine ⟨hhead, ?_⟩
        rw [RecordRef.stop, hstop, List.length_append, List.length_append, hlen]
        exact Nat.le_add_right _ _
      have hbody : ∀ ord' rec', ord' ≠ ord → reg.records[ord'.toNat]? = some rec' → ∀ o n,
          rec'.offset + RECORD_HEADER_LEN ≤ o → o + n ≤ rec'.stop →
          stackGet (front ++ value ++ (back ++ rest)) o n = stackGet reg.stack o n := by
        intro ord' rec' hne hrec' o n hlow hhigh
        apply stackGet_apart hset'
        have hne' : ord'.toNat ≠ ord.toNat := fun heq => hne (UInt32.toNat_inj.mp heq)
        cases h.before_or_after hrec' hrec hne' with
        | inl hbefore => exact .inl (by omega)
        | inr hafter => exact .inr (by omega)
      have htarget := (hall { reg with stack := front ++ value ++ (back ++ rest) } value rfl hlen rfl).1
      refine ⟨htarget, fun ord' hne => ?_, RttiType.layoutsMatch_withClassValue hvar, ?_, fun tag' name' hother => ?_,
        ⟨rfl, rfl⟩, (stackSet_ok hset').2.2⟩
      · cases hrec' : reg.records[ord'.toNat]? with
        | none =>
            simp only [loadType, hrec']
        | some rec' =>
            simp only [loadType, hrec']
            rw [hbody ord' rec' hne hrec' _ _ (Nat.le_refl _) (Nat.le_refl _)]
      · have hread := classValue_of_type htarget hord name
        rw [RttiType.classVariable_set hvar] at hread
        exact hread
      · cases hord' : reg.ordinalOf tag' with
        | none =>
            have hmissing : ∀ reg' : RttiRegistry, reg'.ordinalOf tag' = none →
                reg'.classValue tag' name' = .error unknownTag := by
              intro reg' hnone
              rw [classValue, locateClassValue, hnone]
              rfl
            rw [hmissing reg hord']
            exact hmissing _ hord'
        | some ord' =>
            by_cases hsame : ord' = ord
            · subst hsame
              have hname : name' ≠ name := hother.resolve_left fun hne => hne hord'
              have hread := classValue_of_type htarget hord' name'
              rw [RttiType.classVariable_other hname, ← classValue_of_type hload hord' name'] at hread
              exact hread
            · obtain ⟨rec', hrec'⟩ := h.found hord'
              exact classValue_congr hord' hrec' (hbody ord' rec' hsame hrec') hrec' hord'

/-- Exactly the mutable class variables are set, to values of their width. -/
theorem setClassValue_iff (hord : reg.ordinalOf tag = some ord) (hload : reg.loadType ord = .ok ty) :
    (∃ reg', reg.setClassValue tag name value = .ok reg') ↔
      ∃ old, ty.classVariable name = some (true, old) ∧ value.length = old.length := by
  obtain ⟨rec, front, back, rest, -, hstack, -, -, hall⟩ := record_split hload name
  have hplace := (hall reg (slotValue (ty.classVariable name)) rfl rfl hstack).2 tag hord
  constructor
  · rintro ⟨reg', hset⟩
    obtain ⟨off, stack, hlocate, -, -⟩ := setClassValue_ok hset
    rw [hlocate] at hplace
    cases hvar : ty.classVariable name with
    | none =>
        rw [hvar] at hplace
        cases hplace
    | some s =>
        rw [hvar] at hplace
        simp only [Except.ok.injEq, Prod.mk.injEq] at hplace
        obtain ⟨-, hlen, hmutable⟩ := hplace
        exact ⟨s.2, by rw [hmutable], hlen⟩
  · rintro ⟨old, hvar, hlen⟩
    rw [hvar] at hplace hstack
    refine ⟨{ reg with stack := front ++ value ++ (back ++ rest) }, ?_⟩
    have hset : stackSet reg.stack front.length value = .ok (front ++ value ++ (back ++ rest)) := by
      rw [hstack]
      exact stackSet_middle front (slotValue (some (true, old))) (back ++ rest) value hlen
    refine except_bind_ok.mpr ⟨(front.length, old.length, true), hplace, ?_⟩
    simp only [Bool.not_true, Bool.false_eq_true, if_false, hlen, ne_eq, not_true]
    exact except_bind_ok.mpr ⟨_, hset, rfl⟩

end Update

/-- In every record that decodes, the search finds exactly the class variables that the decoder reads. In every
registry that operations lead to from a stack of any bytes, the mutable ones can be set to values of their width, and
nothing else that the registry gives is changed by that: no other type, no layout, no other class variable. A tag has
a record of its own as long as there are no more records than ordinals. -/
theorem class_value_update_exact {reg : RttiRegistry} (h : Reached reg) :
    (∀ tag body ty, decodeType tag body = .ok ty → ∀ name, SlotExact body ty name) ∧
    (∀ tag ord ty, reg.ordinalOf tag = some ord → reg.loadType ord = .ok ty → ∀ name value,
      ((∃ reg', reg.setClassValue tag name value = .ok reg') ↔
        ∃ old, ty.classVariable name = some (true, old) ∧ value.length = old.length) ∧
      ∀ reg', reg.setClassValue tag name value = .ok reg' → Updated reg reg' tag ord ty name value) ∧
    (reg.records.length ≤ 2 ^ 32 → ∀ tag ord, reg.ordinalOf tag = some ord → ∀ tag', tag' ≠ tag →
      reg.ordinalOf tag' ≠ some ord) := by
  have hlaid := h.laid
  refine ⟨fun tag body ty => slotExact, fun tag ord ty hord hload name value => ⟨setClassValue_iff hord hload, ?_⟩, ?_⟩
  · exact fun reg' hset => hlaid.updated hord hload hset
  · exact fun hcount tag ord hord tag' hne => hlaid.ordinalOf_ne hcount hord hne

/-- A struct of two bytes, each a mutable class variable. -/
def twoVariables : RttiType where
  tag := .zero
  name := "T"
  rc := false
  weak := false
  ctrlTag := none
  ondiskSize := 16
  body := .struct [⟨"u", 0, .classVar true (.pod 1) [3]⟩, ⟨"v", 0, .classVar true (.pod 1) [5]⟩]

/-- Setting the second leaves the first. -/
theorem class_value_update_exact_two : ∃ reg reg' : RttiRegistry, Reached reg ∧ reg.loadType 0 = .ok twoVariables ∧
    reg.setClassValue .zero "v" [7] = .ok reg' ∧ reg'.classValue .zero "v" = .ok [7] ∧
    reg'.classValue .zero "u" = reg.classValue .zero "u" := by
  have hopen : RttiRegistry.open [] = .ok ⟨[], [], fun _ => none⟩ := by
    rw [RttiRegistry.open, scan, if_neg (by simp)]
  have happends : (RttiRegistry.append ⟨[], [], fun _ => none⟩ twoVariables).isOk = true := by decide +kernel
  have hfacts : ((RttiRegistry.append ⟨[], [], fun _ => none⟩ twoVariables >>= fun r =>
      (r.2.loadType 0).map fun ty => (r.2.ordinalOf .zero, ty)) : RttiResult (Option RttiOrdinal × RttiType)) =
      .ok (some 0, twoVariables) := by
    decide +kernel
  obtain ⟨⟨ord, reg⟩, happend⟩ := exists_of_isOk happends
  rw [happend] at hfacts
  obtain ⟨ty, hload, hpair⟩ : ∃ ty, reg.loadType 0 = .ok ty ∧ (reg.ordinalOf .zero, ty) = (some 0, twoVariables) := by
    cases hload : reg.loadType 0 with
    | error e =>
        replace hfacts : (reg.loadType 0).map _ = _ := hfacts
        rw [hload] at hfacts
        cases hfacts
    | ok ty =>
        replace hfacts : (reg.loadType 0).map _ = _ := hfacts
        rw [hload] at hfacts
        exact ⟨ty, rfl, Except.ok.inj hfacts⟩
  obtain ⟨hord, rfl⟩ := Prod.mk.inj hpair
  have hreached : Reached reg := .step (.append twoVariables) (.opened hopen) (by rw [Op.run, happend]; rfl)
  obtain ⟨-, hupdates, -⟩ := class_value_update_exact hreached
  obtain ⟨hiff, hupdated⟩ := hupdates .zero 0 twoVariables hord hload "v" [7]
  obtain ⟨reg', hset⟩ := hiff.mpr ⟨[5], by decide, rfl⟩
  have hdone := hupdated reg' hset
  exact ⟨reg, reg', hreached, hload, hset, hdone.read, hdone.reads .zero "u" (.inr (by decide))⟩

end RttiRegistry

end BStackRaii
