import BStackRaii.Proof.Read.Turn
import BStackRaii.Proof.Schema
/-!
# Reading by a schema

A read on the interpreter's stacks is the direct reading of the schema, as far as the budget goes: it has the
same value, it always ends, it never lacks a value. What it reads of a vector's element lies in the vector's
data block but for one case: whether an optional POD is there is decided by a whole word, and a narrower
element at the end of the block leaves no room for it.
-/

namespace BStackRaii

open Worklist (Eval Steps)

variable {reg : RttiRegistry} {data : List UInt8} {seed : ReadOp} {m m' : ReadMachine} {v : Value}
  {n fuel : Nat}

/-! ### Runs -/

/-- The states of a read from `seed`, by the turns they take. -/
inductive RttiRegistry.Turns (reg : RttiRegistry) (data : List UInt8) (seed : ReadOp) : Nat → ReadMachine → Prop
  | start : Turns reg data seed 0 ⟨[seed], [], READ_BUDGET⟩
  | next {n : Nat} {m m' : ReadMachine} (h : Turns reg data seed n m) (hturn : reg.turn data m = some (.ok m')) :
      Turns reg data seed (n + 1) m'

theorem turns_iff : reg.Turns data seed n m ↔
    Steps (schema reg data) n ⟨[seed], [], RttiRegistry.READ_BUDGET⟩ m := by
  constructor
  · intro h
    induction h with
    | start => exact .refl _
    | next _ hturn ih => exact ih.tail (turn_iff.mp hturn)
  · suffices h : ∀ s, Steps (schema reg data) n s m → ∀ k, reg.Turns data seed k s → reg.Turns data seed (k + n) m from
      fun hsteps => Nat.zero_add n ▸ h _ hsteps 0 .start
    intro s hsteps
    induction hsteps with
    | refl s => exact fun k h => h
    | head hstep _ ih =>
        intro k h
        rw [← Nat.add_assoc, Nat.add_right_comm]
        exact ih (k + 1) (h.next (turn_iff.mpr hstep))

/-- A read that ends with a value runs to it. -/
theorem steps_of_loop (h : reg.loop data fuel m = some (.ok v)) :
    ∃ n b, Steps (schema reg data) n m ⟨[], [v], b⟩ := by
  induction fuel generalizing m with
  | zero => cases h
  | succ fuel ih =>
      rw [RttiRegistry.loop] at h
      cases hturn : reg.turn data m with
      | none =>
          rw [hturn] at h
          obtain ⟨work, results, budget⟩ := m
          cases work with
          | cons op work => cases hturn
          | nil =>
              match results, h with
              | [v'], h =>
                  cases h
                  exact ⟨0, budget, .refl _⟩
      | some out =>
          rw [hturn] at h
          cases out with
          | error e => cases h
          | ok m' =>
              obtain ⟨n, b, hrest⟩ := ih h
              exact ⟨n + 1, b, .head (turn_iff.mp hturn) hrest⟩

theorem loop_of_steps {b : Nat} (h : Steps (schema reg data) n m ⟨[], [v], b⟩) (hfuel : n < fuel) :
    reg.loop data fuel m = some (.ok v) := by
  generalize hend : (⟨[], [v], b⟩ : ReadMachine) = t at h
  induction h generalizing fuel with
  | refl s =>
      subst hend
      obtain ⟨fuel, rfl⟩ := Nat.exists_eq_add_of_lt hfuel
      rfl
  | head hstep _ ih =>
      obtain ⟨fuel, rfl⟩ : ∃ k, fuel = k + 1 := ⟨fuel - 1, by omega⟩
      rw [RttiRegistry.loop, turn_iff.mpr hstep]
      exact ih (by omega) hend

/-- With more fuel than budget, the loop ends. -/
theorem loop_total (hfuel : m.budget < fuel) :
    ∃ out, ∀ fuel', fuel ≤ fuel' → reg.loop data fuel' m = some out := by
  induction fuel generalizing m with
  | zero => omega
  | succ fuel ih =>
      have hloop : ∀ fuel', fuel + 1 ≤ fuel' → ∃ k, fuel ≤ k ∧ fuel' = k + 1 :=
        fun fuel' h => ⟨fuel' - 1, by omega, by omega⟩
      cases hturn : reg.turn data m with
      | none =>
          refine ⟨RttiRegistry.finish m.results, fun fuel' h => ?_⟩
          obtain ⟨k, -, rfl⟩ := hloop fuel' h
          rw [RttiRegistry.loop, hturn]
      | some out =>
          cases out with
          | error e =>
              refine ⟨.error e, fun fuel' h => ?_⟩
              obtain ⟨k, -, rfl⟩ := hloop fuel' h
              rw [RttiRegistry.loop, hturn]
          | ok m' =>
              have hlt := (turn_iff.mp hturn).budget_lt
              obtain ⟨out, hout⟩ := ih (m := m') (by omega)
              refine ⟨out, fun fuel' h => ?_⟩
              obtain ⟨k, hk, rfl⟩ := hloop fuel' h
              rw [RttiRegistry.loop, hturn]
              exact hout k hk

/-! ### Schemas as they are decoded -/

theorem loadType_readable {ord : RttiOrdinal} {ty : RttiType} (h : reg.loadType ord = .ok ty) : ty.Readable := by
  rw [RttiRegistry.loadType] at h
  split at h
  · cases h
  · obtain ⟨body, -, h⟩ := except_bind_ok.mp h
    exact (RttiType.decode_yields _).of_run h

def RttiBody.fields : RttiBody → List RttiField
  | .struct fields => fields
  | .enum e => e.variants.flatMap (·.fields)

/-- The seeds that `read_value` and `get` start from. -/
inductive RttiRegistry.Seed (reg : RttiRegistry) : ReadOp → Prop
  | block (ord : RttiOrdinal) (off : Nat) : Seed reg (.block ord off)
  | field {ord : RttiOrdinal} {ty : RttiType} {f : RttiField} (hty : reg.loadType ord = .ok ty)
      (hf : f ∈ ty.body.fields) (off : Nat) : Seed reg (.shape f.shape off)

def ReadOp.Decoded : ReadOp → Prop
  | shape s _ => ∃ levels, s.Readable levels
  | _ => True

theorem field_readable {ty : RttiType} (h : ty.Readable) {f : RttiField} (hf : f ∈ ty.body.fields) : f.Readable := by
  have hbody := h.body
  cases hcase : ty.body with
  | struct fields =>
      rw [hcase] at hbody hf
      exact hbody f hf
  | enum e =>
      rw [hcase] at hbody hf
      obtain ⟨v, hv, hf⟩ := List.mem_flatMap.mp hf
      exact hbody.2 v hv f hf

theorem RttiRegistry.Seed.job (h : reg.Seed seed) : seed.arity = none := by
  cases h <;> rfl

theorem RttiRegistry.Seed.decoded (h : reg.Seed seed) : seed.Decoded := by
  cases h with
  | block ord off => trivial
  | field hty hf off => exact ⟨_, field_readable (loadType_readable hty) hf⟩

theorem decoded_fieldItems {base : Nat} {fields : List RttiField} (h : ∀ f ∈ fields, f.Readable) :
    ∀ op ∈ fieldItems base fields, op.Decoded := by
  intro op hop
  obtain ⟨f, hf, rfl⟩ := List.mem_map.mp hop
  exact ⟨_, h f hf⟩

theorem decoded_elements {inner : Shape} {base stride : Nat} (h : ∃ levels, inner.Readable levels) :
    ∀ op ∈ elements inner base stride n, op.Decoded := by
  intro op hop
  obtain ⟨i, -, rfl⟩ := List.mem_map.mp hop
  exact h

theorem decoded_of_rule {op mark : ReadOp} {ops : List ReadOp} {c : Nat} (hop : op.Decoded)
    (h : reg.ReadRule data op (.node mark ops) c) : mark.Decoded ∧ ∀ op' ∈ ops, op'.Decoded := by
  cases h with
  | struct hty hbody _ =>
      refine ⟨trivial, decoded_fieldItems fun f hf => field_readable (loadType_readable hty) ?_⟩
      rw [hbody]
      exact hf
  | enum hty hbody hactive _ =>
      refine ⟨trivial, decoded_fieldItems fun f hf => field_readable (loadType_readable hty) ?_⟩
      obtain ⟨_, -, hfound⟩ := hactive.found
      rw [hbody]
      exact List.mem_flatMap.mpr ⟨_, List.mem_of_find?_eq_some hfound, hf⟩
  | some _ =>
      obtain ⟨levels, hlevels⟩ := hop
      refine ⟨trivial, fun op' hop' => ?_⟩
      rw [List.mem_singleton.mp hop']
      cases levels with
      | zero => cases hlevels
      | succ levels => exact ⟨levels, hlevels⟩
  | array _ _ =>
      obtain ⟨levels, hlevels⟩ := hop
      cases levels with
      | zero => cases hlevels
      | succ levels => exact ⟨trivial, decoded_elements ⟨levels, hlevels⟩⟩
  | vec _ _ _ _ _ _ _ _ _ =>
      obtain ⟨levels, hlevels⟩ := hop
      cases levels with
      | zero => cases hlevels
      | succ levels => exact ⟨trivial, decoded_elements ⟨levels, hlevels.2⟩⟩
  | tuple h =>
      obtain ⟨levels, hlevels⟩ := hop
      refine ⟨trivial, fun op' hop' => ?_⟩
      obtain ⟨item, hitem, off, rfl⟩ := h.mem op' hop'
      cases levels with
      | zero => cases hlevels
      | succ levels => exact ⟨levels, Shape.itemsReadable_iff.mp hlevels item hitem⟩

theorem decoded_of_turns (hseed : reg.Seed seed) (h : reg.Turns data seed n m) :
    ∀ op ∈ m.work, op.Decoded := by
  induction h with
  | start =>
      intro op hop
      rw [List.mem_singleton.mp hop]
      exact hseed.decoded
  | next _ hturn ih =>
      cases turn_iff.mp hturn with
      | leaf h => exact (List.forall_mem_cons.mp ih).2
      | jump h =>
          refine List.forall_mem_cons.mpr ⟨?_, (List.forall_mem_cons.mp ih).2⟩
          cases h <;> trivial
      | node h =>
          obtain ⟨hop, hwork⟩ := List.forall_mem_cons.mp ih
          obtain ⟨hmark, hops⟩ := decoded_of_rule hop h
          refine List.forall_mem_append.mpr ⟨fun op hmem => hops op (List.mem_reverse.mp hmem), ?_⟩
          exact List.forall_mem_cons.mpr ⟨hmark, hwork⟩
      | mark h => exact (List.forall_mem_cons.mp ih).2

/-! ### The slots of vectors -/

/-- Where `option_present` looks for a shape. -/
def Shape.niche (base : Nat) : Shape → Range
  | .foreign _ _ => ⟨base, FOREIGN_REPR_LEN⟩
  | _ => ⟨base, 8⟩

/-- What is read of a slot, up to the offsets in it: an option's niche, and the slot of what is in it. -/
def Shape.slotReads (base : Nat) : Shape → List Range
  | .pod width => [⟨base, width.toNat⟩]
  | .owned _ => [⟨base, 8⟩]
  | .strong _ => [⟨base, 8⟩]
  | .weak _ => [⟨base, 8⟩]
  | .ref _ => [⟨base, 8⟩]
  | .foreign _ _ => [⟨base, FOREIGN_REPR_LEN⟩]
  | .option inner => inner.niche base :: inner.slotReads base
  | .vec _ => [⟨base, VECDESC_LEN⟩]
  | _ => []

theorem execShape_local {s : Shape} {off : Nat} {data' : List UInt8} (hleaf : s.isVecElementLeaf = true)
    (hlen : data'.length = data.length)
    (hreads : ∀ r ∈ s.slotReads off, stackGet data' r.start r.len = stackGet data r.start r.len) :
    reg.execShape data' m s off = reg.execShape data m s off := by
  have hword : ⟨off, 8⟩ ∈ s.slotReads off → dataU64 data' off = dataU64 data off := fun hr => by
    rw [dataU64, hreads _ hr, dataU64]
  cases s with
  | pod width =>
      rw [RttiRegistry.execShape, hlen, hreads _ List.mem_cons_self]
      rfl
  | owned tag =>
      rw [RttiRegistry.execShape, RttiRegistry.followEdge, hword List.mem_cons_self]
      rfl
  | strong tag =>
      rw [RttiRegistry.execShape, RttiRegistry.followEdge, hword List.mem_cons_self]
      rfl
  | weak tag =>
      rw [RttiRegistry.execShape, RttiRegistry.recordRef, hword List.mem_cons_self]
      rfl
  | ref tag =>
      rw [RttiRegistry.execShape, RttiRegistry.recordRef, hword List.mem_cons_self]
      rfl
  | foreign tag kind =>
      have hwide : stackGet data' off 16 = stackGet data off 16 := hreads _ List.mem_cons_self
      rw [RttiRegistry.execShape, WidePtr.readFromStack, hwide]
      rfl
  | option inner =>
      have hpresent : inner.optionPresent data' off = inner.optionPresent data off := by
        cases inner with
        | foreign tag kind =>
            have hniche : stackGet data' off 16 = stackGet data off 16 := hreads _ List.mem_cons_self
            rw [Shape.optionPresent, WidePtr.readFromStack, hniche]
            rfl
        | _ =>
            have hniche : stackGet data' off 8 = stackGet data off 8 := hreads _ List.mem_cons_self
            simp only [Shape.optionPresent, dataU64, hniche]
      rw [RttiRegistry.execShape, hpresent]
      rfl
  | _ => cases hleaf

structure VecTurn (reg : RttiRegistry) (data : List UInt8) (m : ReadMachine) (inner : Shape)
    (dataOff dataSize stride len : Nat) : Prop where
  top : ∃ off work, m.work = .shape (.vec inner) off :: work ∧ dataU64 data off = .ok dataOff ∧
    dataU64 data (off + 8) = .ok dataSize
  placed : dataOff ≠ 0
  spaced : reg.shapeStride inner = .ok stride
  length : ∃ byteLen, dataU64 data dataOff = .ok byteLen ∧ checkedVecLen byteLen dataSize stride = .ok len
  taken : ∃ m', reg.turn data m = some (.ok m')

/-- What is read of the vector's elements lies in its data block. -/
def ElementsInside (inner : Shape) (dataOff dataSize stride len : Nat) : Prop :=
  ∀ i < len, ∀ r ∈ inner.slotReads (dataOff + RTTI_BYTEVEC_HEADER + i * stride),
    dataOff ≤ r.start ∧ r.stop ≤ dataOff + dataSize

/-- Behind an optional element narrower than a word, the data block has room for the word. -/
def NicheFits (inner : Shape) (dataSize stride len : Nat) : Prop :=
  ∀ s width, inner = .option s → inner.peelOption = .pod width → width.toNat < 8 → 0 < len →
    RTTI_BYTEVEC_HEADER + (len - 1) * stride + 8 ≤ dataSize

theorem shapeStride_peel (reg : RttiRegistry) : ∀ s : Shape, reg.shapeStride s = reg.shapeStride s.peelOption
  | .option s => by
      rw [RttiRegistry.shapeStride, Shape.peelOption]
      exact shapeStride_peel reg s
  | .pod _ | .owned _ | .strong _ | .weak _ | .ref _ | .embed _ | .foreign _ _ | .array _ _ | .vec _
  | .tuple _ | .classVar _ _ _ => rfl

theorem stride_of_leaf {s : Shape} {stride : Nat} (hleaf : s.isVecElementLeaf = true)
    (hstride : reg.shapeStride s = .ok stride) :
    8 ≤ stride ∨ ∃ width, s.peelOption = .pod width ∧ width.toNat < 8 := by
  rw [shapeStride_peel] at hstride
  rw [Shape.isVecElementLeaf] at hleaf
  cases hpeel : s.peelOption with
  | pod width =>
      rw [hpeel, RttiRegistry.shapeStride] at hstride
      cases hstride
      by_cases hnarrow : width.toNat < 8
      · exact .inr ⟨width, rfl, hnarrow⟩
      · exact .inl (by omega)
  | owned tag =>
      rw [hpeel, RttiRegistry.shapeStride] at hstride
      cases hstride
      exact .inl (Nat.le_refl 8)
  | strong tag =>
      rw [hpeel, RttiRegistry.shapeStride] at hstride
      cases hstride
      exact .inl (Nat.le_refl 8)
  | weak tag =>
      rw [hpeel, RttiRegistry.shapeStride] at hstride
      cases hstride
      exact .inl (Nat.le_refl 8)
  | ref tag =>
      rw [hpeel, RttiRegistry.shapeStride] at hstride
      cases hstride
      exact .inl (Nat.le_refl 8)
  | foreign tag kind =>
      rw [hpeel, RttiRegistry.shapeStride] at hstride
      cases hstride
      exact .inl (by decide)
  | _ =>
      rw [hpeel] at hleaf
      cases hleaf

/-- A read of a leaf's slot stays in the slot, but for the niche of a narrow POD. -/
theorem slotReads_of_leaf {stride base : Nat} : ∀ {s : Shape}, s.isVecElementLeaf = true →
    reg.shapeStride s = .ok stride → ∀ r ∈ s.slotReads base, r.start = base ∧ (r.len ≤ stride ∨
      r.len = 8 ∧ ∃ s' width, s = .option s' ∧ s.peelOption = .pod width ∧ width.toNat < 8)
  | .option s, hleaf, hstride, r, hr => by
      have hleaf' : s.isVecElementLeaf = true := hleaf
      have hstride' : reg.shapeStride s = .ok stride := by
        rw [RttiRegistry.shapeStride] at hstride
        exact hstride
      rcases List.mem_cons.mp hr with rfl | hr
      · by_cases hforeign : ∃ tag kind, s = .foreign tag kind
        · obtain ⟨tag, kind, rfl⟩ := hforeign
          rw [RttiRegistry.shapeStride] at hstride'
          cases hstride'
          exact ⟨rfl, .inl (Nat.le_refl _)⟩
        · have hniche : s.niche base = ⟨base, 8⟩ := by
            cases s with
            | foreign tag kind => exact absurd ⟨tag, kind, rfl⟩ hforeign
            | _ => rfl
          rw [hniche]
          refine ⟨rfl, ?_⟩
          rcases stride_of_leaf hleaf' hstride' with hwide | ⟨width, hpeel, hnarrow⟩
          · exact .inl hwide
          · exact .inr ⟨rfl, s, width, rfl, hpeel, hnarrow⟩
      · obtain ⟨hstart, hlen | ⟨hlen, s', width, -, hpeel, hnarrow⟩⟩ := slotReads_of_leaf hleaf' hstride' r hr
        · exact ⟨hstart, .inl hlen⟩
        · exact ⟨hstart, .inr ⟨hlen, s, width, rfl, hpeel, hnarrow⟩⟩
  | .pod _, _, hstride, r, hr | .owned _, _, hstride, r, hr | .strong _, _, hstride, r, hr
  | .weak _, _, hstride, r, hr | .ref _, _, hstride, r, hr | .foreign _ _, _, hstride, r, hr => by
      rw [RttiRegistry.shapeStride] at hstride
      cases hstride
      rw [List.mem_singleton.mp hr]
      exact ⟨rfl, .inl (Nat.le_refl _)⟩
  | .embed _, hleaf, _, _, _ | .array _ _, hleaf, _, _, _ | .vec _, hleaf, _, _, _ | .tuple _, hleaf, _, _, _
  | .classVar _ _ _, hleaf, _, _, _ => by cases hleaf

/-- The elements of a vector fill no more than its data block. -/
theorem checkedVecLen_le {byteLen dataSize stride len : Nat}
    (h : checkedVecLen byteLen dataSize stride = .ok len) :
    len * stride ≤ dataSize - RTTI_BYTEVEC_HEADER ∧ (0 < len → 0 < stride) := by
  rw [checkedVecLen] at h
  split at h
  · cases h
  · rename_i hle
    cases h
    refine ⟨(Nat.div_mul_le_self byteLen stride).trans (Nat.not_lt.mp hle), fun hpos => ?_⟩
    by_contra hzero
    rw [Nat.eq_zero_of_not_pos hzero, Nat.div_zero] at hpos
    exact Nat.lt_irrefl 0 hpos

/-- The elements of a vector are read inside of its data block if and only if the niche of the last is. -/
theorem elementsInside_iff {inner : Shape} {dataOff dataSize stride len : Nat}
    (hleaf : inner.isVecElementLeaf = true) (hstride : reg.shapeStride inner = .ok stride)
    (hlen : len * stride ≤ dataSize - RTTI_BYTEVEC_HEADER) (hpos : 0 < len → 0 < stride) :
    ElementsInside inner dataOff dataSize stride len ↔ NicheFits inner dataSize stride len := by
  constructor
  · rintro h s width rfl hpeel hnarrow hsome
    have hniche : s.niche (dataOff + RTTI_BYTEVEC_HEADER + (len - 1) * stride) =
        ⟨dataOff + RTTI_BYTEVEC_HEADER + (len - 1) * stride, 8⟩ := by
      cases s with
      | foreign tag kind => cases hpeel
      | _ => rfl
    have hlast := (h (len - 1) (by omega) _ List.mem_cons_self).2
    rw [hniche, Range.stop] at hlast
    simp only at hlast
    omega
  · intro h i hi r hr
    obtain ⟨hstart, hread⟩ := slotReads_of_leaf hleaf hstride r hr
    rw [Range.stop, hstart]
    refine ⟨by omega, ?_⟩
    rcases hread with hread | ⟨hread, s, width, hoption, hpeel, hnarrow⟩
    · have hmul : (i + 1) * stride ≤ len * stride := Nat.mul_le_mul_right _ hi
      rw [Nat.succ_mul] at hmul
      have := hpos (by omega)
      omega
    · have hfits := h s width hoption hpeel hnarrow (by omega)
      have hmul : i * stride ≤ (len - 1) * stride := Nat.mul_le_mul_right _ (by omega)
      omega

/-! ### One read -/

/-- What the interpreter promises of a read from `seed`: it ends within the budget, with the value of the
direct reading if that fits the budget; every marker finds its values, and one is left; and no element of a
vector is read outside of the vector's data block. -/
structure ReadsExactly (reg : RttiRegistry) (data : List UInt8) (seed : ReadOp) : Prop where
  ends : ∃ out, ∀ fuel, RttiRegistry.READ_BUDGET < fuel → reg.runRead data fuel seed = some out
  exact : ∀ v fuel, RttiRegistry.READ_BUDGET < fuel →
    (reg.runRead data fuel seed = some (.ok v) ↔ ∃ c, c ≤ RttiRegistry.READ_BUDGET ∧ Eval (schema reg data) seed v c)
  bounded : ∀ n m, reg.Turns data seed n m → n ≤ RttiRegistry.READ_BUDGET
  filled : ∀ n m op work k, reg.Turns data seed n m → m.work = op :: work → op.arity = some k → k ≤ m.results.length
  single : ∀ n m, reg.Turns data seed n m → m.work = [] → m.results.length = 1
  inside : ∀ n m inner dataOff dataSize stride len, reg.Turns data seed n m →
    VecTurn reg data m inner dataOff dataSize stride len → ElementsInside inner dataOff dataSize stride len

/-- All but the last of it holds of every read. -/
theorem runRead_exact (hseed : reg.Seed seed) {v : Value} (hfuel : RttiRegistry.READ_BUDGET < fuel) :
    reg.runRead data fuel seed = some (.ok v) ↔
      ∃ c, c ≤ RttiRegistry.READ_BUDGET ∧ Eval (schema reg data) seed v c := by
  rw [← Worklist.steps_iff (S := schema reg data) hseed.job]
  constructor
  · exact steps_of_loop
  · rintro ⟨n, b, hsteps⟩
    have hle := hsteps.budget_le
    exact loop_of_steps hsteps (by simp only at hle; omega)

theorem balanced_of_turns (hseed : reg.Seed seed) (h : reg.Turns data seed n m) :
    Worklist.Balanced (schema reg data) m.work m.results.length := by
  refine (turns_iff.mp h).balanced ?_
  exact (Worklist.balanced_job (S := schema reg data) hseed.job).mpr rfl

/-- In every state of a read, what a vector's turn reads is inside exactly where its niches fit. -/
theorem elementsInside_of_turn {inner : Shape} {dataOff dataSize stride len : Nat} (hseed : reg.Seed seed)
    (h : reg.Turns data seed n m) (hvec : VecTurn reg data m inner dataOff dataSize stride len) :
    ElementsInside inner dataOff dataSize stride len ↔ NicheFits inner dataSize stride len := by
  obtain ⟨off, work, htop, -⟩ := hvec.top
  obtain ⟨levels, hlevels⟩ := decoded_of_turns hseed h (.shape (.vec inner) off) (htop ▸ List.mem_cons_self)
  obtain ⟨byteLen, -, hlen⟩ := hvec.length
  obtain ⟨hle, hpos⟩ := checkedVecLen_le hlen
  cases levels with
  | zero => cases hlevels
  | succ levels => exact elementsInside_iff hlevels.1 hvec.spaced hle hpos

/-- A read by a schema is exact if and only if every vector it takes apart has room for the niche of its
last element. -/
theorem read_exact_iff (hseed : reg.Seed seed) : ReadsExactly reg data seed ↔
    ∀ n m inner dataOff dataSize stride len, reg.Turns data seed n m →
      VecTurn reg data m inner dataOff dataSize stride len → NicheFits inner dataSize stride len := by
  constructor
  · intro h n m inner dataOff dataSize stride len hturns hvec
    exact (elementsInside_of_turn hseed hturns hvec).mp (h.inside n m _ _ _ _ _ hturns hvec)
  · intro h
    refine ⟨?_, fun v fuel hfuel => runRead_exact hseed hfuel, ?_, ?_, ?_, ?_⟩
    · exact loop_total (m := ⟨[seed], [], RttiRegistry.READ_BUDGET⟩) (Nat.lt_succ_self _)
    · intro n m hturns
      have hle := (turns_iff.mp hturns).budget_le
      simp only at hle
      omega
    · intro n m op work k hturns hwork harity
      have hbalanced := balanced_of_turns hseed hturns
      rw [hwork] at hbalanced
      exact ((Worklist.balanced_mark (S := schema reg data) harity).mp hbalanced).1
    · intro n m hturns hwork
      have hbalanced := balanced_of_turns hseed hturns
      rwa [hwork] at hbalanced
    · intro n m inner dataOff dataSize stride len hturns hvec
      exact (elementsInside_of_turn hseed hturns hvec).mpr (h n m _ _ _ _ _ hturns hvec)

/-! ### A condition that can be computed -/

/-- The vector that is taken apart next, if there is one, has room for a word at its last element. -/
def RttiRegistry.roomAt (reg : RttiRegistry) (data : List UInt8) (m : ReadMachine) : Bool :=
  match m.work with
  | .shape (.vec inner) off :: _ =>
      let room : Option Bool := do
        let dataOff ← (dataU64 data off).toOption
        let dataSize ← (dataU64 data (off + 8)).toOption
        let stride ← (reg.shapeStride inner).toOption
        let byteLen ← (dataU64 data dataOff).toOption
        let len ← (checkedVecLen byteLen dataSize stride).toOption
        pure (len = 0 || RTTI_BYTEVEC_HEADER + (len - 1) * stride + 8 ≤ dataSize)
      room.getD true
  | _ => true

/-- So it is in every state of the read, which ends within `fuel` turns. -/
def RttiRegistry.roomy (reg : RttiRegistry) (data : List UInt8) : Nat → ReadMachine → Bool
  | 0, _ => false
  | fuel + 1, m => reg.roomAt data m && match reg.turn data m with
      | some (.ok m') => reg.roomy data fuel m'
      | _ => true

theorem nicheFits_of_roomAt {inner : Shape} {dataOff dataSize stride len : Nat} (h : reg.roomAt data m = true)
    (hvec : VecTurn reg data m inner dataOff dataSize stride len) : NicheFits inner dataSize stride len := by
  obtain ⟨off, work, hwork, hdata, hsize⟩ := hvec.top
  obtain ⟨byteLen, hbyteLen, hlen⟩ := hvec.length
  rw [RttiRegistry.roomAt, hwork] at h
  simp only [hdata, hsize, hvec.spaced, hbyteLen, hlen, Except.toOption, Option.pure_def, Option.bind_eq_bind,
    Option.bind_some, Option.getD_some, Bool.or_eq_true, decide_eq_true_eq] at h
  intro s width _ _ _ hpos
  omega

theorem roomAt_of_turns (h : reg.roomy data fuel ⟨[seed], [], RttiRegistry.READ_BUDGET⟩ = true)
    (hturns : reg.Turns data seed n m) : reg.roomAt data m = true := by
  suffices hroomy : ∃ k, reg.roomy data k m = true by
    obtain ⟨k, hroomy⟩ := hroomy
    cases k with
    | zero => cases hroomy
    | succ k => exact (Bool.and_eq_true_iff.mp hroomy).1
  induction hturns with
  | start => exact ⟨fuel, h⟩
  | next _ hturn ih =>
      obtain ⟨k, hroomy⟩ := ih
      cases k with
      | zero => cases hroomy
      | succ k =>
          have hrest := (Bool.and_eq_true_iff.mp hroomy).2
          rw [hturn] at hrest
          exact ⟨k, hrest⟩

def narrowType : RttiType :=
  ⟨.zero, "a", false, false, none, 32, .struct [⟨"v", 16, .vec (.option (.pod 1))⟩]⟩

def narrowRegistry : RttiRegistry :=
  match (⟨[], [], fun _ => none⟩ : RttiRegistry).append narrowType with
  | .ok (_, reg) => reg
  | .error _ => ⟨[], [], fun _ => none⟩

/-- The block at 16, and the vector's data block at 48, of 17 bytes: one element, whose byte is zero. The
bytes of another block follow. -/
def narrowData : List UInt8 :=
  List.replicate 32 0 ++ leBytes 8 48 ++ leBytes 8 17 ++ leBytes 8 1 ++ leBytes 8 1 ++ [0] ++ List.replicate 7 1

/-- The same block, whose vector has a data block of 24 bytes. -/
def roomyData : List UInt8 :=
  List.replicate 32 0 ++ leBytes 8 48 ++ leBytes 8 24 ++ leBytes 8 1 ++ leBytes 8 1 ++ [1] ++ List.replicate 7 0

theorem read_exact_iff_narrow : ReadsExactly narrowRegistry roomyData (.block 0 16) := by
  have hroomy : narrowRegistry.roomy roomyData 9 ⟨[.block 0 16], [], RttiRegistry.READ_BUDGET⟩ = true := by
    decide +kernel
  refine (read_exact_iff (.block 0 16)).mpr fun n m _ _ _ _ _ hturns hvec => ?_
  exact nicheFits_of_roomAt (roomAt_of_turns hroomy hturns) hvec

theorem loadType_narrow : narrowRegistry.loadType 0 = .ok narrowType := by
  have h : (narrowRegistry.loadType 0).toOption = some narrowType := by decide +kernel
  cases hload : narrowRegistry.loadType 0 with
  | error e =>
      rw [hload] at h
      cases h
  | ok ty =>
      rw [hload] at h
      exact congrArg Except.ok (Option.some.inj h)

/-- The element's niche is read from 64 on, seven bytes past the end of its data block. -/
theorem niche_read_outside : ¬ ReadsExactly narrowRegistry narrowData (.block 0 16) := by
  intro h
  have hstruct : narrowRegistry.ReadRule narrowData (.block 0 16)
      (.node (.makeBlock .zero ["v"]) [.shape (.vec (.option (.pod 1))) 32]) 0 :=
    .struct loadType_narrow rfl (by decide)
  have hslot : narrowRegistry.ReadRule narrowData (.shape (.vec (.option (.pod 1))) 32)
      (.node (.makeVec 1) [.shape (.option (.pod 1)) 64]) 1 :=
    .vec (show dataU64 narrowData 32 = .ok 48 from rfl) (by decide) (by decide)
      (show dataU64 narrowData 40 = .ok 17 from rfl) (by decide)
      (show narrowRegistry.shapeStride (.option (.pod 1)) = .ok 1 from rfl)
      (show dataU64 narrowData 48 = .ok 1 from rfl) (show checkedVecLen 1 17 1 = .ok 1 from rfl) (by decide)
  have hblock := Worklist.Step.node (S := schema narrowRegistry narrowData) (b := 3999999) (w := []) (r := []) hstruct
  have hvec := Worklist.Step.node (S := schema narrowRegistry narrowData) (b := 3999997)
    (w := [.makeBlock .zero ["v"]]) (r := []) hslot
  have hturns : narrowRegistry.Turns narrowData (.block 0 16) 1
      ⟨[.shape (.vec (.option (.pod 1))) 32, .makeBlock .zero ["v"]], [], 3999999⟩ :=
    .next .start (turn_iff.mpr hblock)
  have hturn : VecTurn narrowRegistry narrowData
      ⟨[.shape (.vec (.option (.pod 1))) 32, .makeBlock .zero ["v"]], [], 3999999⟩ (.option (.pod 1)) 48 17 1 1 :=
    ⟨⟨32, _, rfl, rfl, rfl⟩, by decide, rfl, ⟨1, rfl, rfl⟩, _, turn_iff.mpr hvec⟩
  have hread := h.inside 1 _ _ _ _ _ _ hturns hturn 0 (by decide) ⟨64, 8⟩ List.mem_cons_self
  exact absurd hread.2 (by decide)

end BStackRaii
