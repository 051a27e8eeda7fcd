import BStackRaii.Proof.Read.Rules
/-!
# A turn of the loop is a step of the reading

The interpreter's arms against the rules, one item at a time: it takes an item apart if and only if a rule
does, the budget allowing, and it puts a marker's values together if they are there.
-/

namespace BStackRaii

open Worklist (Node)

/-! ### Checked arithmetic -/

variable {a b c n : Nat}

theorem addOff_ok : addOff a b = .ok c ↔ a + b < 2 ^ 64 ∧ a + b = c := by
  rw [addOff]
  split
  · rename_i h
    exact ⟨fun heq => ⟨h, Except.ok.inj heq⟩, fun heq => congrArg Except.ok heq.2⟩
  · rename_i h
    exact ⟨nofun, fun heq => absurd heq.1 h⟩

theorem mulOff_ok : mulOff a b = .ok c ↔ a * b < 2 ^ 64 ∧ a * b = c := by
  rw [mulOff]
  split
  · rename_i h
    exact ⟨fun heq => ⟨h, Except.ok.inj heq⟩, fun heq => congrArg Except.ok heq.2⟩
  · rename_i h
    exact ⟨nofun, fun heq => absurd heq.1 h⟩

/-- A list of steps that each succeed on a condition. -/
theorem mapM_ok {α β ε : Type} {f : α → Except ε β} {P : α → Prop} {g : α → β}
    (hf : ∀ x y, f x = .ok y ↔ P x ∧ g x = y) {xs : List α} {ys : List β} :
    xs.mapM f = .ok ys ↔ (∀ x ∈ xs, P x) ∧ xs.map g = ys := by
  induction xs generalizing ys with
  | nil =>
      rw [List.mapM_nil]
      exact ⟨fun h => ⟨nofun, Except.ok.inj h⟩, fun h => congrArg Except.ok h.2⟩
  | cons x xs ih =>
      rw [List.mapM_cons, except_bind_ok]
      constructor
      · rintro ⟨y, hy, h⟩
        obtain ⟨ys', hys, h⟩ := except_bind_ok.mp h
        obtain ⟨hx, rfl⟩ := (hf x y).mp hy
        obtain ⟨hxs, rfl⟩ := ih.mp hys
        cases h
        exact ⟨List.forall_mem_cons.mpr ⟨hx, hxs⟩, rfl⟩
      · rintro ⟨hall, rfl⟩
        obtain ⟨hx, hxs⟩ := List.forall_mem_cons.mp hall
        exact ⟨g x, (hf x _).mpr ⟨hx, rfl⟩, except_bind_ok.mpr ⟨xs.map g, ih.mpr ⟨hxs, rfl⟩, rfl⟩⟩

theorem fieldOps_ok {base : Nat} {fields : List RttiField} {ops : List ReadOp} :
    fieldOps base fields = .ok ops ↔
      (∀ f ∈ fields, base + f.offset.toNat < 2 ^ 64) ∧ fieldItems base fields = ops := by
  refine mapM_ok fun f op => ?_
  rw [except_bind_ok]
  constructor
  · rintro ⟨off, hoff, h⟩
    obtain ⟨hlt, rfl⟩ := addOff_ok.mp hoff
    exact ⟨hlt, Except.ok.inj h⟩
  · rintro ⟨hlt, rfl⟩
    exact ⟨_, addOff_ok.mpr ⟨hlt, rfl⟩, rfl⟩

theorem elementOps_ok {inner : Shape} {base stride : Nat} {ops : List ReadOp} :
    elementOps inner base stride n = .ok ops ↔
      (∀ i < n, base + i * stride < 2 ^ 64) ∧ elements inner base stride n = ops := by
  have hall : (∀ i ∈ List.range n, base + i * stride < 2 ^ 64) ↔ ∀ i < n, base + i * stride < 2 ^ 64 := by
    simp only [List.mem_range]
  rw [← hall]
  refine mapM_ok fun i op => ?_
  rw [except_bind_ok]
  constructor
  · rintro ⟨rel, hrel, h⟩
    obtain ⟨-, rfl⟩ := mulOff_ok.mp hrel
    obtain ⟨off, hoff, h⟩ := except_bind_ok.mp h
    obtain ⟨hlt, rfl⟩ := addOff_ok.mp hoff
    exact ⟨hlt, Except.ok.inj h⟩
  · rintro ⟨hlt, rfl⟩
    exact ⟨_, mulOff_ok.mpr ⟨by omega, rfl⟩, except_bind_ok.mpr ⟨_, addOff_ok.mpr ⟨hlt, rfl⟩, rfl⟩⟩

variable {reg : RttiRegistry} {data : List UInt8}

theorem tupleOps_ok {off : Nat} {items : List Shape} {ops : List ReadOp} :
    reg.tupleOps off items = .ok ops ↔ reg.TupleAt off items ops := by
  induction items generalizing off ops with
  | nil =>
      constructor
      · intro h
        cases h
        exact .nil off
      · intro h
        cases h
        rfl
  | cons item items ih =>
      rw [RttiRegistry.tupleOps, except_bind_ok]
      constructor
      · rintro ⟨stride, hstride, h⟩
        obtain ⟨off', hoff, h⟩ := except_bind_ok.mp h
        obtain ⟨hlt, rfl⟩ := addOff_ok.mp hoff
        obtain ⟨ops', hops, h⟩ := except_bind_ok.mp h
        cases h
        exact .cons hstride hlt (ih.mp hops)
      · intro h
        cases h with
        | cons hstride hlt h =>
            refine ⟨_, hstride, except_bind_ok.mpr ⟨_, addOff_ok.mpr ⟨hlt, rfl⟩, ?_⟩⟩
            exact except_bind_ok.mpr ⟨_, ih.mpr h, rfl⟩

/-! ### Variants -/

theorem and_discMask {width : Nat} (h : width ≤ 8) (v : Nat) :
    v &&& discMask width = v % 2 ^ (8 * width) := by
  rw [discMask]
  split
  · have hwidth : width = 8 := by omega
    rw [hwidth]
    exact Nat.and_two_pow_sub_one_eq_mod v 64
  · rw [Nat.mul_comm 8]
    exact Nat.and_two_pow_sub_one_eq_mod v (width * 8)

theorem resolveVariant_ok {e : RttiEnum} {off base : Nat} {v : RttiVariant} :
    e.resolveVariant data off = .ok (v, base) ↔ e.Active data off v ∧ off + e.payloadOff.toNat = base := by
  have hfind : e.discWidth.toNat ≤ 8 → ∀ raw, (e.variants.find? fun v =>
      v.discValue.toUInt64.toNat &&& discMask e.discWidth.toNat = raw) =
      e.variants.find? fun v => v.discValue.toUInt64.toNat % 2 ^ (8 * e.discWidth.toNat) = raw := by
    intro hwidth raw
    congr 1
    funext v
    rw [and_discMask hwidth]
  rw [RttiEnum.resolveVariant, except_bind_ok]
  constructor
  · rintro ⟨discAt, hdisc, h⟩
    obtain ⟨hdiscLt, rfl⟩ := addOff_ok.mp hdisc
    obtain ⟨raw, hraw, h⟩ := except_bind_ok.mp h
    rw [readDisc] at hraw
    split at hraw
    · cases hraw
    rename_i hwidth
    have hwidth : e.discWidth.toNat ≤ 8 := by omega
    cases hbytes : stackGet data (off + e.discOff.toNat) e.discWidth.toNat with
    | error err =>
        rw [hbytes] at hraw
        cases hraw
    | ok bytes =>
        rw [hbytes] at hraw
        cases hraw
        simp only [hfind hwidth] at h
        cases hv : e.variants.find? fun v =>
            v.discValue.toUInt64.toNat % 2 ^ (8 * e.discWidth.toNat) = leNat bytes with
        | none =>
            rw [hv] at h
            cases h
        | some v' =>
            rw [hv] at h
            obtain ⟨base', hbase, h⟩ := except_bind_ok.mp h
            obtain ⟨hlt, rfl⟩ := addOff_ok.mp hbase
            cases h
            exact ⟨⟨hdiscLt, hwidth, hlt, bytes, hbytes, hv⟩, rfl⟩
  · rintro ⟨⟨hdiscLt, hwidth, hlt, bytes, hbytes, hv⟩, rfl⟩
    refine ⟨_, addOff_ok.mpr ⟨hdiscLt, rfl⟩, except_bind_ok.mpr ⟨leNat bytes, ?_, ?_⟩⟩
    · rw [readDisc, if_neg (by omega), hbytes]
      rfl
    · simp only [hfind hwidth, hv]
      exact except_bind_ok.mpr ⟨_, addOff_ok.mpr ⟨hlt, rfl⟩, rfl⟩

/-! ### Items -/

theorem stackGet_le {off : Nat} {bytes : List UInt8} (h : stackGet data off n = .ok bytes) :
    off + n ≤ data.length := by
  rw [stackGet] at h
  split at h
  · assumption
  · cases h

variable {m m' : ReadMachine} {op : ReadOp} {node : Node ReadOp Value}

def ReadMachine.land (m : ReadMachine) (c : Nat) : Node ReadOp Value → ReadMachine
  | .leaf v => { m.push v with budget := m.budget - c }
  | .jump op => { m.pushOp op with budget := m.budget - c }
  | .node mark ops => { m.pushNode mark ops with budget := m.budget - c }

theorem charge_ok : m.charge n = .ok m' ↔ n ≤ m.budget ∧ { m with budget := m.budget - n } = m' := by
  rw [ReadMachine.charge]
  split
  · rename_i h
    exact ⟨fun heq => ⟨h, Except.ok.inj heq⟩, fun heq => congrArg Except.ok heq.2⟩
  · rename_i h
    exact ⟨nofun, fun heq => absurd heq.1 h⟩

theorem popN_ok {vs : List Value} : m.popN n = .ok (vs, m') ↔
    n ≤ m.results.length ∧ m.results.take n = vs ∧ { m with results := m.results.drop n } = m' := by
  rw [ReadMachine.popN]
  split
  · rename_i h
    refine ⟨fun heq => ?_, fun heq => ?_⟩
    · cases heq
      exact ⟨h, rfl, rfl⟩
    · obtain ⟨-, rfl, rfl⟩ := heq
      rfl
  · rename_i h
    exact ⟨nofun, fun heq => absurd heq.1 h⟩

/-- The rules are followed where the budget allows. -/
theorem exec_of_rule (h : reg.ReadRule data op node c) (hc : c ≤ m.budget) :
    reg.exec data m op = .ok (m.land c node) := by
  cases h with
  | struct hty hbody hlt =>
      refine except_bind_ok.mpr ⟨_, hty, ?_⟩
      simp only [hbody]
      exact except_bind_ok.mpr ⟨_, fieldOps_ok.mpr ⟨hlt, rfl⟩, rfl⟩
  | enum hty hbody hactive hlt =>
      refine except_bind_ok.mpr ⟨_, hty, ?_⟩
      simp only [hbody]
      refine except_bind_ok.mpr ⟨_, resolveVariant_ok.mpr ⟨hactive, rfl⟩, ?_⟩
      exact except_bind_ok.mpr ⟨_, fieldOps_ok.mpr ⟨hlt, rfl⟩, rfl⟩
  | pod h =>
      have hlen := stackGet_le h
      rw [RttiRegistry.exec, RttiRegistry.execShape, if_neg (by omega)]
      exact except_bind_ok.mpr ⟨_, h, rfl⟩
  | classVar => rfl
  | noChild hs h =>
      rcases hs with rfl | rfl <;> exact except_bind_ok.mpr ⟨0, h, rfl⟩
  | child hs h hne hord =>
      rename_i s tag off target ord
      have hfollow : reg.followEdge data m tag off = .ok (m.pushOp (.block ord target)) := by
        refine except_bind_ok.mpr ⟨_, h, ?_⟩
        rw [if_neg hne, hord]
        rfl
      rcases hs with rfl | rfl <;> exact hfollow
  | embed hord =>
      rw [RttiRegistry.exec, RttiRegistry.execShape, hord]
      rfl
  | ref hs h =>
      rcases hs with rfl | rfl <;> exact except_bind_ok.mpr ⟨_, h, rfl⟩
  | foreign h => exact except_bind_ok.mpr ⟨_, h, rfl⟩
  | none h => exact except_bind_ok.mpr ⟨_, h, rfl⟩
  | some h => exact except_bind_ok.mpr ⟨_, h, rfl⟩
  | array hstride hlt =>
      refine except_bind_ok.mpr ⟨_, charge_ok.mpr ⟨hc, rfl⟩, except_bind_ok.mpr ⟨_, hstride, ?_⟩⟩
      exact except_bind_ok.mpr ⟨_, elementOps_ok.mpr ⟨hlt, rfl⟩, rfl⟩
  | noVec h => exact except_bind_ok.mpr ⟨0, h, rfl⟩
  | vec h hne hlt hsize hbase hstride hbyteLen hlen helem =>
      refine except_bind_ok.mpr ⟨_, h, ?_⟩
      rw [if_neg hne]
      refine except_bind_ok.mpr ⟨_, addOff_ok.mpr ⟨hlt, rfl⟩, except_bind_ok.mpr ⟨_, hsize, ?_⟩⟩
      refine except_bind_ok.mpr ⟨_, addOff_ok.mpr ⟨hbase, rfl⟩, except_bind_ok.mpr ⟨_, hstride, ?_⟩⟩
      refine except_bind_ok.mpr ⟨_, hbyteLen, except_bind_ok.mpr ⟨_, hlen, ?_⟩⟩
      refine except_bind_ok.mpr ⟨_, charge_ok.mpr ⟨hc, rfl⟩, ?_⟩
      exact except_bind_ok.mpr ⟨_, elementOps_ok.mpr ⟨helem, rfl⟩, rfl⟩
  | tuple h => exact except_bind_ok.mpr ⟨_, tupleOps_ok.mpr h, rfl⟩

theorem rule_of_followEdge {s : Shape} {tag : EightCC} {off : Nat} (hs : s = .owned tag ∨ s = .strong tag)
    (h : reg.followEdge data m tag off = .ok m') :
    ∃ node c, reg.ReadRule data (.shape s off) node c ∧ c ≤ m.budget ∧ m.land c node = m' := by
  obtain ⟨target, htarget, h⟩ := except_bind_ok.mp h
  split at h
  · rename_i hzero
    rw [hzero] at htarget
    exact ⟨_, 0, .noChild hs htarget, Nat.zero_le _, Except.ok.inj h⟩
  · rename_i hne
    cases hord : reg.ordinalOf tag with
    | none =>
        rw [hord] at h
        cases h
    | some ord =>
        rw [hord] at h
        exact ⟨_, 0, .child hs htarget hne hord, Nat.zero_le _, Except.ok.inj h⟩

theorem rule_of_exec (hjob : op.arity = none) (h : reg.exec data m op = .ok m') :
    ∃ node c, reg.ReadRule data op node c ∧ c ≤ m.budget ∧ m.land c node = m' := by
  cases op with
  | block ord off =>
      obtain ⟨ty, hty, h⟩ := except_bind_ok.mp h
      cases hbody : ty.body with
      | struct fields =>
          simp only [hbody] at h
          obtain ⟨ops, hops, h⟩ := except_bind_ok.mp h
          obtain ⟨hlt, rfl⟩ := fieldOps_ok.mp hops
          exact ⟨_, 0, .struct hty hbody hlt, Nat.zero_le _, Except.ok.inj h⟩
      | enum e =>
          simp only [hbody] at h
          obtain ⟨⟨v, base⟩, hv, h⟩ := except_bind_ok.mp h
          obtain ⟨hactive, rfl⟩ := resolveVariant_ok.mp hv
          obtain ⟨ops, hops, h⟩ := except_bind_ok.mp h
          obtain ⟨hlt, rfl⟩ := fieldOps_ok.mp hops
          exact ⟨_, 0, .enum hty hbody hactive hlt, Nat.zero_le _, Except.ok.inj h⟩
  | shape s off =>
      rw [RttiRegistry.exec] at h
      cases s with
      | pod width =>
          rw [RttiRegistry.execShape] at h
          split at h
          · cases h
          · obtain ⟨bytes, hbytes, h⟩ := except_bind_ok.mp h
            exact ⟨_, 0, .pod hbytes, Nat.zero_le _, Except.ok.inj h⟩
      | classVar mutable inner value => exact ⟨_, 0, .classVar, Nat.zero_le _, Except.ok.inj h⟩
      | owned tag => exact rule_of_followEdge (.inl rfl) h
      | strong tag => exact rule_of_followEdge (.inr rfl) h
      | embed tag =>
          rw [RttiRegistry.execShape] at h
          cases hord : reg.ordinalOf tag with
          | none =>
              rw [hord] at h
              cases h
          | some ord =>
              rw [hord] at h
              exact ⟨_, 0, .embed hord, Nat.zero_le _, Except.ok.inj h⟩
      | weak tag =>
          obtain ⟨target, htarget, h⟩ := except_bind_ok.mp h
          exact ⟨_, 0, .ref (.inl rfl) htarget, Nat.zero_le _, Except.ok.inj h⟩
      | ref tag =>
          obtain ⟨target, htarget, h⟩ := except_bind_ok.mp h
          exact ⟨_, 0, .ref (.inr rfl) htarget, Nat.zero_le _, Except.ok.inj h⟩
      | foreign tag kind =>
          obtain ⟨p, hp, h⟩ := except_bind_ok.mp h
          exact ⟨_, 0, .foreign hp, Nat.zero_le _, Except.ok.inj h⟩
      | option inner =>
          obtain ⟨present, hpresent, h⟩ := except_bind_ok.mp h
          cases present with
          | false => exact ⟨_, 0, .none hpresent, Nat.zero_le _, Except.ok.inj h⟩
          | true => exact ⟨_, 0, .some hpresent, Nat.zero_le _, Except.ok.inj h⟩
      | array n inner =>
          obtain ⟨m₁, hcharge, h⟩ := except_bind_ok.mp h
          obtain ⟨hc, rfl⟩ := charge_ok.mp hcharge
          obtain ⟨stride, hstride, h⟩ := except_bind_ok.mp h
          obtain ⟨ops, hops, h⟩ := except_bind_ok.mp h
          obtain ⟨hlt, rfl⟩ := elementOps_ok.mp hops
          exact ⟨_, n.toNat, .array hstride hlt, hc, Except.ok.inj h⟩
      | vec inner =>
          obtain ⟨dataOff, hdataOff, h⟩ := except_bind_ok.mp h
          split at h
          · rename_i hzero
            rw [hzero] at hdataOff
            exact ⟨_, 0, .noVec hdataOff, Nat.zero_le _, Except.ok.inj h⟩
          rename_i hne
          obtain ⟨sizeAt, hsizeAt, h⟩ := except_bind_ok.mp h
          obtain ⟨hlt, rfl⟩ := addOff_ok.mp hsizeAt
          obtain ⟨dataSize, hdataSize, h⟩ := except_bind_ok.mp h
          obtain ⟨base, hbase, h⟩ := except_bind_ok.mp h
          obtain ⟨hbaseLt, rfl⟩ := addOff_ok.mp hbase
          obtain ⟨stride, hstride, h⟩ := except_bind_ok.mp h
          obtain ⟨byteLen, hbyteLen, h⟩ := except_bind_ok.mp h
          obtain ⟨len, hlen, h⟩ := except_bind_ok.mp h
          obtain ⟨m₁, hcharge, h⟩ := except_bind_ok.mp h
          obtain ⟨hc, rfl⟩ := charge_ok.mp hcharge
          obtain ⟨ops, hops, h⟩ := except_bind_ok.mp h
          obtain ⟨helem, rfl⟩ := elementOps_ok.mp hops
          exact ⟨_, len, .vec hdataOff hne hlt hdataSize hbaseLt hstride hbyteLen hlen helem, hc,
            Except.ok.inj h⟩
      | tuple items =>
          obtain ⟨ops, hops, h⟩ := except_bind_ok.mp h
          exact ⟨_, 0, .tuple (tupleOps_ok.mp hops), Nat.zero_le _, Except.ok.inj h⟩
  | makeSome => cases hjob
  | _ => cases hjob

theorem popN_build {g : List Value → Value} :
    (m.popN n >>= fun p => (pure (p.2.push (g p.1)) : RttiResult ReadMachine)) = .ok m' ↔
      n ≤ m.results.length ∧ { m with results := g (m.results.take n) :: m.results.drop n } = m' := by
  rw [except_bind_ok]
  constructor
  · rintro ⟨⟨vs, m₁⟩, hpop, h⟩
    obtain ⟨hle, rfl, rfl⟩ := popN_ok.mp hpop
    exact ⟨hle, Except.ok.inj h⟩
  · rintro ⟨hle, rfl⟩
    exact ⟨_, popN_ok.mpr ⟨hle, rfl, rfl⟩, rfl⟩

theorem exec_mark (hmark : op.arity = some n) : reg.exec data m op = .ok m' ↔
    n ≤ m.results.length ∧
      { m with results := op.build (m.results.take n) :: m.results.drop n } = m' := by
  cases op with
  | block ord off => cases hmark
  | shape s off => cases hmark
  | makeBlock tag names =>
      cases hmark
      rw [RttiRegistry.exec, ReadMachine.popNamed, bind_assoc]
      exact popN_build (g := fun vs => .block tag (names.zip vs))
  | makeEnum tag variant names =>
      cases hmark
      rw [RttiRegistry.exec, ReadMachine.popNamed, bind_assoc]
      exact popN_build (g := fun vs => .enum tag variant (names.zip vs))
  | makeArray n =>
      cases hmark
      exact popN_build
  | makeVec n =>
      cases hmark
      exact popN_build
  | makeTuple n =>
      cases hmark
      exact popN_build
  | makeSome =>
      cases hmark
      rw [RttiRegistry.exec]
      cases hresults : m.results with
      | nil => exact ⟨fun h => (by cases h), fun h => absurd h.1 (by simp)⟩
      | cons v results =>
          refine ⟨fun h => ⟨by simp, Except.ok.inj h⟩, fun h => congrArg Except.ok h.2⟩

/-! ### Turns -/

theorem exec_landed {work : List ReadOp} {results : List Value} {b : Nat}
    (h : reg.ReadRule data op node c) :
    reg.exec data ⟨work, results, b + (c + 1) - 1⟩ op =
      .ok { ReadMachine.land ⟨work, results, b⟩ 0 node with budget := b } := by
  have hbudget : b + (c + 1) - 1 - c = b := by omega
  rw [exec_of_rule h (show c ≤ b + (c + 1) - 1 by omega)]
  cases node <;> simp only [ReadMachine.land, hbudget] <;> rfl

/-- The loop goes on exactly as the reading does. -/
theorem turn_iff : reg.turn data m = some (.ok m') ↔ Worklist.Step (schema reg data) m m' := by
  obtain ⟨work, results, budget⟩ := m
  cases work with
  | nil => exact ⟨nofun, nofun⟩
  | cons op work =>
      have hturn : reg.turn data ⟨op :: work, results, budget⟩ = some (.ok m') ↔
          1 ≤ budget ∧ reg.exec data ⟨work, results, budget - 1⟩ op = .ok m' := by
        rw [RttiRegistry.turn, Option.some_inj, except_bind_ok]
        constructor
        · rintro ⟨m₁, hcharge, h⟩
          obtain ⟨hle, rfl⟩ := charge_ok.mp hcharge
          exact ⟨hle, h⟩
        · rintro ⟨hle, h⟩
          exact ⟨_, charge_ok.mpr ⟨hle, rfl⟩, h⟩
      rw [hturn]
      constructor
      · rintro ⟨hle, h⟩
        cases harity : op.arity with
        | none =>
            obtain ⟨node, c, hrule, hc, -⟩ := rule_of_exec harity h
            obtain ⟨b, rfl⟩ : ∃ b, budget = b + (c + 1) := by
              simp only at hc
              exact ⟨budget - 1 - c, by omega⟩
            obtain rfl := Except.ok.inj (h.symm.trans (exec_landed hrule))
            have hunfold : (schema reg data).Unfolds op node c := hrule
            cases node with
            | leaf v => exact .leaf hunfold
            | jump op' => exact .jump hunfold
            | node mark ops => exact .node hunfold
        | some n =>
            obtain ⟨hlen, rfl⟩ := (exec_mark harity).mp h
            have hbudget : budget = budget - 1 + 1 := by omega
            have hresults := List.take_append_drop n results
            have hmark := harity.trans (congrArg some (List.length_take_of_le hlen).symm)
            have hstep := Worklist.Step.mark (S := schema reg data) (b := budget - 1) (w := work)
              (r := results.drop n) hmark
            rwa [hresults, ← hbudget] at hstep
      · intro hstep
        cases hstep with
        | leaf h => exact ⟨by omega, exec_landed h⟩
        | jump h => exact ⟨by omega, exec_landed h⟩
        | node h => exact ⟨by omega, exec_landed h⟩
        | mark h =>
            refine ⟨by omega, (exec_mark h).mpr ⟨?_, ?_⟩⟩
            · rw [List.length_append]
              exact Nat.le_add_right _ _
            · simp only [List.take_left', List.drop_left']
              rfl

end BStackRaii
