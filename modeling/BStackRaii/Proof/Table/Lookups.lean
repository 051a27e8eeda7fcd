import BStackRaii.Proof.Table.Stages
/-!
# The steps of a lookup

A lookup looks at one bucket at a time. It relies on the block of the buckets staying where it is; the buckets may gain
and lose keys meanwhile. `Lookup` says what it may have left to do, and what a moment that it has seen satisfies: the
finite map that the table holds then agrees with its answer.
-/

namespace BStackRaii

open Probing

namespace BucketTable

variable {ksize : Nat} {V : Type}

/-- The buckets stay where they are, and keep or lose their keys; or they have moved. -/
structure Drifts (t t' : Table ksize V) : Prop where
  cap : t.info.cap ≤ t'.info.cap
  buckets : (t'.info.table = t.info.table ∧ t'.info.cap = t.info.cap ∧ Steady t.info.cap t.slots t'.slots) ∨
    (t'.info.table ≠ t.info.table ∨ t.info.cap = 0)

theorem drifts_refl (t : Table ksize V) : Drifts t t := ⟨Nat.le_refl _, .inl ⟨rfl, rfl, steady_refl _ _⟩⟩

/-- The addresses of the buckets are words. -/
def Reachable (P : Payload V) (t : Table ksize V) : Prop :=
  ∀ i < t.info.cap, checkedOffMul t.info.table i (width P ksize) = .ok (t.at P i)

section Steps

variable {P : Payload V} {a : Allocator} {handle size left cur : Nat} {w : World} {t t' : Table ksize V} {f f' : File}
  {k : Key ksize} {m m' : Key ksize → Option V}

/-- A lookup of `k` has `left` buckets to look at, from `cur` on: it has seen a moment without `k`, or `k` is ahead. -/
structure Searching (t : Table ksize V) (k : Key ksize) (left cur : Nat) (seen : Prop) : Prop where
  pow : ∃ e, t.info.cap = 2 ^ (e + 2)
  left_le : left ≤ t.info.cap
  place : cur = (home k + (t.info.cap - left)) % t.info.cap
  ahead : seen ∨ Ahead t.info.cap t.slots k left cur

/-- What the step of a lookup finds: its key, no such key, or the next bucket to look at. -/
inductive Looked (P : Payload V) (a : Allocator) (t : Table ksize V) (k : Key ksize) (seen : Prop) :
    Script IoError World (Option (List UInt8)) → Prop
  | found (i : Nat) (v : V) (hi : i < t.info.cap) (hs : t.slots i = .occupied k v) :
      Looked P a t k seen (.done (.ok (some (P.enc v))))
  | missing (h : seen) : Looked P a t k seen (.done (.ok none))
  | further (left cur : Nat) (h : Searching t k left cur seen) :
      Looked P a t k seen (lookupFrom a (width P ksize) ksize t.info.table t.info.cap k.val left cur)

theorem Searching.cap_pos {seen : Prop} (h : Searching t k left cur seen) : 0 < t.info.cap := by
  obtain ⟨e, he⟩ := h.pow
  rw [he]
  exact Nat.two_pow_pos _

theorem Searching.over {seen : Prop} (h : Searching t k 0 cur seen) : seen :=
  h.ahead.resolve_right not_ahead_zero

theorem Searching.mono {seen : Prop} (h : Searching t k left cur seen)
    (hcap : t'.info.cap = t.info.cap) (hsteady : Steady t.info.cap t.slots t'.slots) :
    Searching t' k left cur (seen ∨ Absent t'.info.cap t'.slots k) := by
  refine ⟨hcap ▸ h.pow, hcap ▸ h.left_le, hcap ▸ h.place, ?_⟩
  rw [hcap]
  rcases h.ahead with hseen | hahead
  · exact .inl (.inl hseen)
  · rcases hahead.steady h.cap_pos hsteady with hahead | habs
    · exact .inr hahead
    · exact .inl (.inr habs)

theorem Searching.weaken {cur : Nat} {seen seen' : Prop} (h : Searching t k left cur seen) (himp : seen → seen') :
    Searching t k left cur seen' :=
  { h with ahead := h.ahead.imp himp id }

theorem lookupFrom_turn {seen : Prop} (hq : w.Quiet) (h : Tabled P (w.files a.stack) handle size t)
    (hs : Searching t k (left + 1) cur seen) :
    ∃ code, (lookupFrom a (width P ksize) ksize t.info.table t.info.cap k.val (left + 1) cur).Running ∧
      (lookupFrom a (width P ksize) ksize t.info.table t.info.cap k.val (left + 1) cur).advance w = (code, w) ∧
      Looked P a t k seen code := by
  have hlt : cur < t.info.cap := hs.place ▸ Nat.mod_lt _ hs.cap_pos
  have hlaid := h.toLaid
  have hrest := hs.left_le
  have hcode : lookupFrom a (width P ksize) ksize t.info.table t.info.cap k.val (left + 1) cur =
      .step (getInto a.stack (t.at P cur) (width P ksize)) fun r => Script.done r >>= fun buf =>
        if getU64 buf 0 = EMPTY then pure none
        else if matchesKey ksize k.val buf then pure (some (buf.drop (8 + ksize)))
        else lookupFrom a (width P ksize) ksize t.info.table t.info.cap k.val left
          ((cur + 1) &&& (t.info.cap - 1)) := by
    rw [lookupFrom, hlaid.checked_at hlt]
    rfl
  rw [hcode, Script.advance, getInto_run hq (hlaid.bucket_inside hlt)]
  refine ⟨_, trivial, rfl, ?_⟩
  have hbucket := h.stored cur hlt
  generalize (w.files a.stack).bytes.read (t.at P cur) (width P ksize) = buf at hbucket
  rw [Script.done_ok_bind, and_mask hs.pow]
  have hd : t.info.cap - (left + 1) + (left + 1) = t.info.cap := Nat.sub_add_cancel hrest
  have hnext : t.slots cur ≠ .empty → (∀ v, t.slots cur ≠ .occupied k v) →
      Looked P a t k seen (lookupFrom a (width P ksize) ksize t.info.table t.info.cap k.val left
        ((cur + 1) % t.info.cap)) := by
    intro hne hmiss
    refine .further left _ ⟨hs.pow, by omega, ?_, ?_⟩
    · rw [hs.place, step_mod, show t.info.cap - (left + 1) + 1 = t.info.cap - left by omega]
    · rcases hs.ahead with hseen | hahead
      · exact .inl hseen
      · rcases h.probed.ahead_next hahead hs.place hd with ⟨v, hv⟩ | ⟨-, hahead⟩
        · exact absurd hv (hmiss v)
        · exact .inr hahead
  cases hslot : t.slots cur with
  | empty =>
      rw [hslot] at hbucket
      have hstate : getU64 buf 0 = EMPTY := hbucket
      rw [if_pos hstate]
      refine .missing (hs.ahead.resolve_right fun hahead => ?_)
      rcases h.probed.ahead_next hahead hs.place hd with ⟨v, hv⟩ | ⟨hne, -⟩
      · rw [hslot] at hv
        cases hv
      · exact hne hslot
  | tombstone =>
      rw [hslot] at hbucket
      have hstate : getU64 buf 0 = TOMBSTONE := hbucket
      have hmiss : ¬ matchesKey ksize k.val buf := by
        rw [hbucket.matches_iff]
        simp
      rw [if_neg (by rw [hstate]; decide), if_neg hmiss]
      exact hnext (by simp [hslot]) (by simp [hslot])
  | occupied k' v =>
      rw [hslot] at hbucket
      have hbuf : buf = bucketImage P k' v := hbucket
      rw [if_neg (by rw [hbuf, state_bucketImage]; decide)]
      by_cases hk : k' = k
      · subst hk
        rw [if_pos ((hbucket.matches_iff k').mpr ⟨v, rfl⟩), hbuf, payload_bucketImage]
        exact .found cur v hlt hslot
      · have hmiss : ¬ matchesKey ksize k.val buf := by
          rw [hbucket.matches_iff]
          rintro ⟨v₁, h₁⟩
          cases h₁
          exact hk rfl
        rw [if_neg hmiss]
        refine hnext (by simp [hslot]) fun v₁ h₁ => ?_
        rw [hslot] at h₁
        cases h₁
        exact hk rfl

/-- The first step of a lookup reads where the buckets are. -/
theorem lookup_turn (hq : w.Quiet) (h : Tabled P (w.files a.stack) handle size t) (k : Key ksize) :
    ∃ code, (lookup a handle (width P ksize) ksize k.val).Running ∧
      (lookup a handle (width P ksize) ksize k.val).advance w = (code, w) ∧
      Looked P a t k (Absent t.info.cap t.slots k) code := by
  have hin := h.header_inside
  have hsize := h.size_le
  have hfields := h.info
  rw [metaOf_read] at hfields
  have hrun : readFields a.stack (handle + TABLE_OFF) 2 w = ⟨.ok [t.info.table, t.info.cap], w, []⟩ := by
    rw [readFields_run hq (by simp only [TABLE_OFF, HEADER_SIZE]; omega), ← hfields]
    rfl
  have hcode : lookup a handle (width P ksize) ksize k.val =
      .step (readFields a.stack (handle + TABLE_OFF) 2) fun r => Script.done r >>= fun fields =>
        if fields.getD 1 0 = 0 then pure none
        else lookupFrom a (width P ksize) ksize (fields.getD 0 0) (fields.getD 1 0) k.val (fields.getD 1 0)
          ((fnv1a k.val).toNat &&& (fields.getD 1 0 - 1)) := rfl
  rw [hcode, Script.advance, hrun]
  refine ⟨_, trivial, rfl, ?_⟩
  simp only [Script.done_ok_bind, List.getD_cons_zero, List.getD_cons_succ]
  by_cases hcap : t.info.cap = 0
  · rw [if_pos hcap]
    exact .missing fun i hi => by omega
  · rw [if_neg hcap, and_mask (h.pow.resolve_left hcap)]
    refine .further t.info.cap _ ⟨h.pow.resolve_left hcap, Nat.le_refl _, ?_, ?_⟩
    · rw [Nat.sub_self, Nat.add_zero]
      rfl
    · exact (em (Absent t.info.cap t.slots k)).imp id fun hno => ahead_of_not_absent hno _

/-- Whatever it was told about the table, a lookup changes nothing. -/
inductive Stray (a : Allocator) (stride ksz : Nat) (kb : List UInt8) : Script IoError World (Option (List UInt8)) → Prop
  | done (out : Except IoError (Option (List UInt8))) : Stray a stride ksz kb (.done out)
  | probing (table cap left cur : Nat) : Stray a stride ksz kb (lookupFrom a stride ksz table cap kb left cur)

theorem Stray.advance {stride ksz : Nat} {kb : List UInt8} {c : Script IoError World (Option (List UInt8))}
    (h : Stray a stride ksz kb c) (hq : w.Quiet) :
    Stray a stride ksz kb (c.advance w).1 ∧ (c.advance w).2 = w := by
  cases h with
  | done out => exact ⟨.done out, rfl⟩
  | probing table cap left cur =>
      cases left with
      | zero => exact ⟨.done _, rfl⟩
      | succ left =>
          rw [lookupFrom]
          cases hoff : checkedOffMul table cur stride with
          | error e => exact ⟨.done _, rfl⟩
          | ok off =>
              rw [Script.lift_bind, Script.done_ok_bind, Script.atom_bind, Script.advance]
              by_cases hin : off + stride ≤ (w.files a.stack).len
              · rw [getInto_run hq hin]
                refine ⟨?_, rfl⟩
                simp only [Script.done_ok_bind]
                split
                · exact .done _
                · split
                  · exact .done _
                  · exact .probing _ _ _ _
              · have hrun : getInto a.stack off stride w = ⟨.error outOfBounds, w, []⟩ := by
                  simp only [getInto, Prog.volatile_apply, if_neg hq.not_faulty, if_neg hin, hq.tick_eq]
                rw [hrun]
                exact ⟨.done _, rfl⟩

/-! ### Whole lookups -/

/-- A lookup of `k` may have `c` left to do, when it has seen a finite map that satisfies `φ`. -/
inductive Lookup (P : Payload V) (a : Allocator) (handle : Nat) (t : Table ksize V) (k : Key ksize) :
    Script IoError World (Option (List UInt8)) → ((Key ksize → Option V) → Prop) → Prop
  | start : Lookup P a handle t k (lookup a handle (width P ksize) ksize k.val) fun _ => True
  | looking {left cur : Nat} (hs : Searching t k left cur False) (hin : Reachable P t) :
      Lookup P a handle t k (lookupFrom a (width P ksize) ksize t.info.table t.info.cap k.val left cur) fun _ => True
  | missed {left cur : Nat} (hs : Searching t k left cur True) (hin : Reachable P t) :
      Lookup P a handle t k (lookupFrom a (width P ksize) ksize t.info.table t.info.cap k.val left cur)
        fun m => m k = none
  | answered (o : Option V) : Lookup P a handle t k (.done (.ok (o.map P.enc))) fun m => m k = o

section Whole

variable {c : Script IoError World (Option (List UInt8))} {φ : (Key ksize → Option V) → Prop}

theorem Lookup.of_looked {seen : Prop} (h : Tabled P f handle size t) (hm : Maps t.info.cap t.slots m)
    (hl : Looked P a t k seen c) (hseen : seen → (φ = fun m => m k = none) ∨ m k = none)
    (hnot : ¬ seen → φ = fun _ => True) : ∃ φ', Lookup P a handle t k c φ' ∧ (φ' = φ ∨ φ' m) := by
  have hin : Reachable P t := fun _ hi => h.toLaid.checked_at hi
  cases hl with
  | found i v hi hs => exact ⟨_, .answered (some v), .inr (hm.get_of_slot hi hs)⟩
  | missing hs => exact ⟨_, .answered none, (hseen hs).imp Eq.symm id⟩
  | further left cur hs =>
      by_cases hknown : seen
      · exact ⟨_, .missed (hs.weaken fun _ => trivial) hin, (hseen hknown).imp Eq.symm id⟩
      · exact ⟨_, .looking (hs.weaken hknown) hin, .inl (hnot hknown).symm⟩

theorem Lookup.advance (hl : Lookup P a handle t k c φ) (hq : w.Quiet) (h : Tabled P (w.files a.stack) handle size t)
    (hm : Maps t.info.cap t.slots m) (hrun : c.Running) :
    (c.advance w).2 = w ∧ ∃ φ', Lookup P a handle t k (c.advance w).1 φ' ∧ (φ' = φ ∨ φ' m) := by
  cases hl with
  | start =>
      obtain ⟨code, -, hadvance, hlooked⟩ := lookup_turn (a := a) hq h k
      rw [hadvance]
      exact ⟨rfl, Lookup.of_looked h hm hlooked (fun habs => .inr (hm.get_of_absent habs)) fun _ => rfl⟩
  | @looking left cur hs hin =>
      cases left with
      | zero => exact hs.over.elim
      | succ left =>
          obtain ⟨code, -, hadvance, hlooked⟩ := lookupFrom_turn (a := a) hq h hs
          rw [hadvance]
          exact ⟨rfl, Lookup.of_looked h hm hlooked False.elim fun _ => rfl⟩
  | @missed left cur hs hin =>
      cases left with
      | zero => exact hrun.elim
      | succ left =>
          obtain ⟨code, -, hadvance, hlooked⟩ := lookupFrom_turn (a := a) hq h hs
          rw [hadvance]
          exact ⟨rfl, Lookup.of_looked h hm hlooked (fun _ => .inl rfl) fun hno => absurd trivial hno⟩
  | answered o => exact hrun.elim

/-- A lookup when others have changed the table: it goes on, or it looks where the buckets were. -/
theorem Lookup.drifts (hl : Lookup P a handle t k c φ) (h : Tabled P f handle size t')
    (hm : Maps t'.info.cap t'.slots m) (hd : Drifts t t') :
    (∃ φ', Lookup P a handle t' k c φ' ∧ (φ' = φ ∨ φ' m)) ∨
      (t'.info.table ≠ t.info.table ∧ Stray a (width P ksize) ksize k.val c) := by
  have hin : Reachable P t' := fun _ hi => h.toLaid.checked_at hi
  cases hl with
  | start => exact .inl ⟨_, .start, .inl rfl⟩
  | @looking left cur hs =>
      rcases hd.buckets with ⟨htable, hcap, hsteady⟩ | hne | hzero
      · rw [← htable, ← hcap]
        have hs' := hs.mono hcap hsteady
        by_cases habs : Absent t'.info.cap t'.slots k
        · exact .inl ⟨_, .missed (hs'.weaken fun _ => trivial) hin, .inr (hm.get_of_absent habs)⟩
        · exact .inl ⟨_, .looking (hs'.weaken fun hno => hno.elim id habs) hin, .inl rfl⟩
      · exact .inr ⟨hne, .probing _ _ _ _⟩
      · exact absurd hs.cap_pos (by omega)
  | @missed left cur hs =>
      rcases hd.buckets with ⟨htable, hcap, hsteady⟩ | hne | hzero
      · rw [← htable, ← hcap]
        exact .inl ⟨_, .missed ((hs.mono hcap hsteady).weaken fun _ => trivial) hin, .inl rfl⟩
      · exact .inr ⟨hne, .probing _ _ _ _⟩
      · exact absurd hs.cap_pos (by omega)
  | answered o => exact .inl ⟨_, .answered o, .inl rfl⟩

theorem Searching.runs {seen : Prop} (hs : Searching t k (left + 1) cur seen) (hin : Reachable P t) :
    (lookupFrom a (width P ksize) ksize t.info.table t.info.cap k.val (left + 1) cur).Running := by
  have hlt : cur < t.info.cap := hs.place ▸ Nat.mod_lt _ hs.cap_pos
  rw [lookupFrom, hin cur hlt]
  exact trivial

theorem Lookup.finish {out : Except IoError (Option (List UInt8))} (hl : Lookup P a handle t k c φ)
    (hdone : c = .done out) : ∃ o, out = .ok (o.map P.enc) ∧ ∀ m, φ m → m k = o := by
  cases hl with
  | start => cases hdone
  | @looking left cur hs hin =>
      cases left with
      | zero => exact hs.over.elim
      | succ left =>
          have hrun := hs.runs (P := P) (a := a) hin
          rw [hdone] at hrun
          exact hrun.elim
  | @missed left cur hs hin =>
      cases left with
      | zero =>
          cases hdone
          exact ⟨none, rfl, fun m hm => hm⟩
      | succ left =>
          have hrun := hs.runs (P := P) (a := a) hin
          rw [hdone] at hrun
          exact hrun.elim
  | answered o =>
      cases hdone
      exact ⟨o, rfl, fun m hm => hm⟩

end Whole

end Steps

end BucketTable

end BStackRaii
