import BStackRaii.Proof.Table.Disk
/-!
# One probe of a bucket table

What the generators of an insertion and of a removal compute on a table that is there, and the table
they leave. `Becomes` lists the changes a probe can make.
-/

namespace BStackRaii

open Probing

namespace BucketTable

variable {ksize : Nat} {V : Type} {P : Payload V} {f : File} {handle size : Nat} {t t' : Table ksize V}
  {k : Key ksize} {v : V} {i : Nat}

/-! ### The changes of a table -/

/-- A probe for `k` leaves `t'`, where `k` has the value `o`. -/
inductive Becomes (t : Table ksize V) (k : Key ksize) : Option V → Table ksize V → Prop
  | insert (i : Nat) (wasEmpty : Bool) (v : V)
      (hs : Sought home t.info.cap t.slots k (.free i wasEmpty)) :
      Becomes t k (some v)
        ⟨{ t.info with len := t.info.len + 1, used := t.info.used + wasEmpty.toNat },
          Function.update t.slots i (.occupied k v)⟩
  | replace (i : Nat) (v v' : V) (hs : Sought home t.info.cap t.slots k (.found i v)) :
      Becomes t k (some v') ⟨t.info, Function.update t.slots i (.occupied k v')⟩
  | remove (i : Nat) (v : V) (hs : Sought home t.info.cap t.slots k (.found i v)) :
      Becomes t k none ⟨{ t.info with len := t.info.len - 1 }, Function.update t.slots i .tombstone⟩

theorem Sought.lt {wasEmpty : Bool} (hs : Sought home t.info.cap t.slots k (.free i wasEmpty)) :
    i < t.info.cap := by
  obtain ⟨-, -, d, hd, rfl, -⟩ := hs
  exact Nat.mod_lt _ (by omega)

theorem Sought.not_occupied {wasEmpty : Bool}
    (hs : Sought home t.info.cap t.slots k (.free i wasEmpty)) : (t.slots i).isOccupied = false := by
  rw [hs.2.1]
  cases wasEmpty <;> rfl

namespace Becomes

variable {o : Option V}

theorem table_eq (h : Becomes t k o t') : t'.info.table = t.info.table := by cases h <;> rfl

theorem cap_eq (h : Becomes t k o t') : t'.info.cap = t.info.cap := by cases h <;> rfl

theorem used_le (h : Becomes t k o t') : t'.info.used ≤ t.info.used + 1 := by
  cases h with
  | insert i wasEmpty v hs => exact Nat.add_le_add_left (Bool.toNat_le wasEmpty) _
  | replace i v v' hs => exact Nat.le_succ _
  | remove i v hs => exact Nat.le_succ _

theorem maps (h : Becomes t k o t') (hsound : t.Sound) {m : Key ksize → Option V}
    (hm : Maps t.info.cap t.slots m) : Maps t'.info.cap t'.slots (Function.update m k o) := by
  cases h with
  | insert i wasEmpty v hs => exact hm.insert hs.1 (Sought.lt hs) (Sought.not_occupied hs) v
  | replace i v v' hs => exact hm.replace hsound.probed hs.1 hs.2 v'
  | remove i v hs => exact hm.remove hsound.probed hs.1 hs.2

theorem sound (h : Becomes t k o t') (hsound : t.Sound) : t'.Sound := by
  have hp := hsound.probed
  cases h with
  | insert i wasEmpty v hs =>
      have hi := Sought.lt hs
      have hlen := lenOf_update t.slots (.occupied k v) hi
      have hused := usedOf_update t.slots (.occupied k v) hi
      obtain ⟨habs, hslot, d, hd, hpos, hopen⟩ := hs
      refine ⟨?_, ?_, ?_⟩
      · rw [hpos]
        exact hp.insert habs hd hopen v
      · rw [hslot] at hlen
        show t.info.len + 1 = lenOf t.info.cap (Function.update t.slots i (.occupied k v))
        rw [hsound.len_eq]
        cases wasEmpty <;> simp [Slot.isOccupied] at hlen <;> omega
      · rw [hslot] at hused
        show t.info.used + wasEmpty.toNat = usedOf t.info.cap (Function.update t.slots i (.occupied k v))
        rw [hsound.used_eq]
        cases wasEmpty <;> simp [Slot.isUsed] at hused ⊢ <;> omega
  | replace i v v' hs =>
      have hlen := lenOf_update t.slots (.occupied k v') hs.1
      have hused := usedOf_update t.slots (.occupied k v') hs.1
      rw [hs.2] at hlen hused
      refine ⟨hp.replace hs.1 hs.2 v', ?_, ?_⟩
      · show t.info.len = lenOf t.info.cap (Function.update t.slots i (.occupied k v'))
        rw [hsound.len_eq]
        simp only [Slot.isOccupied] at hlen
        omega
      · show t.info.used = usedOf t.info.cap (Function.update t.slots i (.occupied k v'))
        rw [hsound.used_eq]
        simp only [Slot.isUsed] at hused
        omega
  | remove i v hs =>
      have hlen := lenOf_update t.slots .tombstone hs.1
      have hused := usedOf_update t.slots .tombstone hs.1
      rw [hs.2] at hlen hused
      refine ⟨hp.remove i, ?_, ?_⟩
      · show t.info.len - 1 = lenOf t.info.cap (Function.update t.slots i .tombstone)
        rw [hsound.len_eq]
        simp only [Slot.isOccupied, Bool.toNat_true, Bool.toNat_false] at hlen
        omega
      · show t.info.used = usedOf t.info.cap (Function.update t.slots i .tombstone)
        rw [hsound.used_eq]
        simp only [Slot.isUsed] at hused
        omega

end Becomes

/-! ### The generator of an insertion -/

def entryFor (P : Payload V) (handle : Nat) (k : Key ksize) (v : V) : NewEntry :=
  ⟨handle, width P ksize, ksize, k.val, P.enc v⟩

/-- What `onHit` does to a bucket of value `v`: it comes to hold `put v`. -/
def Hits (P : Payload V) (ksize : Nat) (onHit : Meta → Nat → Except IoError Batch) (put : V → V) : Prop :=
  ∀ {f : File} {handle size : Nat} {t : Table ksize V} {i : Nat} {k : Key ksize} {v : V},
    Laid P f handle size t → i < t.info.cap → t.slots i = .occupied k v →
    ∃ ws, onHit t.info i = .ok ws ∧
      (∀ x ∈ ws, t.at P i ≤ x.1 ∧ x.1 + x.2.length ≤ t.at P i + width P ksize) ∧
      Laid P (File.writeAll ws f) handle size { t with slots := Function.update t.slots i (.occupied k (put v)) }

/-- A write within the blocks of the table. -/
def Within (P : Payload V) (handle size : Nat) (t : Table ksize V) (x : Nat × List UInt8) : Prop :=
  (handle ≤ x.1 ∧ x.1 + x.2.length ≤ handle + size) ∨
    (0 < t.info.cap ∧ t.info.table ≤ x.1 ∧ x.1 + x.2.length ≤ (t.block P).stop)

theorem Laid.within (h : Laid P f handle size t) {x : Nat × List UInt8} (hx : Within P handle size t x) :
    x.1 + x.2.length ≤ f.len := by
  cases hx with
  | inl hx => exact Nat.le_trans hx.2 h.header_inside
  | inr hx => exact Nat.le_trans hx.2.2 (h.block_inside hx.1)

theorem within_bucket (hi : i < t.info.cap) {x : Nat × List UInt8} (hlo : t.at P i ≤ x.1)
    (hhi : x.1 + x.2.length ≤ t.at P i + width P ksize) : Within P handle size t x :=
  .inr ⟨by omega, Nat.le_trans (Nat.le_add_right _ _) hlo, Nat.le_trans hhi (Laid.at_le t hi)⟩

/-- What the probe of an insertion ends with, by what the search found. -/
def insertResult (P : Payload V) (e : NewEntry) (onHit : Meta → Nat → Except IoError Batch) (m : Meta) :
    Outcome V → Except IoError (Batch × Placed)
  | .found i v => do
      let ws ← onHit m i
      pure (ws, .present (P.enc v))
  | .free i wasEmpty => do
      let ws ← newBucketWrites e m i wasEmpty
      pure (ws, .added)
  | .full => .ok ([], .noRoom)

section Search

variable {left cur : Nat} {tomb : Option Nat}

theorem next_lt {cap : Nat} (hcur : cur < cap) : (cur + 1) % cap < cap := Nat.mod_lt _ (by omega)

theorem insertFrom_eval (h : Laid P f handle size t) (onHit : Meta → Nat → Except IoError Batch)
    (k : Key ksize) (v : V) (hcur : left ≠ 0 → cur < t.info.cap) :
    (probeFrom (width P ksize) t.info (inspectInsert (entryFor P handle k v) onHit)
      (exhaustedInsert (entryFor P handle k v)) left cur tomb).eval f =
      insertResult P (entryFor P handle k v) onHit t.info (seek t.info.cap t.slots k left cur tomb) := by
  induction left generalizing cur tomb with
  | zero => cases tomb <;> rfl
  | succ left ih =>
      have hlt := hcur (Nat.succ_ne_zero left)
      have hnext : (cur + 1) &&& maskOf t.info.cap = (cur + 1) % t.info.cap := by
        rw [maskOf_eq (by omega) h.cap_lt, and_mask (h.pow.resolve_left (by omega))]
      have hbucket := h.stored cur hlt
      unfold probeFrom seek
      rw [h.checked_at hlt, Gen.eval_bind_ok (Gen.eval_lift f _), Gen.eval_bind_ok (h.bucket_read hlt)]
      generalize f.bytes.read (t.at P cur) (width P ksize) = buf at hbucket
      cases hs : t.slots cur with
      | empty =>
          rw [hs] at hbucket
          have hstate : getU64 buf 0 = EMPTY := hbucket
          simp only [inspectInsert, if_pos hstate]
          cases tomb <;> rfl
      | tombstone =>
          rw [hs] at hbucket
          have hstate : getU64 buf 0 = TOMBSTONE := hbucket
          have hempty : ¬ getU64 buf 0 = EMPTY := by rw [hstate]; decide
          have hmiss : ¬ matchesKey ksize k.val buf := by
            rw [hbucket.matches_iff]
            simp
          simp only [inspectInsert, entryFor, if_neg hempty, if_neg hmiss, if_pos hstate]
          rw [hnext]
          exact ih fun _ => next_lt hlt
      | occupied k' v' =>
          rw [hs] at hbucket
          have hbuf : buf = bucketImage P k' v' := hbucket
          have hstate : getU64 buf 0 = OCCUPIED := by rw [hbuf, state_bucketImage]
          have hempty : ¬ getU64 buf 0 = EMPTY := by rw [hstate]; decide
          have htomb : ¬ getU64 buf 0 = TOMBSTONE := by rw [hstate]; decide
          simp only [inspectInsert, entryFor, if_neg hempty, if_neg htomb]
          by_cases hk : k' = k
          · have hmatch : matchesKey ksize k.val buf := (hbucket.matches_iff k).mpr ⟨v', by rw [hk]⟩
            simp only [if_pos hmatch, if_pos hk, insertResult]
            rw [hbuf, payload_bucketImage]
            rfl
          · have hmiss : ¬ matchesKey ksize k.val buf := by
              rw [hbucket.matches_iff]
              rintro ⟨v₁, h₁⟩
              cases h₁
              exact hk rfl
            simp only [if_neg hmiss, if_neg hk]
            rw [hnext]
            exact ih fun _ => next_lt hlt

def removeResult (P : Payload V) (handle : Nat) (t : Table ksize V) :
    Outcome V → Except IoError (Batch × Option (List UInt8))
  | .found i v =>
      .ok ([w8 (t.at P i) TOMBSTONE, w8 (handle + LEN_OFF) (wrappingPred t.info.len)], some (P.enc v))
  | _ => .ok ([], none)

theorem removeFrom_eval (h : Laid P f handle size t) (k : Key ksize) (tomb : Option Nat)
    (hcur : left ≠ 0 → cur < t.info.cap) :
    (probeFrom (width P ksize) t.info (inspectRemove handle (width P ksize) ksize k.val)
      (fun _ _ => .ok ([], none)) left cur ()).eval f =
      removeResult P handle t (seek t.info.cap t.slots k left cur tomb) := by
  induction left generalizing cur tomb with
  | zero => cases tomb <;> rfl
  | succ left ih =>
      have hlt := hcur (Nat.succ_ne_zero left)
      have hnext : (cur + 1) &&& maskOf t.info.cap = (cur + 1) % t.info.cap := by
        rw [maskOf_eq (by omega) h.cap_lt, and_mask (h.pow.resolve_left (by omega))]
      have hbucket := h.stored cur hlt
      unfold probeFrom seek
      rw [h.checked_at hlt, Gen.eval_bind_ok (Gen.eval_lift f _), Gen.eval_bind_ok (h.bucket_read hlt)]
      generalize f.bytes.read (t.at P cur) (width P ksize) = buf at hbucket
      cases hs : t.slots cur with
      | empty =>
          rw [hs] at hbucket
          have hstate : getU64 buf 0 = EMPTY := hbucket
          simp only [inspectRemove, if_pos hstate]
          cases tomb <;> rfl
      | tombstone =>
          rw [hs] at hbucket
          have hstate : getU64 buf 0 = TOMBSTONE := hbucket
          have hempty : ¬ getU64 buf 0 = EMPTY := by rw [hstate]; decide
          have hmiss : ¬ matchesKey ksize k.val buf := by
            rw [hbucket.matches_iff]
            simp
          simp only [inspectRemove, if_neg hempty, if_neg hmiss]
          rw [hnext]
          exact ih (tomb.or (some cur)) fun _ => next_lt hlt
      | occupied k' v' =>
          rw [hs] at hbucket
          have hbuf : buf = bucketImage P k' v' := hbucket
          have hempty : ¬ getU64 buf 0 = EMPTY := by rw [hbuf, state_bucketImage]; decide
          simp only [inspectRemove, if_neg hempty]
          by_cases hk : k' = k
          · have hmatch : matchesKey ksize k.val buf := (hbucket.matches_iff k).mpr ⟨v', by rw [hk]⟩
            simp only [if_pos hmatch, if_pos hk, removeResult]
            rw [h.checked_at hlt, hbuf, payload_bucketImage]
            rfl
          · have hmiss : ¬ matchesKey ksize k.val buf := by
              rw [hbucket.matches_iff]
              rintro ⟨v₁, h₁⟩
              cases h₁
              exact hk rfl
            simp only [if_neg hmiss, if_neg hk]
            rw [hnext]
            exact ih tomb fun _ => next_lt hlt

end Search

theorem probe_eval {σ α : Type} (h : Laid P f handle size t) (k : Key ksize) (start : σ)
    (inspect : Meta → σ → Nat → List UInt8 → ProbeStep σ α)
    (exhausted : Meta → σ → Except IoError (Batch × α)) :
    (probe handle (width P ksize) (fnv1a k.val) start inspect exhausted).eval f =
      (probeFrom (width P ksize) t.info inspect exhausted t.info.cap (home k % t.info.cap) start).eval f := by
  rw [probe, Gen.eval_bind_ok h.meta_read]
  by_cases hcap : t.info.cap = 0
  · rw [hcap]
    rfl
  · rw [if_neg hcap, maskOf_eq (by omega) h.cap_lt, and_mask (h.pow.resolve_left hcap)]
    rfl

/-! ### The insertion -/

/-- How an insertion of `v` under `k` may end, and the table it leaves. -/
inductive Inserted (P : Payload V) (t : Table ksize V) (k : Key ksize) (v : V) (put : V → V) :
    Placed → Table ksize V → Prop
  | added {t' : Table ksize V} (habs : Absent t.info.cap t.slots k) (h : Becomes t k (some v) t') :
      Inserted P t k v put .added t'
  | present {i : Nat} {old : V} (hs : Sought home t.info.cap t.slots k (.found i old)) :
      Inserted P t k v put (.present (P.enc old))
        ⟨t.info, Function.update t.slots i (.occupied k (put old))⟩
  | noRoom (hs : Sought home t.info.cap t.slots k .full) : Inserted P t k v put .noRoom t

theorem Table.Sound.len_pos (hs : t.Sound) (hfound : Sought home t.info.cap t.slots k (.found i v)) :
    0 < t.info.len := by
  have hlen := lenOf_update t.slots .tombstone hfound.1
  rw [hfound.2] at hlen
  rw [hs.len_eq]
  simp only [Slot.isOccupied, Bool.toNat_true, Bool.toNat_false] at hlen
  omega

theorem Table.Sound.len_lt (hs : t.Sound) (hcap : t.info.cap < 2 ^ 64) : t.info.len < 2 ^ 64 := by
  have hlen := lenOf_le_usedOf t.info.cap t.slots
  have hused := usedOf_le t.info.cap t.slots
  rw [hs.len_eq]
  omega

theorem Table.Sound.used_lt (hs : t.Sound) (hcap : t.info.cap < 2 ^ 64) : t.info.used < 2 ^ 64 := by
  have hused := usedOf_le t.info.cap t.slots
  rw [hs.used_eq]
  omega

theorem bucket_image (m : Mem) (off : Nat) (k : Key ksize) (v : V) :
    Bucket P ((m.write off (bucketImage P k v)).read off (width P ksize)) (.occupied k v) :=
  Mem.read_write_eq m off (length_bucketImage P k v)

theorem within_len (h : Laid P f handle size t) (n : Nat) :
    Within P handle size t (w8 (handle + LEN_OFF) n) := by
  have hsize := h.size_le
  left
  simp only [w8, length_leBytes, LEN_OFF, HEADER_SIZE]
  omega

theorem within_used (h : Laid P f handle size t) (n : Nat) :
    Within P handle size t (w8 (handle + USED_OFF) n) := by
  have hsize := h.size_le
  left
  simp only [w8, length_leBytes, USED_OFF, HEADER_SIZE]
  omega

theorem newBucketWrites_tabled (h : Tabled P f handle size t) {wasEmpty : Bool} (v : V)
    (hs : Sought home t.info.cap t.slots k (.free i wasEmpty)) :
    ∃ ws t', newBucketWrites (entryFor P handle k v) t.info i wasEmpty = .ok ws ∧
      (∀ x ∈ ws, Within P handle size t x) ∧ Becomes t k (some v) t' ∧
      Tabled P (File.writeAll ws f) handle size t' := by
  have hi := Sought.lt hs
  have hb := Becomes.insert i wasEmpty v hs
  have hsound := hb.sound h.toSound
  have hlaid := h.toLaid
  have hbound : t.at P i + (bucketImage P k v).length ≤ t.at P i + width P ksize :=
    Nat.le_of_eq (by rw [length_bucketImage])
  have hput := hlaid.put hi _ _ (Nat.le_refl _) hbound (bucket_image f.bytes _ k v)
  have hlen := hput.setLen (hsound.len_lt hlaid.cap_lt)
  have hbucket : Within P handle size t (t.at P i, bucketImage P k v) :=
    within_bucket hi (Nat.le_refl _) hbound
  have hrun : newBucketWrites (entryFor P handle k v) t.info i wasEmpty =
      .ok ([(t.at P i, bucketImage P k v), w8 (handle + LEN_OFF) (t.info.len + 1)] ++
        if wasEmpty then [w8 (handle + USED_OFF) (t.info.used + 1)] else []) := by
    simp only [newBucketWrites, entryFor]
    rw [hlaid.checked_at hi]
    rfl
  refine ⟨_, _, hrun, ?_, hb, ?_⟩
  · intro x hx
    cases wasEmpty with
    | true =>
        simp only [if_true, List.cons_append, List.nil_append, List.mem_cons, List.not_mem_nil, or_false] at hx
        obtain rfl | rfl | rfl := hx
        · exact hbucket
        · exact within_len hlaid _
        · exact within_used hlaid _
    | false =>
        simp only [Bool.false_eq_true, if_false, List.append_nil, List.mem_cons, List.not_mem_nil, or_false] at hx
        obtain rfl | rfl := hx
        · exact hbucket
        · exact within_len hlaid _
  · cases wasEmpty with
    | true => exact ⟨hlen.setUsed (hsound.used_lt hlaid.cap_lt), hsound⟩
    | false => exact ⟨hlen, hsound⟩

/-- The step lemma of an insertion. -/
theorem insert_step (h : Tabled P f handle size t) {onHit : Meta → Nat → Except IoError Batch} {put : V → V}
    (hhit : Hits P ksize onHit put) (k : Key ksize) (v : V) :
    ∃ ws placed t', (probe handle (width P ksize) (fnv1a k.val) none
        (inspectInsert (entryFor P handle k v) onHit) (exhaustedInsert (entryFor P handle k v))).eval f =
        .ok (ws, placed) ∧
      (∀ x ∈ ws, Within P handle size t x) ∧ Inserted P t k v put placed t' ∧
      Tabled P (File.writeAll ws f) handle size t' := by
  have hlaid := h.toLaid
  have hcur : t.info.cap ≠ 0 → home k % t.info.cap < t.info.cap := fun hne => Nat.mod_lt _ (by omega)
  have hsought := h.probed.seek k
  rw [probe_eval hlaid, insertFrom_eval hlaid onHit k v hcur]
  cases ho : seek t.info.cap t.slots k t.info.cap (home k % t.info.cap) none with
  | found i old =>
      rw [ho] at hsought
      obtain ⟨ws, hws, hin, hlaid'⟩ := hhit hlaid hsought.1 hsought.2
      refine ⟨ws, .present (P.enc old), _, ?_, ?_, .present hsought, hlaid', ?_⟩
      · simp only [insertResult, hws]
        rfl
      · intro x hx
        exact within_bucket hsought.1 (hin x hx).1 (hin x hx).2
      · exact (Becomes.replace i old (put old) hsought).sound h.toSound
  | free i wasEmpty =>
      rw [ho] at hsought
      obtain ⟨ws, t', hws, hin, hb, ht'⟩ := newBucketWrites_tabled h v hsought
      refine ⟨ws, .added, t', ?_, hin, .added hsought.1 hb, ht'⟩
      simp only [insertResult, hws]
      rfl
  | full =>
      rw [ho] at hsought
      exact ⟨[], .noRoom, t, rfl, by simp, .noRoom hsought, h⟩

/-! ### The removal -/

inductive Removed (P : Payload V) (t : Table ksize V) (k : Key ksize) :
    Option (List UInt8) → Table ksize V → Prop
  | found {i : Nat} {v : V} (hs : Sought home t.info.cap t.slots k (.found i v)) :
      Removed P t k (some (P.enc v))
        ⟨{ t.info with len := t.info.len - 1 }, Function.update t.slots i .tombstone⟩
  | absent (habs : Absent t.info.cap t.slots k) : Removed P t k none t

/-- The step lemma of a removal. -/
theorem remove_step (h : Tabled P f handle size t) (k : Key ksize) :
    ∃ ws old t', (probe handle (width P ksize) (fnv1a k.val) ()
        (inspectRemove handle (width P ksize) ksize k.val) fun _ _ => .ok ([], none)).eval f = .ok (ws, old) ∧
      (∀ x ∈ ws, Within P handle size t x) ∧ Removed P t k old t' ∧
      Tabled P (File.writeAll ws f) handle size t' := by
  have hlaid := h.toLaid
  have hcur : t.info.cap ≠ 0 → home k % t.info.cap < t.info.cap := fun hne => Nat.mod_lt _ (by omega)
  have hsought := h.probed.seek k
  rw [probe_eval hlaid, removeFrom_eval hlaid k none hcur]
  cases ho : seek t.info.cap t.slots k t.info.cap (home k % t.info.cap) none with
  | found i v =>
      rw [ho] at hsought
      have hb := Becomes.remove i v hsought
      have hsound := hb.sound h.toSound
      have hpred : wrappingPred t.info.len = t.info.len - 1 :=
        wrappingPred_eq (h.toSound.len_pos hsought) (h.toSound.len_lt hlaid.cap_lt)
      have hbound : (w8 (t.at P i) TOMBSTONE).1 + (w8 (t.at P i) TOMBSTONE).2.length ≤
          t.at P i + width P ksize := by
        simp only [w8, length_leBytes, width]
        omega
      have hput := hlaid.put hsought.1 (leBytes 8 TOMBSTONE) .tombstone (Nat.le_refl _) hbound
        (by
          show getU64 _ 0 = TOMBSTONE
          rw [getU64_read (by simp only [width]; omega)]
          exact Mem.word_write_self (by decide))
      rw [removeResult, hpred]
      refine ⟨_, _, _, rfl, ?_, .found hsought, hput.setLen ?_, hsound⟩
      · intro x hx
        simp only [List.mem_cons, List.not_mem_nil, or_false] at hx
        obtain rfl | rfl := hx
        · exact within_bucket hsought.1 (Nat.le_refl _) hbound
        · exact within_len hlaid _
      · exact hsound.len_lt hlaid.cap_lt
  | free i wasEmpty =>
      rw [ho] at hsought
      exact ⟨[], none, t, rfl, by simp, .absent hsought.1, h⟩
  | full =>
      rw [ho] at hsought
      exact ⟨[], none, t, rfl, by simp, .absent hsought.1, h⟩

end BucketTable

end BStackRaii
