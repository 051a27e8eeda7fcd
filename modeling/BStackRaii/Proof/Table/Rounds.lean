import BStackRaii.Proof.Table.Checks
import BStackRaii.Proof.Table.Disk
import BStackRaii.Proof.Faults
/-!
# The rounds of an insertion

A probe makes the checks of `Model/CheckedTable` on top of what it does in `Model/Table`. The only one that can fail
is on the number of entries: there is no room for one more at `2 ^ 64 - 1`, and none to take away at `0`.
-/

namespace BStackRaii

namespace BucketTable

section Probe

variable {σ α : Type} {k handle stride : Nat} {hash : UInt64} {start : σ} {m : Meta}

def ProbeStep.guard (G : Except IoError (Batch × α) → Except IoError (Batch × α)) : ProbeStep σ α → ProbeStep σ α
  | .next s => .next s
  | .stop out => .stop (G out)

theorem Checked.probeFrom_reads {G : Except IoError (Batch × α) → Except IoError (Batch × α)}
    {inspect : Meta → σ → Nat → List UInt8 → ProbeStep σ α} {exhausted : Meta → σ → Except IoError (Batch × α)}
    {inspect' : Meta → σ → Nat → List UInt8 → Except IoError (ProbeStep σ α)}
    {exhausted' : Meta → σ → Except IoError (Batch × α)} (hG : ∀ e, G (.error e) = .error e) (hcap : 0 < m.cap)
    (hlt : m.cap < 2 ^ 64)
    (hinspect : ∀ s cur buf, buf.length = stride →
      Checked.orPanic (inspect' m s cur buf) = (inspect m s cur buf).guard G)
    (hexhausted : ∀ s, exhausted' m s = G (exhausted m s)) (left : Nat) {cur : Nat} (hcur : cur < m.cap) (s : σ)
    (w : World) :
    (Checked.probeFrom stride m inspect' exhausted' left cur s).reads k w =
      (G ((BucketTable.probeFrom stride m inspect exhausted left cur s).reads k w).1,
        ((BucketTable.probeFrom stride m inspect exhausted left cur s).reads k w).2) := by
  induction left generalizing cur s w with
  | zero => rw [Checked.probeFrom, BucketTable.probeFrom, Gen.reads_lift, Gen.reads_lift, hexhausted]
  | succ left ih =>
      have hmask : maskOf m.cap = m.cap - 1 := by
        rw [maskOf, wrappingPred]
        omega
      rw [Checked.probeFrom, BucketTable.probeFrom,
        plus_ok (by omega), Gen.lift_ok_bind, Gen.reads_bind, Gen.reads_bind,
        Gen.reads_lift]
      cases checkedOffMul m.table cur stride with
      | error e => simp only [hG]
      | ok off =>
          dsimp only
          rw [Gen.reads_bind, Gen.reads_bind]
          rcases hget : (Gen.get off stride).reads k w with ⟨e | buf, w₁⟩
          · simp only [hG]
          · dsimp only
            have hbuf : buf.length = stride := by rw [Gen.reads_get hget, Mem.length_read]
            rw [hinspect s cur buf hbuf]
            cases inspect m s cur buf with
            | next s' => exact ih (by rw [hmask]; exact Nat.lt_of_le_of_lt Nat.and_le_right (by omega)) s' w₁
            | stop out => rfl

theorem readMeta_reads {w w₁ : World} (h : (readMeta handle).reads k w = (.ok m, w₁)) :
    m = metaOf ((w.files k).bytes.read (handle + HEADER_SIZE) 32) := by
  rw [readMeta, Gen.reads_bind] at h
  rcases hget : (Gen.get (handle + HEADER_SIZE) 32).reads k w with ⟨e | buf, w₂⟩
  · rw [hget] at h
    cases h
  · rw [hget] at h
    cases h
    rw [Gen.reads_get hget]

theorem metaOf_lt (buf : List UInt8) : (metaOf buf).cap < 2 ^ 64 := getU64_lt buf 8

theorem len_metaOf_lt (buf : List UInt8) : (metaOf buf).len < 2 ^ 64 := getU64_lt buf 16

/-- A probe with checks reads what a probe reads, and checks its outcome. -/
theorem Checked.probe_reads {G : Meta → Except IoError (Batch × α) → Except IoError (Batch × α)}
    {inspect : Meta → σ → Nat → List UInt8 → ProbeStep σ α} {exhausted : Meta → σ → Except IoError (Batch × α)}
    {inspect' : Meta → σ → Nat → List UInt8 → Except IoError (ProbeStep σ α)}
    {exhausted' : Meta → σ → Except IoError (Batch × α)} {w : World}
    (hm : m = metaOf ((w.files k).bytes.read (handle + HEADER_SIZE) 32)) (hG : ∀ e, G m (.error e) = .error e)
    (hinspect : ∀ s cur buf, buf.length = stride →
      Checked.orPanic (inspect' m s cur buf) = (inspect m s cur buf).guard (G m))
    (hexhausted : ∀ s, exhausted' m s = G m (exhausted m s)) :
    (Checked.probe handle stride hash start inspect' exhausted').reads k w =
      (G m ((BucketTable.probe handle stride hash start inspect exhausted).reads k w).1,
        ((BucketTable.probe handle stride hash start inspect exhausted).reads k w).2) := by
  rw [Checked.probe, BucketTable.probe, Gen.reads_bind, Gen.reads_bind]
  rcases hmeta : (readMeta handle).reads k w with ⟨e | m', w₁⟩
  · simp only [hG]
  · obtain rfl : m' = m := (readMeta_reads hmeta).trans hm.symm
    dsimp only
    have hlt : m'.cap < 2 ^ 64 := by
      rw [hm]
      exact metaOf_lt _
    by_cases hzero : m'.cap = 0
    · rw [hzero, Checked.probeFrom, BucketTable.probeFrom, Gen.reads_lift, Gen.reads_lift, hexhausted]
    · rw [if_neg hzero]
      refine Checked.probeFrom_reads hG (by omega) hlt hinspect hexhausted _ ?_ _ _
      have hmask : maskOf m'.cap = m'.cap - 1 := by
        rw [maskOf, wrappingPred]
        omega
      rw [hmask]
      exact Nat.lt_of_le_of_lt Nat.and_le_right (by omega)

end Probe

/-! ### The checks of an insertion and of a removal -/

section Guards

variable {k handle stride ksz : Nat} {m : Meta} {taken : Checked.Taken} {keyBytes : List UInt8}

/-- The outcome of an insertion's probe once `m.len + 1` is checked. -/
def insertGuard (m : Meta) : Except IoError (Batch × Placed) → Except IoError (Batch × Placed)
  | .ok (ws, .added) => if m.len + 1 < 2 ^ 64 then .ok (ws, .added) else .error panicked
  | out => out

/-- The outcome of a removal's probe once `m.len - 1` is checked. -/
def removeGuard (m : Meta) : Except IoError (Batch × Option (List UInt8)) → Except IoError (Batch × Option (List UInt8))
  | .ok (ws, some payload) => if 1 ≤ m.len then .ok (ws, some payload) else .error panicked
  | out => out

theorem newBucketWrites_guard (e : NewEntry) (hused : m.used + 1 < 2 ^ 64) (target : Nat) (slotWasEmpty : Bool) :
    (do let ws ← Checked.newBucketWrites e m target slotWasEmpty; pure (ws, Placed.added) : Except IoError _) =
      insertGuard m (do let ws ← newBucketWrites e m target slotWasEmpty; pure (ws, Placed.added)) := by
  rw [Checked.newBucketWrites, newBucketWrites]
  cases checkedOffMul m.table target e.stride with
  | error e => rfl
  | ok off =>
      simp only [except_ok_bind]
      by_cases hlen : m.len + 1 < 2 ^ 64
      · rw [plus_ok hlen, except_ok_bind, plus_ok hused, except_ok_bind]
        cases slotWasEmpty <;> exact (if_pos hlen).symm
      · rw [plus, if_neg hlen]
        exact (if_neg hlen).symm

theorem inspectInsert_guard {e : NewEntry} {onHit onHit' : Meta → Nat → Except IoError Batch}
    (h : Checked.Shape e.stride e.ksz taken) (hhit : ∀ idx, onHit' m idx = onHit m idx) (hused : m.used + 1 < 2 ^ 64)
    (firstTomb : Option Nat) (idx : Nat) {buf : List UInt8} (hbuf : buf.length = e.stride) :
    Checked.orPanic (Checked.inspectInsert e taken onHit' m firstTomb idx buf) =
      (inspectInsert e onHit m firstTomb idx buf).guard (insertGuard m) := by
  rw [Checked.inspectInsert, inspectInsert, h.state hbuf, except_ok_bind]
  split
  · exact congrArg ProbeStep.stop (newBucketWrites_guard e hused _ _)
  · rw [h.matches hbuf, except_ok_bind]
    by_cases hkey : matchesKey e.ksz e.keyBytes buf
    · rw [if_pos hkey, if_pos (by simpa using hkey), h.taken buf hbuf, hhit]
      cases onHit m idx <;> rfl
    · rw [if_neg hkey, if_neg (by simpa using hkey)]
      split <;> rfl

theorem exhaustedInsert_guard {e : NewEntry} (hused : m.used + 1 < 2 ^ 64) (firstTomb : Option Nat) :
    Checked.exhaustedInsert e m firstTomb = insertGuard m (exhaustedInsert e m firstTomb) := by
  cases firstTomb with
  | none => rfl
  | some t => exact newBucketWrites_guard e hused t false

theorem inspectRemove_guard (h : Checked.Shape stride ksz taken) (hm : m.len < 2 ^ 64) (u : Unit) (idx : Nat)
    {buf : List UInt8} (hbuf : buf.length = stride) :
    Checked.orPanic (Checked.inspectRemove handle stride ksz keyBytes taken m u idx buf) =
      (inspectRemove handle stride ksz keyBytes m u idx buf).guard (removeGuard m) := by
  rw [Checked.inspectRemove, inspectRemove, h.state hbuf, except_ok_bind]
  split
  · rfl
  · rw [h.matches hbuf, except_ok_bind]
    by_cases hkey : matchesKey ksz keyBytes buf
    · rw [if_pos hkey, if_pos (by simpa using hkey), h.taken buf hbuf, except_ok_bind]
      cases checkedOffMul m.table idx stride with
      | error e => rfl
      | ok off =>
          simp only [except_ok_bind]
          by_cases hlen : 1 ≤ m.len
          · rw [minus_ok hlen, except_ok_bind, wrappingPred_eq hlen hm]
            exact congrArg ProbeStep.stop (if_pos hlen).symm
          · rw [minus, if_neg hlen]
            exact congrArg ProbeStep.stop (if_neg hlen).symm
    · rw [if_neg hkey, if_neg (by simpa using hkey)]
      rfl

end Guards

/-! ### Probes that end -/

section Ends

variable {a : Allocator} {handle stride ksz : Nat} {taken : Checked.Taken} {keyBytes : List UInt8} {w : World}

/-- What holds of the outcome of a probe: a read that failed, or what the closures make of the buckets. -/
theorem probe_outcome {σ α : Type} {k : Nat} {hash : UInt64} {start : σ}
    {inspect : Meta → σ → Nat → List UInt8 → ProbeStep σ α} {exhausted : Meta → σ → Except IoError (Batch × α)}
    {P : Except IoError (Batch × α) → Prop} (hread : ∀ e, ¬ Wedged e → P (.error e))
    (hinspect : ∀ m s cur buf out, inspect m s cur buf = .stop out → P out) (hexhausted : ∀ m s, P (exhausted m s))
    (w : World) : P ((probe handle stride hash start inspect exhausted).reads k w).1 := by
  have hfrom : ∀ (m : Meta) (left cur : Nat) (s : σ) (w : World),
      P ((probeFrom stride m inspect exhausted left cur s).reads k w).1 := by
    intro m left
    induction left with
    | zero =>
        intro cur s w
        exact hexhausted m s
    | succ left ih =>
        intro cur s w
        rw [probeFrom, Gen.reads_bind, Gen.reads_lift]
        cases hoff : checkedOffMul m.table cur stride with
        | error e => exact hread e (checkedOffMul_calm hoff)
        | ok off =>
            dsimp only
            rw [Gen.reads_bind]
            rcases hget : (Gen.get off stride).reads k w with ⟨e | buf, w₁⟩
            · exact hread e (Gen.Calm.get off stride w e (by rw [hget]))
            · dsimp only
              cases hstep : inspect m s cur buf with
              | next s' => exact ih _ s' w₁
              | stop out => exact hinspect m s cur buf out hstep
  rw [probe, Gen.reads_bind]
  rcases hmeta : (readMeta handle).reads k w with ⟨e | m, w₁⟩
  · exact hread e (calm_readMeta k handle w e (by rw [hmeta]))
  · exact hfrom m _ _ _ w₁

def metaAt (k handle : Nat) (w : World) : Meta := metaOf ((w.files k).bytes.read (handle + HEADER_SIZE) 32)

def removeProbe (handle stride ksz : Nat) (keyBytes : List UInt8) : Gen (Batch × Option (List UInt8)) :=
  probe handle stride (fnv1a keyBytes) () (inspectRemove handle stride ksz keyBytes) fun _ _ => .ok ([], none)

theorem calm_removeProbe (k handle stride ksz : Nat) (keyBytes : List UInt8) :
    (removeProbe handle stride ksz keyBytes).Calm k := by
  intro w
  refine probe_outcome (P := fun out => ∀ e, out = .error e → ¬ Wedged e) ?_ ?_ ?_ w
  · intro e hcalm e' he
    cases he
    exact hcalm
  · intro m u cur buf out hout e he
    rw [inspectRemove] at hout
    split at hout
    · cases hout
      cases he
    split at hout
    · cases hoff : checkedOffMul m.table cur stride with
      | error e' =>
          rw [hoff] at hout
          cases hout
          cases he
          exact checkedOffMul_calm hoff
      | ok off =>
          rw [hoff] at hout
          cases hout
          cases he
    · cases hout
  · intro m u e he
    cases he

/-- The probe of a removal finds its key. -/
def FindsKey (k handle stride ksz : Nat) (keyBytes : List UInt8) (w : World) : Prop :=
  ∃ ws payload, ((removeProbe handle stride ksz keyBytes).reads k w).1 = .ok (ws, some payload)

/-- A removal ends, unless it has an entry to take away from none. -/
theorem removeKey_ends_iff (h : Checked.Shape stride ksz taken) :
    EndsAt (Checked.removeKey a handle stride ksz keyBytes taken).run w ↔
      (FindsKey a.stack handle stride ksz keyBytes w → (metaAt a.stack handle w).len ≠ 0) := by
  have hreads : (Checked.probe handle stride (fnv1a keyBytes) ()
    (Checked.inspectRemove handle stride ksz keyBytes taken)
      fun _ _ => .ok ([], none)).reads a.stack w =
        (removeGuard (metaAt a.stack handle w) ((removeProbe handle stride ksz keyBytes).reads a.stack w).1,
          ((removeProbe handle stride ksz keyBytes).reads a.stack w).2) :=
    Checked.probe_reads (G := removeGuard) rfl (fun e => rfl)
      (fun u idx buf hbuf => inspectRemove_guard h (len_metaOf_lt _) u idx hbuf) fun _ => rfl
  have hcalm := calm_removeProbe a.stack handle stride ksz keyBytes w
  rw [Checked.removeKey, Checked.probeCommit, Script.run_bind, Script.run_atom]
  simp only [Script.run_lift]
  rw [endsAt_inplaceGen_iff (fun x => .pure x) (fun e w => endsAt_fail_iff), hreads, FindsKey]
  generalize ((removeProbe handle stride ksz keyBytes).reads a.stack w).1 = out at hcalm ⊢
  rcases out with e | ⟨ws, _ | payload⟩
  · simpa [removeGuard] using hcalm
  · simp [removeGuard]
  · by_cases hlen : 1 ≤ (metaAt a.stack handle w).len
    · simp only [removeGuard, if_pos hlen, reduceCtorEq, false_implies, implies_true, true_iff]
      intro _
      omega
    · simp only [removeGuard, if_neg hlen, Except.error.injEq, forall_eq', Wedged, or_true,
        not_true_eq_false, false_iff]
      intro hno
      exact hno ⟨ws, payload, rfl⟩ (by omega)

end Ends

/-! ### The rounds -/

section Insert

variable {a : Allocator} {e : NewEntry} {taken : Checked.Taken} {onHit onHit' : Meta → Nat → Except IoError Batch}
  {w v : World}

def insertProbe (e : NewEntry) (onHit : Meta → Nat → Except IoError Batch) : Gen (Batch × Placed) :=
  probe e.handle e.stride (fnv1a e.keyBytes) none (inspectInsert e onHit) (exhaustedInsert e)

/-- What the probe of an insertion yields: an error that is one, or an entry that changes nothing where there is no
room. -/
def InsertOutcome : Except IoError (Batch × Placed) → Prop
  | .error e => ¬ Wedged e
  | .ok (ws, placed) => placed = .noRoom → ws = []

theorem newBucketWrites_outcome (m : Meta) (target : Nat) (slotWasEmpty : Bool) :
    InsertOutcome (do let ws ← newBucketWrites e m target slotWasEmpty; pure (ws, Placed.added)) := by
  rw [newBucketWrites]
  cases hoff : checkedOffMul m.table target e.stride with
  | error x => exact checkedOffMul_calm hoff
  | ok off =>
      intro h
      cases h

theorem insertProbe_outcome (hcalm : ∀ m idx x, onHit m idx = .error x → ¬ Wedged x) (k : Nat) (w : World) :
    InsertOutcome ((insertProbe e onHit).reads k w).1 := by
  refine probe_outcome (fun _ hx => hx) ?_ ?_ w
  · intro m firstTomb cur buf out hout
    rw [inspectInsert] at hout
    split at hout
    · cases hout
      exact newBucketWrites_outcome m _ _
    split at hout
    · cases hhit : onHit m cur with
      | error y =>
          rw [hhit] at hout
          cases hout
          exact hcalm m cur _ hhit
      | ok ws =>
          rw [hhit] at hout
          cases hout
          intro h
          cases h
    · split at hout
      · cases hout
      · cases hout
  · intro m firstTomb
    cases firstTomb with
    | none => exact fun _ => rfl
    | some t => exact newBucketWrites_outcome m t false

/-- The probe of an insertion finds a bucket for a new entry. -/
def Adds (k : Nat) (e : NewEntry) (onHit : Meta → Nat → Except IoError Batch) (w : World) : Prop :=
  ∃ ws, ((insertProbe e onHit).reads k w).1 = .ok (ws, .added)

theorem insertProbe_reads (h : Checked.Shape e.stride e.ksz taken) (hhit : ∀ m idx, onHit' m idx = onHit m idx)
    (hused : (metaAt a.stack e.handle w).used + 1 < 2 ^ 64) :
    (Checked.probe e.handle e.stride (fnv1a e.keyBytes) none (Checked.inspectInsert e taken onHit')
      (Checked.exhaustedInsert e)).reads a.stack w =
        (insertGuard (metaAt a.stack e.handle w) ((insertProbe e onHit).reads a.stack w).1,
          ((insertProbe e onHit).reads a.stack w).2) :=
  Checked.probe_reads (G := insertGuard) rfl (fun _ => rfl)
    (fun firstTomb idx _ hbuf => inspectInsert_guard h (hhit _) hused firstTomb idx hbuf)
    (fun firstTomb => exhaustedInsert_guard hused firstTomb)

theorem insertGuard_eq {m : Meta} {out : Except IoError (Batch × Placed)}
    (h : (∃ ws, out = .ok (ws, .added)) → m.len + 1 < 2 ^ 64) :
    insertGuard m out = out := by
  rcases out with x | ⟨ws, placed⟩
  · rfl
  · cases placed with
    | added => exact if_pos (h ⟨ws, rfl⟩)
    | present payload => rfl
    | noRoom => rfl

/-- What a probe makes of an insertion, unless the number of entries overflows. -/
def inserting (a : Allocator) (e : NewEntry) (onHit : Meta → Nat → Except IoError Batch) : Io Placed := do
  let r ← inplaceGen a.stack (insertProbe e onHit)
  Prog.lift r

theorem probeCommit_insert (h : Checked.Shape e.stride e.ksz taken) (hhit : ∀ m idx, onHit' m idx = onHit m idx)
    (hused : (metaAt a.stack e.handle w).used + 1 < 2 ^ 64)
    (hlen : Adds a.stack e onHit w → (metaAt a.stack e.handle w).len + 1 < 2 ^ 64) :
    (Checked.probeCommit a e.handle e.stride (fnv1a e.keyBytes) none (Checked.inspectInsert e taken onHit')
      (Checked.exhaustedInsert e)).run w = inserting a e onHit w := by
  have hreads := insertProbe_reads h hhit hused
  rw [insertGuard_eq hlen] at hreads
  have hgen : inplaceGen a.stack (Checked.probe e.handle e.stride (fnv1a e.keyBytes) none
      (Checked.inspectInsert e taken onHit') (Checked.exhaustedInsert e)) w =
        inplaceGen a.stack (insertProbe e onHit) w := by
    simp only [inplaceGen, Prog.durable_apply, hreads]
  rw [Checked.probeCommit, Script.run_bind, Script.run_atom, inserting]
  simp only [Script.run_lift]
  cases hrun : inplaceGen a.stack (insertProbe e onHit) w with
  | mk out t cs =>
      cases out with
      | ok r => rw [Prog.bind_of_ok (hgen.trans hrun), Prog.bind_of_ok hrun]
      | error x => rw [Prog.bind_of_error (hgen.trans hrun), Prog.bind_of_error hrun]

theorem probeCommit_insert_ends (h : Checked.Shape e.stride e.ksz taken) (hhit : ∀ m idx, onHit' m idx = onHit m idx)
    (hcalm : ∀ m idx x, onHit m idx = .error x → ¬ Wedged x) (hused : (metaAt a.stack e.handle w).used + 1 < 2 ^ 64) :
    EndsAt (Checked.probeCommit a e.handle e.stride (fnv1a e.keyBytes) none (Checked.inspectInsert e taken onHit')
      (Checked.exhaustedInsert e)).run w ↔
        (Adds a.stack e onHit w → (metaAt a.stack e.handle w).len + 1 < 2 ^ 64) := by
  have hout := insertProbe_outcome (e := e) hcalm a.stack w
  rw [Checked.probeCommit, Script.run_bind, Script.run_atom]
  simp only [Script.run_lift]
  rw [endsAt_inplaceGen_iff (fun x => .pure x) (fun _ _ => endsAt_fail_iff), insertProbe_reads h hhit hused]
  constructor
  · rintro hall ⟨ws, hws⟩
    by_contra hlen
    rw [hws] at hall
    simp only [insertGuard, if_neg hlen] at hall
    exact hall panicked rfl (.inr rfl)
  · intro hlen x hx
    rw [insertGuard_eq hlen] at hx
    rw [hx] at hout
    exact hout

/-! ### Rounds that end -/

theorem readFields_ok {k off n : Nat} {fields : List Nat} (h : (readFields k off n w).out = .ok fields) :
    fields = (List.range n).map (fun i => (w.files k).bytes.word (off + i * 8)) ∧
    (readFields k off n w).final = w.tick := by
  obtain ⟨buf, hbuf, hfields, hfinal, -⟩ := Prog.bind_ok_inv h
  rw [readFields, hfinal]
  simp only [getInto, Prog.volatile_apply] at hbuf ⊢
  split at hbuf
  · cases hbuf
  split at hbuf
  · rename_i hfaulty hin
    rw [if_neg hfaulty, if_pos hin]
    refine ⟨?_, rfl⟩
    have hmap : fields = (List.range n).map fun i => getU64 buf (i * 8) := (Except.ok.inj hfields).symm
    rw [hmap, ← Except.ok.inj hbuf]
    apply List.map_congr_left
    intro i hi
    have hlt := List.mem_range.mp hi
    exact getU64_read (by omega)
  · cases hbuf

/-- One round of an insertion. `none` asks for another one. -/
def round (a : Allocator) (e : NewEntry) (taken : Checked.Taken) (onHit : Meta → Nat → Except IoError Batch) :
    Io (Option (Option (List UInt8))) := do
  let fields ← readFields a.stack (e.handle + CAP_OFF) 3
  if Crowded (fields.getD 0 0) (fields.getD 2 0) then do
    (Checked.growTable a e.handle e.stride e.ksz).run
    pure none
  else do
    let placed ← (Checked.probeCommit a e.handle e.stride (fnv1a e.keyBytes) none (Checked.inspectInsert e taken onHit)
      (Checked.exhaustedInsert e)).run
    match placed with
    | .added => pure (some none)
    | .present payload => pure (some (some payload))
    | .noRoom => do
        (Checked.growTable a e.handle e.stride e.ksz).run
        pure none

theorem insertLoop_succ (attempts : Nat) : (Checked.insertLoop a e taken onHit (attempts + 1)).run =
    round a e taken onHit >>= fun r => match r with
      | none => (Checked.insertLoop a e taken onHit attempts).run
      | some old => pure old := by
  rw [Checked.insertLoop, Script.run_bind, Script.run_atom, round, bind_assoc]
  refine congrArg (Bind.bind _) (funext fun fields => ?_)
  split
  · rw [Script.run_bind, bind_assoc]
    simp only [pure_bind]
  · rw [Script.run_bind, bind_assoc]
    refine congrArg (Bind.bind _) (funext fun placed => ?_)
    cases placed with
    | added => rfl
    | present payload => rfl
    | noRoom =>
        simp only
        rw [Script.run_bind, bind_assoc]
        simp only [pure_bind]

/-- A probe that starts in `w` adds no entry to `2 ^ 64 - 1` others, and a growth behind it fits. -/
def ProbeFits (a : Allocator) (e : NewEntry) (onHit : Meta → Nat → Except IoError Batch) (w : World) : Prop :=
  (Adds a.stack e onHit w → (metaAt a.stack e.handle w).len + 1 < 2 ^ 64) ∧
    ((inserting a e onHit w).out = .ok .noRoom →
      GrowthFits a e.handle e.stride e.ksz (inserting a e onHit w).final)

/-- A round that starts in `w` grows a table that fits, or probes. -/
def RoundFits (a : Allocator) (e : NewEntry) (onHit : Meta → Nat → Except IoError Batch) (w : World) : Prop :=
  ∀ fields, (readFields a.stack (e.handle + CAP_OFF) 3 w).out = .ok fields →
    if Crowded (fields.getD 0 0) (fields.getD 2 0)
    then GrowthFits a e.handle e.stride e.ksz (readFields a.stack (e.handle + CAP_OFF) 3 w).final
    else ProbeFits a e onHit (readFields a.stack (e.handle + CAP_OFF) 3 w).final

theorem capFields_eq {k handle : Nat} {fields : List Nat} (h : (readFields k (handle + CAP_OFF) 3 w).out = .ok fields) :
    (metaAt k handle (readFields k (handle + CAP_OFF) 3 w).final).cap = fields.getD 0 0 ∧
      (metaAt k handle (readFields k (handle + CAP_OFF) 3 w).final).used = fields.getD 2 0 := by
  obtain ⟨hfields, hfinal⟩ := readFields_ok h
  rw [hfinal, hfields, metaAt, World.files_tick, metaOf_read]
  exact ⟨rfl, rfl⟩

/-- A bucket for one more entry can be counted where the table is not crowded. -/
theorem used_lt_of_not_crowded {fields : List Nat} {k handle : Nat}
    (h : (readFields k (handle + CAP_OFF) 3 w).out = .ok fields) (hc : ¬ Crowded (fields.getD 0 0) (fields.getD 2 0)) :
    (metaAt k handle (readFields k (handle + CAP_OFF) 3 w).final).used + 1 < 2 ^ 64 := by
  have hcap := readFields_lt h 0
  rw [(capFields_eq h).2]
  rw [Crowded, not_or] at hc
  omega

theorem round_ends_iff (h : Checked.Shape e.stride e.ksz taken) (hhit : ∀ m idx, onHit' m idx = onHit m idx)
    (hcalm : ∀ m idx x, onHit m idx = .error x → ¬ Wedged x) :
    EndsAt (round a e taken onHit') w ↔ RoundFits a e onHit w := by
  have hgrow : ∀ v : World, EndsAt ((Checked.growTable a e.handle e.stride e.ksz).run >>= fun _ =>
      (pure none : Io (Option (Option (List UInt8))))) v ↔ GrowthFits a e.handle e.stride e.ksz v := by
    intro v
    rw [Checked.growTable_eq a h.fits h.small, endsAt_bind_iff, growTable_ends_iff h.fits]
    exact and_iff_left fun _ _ => endsAt_pure none _
  rw [round, endsAt_bind_iff, RoundFits]
  simp only [ends_readFields a.stack (e.handle + CAP_OFF) 3 w, true_and]
  refine forall_congr' fun fields => forall_congr' fun hfields => ?_
  by_cases hc : Crowded (fields.getD 0 0) (fields.getD 2 0)
  · rw [if_pos hc, if_pos hc, hgrow]
  · have hused := used_lt_of_not_crowded hfields hc
    rw [if_neg hc, if_neg hc, endsAt_bind_iff, probeCommit_insert_ends h hhit hcalm hused, ProbeFits]
    refine and_congr_right fun hlen => ?_
    rw [probeCommit_insert h hhit hused hlen]
    constructor
    · intro hall hnone
      exact (hgrow _).mp (hall _ hnone)
    · intro hroom placed hplaced
      cases placed with
      | added => exact endsAt_pure _ _
      | present payload => exact endsAt_pure _ _
      | noRoom => exact (hgrow _).mpr (hroom hplaced)

end Insert

/-! ### The rounds come to an end -/

theorem leNat_read_mono {m m' : Mem} (h : ∀ x, (m' x).toNat ≤ (m x).toNat) (off n : Nat) :
    leNat (m'.read off n) ≤ leNat (m.read off n) := by
  induction n generalizing off with
  | zero => exact Nat.le_refl _
  | succ n ih =>
      have hbyte := h off
      have hrest := ih (off + 1)
      simp only [Mem.read, leNat]
      omega

theorem word_zeroed_le (m : Mem) (p n off : Nat) : (m.write p (List.replicate n 0)).word off ≤ m.word off := by
  apply leNat_read_mono
  intro x
  by_cases hx : p ≤ x ∧ x < p + n
  · have hzero := Mem.write_at m p (List.replicate n 0) (i := x - p) (by rw [List.length_replicate]; omega)
    rw [Nat.add_sub_cancel' hx.1, List.getElem_replicate] at hzero
    rw [hzero]
    exact Nat.zero_le _
  · by_cases hlt : x < p
    · exact Nat.le_of_eq (congrArg UInt8.toNat (Mem.write_of_lt hlt))
    · exact Nat.le_of_eq (congrArg UInt8.toNat (Mem.write_of_ge (by rw [List.length_replicate]; omega)))

section Growth

variable {a : Allocator} {handle stride ksz cap0 : Nat} {w v : World}

theorem readU64_ok {k off x : Nat} (h : (readU64 k off w).out = .ok x) :
    x = (w.files k).bytes.word off ∧ (readU64 k off w).final = w.tick := by
  obtain ⟨buf, hbuf, hx, hfinal, -⟩ := Prog.bind_ok_inv h
  rw [readU64, hfinal]
  cases hx
  simp only [getInto, Prog.volatile_apply] at hbuf ⊢
  split at hbuf
  · cases hbuf
  split at hbuf
  · rename_i hfaulty hin
    cases hbuf
    simp only [if_neg hfaulty, if_pos hin]
    exact ⟨rfl, rfl⟩
  · cases hbuf

/-- The swap of a growth gives a table of the new capacity, unless the table was as big as that already. -/
theorem swapTable_cap {newtable newcap newSize oldSize : Nat} (hnew : newcap < 2 ^ 64) {r : Option (Nat × Nat)}
    (h : (inplaceGen a.stack (swapTable handle stride ksz newtable newcap newSize oldSize) w).out = .ok (.ok r)) :
    newcap ≤ (metaAt a.stack handle w).cap ∨
      ((inplaceGen a.stack (swapTable handle stride ksz newtable newcap newSize oldSize) w).final.files
        a.stack).bytes.word (handle + CAP_OFF) = newcap := by
  by_cases hstays : newcap ≤ (metaAt a.stack handle w).cap
  · exact .inl hstays
  right
  simp only [inplaceGen, Prog.durable_apply] at h ⊢
  rcases hreads : (swapTable handle stride ksz newtable newcap newSize oldSize).reads a.stack w with ⟨e | ⟨ws, x⟩, w'⟩
  · rw [hreads] at h
    cases h
  · rw [hreads] at h
    simp only at h ⊢
    split at h
    · cases h
    split at h
    · rename_i hfaulty hin
      rw [if_neg hfaulty, if_pos hin, World.files_storeAll_same]
      have hws : ∃ image used, ws = [(newtable, image), w8 (handle + TABLE_OFF) newtable, w8 (handle + CAP_OFF) newcap,
          w8 (handle + USED_OFF) used] := by
        rw [swapTable, Gen.reads_bind] at hreads
        rcases hmeta : (readMeta handle).reads a.stack w with ⟨e | m, w₁⟩
        · rw [hmeta] at hreads
          cases hreads
        · rw [hmeta] at hreads
          simp only at hreads
          have hm : m = metaAt a.stack handle w := readMeta_reads hmeta
          rw [if_neg (hm ▸ hstays), Gen.reads_bind] at hreads
          rcases hold : (readBuckets m stride oldSize m.cap 0).reads a.stack w₁ with ⟨e | old, w₂⟩
          · rw [hold] at hreads
            cases hreads
          · rw [hold] at hreads
            simp only at hreads
            rw [Gen.reads_bind, Gen.reads_lift] at hreads
            cases hbuild : rebuild stride ksz newcap old Mem.zero with
            | error e =>
                rw [hbuild] at hreads
                cases hreads
            | ok image =>
                rw [hbuild] at hreads
                cases hreads
                exact ⟨_, _, rfl⟩
      obtain ⟨image, used, rfl⟩ := hws
      simp only [Mem.writeAll, w8]
      rw [Mem.word_write_disjoint, Mem.word_write_self hnew]
      left
      simp only [CAP_OFF, USED_OFF]
      omega
    · cases h

theorem deallocRange_bytes (a : Allocator) (r : Range) (w : World) (k : Nat) :
    ((deallocRange a r w).final.files k).bytes = (w.files k).bytes := by
  simp only [deallocRange, Prog.durable_apply]
  split
  · rfl
  split
  · by_cases hk : k = a.stack
    · rw [hk, World.files_release_same, File.bytes_free, World.files_tick]
    · rw [World.files_release_ne hk, World.files_tick]
  · rfl

theorem afterSwap_bytes {spare : Range} (r : Option (Nat × Nat)) :
    (((afterSwap a stride spare (.ok r)).run w).final.files a.stack).bytes = (w.files a.stack).bytes := by
  cases r with
  | none =>
      rw [afterSwap, Script.run_bind, Script.run_attempt, Script.run_atom, Prog.bind_of_ok (Prog.attempt_apply _ _)]
      exact deallocRange_bytes a spare w a.stack
  | some old =>
      rw [afterSwap]
      split
      · rw [Script.run_bind, Script.run_attempt, Script.run_atom, Prog.bind_of_ok (Prog.attempt_apply _ _)]
        exact deallocRange_bytes a _ w a.stack
      · rfl

theorem alloc_word_le {size off : Nat} {r : Range} (h : (alloc a size w).out = .ok r) :
    ((alloc a size w).final.files a.stack).bytes.word off ≤ (w.files a.stack).bytes.word off := by
  rcases alloc_outcome a size w with ⟨e, w', hrun, -, -⟩ | ⟨p, hadmits, hrun⟩
  · rw [hrun] at h
    cases h
  · have hfiles : (w.tick.grant a.stack ⟨p, size⟩ hadmits).files a.stack =
      (w.files a.stack).allocAt ⟨p, size⟩ hadmits :=
      World.files_grant_same
    rw [hrun]
    show ((w.tick.grant a.stack ⟨p, size⟩ hadmits).files a.stack).bytes.word off ≤ _
    rw [hfiles, File.bytes_allocAt]
    exact word_zeroed_le _ _ _ _

/-- A growth that returns has made the table as big as it set out to. -/
theorem growTable_cap (hstride : 8 ≤ stride) (h : ((growTable a handle stride ksz).run w).out = .ok ()) :
    Sized stride ((w.files a.stack).bytes.word (handle + CAP_OFF)) ∧
      (((growTable a handle stride ksz).run w).final.files a.stack).bytes.word (handle + CAP_OFF) =
        newcapOf ((w.files a.stack).bytes.word (handle + CAP_OFF)) := by
  rw [growTable, Script.run_bind, Script.run_atom] at h ⊢
  obtain ⟨cap0, hread, h, hfinal, -⟩ := Prog.bind_ok_inv h
  obtain ⟨hcap0, htick⟩ := readU64_ok hread
  rw [hfinal]
  rw [Script.run_bind, Script.run_lift] at h ⊢
  cases hsize : checkedMul (newcapOf cap0) stride with
  | error e =>
      rw [hsize, Script.lift_error_bind] at h
      cases h
  | ok newSize =>
      obtain ⟨hsized, rfl⟩ := Sized.of_checked hstride hsize
      have hold : checkedMul cap0 stride = .ok (cap0 * stride) := by
        have hlt := hsized.old
        exact if_pos (by omega)
      rw [hsize, Prog.lift_ok, pure_bind, Script.run_bind, Script.run_atom] at h
      rw [Prog.lift_ok, pure_bind, Script.run_bind, Script.run_atom]
      obtain ⟨spare, hspare, h, hfinal, -⟩ := Prog.bind_ok_inv h
      rw [hfinal]
      rw [growInto, hold, Script.lift_bind, Script.done_ok_bind, Script.run_bind, Script.run_atom] at h ⊢
      obtain ⟨r, hr, h, hfinal, -⟩ := Prog.bind_ok_inv h
      rw [hfinal]
      cases r with
      | error e =>
          rw [afterSwap, Script.run_bind, Script.run_attempt, Script.run_atom,
            Prog.bind_of_ok (Prog.attempt_apply _ _)] at h
          cases h
      | ok old =>
          have hnew : newcapOf cap0 < 2 ^ 64 := by
            have hle : newcapOf cap0 ≤ newcapOf cap0 * stride := Nat.le_mul_of_pos_right _ (by omega)
            have hlt := hsized.new
            omega
          rw [← hcap0, afterSwap_bytes]
          refine ⟨hsized, ?_⟩
          rcases swapTable_cap hnew hr with hstays | hword
          · have hle : _ ≤ ((readU64 a.stack (handle + CAP_OFF) w).final.files a.stack).bytes.word (handle + CAP_OFF) :=
              alloc_word_le hspare
            rw [htick, World.files_tick, ← hcap0] at hle
            rw [htick, metaAt, metaOf_read] at hstays
            have hbigger := hsized.bigger
            have hcapword : newcapOf cap0 ≤ ((alloc a (newcapOf cap0 * stride) w.tick).final.files a.stack).bytes.word
              (handle + CAP_OFF) := hstays
            omega
          · exact hword

end Growth

section Loop

variable {a : Allocator} {e : NewEntry} {taken : Checked.Taken} {onHit onHit' : Meta → Nat → Except IoError Batch}
  {w v : World}

theorem inserting_noRoom (hcalm : ∀ m idx x, onHit m idx = .error x → ¬ Wedged x)
    (h : (inserting a e onHit w).out = .ok .noRoom) :
    ((inserting a e onHit w).final.files a.stack).bytes = (w.files a.stack).bytes := by
  rw [inserting] at h ⊢
  obtain ⟨r, hr, hplaced, hfinal, -⟩ := Prog.bind_ok_inv h
  rw [hfinal]
  cases r with
  | error x => cases hplaced
  | ok placed =>
      cases hplaced
      have hout := insertProbe_outcome (e := e) hcalm a.stack w
      have hfiles := Gen.reads_files a.stack (insertProbe e onHit) w
      simp only [inplaceGen, Prog.durable_apply] at hr ⊢
      rcases hreads : (insertProbe e onHit).reads a.stack w with ⟨x | ⟨ws, placed⟩, w'⟩
      · rw [hreads] at hr
        cases hr
      · rw [hreads] at hr hout hfiles
        simp only at hr hout hfiles ⊢
        split at hr
        · cases hr
        split at hr
        · rename_i hfaulty hin
          cases hr
          rw [hout rfl] at hin ⊢
          rw [if_neg hfaulty, if_pos hin, Prog.lift_ok, Prog.pure_apply, World.storeAll, World.files_tick, hfiles]
        · cases hr

/-- A round that asks for another one has made the table bigger. -/
theorem round_again (h : Checked.Shape e.stride e.ksz taken) (hhit : ∀ m idx, onHit' m idx = onHit m idx)
    (hcalm : ∀ m idx x, onHit m idx = .error x → ¬ Wedged x) (hfits : RoundFits a e onHit w)
    (hagain : (round a e taken onHit' w).out = .ok none) :
    Sized e.stride ((w.files a.stack).bytes.word (e.handle + CAP_OFF)) ∧
      ((round a e taken onHit' w).final.files a.stack).bytes.word (e.handle + CAP_OFF) =
        newcapOf ((w.files a.stack).bytes.word (e.handle + CAP_OFF)) := by
  have hstride : 8 ≤ e.stride := by
    have hle := h.fits
    omega
  have hgrow : ∀ v : World, (v.files a.stack).bytes = (w.files a.stack).bytes →
      (((Checked.growTable a e.handle e.stride e.ksz).run >>= fun _ =>
        (pure none : Io (Option (Option (List UInt8))))) v).out = .ok none →
      Sized e.stride ((w.files a.stack).bytes.word (e.handle + CAP_OFF)) ∧
        ((((Checked.growTable a e.handle e.stride e.ksz).run >>= fun _ =>
          (pure none : Io (Option (Option (List UInt8))))) v).final.files a.stack).bytes.word (e.handle + CAP_OFF) =
          newcapOf ((w.files a.stack).bytes.word (e.handle + CAP_OFF)) := by
    intro v hv hnone
    rw [Checked.growTable_eq a h.fits h.small] at hnone ⊢
    obtain ⟨u, hgrown, -, hfinal, -⟩ := Prog.bind_ok_inv hnone
    rw [hfinal, ← hv]
    exact growTable_cap hstride hgrown
  rw [round] at hagain ⊢
  obtain ⟨fields, hfields, hagain, hfinal, -⟩ := Prog.bind_ok_inv hagain
  rw [hfinal]
  have hround := hfits fields hfields
  have htick : (((readFields a.stack (e.handle + CAP_OFF) 3 w).final).files a.stack).bytes =
    (w.files a.stack).bytes := by
    rw [(readFields_ok hfields).2, World.files_tick]
  by_cases hc : Crowded (fields.getD 0 0) (fields.getD 2 0)
  · rw [if_pos hc] at hagain ⊢
    exact hgrow _ htick hagain
  · have hused := used_lt_of_not_crowded hfields hc
    rw [if_neg hc] at hround hagain ⊢
    obtain ⟨placed, hplaced, hagain, hfinal, -⟩ := Prog.bind_ok_inv hagain
    rw [hfinal]
    rw [probeCommit_insert h hhit hused hround.1] at hplaced hagain ⊢
    cases placed with
    | added => cases hagain
    | present payload => cases hagain
    | noRoom => exact hgrow _ ((inserting_noRoom hcalm hplaced).trans htick) hagain

/-- The rounds of an insertion that starts in `w`: it comes to one that starts in `v`. -/
inductive Comes (a : Allocator) (e : NewEntry) (taken : Checked.Taken) (onHit : Meta → Nat → Except IoError Batch) :
    World → World → Prop
  | here {w : World} : Comes a e taken onHit w w
  | next {w v : World} : (round a e taken onHit w).out = .ok none →
      Comes a e taken onHit (round a e taken onHit w).final v → Comes a e taken onHit w v

/-- The rounds that a table of `cap` buckets may take. -/
def Enough (attempts cap : Nat) : Prop := 0 < attempts ∧ if cap = 0 then 60 < attempts else 2 ^ 61 ≤ cap * 2 ^ attempts

theorem Enough.next {attempts cap stride : Nat} (h : Enough (attempts + 1) cap) (hs : Sized stride cap)
    (hstride : 8 ≤ stride) : Enough attempts (newcapOf cap) := by
  have hnew : newcapOf cap * 8 ≤ newcapOf cap * stride := Nat.mul_le_mul_left _ hstride
  have hlt := hs.new
  have heq := hs.eq
  obtain ⟨-, h⟩ := h
  by_cases hzero : cap = 0
  · rw [if_pos hzero] at h heq
    rw [heq]
    refine ⟨by omega, ?_⟩
    rw [if_neg (by decide)]
    calc 2 ^ 61 ≤ 4 * 2 ^ 60 := by decide
      _ ≤ MIN_CAP * 2 ^ attempts := Nat.mul_le_mul_left _ (Nat.pow_le_pow_right (by decide) (by omega))
  · rw [if_neg hzero] at h heq
    rw [Nat.pow_succ 2 attempts, Nat.mul_comm (2 ^ attempts), ← Nat.mul_assoc, ← heq] at h
    constructor
    · by_contra hno
      rw [show attempts = 0 by omega, Nat.pow_zero, Nat.mul_one] at h
      omega
    · rw [if_neg (by omega)]
      exact h

theorem enough_of_le {attempts : Nat} (h : 61 ≤ attempts) (cap : Nat) : Enough attempts cap := by
  refine ⟨by omega, ?_⟩
  split
  · omega
  · calc 2 ^ 61 ≤ 2 ^ attempts := Nat.pow_le_pow_right (by decide) h
      _ ≤ cap * 2 ^ attempts := Nat.le_mul_of_pos_left _ (by omega)

/-- An insertion ends exactly if each of its rounds fits. -/
theorem insertLoop_ends_iff (h : Checked.Shape e.stride e.ksz taken) (hhit : ∀ m idx, onHit' m idx = onHit m idx)
    (hcalm : ∀ m idx x, onHit m idx = .error x → ¬ Wedged x) {attempts : Nat}
    (hattempts : Enough attempts ((w.files a.stack).bytes.word (e.handle + CAP_OFF))) :
    EndsAt (Checked.insertLoop a e taken onHit' attempts).run w ↔
      ∀ v, Comes a e taken onHit' w v → RoundFits a e onHit v := by
  induction attempts generalizing w with
  | zero => exact absurd hattempts.1 (Nat.lt_irrefl 0)
  | succ attempts ih =>
      rw [insertLoop_succ, endsAt_bind_iff, round_ends_iff h hhit hcalm]
      constructor
      · rintro ⟨hfits, hrest⟩ v hcomes
        cases hcomes with
        | here => exact hfits
        | next hagain hcomes =>
            obtain ⟨hs, hcap⟩ := round_again h hhit hcalm hfits hagain
            have henough := hattempts.next hs (by have hle := h.fits; omega)
            rw [← hcap] at henough
            exact (ih henough).mp (hrest none hagain) v hcomes
      · intro hall
        refine ⟨hall w .here, fun r hr => ?_⟩
        cases r with
        | some old => exact endsAt_pure _ _
        | none =>
            obtain ⟨hs, hcap⟩ := round_again h hhit hcalm (hall w .here) hr
            have henough := hattempts.next hs (by have hle := h.fits; omega)
            rw [← hcap] at henough
            exact (ih henough).mpr fun v hv => hall v (.next hr hv)

end Loop

end BucketTable

end BStackRaii
