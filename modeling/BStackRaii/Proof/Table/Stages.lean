import BStackRaii.Logic.ProbingReader
import BStackRaii.Proof.Shared
import BStackRaii.Proof.Table.Calls
/-!
# The steps of an insertion and of a removal

Between two atomic steps of a call, others may change the table or replace it. A `Stage` is a place in the code of an
insertion, and `Turn` lists what the step from there can do to a table that is well formed.
-/

namespace BStackRaii

open Probing

theorem readFields_run {k off n : Nat} {w : World} (hq : w.Quiet) (h : off + n * 8 ≤ (w.files k).len) :
    readFields k off n w = ⟨.ok ((List.range n).map fun i => (w.files k).bytes.word (off + i * 8)), w, []⟩ := by
  rw [readFields, Prog.bind_of_ok (getInto_run hq h)]
  have hwords : (List.range n).map (fun i => getU64 ((w.files k).bytes.read off (n * 8)) (i * 8)) =
      (List.range n).map fun i => (w.files k).bytes.word (off + i * 8) := by
    apply List.map_congr_left
    intro i hi
    have hlt := List.mem_range.mp hi
    exact getU64_read (by omega)
  rw [hwords]
  rfl

namespace BucketTable

variable {ksize : Nat} {V : Type}

def Table.blocks (P : Payload V) (t : Table ksize V) : Multiset Range := if 0 < t.info.cap then {t.block P} else 0

/-- A write to the words of the metadata, or into the buckets. -/
def InWords (P : Payload V) (handle : Nat) (t : Table ksize V) (x : Nat × List UInt8) : Prop :=
  (handle + HEADER_SIZE ≤ x.1 ∧ x.1 + x.2.length ≤ handle + 48) ∨
    (0 < t.info.cap ∧ t.info.table ≤ x.1 ∧ x.1 + x.2.length ≤ (t.block P).stop)

/-- How an insertion may fail when no I/O step does. One whose rounds are spent has not returned in the source. -/
def InsertError (e : IoError) : Prop := e = outOfSpace ∨ e = badCapacity ∨ e = neverEnds

/-! ### The places in the code of an insertion -/

/-- Where an insertion stands, with the rounds it has left. -/
inductive Stage
  | loop (left : Nat)
  | probing (left : Nat)
  | growing (left : Nat)
  | reserving (left cap0 : Nat)
  | swapping (left cap0 : Nat) (spare : Range)
  | freeing (left : Nat) (old : Range)

section Code

variable (a : Allocator) (e : NewEntry) (onHit : Meta → Nat → Except IoError Batch)

/-- What an insertion does once its probe has ended. -/
def afterProbe (left : Nat) : Placed → Script IoError World (Option (List UInt8))
  | .added => pure none
  | .present payload => pure (some payload)
  | .noRoom => do
      growTable a e.handle e.stride e.ksz
      insertLoop a e onHit left

def Stage.code : Stage → Script IoError World (Option (List UInt8))
  | loop left => insertLoop a e onHit left
  | probing left => do
      let placed ← probeCommit a e.handle e.stride (fnv1a e.keyBytes) none (inspectInsert e onHit) (exhaustedInsert e)
      afterProbe a e onHit left placed
  | growing left => do
      growTable a e.handle e.stride e.ksz
      insertLoop a e onHit left
  | reserving left cap0 =>
      (do
        let spare ← .atom (alloc a (newcapOf cap0 * e.stride))
        growInto a e.handle e.stride e.ksz cap0 (newcapOf cap0 * e.stride) spare) >>= fun _ =>
      insertLoop a e onHit left
  | swapping left cap0 spare => do
      growInto a e.handle e.stride e.ksz cap0 (newcapOf cap0 * e.stride) spare
      insertLoop a e onHit left
  | freeing left old => do
      let _ ← .attempt (.atom (deallocRange a old))
      insertLoop a e onHit left

end Code

def Stage.held : Stage → Multiset Range
  | swapping _ _ spare => {spare}
  | freeing _ old => {old}
  | _ => 0

/-- The capacity that a growth has read: the table has at least that much since. -/
structure Known (P : Payload V) (t : Table ksize V) (cap0 : Nat) : Prop where
  pow : cap0 = 0 ∨ ∃ e, cap0 = 2 ^ (e + 2)
  le : cap0 ≤ t.info.cap
  small : newcapOf cap0 * width P ksize < 2 ^ 64

def Stage.Fits (P : Payload V) (t : Table ksize V) : Stage → Prop
  | reserving _ cap0 => Known P t cap0
  | swapping _ cap0 spare => Known P t cap0 ∧ spare.len = newcapOf cap0 * width P ksize
  | _ => True

theorem Stage.Fits.mono {P : Payload V} {t t' : Table ksize V} {s : Stage} (h : s.Fits P t)
    (hcap : t.info.cap ≤ t'.info.cap) : s.Fits P t' := by
  cases s with
  | reserving left cap0 => exact ⟨h.pow, h.le.trans hcap, h.small⟩
  | swapping left cap0 spare => exact ⟨⟨h.1.pow, h.1.le.trans hcap, h.1.small⟩, h.2⟩
  | loop left => exact trivial
  | probing left => exact trivial
  | growing left => exact trivial
  | freeing left old => exact trivial

def Placed.answer : Placed → Option (List UInt8)
  | .present payload => some payload
  | _ => none

/-- What the step of an insertion of `v` under `k` does from the table `t` and the stage `s` on: the script that is
left, and the world. -/
inductive Turn (P : Payload V) (a : Allocator) (handle size : Nat) (onHit : Meta → Nat → Except IoError Batch)
    (put : V → V) (k : Key ksize) (v : V) (t : Table ksize V) (s : Stage) (w : World) :
    Script IoError World (Option (List UInt8)) → World → Prop
  | idle (s' : Stage) (w' : World) (hq : w'.Quiet) (hfiles : w'.files = w.files) (hfits : s'.Fits P t)
      (hheld : s'.held = s.held) : Turn P a handle size onHit put k v t s w (s'.code a (entryFor P handle k v) onHit) w'
  | failed (e : IoError) (w' : World) (hq : w'.Quiet) (hfiles : w'.files = w.files) (he : InsertError e)
      (hheld : s.held = 0) : Turn P a handle size onHit put k v t s w (.done (.error e)) w'
  | grant (s' : Stage) (r : Range) (hr : (w.files a.stack).Admits r) (hfits : s'.Fits P t)
      (hheld : s'.held = s.held + {r}) :
      Turn P a handle size onHit put k v t s w (s'.code a (entryFor P handle k v) onHit) (w.grant a.stack r hr)
  | release (s' : Stage) (r : Range) (hr : r ∈ (w.files a.stack).live) (hfits : s'.Fits P t)
      (hheld : s'.held + {r} = s.held) :
      Turn P a handle size onHit put k v t s w (s'.code a (entryFor P handle k v) onHit) (w.release a.stack r)
  | swap (s' : Stage) (ws : Batch) (t' : Table ksize V) (hin : ∀ x ∈ ws, InWords P handle t' x)
      (htabled : Tabled P (File.writeAll ws (w.files a.stack)) handle size t')
      (hmaps : ∀ m, Maps t.info.cap t.slots m → Maps t'.info.cap t'.slots m) (hcap : t.info.cap < t'.info.cap)
      (htable : t'.info.table ≠ t.info.table ∨ t.info.cap = 0) (hfits : s'.Fits P t')
      (hblocks : t'.blocks P + s'.held = t.blocks P + s.held) :
      Turn P a handle size onHit put k v t s w (s'.code a (entryFor P handle k v) onHit) (World.storeAll a.stack ws w)
  | placed (ws : Batch) (p : Placed) (t' : Table ksize V) (hne : p ≠ .noRoom)
      (hin : ∀ x ∈ ws, InWords P handle t x) (hins : Inserted P t k v put p t')
      (htabled : Tabled P (File.writeAll ws (w.files a.stack)) handle size t') (hheld : s.held = 0) :
      Turn P a handle size onHit put k v t s w (.done (.ok p.answer)) (World.storeAll a.stack ws w)

section Steps

variable {P : Payload V} {a : Allocator} {handle size left cap0 : Nat} {w : World} {t t' : Table ksize V} {f : File}
  {onHit : Meta → Nat → Except IoError Batch} {put : V → V} {k : Key ksize} {v : V} {spare old : Range} {ws : Batch}

/-! ### The writes -/

theorem inWords_bucket {i : Nat} (hi : i < t.info.cap) {x : Nat × List UInt8} (hlo : t.at P i ≤ x.1)
    (hhi : x.1 + x.2.length ≤ t.at P i + width P ksize) : InWords P handle t x :=
  .inr ⟨by omega, Nat.le_trans (Nat.le_add_right _ _) hlo, Nat.le_trans hhi (Laid.at_le t hi)⟩

theorem inWords_word (t : Table ksize V) {off : Nat} (n : Nat) (hlo : HEADER_SIZE ≤ off) (hhi : off + 8 ≤ 48) :
    InWords P handle t (w8 (handle + off) n) := by
  left
  simp only [w8, length_leBytes]
  omega

theorem newBucketWrites_inWords (h : Laid P f handle size t) {i : Nat} (hi : i < t.info.cap) {wasEmpty : Bool}
    (hws : newBucketWrites (entryFor P handle k v) t.info i wasEmpty = .ok ws) : ∀ x ∈ ws, InWords P handle t x := by
  have hrun : newBucketWrites (entryFor P handle k v) t.info i wasEmpty =
      .ok ([(t.at P i, bucketImage P k v), w8 (handle + LEN_OFF) (t.info.len + 1)] ++
        if wasEmpty then [w8 (handle + USED_OFF) (t.info.used + 1)] else []) := by
    simp only [newBucketWrites, entryFor]
    rw [h.checked_at hi]
    rfl
  rw [hrun] at hws
  cases hws
  have hbucket : InWords P handle t (t.at P i, bucketImage P k v) :=
    inWords_bucket hi (Nat.le_refl _) (Nat.le_of_eq (by rw [length_bucketImage]))
  have hlen : InWords P handle t (w8 (handle + LEN_OFF) (t.info.len + 1)) :=
    inWords_word t _ (by decide) (by decide)
  intro x hx
  rcases List.mem_append.mp hx with hx | hx
  · rcases List.mem_cons.mp hx with rfl | hx
    · exact hbucket
    · exact List.mem_singleton.mp hx ▸ hlen
  · cases wasEmpty with
    | true => exact List.mem_singleton.mp hx ▸ inWords_word t _ (by decide) (by decide)
    | false => cases hx

theorem InWords.inside (h : Laid P f handle size t) {x : Nat × List UInt8} (hx : InWords P handle t x) :
    x.1 + x.2.length ≤ f.len := by
  have hheader := h.header_inside
  have hsize := h.size_le
  rcases hx with hx | ⟨hcap, -, hx⟩
  · omega
  · exact hx.trans (h.block_inside hcap)

/-- The step lemma of an insertion, with the places of its writes. -/
theorem insert_turn (h : Tabled P f handle size t) (hhit : Hits P ksize onHit put) (k : Key ksize) (v : V) :
    ∃ ws placed t', (probe handle (width P ksize) (fnv1a k.val) none
        (inspectInsert (entryFor P handle k v) onHit) (exhaustedInsert (entryFor P handle k v))).eval f =
        .ok (ws, placed) ∧
      (∀ x ∈ ws, InWords P handle t x) ∧ Inserted P t k v put placed t' ∧
      Tabled P (File.writeAll ws f) handle size t' := by
  obtain ⟨ws, placed, t', heval, -, hins, htabled⟩ := insert_step h hhit k v
  refine ⟨ws, placed, t', heval, ?_, hins, htabled⟩
  have hlaid := h.toLaid
  have hcur : t.info.cap ≠ 0 → home k % t.info.cap < t.info.cap := fun hne => Nat.mod_lt _ (by omega)
  have hsought := h.probed.seek k
  rw [probe_eval hlaid, insertFrom_eval hlaid onHit k v hcur] at heval
  cases ho : seek t.info.cap t.slots k t.info.cap (home k % t.info.cap) none with
  | found i old =>
      rw [ho] at hsought heval
      obtain ⟨ws', hws, hin, -⟩ := hhit hlaid hsought.1 hsought.2
      simp only [insertResult, hws] at heval
      cases heval
      exact fun x hx => inWords_bucket hsought.1 (hin x hx).1 (hin x hx).2
  | free i wasEmpty =>
      rw [ho] at hsought heval
      cases hws : newBucketWrites (entryFor P handle k v) t.info i wasEmpty with
      | error e =>
          simp only [insertResult, hws] at heval
          cases heval
      | ok ws' =>
          simp only [insertResult, hws] at heval
          cases heval
          exact newBucketWrites_inWords hlaid (Sought.lt hsought) hws
  | full =>
      rw [ho] at heval
      cases heval
      exact fun x hx => absurd hx List.not_mem_nil

/-- The step lemma of a removal, with the places of its writes. -/
theorem remove_turn (h : Tabled P f handle size t) (k : Key ksize) :
    ∃ ws old t', (probe handle (width P ksize) (fnv1a k.val) ()
        (inspectRemove handle (width P ksize) ksize k.val) fun _ _ => .ok ([], none)).eval f = .ok (ws, old) ∧
      (∀ x ∈ ws, InWords P handle t x) ∧ Removed P t k old t' ∧
      Tabled P (File.writeAll ws f) handle size t' := by
  obtain ⟨ws, old, t', heval, -, hrem, htabled⟩ := remove_step h k
  refine ⟨ws, old, t', heval, ?_, hrem, htabled⟩
  have hlaid := h.toLaid
  have hcur : t.info.cap ≠ 0 → home k % t.info.cap < t.info.cap := fun hne => Nat.mod_lt _ (by omega)
  have hsought := h.probed.seek k
  rw [probe_eval hlaid, removeFrom_eval hlaid k none hcur] at heval
  cases ho : seek t.info.cap t.slots k t.info.cap (home k % t.info.cap) none with
  | found i v =>
      rw [ho] at hsought heval
      cases heval
      have hstate : InWords P handle t (w8 (t.at P i) TOMBSTONE) :=
        inWords_bucket hsought.1 (Nat.le_refl _) (by simp only [w8, length_leBytes, width]; omega)
      have hlen : InWords P handle t (w8 (handle + LEN_OFF) (wrappingPred t.info.len)) :=
        inWords_word t _ (by decide) (by decide)
      intro x hx
      rcases List.mem_cons.mp hx with rfl | hx
      · exact hstate
      · exact List.mem_singleton.mp hx ▸ hlen
  | free i wasEmpty =>
      rw [ho] at heval
      cases heval
      exact fun x hx => absurd hx List.not_mem_nil
  | full =>
      rw [ho] at heval
      cases heval
      exact fun x hx => absurd hx List.not_mem_nil

theorem Inserted.steady {p : Placed} (h : Inserted P t k v put p t') :
    t'.info.table = t.info.table ∧ t'.info.cap = t.info.cap ∧ Steady t.info.cap t.slots t'.slots := by
  cases h with
  | added habs hb =>
      refine ⟨hb.table_eq, hb.cap_eq, ?_⟩
      cases hb with
      | insert i wasEmpty v hs => exact steady_fill (Sought.not_occupied hs) _
      | replace i v v' hs => exact absurd hs.2 (habs i hs.1 v)
  | present hs => exact ⟨rfl, rfl, steady_replace hs.2 _⟩
  | noRoom hs => exact ⟨rfl, rfl, steady_refl _ _⟩

theorem Removed.steady {o : Option (List UInt8)} (h : Removed P t k o t') (hp : Probed home t.info.cap t.slots) :
    t'.info.table = t.info.table ∧ t'.info.cap = t.info.cap ∧ Steady t.info.cap t.slots t'.slots := by
  cases h with
  | found hs => exact ⟨rfl, rfl, hp.steady_remove hs.1 hs.2⟩
  | absent habs => exact ⟨rfl, rfl, steady_refl _ _⟩

/-- What an insertion leaves of the finite map, and what it says of it. -/
theorem Inserted.maps {p : Placed} (h : Inserted P t k v put p t') (hs : t.Sound) (hne : p ≠ .noRoom)
    {m : Key ksize → Option V} (hm : Maps t.info.cap t.slots m) :
    Maps t'.info.cap t'.slots (Function.update m k (BucketTable.entered v put (m k))) ∧ p.answer = (m k).map P.enc := by
  cases h with
  | added habs hb =>
      rw [hm.get_of_absent habs]
      exact ⟨hb.maps hs hm, rfl⟩
  | @present i old hsought =>
      rw [hm.get_of_slot hsought.1 hsought.2]
      exact ⟨hm.replace hs.probed hsought.1 hsought.2 (put old), rfl⟩
  | noRoom hfull => exact absurd rfl hne

theorem Removed.maps {o : Option (List UInt8)} (h : Removed P t k o t') (hs : t.Sound) {m : Key ksize → Option V}
    (hm : Maps t.info.cap t.slots m) :
    Maps t'.info.cap t'.slots (Function.update m k none) ∧ o = (m k).map P.enc := by
  cases h with
  | found hsought =>
      rw [hm.get_of_slot hsought.1 hsought.2]
      exact ⟨hm.remove hs.probed hsought.1 hsought.2, rfl⟩
  | absent habs =>
      have hnone := hm.get_of_absent habs
      rw [hnone]
      refine ⟨?_, rfl⟩
      rw [← hnone, Function.update_eq_self]
      exact hm

/-! ### The step of an insertion -/

theorem Turn.swap_nil {s s' : Stage} (hq : w.Quiet) (hfits : s'.Fits P t) (hheld : s'.held = s.held) :
    Turn P a handle size onHit put k v t s w (s'.code a (entryFor P handle k v) onHit) (World.storeAll a.stack [] w) :=
  .idle s' w hq rfl hfits hheld

theorem turn_loop (hq : w.Quiet) (h : Tabled P (w.files a.stack) handle size t) (left : Nat) :
    Turn P a handle size onHit put k v t (.loop (left + 1)) w
      (((Stage.loop (left + 1)).code a (entryFor P handle k v) onHit).advance w).1
      (((Stage.loop (left + 1)).code a (entryFor P handle k v) onHit).advance w).2 := by
  have hin := h.header_inside
  have hsize := h.size_le
  have hfields := h.info
  rw [metaOf_read] at hfields
  have hrun : readFields a.stack (handle + CAP_OFF) 3 w = ⟨.ok [t.info.cap, t.info.len, t.info.used], w, []⟩ := by
    rw [readFields_run hq (by simp only [CAP_OFF, HEADER_SIZE]; omega), ← hfields]
    rfl
  have hcode : (Stage.loop (left + 1)).code a (entryFor P handle k v) onHit =
      .step (readFields a.stack (handle + CAP_OFF) 3) fun r => Script.done r >>= fun fields =>
        if Crowded (fields.getD 0 0) (fields.getD 2 0) then
          (Stage.growing left).code a (entryFor P handle k v) onHit
        else (Stage.probing left).code a (entryFor P handle k v) onHit := by
    refine congrArg (Script.step _) (funext fun r => ?_)
    cases r with
    | error e => rfl
    | ok fields =>
        simp only [Script.done_ok_bind, Stage.code, afterProbe]
        refine ite_congr rfl (fun _ => rfl) fun _ => congrArg (_ >>= ·) (funext fun p => ?_)
        cases p <;> rfl
  rw [hcode, Script.advance, hrun]
  simp only [Script.done_ok_bind, List.getD_cons_zero, List.getD_cons_succ]
  by_cases hc : Crowded t.info.cap t.info.used
  · rw [if_pos hc]
    exact .idle (.growing left) w hq rfl trivial rfl
  · rw [if_neg hc]
    exact .idle (.probing left) w hq rfl trivial rfl

theorem turn_probing (hq : w.Quiet) (h : Tabled P (w.files a.stack) handle size t) (hhit : Hits P ksize onHit put)
    (left : Nat) :
    Turn P a handle size onHit put k v t (.probing left) w
      (((Stage.probing left).code a (entryFor P handle k v) onHit).advance w).1
      (((Stage.probing left).code a (entryFor P handle k v) onHit).advance w).2 := by
  obtain ⟨ws, p, t', heval, hin, hins, htabled⟩ := insert_turn h hhit k v
  have hrun := inplaceGen_run hq heval fun x hx => (hin x hx).inside h.toLaid
  have hcode : (Stage.probing left).code a (entryFor P handle k v) onHit =
      .step (inplaceGen a.stack (probe handle (width P ksize) (fnv1a k.val) none
        (inspectInsert (entryFor P handle k v) onHit) (exhaustedInsert (entryFor P handle k v)))) fun r =>
        (Script.done r >>= Script.lift) >>= afterProbe a (entryFor P handle k v) onHit left := rfl
  rw [hcode, Script.advance, hrun]
  simp only [Script.done_ok_bind, Script.lift_bind]
  cases p with
  | added => exact .placed ws .added t' (by decide) hin hins htabled rfl
  | present payload => exact .placed ws (.present payload) t' (fun hno => by cases hno) hin hins htabled rfl
  | noRoom =>
      have hws : ws = [] := by
        cases hins with
        | noRoom hs =>
            have hlaid := h.toLaid
            have hcur : t.info.cap ≠ 0 → home k % t.info.cap < t.info.cap := fun hne => Nat.mod_lt _ (by omega)
            rw [probe_eval hlaid, insertFrom_eval hlaid onHit k v hcur] at heval
            have hsought := h.probed.seek k
            cases ho : seek t.info.cap t.slots k t.info.cap (home k % t.info.cap) none with
            | found i old =>
                rw [ho] at heval
                obtain ⟨ws', hws', -⟩ := hhit hlaid (ho ▸ hsought).1 (ho ▸ hsought).2
                simp only [insertResult, hws'] at heval
                cases heval
            | free i wasEmpty =>
                rw [ho] at heval
                cases hws' : newBucketWrites (entryFor P handle k v) t.info i wasEmpty <;>
                  simp only [insertResult, hws'] at heval <;> cases heval
            | full =>
                rw [ho] at heval
                cases heval
                rfl
      rw [hws]
      exact .idle (.growing left) w hq rfl trivial rfl

theorem turn_growing (hq : w.Quiet) (h : Tabled P (w.files a.stack) handle size t) (left : Nat) :
    Turn P a handle size onHit put k v t (.growing left) w
      (((Stage.growing left).code a (entryFor P handle k v) onHit).advance w).1
      (((Stage.growing left).code a (entryFor P handle k v) onHit).advance w).2 := by
  have hword : readU64 a.stack (handle + CAP_OFF) w = ⟨.ok t.info.cap, w, []⟩ := by
    rw [readU64_run hq (h.toLaid.word_in CAP_OFF (by decide)), h.toLaid.cap_word]
  have hcode : (Stage.growing left).code a (entryFor P handle k v) onHit =
      .step (readU64 a.stack (handle + CAP_OFF)) fun r => (Script.done r >>= fun cap0 => do
          let newSize ← .lift (checkedMul (newcapOf cap0) (width P ksize))
          let spare ← .atom (alloc a newSize)
          growInto a handle (width P ksize) ksize cap0 newSize spare) >>= fun _ =>
        insertLoop a (entryFor P handle k v) onHit left := rfl
  rw [hcode, Script.advance, hword]
  simp only [Script.done_ok_bind, Script.lift_bind]
  by_cases hsize : newcapOf t.info.cap * width P ksize < 2 ^ 64
  · rw [checkedMul, if_pos hsize]
    exact .idle (.reserving left t.info.cap) w hq rfl ⟨h.pow, Nat.le_refl _, hsize⟩ rfl
  · rw [checkedMul, if_neg hsize]
    exact .failed badCapacity w hq rfl (.inr (.inl rfl)) rfl

theorem turn_reserving (hq : w.Quiet) (hknown : Known P t cap0) (left : Nat) :
    Turn P a handle size onHit put k v t (.reserving left cap0) w
      (((Stage.reserving left cap0).code a (entryFor P handle k v) onHit).advance w).1
      (((Stage.reserving left cap0).code a (entryFor P handle k v) onHit).advance w).2 := by
  have hcode : (Stage.reserving left cap0).code a (entryFor P handle k v) onHit =
      .step (alloc a (newcapOf cap0 * width P ksize)) fun r => (Script.done r >>= fun spare =>
          growInto a handle (width P ksize) ksize cap0 (newcapOf cap0 * width P ksize) spare) >>= fun _ =>
        insertLoop a (entryFor P handle k v) onHit left := rfl
  rw [hcode, Script.advance]
  obtain ⟨w', hrun, hfiles, hquiet⟩ | ⟨r, hr, hlen, hrun⟩ := alloc_step a (newcapOf cap0 * width P ksize) hq
  · rw [hrun]
    exact .failed outOfSpace w' hquiet hfiles (.inl rfl) rfl
  · rw [hrun]
    exact .grant (.swapping left cap0 r) r hr ⟨hknown, hlen⟩ (zero_add _).symm

theorem own_apart (hown : {⟨handle, size⟩} + (t.blocks P + {old}) ≤ (↑(w.files a.stack).live : Multiset Range)) :
    old ∈ (w.files a.stack).live ∧ old ≠ ⟨handle, size⟩ ∧ (0 < t.info.cap → old ≠ t.block P) := by
  have hnodup := Multiset.nodup_of_le hown (nodup_live a.stack w)
  rw [add_comm (t.blocks P), ← add_assoc, add_comm {_}, add_assoc, Multiset.singleton_add, Multiset.nodup_cons,
    Multiset.singleton_add, Multiset.mem_cons, not_or] at hnodup
  refine ⟨Multiset.mem_coe.mp (Multiset.mem_of_le hown (by simp)), hnodup.1.1, fun hcap heq => hnodup.1.2 ?_⟩
  rw [Table.blocks, if_pos hcap, heq]
  exact Multiset.mem_singleton_self _

theorem swapTable_words {stride ksz newtable newcap newSize oldSize : Nat} {r : Nat × Nat}
    (heval : (swapTable handle stride ksz newtable newcap newSize oldSize).eval f = .ok (ws, some r))
    {x : Nat × List UInt8}
    (hx : x ∈ ws) : (x.1 = newtable ∧ x.2.length = newSize) ∨
      (handle + HEADER_SIZE ≤ x.1 ∧ x.1 + x.2.length ≤ handle + 48) := by
  rw [swapTable, Gen.eval_bind] at heval
  cases hm : (readMeta handle).eval f with
  | error e =>
      rw [hm] at heval
      cases heval
  | ok m =>
      rw [hm] at heval
      change (if newcap ≤ m.cap then pure ([], none) else _ : Gen (Batch × Option (Nat × Nat))).eval f = _ at heval
      by_cases hcap : newcap ≤ m.cap
      · rw [if_pos hcap] at heval
        cases heval
      · rw [if_neg hcap, Gen.eval_bind] at heval
        cases hb : (readBuckets m stride oldSize m.cap 0).eval f with
        | error e =>
            rw [hb] at heval
            cases heval
        | ok bs =>
            rw [hb] at heval
            change (Gen.lift (rebuild stride ksz newcap bs Mem.zero) >>= _ : Gen (Batch × Option (Nat × Nat))).eval f =
              _
              at heval
            rw [Gen.eval_bind, Gen.eval_lift] at heval
            cases hi : rebuild stride ksz newcap bs Mem.zero with
            | error e =>
                rw [hi] at heval
                cases heval
            | ok image =>
                rw [hi] at heval
                cases heval
                simp only [List.mem_cons, List.not_mem_nil, or_false] at hx
                obtain rfl | rfl | rfl | rfl := hx
                · exact .inl ⟨rfl, Mem.length_read ..⟩
                all_goals
                  right
                  simp only [w8, length_leBytes, TABLE_OFF, CAP_OFF, USED_OFF, HEADER_SIZE]
                  omega

theorem Known.size_lt (h : Known P t cap0) : cap0 * width P ksize < 2 ^ 64 := by
  have hsmall := h.small
  have hwidth := width_pos P ksize
  by_cases hzero : cap0 = 0
  · rw [hzero, Nat.zero_mul]
    decide
  · rw [newcapOf, if_neg hzero] at hsmall
    rcases Nat.le_total (cap0 * 2) (2 ^ 64 - 1) with hle | hle
    · rw [Nat.min_eq_left hle] at hsmall
      exact Nat.lt_of_le_of_lt (Nat.mul_le_mul_right _ (by omega)) hsmall
    · rw [Nat.min_eq_right hle] at hsmall
      have hbig : (2 ^ 64 - 1) * 8 ≤ (2 ^ 64 - 1) * width P ksize := Nat.mul_le_mul_left _ hwidth
      omega

/-- A growth that is not outrun has read the capacity of the table. -/
theorem Known.cap_eq (h : Known P t cap0) (hpow : t.info.cap = 0 ∨ ∃ e, t.info.cap = 2 ^ (e + 2))
    (hbig : t.info.cap < newcapOf cap0) : t.info.cap = cap0 := by
  have hle := h.le
  rw [newcapOf] at hbig
  obtain hzero | ⟨e, he⟩ := h.pow
  · rw [if_pos hzero, MIN_CAP] at hbig
    obtain hcap | ⟨e', he'⟩ := hpow
    · rw [hcap, hzero]
    · have hfour : 2 ^ 2 ≤ 2 ^ (e' + 2) := Nat.pow_le_pow_right (by decide) (by omega)
      omega
  · have hpos := Nat.two_pow_pos (e + 2)
    rw [if_neg (by omega)] at hbig
    obtain hcap | ⟨e', he'⟩ := hpow
    · omega
    · have hlt : 2 ^ (e' + 2) < 2 ^ (e + 2 + 1) := by omega
      have hle' : 2 ^ (e + 2) ≤ 2 ^ (e' + 2) := by rwa [← he, ← he']
      have h₁ := (Nat.pow_lt_pow_iff_right (by decide : 1 < 2)).mp hlt
      have h₂ := (Nat.pow_le_pow_iff_right (by decide : 1 < 2)).mp hle'
      rw [he, he', show e' = e by omega]

theorem turn_swapping (hq : w.Quiet) (h : Tabled P (w.files a.stack) handle size t) (hknown : Known P t cap0)
    (hlen : spare.len = newcapOf cap0 * width P ksize)
    (hown : {⟨handle, size⟩} + (t.blocks P + {spare}) ≤ (↑(w.files a.stack).live : Multiset Range)) (left : Nat) :
    Turn P a handle size onHit put k v t (.swapping left cap0 spare) w
      (((Stage.swapping left cap0 spare).code a (entryFor P handle k v) onHit).advance w).1
      (((Stage.swapping left cap0 spare).code a (entryFor P handle k v) onHit).advance w).2 := by
  have hlaid := h.toLaid
  have hold := hknown.size_lt
  have hspare : (⟨spare.start, newcapOf cap0 * width P ksize⟩ : Range) = spare := by rw [← hlen]
  have hmul : checkedMul cap0 (width P ksize) = .ok (cap0 * width P ksize) := if_pos hold
  have hcode : (Stage.swapping left cap0 spare).code a (entryFor P handle k v) onHit =
      .step (inplaceGen a.stack (swapTable handle (width P ksize) ksize spare.start (newcapOf cap0)
        (newcapOf cap0 * width P ksize) (cap0 * width P ksize))) fun r =>
        (Script.done r >>= afterSwap a (width P ksize) ⟨spare.start, newcapOf cap0 * width P ksize⟩) >>= fun _ =>
          insertLoop a (entryFor P handle k v) onHit left := by
    show (growInto a handle (width P ksize) ksize cap0 (newcapOf cap0 * width P ksize) spare >>= fun _ =>
      insertLoop a (entryFor P handle k v) onHit left) = _
    rw [growInto, hmul]
    rfl
  obtain ⟨hlive, hne, hblock⟩ := own_apart hown
  rw [hcode, Script.advance]
  by_cases hstays : newcapOf cap0 ≤ t.info.cap
  · rw [inplaceGen_run hq (swapTable_stays hlaid hstays) fun x hx => absurd hx List.not_mem_nil]
    have hfree : Turn P a handle size onHit put k v t (.swapping left cap0 spare) w
        ((Stage.freeing left spare).code a (entryFor P handle k v) onHit) (World.storeAll a.stack [] w) :=
      Turn.swap_nil hq trivial rfl
    rw [← hspare] at hfree ⊢
    exact hfree
  · have hcap := hknown.cap_eq h.pow (by omega)
    obtain ⟨-, hpow, -⟩ := hlaid.newcapOf_spec
    rw [hcap] at hpow
    obtain ⟨ws, t', heval, hin, hinfo, hmaps, htabled⟩ := swapTable_step h hpow (by omega)
      (Nat.mul_le_mul_right _ (Nat.le_of_eq hcap)) hlive hlen hne
    have hinside : ∀ x ∈ ws, x.1 + x.2.length ≤ (w.files a.stack).len := by
      intro x hx
      rw [← File.len_writeAll ws (w.files a.stack)]
      exact htabled.toLaid.within (hin x hx)
    have htable : t'.info.table = spare.start := by rw [hinfo]
    have hnewcap : t'.info.cap = newcapOf cap0 := by rw [hinfo]
    have hpos : 0 < newcapOf cap0 := by omega
    have hwords : ∀ x ∈ ws, InWords P handle t' x := by
      intro x hx
      refine (swapTable_words heval hx).elim (fun hnew => .inr ⟨by omega, ?_, ?_⟩) .inl
      · rw [htable, hnew.1]
      · show x.1 + x.2.length ≤ t'.info.table + t'.info.cap * width P ksize
        rw [htable, hnewcap, hnew.1, hnew.2]
    have hblocks : t'.blocks P = {spare} := by
      rw [Table.blocks, if_pos (by omega), Table.block, htable, hnewcap, hspare]
    have hmoved : t'.info.table ≠ t.info.table ∨ t.info.cap = 0 := by
      by_cases hzero : t.info.cap = 0
      · exact .inr hzero
      · left
        have hapart := (apart_of_mem (w.files a.stack).apart hlive (h.block (by omega)) (hblock (by omega))).2
        have hwidth := width_pos P ksize
        have hbig : 0 < newcapOf cap0 * width P ksize := Nat.mul_pos hpos (by omega)
        have hbig' : 0 < t.info.cap * width P ksize := Nat.mul_pos (by omega) (by omega)
        simp only [Range.stop, Table.block, hlen] at hapart
        rw [htable]
        omega
    rw [inplaceGen_run hq heval hinside]
    simp only [Script.done_ok_bind, afterSwap]
    by_cases hzero : 0 < t.info.cap
    · have hsmall := hlaid.size_lt
      have hmin : (⟨t.info.table, min (t.info.cap * width P ksize) (2 ^ 64 - 1)⟩ : Range) = t.block P := by
        rw [Nat.min_eq_left (by omega)]
        rfl
      rw [if_pos hzero, hmin]
      refine .swap (.freeing left (t.block P)) ws t' hwords htabled (fun m hm => hnewcap ▸ hmaps m hm) (by omega) hmoved
        trivial ?_
      rw [hblocks, Table.blocks, if_pos hzero]
      exact add_comm _ _
    · rw [if_neg hzero]
      refine .swap (.loop left) ws t' hwords htabled (fun m hm => hnewcap ▸ hmaps m hm) (by omega) hmoved trivial ?_
      rw [hblocks, Table.blocks, if_neg hzero]
      exact add_comm _ _

theorem turn_freeing (hq : w.Quiet)
    (hown : {⟨handle, size⟩} + (t.blocks P + {old}) ≤ (↑(w.files a.stack).live : Multiset Range)) (left : Nat) :
    Turn P a handle size onHit put k v t (.freeing left old) w
      (((Stage.freeing left old).code a (entryFor P handle k v) onHit).advance w).1
      (((Stage.freeing left old).code a (entryFor P handle k v) onHit).advance w).2 := by
  obtain ⟨hlive, -, -⟩ := own_apart hown
  have hcode : (Stage.freeing left old).code a (entryFor P handle k v) onHit =
      .step (deallocRange a old) fun _ => insertLoop a (entryFor P handle k v) onHit left := rfl
  rw [hcode, Script.advance, deallocRange_run hq hlive]
  exact .release (.loop left) old hlive trivial (zero_add _)

/-- The step lemma of an insertion that has a step to make. -/
theorem Stage.turn {s : Stage} (hq : w.Quiet) (h : Tabled P (w.files a.stack) handle size t)
    (hhit : Hits P ksize onHit put) (hfits : s.Fits P t)
    (hown : {⟨handle, size⟩} + (t.blocks P + s.held) ≤ (↑(w.files a.stack).live : Multiset Range))
    (hrun : (s.code a (entryFor P handle k v) onHit).Running) :
    Turn P a handle size onHit put k v t s w ((s.code a (entryFor P handle k v) onHit).advance w).1
      ((s.code a (entryFor P handle k v) onHit).advance w).2 := by
  cases s with
  | loop left =>
      cases left with
      | zero => exact hrun.elim
      | succ left => exact turn_loop hq h left
  | probing left => exact turn_probing hq h hhit left
  | growing left => exact turn_growing hq h left
  | reserving left cap0 => exact turn_reserving hq hfits left
  | swapping left cap0 spare => exact turn_swapping hq h hfits.1 hfits.2 hown left
  | freeing left old => exact turn_freeing hq hown left

/-- An insertion without a step to make has spent its rounds. -/
theorem Stage.spent {s : Stage} {out : Except IoError (Option (List UInt8))} (hfits : s.Fits P t)
    (h : s.code a (entryFor P handle k v) onHit = .done out) : out = .error neverEnds ∧ s.held = 0 := by
  cases s with
  | loop left =>
      cases left with
      | zero =>
          cases h
          exact ⟨rfl, rfl⟩
      | succ left => cases h
  | probing left => cases h
  | growing left => cases h
  | reserving left cap0 => cases h
  | swapping left cap0 spare =>
      have hmul : checkedMul cap0 (width P ksize) = .ok (cap0 * width P ksize) := if_pos hfits.1.size_lt
      replace h : (growInto a handle (width P ksize) ksize cap0 (newcapOf cap0 * width P ksize) spare >>= fun _ =>
        insertLoop a (entryFor P handle k v) onHit left) = .done out := h
      rw [growInto, hmul] at h
      cases h
  | freeing left old => cases h

end Steps

end BucketTable

end BStackRaii
