import BStackRaii.Proof.Effects
import BStackRaii.Proof.Wal.Recover
/-!
# What recovery frees, byte by byte

`finish` reads three bytes that decide a free: the status of the transaction, the status of an entry and its
operation. Two decoders send every unknown byte to a sink that is never acted on. The third sends an unknown
transaction status to `abandon`, which `finish` then takes for a transaction it has to roll back.

Both of its paths hand the slices to their allocators batch by batch, and stop at the first batch that comes back.
What counts is what is handed over, whatever the allocator makes of it.
-/

namespace BStackRaii

/-! ### The image recovery finds -/

/-- What the log of a file reads as: where its block is, its header and its entries. -/
def stagedIn (a : Allocator) (f : File) : Option (Nat × WalHeader × List WalEntry) :=
  match a.walAnchor with
  | none => none
  | some slot =>
      let off := f.bytes.word slot
      let header := WalHeader.decode (f.bytes.read off WAL_HEADER_SIZE)
      if f.len < slot + 8 ∨ off = 0 ∨ f.len < off + WAL_HEADER_SIZE ∨ header.magic ≠ WAL_MAGIC then none
      else if header.capacity > WAL_MAX_CAP ∨ header.count > header.capacity then none
      else if f.len < off + WAL_HEADER_SIZE + header.count * WAL_ENTRY_SIZE then none
      else some (off, header, entriesFromBytes header.count
        (f.bytes.read (off + WAL_HEADER_SIZE) (header.count * WAL_ENTRY_SIZE)))

/-- The entry is pending, and its operation is the one the transaction status calls back. -/
def Authorised (txn : UInt8) (e : WalEntry) : Prop :=
  e.statusByte = 1 ∧ (txn = 2 ∧ e.opByte = 1 ∨ txn = 1 ∧ e.opByte = 0)

instance (txn : UInt8) (e : WalEntry) : Decidable (Authorised txn e) := inferInstanceAs (Decidable (_ ∧ _))

/-- The recorded slices whose file has a live host, each with the file it is freed in. -/
def hosted (w : World) (a : Allocator) (ps : List (Nat × Range)) : List (Nat × Range) :=
  ps.filterMap fun p => (HeldLock.resolve w a p.1).map fun host => (host.stack, p.2)

/-- What the log of a file lets recovery free. -/
def authorised (w : World) (a : Allocator) : List (Nat × Range) :=
  match stagedIn a (w.files a.stack) with
  | none => []
  | some (_, header, entries) => hosted w a ((entries.filter fun e => Authorised header.statusByte e).map
      fun e => (e.fileId, ⟨e.wordA, e.wordB⟩))

/-- Whichever steps fail, and wherever a crash falls, recovery has handed over nothing but authorised slices, each of
them once. -/
def FreesAuthorised (a : Allocator) (w : World) : Prop :=
  ∀ faults, ∀ t ∈ (HeldLock.finish a { w with faults }).states,
    ∃ ps, t.handed = w.handed ++ ps ∧ ps.Subperm (authorised w a)

/-! ### The batches of a recovery -/

def locals (ps : List (Nat × Range)) : List Range :=
  (ps.filter fun p => p.1 = FileId.SELF).map Prod.snd

def foreigns (ps : List (Nat × Range)) : List (Nat × Range) := ps.filter fun p => p.1 ≠ FileId.SELF

def singles (w : World) (a : Allocator) (ps : List (Nat × Range)) : List (List (Nat × Range)) :=
  (hosted w a ps).map fun p => [p]

/-- What recovery frees in one step each, in order: a bulk allocator all the local slices first. -/
def batches (w : World) (a : Allocator) (ps : List (Nat × Range)) : List (List (Nat × Range)) :=
  if a.atomicBulk then
    (if locals ps = [] then [] else [(locals ps).map fun r => (a.stack, r)]) ++ singles w a (foreigns ps)
  else singles w a ps

/-! ### Freeing in batches -/

/-- From `w₀` on the slices `ps` were handed over, and nothing else has happened that recovery could see. -/
structure HandedSince (w₀ : World) (ps : List (Nat × Range)) (w : World) : Prop where
  attached : w.attached = w₀.attached
  handed : w.handed = w₀.handed ++ ps
  len : ∀ k, (w.files k).len = (w₀.files k).len
  quiet : w₀.Quiet → w.Quiet

def Midway (w₀ : World) (done : List (Nat × Range)) (bs : List (List (Nat × Range))) (w : World) : Prop :=
  ∃ bs', bs' <+: bs ∧ HandedSince w₀ (done ++ bs'.flatten) w

/-- A failure, which without faults is that of a batch. -/
def Stuck (w₀ : World) (done : List (Nat × Range)) (bs : List (List (Nat × Range))) (w : World) : Prop :=
  ∃ bs', bs' <+: bs ∧ HandedSince w₀ (done ++ bs'.flatten) w ∧ (w₀.Quiet → bs' ≠ [])

/-- `c` hands over the batches `bs` in order, each in one step, and returns a value of `V`. -/
def FreesBatches {α : Type} (w₀ : World) (bs : List (List (Nat × Range))) (V : α → Prop) (c : Io α) : Prop :=
  ∀ done, Prog.Spec (HandedSince w₀ done) c (fun v w => V v ∧ HandedSince w₀ (done ++ bs.flatten) w)
    (fun _ => Stuck w₀ done bs) (Midway w₀ done bs)

section Batches

variable {α β : Type} {w₀ w : World} {a : Allocator} {done : List (Nat × Range)} {bs l : List (List (Nat × Range))}
  {V : α → Prop}

theorem HandedSince.refl (w : World) : HandedSince w [] w := ⟨rfl, (List.append_nil _).symm, fun _ => rfl, id⟩

theorem HandedSince.tick (h : HandedSince w₀ done w) : HandedSince w₀ done w.tick :=
  ⟨h.attached, h.handed, h.len, fun hq => by
    rw [(h.quiet hq).tick_eq]
    exact h.quiet hq⟩

theorem HandedSince.store (h : HandedSince w₀ done w) (k off : Nat) (data : List UInt8) :
    HandedSince w₀ done (w.store k off data) := by
  refine ⟨h.attached, h.handed, fun j => ?_, h.quiet⟩
  by_cases hj : j = k
  · subst hj
    rw [World.files_store_same, File.len_write, h.len]
  · rw [World.files_store_ne hj, h.len]

theorem HandedSince.handIn (h : HandedSince w₀ done w) (k : Nat) (r : Range) :
    HandedSince w₀ (done ++ [(k, r)]) (w.handIn k r) :=
  ⟨h.attached, by rw [World.handed_handIn, h.handed, List.append_assoc], h.len, h.quiet⟩

theorem HandedSince.release (h : HandedSince w₀ done w) (k : Nat) (r : Range) :
    HandedSince w₀ (done ++ [(k, r)]) (w.release k r) := by
  refine ⟨h.attached, by rw [World.handed_release, h.handed, List.append_assoc], fun j => ?_, h.quiet⟩
  by_cases hj : j = k
  · subst hj
    rw [World.files_release_same, File.len_free, h.len]
  · rw [World.files_release_ne hj, h.len]

theorem HandedSince.handInAll (h : HandedSince w₀ done w) (k : Nat) (rs : List Range) :
    HandedSince w₀ (done ++ rs.map fun r => (k, r)) (w.handInAll k rs) := by
  refine ⟨h.attached, ?_, h.len, h.quiet⟩
  rw [World.handInAll, h.handed, List.append_assoc]

theorem Midway.start (h : HandedSince w₀ done w) : Midway w₀ done bs w :=
  ⟨[], List.nil_prefix, by simpa using h⟩

theorem Midway.left (h : Midway w₀ done bs w) : Midway w₀ done (bs ++ l) w := by
  obtain ⟨cs, hpre, h⟩ := h
  exact ⟨cs, hpre.trans (List.prefix_append ..), h⟩

theorem Midway.right (h : Midway w₀ (done ++ bs.flatten) l w) : Midway w₀ done (bs ++ l) w := by
  obtain ⟨cs, hpre, h⟩ := h
  exact ⟨bs ++ cs, (List.prefix_append_right_inj bs).mpr hpre, by simpa using h⟩

theorem Stuck.left (h : Stuck w₀ done bs w) : Stuck w₀ done (bs ++ l) w := by
  obtain ⟨cs, hpre, h, hq⟩ := h
  exact ⟨cs, hpre.trans (List.prefix_append ..), h, hq⟩

theorem Stuck.right (h : Stuck w₀ (done ++ bs.flatten) l w) : Stuck w₀ done (bs ++ l) w := by
  obtain ⟨cs, hpre, h, hq⟩ := h
  refine ⟨bs ++ cs, (List.prefix_append_right_inj bs).mpr hpre, by simpa using h, fun hquiet hnil => ?_⟩
  exact hq hquiet (List.append_eq_nil_iff.mp hnil).2

theorem Stuck.midway (h : Stuck w₀ done bs w) : Midway w₀ done bs w := by
  obtain ⟨cs, hpre, h, -⟩ := h
  exact ⟨cs, hpre, h⟩

namespace FreesBatches

theorem pure {v : α} (hv : V v) : FreesBatches w₀ [] V (Pure.pure v) := fun done =>
  Prog.Spec.pure fun _ h => ⟨hv, by simpa using h⟩

theorem bind {U : β → Prop} {c : Io α} {f : α → Io β} (hc : FreesBatches w₀ bs V c)
    (hf : ∀ v, V v → FreesBatches w₀ l U (f v)) : FreesBatches w₀ (bs ++ l) U (c >>= f) := by
  intro done
  have hleft := (hc done).weaken (fun _ h => h) (fun _ _ h => h) (fun _ _ h => Stuck.left (l := l) h)
    fun _ h => Midway.left (l := l) h
  refine hleft.bind fun v => Prog.Spec.given fun hv => ?_
  refine (hf v hv (done ++ bs.flatten)).weaken (fun _ h => h) (fun _ _ h => ?_) (fun _ _ h => h.right)
    fun _ h => h.right
  exact ⟨h.1, by simpa using h.2⟩

theorem set {k off : Nat} {data : List UInt8} (hin : off + data.length ≤ (w₀.files k).len) :
    FreesBatches w₀ [] (fun _ => True) (set k off data) := fun done =>
  set_rule (fun w h => (h.len k).symm ▸ hin) (fun w h => ⟨trivial, by simpa using h.tick.store k off data⟩)
    (fun w h hf => ⟨[], List.prefix_rfl, by simpa using h.tick, fun hq => absurd hf (h.quiet hq).not_faulty⟩)
    fun _ h => .start h

theorem deallocRange (host : Allocator) (r : Range) :
    FreesBatches w₀ [[(host.stack, r)]] (fun _ => True) (deallocRange host r) := by
  intro done
  have hback : ∀ w, HandedSince w₀ done w →
      Stuck w₀ done [[(host.stack, r)]] (w.tick.handIn host.stack r) := fun w h =>
    ⟨[[(host.stack, r)]], List.prefix_rfl, by simpa using h.tick.handIn host.stack r, fun _ => List.cons_ne_nil _ _⟩
  exact deallocRange_rule (fun w h _ => ⟨trivial, by simpa using h.tick.release host.stack r⟩)
    (fun w h _ => hback w h) (fun w h _ => hback w h) fun _ h => .start h

end FreesBatches

theorem HandedSince.of_freeAll {rs : List Range} : ∀ {done : List (Nat × Range)} {w w' : World}, HandedSince w₀ done w →
    freeAll a rs w = some w' → HandedSince w₀ (done ++ rs.map fun r => (a.stack, r)) w' := by
  induction rs with
  | nil =>
      intro done w w' h hrun
      cases hrun
      simpa using h
  | cons r rs ih =>
      intro done w w' h hrun
      rw [freeAll] at hrun
      split at hrun
      · simpa using ih (h.release a.stack r) hrun
      · cases hrun

namespace FreesBatches

theorem bulkFreeMany (rs : List Range) :
    FreesBatches w₀ [rs.map fun r => (a.stack, r)] (fun _ => True) (bulkFreeMany a rs) := by
  intro done
  have hback : ∀ w, HandedSince w₀ done w →
      Stuck w₀ done [rs.map fun r => (a.stack, r)] (w.tick.handInAll a.stack rs) := fun w h =>
    ⟨_, List.prefix_rfl, by simpa using h.tick.handInAll a.stack rs, fun _ => List.cons_ne_nil _ _⟩
  apply Prog.Spec.durable
  · intro w _ t h ht
    split at ht
    · cases ht
    · split at ht
      · rename_i hrun
        cases ht
        exact ⟨trivial, by simpa using h.tick.of_freeAll hrun⟩
      · cases ht
  · intro w _ t h ht
    split at ht
    · cases ht
      exact hback w h
    · split at ht
      · cases ht
      · cases ht
        exact hback w h
  · exact fun _ h => .start h

theorem freeLocal (hbulk : a.atomicBulk = true) (rs : List Range) :
    FreesBatches w₀ (if rs = [] then [] else [rs.map fun r => (a.stack, r)]) (fun _ => True)
    (HeldLock.freeLocal a rs) := by
  rw [HeldLock.freeLocal]
  by_cases hnil : rs = []
  · rw [if_pos hnil, if_pos hnil]
    exact pure trivial
  · rw [if_neg hnil, if_neg hnil, freeMany, if_pos hbulk]
    exact bulkFreeMany rs

theorem freeRecorded (id : Nat) (r : Range) :
    FreesBatches w₀ (singles w₀ a [(id, r)]) (fun _ => True) (HeldLock.freeRecorded a id r) := by
  intro done s h
  have hres : HeldLock.resolve s a id = HeldLock.resolve w₀ a id := by simp only [HeldLock.resolve, h.attached]
  have hrun : HeldLock.freeRecorded a id r s = ((HeldLock.resolve w₀ a id).elim (Prog.ret ())
      fun host => BStackRaii.deallocRange host r) s := by
    simp only [HeldLock.freeRecorded, hres]
    cases HeldLock.resolve w₀ a id <;> rfl
  rw [hrun]
  cases hhost : HeldLock.resolve w₀ a id with
  | none =>
      rw [show singles w₀ a [(id, r)] = [] by simp [singles, hosted, hhost]]
      exact pure trivial done s h
  | some host =>
      rw [show singles w₀ a [(id, r)] = [[(host.stack, r)]] by simp [singles, hosted, hhost]]
      exact deallocRange host r done s h

theorem singles_cons (w : World) (a : Allocator) (p : Nat × Range) (ps : List (Nat × Range)) :
    singles w a (p :: ps) = singles w a [p] ++ singles w a ps := by
  simp only [singles, hosted, List.filterMap_cons, List.filterMap_nil]
  cases HeldLock.resolve w a p.1 <;> rfl

theorem forEach (ps : List (Nat × Range)) : FreesBatches w₀ (singles w₀ a ps) (fun _ => True)
    (Prog.forEach (fun p => HeldLock.freeRecorded a p.1 p.2) ps) := by
  induction ps with
  | nil => exact pure trivial
  | cons p ps ih =>
      rw [singles_cons]
      exact (freeRecorded p.1 p.2).bind fun _ _ => ih

theorem set_entry {base i n : Nat} (hin : base + (i + (n + 1)) * WAL_ENTRY_SIZE ≤ (w₀.files a.stack).len) :
    FreesBatches w₀ [] (fun _ => True)
      (BStackRaii.set a.stack (base + i * WAL_ENTRY_SIZE) [WalStatus.complete.toU8]) := by
  refine set ?_
  have hslot : i * WAL_ENTRY_SIZE + WAL_ENTRY_SIZE ≤ (i + (n + 1)) * WAL_ENTRY_SIZE := by
    rw [← Nat.succ_mul]
    exact Nat.mul_le_mul_right _ (by omega)
  simp only [List.length_singleton, WAL_ENTRY_SIZE] at *
  omega

theorem finishEntries {committed : Bool} {base : Nat} (es : List WalEntry) : ∀ (i n : Nat),
    base + (i + es.length) * WAL_ENTRY_SIZE ≤ (w₀.files a.stack).len →
    FreesBatches w₀ (singles w₀ a (orphans committed es)) (fun _ => True)
      (HeldLock.finishEntries a committed base i es n) := by
  induction es with
  | nil => exact fun _ _ _ => pure trivial
  | cons e es ih =>
      intro i n hin
      have hin' : base + (i + 1 + es.length) * WAL_ENTRY_SIZE ≤ (w₀.files a.stack).len := by
        rwa [Nat.add_assoc i 1, Nat.add_comm 1]
      cases ho : HeldLock.orphan committed e with
      | none =>
          rw [orphans_cons_none es ho]
          simp only [HeldLock.finishEntries, ho]
          exact ih (i + 1) n hin'
      | some r =>
          rw [orphans_cons_some es ho, singles_cons]
          simp only [HeldLock.finishEntries, ho]
          exact (set_entry hin).bind fun _ _ => (freeRecorded e.fileId r).bind fun _ _ => ih (i + 1) (n + 1) hin'

theorem markOrphans {committed : Bool} {base : Nat} (es : List WalEntry) : ∀ i : Nat,
    base + (i + es.length) * WAL_ENTRY_SIZE ≤ (w₀.files a.stack).len →
    FreesBatches w₀ [] (fun p => p = (locals (orphans committed es), foreigns (orphans committed es)))
      (HeldLock.markOrphans a committed base i es) := by
  induction es with
  | nil => exact fun _ _ => pure rfl
  | cons e es ih =>
      intro i hin
      have hin' : base + (i + 1 + es.length) * WAL_ENTRY_SIZE ≤ (w₀.files a.stack).len := by
        rwa [Nat.add_assoc i 1, Nat.add_comm 1]
      cases ho : HeldLock.orphan committed e with
      | none =>
          rw [orphans_cons_none es ho]
          simp only [HeldLock.markOrphans, ho]
          exact ih (i + 1) hin'
      | some r =>
          rw [orphans_cons_some es ho]
          simp only [HeldLock.markOrphans, ho]
          refine (set_entry hin).bind fun _ _ => (ih (i + 1) hin').bind (l := []) fun p hp => ?_
          subst hp
          by_cases hself : e.fileId = FileId.SELF
          · simp only [if_pos hself]
            exact pure (by simp [locals, foreigns, hself])
          · simp only [if_neg hself]
            exact pure (by simp [locals, foreigns, hself])

theorem reclaim {committed : Bool} {base : Nat} {es : List WalEntry}
    (hin : base + es.length * WAL_ENTRY_SIZE ≤ (w₀.files a.stack).len) :
    FreesBatches w₀ (batches w₀ a (orphans committed es)) (fun _ => True) (HeldLock.reclaim a committed base es) := by
  rw [HeldLock.reclaim, batches]
  by_cases hbulk : a.atomicBulk = true
  · rw [if_pos hbulk, if_pos hbulk, HeldLock.finishBulk]
    refine (markOrphans es 0 (by simpa using hin)).bind fun p hp => ?_
    subst hp
    refine (freeLocal hbulk _).bind fun _ _ => ?_
    simpa using (forEach (foreigns (orphans committed es))).bind (l := []) fun _ _ => pure (V := fun _ => True) trivial
  · rw [if_neg hbulk, if_neg hbulk]
    exact finishEntries es 0 0 (by simpa using hin)

end FreesBatches

/-! ### `load` and `finish` -/

theorem FreesBatches.midway {c : Io α} (h : FreesBatches w₀ bs V c) {s t : World} (hs : HandedSince w₀ done s)
    (ht : t ∈ (c s).states) : Midway w₀ done bs t := by
  obtain ⟨hok, herr, hcut⟩ := h done s hs
  rcases List.mem_append.mp ht with ht | ht
  · exact hcut t ht
  · rw [List.mem_singleton] at ht
    subst ht
    cases hout : (c s).out with
    | ok v => exact ⟨bs, List.prefix_rfl, (hok v hout).2⟩
    | error e => exact (herr e hout).midway

/-- Without faults, the first batch is handed over, whatever the allocator makes of it. -/
theorem FreesBatches.first {c : Io α} {b : List (Nat × Range)} (h : FreesBatches w₀ (b :: bs) V c) {s : World}
    (hs : HandedSince w₀ [] s) (hq : w₀.Quiet) : ∃ ps, HandedSince w₀ (b ++ ps) (c s).final := by
  obtain ⟨hok, herr, -⟩ := h [] s hs
  cases hout : (c s).out with
  | ok v => exact ⟨bs.flatten, (hok v hout).2⟩
  | error e =>
      obtain ⟨bs', hpre, hhanded, hne⟩ := herr e hout
      cases bs' with
      | nil => exact absurd rfl (hne hq)
      | cons b' bs' =>
          obtain rfl := (List.cons_prefix_cons.mp hpre).1
          exact ⟨bs'.flatten, hhanded⟩

theorem getInto_cases (k off n : Nat) (w : World) :
    (∃ e, getInto k off n w = ⟨.error e, w.tick, []⟩ ∧ (w.Quiet → (w.files k).len < off + n)) ∨
      getInto k off n w = ⟨.ok ((w.files k).bytes.read off n), w.tick, []⟩ ∧ off + n ≤ (w.files k).len := by
  simp only [getInto, Prog.volatile_apply]
  by_cases hf : w.Faulty
  · rw [if_pos hf]
    exact .inl ⟨_, rfl, fun hq => absurd hf hq.not_faulty⟩
  · rw [if_neg hf]
    by_cases hin : off + n ≤ (w.files k).len
    · rw [if_pos hin]
      exact .inr ⟨rfl, hin⟩
    · rw [if_neg hin]
      exact .inl ⟨_, rfl, fun _ => by omega⟩

theorem readAnchor_cases {slot : Nat} (hslot : a.walAnchor = some slot) (w : World) :
    (∃ e, HeldLock.readAnchor a w = ⟨.error e, w.tick, []⟩ ∧ (w.Quiet → (w.files a.stack).len < slot + 8)) ∨
      HeldLock.readAnchor a w = ⟨.ok (if (w.files a.stack).bytes.word slot = 0 then none
        else some ((w.files a.stack).bytes.word slot)), w.tick, []⟩ ∧ slot + 8 ≤ (w.files a.stack).len := by
  simp only [HeldLock.readAnchor, hslot, readU64]
  rcases getInto_cases a.stack slot 8 w with ⟨e, hrun, hno⟩ | ⟨hrun, hin⟩
  · exact .inl ⟨e, Prog.bind_of_error (Prog.bind_of_error hrun), hno⟩
  · refine .inr ⟨?_, hin⟩
    rw [Prog.bind_of_ok (Prog.bind_of_ok hrun)]
    rfl

/-- `load` reads the staged transaction, or fails; without faults it fails only on an image that stages none. -/
theorem load_cases (a : Allocator) (w : World) :
    (∃ e w', HeldLock.load a w = ⟨.error e, w', []⟩ ∧ HandedSince w [] w' ∧
      (w.Quiet → stagedIn a (w.files a.stack) = none)) ∨
    ∃ w', HeldLock.load a w = ⟨.ok (stagedIn a (w.files a.stack)), w', []⟩ ∧ HandedSince w [] w' := by
  have h1 := (HandedSince.refl w).tick
  have h2 := h1.tick
  have h3 := h2.tick
  cases hslot : a.walAnchor with
  | none =>
      have hanchor : HeldLock.readAnchor a w = ⟨.ok none, w, []⟩ := by
        rw [HeldLock.readAnchor, hslot]
        rfl
      rw [HeldLock.load, Prog.bind_of_ok hanchor, stagedIn, hslot]
      exact .inr ⟨w, rfl, .refl w⟩
  | some slot =>
      rw [HeldLock.load, stagedIn, hslot]
      simp only
      rcases readAnchor_cases hslot w with ⟨e, hrun, hno⟩ | ⟨hrun, hin⟩
      · exact .inl ⟨e, _, Prog.bind_of_error hrun, h1, fun hq => if_pos (.inl (hno hq))⟩
      rw [Prog.bind_of_ok hrun]
      by_cases hnull : (w.files a.stack).bytes.word slot = 0
      · rw [if_pos hnull, if_pos (.inr (.inl hnull))]
        exact .inr ⟨_, rfl, h1⟩
      rw [if_neg hnull]
      simp only
      generalize (w.files a.stack).bytes.word slot = off at *
      rcases getInto_cases a.stack off WAL_HEADER_SIZE w.tick with ⟨e, hrun, hno⟩ | ⟨hrun, hin2⟩
      · rw [Prog.bind_of_error hrun]
        exact .inl ⟨e, _, rfl, h2, fun hq => if_pos (.inr (.inr (.inl (hno (h1.quiet hq)))))⟩
      rw [Prog.bind_of_ok hrun]
      rw [World.files_tick] at hin2 ⊢
      generalize hheader : WalHeader.decode ((w.files a.stack).bytes.read off WAL_HEADER_SIZE) = header
      by_cases hmagic : header.magic = WAL_MAGIC
      · have hsome : ¬ ((w.files a.stack).len < slot + 8 ∨ off = 0 ∨ (w.files a.stack).len < off + WAL_HEADER_SIZE ∨
            header.magic ≠ WAL_MAGIC) := by
          simp only [hmagic]
          omega
        rw [if_neg hsome, if_neg (not_not.mpr hmagic)]
        by_cases hcorrupt : header.capacity > WAL_MAX_CAP ∨ header.count > header.capacity
        · rw [if_pos hcorrupt, if_pos hcorrupt]
          exact .inl ⟨_, _, rfl, h2, fun _ => rfl⟩
        · rw [if_neg hcorrupt, if_neg hcorrupt]
          rcases getInto_cases a.stack (off + WAL_HEADER_SIZE) (header.count * WAL_ENTRY_SIZE) w.tick.tick with
            ⟨e, hrun, hno⟩ | ⟨hrun, hin3⟩
          · rw [Prog.bind_of_error hrun]
            exact .inl ⟨e, _, rfl, h3, fun hq => if_pos (hno (h2.quiet hq))⟩
          · simp only [World.files_tick] at hrun hin3
            rw [Prog.bind_of_ok hrun, if_neg (Nat.not_lt.mpr hin3)]
            exact .inr ⟨_, rfl, h3⟩
      · rw [if_pos hmagic, if_pos (.inr (.inr (.inr hmagic)))]
        exact .inr ⟨_, rfl, h2⟩

theorem length_entriesFromBytes (n : Nat) : ∀ bs : List UInt8, (entriesFromBytes n bs).length = n := by
  induction n with
  | zero => exact fun _ => rfl
  | succ n ih => exact fun bs => congrArg (· + 1) (ih _)

theorem stagedIn_inside {f : File} {off : Nat} {header : WalHeader} {entries : List WalEntry}
    (h : stagedIn a f = some (off, header, entries)) :
    off + WAL_HEADER_SIZE + entries.length * WAL_ENTRY_SIZE ≤ f.len := by
  rw [stagedIn] at h
  cases hslot : a.walAnchor with
  | none =>
      rw [hslot] at h
      cases h
  | some slot =>
      simp only [hslot] at h
      split at h
      · cases h
      split at h
      · cases h
      split at h
      · cases h
      rename_i hlen
      rw [Option.some.injEq, Prod.mk.injEq, Prod.mk.injEq] at h
      rw [← h.1, ← h.2.2, length_entriesFromBytes]
      exact Nat.not_lt.mp hlen

/-- What `finish` does under a staged transaction that is not idle. -/
theorem finish_batches {off : Nat} {header : WalHeader} {entries : List WalEntry}
    (h : stagedIn a (w₀.files a.stack) = some (off, header, entries)) :
    FreesBatches w₀ (batches w₀ a (orphans (decide (header.txnStatus = .complete)) entries)) (fun _ => True)
      (do
        let completed ← HeldLock.reclaim a (decide (header.txnStatus = .complete)) (off + WAL_HEADER_SIZE) entries
        HeldLock.setIdle a off
        Pure.pure completed) := by
  have hin := stagedIn_inside h
  have hidle : off + WAL_STATUS_OFFSET + 1 ≤ (w₀.files a.stack).len := by
    simp only [WAL_STATUS_OFFSET, WAL_HEADER_SIZE] at *
    omega
  have hrest : ∀ n : Nat, FreesBatches w₀ [] (fun _ => True)
      (HeldLock.setIdle a off >>= fun _ => (Pure.pure n : Io Nat)) := fun n =>
    (FreesBatches.set (k := a.stack) hidle).bind (l := []) fun _ _ => .pure trivial
  simpa using (FreesBatches.reclaim hin).bind fun n _ => hrest n

theorem finish_idle {off : Nat} {header : WalHeader} {entries : List WalEntry}
    (h : stagedIn a (w.files a.stack) = none ∨
      stagedIn a (w.files a.stack) = some (off, header, entries) ∧ header.txnStatus = .none)
    {t : World} (ht : t ∈ (HeldLock.finish a w).states) : HandedSince w [] t := by
  rw [HeldLock.finish] at ht
  rcases load_cases a w with ⟨e, w', hrun, hw', -⟩ | ⟨w', hrun, hw'⟩
  · rw [Prog.bind_of_error hrun] at ht
    exact List.mem_singleton.mp ht ▸ hw'
  · rw [Prog.bind_of_ok hrun] at ht
    rcases h with h | ⟨h, hnone⟩
    · rw [h] at ht
      exact List.mem_singleton.mp ht ▸ hw'
    · rw [h] at ht
      simp only [if_pos hnone] at ht
      exact List.mem_singleton.mp ht ▸ hw'

theorem finish_midway {off : Nat} {header : WalHeader} {entries : List WalEntry}
    (h : stagedIn a (w.files a.stack) = some (off, header, entries)) (hbusy : header.txnStatus ≠ .none)
    {t : World} (ht : t ∈ (HeldLock.finish a w).states) :
    Midway w [] (batches w a (orphans (decide (header.txnStatus = .complete)) entries)) t := by
  rw [HeldLock.finish] at ht
  rcases load_cases a w with ⟨e, w', hrun, hw', -⟩ | ⟨w', hrun, hw'⟩
  · rw [Prog.bind_of_error hrun] at ht
    exact .start (List.mem_singleton.mp ht ▸ hw')
  · rw [Prog.bind_of_ok hrun, h] at ht
    simp only [if_neg hbusy] at ht
    exact (finish_batches h).midway hw' ht

/-- Without faults, the first batch is handed over, whatever the status byte says. -/
theorem finish_first {off : Nat} {header : WalHeader} {entries : List WalEntry} {b : List (Nat × Range)}
    (h : stagedIn a (w.files a.stack) = some (off, header, entries)) (hbusy : header.txnStatus ≠ .none) (hq : w.Quiet)
    (hbs : batches w a (orphans (decide (header.txnStatus = .complete)) entries) = b :: bs) :
    ∃ ps, HandedSince w (b ++ ps) (HeldLock.finish a w).final := by
  rw [HeldLock.finish]
  rcases load_cases a w with ⟨e, w', hrun, -, hno⟩ | ⟨w', hrun, hw'⟩
  · rw [hno hq] at h
    cases h
  · have hbatches := finish_batches h
    rw [hbs] at hbatches
    rw [Prog.bind_of_ok hrun, h]
    simp only [if_neg hbusy]
    exact hbatches.first hw' hq

/-! ### Which of the batches are authorised -/

theorem flatten_singles (w : World) (a : Allocator) (ps : List (Nat × Range)) :
    (singles w a ps).flatten = hosted w a ps := by
  rw [singles, ← List.flatMap_def, List.flatMap_singleton']

theorem hosted_locals (w : World) (a : Allocator) (ps : List (Nat × Range)) :
    hosted w a (ps.filter fun p => p.1 = FileId.SELF) = (locals ps).map fun r => (a.stack, r) := by
  induction ps with
  | nil => rfl
  | cons p ps ih =>
      by_cases hself : p.1 = FileId.SELF
      · simpa [hosted, locals, HeldLock.resolve, hself] using ih
      · simpa [hosted, locals, hself] using ih

/-- The batches are the recorded slices of live hosts, on either path. -/
theorem flatten_batches (w : World) (a : Allocator) (ps : List (Nat × Range)) :
    (batches w a ps).flatten.Perm (hosted w a ps) := by
  rw [batches]
  by_cases hbulk : a.atomicBulk = true
  · have hlocal : (if locals ps = [] then [] else [(locals ps).map fun r => (a.stack, r)]).flatten =
        hosted w a (ps.filter fun p => p.1 = FileId.SELF) := by
      rw [hosted_locals]
      split <;> simp_all
    rw [if_pos hbulk, List.flatten_append, hlocal, flatten_singles, hosted, hosted, ← List.filterMap_append]
    refine List.Perm.filterMap _ ?_
    simpa [foreigns] using List.filter_append_perm (fun p : Nat × Range => decide (p.1 = FileId.SELF)) ps
  · rw [if_neg hbulk, flatten_singles]

theorem batches_ne_nil {ps : List (Nat × Range)} {b : List (Nat × Range)} (hb : b ∈ batches w a ps) : b ≠ [] := by
  rw [batches] at hb
  have hsingle : ∀ qs, b ∈ singles w a qs → b ≠ [] := fun qs hmem => by
    obtain ⟨p, -, rfl⟩ := List.mem_map.mp hmem
    exact List.cons_ne_nil _ _
  split at hb
  · rcases List.mem_append.mp hb with hb | hb
    · split at hb
      · cases hb
      · rw [List.mem_singleton.mp hb]
        simpa
    · exact hsingle _ hb
  · exact hsingle _ hb

theorem fromU8_iff {v : UInt8} : (WalStatus.fromU8 v = .none ↔ v = 0) ∧ (WalStatus.fromU8 v = .pending ↔ v = 1) ∧
    (WalStatus.fromU8 v = .complete ↔ v = 2) := by
  by_cases h0 : v = 0
  · subst h0
    decide
  by_cases h1 : v = 1
  · subst h1
    decide
  by_cases h2 : v = 2
  · subst h2
    decide
  simp [WalStatus.fromU8, h0, h1, h2]

theorem op_iff {v : UInt8} : (WalOp.fromU8 v = some .alloc ↔ v = 0) ∧ (WalOp.fromU8 v = some .dealloc ↔ v = 1) := by
  by_cases h0 : v = 0
  · subst h0
    decide
  by_cases h1 : v = 1
  · subst h1
    decide
  simp [WalOp.fromU8, h0, h1]

/-- The status under which an outcome is the one that was staged. -/
def outcomeByte (committed : Bool) : UInt8 := if committed then 2 else 1

theorem orphan_eq (committed : Bool) (e : WalEntry) : HeldLock.orphan committed e =
    if Authorised (outcomeByte committed) e then some ⟨e.wordA, e.wordB⟩ else none := by
  have hauth : Authorised (outcomeByte committed) e ↔ e.statusByte = 1 ∧ e.opByte = if committed then 1 else 0 := by
    cases committed <;> simp [Authorised, outcomeByte]
  simp only [hauth, HeldLock.orphan, WalEntry.status, fromU8_iff.2.1, WalEntry.asAlloc, WalEntry.asDealloc, WalEntry.op,
    op_iff.1, op_iff.2]
  by_cases hstatus : e.statusByte = 1
  · cases committed <;> simp [hstatus]
  · simp [hstatus]

theorem orphans_eq (committed : Bool) (entries : List WalEntry) : orphans committed entries =
    (entries.filter fun e => Authorised (outcomeByte committed) e).map fun e => (e.fileId, ⟨e.wordA, e.wordB⟩) := by
  induction entries with
  | nil => rfl
  | cons e es ih =>
      have horphan := orphan_eq committed e
      by_cases hauth : Authorised (outcomeByte committed) e
      · rw [if_pos hauth] at horphan
        rw [orphans_cons_some es horphan, ih, List.filter_cons_of_pos (by simpa using hauth), List.map_cons]
      · rw [if_neg hauth] at horphan
        rw [orphans_cons_none es horphan, ih, List.filter_cons_of_neg (by simpa using hauth)]

/-- What a staged outcome orphans is what the bytes authorise. -/
theorem authorised_of_outcome {off : Nat} {header : WalHeader} {entries : List WalEntry}
    (h : stagedIn a (w.files a.stack) = some (off, header, entries)) {committed : Bool}
    (hbyte : header.statusByte = outcomeByte committed) : authorised w a = hosted w a (orphans committed entries) := by
  simp only [authorised, h, hbyte, orphans_eq]

/-- Any other status byte authorises nothing. -/
theorem authorised_of_unknown {off : Nat} {header : WalHeader} {entries : List WalEntry}
    (h : stagedIn a (w.files a.stack) = some (off, header, entries)) (h1 : header.statusByte ≠ 1)
    (h2 : header.statusByte ≠ 2) : authorised w a = [] := by
  simp [authorised, h, Authorised, h1, h2, hosted]

/-- Where no slice has a live host there is no batch. -/
theorem batches_eq_nil {ps : List (Nat × Range)} (h : hosted w a ps = []) : batches w a ps = [] := by
  have hflat := flatten_batches w a ps
  rw [h, List.perm_nil, List.flatten_eq_nil_iff] at hflat
  by_contra hne
  obtain ⟨b, hb⟩ := List.exists_mem_of_ne_nil _ hne
  exact batches_ne_nil hb (hflat b hb)

theorem finish_frees_authorised {t : World} (h : ∀ off header entries,
      stagedIn a (w.files a.stack) = some (off, header, entries) → header.statusByte = 0 ∨ header.statusByte = 1 ∨
        header.statusByte = 2 ∨ hosted w a (orphans false entries) = [])
    (ht : t ∈ (HeldLock.finish a w).states) : ∃ ps, t.handed = w.handed ++ ps ∧ ps.Subperm (authorised w a) := by
  cases hstaged : stagedIn a (w.files a.stack) with
  | none =>
      have hidle := finish_idle (.inl hstaged : _ ∨ _ = some (0, ⟨0, 0, 0, 0⟩, []) ∧ _) ht
      exact ⟨[], hidle.handed, List.nil_subperm⟩
  | some x =>
      obtain ⟨off, header, entries⟩ := x
      by_cases hnone : header.txnStatus = .none
      · exact ⟨[], (finish_idle (.inr ⟨hstaged, hnone⟩) ht).handed, List.nil_subperm⟩
      obtain ⟨bs, hpre, hhanded⟩ := finish_midway hstaged hnone ht
      have hout : ∀ committed, header.statusByte = outcomeByte committed →
          decide (header.txnStatus = .complete) = committed →
          ∃ ps, t.handed = w.handed ++ ps ∧ ps.Subperm (authorised w a) := by
        rintro committed hbyte rfl
        obtain ⟨rest, hrest⟩ := hpre
        have hperm := flatten_batches w a (orphans (decide (header.txnStatus = .complete)) entries)
        rw [← hrest, List.flatten_append] at hperm
        refine ⟨bs.flatten, by simpa using hhanded.handed, ?_⟩
        rw [authorised_of_outcome hstaged hbyte]
        exact (List.sublist_append_left _ _).subperm.trans hperm.subperm
      rcases h off header entries hstaged with h0 | h1 | h2 | hhosted
      · exact absurd (fromU8_iff.1.mpr h0) hnone
      · exact hout false h1 (by simp [WalHeader.txnStatus, h1, WalStatus.fromU8])
      · exact hout true h2 (by simp [WalHeader.txnStatus, h2, WalStatus.fromU8])
      · by_cases h2 : header.statusByte = 2
        · exact hout true h2 (by simp [WalHeader.txnStatus, h2, WalStatus.fromU8])
        have hcomplete : decide (header.txnStatus = .complete) = false :=
          decide_eq_false fun he => h2 (fromU8_iff.2.2.mp he)
        rw [hcomplete, batches_eq_nil hhosted, List.prefix_nil] at hpre
        subst hpre
        exact ⟨[], by simpa using hhanded.handed, List.nil_subperm⟩

end Batches

/-- Recovery hands over what the three bytes authorise and nothing else if and only if the transaction status is a byte
the writer stages, or no pending allocation of the log is in a file with a live host. -/
theorem finish_authorised_iff (a : Allocator) (w : World) : FreesAuthorised a w ↔
    ∀ off header entries, stagedIn a (w.files a.stack) = some (off, header, entries) →
      header.statusByte = 0 ∨ header.statusByte = 1 ∨ header.statusByte = 2 ∨
        hosted w a (orphans false entries) = [] := by
  constructor
  · intro h off header entries hstaged
    by_contra hno
    simp only [not_or] at hno
    obtain ⟨h0, h1, h2, hhosted⟩ := hno
    have hnone : header.txnStatus ≠ .none := fun he => h0 (fromU8_iff.1.mp he)
    have hcomplete : decide (header.txnStatus = .complete) = false :=
      decide_eq_false fun he => h2 (fromU8_iff.2.2.mp he)
    cases hbs : batches w a (orphans false entries) with
    | nil =>
        have hflat := flatten_batches w a (orphans false entries)
        rw [hbs, List.flatten_nil, List.nil_perm] at hflat
        exact hhosted hflat
    | cons b bs =>
        obtain ⟨ps, hfinal⟩ := finish_first (w := { w with faults := [] }) hstaged hnone rfl (hcomplete ▸ hbs)
        obtain ⟨qs, hhanded, hsub⟩ := h [] _ (List.mem_append_right _ (List.mem_singleton_self _))
        rw [authorised_of_unknown hstaged h1 h2] at hsub
        rw [List.subperm_nil.mp hsub, List.append_nil] at hhanded
        have hnil : b ++ ps = [] := by simpa [hhanded] using hfinal.handed
        exact batches_ne_nil (hbs ▸ List.mem_cons_self) (List.append_eq_nil_iff.mp hnil).1
  · intro h faults t ht
    exact finish_frees_authorised (w := { w with faults }) h ht

/-- A committed clone whose status byte has decayed from 2 to 7: its one block is live and linked. -/
def decayed : File where
  bytes := (Mem.zero.write 8 (leBytes 8 64)).write 64
    (WalHeader.encode ⟨WAL_MAGIC, 7, 1, 8⟩ ++ (WalEntry.alloc .pending ⟨512, 48⟩).encode)
  len := 560
  live := [⟨512, 48⟩, ⟨64, 288⟩]
  apart := by decide
  inside := by decide
  addressable := by decide

theorem decayed_commit_freed :
    ¬ FreesAuthorised (firstFit 0) { World.blank [] with files := fun _ => decayed } := by
  intro h
  obtain ⟨ps, hhanded, hsub⟩ := h [] _ (List.mem_append_right _ (List.mem_singleton_self _))
  have hnone : authorised { World.blank [] with files := fun _ => decayed } (firstFit 0) = [] := by decide +kernel
  have hone : (HeldLock.finish (firstFit 0) { World.blank [] with files := fun _ => decayed }).final.handed =
      [(0, ⟨512, 48⟩)] := by decide +kernel
  rw [hnone] at hsub
  rw [List.subperm_nil.mp hsub] at hhanded
  exact absurd (hone.symm.trans hhanded) (by decide)

end BStackRaii
