import BStackRaii.Model.Update
/-!
# Which I/O step fails

The rules of `Proof/Effects` say that a step may fail. Those below say when it does: a generator makes a
number of reads that the file determines, and it fails exactly when one of them or its batch is hit.
-/

namespace BStackRaii

/-- None of the next `n` I/O steps fails. -/
def World.Works (w : World) (n : Nat) : Prop := true ∉ w.faults.take n

instance (w : World) (n : Nat) : Decidable (w.Works n) := inferInstanceAs (Decidable (_ ∉ _))

namespace World

variable {w : World} {k m n : Nat}

theorem works_zero (w : World) : w.Works 0 := List.not_mem_nil

theorem works_succ : w.Works (n + 1) ↔ ¬ w.Faulty ∧ w.tick.Works n := by
  obtain ⟨files, attached, held, picks, faults, freed, handed, refuses⟩ := w
  cases faults with
  | nil => simp [Works, Faulty, tick]
  | cons b bs => cases b <;> simp [Works, Faulty, tick]

theorem works_add : w.Works (m + n) ↔ w.Works m ∧ (w.skip m).Works n := by
  rw [Works, List.take_add, List.mem_append, not_or]
  exact Iff.rfl

theorem works_one : w.Works 1 ↔ ¬ w.Faulty := works_succ.trans (and_iff_left (works_zero _))

theorem faulty_skip : (w.skip n).Faulty ↔ w.faults[n]? = some true := by
  rw [Faulty, skip, List.head?_drop]

end World

theorem getInto_if {k off n : Nat} {w : World} (h : off + n ≤ (w.files k).len) : getInto k off n w =
    if w.Faulty then ⟨.error ioFault, w.tick, []⟩ else ⟨.ok ((w.files k).bytes.read off n), w.tick, []⟩ := by
  simp only [getInto, Prog.volatile_apply, if_pos h]
  split <;> rfl

theorem readU64_if {k off : Nat} {w : World} (h : off + 8 ≤ (w.files k).len) : readU64 k off w =
    if w.Faulty then ⟨.error ioFault, w.tick, []⟩ else ⟨.ok ((w.files k).bytes.word off), w.tick, []⟩ := by
  have hget := getInto_if h
  rw [readU64]
  split
  · rename_i hf
    rw [if_pos hf] at hget
    exact Prog.bind_of_error hget
  · rename_i hf
    rw [if_neg hf] at hget
    rw [Prog.bind_of_ok hget]
    rfl

theorem set_if {k off : Nat} {data : List UInt8} {w : World} (h : off + data.length ≤ (w.files k).len) :
    set k off data w = if w.Faulty then ⟨.error ioFault, w.tick, [w]⟩
      else ⟨.ok (), w.tick.store k off data, [w]⟩ := by
  simp only [set, Prog.durable_apply, if_pos h]
  split <;> rfl

/-- An allocation changes no file, or takes a place among the blocks. -/
theorem alloc_outcome (a : Allocator) (size : Nat) (w : World) :
    (∃ e w', alloc a size w = ⟨.error e, w', [w]⟩ ∧ (e = ioFault ∨ e = outOfSpace) ∧ w'.files = w.files) ∨
      ∃ p, ∃ h : (w.files a.stack).Admits ⟨p, size⟩,
        alloc a size w = ⟨.ok ⟨p, size⟩, w.tick.grant a.stack ⟨p, size⟩ h, [w]⟩ := by
  simp only [alloc, Prog.durable_apply]
  split
  · exact .inl ⟨_, _, rfl, .inl rfl, rfl⟩
  split
  · exact .inl ⟨_, _, rfl, .inr rfl, rfl⟩
  split
  · exact .inr ⟨_, ‹_›, rfl⟩
  · exact .inl ⟨_, _, rfl, .inr rfl, rfl⟩

namespace Gen

variable {α β : Type} {f : File}

def count (f : File) : Gen α → Nat
  | done _ => 0
  | read off n rest => if off + n ≤ f.len then (rest (f.bytes.read off n)).count f + 1 else 1

@[simp] theorem count_pure (a : α) : (pure a : Gen α).count f = 0 := rfl

@[simp] theorem count_lift (out : Except IoError α) : (lift out).count f = 0 := rfl

theorem count_get (off n : Nat) : (get off n).count f = 1 := by
  rw [get, count]
  split <;> rfl

theorem count_bind_ok {g : Gen α} {h : α → Gen β} {a : α} (hg : g.eval f = .ok a) :
    (g >>= h).count f = g.count f + (h a).count f := by
  change (g.bind h).count f = _
  induction g with
  | done out =>
      cases hg
      rw [count, Nat.zero_add, bind]
  | read off n rest ih =>
      simp only [bind, count, eval] at hg ⊢
      split at hg
      · rename_i hin
        rw [if_pos hin, if_pos hin, ih _ hg]
        omega
      · cases hg

theorem count_words {offs : List Nat} (h : ∀ off ∈ offs, off + 8 ≤ f.len) : (words offs).count f = offs.length := by
  induction offs with
  | nil => rfl
  | cons off offs ih =>
      have hread : (get off 8).eval f = .ok (f.bytes.read off 8) := eval_get (h off List.mem_cons_self)
      have hrest := eval_words fun x hx => h x (List.mem_cons_of_mem off hx)
      rw [words, count_bind_ok hread, count_bind_ok hrest, count_get, ih fun x hx => h x (List.mem_cons_of_mem off hx),
        count_pure, List.length_cons]
      omega

theorem count_updateGen {reads1 : List Nat} {offs2 : List Nat} {reads2 : List Nat → Except IoError (List Nat)}
    {plan : List Nat → List Nat → Except IoError (Batch × α)} (h1 : ∀ off ∈ reads1, off + 8 ≤ f.len)
    (hround : reads2 (reads1.map f.bytes.word) = .ok offs2) (h2 : ∀ off ∈ offs2, off + 8 ≤ f.len) :
    (updateGen reads1 reads2 plan).count f = reads1.length + offs2.length := by
  have hreads : (lift (reads2 (reads1.map f.bytes.word))).eval f = .ok offs2 := hround
  rw [updateGen, count_bind_ok (eval_words h1), count_bind_ok hreads, count_bind_ok (eval_words h2), count_words h1,
    count_words h2, count_lift, count_lift]
  omega

variable {k : Nat} {w : World} {g : Gen α}

/-- A generator whose reads all work tells what the file holds. -/
theorem reads_works (g : Gen α) (h : w.Works (g.count (w.files k))) :
    g.reads k w = (g.eval (w.files k), w.skip (g.count (w.files k))) := by
  induction g generalizing w with
  | done out => rfl
  | read off n rest ih =>
      rw [count] at h ⊢
      by_cases hin : off + n ≤ (w.files k).len
      · rw [if_pos hin] at h ⊢
        obtain ⟨hf, hrest⟩ := World.works_succ.mp h
        have hread := ih ((w.files k).bytes.read off n) hrest
        rw [reads, if_neg hf, if_pos hin, hread, World.tick_skip, eval, if_pos hin]
        rfl
      · rw [if_neg hin] at h ⊢
        rw [reads, if_neg (World.works_one.mp h), if_neg hin, eval, if_neg hin, World.tick_eq_skip]

/-- One of its reads fails. -/
theorem reads_struck (g : Gen α) (h : ¬ w.Works (g.count (w.files k))) :
    ∃ n, g.reads k w = (.error ioFault, w.skip n) := by
  induction g generalizing w with
  | done out => exact absurd (World.works_zero w) h
  | read off n rest ih =>
      by_cases hf : w.Faulty
      · exact ⟨1, by rw [reads, if_pos hf, World.tick_eq_skip]⟩
      · rw [count] at h
        by_cases hin : off + n ≤ (w.files k).len
        · rw [if_pos hin, World.works_succ, not_and] at h
          obtain ⟨m, hm⟩ := ih ((w.files k).bytes.read off n) (h hf)
          exact ⟨m + 1, by rw [reads, if_neg hf, if_pos hin, hm, World.tick_skip]⟩
        · rw [if_neg hin, World.works_one] at h
          exact absurd hf h

end Gen

section Inplace

variable {α : Type} {k : Nat} {w : World} {g : Gen (Batch × α)} {ws : Batch} {a : α}

/-- A generator lands when its reads and its batch work, -/
theorem inplaceGen_works (heval : g.eval (w.files k) = .ok (ws, a)) (hin : ∀ x ∈ ws, x.1 + x.2.length ≤ (w.files k).len)
    (h : w.Works (g.count (w.files k) + 1)) :
    inplaceGen k g w = ⟨.ok (.ok a), World.storeAll k ws (w.skip (g.count (w.files k) + 1)), [w]⟩ := by
  obtain ⟨hreads, hbatch⟩ := World.works_add.mp h
  have hrun := g.reads_works hreads
  rw [heval] at hrun
  simp only [inplaceGen, Prog.durable_apply, hrun, if_neg (World.works_one.mp hbatch), World.files_skip, if_pos hin,
    World.skip_tick]

/-- and else it fails and changes no file. -/
theorem inplaceGen_struck (heval : g.eval (w.files k) = .ok (ws, a)) (h : ¬ w.Works (g.count (w.files k) + 1)) :
    ∃ n out, inplaceGen k g w = ⟨out, w.skip n, [w]⟩ ∧ (out = .error ioFault ∨ out = .ok (.error ioFault)) := by
  by_cases hreads : w.Works (g.count (w.files k))
  · have hrun := g.reads_works hreads
    rw [heval] at hrun
    have hf : (w.skip (g.count (w.files k))).Faulty := by
      by_contra hno
      exact h (World.works_add.mpr ⟨hreads, World.works_one.mpr hno⟩)
    refine ⟨g.count (w.files k) + 1, _, ?_, .inl rfl⟩
    simp only [inplaceGen, Prog.durable_apply, hrun, if_pos hf, World.skip_tick]
  · obtain ⟨n, hrun⟩ := g.reads_struck hreads
    refine ⟨n, _, ?_, .inr rfl⟩
    simp only [inplaceGen, Prog.durable_apply, hrun]

/-- A read of its that fails is an error kept aside, -/
theorem inplaceGen_reads_struck (h : ¬ w.Works (g.count (w.files k))) :
    ∃ n, inplaceGen k g w = ⟨.ok (.error ioFault), w.skip n, [w]⟩ := by
  obtain ⟨n, hrun⟩ := g.reads_struck h
  refine ⟨n, ?_⟩
  simp only [inplaceGen, Prog.durable_apply, hrun]

/-- and a batch that fails is an error of the call. -/
theorem inplaceGen_batch_struck (heval : g.eval (w.files k) = .ok (ws, a)) (h : w.Works (g.count (w.files k)))
    (hf : (w.skip (g.count (w.files k))).Faulty) :
    inplaceGen k g w = ⟨.error ioFault, w.skip (g.count (w.files k) + 1), [w]⟩ := by
  have hrun := g.reads_works h
  rw [heval] at hrun
  simp only [inplaceGen, Prog.durable_apply, hrun, if_pos hf, World.skip_tick]

end Inplace

section Update

variable {α : Type} {a : Allocator} {w : World} {reads1 offs2 : List Nat}
  {reads2 : List Nat → Except IoError (List Nat)} {plan : List Nat → List Nat → Except IoError (Batch × α)}
  {ws : Batch} {r : α}

/-- The I/O steps of an update that reads `offs2` in its second round. -/
theorem atomicUpdate_works (h1 : ∀ off ∈ reads1, off + 8 ≤ (w.files a.stack).len)
    (hround : reads2 (reads1.map (w.files a.stack).bytes.word) = .ok offs2)
    (h2 : ∀ off ∈ offs2, off + 8 ≤ (w.files a.stack).len)
    (heval : (updateGen reads1 reads2 plan).eval (w.files a.stack) = .ok (ws, r))
    (hin : ∀ x ∈ ws, x.1 + x.2.length ≤ (w.files a.stack).len)
    (h : w.Works (reads1.length + offs2.length + 1)) :
    (atomicUpdate a reads1 reads2 plan).run w =
      ⟨.ok r, World.storeAll a.stack ws (w.skip (reads1.length + offs2.length + 1)), [w]⟩ := by
  have hcount : (updateGen reads1 reads2 plan).count (w.files a.stack) = reads1.length + offs2.length :=
    Gen.count_updateGen h1 hround h2
  rw [← hcount] at h ⊢
  have hrun := inplaceGen_works heval hin h
  simp only [atomicUpdate, Script.run_bind, Script.run_atom, Script.run_lift]
  rw [Prog.bind_of_ok hrun]
  rfl

theorem atomicUpdate_struck (h1 : ∀ off ∈ reads1, off + 8 ≤ (w.files a.stack).len)
    (hround : reads2 (reads1.map (w.files a.stack).bytes.word) = .ok offs2)
    (h2 : ∀ off ∈ offs2, off + 8 ≤ (w.files a.stack).len)
    (heval : (updateGen reads1 reads2 plan).eval (w.files a.stack) = .ok (ws, r))
    (h : ¬ w.Works (reads1.length + offs2.length + 1)) :
    ∃ n, (atomicUpdate a reads1 reads2 plan).run w = ⟨.error ioFault, w.skip n, [w]⟩ := by
  have hcount : (updateGen reads1 reads2 plan).count (w.files a.stack) = reads1.length + offs2.length :=
    Gen.count_updateGen h1 hround h2
  rw [← hcount] at h
  obtain ⟨n, out, hrun, hout⟩ := inplaceGen_struck heval h
  refine ⟨n, ?_⟩
  simp only [atomicUpdate, Script.run_bind, Script.run_atom, Script.run_lift]
  cases hout with
  | inl herr =>
      rw [herr] at hrun
      exact Prog.bind_of_error hrun
  | inr hkept =>
      rw [hkept] at hrun
      rw [Prog.bind_of_ok hrun]
      rfl

end Update

end BStackRaii
