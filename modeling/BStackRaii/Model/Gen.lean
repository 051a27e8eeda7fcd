import BStackRaii.Model.World
/-!
# Generators

`BStack::inplace_gen` runs a closure that emits reads, computes, and then emits writes. Nobody else acts
between the first read and the last write, and the writes land as one atomic batch. A `Gen` is such a
closure: a failed read, or a check of its own, makes it end before it emits a write.

The closures cannot return a `Result`. They keep the error aside and their callers look at it after the
call, so `inplaceGen` tells a failure of the batch, which is its own error, from an error kept aside.
-/

namespace BStackRaii

/-- The world after some I/O steps that changed nothing. -/
def World.skip (w : World) (n : Nat) : World := { w with faults := w.faults.drop n }

namespace World

variable (w : World) (n : Nat)

@[simp] theorem files_skip : (w.skip n).files = w.files := rfl

@[simp] theorem freed_skip : (w.skip n).freed = w.freed := rfl

@[simp] theorem attached_skip : (w.skip n).attached = w.attached := rfl

@[simp] theorem held_skip : (w.skip n).held = w.held := rfl

@[simp] theorem picks_skip : (w.skip n).picks = w.picks := rfl

@[simp] theorem handed_skip : (w.skip n).handed = w.handed := rfl

@[simp] theorem refuses_skip : (w.skip n).refuses = w.refuses := rfl

theorem Quiet.skip_eq {w : World} (h : w.Quiet) (n : Nat) : w.skip n = w := by
  obtain ⟨files, attached, held, picks, faults, freed, handed, refuses⟩ := w
  cases h
  simp [World.skip]

theorem tick_eq_skip : w.tick = w.skip 1 := by simp [tick, skip]

theorem skip_tick : (w.skip n).tick = w.skip (n + 1) := by simp [tick, skip]

theorem tick_skip : w.tick.skip n = w.skip (n + 1) := by simp [tick, skip]

end World

/-- Writes in place: pairs of an offset and its bytes. -/
abbrev Batch : Type := List (Nat × List UInt8)

/-- What a generator still reads before it knows its result. -/
inductive Gen (α : Type) : Type
  | done (out : Except IoError α)
  | read (off n : Nat) (rest : List UInt8 → Gen α)

/-- The file once the writes are made, in order. -/
def File.writeAll : Batch → File → File
  | [], f => f
  | x :: ws, f => writeAll ws (f.write x.1 x.2)

namespace File

@[simp] theorem live_writeAll (ws : Batch) (f : File) : (writeAll ws f).live = f.live := by
  induction ws generalizing f with
  | nil => rfl
  | cons x ws ih => rw [writeAll, ih, live_write]

@[simp] theorem len_writeAll (ws : Batch) (f : File) : (writeAll ws f).len = f.len := by
  induction ws generalizing f with
  | nil => rfl
  | cons x ws ih => rw [writeAll, ih, len_write]

@[simp] theorem bytes_writeAll (ws : Batch) (f : File) : (writeAll ws f).bytes = Mem.writeAll ws f.bytes := by
  induction ws generalizing f with
  | nil => rfl
  | cons x ws ih => rw [writeAll, ih, bytes_write, Mem.writeAll]

end File

theorem World.files_storeAll (k : Nat) (ws : Batch) (w : World) :
    (World.storeAll k ws w).files k = File.writeAll ws (w.files k) := by
  induction ws generalizing w with
  | nil => rfl
  | cons x ws ih => rw [World.storeAll, ih, World.files_store_same, File.writeAll]

namespace Gen

variable {α β : Type}

def bind : Gen α → (α → Gen β) → Gen β
  | done (.ok a), f => f a
  | done (.error e), _ => done (.error e)
  | read off n rest, f => read off n fun buf => (rest buf).bind f

instance : Monad Gen where
  pure a := done (.ok a)
  bind := bind

def get (off n : Nat) : Gen (List UInt8) := read off n fun buf => done (.ok buf)

def lift (out : Except IoError α) : Gen α := done out

/-- The reads of a generator on file `k`, each of which is an I/O step. -/
def reads (k : Nat) : Gen α → World → Except IoError α × World
  | done out, w => (out, w)
  | read off n rest, w =>
      if w.Faulty then (.error ioFault, w.tick)
      else if off + n ≤ (w.files k).len then (rest ((w.files k).bytes.read off n)).reads k w.tick
      else (.error outOfBounds, w.tick)

/-- What the generator computes from a file. -/
def eval (f : File) : Gen α → Except IoError α
  | done out => out
  | read off n rest => if off + n ≤ f.len then (rest (f.bytes.read off n)).eval f else .error outOfBounds

@[simp] theorem eval_pure (f : File) (a : α) : (pure a : Gen α).eval f = .ok a := rfl

@[simp] theorem eval_lift (f : File) (out : Except IoError α) : (lift out).eval f = out := rfl

theorem eval_get {f : File} {off n : Nat} (h : off + n ≤ f.len) :
    (get off n).eval f = .ok (f.bytes.read off n) := if_pos h

theorem eval_bind (f : File) (g : Gen α) (h : α → Gen β) :
    (g >>= h).eval f = g.eval f >>= fun a => (h a).eval f := by
  change (g.bind h).eval f = _
  induction g with
  | done out => cases out <;> rfl
  | read off n rest ih =>
      simp only [bind, eval]
      split
      · exact ih _
      · rfl

theorem eval_bind_ok {f : File} {g : Gen α} {h : α → Gen β} {a : α} (hg : g.eval f = .ok a) :
    (g >>= h).eval f = (h a).eval f := by
  rw [eval_bind, hg]
  rfl

/-- Reading takes I/O steps, and fails with one of them or tells what the file holds. -/
theorem reads_cases (k : Nat) (g : Gen α) (w : World) :
    ∃ n, (g.reads k w = (.error ioFault, w.skip n) ∧ ¬ w.Quiet) ∨
      g.reads k w = (g.eval (w.files k), w.skip n) := by
  induction g generalizing w with
  | done out => exact ⟨0, .inr rfl⟩
  | read off n rest ih =>
      simp only [reads, eval]
      split
      · rename_i hf
        exact ⟨1, .inl ⟨by rw [World.tick_eq_skip], fun hq => hq.not_faulty hf⟩⟩
      · split
        · obtain ⟨m, ⟨hrun, hq⟩ | hrun⟩ := ih ((w.files k).bytes.read off n) w.tick
          · refine ⟨m + 1, .inl ⟨by rw [hrun, World.tick_skip], fun hquiet => hq ?_⟩⟩
            rw [hquiet.tick_eq]
            exact hquiet
          · exact ⟨m + 1, .inr (by rw [hrun, World.tick_skip, World.files_tick])⟩
        · exact ⟨1, .inr (by rw [World.tick_eq_skip])⟩

end Gen

/-- `BStack::inplace_gen`. The inner outcome is what the closure kept aside. -/
def inplaceGen {α : Type} (k : Nat) (g : Gen (Batch × α)) : Io (Except IoError α) :=
  Prog.durable fun w =>
    match g.reads k w with
    | (.error e, w') => (.ok (.error e), w')
    | (.ok (ws, a), w') =>
        if w'.Faulty then (.error ioFault, w'.tick)
        else if ∀ x ∈ ws, x.1 + x.2.length ≤ (w'.files k).len then
          (.ok (.ok a), World.storeAll k ws w'.tick)
        else (.error outOfBounds, w'.tick)

/-- A generator that writes within the file fails without an effect, or its batch lands. -/
theorem inplaceGen_cases {α : Type} {k : Nat} {g : Gen (Batch × α)} {w : World} {ws : Batch} {a : α}
    (heval : g.eval (w.files k) = .ok (ws, a)) (hin : ∀ x ∈ ws, x.1 + x.2.length ≤ (w.files k).len) :
    ∃ n, (¬ w.Quiet ∧ (inplaceGen k g w = ⟨.error ioFault, w.skip n, [w]⟩ ∨
        inplaceGen k g w = ⟨.ok (.error ioFault), w.skip n, [w]⟩)) ∨
      inplaceGen k g w = ⟨.ok (.ok a), World.storeAll k ws (w.skip n), [w]⟩ := by
  obtain ⟨n, ⟨hrun, hq⟩ | hrun⟩ := g.reads_cases k w
  · refine ⟨n, .inl ⟨hq, .inr ?_⟩⟩
    simp only [inplaceGen, Prog.durable_apply, hrun]
  · rw [heval] at hrun
    refine ⟨n + 1, ?_⟩
    by_cases hf : (w.skip n).Faulty
    · refine .inl ⟨fun hq => ?_, .inl ?_⟩
      · rw [hq.skip_eq] at hf
        exact hq.not_faulty hf
      · simp only [inplaceGen, Prog.durable_apply, hrun, if_pos hf, World.skip_tick]
    · right
      simp only [inplaceGen, Prog.durable_apply, hrun, if_neg hf, World.files_skip, if_pos hin,
        World.skip_tick]

theorem inplaceGen_run {α : Type} {k : Nat} {g : Gen (Batch × α)} {w : World} {ws : Batch} {a : α}
    (hq : w.Quiet) (heval : g.eval (w.files k) = .ok (ws, a))
    (hin : ∀ x ∈ ws, x.1 + x.2.length ≤ (w.files k).len) :
    inplaceGen k g w = ⟨.ok (.ok a), World.storeAll k ws w, [w]⟩ := by
  obtain ⟨n, ⟨hno, -⟩ | hrun⟩ := inplaceGen_cases heval hin
  · exact absurd hq hno
  · rw [hrun, hq.skip_eq]

end BStackRaii
