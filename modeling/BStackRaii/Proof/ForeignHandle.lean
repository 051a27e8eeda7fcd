import BStackRaii.Proof.SelfRepr
import BStackRaii.Proof.Teardown.Chain
import BStackRaii.Proof.Teardown.Roots
/-!
# Dropping a handle in its own file

`into_local` and `bstack_drop` find the file of an explicit pointer in different ways, by the allocator they are
given and by the registry. The reverse map of the registry makes them agree. What is run there is the same code,
but for the allocator, which may be an adapter, and for an owned block one level of the depth guard and the batch
of `wal_teardown`. Neither allocator nor depth shows where no batch is made and the bound is not met.
-/

namespace BStackRaii

/-! ### Teardowns that make no batch -/

section Follows

variable {α β : Type} {excuse : Prop} {a a' : Allocator} {c c' : Teardown α}

/-- Without a sink, `c'` runs as `c` does, which may be excused from it by the depth bound. There is no sink
afterwards. -/
def Follows (excuse : Prop) (c c' : Teardown α) : Prop :=
  ∀ w, (excuse → (c none w).out ≠ .error teardownTooDeep) →
    c' none w = c none w ∧ ∀ v, (c none w).out = .ok v → v.2 = none

theorem follows_pure (x : α) : Follows excuse (pure x) (pure x) := fun w _ => by
  refine ⟨rfl, fun v hv => ?_⟩
  change Except.ok (x, (none : Sink)) = .ok v at hv
  cases hv
  rfl

theorem Follows.bind {k k' : α → Teardown β} (hc : Follows excuse c c') (hk : ∀ x, Follows excuse (k x) (k' x)) :
    Follows excuse (c >>= k) (c' >>= k') := by
  intro w hexcuse
  change (excuse → ((c none >>= fun v => k v.1 v.2) w).out ≠ _) at hexcuse
  change (c' none >>= fun v => k' v.1 v.2) w = (c none >>= fun v => k v.1 v.2) w ∧
    ∀ v, ((c none >>= fun v => k v.1 v.2) w).out = .ok v → v.2 = none
  match hrun : c none w with
  | ⟨.error e, w', cs⟩ =>
      have hrest := Prog.bind_of_error (f := fun v => k v.1 v.2) hrun
      rw [hrest] at hexcuse ⊢
      obtain ⟨heq, -⟩ := hc w fun hx he => by
        rw [hrun] at he
        exact hexcuse hx (congrArg Except.error (Except.error.inj he))
      rw [Prog.bind_of_error (heq.trans hrun)]
      exact ⟨rfl, nofun⟩
  | ⟨.ok (x, sink), w', cs⟩ =>
      have hrest := Prog.bind_of_ok (f := fun v => k v.1 v.2) hrun
      rw [hrest] at hexcuse ⊢
      obtain ⟨heq, hsink⟩ := hc w (by rw [hrun]; exact fun _ => nofun)
      obtain rfl : sink = none := hsink (x, sink) (by rw [hrun])
      obtain ⟨heq', hsink'⟩ := hk x w' hexcuse
      rw [Prog.bind_of_ok (heq.trans hrun), heq']
      exact ⟨rfl, hsink'⟩

/-- Code that does not look at the sink. -/
theorem follows_io (x : Io α) : Follows excuse (x : Teardown α) x := by
  intro w _
  refine ⟨rfl, fun v hv => ?_⟩
  change ((x >>= fun y => pure (y, (none : Sink))) w).out = .ok v at hv
  match hrun : x w with
  | ⟨.error e, w', cs⟩ =>
      rw [Prog.bind_of_error hrun] at hv
      cases hv
  | ⟨.ok y, w', cs⟩ =>
      rw [Prog.bind_of_ok hrun] at hv
      cases hv
      rfl

theorem follows_io_of_eq {x x' : Io α} (h : x = x') : Follows excuse (x : Teardown α) x' := h ▸ follows_io x

theorem follows_fail (e : IoError) : Follows excuse (Prog.fail e : Io α) (Prog.fail e : Io α) :=
  follows_io _

theorem deallocRange_congr (hstack : a.stack = a'.stack) (r : Range) : deallocRange a r = deallocRange a' r := by
  unfold deallocRange
  rw [hstack]

theorem follows_dealloc (hstack : a.stack = a'.stack) (r : Range) :
    Follows excuse (Sink.dealloc a r) (Sink.dealloc a' r) := by
  have h : Follows excuse (deallocRange a r : Teardown Unit) (deallocRange a r) := follows_io (deallocRange a r)
  intro w hexcuse
  have hrun : Sink.dealloc a' r none w = Sink.dealloc a r none w := by
    change (deallocRange a' r >>= fun _ => _) w = (deallocRange a r >>= fun _ => _) w
    rw [deallocRange_congr hstack]
  exact ⟨hrun, (h w hexcuse).2⟩

theorem Follows.walTeardown {c c' : Teardown Unit} (hanchor : a.walAnchor = none) (hanchor' : a'.walAnchor = none)
    (h : Follows excuse c c') : Follows excuse (BStackRaii.walTeardown a c) (BStackRaii.walTeardown a' c') := by
  intro w
  simp only [BStackRaii.walTeardown, hanchor, hanchor']
  exact h w

end Follows

/-! ### The drop cores -/

section Cores

variable {τ : Type} [DecidableEq τ] {types : τ → BlockType τ} {excuse : Prop} {a a' : Allocator}
  {fuel depth depth' : Nat}
  {t : τ} {off ctrl : Nat}

/-- No batch is made inside of a teardown: the file has no WAL anchor, or no type is a list. -/
def Unbatched (types : τ → BlockType τ) (a a' : Allocator) : Prop :=
  a.walAnchor = none ∧ a'.walAnchor = none ∨ ∀ t value, (types t).body ≠ .list value

/-- The token is torn down without a batch. -/
def Eager (a a' : Allocator) (tok : Token τ) : Prop := a.walAnchor = none ∧ a'.walAnchor = none ∨ tok.Plain

theorem Unbatched.eager (h : Unbatched types a a') (t : τ) (off : Nat) :
    ((types t).dropChildren off).All (Eager a a') := by
  obtain hanchor | hlist := h
  · exact .intro (fun _ => .inl hanchor) _
  · exact (plain_dropChildren (hlist t) off).mono fun _ => .inr

/-- The same depth, or one that is deeper by one level. -/
structure Alike (excuse : Prop) (types : τ → BlockType τ) (a a' : Allocator) (depth depth' : Nat) : Prop where
  stack : a.stack = a'.stack
  unbatched : Unbatched types a a'
  depth : depth' = depth ∨ excuse ∧ depth = depth' + 1

omit [DecidableEq τ] in
theorem Alike.enter {k k' : Nat → Teardown Unit} (h : Alike excuse types a a' depth depth')
    (hk : Alike excuse types a a' (depth + 1) (depth' + 1) → Follows excuse (k (depth + 1)) (k' (depth' + 1))) :
    Follows excuse ((Prog.lift (TeardownDepthGuard.enter depth) : Io Nat) >>= k : Teardown Unit)
      ((Prog.lift (TeardownDepthGuard.enter depth') : Io Nat) >>= k' : Teardown Unit) := by
  have hnext : Alike excuse types a a' (depth + 1) (depth' + 1) :=
    { h with depth := h.depth.imp (by omega) (And.imp_right (by omega)) }
  unfold TeardownDepthGuard.enter
  by_cases hdeep : depth + 1 > MAX_TEARDOWN_DEPTH
  · -- The bound is met, which is the excuse unless the depths are the same.
    rw [if_pos hdeep]
    obtain heq | ⟨hexcuse, -⟩ := h.depth
    · rw [heq, if_pos hdeep]
      exact fun w _ => ⟨rfl, nofun⟩
    · exact fun w hne => absurd rfl (hne hexcuse)
  · rw [if_neg hdeep, if_neg (by have := h.depth; omega)]
    exact (follows_pure (depth + 1)).bind fun _ => hk hnext

variable {child child' : Nat → Token τ → Teardown Unit}

/-- The tokens that the child code drops, one level further down. -/
def Deeper (excuse : Prop) (types : τ → BlockType τ) (a a' : Allocator)
    (child child' : Nat → Token τ → Teardown Unit) : Prop :=
  ∀ depth depth', Alike excuse types a a' depth depth' → ∀ tok, Eager a a' tok →
    Follows excuse (child depth tok) (child' depth' tok)

omit [DecidableEq τ] in
theorem follows_walk {child child' : Token τ → Teardown Unit} (hstack : a.stack = a'.stack)
    (hchild : ∀ tok, Eager a a' tok → Follows excuse (child tok) (child' tok)) :
    ∀ {walk : Walk τ}, walk.All (Eager a a') → Follows excuse (walk.run a child) (walk.run a' child')
  | .done out, _ => follows_io _
  | .read off n rest, h => by
      refine (follows_io_of_eq (by rw [hstack])).bind fun bytes => ?_
      exact follows_walk hstack hchild (h bytes)
  | .drop token rest, h => (hchild token h.1).bind fun _ => follows_walk hstack hchild h.2

theorem follows_dropBlock {child child' : Token τ → Teardown Unit} (h : Alike excuse types a a' depth depth')
    (hchild : ∀ tok, Eager a a' tok → Follows excuse (child tok) (child' tok)) :
    Follows excuse (Teardown.dropBlock types a child t off) (Teardown.dropBlock types a' child' t off) :=
  (follows_walk h.stack hchild (h.unbatched.eager t off)).bind fun _ => follows_dealloc h.stack _

theorem follows_fetchSub (hstack : a.stack = a'.stack) (off : Nat) :
    Follows excuse (Teardown.fetchSub a off : Teardown Nat) (Teardown.fetchSub a' off : Teardown Nat) :=
  follows_io_of_eq (by rw [Teardown.fetchSub, Teardown.fetchSub, hstack])

theorem follows_releaseWeak (hstack : a.stack = a'.stack) :
    Follows excuse (Teardown.releaseWeak a ctrl) (Teardown.releaseWeak a' ctrl) := by
  refine (follows_io _).bind fun weakOff => (follows_fetchSub hstack _).bind fun prev => ?_
  split
  · exact follows_dealloc hstack _
  · exact follows_pure ()

theorem follows_dropOwned (h : Alike excuse types a a' depth depth') (hchild : Deeper excuse types a a' child child') :
    Follows excuse (Teardown.dropOwned types a child depth t off) (Teardown.dropOwned types a' child' depth' t off) :=
  h.enter fun hnext => follows_dropBlock hnext (hchild _ _ hnext)

theorem follows_dropStrong (h : Alike excuse types a a' depth depth')
    (hchild : Deeper excuse types a a' child child') :
    Follows excuse (Teardown.dropStrong types a child depth t off)
      (Teardown.dropStrong types a' child' depth' t off) := by
  refine h.enter fun hnext => (follows_io _).bind fun countOff => (follows_fetchSub h.stack _).bind fun prev => ?_
  split
  · exact follows_dropBlock hnext (hchild _ _ hnext)
  · exact follows_pure ()

theorem follows_strongReleaseCtrl (h : Alike excuse types a a' depth depth')
    (hchild : Deeper excuse types a a' child child') :
    Follows excuse (Teardown.strongReleaseCtrl types a child depth t off ctrl)
      (Teardown.strongReleaseCtrl types a' child' depth' t off ctrl) := by
  refine h.enter fun hnext => (follows_io _).bind fun strongOff => (follows_fetchSub h.stack _).bind fun prev => ?_
  split
  · exact (follows_dropBlock hnext (hchild _ _ hnext)).bind fun _ => follows_releaseWeak h.stack
  · exact follows_pure ()

theorem resolveCtrl_congr (hstack : a.stack = a'.stack) : Teardown.resolveCtrl a off = Teardown.resolveCtrl a' off := by
  rw [Teardown.resolveCtrl, Teardown.resolveCtrl, hstack]

theorem follows_dropStrongRef (h : Alike excuse types a a' depth depth')
    (hchild : Deeper excuse types a a' child child') :
    Follows excuse (Teardown.dropStrongRef types a child depth t off)
      (Teardown.dropStrongRef types a' child' depth' t off) := by
  unfold Teardown.dropStrongRef
  cases (types t).mode with
  | rcWeak =>
      exact (follows_io_of_eq (resolveCtrl_congr h.stack)).bind fun _ => follows_strongReleaseCtrl h hchild
  | plain => exact follows_dropStrong h hchild
  | rc => exact follows_dropStrong h hchild

/-- Every token, by induction over the native stack. -/
theorem follows_dropToken (fuel : Nat) :
    Deeper excuse types a a' (Teardown.dropToken types a fuel) (Teardown.dropToken types a' fuel) := by
  induction fuel with
  | zero => exact fun depth depth' h tok _ => follows_fail _
  | succ fuel ih =>
      intro depth depth' h tok heager
      cases tok with
      | owned t off => exact follows_dropOwned h ih
      | element t off =>
          obtain ⟨hanchor, hanchor'⟩ := heager.resolve_right id
          exact (follows_dropBlock h (ih depth depth' h)).walTeardown hanchor hanchor'
      | strong t off => exact follows_dropStrongRef h ih
      | weak ctrl => exact follows_releaseWeak h.stack
      | embed t off => exact follows_walk h.stack (ih depth depth' h) (h.unbatched.eager t off)
      | data range => exact follows_dealloc h.stack range

theorem Follows.release {c c' : Teardown Unit} (h : Follows excuse c c') {w : World}
    (hexcuse : excuse → (release c w).out ≠ .error teardownTooDeep) : release c' w = release c w := by
  obtain ⟨heq, -⟩ := h w fun hx he => hexcuse hx <| by
    cases hrun : c none w with
    | mk out w' cs =>
        rw [hrun] at he
        obtain rfl : out = .error teardownTooDeep := he
        rw [BStackRaii.release, Prog.bind_of_error hrun]
  change Prog.andThen (c' none) _ w = Prog.andThen (c none) _ w
  simp only [Prog.andThen, heq]

end Cores

/-! ### The file of a pointer -/

namespace Process

variable {P : Process} {repr : WidePtr} {home target : Allocator} {drop : Allocator → Nat → Io Unit}

theorem stack_foreignHostAllocator (host : Host) (id : Nat) : (P.foreignHostAllocator host id).stack = host.stack :=
  P.stack_eq host

/-- The reverse map has a host under the id that it is attached under. -/
theorem hostArc_of_idOfHost (hreg : Reached P.registry) {host : Host} {id : Nat}
    (h : idOfHost P.registry host = some id) : P.hostArc id = some host := by
  obtain ⟨g, hg, hid⟩ := Option.bind_eq_some_iff.1 h
  obtain hnone | ⟨log, ops, hsome⟩ := hreg
  · rw [hnone] at hg
    cases hg
  · rw [hsome] at hg
    obtain rfl := Option.some.inj hg
    rw [hostArc, hsome]
    exact ((FileRegistry.wellHosted_openLog log).run ops).linked.idOfHost_iff.1 hid

/-- An id with a host is an ordinary one. -/
theorem fromU64_of_hostArc {id : Nat} {host : Host} (h : P.hostArc id = some host) : FileId.fromU64 id = some id := by
  obtain ⟨g, -, hlive⟩ := Option.bind_eq_some_iff.1 h
  obtain ⟨idx, hidx, -⟩ := Option.bind_eq_some_iff.1 hlive
  rw [FileId.tableIndex] at hidx
  split at hidx
  case isTrue hlt =>
    rw [FileId.fromU64, if_pos]
    rw [FileId.SPECIAL_FLOOR] at hlt
    omega
  case isFalse => cases hidx

def dispatched (P : Process) (repr : WidePtr) (home : Allocator) (host : Host) : Allocator :=
  if repr.isSelf then home else P.foreignHostAllocator host repr.file

/-- The target is in the file of the pointer: the home of a `SELF` pointer, or the host attached under its id. -/
structure InFile (P : Process) (repr : WidePtr) (home target : Allocator) : Prop where
  self : repr.isSelf → target = home
  attached : ¬repr.isSelf → P.hostArc repr.file = some ⟨target.stack⟩

theorem foreignDispatchDrop_eq (h : P.InFile repr home target) (hoff : repr.offset ≠ 0) :
    P.foreignDispatchDrop repr home drop = drop (P.dispatched repr home ⟨target.stack⟩) repr.offset := by
  unfold foreignDispatchDrop dispatched
  rw [if_neg hoff]
  split
  · rfl
  case isFalse hself =>
    have hhost := h.attached hself
    rw [fromU64_of_hostArc hhost]
    simp only [hhost]

/-- The dispatched allocator has the file and the anchor of the target. -/
theorem InFile.alike (h : P.InFile repr home target) (htarget : P.IsAllocator target) :
    (P.dispatched repr home ⟨target.stack⟩).stack = target.stack ∧
      (P.dispatched repr home ⟨target.stack⟩).walAnchor = target.walAnchor := by
  unfold dispatched
  split
  case isTrue hself => rw [h.self hself]; exact ⟨rfl, rfl⟩
  case isFalse =>
    refine ⟨stack_foreignHostAllocator _ _, ?_⟩
    cases htarget with
    | file host => rw [P.stack_eq]; rfl
    | adapter host id => rw [stack_foreignHostAllocator]; rfl

/-- The dispatched allocator is the target, unless that is another allocator of the file. -/
theorem InFile.dispatched_eq (h : P.InFile repr home target) (htarget : P.IsAllocator target)
    (hid : ¬repr.isSelf → target.walFileId = repr.file) : P.dispatched repr home ⟨target.stack⟩ = target := by
  unfold dispatched
  split
  case isTrue hself => exact (h.self hself).symm
  case isFalse hself =>
    have hid := hid hself
    cases htarget with
    | file host =>
        -- The allocator of a file declares `SELF`, which is no explicit id.
        rw [P.own] at hid
        exact absurd (by simp [WidePtr.isSelf, ← hid]) hself
    | adapter host id =>
        rw [stack_foreignHostAllocator, ← hid]
        rfl

end Process

/-! ### Conversions -/

/-- The program changes no file. -/
def ReadsOnly {α : Type} (c : Io α) : Prop := ∀ w, (c w).final.files = w.files ∧ (c w).cuts = []

section ReadsOnly

variable {α β : Type}

theorem readsOnly_pure (x : α) : ReadsOnly (pure x : Io α) := fun _ => ⟨rfl, rfl⟩

theorem readsOnly_lift (x : Except IoError α) : ReadsOnly (Prog.lift x : Io α) := fun _ => by
  cases x <;> exact ⟨rfl, rfl⟩

theorem ReadsOnly.bind {c : Io α} {k : α → Io β} (hc : ReadsOnly c) (hk : ∀ x, ReadsOnly (k x)) :
    ReadsOnly (c >>= k) := by
  intro w
  obtain ⟨hfiles, hcuts⟩ := hc w
  match hrun : c w with
  | ⟨.error e, w', cs⟩ =>
      rw [hrun] at hfiles hcuts
      rw [Prog.bind_of_error hrun]
      exact ⟨hfiles, hcuts⟩
  | ⟨.ok x, w', cs⟩ =>
      rw [hrun] at hfiles hcuts
      obtain ⟨hfiles', hcuts'⟩ := hk x w'
      rw [Prog.bind_of_ok hrun]
      exact ⟨hfiles'.trans hfiles, by rw [Run.after, hcuts', List.append_nil]; exact hcuts⟩

theorem readsOnly_getInto (k off n : Nat) : ReadsOnly (getInto k off n) := by
  intro w
  simp only [getInto, Prog.volatile_apply, and_true]
  split_ifs <;> rfl

theorem readsOnly_readU64 (k off : Nat) : ReadsOnly (readU64 k off) :=
  (readsOnly_getInto k off 8).bind fun _ => readsOnly_pure _

end ReadsOnly

section Handles

variable {τ : Type} [DecidableEq τ] {types : τ → BlockType τ} {fuel : Nat} {P : Process} {home target : Allocator}
  {h h' : ForeignHandle τ} {l : LocalHandle τ} {t : τ} {off : Nat} {ctrl : Option Nat} {a : Allocator} {w w' : World}
  {e : IoError} {cs : List World}

omit [DecidableEq τ] in
theorem readsOnly_strongParts : ReadsOnly (strongParts types a t off) := by
  unfold strongParts
  split
  · refine ReadsOnly.bind ?_ fun _ => readsOnly_pure _
    exact (readsOnly_lift _).bind fun _ => readsOnly_readU64 _ _
  · exact readsOnly_pure _

omit [DecidableEq τ] in
/-- A handle is converted in its own file only. -/
theorem ensureTargetFile_of_intoLocal {r : LocalHandle τ} (hrun : (h.intoLocal types P target w).out = .ok (.ok r)) :
    P.ensureTargetFile h.ptr target = .ok () := by
  unfold ForeignHandle.intoLocal at hrun
  cases hensure : P.ensureTargetFile h.ptr target with
  | ok u => rfl
  | error e =>
      rw [hensure] at hrun
      cases hrun

theorem attached_of_ensureTargetFile (hreg : Reached P.registry) {repr : WidePtr} (hself : ¬repr.isSelf)
    (hplain : target.walFileId = FileId.SELF) (h : P.ensureTargetFile repr target = .ok ()) :
    P.hostArc repr.file = some ⟨target.stack⟩ := by
  rw [Process.ensureTargetFile, if_neg hself, if_pos hplain] at h
  simp only [ne_eq, ite_not] at h
  split at h
  case isTrue hid => exact Process.hostArc_of_idOfHost hreg hid
  case isFalse => cases h

theorem release_io {β : Type} (x : Io β) (k : β → Teardown Unit) :
    release ((x : Teardown β) >>= k) = x >>= fun b => release (k b) := by
  change ((x >>= fun b => pure (b, (none : Sink))) >>= fun v => k v.1 v.2) >>= (fun _ => pure ()) = _
  rw [bind_assoc, bind_assoc]
  exact bind_congr fun b => pure_bind _ _

theorem dropStrongRef_eq (hrun : strongParts types a t off w = ⟨.ok ctrl, w', cs⟩) :
    release (Teardown.dropStrongRef types a (Teardown.dropToken types a fuel) 0 t off) w =
      ((LocalHandle.rc t off ctrl).drop types fuel a w').after cs := by
  unfold strongParts at hrun
  unfold Teardown.dropStrongRef
  cases hmode : (types t).mode with
  | plain =>
      rw [hmode] at hrun
      cases hrun
      rfl
  | rc =>
      rw [hmode] at hrun
      cases hrun
      rfl
  | rcWeak =>
      rw [hmode] at hrun
      match hctrl : Teardown.resolveCtrl a off w with
      | ⟨.error e, w₁, cs₁⟩ =>
          simp only [Prog.bind_of_error hctrl] at hrun
          cases hrun
      | ⟨.ok c, w₁, cs₁⟩ =>
          simp only [Prog.bind_of_ok hctrl, Prog.pure_apply, Run.after_mk, List.append_nil] at hrun
          cases hrun
          change release ((Teardown.resolveCtrl a off : Teardown Nat) >>= _) w = _
          rw [release_io, Prog.bind_of_ok hctrl]
          rfl

omit [DecidableEq τ] in
theorem intoLocal_rc {ptr : WidePtr}
    (hrun : (ForeignHandle.rc t ptr).intoLocal types P target w = ⟨.ok (.ok l), w', cs⟩) :
    ∃ ctrl, l = .rc t ptr.offset ctrl ∧ strongParts types target t ptr.offset w = ⟨.ok ctrl, w', cs⟩ := by
  have hensure := ensureTargetFile_of_intoLocal (congrArg Run.out hrun)
  rw [ForeignHandle.intoLocal, hensure] at hrun
  match hparts : strongParts types target t ptr.offset w with
  | ⟨.error e, w₁, cs₁⟩ =>
      have hattempt : Prog.attempt (strongParts types target t ptr.offset) w = ⟨.ok (.error e), w₁, cs₁⟩ := by
        rw [Prog.attempt_apply, hparts]
      simp only [Prog.bind_of_ok hattempt] at hrun
      cases hrun
  | ⟨.ok ctrl, w₁, cs₁⟩ =>
      have hattempt : Prog.attempt (strongParts types target t ptr.offset) w = ⟨.ok (.ok ctrl), w₁, cs₁⟩ := by
        rw [Prog.attempt_apply, hparts]
      simp only [Prog.bind_of_ok hattempt, Prog.pure_apply, Run.after_mk, List.append_nil] at hrun
      cases hrun
      exact ⟨ctrl, rfl, rfl⟩

/-- Where the two drops run alike, whatever the file holds. An element of a list is torn down in a batch, whose log
shows the allocator. An owned root makes one batch or none, and has one level less of the guard. -/
def ForeignHandle.Comparable (types : τ → BlockType τ) (fuel : Nat) (P : Process) (home target : Allocator)
    (h : ForeignHandle τ) (w : World) : Prop :=
  match h with
  | weak _ => True
  | rc _ ptr => target.walAnchor = none ∨ (∀ t value, (types t).body ≠ .list value) ∨
      (¬ptr.isSelf → target.walFileId = ptr.file)
  | owned _ _ => target.walAnchor = none ∧ (h.bstackDrop types fuel P home w).out ≠ .error teardownTooDeep

def ForeignHandle.core (types : τ → BlockType τ) (fuel : Nat) (a : Allocator) : ForeignHandle τ → Teardown Unit
  | owned t ptr => Teardown.dropOwned types a (Teardown.dropToken types a fuel) 0 t ptr.offset
  | rc t ptr => Teardown.dropStrongRef types a (Teardown.dropToken types a fuel) 0 t ptr.offset
  | weak ptr => Teardown.releaseWeak a ptr.offset

theorem bstackDrop_eq (hfile : P.InFile h.ptr home target) (hoff : h.ptr.offset ≠ 0) :
    h.bstackDrop types fuel P home = release (h.core types fuel (P.dispatched h.ptr home ⟨target.stack⟩)) := by
  cases h with
  | owned t ptr => exact Process.foreignDispatchDrop_eq hfile hoff
  | rc t ptr => exact Process.foreignDispatchDrop_eq hfile hoff
  | weak ptr => exact Process.foreignDispatchDrop_eq hfile hoff

/-- A block that is owned, one level up in the depth, and outside of a batch. -/
theorem follows_bstackOwned {a' : Allocator} (hstack : a.stack = a'.stack) (hanchor : a.walAnchor = none)
    (hanchor' : a'.walAnchor = none) :
    Follows True (Teardown.dropOwned types a (Teardown.dropToken types a fuel) 0 t off)
      (walTeardown a' (Teardown.dropBlock types a' (Teardown.dropToken types a' fuel 0) t off)) := by
  have halike : Alike True types a a' 1 0 := ⟨hstack, .inl ⟨hanchor, hanchor'⟩, .inr ⟨trivial, rfl⟩⟩
  have hblock : Follows True (Teardown.dropBlock types a (Teardown.dropToken types a fuel 1) t off)
      (Teardown.dropBlock types a' (Teardown.dropToken types a' fuel 0) t off) :=
    follows_dropBlock halike (follows_dropToken fuel 1 0 halike)
  intro w
  simp only [walTeardown, hanchor']
  exact hblock w

/-- In the file of the pointer, dropping the converted handle is dropping the handle. -/
theorem drop_intoLocal (htarget : P.IsAllocator target) (hfile : P.InFile h.ptr home target)
    (hoff : h.ptr.offset ≠ 0) (hcomparable : h.Comparable types fuel P home target w)
    (hrun : h.intoLocal types P target w = ⟨.ok (.ok l), w', cs⟩) :
    h.bstackDrop types fuel P home w = (l.drop types fuel target w').after cs := by
  obtain ⟨hstack, hanchor⟩ := hfile.alike htarget
  have hensure := ensureTargetFile_of_intoLocal (congrArg Run.out hrun)
  have hdrop : h.bstackDrop types fuel P home = _ := bstackDrop_eq hfile hoff
  cases h with
  | weak ptr =>
      rw [ForeignHandle.intoLocal, hensure] at hrun
      cases hrun
      rw [hdrop]
      have hweak : Follows False (Teardown.releaseWeak (P.dispatched ptr home ⟨target.stack⟩) ptr.offset)
          (Teardown.releaseWeak target ptr.offset) := follows_releaseWeak hstack
      exact (hweak.release nofun).symm
  | rc t ptr =>
      obtain ⟨ctrl, rfl, hparts⟩ := intoLocal_rc hrun
      rw [← dropStrongRef_eq hparts, hdrop]
      have hfollows (hbatch : Unbatched types (P.dispatched ptr home ⟨target.stack⟩) target) :
          release (Teardown.dropStrongRef types target (Teardown.dropToken types target fuel) 0 t ptr.offset) w =
            release ((ForeignHandle.rc t ptr).core types fuel (P.dispatched ptr home ⟨target.stack⟩)) w := by
        have halike : Alike False types (P.dispatched ptr home ⟨target.stack⟩) target 0 0 :=
          ⟨hstack, hbatch, .inl rfl⟩
        exact (follows_dropStrongRef halike (follows_dropToken fuel)).release nofun
      obtain hnone | hlist | hid := hcomparable
      · exact (hfollows (.inl ⟨hanchor.trans hnone, hnone⟩)).symm
      · exact (hfollows (.inr hlist)).symm
      · have heq : P.dispatched (ForeignHandle.rc t ptr).ptr home ⟨target.stack⟩ = target :=
          hfile.dispatched_eq htarget hid
        rw [heq]
        rfl
  | owned t ptr =>
      rw [ForeignHandle.intoLocal, hensure] at hrun
      cases hrun
      obtain ⟨hnone, hdeep⟩ := hcomparable
      rw [hdrop] at hdeep ⊢
      exact ((follows_bstackOwned hstack (hanchor.trans hnone) hnone).release fun _ => hdeep).symm

/-! ### Whole structures -/

/-- At `off` is a finite acyclic structure `N`, within the depth bound from one level down. No I/O fails, and `a'` can
commit the batches of its elements. The block of the log is none of those `seen`. -/
structure Rooted (types : τ → BlockType τ) (a a' : Allocator) (N : Finset (Place τ)) (seen : Range → Prop) (w : World)
    (t : τ) (off : Nat) : Prop where
  laid : Laid types
  quiet : w.Quiet
  built : Structure types (w.files a.stack) (.block t off) N
  shallow : ShallowFrom 1 types (w.files a.stack) (.block t off) N
  covers : ∀ r, Uses types N r → seen r
  batches : Batched types (w.files a.stack) N → Batches a' N.card seen w

/-- The structure behind a handle can be torn down whole by either drop. The converted handle makes one batch for an
owned root. A counted root has the reference on record, and makes the batches of its elements. -/
def ForeignHandle.Whole (types : τ → BlockType τ) (P : Process) (home target : Allocator) (N : Finset (Place τ))
    (seen : Range → Prop) (w : World) (h : ForeignHandle τ) : Prop :=
  match h with
  | owned t ptr => Rooted types target (P.dispatched ptr home ⟨target.stack⟩) N seen w t ptr.offset ∧
      (types t).mode = .plain ∧ (target.walAnchor ≠ none → Served target w) ∧
      CanCommit target (soleFrees types (w.files target.stack) (.block t ptr.offset) N) seen w
  | rc t ptr => Rooted types target (P.dispatched ptr home ⟨target.stack⟩) N seen w t ptr.offset ∧
      (types t).mode ≠ .plain ∧
      1 ≤ (Place.holdings types (w.files target.stack)).count (.block t ptr.offset) ∧
      (Batched types (w.files target.stack) N → Batches target N.card seen w)
  | weak _ => False

section Whole

variable {a' : Allocator} {N : Finset (Place τ)} {seen : Range → Prop}

theorem Rooted.swap (h : Rooted types a a' N seen w t off) (hstack : a'.stack = a.stack)
    (hready : Batched types (w.files a.stack) N → Batches a N.card seen w) : Rooted types a' a N seen w t off := by
  obtain ⟨hlaid, hquiet, hbuilt, hshallow, hcovers, -⟩ := h
  rw [← hstack] at hbuilt hshallow hready
  exact ⟨hlaid, hquiet, hbuilt, hshallow, hcovers, hready⟩

theorem Rooted.owned_settles (h : Rooted types a a' N seen w t off) (hstack : a'.stack = a.stack)
    (hplain : (types t).mode = .plain) (hserved : a.walAnchor ≠ none → Served a w)
    (hhome : a.atomicBulk = true → a.walFileId = FileId.SELF)
    (hcan : CanCommit a (soleFrees types (w.files a.stack) (.block t off) N) seen w) :
    ∃ enough, ∀ fuel, enough ≤ fuel →
      Settles types a.stack (.block t off) N seen 0 w (foreignDropOwned types fuel t a' off w) ∧
      Settles types a.stack (.block t off) N seen 0 w ((LocalHandle.owned t off).drop types fuel a w) := by
  have hfrom : ShallowFrom 0 types (w.files a.stack) (.block t off) N := fun d p hhops => by
    have := h.shallow d p hhops
    omega
  obtain ⟨enough, hlocal⟩ := bstackDrop_settles h.laid h.built h.quiet hplain h.covers hserved hhome hcan hfrom
  have hbuilt := h.built
  have hshallow := h.shallow
  have hready := h.batches
  rw [← hstack] at hbuilt hshallow hready
  obtain ⟨enough', hforeign⟩ := dropOwned_settles h.laid hbuilt h.quiet hplain h.covers hready hshallow
  rw [hstack] at hforeign
  exact ⟨max enough enough', fun fuel hfuel => ⟨hforeign fuel (by omega), hlocal fuel (by omega)⟩⟩

theorem Rooted.rc_settles (h : Rooted types a a' N seen w t off) (hmode : (types t).mode ≠ .plain)
    (hpos : 1 ≤ (Place.holdings types (w.files a.stack)).count (.block t off))
    (hready : Batched types (w.files a.stack) N → Batches a N.card seen w) :
    ∃ ctrl, strongParts types a t off w = ⟨.ok ctrl, w, []⟩ ∧ ∃ enough, ∀ fuel, enough ≤ fuel →
      Settles types a.stack (.block t off) N seen {.block t off} w
        ((LocalHandle.rc t off ctrl).drop types fuel a w) := by
  cases hcase : (types t).mode with
  | plain => exact absurd hcase hmode
  | rc =>
      refine ⟨none, ?_, dropStrong_settles h.laid h.built h.quiet hcase hpos h.covers hready h.shallow⟩
      rw [strongParts, hcase]
      rfl
  | rcWeak =>
      refine ⟨some (Place.ctrlOf (w.files a.stack) off), ?_,
        strongReleaseCtrl_settles h.laid h.built h.quiet hcase hpos h.covers hready h.shallow⟩
      have hstart : Mid types a (.block t off) N 0 seen 0 w .direct [] 0 w :=
        .start h.quiet h.covers rfl hready trivial
      rw [strongParts, hcase]
      exact Prog.bind_of_ok (Droppable.resolveCtrl_run h.laid h.built h.built.mem_root hcase hstart)

theorem Rooted.strong_settles {ctrl : Option Nat} (h : Rooted types a a' N seen w t off) (hstack : a'.stack = a.stack)
    (hmode : (types t).mode ≠ .plain) (hpos : 1 ≤ (Place.holdings types (w.files a.stack)).count (.block t off))
    (hready : Batched types (w.files a.stack) N → Batches a N.card seen w)
    (hparts : strongParts types a t off w = ⟨.ok ctrl, w', cs⟩) :
    ∃ enough, ∀ fuel, enough ≤ fuel →
      Settles types a.stack (.block t off) N seen {.block t off} w (foreignDropStrong types fuel t a' off w) ∧
      Settles types a.stack (.block t off) N seen {.block t off} w
        ((LocalHandle.rc t off ctrl).drop types fuel a w') := by
  obtain ⟨ctrl₁, hparts₁, enough, hlocal⟩ := h.rc_settles hmode hpos hready
  rw [hparts] at hparts₁
  cases hparts₁
  have hpos' := hpos
  have hready' := h.batches
  rw [← hstack] at hpos' hready'
  obtain ⟨ctrl₂, hparts₂, enough', hforeign⟩ := (h.swap hstack hready).rc_settles hmode hpos' hready'
  rw [hstack] at hforeign
  refine ⟨max enough enough', fun fuel hfuel => ⟨?_, hlocal fuel (by omega)⟩⟩
  have heq : foreignDropStrong types fuel t a' off w = (LocalHandle.rc t off ctrl₂).drop types fuel a' w :=
    (dropStrongRef_eq hparts₂).trans (Run.after_nil _)
  rw [heq]
  exact hforeign fuel (by omega)

/-- Bulk frees are the file's own. -/
theorem Process.IsAllocator.home_of_bulk (h : P.IsAllocator target) (hbulk : target.atomicBulk = true) :
    target.walFileId = FileId.SELF := by
  cases h with
  | file host => exact P.own host
  | adapter host id => cases hbulk

/-- Both drops of a handle take the structure down. -/
theorem settles_intoLocal (htarget : P.IsAllocator target) (hfile : P.InFile h.ptr home target)
    (hoff : h.ptr.offset ≠ 0) (hwhole : h.Whole types P home target N seen w)
    (hrun : h.intoLocal types P target w = ⟨.ok (.ok l), w', cs⟩) :
    ∃ root lent, Structure types (w.files target.stack) root N ∧ ∃ enough, ∀ fuel, enough ≤ fuel →
      Settles types target.stack root N seen lent w (h.bstackDrop types fuel P home w) ∧
      Settles types target.stack root N seen lent w (l.drop types fuel target w') := by
  obtain ⟨hstack, -⟩ := hfile.alike htarget
  have hensure := ensureTargetFile_of_intoLocal (congrArg Run.out hrun)
  cases h with
  | weak ptr => exact hwhole.elim
  | owned t ptr =>
      obtain ⟨hrooted, hplain, hserved, hcan⟩ := hwhole
      rw [ForeignHandle.intoLocal, hensure] at hrun
      cases hrun
      have hdrop (fuel : Nat) : (ForeignHandle.owned t ptr).bstackDrop types fuel P home =
          foreignDropOwned types fuel t (P.dispatched ptr home ⟨target.stack⟩) ptr.offset :=
        Process.foreignDispatchDrop_eq hfile hoff
      simp only [hdrop]
      exact ⟨_, 0, hrooted.built, hrooted.owned_settles hstack hplain hserved htarget.home_of_bulk hcan⟩
  | rc t ptr =>
      obtain ⟨hrooted, hmode, hpos, hready⟩ := hwhole
      obtain ⟨ctrl, rfl, hparts⟩ := intoLocal_rc hrun
      have hdrop (fuel : Nat) : (ForeignHandle.rc t ptr).bstackDrop types fuel P home =
          foreignDropStrong types fuel t (P.dispatched ptr home ⟨target.stack⟩) ptr.offset :=
        Process.foreignDispatchDrop_eq hfile hoff
      simp only [hdrop]
      exact ⟨_, _, hrooted.built, hrooted.strong_settles hstack hmode hpos hready hparts⟩

end Whole

omit [DecidableEq τ] in
/-- A conversion reads, and an error hands the handle back. -/
theorem intoLocal_cases (types : τ → BlockType τ) (P : Process) (target : Allocator) (h : ForeignHandle τ) (w : World) :
    ∃ r w', h.intoLocal types P target w = ⟨.ok r, w', []⟩ ∧ w'.files = w.files ∧
      ∀ e h', r = .error (e, h') → h' = h := by
  unfold ForeignHandle.intoLocal
  cases P.ensureTargetFile h.ptr target with
  | error e =>
      refine ⟨.error (e, h), w, rfl, rfl, ?_⟩
      rintro e' h' heq
      cases heq
      rfl
  | ok u =>
      cases h with
      | owned t ptr => exact ⟨.ok (.owned t ptr.offset), w, rfl, rfl, nofun⟩
      | weak ptr => exact ⟨.ok (.weak ptr.offset), w, rfl, rfl, nofun⟩
      | rc t ptr =>
          have hreads : ReadsOnly (strongParts types target t ptr.offset) := readsOnly_strongParts
          obtain ⟨hfiles, hcuts⟩ := hreads w
          match hparts : strongParts types target t ptr.offset w with
          | ⟨.error e, w', cs⟩ =>
              rw [hparts] at hfiles hcuts
              obtain rfl : cs = [] := hcuts
              have hattempt : Prog.attempt (strongParts types target t ptr.offset) w = ⟨.ok (.error e), w', []⟩ := by
                rw [Prog.attempt_apply, hparts]
              refine ⟨.error (e, .rc t ptr), w', Prog.bind_of_ok hattempt, hfiles, ?_⟩
              rintro e' h' heq
              cases heq
              rfl
          | ⟨.ok ctrl, w', cs⟩ =>
              rw [hparts] at hfiles hcuts
              obtain rfl : cs = [] := hcuts
              have hattempt : Prog.attempt (strongParts types target t ptr.offset) w = ⟨.ok (.ok ctrl), w', []⟩ := by
                rw [Prog.attempt_apply, hparts]
              exact ⟨.ok (.rc t ptr.offset ctrl), w', Prog.bind_of_ok hattempt, hfiles, nofun⟩

end Handles

/-- A process whose allocators have a WAL anchor or not, and whose registry has made `ops`. -/
def Process.of (walAnchor : Option Nat) (ops : List RegistryOp) : Process where
  registry := some ((FileRegistry.openLog []).run ops)
  allocator := fun host => ⟨host.stack, true, walAnchor, FileId.SELF⟩
  stack_eq := fun _ => rfl
  own := fun _ => rfl

/-- Its file 0 has the words `ws`. -/
def worded (ws : List Nat) (live : List Range) (apart : live.Pairwise Range.Apart)
    (inside : ∀ r ∈ live, 16 ≤ r.start ∧ r.stop ≤ 256) : World :=
  { World.blank [] with files := fun _ =>
      { bytes := fun i => (ws.flatMap (leBytes 8)).getD i 0, len := 256, live, apart, inside,
        addressable := by decide } }

/-- Leaves, pairs of owned leaves, lists of leaves, and shared owners of such a list. -/
inductive Kind
  | leaf
  | pair
  | list
  | shared
deriving DecidableEq

def Kind.blockType : Kind → BlockType Kind
  | leaf => ⟨16, .plain, .struct []⟩
  | pair => ⟨32, .plain, .struct [.owned 16 leaf, .owned 24 leaf]⟩
  | list => ⟨40, .plain, .list leaf⟩
  | shared => ⟨32, .rc, .struct [.owned 24 list]⟩

def attachFirst : RegistryOp := .attach [97] ⟨0⟩ (.ok ())

/-- Both drops of a handle: `l` is what `into_local` makes of it, and the two differ in file 0. -/
def Differ (P : Process) (target : Allocator) (h : ForeignHandle Kind) (w : World) (l : LocalHandle Kind) : Prop :=
  (h.intoLocal Kind.blockType P target w).out = .ok (.ok l) ∧
    (((h.bstackDrop Kind.blockType 9 P target w).final.files 0).bytes.word 24 ≠
        ((l.drop Kind.blockType 9 target (h.intoLocal Kind.blockType P target w).final).final.files 0).bytes.word 24 ∨
      ((h.bstackDrop Kind.blockType 9 P target w).final.files 0).live ≠
        ((l.drop Kind.blockType 9 target (h.intoLocal Kind.blockType P target w).final).final.files 0).live)

instance (P : Process) (target : Allocator) (h : ForeignHandle Kind) (w : World) (l : LocalHandle Kind) :
    Decidable (Differ P target h w l) := by
  unfold Differ
  infer_instance

end BStackRaii
