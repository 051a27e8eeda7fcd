import BStackRaii.Proof.FileRegistry
/-!
# `SELF` pointers through a file and back

On disk a pointer into the file that holds it is `SELF`, in memory it names that file by its id. A pointer denotes
a block of an open file, or of the file of an id nothing is attached under. Storing and reading keep the block a
pointer denotes, whatever happens to the registry in between, and whatever log it was opened on.
-/

namespace BStackRaii

/-! ### The hosts of any registry -/

namespace FileRegistry

/-- The reverse map is in order, and every id is the place of a path. -/
structure WellHosted (g : FileRegistry) : Prop where
  linked : Linked g
  slots : g.live.length = g.paths.length
  named : ∀ parts id, g.byPath parts = some id → ∃ i < g.paths.length, id = FileId.ofIndex i

section WellHosted

variable {g : FileRegistry}

theorem named_collect (paths : List Path) (parts : Bool × List Path) (id : Nat) (h : collect paths parts = some id) :
    ∃ i < paths.length, id = FileId.ofIndex i := by
  revert parts id
  refine List.foldlRecOn (motive := fun m => ∀ parts id, m parts = some id → ∃ i < paths.length, id = FileId.ofIndex i)
    paths.zipIdx (fun m e => Function.update m e.1.components (some (FileId.ofIndex e.2)))
    ?_ fun m hm e he parts id h => ?_
  · intro parts id h
    cases h
  · by_cases hparts : parts = e.1.components
    · rw [hparts, Function.update_self] at h
      have hlt := (List.mem_zipIdx he).2.1
      exact ⟨e.2, by omega, (Option.some.inj h).symm⟩
    · rw [Function.update_of_ne hparts] at h
      exact hm parts id h

theorem wellHosted_openLog (log : List UInt8) : WellHosted (openLog log) := by
  have hnone : ∀ (i : Nat) (host : Host), (openLog log).live[i]? ≠ some (some host) := by
    intro i host hi
    cases (List.mem_replicate.mp (List.mem_of_getElem? hi)).2
  refine ⟨⟨fun stack id => ⟨fun heq => (nomatch heq), fun hex => ?_⟩, fun i host hi => absurd hi (hnone i host)⟩,
    List.length_replicate, named_collect _⟩
  obtain ⟨i, hi, -⟩ := hex
  exact absurd hi (hnone i _)

theorem WellHosted.registerPath (h : WellHosted g) (path : Path) (pushed : Except IoError Unit) :
    WellHosted (g.registerPath path pushed).2 ∧ ∀ id, (g.registerPath path pushed).1 = .ok id →
      ∃ i < (g.registerPath path pushed).2.paths.length, id = FileId.ofIndex i := by
  obtain ⟨id, hpath, heq⟩ | ⟨e, heq⟩ | ⟨-, -, -, heq⟩ := registerPath_cases g path pushed
  · rw [heq]
    refine ⟨h, fun id' hid => ?_⟩
    cases hid
    exact h.named _ _ hpath
  · rw [heq]
    exact ⟨h, nofun⟩
  · have hlive := @live_registerPath g path pushed
    rw [heq] at hlive ⊢
    simp only at hlive ⊢
    have hlen : (g.appended path).paths.length = g.paths.length + 1 := List.length_append
    have hpush : (g.appended path).byPath =
      Function.update g.byPath path.components (some (FileId.ofIndex g.paths.length)) := rfl
    refine ⟨⟨⟨h.linked.reverse.push, fun i host hi => h.linked.ordinary i host (hlive.mp hi)⟩, ?_, ?_⟩, ?_⟩
    · show (g.live ++ [none]).length = (g.paths ++ [path]).length
      rw [List.length_append, List.length_append, h.slots]
      rfl
    · intro parts id hid
      rw [hpush] at hid
      by_cases hparts : parts = path.components
      · rw [hparts, Function.update_self] at hid
        exact ⟨g.paths.length, by omega, (Option.some.inj hid).symm⟩
      · rw [Function.update_of_ne hparts] at hid
        obtain ⟨i, hi, hplace⟩ := h.named parts id hid
        exact ⟨i, by omega, hplace⟩
    · rintro id hid
      cases hid
      exact ⟨g.paths.length, by omega, rfl⟩

theorem WellHosted.attach (h : WellHosted g) (path : Path) (host : Host) (pushed : Except IoError Unit) :
    WellHosted (g.attach path host pushed).2 := by
  obtain ⟨hs, hid⟩ := h.registerPath path pushed
  rw [FileRegistry.attach]
  rcases heq : g.registerPath path pushed with ⟨out, g'⟩
  rw [heq] at hs hid
  cases out with
  | error e => exact hs
  | ok id =>
      obtain ⟨i, hi, hplace⟩ := hid id rfl
      cases hindex : FileId.tableIndex id with
      | none => simpa only [attachAt, hindex] using hs
      | some idx =>
          obtain ⟨rfl, -⟩ := FileId.eq_succ_of_tableIndex hindex
          have hidx : idx < g'.live.length := by
            have hslots := hs.slots
            simp only [FileId.ofIndex] at hplace hi hslots
            omega
          obtain hrefused | ⟨hattached, hnew⟩ := hs.linked.attachAt_cases hindex host
          · simpa only [hrefused] using hs
          · simp only [hattached]
            exact ⟨hs.linked.attached hidx hindex hnew, List.length_set.trans hs.slots, hs.named⟩

theorem WellHosted.detach (h : WellHosted g) (id : Nat) : WellHosted (g.detach id) := by
  have hlinked := h.linked.detach id
  obtain ⟨-, heq⟩ | ⟨idx, host, -, -, heq⟩ := h.linked.detach_cases id
  · rwa [heq]
  · rw [heq] at hlinked ⊢
    exact ⟨hlinked, List.length_set.trans h.slots, h.named⟩

/-- The step lemma. -/
theorem WellHosted.step (h : WellHosted g) (op : RegistryOp) : WellHosted (g.step op) := by
  cases op with
  | registerPath path pushed => exact (h.registerPath path pushed).1
  | attach path host pushed => exact h.attach path host pushed
  | detach id => exact h.detach id
  | reopen => exact wellHosted_openLog g.log

/-- The run lemma. -/
theorem WellHosted.run (h : WellHosted g) (ops : List RegistryOp) : WellHosted (g.run ops) := by
  induction ops generalizing g with
  | nil => exact h
  | cons op ops ih => exact ih (h.step op)

end WellHosted

end FileRegistry

/-! ### What a pointer denotes -/

/-- A registry a process can have: none before `init`, later what its operations make of the log it opened. -/
def Reached (reg : Option FileRegistry) : Prop :=
  reg = none ∨ ∃ log ops, reg = some ((FileRegistry.openLog log).run ops)

inductive FileRef
  | opened (host : Host)
  | detached (id : Nat)
deriving DecidableEq, Repr

/-- The file an id stands for in a slot of `home`. -/
def fileOf (reg : Option FileRegistry) (home : Host) (id : Nat) : FileRef :=
  if id = FileId.SELF then .opened home
  else match reg.bind fun g => g.hostArc id with
    | some host => .opened host
    | none => .detached id

/-- The block a pointer denotes in a slot of `home`: its file, its type and its offset. -/
def denoted (reg : Option FileRegistry) (home : Host) (p : WidePtr) : FileRef × Nat × Nat :=
  (fileOf reg home p.file, p.ty, p.offset)

structure SelfRoundTrip (reg reg' : Option FileRegistry) : Prop where
  /-- Under one registry a pointer comes back as a pointer to the same block. -/
  same : ∀ home p, ∃ q, resolveSelfRepr reg (homeRelativeRepr reg p home) home = .ok q ∧
    denoted reg home q = denoted reg home p
  /-- A pointer into the file of the slot is one whatever has happened to the registry, -/
  home : ∀ home p, fileOf reg home p.file = .opened home →
    ∃ q, resolveSelfRepr reg' (homeRelativeRepr reg p home) home = .ok q ∧
      denoted reg' home q = (.opened home, p.ty, p.offset)
  /-- and a pointer into another file is never changed. -/
  other : ∀ home p, fileOf reg home p.file ≠ .opened home →
    homeRelativeRepr reg p home = p ∧ resolveSelfRepr reg' p home = .ok p
  null : ∀ home p, p.offset = 0 →
    (homeRelativeRepr reg p home).offset = 0 ∧ resolveSelfRepr reg p home = .ok p
  /-- A `SELF` pointer that is read in a registered file names that file wherever it is stored, also later. -/
  escaped : ∀ home elsewhere p id, idOfHost reg home = some id → p.file = FileId.SELF → p.offset ≠ 0 →
    resolveSelfRepr reg p home = .ok ⟨id, p.ty, p.offset⟩ ∧
      denoted reg elsewhere (homeRelativeRepr reg ⟨id, p.ty, p.offset⟩ elsewhere) = (.opened home, p.ty, p.offset) ∧
      denoted reg' elsewhere (homeRelativeRepr reg' ⟨id, p.ty, p.offset⟩ elsewhere) =
        denoted reg' elsewhere ⟨id, p.ty, p.offset⟩

@[simp] theorem WidePtr.isSelf_iff {p : WidePtr} : p.isSelf = true ↔ p.file = FileId.SELF := decide_eq_true_iff

section RoundTrip

variable {reg : Option FileRegistry} {home : Host} {id : Nat} {p : WidePtr}

/-- The id of a host is an ordinary one, and stands for that host in every slot. -/
theorem Reached.idOfHost (h : Reached reg) (hid : idOfHost reg home = some id) (elsewhere : Host) :
    id ≠ FileId.SELF ∧ fileOf reg elsewhere id = .opened home := by
  obtain rfl | ⟨log, ops, rfl⟩ := h
  · cases hid
  · have hlinked := ((FileRegistry.wellHosted_openLog log).run ops).linked
    have hhost := hlinked.idOfHost_iff.mp hid
    obtain ⟨i, -, rfl⟩ := hlinked.hostArc_iff.mp hhost
    have hself : i + 1 ≠ FileId.SELF := Nat.succ_ne_zero i
    refine ⟨hself, ?_⟩
    rw [fileOf, if_neg hself, Option.bind_some, hhost]

/-- An id that stands for the file of the slot is `SELF`, or the id of its host. -/
theorem Reached.fileOf_iff (h : Reached reg) :
    fileOf reg home id = .opened home ↔ id = FileId.SELF ∨ BStackRaii.idOfHost reg home = some id := by
  constructor
  · intro hfile
    by_cases hself : id = FileId.SELF
    · exact .inl hself
    · rw [fileOf, if_neg hself] at hfile
      obtain rfl | ⟨log, ops, rfl⟩ := h
      · cases hfile
      · have hlinked := ((FileRegistry.wellHosted_openLog log).run ops).linked
        rw [Option.bind_some] at hfile
        cases hhost : ((FileRegistry.openLog log).run ops).hostArc id with
        | none =>
            rw [hhost] at hfile
            cases hfile
        | some host =>
            rw [hhost] at hfile
            cases hfile
            exact .inr (hlinked.idOfHost_iff.mpr hhost)
  · rintro (rfl | hid)
    · exact if_pos rfl
    · exact (h.idOfHost hid home).2

/-- What is stored for a pointer into the home file: `SELF`. -/
theorem homeRelative_home (h : Reached reg) (hfile : fileOf reg home p.file = .opened home) :
    homeRelativeRepr reg p home = ⟨FileId.SELF, p.ty, p.offset⟩ := by
  rw [homeRelativeRepr]
  by_cases hself : p.file = FileId.SELF
  · rw [if_pos (WidePtr.isSelf_iff.mpr hself), ← hself]
  · have hid : idOfHost reg home = some p.file := (h.fileOf_iff.mp hfile).resolve_left hself
    rw [if_neg (mt WidePtr.isSelf_iff.mp hself), hid]
    exact if_pos rfl

/-- A pointer into another file is stored, and read, as it is. -/
theorem homeRelative_other (h : Reached reg) (hfile : fileOf reg home p.file ≠ .opened home) :
    homeRelativeRepr reg p home = p := by
  have hself : p.file ≠ FileId.SELF := fun he => hfile (h.fileOf_iff.mpr (.inl he))
  have hid : idOfHost reg home ≠ some p.file := fun he => hfile (h.fileOf_iff.mpr (.inr he))
  rw [homeRelativeRepr, if_neg (mt WidePtr.isSelf_iff.mp hself)]
  cases hhome : idOfHost reg home with
  | none => rfl
  | some id =>
      have hne : p.file ≠ id := fun he => hid (he ▸ hhome)
      exact if_neg hne

theorem resolve_explicit (hself : p.file ≠ FileId.SELF) : resolveSelfRepr reg p home = .ok p :=
  if_pos (.inl (mt WidePtr.isSelf_iff.mp hself))

/-- A `SELF` pointer is read as a pointer into the home file. -/
theorem resolve_self (h : Reached reg) (home : Host) (ty offset : Nat) :
    ∃ q, resolveSelfRepr reg ⟨FileId.SELF, ty, offset⟩ home = .ok q ∧
    denoted reg home q = (.opened home, ty, offset) := by
  have hself : denoted reg home ⟨FileId.SELF, ty, offset⟩ = (.opened home, ty, offset) := by
    rw [denoted, h.fileOf_iff.mpr (.inl rfl)]
  rw [resolveSelfRepr]
  split
  · exact ⟨_, rfl, hself⟩
  · cases hid : idOfHost reg home with
    | none => exact ⟨_, rfl, hself⟩
    | some id =>
        refine ⟨_, rfl, ?_⟩
        rw [denoted, h.fileOf_iff.mpr (.inr hid)]

/-- Storing a pointer does not change the block it denotes. -/
theorem denoted_homeRelative (h : Reached reg) (home : Host) (p : WidePtr) :
    denoted reg home (homeRelativeRepr reg p home) = denoted reg home p := by
  by_cases hfile : fileOf reg home p.file = .opened home
  · rw [homeRelative_home h hfile, denoted, denoted, hfile, h.fileOf_iff.mpr (.inl rfl)]
  · rw [homeRelative_other h hfile]

end RoundTrip

/-- Storing a pointer in a file and reading it there again keeps the block it denotes. -/
theorem self_repr_round_trip {reg reg' : Option FileRegistry} (h : Reached reg) (h' : Reached reg') :
    SelfRoundTrip reg reg' where
  same := by
    intro home p
    by_cases hfile : fileOf reg home p.file = .opened home
    · obtain ⟨q, hq, hdenoted⟩ := resolve_self h home p.ty p.offset
      refine ⟨q, by rw [homeRelative_home h hfile, hq], ?_⟩
      rw [hdenoted, denoted, hfile]
    · have hself : p.file ≠ FileId.SELF := fun he => hfile (h.fileOf_iff.mpr (.inl he))
      exact ⟨p, by rw [homeRelative_other h hfile, resolve_explicit hself], rfl⟩
  home := by
    intro home p hfile
    rw [homeRelative_home h hfile]
    exact resolve_self h' home p.ty p.offset
  other := by
    intro home p hfile
    exact ⟨homeRelative_other h hfile, resolve_explicit fun he => hfile (h.fileOf_iff.mpr (.inl he))⟩
  null := by
    intro home p hnull
    refine ⟨?_, if_pos (.inr (decide_eq_true hnull))⟩
    have hsame := congrArg (fun d => d.2.2) (denoted_homeRelative h home p)
    exact hsame.trans hnull
  escaped := by
    intro home elsewhere p id hid hself hoff
    refine ⟨?_, ?_, denoted_homeRelative h' elsewhere _⟩
    · have hread : ¬ (¬ p.isSelf = true ∨ p.isNull = true) := by simp [WidePtr.isNull, hself, hoff]
      rw [resolveSelfRepr, if_neg hread, hid]
    · rw [denoted_homeRelative h, denoted, (h.idOfHost hid elsewhere).2]

/-- Written while the file is attached under 1, read after it was attached under 2 instead. -/
theorem self_repr_round_trip_reattached :
    SelfRoundTrip (some ((FileRegistry.openLog []).run [.attach [97] ⟨64⟩ (.ok ())]))
      (some ((FileRegistry.openLog []).run [.attach [97] ⟨64⟩ (.ok ()), .detach 1, .attach [98] ⟨64⟩ (.ok ())])) :=
  self_repr_round_trip (.inr ⟨[], _, rfl⟩) (.inr ⟨[], _, rfl⟩)

end BStackRaii
