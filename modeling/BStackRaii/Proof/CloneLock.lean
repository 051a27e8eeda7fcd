import BStackRaii.Model.CloneLock
import Mathlib.Logic.Relation
import Mathlib.Data.List.Perm.Basic
/-!
# The clone lock excludes and cannot deadlock

The invariant ties each thread to what the threads share: the registry's entry of a key names the one
mutex that anybody has an `Arc` of, the owner of a mutex is the thread with its guard, and a thread's
list of held keys is the list of its guards. A thread that waits for a mutex has no guard, so no chain
of waiting threads is longer than two.
-/

namespace BStackRaii

namespace CloneLock

/-! ### The list of held keys -/

theorem idxOf?_append_cons {key : Nat} {pre : List Nat} (h : key ∉ pre) (post : List Nat) :
    (pre ++ key :: post).idxOf? key = some pre.length := by
  induction pre with
  | nil => simp [List.idxOf?_cons]
  | cons x pre ih =>
      have hne : x ≠ key := fun heq => h (heq ▸ List.mem_cons_self)
      rw [List.cons_append, List.idxOf?_cons, if_neg (by simpa using hne),
        ih fun hmem => h (List.mem_cons_of_mem x hmem)]
      rfl

/-- `swap_remove`: the last key takes the place of the one that goes. -/
theorem forget_append (key : Nat) (pre post : List Nat) (hpost : key ∉ post) :
    (forget key (pre ++ key :: post)).Perm (pre ++ post) := by
  have hback : (pre ++ key :: post).reverse.idxOf? key = some post.length := by
    have hmem : key ∉ post.reverse := fun hmem => hpost (List.mem_reverse.mp hmem)
    rw [List.reverse_append, List.reverse_cons, List.append_assoc, List.singleton_append,
      idxOf?_append_cons hmem, List.length_reverse]
  have hpos : (pre ++ key :: post).length - 1 - post.length = pre.length := by
    rw [List.length_append, List.length_cons]
    omega
  simp only [forget, hback, hpos]
  rcases post.eq_nil_or_concat' with hnil | ⟨post, last, rfl⟩
  · subst hnil
    simp
  · have hlast : (pre ++ key :: (post ++ [last])).getLast? = some last := by
      rw [← List.cons_append, ← List.append_assoc, List.getLast?_concat]
    have hset : (pre ++ key :: (post ++ [last])).set pre.length last = pre ++ last :: post ++ [last] := by
      simp
    rw [hlast]
    simp only [hset, List.dropLast_concat]
    rw [← List.append_assoc]
    exact List.perm_append_comm_assoc pre [last] post |>.trans (List.perm_append_singleton last (pre ++ post)).symm

theorem forget_perm {key : Nat} {held : List Nat} (h : key ∈ held) :
    (forget key held).Perm (held.erase key) := by
  obtain ⟨post, pre, hsplit, hpost⟩ := List.eq_append_cons_of_mem (List.mem_reverse.mpr h)
  have hheld : held = pre.reverse ++ key :: post.reverse := by
    rw [← List.reverse_reverse held, hsplit, List.reverse_append, List.reverse_cons, List.append_assoc,
      List.singleton_append]
  have herase : (held.erase key).Perm (pre.reverse ++ post.reverse) := by
    rw [hheld]
    have hmiddle : (pre.reverse ++ key :: post.reverse).Perm (key :: (pre.reverse ++ post.reverse)) :=
      List.perm_middle
    have hperm := hmiddle.erase key
    rwa [List.erase_cons_head] at hperm
  rw [hheld]
  refine (forget_append key _ _ fun hmem => hpost (List.mem_reverse.mp hmem)).trans ?_
  rw [← hheld]
  exact herase.symm

/-! ### The invariant -/

namespace Phase

/-- The file of an `acquire` that has passed the check and not recorded its key yet. -/
def acquiring : Phase → List Nat
  | entering key | looking key | missing key | swept key | found key _ | locked key _ => [key]
  | _ => []

/-- The thread has the registry locked. -/
def AtRegistry : Phase → Prop
  | looking _ | missing _ | swept _ => True
  | _ => False

/-- The file that the registry has no live lock for. -/
def missed : Phase → List Nat
  | missing key | swept key => [key]
  | _ => []

/-- The guard of an `acquire` that has locked the mutex. -/
def guards : Phase → List (Nat × Nat)
  | locked key arc => [(key, arc)]
  | _ => []

/-- The key of a guard that is gone. -/
def leftover : Phase → List Nat
  | unlocked key _ => [key]
  | _ => []

end Phase

namespace Thread

def guards (t : Thread) : List (Nat × Nat) := t.phase.guards ++ t.locks.map fun g => (g.key, g.arc)

def recorded (t : Thread) : List Nat := t.phase.leftover ++ t.locks.map HeldLock.key

end Thread

variable {ι : Type}

/-- The thread `t`, named `i`, fits what the threads share. -/
structure Fits (registry : Option ι) (entries : Nat → Option Nat) (owner : Nat → Option ι) (i : ι)
    (t : Thread) : Prop where
  lookup : registry = some i ↔ t.phase.AtRegistry
  held : t.held.Perm t.recorded
  nodup : t.held.Nodup
  fresh : ∀ key ∈ t.phase.acquiring, key ∉ t.held
  arcs : ∀ p ∈ t.arcs, entries p.1 = some p.2
  owns : ∀ p ∈ t.guards, owner p.2 = some i
  owned : ∀ arc, owner arc = some i → ∃ key, (key, arc) ∈ t.guards

structure Sound (s : State ι) : Prop where
  fits : ∀ i, Fits s.registry s.entries s.owner i (s.threads i)
  used : ∀ key arc, s.entries key = some arc → arc < s.next
  apart : ∀ key key' arc, s.entries key = some arc → s.entries key' = some arc → key = key'
  missed : ∀ i, ∀ key ∈ (s.threads i).phase.missed, ∀ arc, s.entries key = some arc → ¬ s.Live arc

theorem Sound.new (ι : Type) : Sound (State.new ι) where
  fits := fun _ =>
    { lookup := ⟨fun h => (nomatch h), fun h => False.elim h⟩
      held := .nil
      nodup := .nil
      fresh := fun _ h => absurd h List.not_mem_nil
      arcs := fun _ h => absurd h List.not_mem_nil
      owns := fun _ h => absurd h List.not_mem_nil
      owned := fun _ h => (nomatch h) }
  used := fun _ _ h => (nomatch h)
  apart := fun _ _ _ h => (nomatch h)
  missed := fun _ _ h => absurd h List.not_mem_nil

theorem Thread.guards_subset (t : Thread) : t.guards ⊆ t.arcs := by
  intro p hp
  cases List.mem_append.mp hp with
  | inr hp => exact List.mem_append_right _ hp
  | inl hp =>
      refine List.mem_append_left _ ?_
      cases hphase : t.phase with
      | locked key arc =>
          rw [hphase] at hp
          exact hp
      | _ =>
          rw [hphase] at hp
          exact absurd hp List.not_mem_nil

section Keep

variable {s : State ι} (hs : Sound s)
include hs

/-- The one mutex of a file that anybody has an `Arc` of. -/
theorem Sound.same_arc {i j : ι} {p q : Nat × Nat} (hp : p ∈ (s.threads i).arcs)
    (hq : q ∈ (s.threads j).arcs) (hkey : p.1 = q.1) : p = q := by
  have hentry := (hs.fits i).arcs p hp
  rw [hkey, (hs.fits j).arcs q hq] at hentry
  exact Prod.ext hkey (Option.some.inj hentry).symm

theorem Sound.at_registry {i : ι} (hi : (s.threads i).phase.AtRegistry) {j : ι} (hj : j ≠ i) :
    ¬ (s.threads j).phase.AtRegistry := by
  intro h
  have hregistry := (hs.fits j).lookup.mpr h
  rw [(hs.fits i).lookup.mpr hi] at hregistry
  exact hj (Option.some.inj hregistry).symm

omit hs in
theorem Phase.atRegistry_of_missed {phase : Phase} {key : Nat} (h : key ∈ phase.missed) : phase.AtRegistry := by
  cases phase with
  | missing key => trivial
  | swept key => trivial
  | _ => exact absurd h List.not_mem_nil

end Keep

/-! ### What a step changes -/

section Change

variable {registry registry' : Option ι} {entries entries' : Nat → Option Nat} {owner owner' : Nat → Option ι}
variable {i : ι} {t : Thread}

theorem Fits.other (h : Fits registry entries owner i t) (hregistry : registry' = some i ↔ registry = some i)
    (hentries : ∀ p ∈ t.arcs, entries' p.1 = some p.2) (howner : ∀ arc, owner' arc = some i ↔ owner arc = some i) :
    Fits registry' entries' owner' i t where
  lookup := hregistry.trans h.lookup
  held := h.held
  nodup := h.nodup
  fresh := h.fresh
  arcs := hentries
  owns := fun p hp => (howner p.2).mpr (h.owns p hp)
  owned := fun arc harc => h.owned arc ((howner arc).mp harc)

/-- A step that leaves the guards and the recorded keys alone. -/
theorem Fits.goto (h : Fits registry entries owner i t) {phase : Phase} {refused : Option IoError}
    (hregistry : registry' = some i ↔ phase.AtRegistry) (hguards : phase.guards = t.phase.guards)
    (hleftover : phase.leftover = t.phase.leftover) (hfresh : ∀ key ∈ phase.acquiring, key ∉ t.held)
    (harcs : ∀ p ∈ phase.arcs, entries' p.1 = some p.2) (hentries : ∀ p ∈ t.arcs, entries' p.1 = some p.2) :
    Fits registry' entries' owner i { t with phase, refused } where
  lookup := hregistry
  held := by
    rw [Thread.recorded, hleftover]
    exact h.held
  nodup := h.nodup
  fresh := hfresh
  arcs := by
    intro p hp
    cases List.mem_append.mp hp with
    | inl hp => exact harcs p hp
    | inr hp => exact hentries p (List.mem_append_right _ hp)
  owns := by
    rw [Thread.guards, hguards]
    exact h.owns
  owned := by
    rw [Thread.guards, hguards]
    exact h.owned

variable {key arc : Nat} {held : List Nat} {locks : List HeldLock} {refused : Option IoError}

theorem mem_pairs {p : Nat × Nat} : p ∈ locks.map (fun g => (g.key, g.arc)) ↔
    ∃ g ∈ locks, (g.key, g.arc) = p := List.mem_map

theorem Fits.lock [DecidableEq ι] (h : Fits registry entries owner i ⟨.found key arc, held, locks, refused⟩)
    (hfree : owner arc = none) :
    Fits registry entries (Function.update owner arc (some i)) i ⟨.locked key arc, held, locks, refused⟩ where
  lookup := h.lookup
  held := h.held
  nodup := h.nodup
  fresh := h.fresh
  arcs := h.arcs
  owns := by
    intro p hp
    cases List.mem_cons.mp hp with
    | inl heq => rw [heq, Function.update_self]
    | inr hp =>
        have howner := h.owns p hp
        have hne : p.2 ≠ arc := by
          intro heq
          rw [heq, hfree] at howner
          cases howner
        rw [Function.update_of_ne hne]
        exact howner
  owned := by
    intro m hm
    by_cases hne : m = arc
    · rw [hne]
      exact ⟨key, List.mem_cons_self⟩
    · rw [Function.update_of_ne hne] at hm
      obtain ⟨k, hk⟩ := h.owned m hm
      exact ⟨k, List.mem_cons_of_mem _ hk⟩

theorem Fits.record (h : Fits registry entries owner i ⟨.locked key arc, held, locks, refused⟩) :
    Fits registry entries owner i ⟨.idle, held ++ [key], ⟨arc, key⟩ :: locks, none⟩ where
  lookup := h.lookup
  held := (List.perm_append_singleton key held).trans (h.held.cons key)
  nodup := by
    have hfresh := h.fresh key List.mem_cons_self
    exact (List.perm_append_singleton key held).nodup_iff.mpr (List.nodup_cons.mpr ⟨hfresh, h.nodup⟩)
  fresh := fun _ hk => absurd hk List.not_mem_nil
  arcs := h.arcs
  owns := h.owns
  owned := h.owned

/-- A guard is released. No other guard has its mutex. -/
theorem Fits.release [DecidableEq ι] (h : Fits registry entries owner i ⟨.idle, held, locks, refused⟩)
    (hapart : ∀ key key' arc, entries key = some arc → entries key' = some arc → key = key')
    {g : HeldLock} (hg : g ∈ locks) :
    Fits registry entries (Function.update owner g.arc none) i
      ⟨.unlocked g.key g.arc, held, locks.erase g, refused⟩ where
  lookup := h.lookup
  held := by
    have hlocks := (List.perm_cons_erase hg).map HeldLock.key
    exact h.held.trans hlocks
  nodup := h.nodup
  fresh := fun _ hk => absurd hk List.not_mem_nil
  arcs := by
    intro p hp
    apply h.arcs
    cases List.mem_cons.mp hp with
    | inl heq => exact heq ▸ List.mem_map_of_mem hg
    | inr hp =>
        obtain ⟨g', hg', heq⟩ := mem_pairs.mp hp
        exact heq ▸ List.mem_map_of_mem (List.mem_of_mem_erase hg')
  owns := by
    intro p hp
    obtain ⟨g', hg', rfl⟩ := mem_pairs.mp hp
    have hmem := List.mem_map_of_mem (f := fun g : HeldLock => (g.key, g.arc)) (List.mem_of_mem_erase hg')
    have hne : g'.arc ≠ g.arc := by
      intro heq
      have hkeys : ((g :: locks.erase g).map HeldLock.key).Nodup :=
        ((h.held.trans ((List.perm_cons_erase hg).map HeldLock.key)).nodup_iff).mp h.nodup
      have hentry := h.arcs _ (List.mem_map_of_mem (f := fun g : HeldLock => (g.key, g.arc)) hg)
      have hentry' := h.arcs _ hmem
      have hkey : g'.key = g.key := hapart _ _ _ hentry' (heq ▸ hentry)
      exact (List.nodup_cons.mp hkeys).1 (hkey ▸ List.mem_map_of_mem hg')
    rw [Function.update_of_ne hne]
    exact h.owns _ hmem
  owned := by
    intro m hm
    by_cases hne : m = g.arc
    · rw [hne, Function.update_self] at hm
      cases hm
    · rw [Function.update_of_ne hne] at hm
      obtain ⟨k, hk⟩ := h.owned m hm
      obtain ⟨g', hg', heq⟩ := mem_pairs.mp hk
      have hdiff : g' ≠ g := fun hsame => hne (by rw [← hsame]; exact (congrArg Prod.snd heq).symm)
      exact ⟨k, mem_pairs.mpr ⟨g', (List.mem_erase_of_ne hdiff).mpr hg', heq⟩⟩

theorem Fits.forget (h : Fits registry entries owner i ⟨.unlocked key arc, held, locks, refused⟩) :
    Fits registry entries owner i ⟨.leaving key arc, CloneLock.forget key held, locks, refused⟩ where
  lookup := h.lookup
  held := by
    have hmem : key ∈ held := h.held.mem_iff.mpr List.mem_cons_self
    have hperm := h.held.erase key
    rw [Thread.recorded, show Phase.leftover (.unlocked key arc) = [key] from rfl, List.singleton_append,
      List.erase_cons_head] at hperm
    exact (forget_perm hmem).trans hperm
  nodup := by
    have hmem : key ∈ held := h.held.mem_iff.mpr List.mem_cons_self
    exact (forget_perm hmem).nodup_iff.mpr (h.nodup.erase key)
  fresh := fun _ hk => absurd hk List.not_mem_nil
  arcs := h.arcs
  owns := h.owns
  owned := h.owned

end Change

section Steps

variable [DecidableEq ι] {s : State ι} {i : ι}

/-- A step that creates no `Arc` and changes no entry. -/
theorem Sound.keep (hs : Sound s) {t : Thread} {registry : Option ι} {owner : Nat → Option ι}
    (hfits : Fits registry s.entries owner i t) (hregistry : ∀ j, j ≠ i → (registry = some j ↔ s.registry = some j))
    (howner : ∀ j, j ≠ i → ∀ arc, owner arc = some j ↔ s.owner arc = some j)
    (harcs : t.arcs ⊆ (s.threads i).arcs)
    (hmissed : ∀ key ∈ t.phase.missed, ∀ arc, s.entries key = some arc → ¬ s.Live arc) :
    Sound ({ s with registry, owner }.set i t) where
  fits := by
    intro j
    by_cases hj : j = i
    · rw [hj, State.threads_set_self]
      exact hfits
    · rw [State.threads_set_of_ne _ hj]
      exact (hs.fits j).other (hregistry j hj) (hs.fits j).arcs (howner j hj)
  used := hs.used
  apart := hs.apart
  missed := by
    have hlive : ∀ arc, ({ s with registry, owner }.set i t).Live arc → s.Live arc := by
      intro arc ⟨j, key, hmem⟩
      by_cases hj : j = i
      · rw [hj, State.threads_set_self] at hmem
        exact ⟨i, key, harcs hmem⟩
      · rw [State.threads_set_of_ne _ hj] at hmem
        exact ⟨j, key, hmem⟩
    intro j key hkey arc hentry harc
    by_cases hj : j = i
    · rw [hj, State.threads_set_self] at hkey
      exact hmissed key hkey arc hentry (hlive arc harc)
    · rw [State.threads_set_of_ne _ hj] at hkey
      exact hs.missed j key hkey arc hentry (hlive arc harc)

/-- A step out of the registry with an `Arc` of its own entry. -/
theorem Sound.took (hs : Sound s) {old : Phase} {key arc next : Nat} {entries : Nat → Option Nat}
    (hphase : (s.threads i).phase = old) (hat : old.AtRegistry) (hguards : old.guards = [])
    (hleftover : old.leftover = []) (hacquiring : old.acquiring = [key]) (hentry : entries key = some arc)
    (hkept : ∀ j, ∀ p ∈ (s.threads j).arcs, entries p.1 = some p.2)
    (hused : ∀ key arc, entries key = some arc → arc < next)
    (hapart : ∀ key key' arc, entries key = some arc → entries key' = some arc → key = key') :
    Sound ({ s with registry := none, entries, next }.set i { s.threads i with phase := .found key arc }) where
  fits := by
    subst hphase
    intro j
    by_cases hj : j = i
    · rw [hj, State.threads_set_self]
      refine (hs.fits i).goto ⟨fun h => (nomatch h), fun h => False.elim h⟩ hguards.symm hleftover.symm ?_ ?_
        (hkept i)
      · intro k hk
        apply (hs.fits i).fresh
        rw [hacquiring]
        exact hk
      · intro p hp
        rw [List.mem_singleton.mp hp]
        exact hentry
    · rw [State.threads_set_of_ne _ hj]
      refine (hs.fits j).other ?_ (hkept j) fun _ => Iff.rfl
      refine ⟨fun h => (nomatch h), fun h => absurd ((hs.fits j).lookup.mp h) (hs.at_registry hat hj)⟩
  used := hused
  apart := hapart
  missed := by
    subst hphase
    intro j k hk
    by_cases hj : j = i
    · rw [hj, State.threads_set_self] at hk
      exact absurd hk List.not_mem_nil
    · rw [State.threads_set_of_ne _ hj] at hk
      exact absurd (Phase.atRegistry_of_missed hk) (hs.at_registry hat hj)

/-- A step of a thread that takes nothing from the others. -/
theorem Sound.goto (hs : Sound s) {old phase : Phase} {refused : Option IoError} {registry : Option ι}
    (hphase : (s.threads i).phase = old) (hregistry : registry = some i ↔ phase.AtRegistry)
    (hothers : ∀ j, j ≠ i → (registry = some j ↔ s.registry = some j)) (hguards : phase.guards = old.guards)
    (hleftover : phase.leftover = old.leftover) (hfresh : ∀ key ∈ phase.acquiring, key ∉ (s.threads i).held)
    (harcs : phase.arcs ⊆ old.arcs)
    (hmissed : ∀ key ∈ phase.missed, ∀ arc, s.entries key = some arc → ¬ s.Live arc) :
    Sound ({ s with registry }.set i { s.threads i with phase, refused }) := by
  subst hphase
  have hfits := hs.fits i
  have hphase : ∀ p ∈ phase.arcs, s.entries p.1 = some p.2 := fun p hp =>
    hfits.arcs p (List.mem_append_left _ (harcs hp))
  refine hs.keep (hfits.goto hregistry hguards hleftover hfresh hphase hfits.arcs) hothers
    (fun _ _ _ => Iff.rfl) ?_ hmissed
  exact List.append_subset.mpr ⟨fun p hp => List.mem_append_left _ (harcs hp), List.subset_append_right _ _⟩

/-- A step that leaves the registry's mutex as it is, too. -/
theorem Sound.stays (hs : Sound s) {old phase : Phase} {refused : Option IoError}
    (hphase : (s.threads i).phase = old) (hat : old.AtRegistry ↔ phase.AtRegistry) (hguards : phase.guards = old.guards)
    (hleftover : phase.leftover = old.leftover) (hfresh : ∀ key ∈ phase.acquiring, key ∉ (s.threads i).held)
    (harcs : phase.arcs ⊆ old.arcs)
    (hmissed : ∀ key ∈ phase.missed, ∀ arc, s.entries key = some arc → ¬ s.Live arc) :
    Sound (s.set i { s.threads i with phase, refused }) := by
  have hregistry : s.registry = some i ↔ phase.AtRegistry := by
    rw [(hs.fits i).lookup, hphase]
    exact hat
  exact hs.goto hphase hregistry (fun _ _ => Iff.rfl) hguards hleftover hfresh harcs hmissed

/-- The sweep drops the entries of dead mutexes only. -/
theorem Sound.sweep (hs : Sound s) {key : Nat} {entries : Nat → Option Nat}
    (hphase : (s.threads i).phase = .missing key)
    (hretain : ∀ k arc, entries k = some arc ↔ s.entries k = some arc ∧ s.Live arc) :
    Sound ({ s with entries }.set i { s.threads i with phase := .swept key }) where
  fits := by
    have hkept : ∀ j, ∀ p ∈ (s.threads j).arcs, entries p.1 = some p.2 := fun j p hp =>
      (hretain _ _).mpr ⟨(hs.fits j).arcs p hp, j, p.1, hp⟩
    have hregistry : s.registry = some i ↔ True := by
      rw [(hs.fits i).lookup, hphase]
      exact Iff.rfl
    intro j
    by_cases hj : j = i
    · rw [hj, State.threads_set_self]
      refine (hs.fits i).goto hregistry ?_ ?_ ?_ (fun _ hp => absurd hp List.not_mem_nil) (hkept i)
      · rw [hphase]
        rfl
      · rw [hphase]
        rfl
      · have hfresh := (hs.fits i).fresh
        rw [hphase] at hfresh
        exact hfresh
    · rw [State.threads_set_of_ne _ hj]
      exact (hs.fits j).other Iff.rfl (hkept j) fun _ => Iff.rfl
  used := fun k arc hentry => hs.used k arc ((hretain k arc).mp hentry).1
  apart := fun k k' arc hentry hentry' =>
    hs.apart k k' arc ((hretain k arc).mp hentry).1 ((hretain k' arc).mp hentry').1
  missed := by
    intro j k hk arc hentry _
    obtain ⟨hentry, hlive⟩ := (hretain k arc).mp hentry
    refine hs.missed j k ?_ arc hentry hlive
    by_cases hj : j = i
    · rw [hj, State.threads_set_self] at hk
      rw [hj, hphase]
      exact hk
    · rw [State.threads_set_of_ne _ hj] at hk
      exact hk

/-- The new entry names a mutex that no other entry does. -/
theorem Sound.insert (hs : Sound s) {key : Nat} (hphase : (s.threads i).phase = .swept key) :
    Sound ({ s with
      registry := none
      entries := Function.update s.entries key (some s.next)
      next := s.next + 1 }.set i { s.threads i with phase := .found key s.next }) := by
  have hmissed : ∀ j, ∀ p ∈ (s.threads j).arcs, p.1 ≠ key := by
    intro j p hp heq
    refine hs.missed i key ?_ p.2 (heq ▸ (hs.fits j).arcs p hp) ⟨j, p.1, hp⟩
    rw [hphase]
    exact List.mem_singleton_self key
  refine hs.took hphase trivial rfl rfl rfl (Function.update_self ..) ?_ ?_ ?_
  · intro j p hp
    rw [Function.update_of_ne (hmissed j p hp)]
    exact (hs.fits j).arcs p hp
  · intro k arc hentry
    by_cases hk : k = key
    · rw [hk, Function.update_self] at hentry
      cases hentry
      exact Nat.lt_succ_self _
    · rw [Function.update_of_ne hk] at hentry
      exact Nat.lt_succ_of_lt (hs.used k arc hentry)
  · intro k k' arc hentry hentry'
    by_cases hk : k = key <;> by_cases hk' : k' = key
    · rw [hk, hk']
    · rw [hk, Function.update_self] at hentry
      rw [Function.update_of_ne hk'] at hentry'
      cases hentry
      exact absurd (hs.used k' _ hentry') (Nat.lt_irrefl _)
    · rw [hk', Function.update_self] at hentry'
      rw [Function.update_of_ne hk] at hentry
      cases hentry'
      exact absurd (hs.used k _ hentry) (Nat.lt_irrefl _)
    · rw [Function.update_of_ne hk] at hentry
      rw [Function.update_of_ne hk'] at hentry'
      exact hs.apart k k' arc hentry hentry'

omit [DecidableEq ι] in
/-- A mutex whose old and new owner are this thread or nobody is owned by the others as before. -/
theorem owner_others {owner : Nat → Option ι} {arc : Nat} {new : Option ι} (hold : ∀ j, owner arc = some j → j = i)
    (hnew : ∀ j, new = some j → j = i) {j : ι} (hj : j ≠ i) (m : Nat) :
    Function.update owner arc new m = some j ↔ owner m = some j := by
  by_cases hm : m = arc
  · rw [hm, Function.update_self]
    exact ⟨fun h => absurd (hnew j h) hj, fun h => absurd (hold j h) hj⟩
  · rw [Function.update_of_ne hm]

theorem Sound.lock (hs : Sound s) {key arc : Nat} (hphase : (s.threads i).phase = .found key arc)
    (hfree : s.owner arc = none) :
    Sound ({ s with owner := Function.update s.owner arc (some i) }.set i
      { s.threads i with phase := .locked key arc }) := by
  have hfits := hs.fits i
  cases hthread : s.threads i with
  | mk phase held locks refused =>
      rw [hthread] at hphase hfits
      obtain rfl : phase = .found key arc := hphase
      refine hs.keep (hfits.lock hfree) (fun _ _ => Iff.rfl) (fun j hj => owner_others ?_ ?_ hj) ?_
        fun _ hk => absurd hk List.not_mem_nil
      · intro j h
        rw [hfree] at h
        cases h
      · exact fun j h => (Option.some.inj h).symm
      · rw [hthread]
        exact List.Subset.refl _

theorem Sound.release (hs : Sound s) {g : HeldLock} (hphase : (s.threads i).phase = .idle)
    (hlock : g ∈ (s.threads i).locks) :
    Sound ({ s with owner := Function.update s.owner g.arc none }.set i
      { s.threads i with phase := .unlocked g.key g.arc, locks := (s.threads i).locks.erase g }) := by
  have hfits := hs.fits i
  cases hthread : s.threads i with
  | mk phase held locks refused =>
      rw [hthread] at hphase hfits hlock
      obtain rfl : phase = .idle := hphase
      have hguard : s.owner g.arc = some i := hfits.owns _ (mem_pairs.mpr ⟨g, hlock, rfl⟩)
      refine hs.keep (hfits.release hs.apart hlock) (fun _ _ => Iff.rfl) (fun j hj => owner_others ?_ ?_ hj) ?_
        fun _ hk => absurd hk List.not_mem_nil
      · intro j h
        rw [hguard] at h
        exact (Option.some.inj h).symm
      · rintro j ⟨⟩
      · intro p hp
        rw [hthread]
        cases List.mem_cons.mp hp with
        | inl heq => exact mem_pairs.mpr ⟨g, hlock, heq.symm⟩
        | inr hp =>
            obtain ⟨g', hg', heq⟩ := mem_pairs.mp hp
            exact mem_pairs.mpr ⟨g', List.mem_of_mem_erase hg', heq⟩

/-- The step lemma: one case for each kind of step. -/
theorem Sound.step {s' : State ι} (hs : Sound s) (h : Step i s s') : Sound s' := by
  have hfits := hs.fits i
  cases h with
  | reenter key hphase hheld =>
      exact hs.stays rfl Iff.rfl rfl rfl hfits.fresh (List.Subset.refl _) (hs.missed i)
  | enter key hphase hheld =>
      refine hs.stays hphase Iff.rfl rfl rfl ?_ (List.nil_subset _) fun _ hk => absurd hk List.not_mem_nil
      intro k hk
      rw [List.mem_singleton.mp hk]
      exact hheld
  | lookup key hphase hfree =>
      have hfresh := hfits.fresh
      rw [hphase] at hfresh
      refine hs.goto hphase ⟨fun _ => trivial, fun _ => rfl⟩ ?_ rfl rfl hfresh (List.nil_subset _) fun _ hk =>
        absurd hk List.not_mem_nil
      intro j hj
      rw [hfree]
      exact ⟨fun h => absurd (Option.some.inj h).symm hj, fun h => (nomatch h)⟩
  | hit key arc hphase hentry hlive =>
      exact hs.took hphase trivial rfl rfl rfl hentry (fun j => (hs.fits j).arcs) hs.used hs.apart
  | miss key hphase hdead =>
      have hfresh := hfits.fresh
      rw [hphase] at hfresh
      refine hs.stays hphase Iff.rfl rfl rfl hfresh (List.nil_subset _) ?_
      intro k hk
      rw [List.mem_singleton.mp hk]
      exact hdead
  | sweep key entries hphase hretain => exact hs.sweep hphase hretain
  | insert key hphase => exact hs.insert hphase
  | lock key arc hphase hfree => exact hs.lock hphase hfree
  | contend key arc hphase hnested htaken =>
      exact hs.stays hphase Iff.rfl rfl rfl (fun _ hk => absurd hk List.not_mem_nil) (List.Subset.refl _)
        fun _ hk => absurd hk List.not_mem_nil
  | record key arc hphase =>
      cases hthread : s.threads i with
      | mk phase held locks refused =>
          rw [hthread] at hphase hfits
          obtain rfl : phase = .locked key arc := hphase
          refine hs.keep hfits.record (fun _ _ => Iff.rfl) (fun _ _ _ => Iff.rfl) ?_
            fun _ hk => absurd hk List.not_mem_nil
          rw [hthread]
          exact List.Subset.refl _
  | release g hphase hlock => exact hs.release hphase hlock
  | forget key arc hphase =>
      cases hthread : s.threads i with
      | mk phase held locks refused =>
          rw [hthread] at hphase hfits
          obtain rfl : phase = .unlocked key arc := hphase
          refine hs.keep hfits.forget (fun _ _ => Iff.rfl) (fun _ _ _ => Iff.rfl) ?_
            fun _ hk => absurd hk List.not_mem_nil
          rw [hthread]
          exact List.Subset.refl _
  | leave key arc hphase =>
      exact hs.stays hphase Iff.rfl rfl rfl (fun _ hk => absurd hk List.not_mem_nil) (List.nil_subset _)
        fun _ hk => absurd hk List.not_mem_nil

/-- The run lemma. -/
theorem Reachable.sound (h : Reachable s) : Sound s := by
  induction h with
  | refl => exact Sound.new ι
  | tail _ hstep ih =>
      obtain ⟨i, hstep⟩ := hstep
      exact ih.step hstep

end Steps

/-! ### What the lock promises -/

/-- A chain of waiting threads goes down in this rank. -/
def Thread.rank (t : Thread) : Nat :=
  match t.phase with
  | .found _ _ => if t.held = [] then 2 else 0
  | .entering _ => 1
  | _ => 0

section Promises

variable {s : State ι} (hs : Sound s)
include hs

/-- A thread that has a guard is not at the blocking lock. -/
theorem Sound.rank_of_guard {i : ι} {p : Nat × Nat} (hp : p ∈ (s.threads i).guards) :
    (s.threads i).rank ≤ 1 := by
  have hheld := (hs.fits i).held
  rw [Thread.guards] at hp
  rw [Thread.recorded] at hheld
  rw [Thread.rank]
  cases hphase : (s.threads i).phase with
  | found key arc =>
      rw [hphase] at hp hheld
      obtain ⟨g, hg, -⟩ := mem_pairs.mp hp
      have hmem : g.key ∈ (s.threads i).held := hheld.mem_iff.mpr (List.mem_map_of_mem hg)
      have hne : (s.threads i).held ≠ [] := List.ne_nil_of_mem hmem
      simp only [if_neg hne]
      exact Nat.zero_le 1
  | entering key => exact Nat.le_refl 1
  | _ => exact Nat.zero_le 1

theorem Sound.rank_lt {i j : ι} (h : s.WaitsFor i j) : (s.threads j).rank < (s.threads i).rank := by
  cases h with
  | inl h =>
      obtain ⟨key, arc, hphase, hheld, howner⟩ := h
      obtain ⟨k, hguard⟩ := (hs.fits j).owned arc howner
      have hrank : (s.threads i).rank = 2 := by
        rw [Thread.rank, hphase]
        exact if_pos hheld
      have hle := hs.rank_of_guard hguard
      omega
  | inr h =>
      obtain ⟨⟨key, hphase⟩, hregistry⟩ := h
      have hat := (hs.fits j).lookup.mp hregistry
      have hrank : (s.threads i).rank = 1 := by
        rw [Thread.rank, hphase]
      have hzero : (s.threads j).rank = 0 := by
        rw [Thread.rank]
        cases hphase : (s.threads j).phase with
        | found key arc =>
            rw [hphase] at hat
            exact False.elim hat
        | entering key =>
            rw [hphase] at hat
            exact False.elim hat
        | _ => rfl
      omega

/-- At most one guard of a file is alive, -/
theorem Sound.exclusive {i j : ι} {p q : Nat × Nat} (hp : p ∈ (s.threads i).guards)
    (hq : q ∈ (s.threads j).guards) (hkey : p.1 = q.1) : i = j ∧ p = q := by
  have heq := hs.same_arc (Thread.guards_subset _ hp) (Thread.guards_subset _ hq) hkey
  have howner := (hs.fits i).owns p hp
  rw [heq, (hs.fits j).owns q hq] at howner
  exact ⟨(Option.some.inj howner).symm, heq⟩

/-- and the same thread has it once. -/
theorem Sound.once (i : ι) : ((s.threads i).guards.map Prod.fst).Nodup := by
  have hfits := hs.fits i
  have hrecorded : (s.threads i).recorded.Nodup := hfits.held.nodup_iff.mp hfits.nodup
  have hlocks : ((s.threads i).locks.map HeldLock.key).Nodup :=
    hrecorded.sublist (List.sublist_append_right _ _)
  have hkeys : (s.threads i).guards.map Prod.fst =
      (s.threads i).phase.guards.map Prod.fst ++ (s.threads i).locks.map HeldLock.key := by
    rw [Thread.guards, List.map_append, List.map_map]
    rfl
  rw [hkeys]
  cases hphase : (s.threads i).phase with
  | locked key arc =>
      refine List.nodup_cons.mpr ⟨fun hmem => ?_, hlocks⟩
      apply hfits.fresh key
      · rw [hphase]
        exact List.mem_singleton_self key
      · exact hfits.held.mem_iff.mpr (List.mem_append_right _ hmem)
  | _ => exact hlocks

omit hs in
open Classical in
theorem exists_retain (s : State ι) : ∃ entries : Nat → Option Nat, ∀ k arc,
    entries k = some arc ↔ s.entries k = some arc ∧ s.Live arc := by
  refine ⟨fun k => if ∃ arc, s.entries k = some arc ∧ s.Live arc then s.entries k else none, fun k arc => ?_⟩
  by_cases h : ∃ arc, s.entries k = some arc ∧ s.Live arc
  · simp only [if_pos h]
    obtain ⟨arc', hentry, hlive⟩ := h
    refine ⟨fun heq => ⟨heq, ?_⟩, fun heq => heq.1⟩
    rw [hentry] at heq
    exact Option.some.inj heq ▸ hlive
  · simp only [if_neg h]
    exact ⟨fun heq => (nomatch heq), fun heq => absurd ⟨arc, heq⟩ h⟩

variable [DecidableEq ι]

omit hs in
/-- A thread that waits for nobody has a step. -/
theorem exists_step {i : ι} (hfree : ∀ j, ¬ s.WaitsFor i j) : ∃ s', Step i s s' := by
  cases hphase : (s.threads i).phase with
  | idle =>
      by_cases hheld : 0 ∈ (s.threads i).held
      · exact ⟨_, .reenter 0 hphase hheld⟩
      · exact ⟨_, .enter 0 hphase hheld⟩
  | entering key =>
      cases hregistry : s.registry with
      | none => exact ⟨_, .lookup key hphase hregistry⟩
      | some j => exact absurd (.inr ⟨⟨key, hphase⟩, hregistry⟩) (hfree j)
  | looking key =>
      by_cases hdead : ∀ arc, s.entries key = some arc → ¬ s.Live arc
      · exact ⟨_, .miss key hphase hdead⟩
      · simp only [not_forall, not_not] at hdead
        obtain ⟨arc, hentry, hlive⟩ := hdead
        exact ⟨_, .hit key arc hphase hentry hlive⟩
  | missing key =>
      obtain ⟨entries, hretain⟩ := exists_retain s
      exact ⟨_, .sweep key entries hphase hretain⟩
  | swept key => exact ⟨_, .insert key hphase⟩
  | found key arc =>
      cases howner : s.owner arc with
      | none => exact ⟨_, .lock key arc hphase howner⟩
      | some j =>
          by_cases hheld : (s.threads i).held = []
          · exact absurd (.inl ⟨key, arc, hphase, hheld, howner⟩) (hfree j)
          · exact ⟨_, .contend key arc hphase hheld (by rw [howner]; exact Option.some_ne_none j)⟩
  | locked key arc => exact ⟨_, .record key arc hphase⟩
  | unlocked key arc => exact ⟨_, .forget key arc hphase⟩
  | leaving key arc => exact ⟨_, .leave key arc hphase⟩

/-- At the end of every chain of waiting threads is one that has a step. -/
theorem Sound.progress (n : Nat) (i : ι) (hrank : (s.threads i).rank ≤ n) :
    ∃ j, Relation.ReflTransGen s.WaitsFor i j ∧ ∃ s', Step j s s' := by
  induction n generalizing i with
  | zero =>
      refine ⟨i, .refl, exists_step fun j hwaits => ?_⟩
      have hlt := hs.rank_lt hwaits
      omega
  | succ n ih =>
      by_cases hfree : ∀ j, ¬ s.WaitsFor i j
      · exact ⟨i, .refl, exists_step hfree⟩
      · simp only [not_forall, not_not] at hfree
        obtain ⟨j, hwaits⟩ := hfree
        have hlt := hs.rank_lt hwaits
        obtain ⟨k, hchain, hstep⟩ := ih j (by omega)
        exact ⟨k, .head hwaits hchain, hstep⟩

end Promises

/-- The promises of the clone lock in one state. -/
structure Safe [DecidableEq ι] (s : State ι) : Prop where
  /-- Of all guards, at most one is of a given file. -/
  exclusive : ∀ i j p q, p ∈ (s.threads i).guards → q ∈ (s.threads j).guards → p.1 = q.1 → i = j ∧ p = q
  once : ∀ i, ((s.threads i).guards.map Prod.fst).Nodup
  /-- A thread with a guard does not wait for another file's mutex, -/
  never_blocks : ∀ i j, (s.threads i).guards ≠ [] → ¬ s.Blocks i j
  /-- no threads wait for each other in a circle, and some thread in each chain can go on. -/
  acyclic : ∀ i, ¬ Relation.TransGen s.WaitsFor i i
  progress : ∀ i, ∃ j, Relation.ReflTransGen s.WaitsFor i j ∧ ∃ s', Step j s s'
  /-- The held keys are the files of the guards, so without guards there are none. -/
  held : ∀ i, (s.threads i).phase = .idle → (s.threads i).held.Perm ((s.threads i).locks.map HeldLock.key)
  emptied : ∀ i, (s.threads i).phase = .idle → (s.threads i).locks = [] → (s.threads i).held = []

theorem Sound.safe [DecidableEq ι] {s : State ι} (hs : Sound s) : Safe s where
  exclusive := fun _ _ _ _ hp hq hkey => hs.exclusive hp hq hkey
  once := hs.once
  never_blocks := by
    intro i j hguards hblocks
    obtain ⟨p, hp⟩ := List.exists_mem_of_ne_nil _ hguards
    have hle := hs.rank_of_guard hp
    obtain ⟨key, arc, hphase, hheld, -⟩ := hblocks
    have hrank : (s.threads i).rank = 2 := by
      rw [Thread.rank, hphase]
      exact if_pos hheld
    omega
  acyclic := by
    intro i hcycle
    have hdown : ∀ {j k : ι}, Relation.TransGen s.WaitsFor j k → (s.threads k).rank < (s.threads j).rank := by
      intro j k hchain
      induction hchain with
      | single h => exact hs.rank_lt h
      | tail _ h ih => exact Nat.lt_trans (hs.rank_lt h) ih
    exact Nat.lt_irrefl _ (hdown hcycle)
  progress := fun i => hs.progress _ i (Nat.le_refl _)
  held := by
    intro i hphase
    have hheld := (hs.fits i).held
    rw [Thread.recorded, hphase] at hheld
    exact hheld
  emptied := by
    intro i hphase hlocks
    have hheld := (hs.fits i).held
    rw [Thread.recorded, hphase, hlocks] at hheld
    exact hheld.eq_nil

/-- Whatever the threads do and however they interleave, the clone lock keeps its promises. -/
theorem clone_lock_safe [DecidableEq ι] {s : State ι} (h : Reachable s) : Safe s := h.sound.safe

/-- Two threads acquire the lock of file 7. The first one has it, and the other waits for it with its `Arc`. -/
theorem clone_lock_safe_waiting : ∃ s : State Bool, Safe s ∧ s.WaitsFor false true ∧ (s.threads true).held = [7] := by
  have hempty {p : Prop} {arc : Nat} (hentry : (none : Option Nat) = some arc) : p := by cases hentry
  have h : Reachable ((State.new Bool).set true ⟨.entering 7, [], [], none⟩) :=
    .single ⟨true, .enter 7 rfl List.not_mem_nil⟩
  have h := h.tail ⟨true, .lookup 7 rfl rfl⟩
  have h := h.tail ⟨true, .miss 7 rfl fun _ => hempty⟩
  have h := h.tail ⟨true, .sweep 7 (fun _ => none) rfl fun _ _ => ⟨hempty, fun hentry => hempty hentry.1⟩⟩
  have h := h.tail ⟨true, .insert 7 rfl⟩
  have h := h.tail ⟨true, .lock 7 0 rfl rfl⟩
  have h := h.tail ⟨true, .record 7 0 rfl⟩
  have h := h.tail ⟨false, .enter 7 rfl List.not_mem_nil⟩
  have h := h.tail ⟨false, .lookup 7 rfl rfl⟩
  have h := h.tail ⟨false, .hit 7 0 rfl rfl ⟨true, 7, List.mem_singleton_self _⟩⟩
  exact ⟨_, clone_lock_safe h, .inl ⟨7, 0, rfl, rfl, rfl⟩, rfl⟩

end CloneLock

end BStackRaii
