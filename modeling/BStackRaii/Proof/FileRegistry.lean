import BStackRaii.Model.FileRegistry
import Mathlib.Data.List.Induction
import Mathlib.Data.List.Nodup
/-!
# A file's id is its place in the log

The log of a registry is the records of its paths, so that every process that opens it finds the paths
at the same places. The two reverse maps name what the tables hold: `Names` for the paths, `Reverse`
for the hosts. Every operation keeps the three, and only ever appends to the paths.
-/

namespace BStackRaii

/-! ### The log -/

namespace RegistryStore

/-- The log of a path table. -/
def encode (paths : List Path) : List UInt8 := paths.flatMap record

@[simp] theorem encode_nil : encode [] = [] := rfl

@[simp] theorem encode_cons (path : Path) (paths : List Path) :
    encode (path :: paths) = record path ++ encode paths := rfl

theorem encode_append (paths : List Path) (path : Path) : encode (paths ++ [path]) = encode paths ++ record path := by
  rw [encode, List.flatMap_append, List.flatMap_singleton]
  rfl

@[simp] theorem length_record (path : Path) : (record path).length = 8 + path.length := by
  rw [record, List.length_append, length_leBytes]

theorem length_encode_ge (paths : List Path) : 8 * paths.length ≤ (encode paths).length := by
  induction paths with
  | nil => exact Nat.le_refl 0
  | cons path paths ih =>
      rw [encode_cons, List.length_append, length_record, List.length_cons]
      omega

/-- The loop reads whole records back, whatever came before them. -/
theorem loadLoop_encode (pre : List UInt8) (paths : List Path) {turns : Nat} (acc : List Path)
    (hturns : paths.length ≤ turns) (hlen : (pre ++ encode paths).length < 2 ^ 64) :
    loadLoop (pre ++ encode paths) turns pre.length acc = acc ++ paths := by
  induction paths generalizing pre acc turns with
  | nil =>
      cases turns with
      | zero => rw [loadLoop, List.append_nil]
      | succ turns =>
          rw [loadLoop, if_neg (by simp), List.append_nil]
  | cons path paths ih =>
      cases turns with
      | zero => exact absurd hturns (Nat.not_succ_le_zero _)
      | succ turns =>
          have hsplit : pre ++ encode (path :: paths) = (pre ++ record path) ++ encode paths := by
            rw [encode_cons, List.append_assoc]
          have hlen' := hlen
          rw [encode_cons, List.length_append, List.length_append, length_record] at hlen'
          have hword : leNat (((pre ++ encode (path :: paths)).drop pre.length).take 8) = path.length := by
            rw [List.drop_left, encode_cons, record, List.append_assoc,
              List.take_left' (length_leBytes 8 path.length)]
            exact leNat_leBytes (by omega)
          have hpath : ((pre ++ encode (path :: paths)).drop (pre.length + 8)).take path.length = path := by
            rw [← List.drop_drop, List.drop_left, encode_cons, record, List.append_assoc,
              List.drop_left' (length_leBytes 8 path.length), List.take_left]
          rw [loadLoop, if_pos (by simp; omega)]
          simp only [hword, hpath]
          rw [if_pos (by simp; omega), hsplit]
          have hnext := ih (pre ++ record path) (acc ++ [path]) (Nat.le_of_succ_le_succ hturns) (hsplit ▸ hlen)
          rw [List.length_append, length_record, ← Nat.add_assoc] at hnext
          rw [hnext, List.append_assoc]
          rfl

theorem load_encode {paths : List Path} (h : (encode paths).length < 2 ^ 64) : load (encode paths) = paths := by
  have hge := length_encode_ge paths
  exact loadLoop_encode [] paths [] (by omega) h

end RegistryStore

/-! ### The reverse map of the paths -/

theorem FileId.ofIndex_eq {i : Nat} (h : i < FileId.SPECIAL_FLOOR) : FileId.ofIndex i = i + 1 := by
  simp only [FileId.SPECIAL_FLOOR] at h
  rw [FileId.ofIndex, Nat.mod_eq_of_lt (by omega), Nat.mod_eq_of_lt (by omega)]

theorem FileId.tableIndex_succ {i : Nat} (h : i + 1 < FileId.SPECIAL_FLOOR) :
    FileId.tableIndex (i + 1) = some i := if_pos ⟨Nat.le_add_left 1 i, Nat.not_le.mpr h⟩

theorem FileId.eq_succ_of_tableIndex {id idx : Nat} (h : FileId.tableIndex id = some idx) :
    id = idx + 1 ∧ id < FileId.SPECIAL_FLOOR := by
  rw [FileId.tableIndex] at h
  split at h
  · cases h
    omega
  · cases h

namespace FileRegistry

/-- The map names the paths of the table, up to the spelling. -/
def Names (byPath : Bool × List Path → Option Nat) (paths : List Path) : Prop :=
  ∀ parts id, byPath parts = some id ↔ ∃ i p, paths[i]? = some p ∧ p.components = parts ∧ id = FileId.ofIndex i

def Distinct (paths : List Path) : Prop := (paths.map Path.components).Nodup

theorem Names.push {byPath : Bool × List Path → Option Nat} {paths : List Path} {path : Path}
    (h : Names byPath paths) (hnew : path.components ∉ paths.map Path.components) :
    Names (Function.update byPath path.components (some (FileId.ofIndex paths.length))) (paths ++ [path]) := by
  intro parts id
  by_cases hparts : parts = path.components
  · rw [hparts, Function.update_self]
    constructor
    · intro heq
      exact ⟨paths.length, path, List.getElem?_concat_length, rfl, (Option.some.inj heq).symm⟩
    · intro ⟨i, p, hp, hcomponents, hid⟩
      have hlast : i = paths.length := by
        by_contra hne
        have hlt : i < paths.length := by
          have hlt := (List.getElem?_eq_some_iff.mp hp).1
          rw [List.length_append, List.length_singleton] at hlt
          omega
        rw [List.getElem?_append_left hlt] at hp
        exact hnew (hcomponents ▸ List.mem_map_of_mem (List.mem_of_getElem? hp))
      rw [hid, hlast]
  · rw [Function.update_of_ne hparts, h parts id]
    constructor
    · intro ⟨i, p, hp, hcomponents, hid⟩
      have hlt := (List.getElem?_eq_some_iff.mp hp).1
      exact ⟨i, p, (List.getElem?_append_left hlt).trans hp, hcomponents, hid⟩
    · intro ⟨i, p, hp, hcomponents, hid⟩
      refine ⟨i, p, ?_, hcomponents, hid⟩
      by_cases hlt : i < paths.length
      · rwa [List.getElem?_append_left hlt] at hp
      · have hlen := (List.getElem?_eq_some_iff.mp hp).1
        rw [List.length_append, List.length_singleton] at hlen
        obtain rfl : i = paths.length := by omega
        rw [List.getElem?_concat_length] at hp
        cases hp
        exact absurd hcomponents.symm hparts

theorem names_collect {paths : List Path} (h : Distinct paths) : Names (collect paths) paths := by
  induction paths using List.reverseRecOn with
  | nil =>
      intro parts id
      refine ⟨fun heq => (nomatch heq), fun hex => ?_⟩
      obtain ⟨i, p, hp, -⟩ := hex
      cases hp
  | append_singleton paths path ih =>
      rw [Distinct, List.map_append, List.map_singleton, List.nodup_append] at h
      obtain ⟨hdistinct, -, hnew⟩ := h
      have hfresh : path.components ∉ paths.map Path.components := fun hmem =>
        hnew _ hmem _ (List.mem_singleton_self _) rfl
      have hpush := (ih hdistinct).push hfresh
      have hcollect : collect (paths ++ [path]) =
          Function.update (collect paths) path.components (some (FileId.ofIndex paths.length)) := by
        rw [collect, List.zipIdx_append, List.foldl_append, Nat.zero_add]
        rfl
      rw [hcollect]
      exact hpush

/-! ### The reverse map of the hosts -/

/-- The map names the hosts of the live table, by their stacks. -/
def Reverse (byStack : Nat → Option Nat) (live : List (Option Host)) : Prop :=
  ∀ stack id, byStack stack = some id ↔ ∃ i, live[i]? = some (some ⟨stack⟩) ∧ id = i + 1

section Reverse

variable {byStack : Nat → Option Nat} {live : List (Option Host)}

/-- A host is live in one slot only. -/
theorem Reverse.unique (h : Reverse byStack live) {host : Host} {i j : Nat} (hi : live[i]? = some (some host))
    (hj : live[j]? = some (some host)) : i = j := by
  have hfirst := (h host.stack (i + 1)).mpr ⟨i, hi, rfl⟩
  have hsecond := (h host.stack (j + 1)).mpr ⟨j, hj, rfl⟩
  rw [hfirst] at hsecond
  exact Nat.succ.inj (Option.some.inj hsecond)

theorem Reverse.push (h : Reverse byStack live) : Reverse byStack (live ++ [none]) := by
  intro stack id
  rw [h stack id]
  constructor
  · intro ⟨i, hi, hid⟩
    have hlt := (List.getElem?_eq_some_iff.mp hi).1
    exact ⟨i, (List.getElem?_append_left hlt).trans hi, hid⟩
  · intro ⟨i, hi, hid⟩
    refine ⟨i, ?_, hid⟩
    by_cases hlt : i < live.length
    · rwa [List.getElem?_append_left hlt] at hi
    · rw [List.getElem?_append_right (by omega)] at hi
      cases hrest : i - live.length with
      | zero =>
          rw [hrest] at hi
          cases hi
      | succ n =>
          rw [hrest] at hi
          cases hi

theorem Reverse.clear (h : Reverse byStack live) {idx : Nat} {host : Host} (hidx : live[idx]? = some (some host)) :
    Reverse (Function.update byStack host.stack none) (live.set idx none) := by
  have hlt := (List.getElem?_eq_some_iff.mp hidx).1
  intro stack id
  by_cases hstack : stack = host.stack
  · rw [hstack, Function.update_self]
    refine ⟨fun heq => (nomatch heq), fun hex => ?_⟩
    obtain ⟨i, hi, hid⟩ := hex
    by_cases hne : idx = i
    · rw [← hne, List.getElem?_set_self hlt] at hi
      cases hi
    · rw [List.getElem?_set_ne hne] at hi
      exact absurd (h.unique hidx hi) hne
  · rw [Function.update_of_ne hstack, h stack id]
    refine exists_congr fun i => and_congr_left fun _ => ?_
    by_cases hne : idx = i
    · rw [← hne, hidx, List.getElem?_set_self hlt]
      refine ⟨fun heq => ?_, fun heq => (nomatch heq)⟩
      cases heq
      exact absurd rfl hstack
    · rw [List.getElem?_set_ne hne]

/-- The host becomes live in an empty slot, and is live nowhere else. -/
theorem Reverse.fill (h : Reverse byStack live) {idx : Nat} {host : Host} (hidx : live[idx]? = some none)
    (hnew : ∀ i : Nat, live[i]? ≠ some (some host)) :
    Reverse (Function.update byStack host.stack (some (idx + 1))) (live.set idx (some host)) := by
  have hlt := (List.getElem?_eq_some_iff.mp hidx).1
  intro stack id
  by_cases hstack : stack = host.stack
  · rw [hstack, Function.update_self]
    constructor
    · intro heq
      exact ⟨idx, List.getElem?_set_self hlt, (Option.some.inj heq).symm⟩
    · intro ⟨i, hi, hid⟩
      by_cases hne : idx = i
      · rw [hid, hne]
      · rw [List.getElem?_set_ne hne] at hi
        exact absurd hi (hnew i)
  · rw [Function.update_of_ne hstack, h stack id]
    refine exists_congr fun i => and_congr_left fun _ => ?_
    by_cases hne : idx = i
    · rw [← hne, hidx, List.getElem?_set_self hlt]
      refine ⟨fun heq => (nomatch heq), fun heq => ?_⟩
      cases heq
      exact absurd rfl hstack
    · rw [List.getElem?_set_ne hne]

end Reverse

/-! ### The invariant -/

/-- The reverse map names the live hosts, and they are live under ordinary ids. Any log has this. -/
structure Linked (g : FileRegistry) : Prop where
  reverse : Reverse g.byStack g.live
  ordinary : ∀ (i : Nat) host, g.live[i]? = some (some host) → FileId.tableIndex (i + 1) = some i

/-- The log holds the paths and nothing else, no two of them equal, and fewer than the special ids leave
room for. -/
structure Clean (log : List UInt8) (paths : List Path) : Prop where
  records : log = RegistryStore.encode paths
  fits : log.length < 2 ^ 64
  distinct : Distinct paths
  few : paths.length < FileId.SPECIAL_FLOOR

structure Consistent (g : FileRegistry) : Prop where
  clean : Clean g.log g.paths
  names : Names g.byPath g.paths
  slots : g.live.length = g.paths.length
  reverse : Reverse g.byStack g.live

theorem Clean.load {log : List UInt8} {paths : List Path} (h : Clean log paths) : RegistryStore.load log = paths := by
  obtain ⟨rfl, hfits, -, -⟩ := h
  exact RegistryStore.load_encode hfits

theorem Clean.openLog {log : List UInt8} {paths : List Path} (h : Clean log paths) :
    Consistent (FileRegistry.openLog log) ∧ (FileRegistry.openLog log).paths = paths := by
  have hload := h.load
  refine ⟨⟨?_, ?_, ?_, ?_⟩, hload⟩
  · show Clean log (RegistryStore.load log)
    rw [hload]
    exact h
  · show Names (collect (RegistryStore.load log)) (RegistryStore.load log)
    rw [hload]
    exact names_collect h.distinct
  · exact List.length_replicate
  · intro stack id
    refine ⟨fun heq => (nomatch heq), fun hex => ?_⟩
    obtain ⟨i, hi, -⟩ := hex
    have hmem := List.mem_of_getElem? hi
    cases (List.mem_replicate.mp hmem).2

section Operations

variable {g : FileRegistry}

def appended (g : FileRegistry) (path : Path) : FileRegistry :=
  { g with
    log := g.log ++ RegistryStore.record path
    paths := g.paths ++ [path]
    byPath := Function.update g.byPath path.components (some (FileId.ofIndex g.paths.length))
    live := g.live ++ [none] }

theorem registerPath_cases (g : FileRegistry) (path : Path) (pushed : Except IoError Unit) :
    (∃ id, g.idOf path = some id ∧ g.registerPath path pushed = (.ok id, g)) ∨
    (∃ e, g.registerPath path pushed = (.error e, g)) ∨
    (g.idOf path = none ∧ FileId.ofIndex g.paths.length < FileId.SPECIAL_FLOOR ∧
      (g.log ++ RegistryStore.record path).length < 2 ^ 64 ∧
      g.registerPath path pushed = (.ok (FileId.ofIndex g.paths.length), g.appended path)) := by
  rw [FileRegistry.registerPath]
  cases hpath : g.byPath path.components with
  | some id => exact .inl ⟨id, hpath, rfl⟩
  | none =>
      right
      by_cases hfull : FileId.SPECIAL_FLOOR ≤ FileId.ofIndex g.paths.length
      · exact .inl ⟨exhausted, if_pos hfull⟩
      · simp only [if_neg hfull, RegistryStore.append]
        by_cases hfits : (g.log ++ RegistryStore.record path).length < 2 ^ 64
        · rw [if_pos hfits]
          cases pushed with
          | error e => exact .inl ⟨e, rfl⟩
          | ok u => exact .inr ⟨hpath, Nat.lt_of_not_le hfull, hfits, rfl⟩
        · rw [if_neg hfits]
          exact .inl ⟨outOfSpace, rfl⟩

theorem Consistent.appended (h : Consistent g) {path : Path} (hpath : g.idOf path = none)
    (hroom : FileId.ofIndex g.paths.length < FileId.SPECIAL_FLOOR)
    (hfits : (g.log ++ RegistryStore.record path).length < 2 ^ 64) : Consistent (g.appended path) := by
  have hnew : path.components ∉ g.paths.map Path.components := by
    intro hmem
    obtain ⟨p, hp, hcomponents⟩ := List.mem_map.mp hmem
    obtain ⟨i, hi⟩ := List.mem_iff_getElem?.mp hp
    have hsome := (h.names path.components _).mpr ⟨i, p, hi, hcomponents, rfl⟩
    rw [show g.byPath path.components = none from hpath] at hsome
    cases hsome
  refine ⟨⟨?_, hfits, ?_, ?_⟩, h.names.push hnew, ?_, h.reverse.push⟩
  · show g.log ++ RegistryStore.record path = RegistryStore.encode (g.paths ++ [path])
    rw [h.clean.records, RegistryStore.encode_append]
  · show ((g.paths ++ [path]).map Path.components).Nodup
    rw [List.map_append, List.map_singleton, ← List.concat_eq_append, List.nodup_concat]
    exact ⟨hnew, h.clean.distinct⟩
  · show (g.paths ++ [path]).length < FileId.SPECIAL_FLOOR
    rw [FileId.ofIndex_eq h.clean.few] at hroom
    rw [List.length_append]
    exact hroom
  · show (g.live ++ [none]).length = (g.paths ++ [path]).length
    rw [List.length_append, List.length_append, h.slots]
    rfl

theorem Consistent.tableIndex (h : Consistent g) {i : Nat} (hi : i < g.live.length) :
    FileId.tableIndex (i + 1) = some i := by
  apply FileId.tableIndex_succ
  have hfew := h.clean.few
  have hslots := h.slots
  omega

/-- The registry once `host` is live in the slot `idx`. -/
def attached (g : FileRegistry) (idx : Nat) (host : Host) : FileRegistry :=
  { g with
    live := g.live.set idx (some host)
    byStack := Function.update (match g.liveAt idx with
      | some old => Function.update g.byStack old.stack none
      | none => g.byStack) host.stack (some (idx + 1)) }

theorem Consistent.linked (h : Consistent g) : Linked g :=
  ⟨h.reverse, fun _ _ hi => h.tableIndex (List.getElem?_eq_some_iff.mp hi).1⟩

/-- What the second half of `attach` can do: refuse a host that is live elsewhere, or take it. -/
theorem Linked.attachAt_cases (h : Linked g) {idx : Nat} (hindex : FileId.tableIndex (idx + 1) = some idx)
    (host : Host) :
    g.attachAt (idx + 1) host = (.error aliased, g) ∨
    (g.attachAt (idx + 1) host = (.ok (idx + 1), g.attached idx host) ∧
      ∀ i : Nat, g.live[i]? = some (some host) → i = idx) := by
  simp only [attachAt, hindex]
  by_cases helsewhere : g.elsewhere (idx + 1) host = true
  · exact .inl (if_pos helsewhere)
  · refine .inr ⟨if_neg helsewhere, fun i hi => ?_⟩
    have hback := (h.reverse host.stack (i + 1)).mpr ⟨i, hi, rfl⟩
    have hlive : g.liveAt i = some host := by
      rw [liveAt, hi]
      rfl
    rw [elsewhere, hback] at helsewhere
    simp only [h.ordinary i host hi, Option.bind_some, hlive, Option.isSome_some, and_true, decide_eq_true_eq,
      not_not] at helsewhere
    exact Nat.succ.inj helsewhere

theorem Linked.attached (h : Linked g) {idx : Nat} (hidx : idx < g.live.length)
    (hindex : FileId.tableIndex (idx + 1) = some idx) {host : Host}
    (hnew : ∀ i : Nat, g.live[i]? = some (some host) → i = idx) : Linked (g.attached idx host) where
  ordinary := by
    intro i old hi
    by_cases hne : idx = i
    · exact hne ▸ hindex
    · exact h.ordinary i old ((List.getElem?_set_ne hne).symm.trans hi)
  reverse := by
    have hempty : ∀ i : Nat, (g.live.set idx none)[i]? ≠ some (some host) := by
      intro i hi
      by_cases hne : idx = i
      · rw [← hne, List.getElem?_set_self hidx] at hi
        cases hi
      · rw [List.getElem?_set_ne hne] at hi
        exact hne (hnew i hi).symm
    have hslot : (g.live.set idx none)[idx]? = some none := List.getElem?_set_self hidx
    have hcleared : Reverse (match g.liveAt idx with
        | some old => Function.update g.byStack old.stack none
        | none => g.byStack) (g.live.set idx none) := by
      cases hlive : g.live[idx] with
      | some old =>
          have hold : g.live[idx]? = some (some old) := by rw [List.getElem?_eq_getElem hidx, hlive]
          rw [show g.liveAt idx = some old by rw [liveAt, hold]; rfl]
          exact h.reverse.clear hold
      | none =>
          have hnone : g.live[idx]? = some none := by rw [List.getElem?_eq_getElem hidx, hlive]
          rw [show g.liveAt idx = none by rw [liveAt, hnone]; rfl]
          have hself : g.live.set idx none = g.live := by
            rw [← hlive]
            exact List.set_getElem_self hidx
          rw [hself]
          exact h.reverse
    have hfilled := hcleared.fill hslot hempty
    rw [List.set_set] at hfilled
    exact hfilled

theorem Consistent.attached (h : Consistent g) {idx : Nat} (hidx : idx < g.live.length) {host : Host}
    (hnew : ∀ i : Nat, g.live[i]? = some (some host) → i = idx) : Consistent (g.attached idx host) where
  clean := h.clean
  names := h.names
  slots := List.length_set.trans h.slots
  reverse := (h.linked.attached hidx (h.tableIndex hidx) hnew).reverse

/-- What `detach` does: nothing, or it empties the slot of a live host. -/
theorem Linked.detach_cases (h : Linked g) (id : Nat) :
    (g.hostArc id = none ∧ g.detach id = g) ∨
    ∃ idx host, id = idx + 1 ∧ g.live[idx]? = some (some host) ∧ g.detach id =
      { g with live := g.live.set idx none, byStack := Function.update g.byStack host.stack none } := by
  rw [hostArc, detach]
  cases hindex : FileId.tableIndex id with
  | none => exact .inl ⟨rfl, rfl⟩
  | some idx =>
      obtain ⟨rfl, -⟩ := FileId.eq_succ_of_tableIndex hindex
      simp only [Option.bind_some]
      cases hlive : g.liveAt idx with
      | none => exact .inl ⟨rfl, rfl⟩
      | some host =>
          have hslot : g.live[idx]? = some (some host) := Option.join_eq_some_iff.mp hlive
          have hback := (h.reverse host.stack (idx + 1)).mpr ⟨idx, hslot, rfl⟩
          exact .inr ⟨idx, host, rfl, hslot, by simp only [if_pos hback]⟩

theorem Linked.detach (h : Linked g) (id : Nat) : Linked (g.detach id) := by
  obtain ⟨-, heq⟩ | ⟨idx, host, -, hidx, heq⟩ := h.detach_cases id
  · rwa [heq]
  · rw [heq]
    refine ⟨h.reverse.clear hidx, fun i old hi => ?_⟩
    by_cases hne : idx = i
    · exact hne ▸ h.ordinary idx host hidx
    · exact h.ordinary i old ((List.getElem?_set_ne hne).symm.trans hi)

/-! ### One lemma for each operation -/

theorem Consistent.slot_of_idOf (h : Consistent g) {path : Path} {id : Nat} (hid : g.idOf path = some id) :
    ∃ idx p, id = idx + 1 ∧ idx < g.live.length ∧ g.paths[idx]? = some p ∧ p.components = path.components := by
  obtain ⟨idx, p, hp, hcomponents, rfl⟩ := (h.names _ _).mp hid
  have hlt := (List.getElem?_eq_some_iff.mp hp).1
  have hslots := h.slots
  exact ⟨idx, p, FileId.ofIndex_eq (Nat.lt_trans hlt h.clean.few), by omega, hp, hcomponents⟩

theorem Consistent.registerPath (h : Consistent g) (path : Path) (pushed : Except IoError Unit) :
    Consistent (g.registerPath path pushed).2 ∧ g.paths <+: (g.registerPath path pushed).2.paths ∧
      ∀ id, (g.registerPath path pushed).1 = .ok id → (g.registerPath path pushed).2.idOf path = some id := by
  obtain ⟨id, hpath, heq⟩ | ⟨e, heq⟩ | ⟨hpath, hroom, hfits, heq⟩ := registerPath_cases g path pushed
  · rw [heq]
    refine ⟨h, List.prefix_refl _, fun id' hid => ?_⟩
    cases hid
    exact hpath
  · rw [heq]
    exact ⟨h, List.prefix_refl _, fun id' hid => (nomatch hid)⟩
  · rw [heq]
    refine ⟨h.appended hpath hroom hfits, List.prefix_append _ _, fun id' hid => ?_⟩
    cases hid
    exact Function.update_self ..

/-- Registering a path makes no host live, and none that was live vanish. -/
theorem live_registerPath (g : FileRegistry) (path : Path) (pushed : Except IoError Unit) {i : Nat} {host : Host} :
    (g.registerPath path pushed).2.live[i]? = some (some host) ↔ g.live[i]? = some (some host) := by
  obtain ⟨id, -, heq⟩ | ⟨e, heq⟩ | ⟨-, -, -, heq⟩ := registerPath_cases g path pushed
  · rw [heq]
  · rw [heq]
  · rw [heq]
    show (g.live ++ [none])[i]? = some (some host) ↔ _
    by_cases hlt : i < g.live.length
    · rw [List.getElem?_append_left hlt]
    · have hnone : g.live[i]? = none := List.getElem?_eq_none (Nat.le_of_not_lt hlt)
      rw [List.getElem?_append_right (Nat.le_of_not_lt hlt), hnone]
      cases i - g.live.length with
      | zero => exact ⟨fun h => (nomatch h), fun h => (nomatch h)⟩
      | succ n => exact ⟨fun h => (nomatch h), fun h => (nomatch h)⟩

/-- What `attach` can do: refuse, or make the host live under the id of its path. -/
theorem Consistent.attach_cases (h : Consistent g) (path : Path) (host : Host) (pushed : Except IoError Unit) :
    ((∃ e, (g.attach path host pushed).1 = .error e) ∧
      (g.attach path host pushed).2 = (g.registerPath path pushed).2) ∨
    ∃ idx, (g.registerPath path pushed).2.idOf path = some (idx + 1) ∧
      idx < (g.registerPath path pushed).2.live.length ∧
      (∀ i : Nat, (g.registerPath path pushed).2.live[i]? = some (some host) → i = idx) ∧
      g.attach path host pushed = (.ok (idx + 1), (g.registerPath path pushed).2.attached idx host) := by
  obtain ⟨hc, -, hid⟩ := h.registerPath path pushed
  rw [FileRegistry.attach]
  rcases heq : g.registerPath path pushed with ⟨out, g'⟩
  rw [heq] at hc hid
  cases out with
  | error e => exact .inl ⟨⟨e, rfl⟩, rfl⟩
  | ok id =>
      obtain ⟨idx, p, rfl, hidx, -⟩ := hc.slot_of_idOf (hid id rfl)
      obtain hrefused | ⟨hattached, hnew⟩ := hc.linked.attachAt_cases (hc.tableIndex hidx) host
      · have hout : g'.attachAt (idx + 1) host = (.error aliased, g') := hrefused
        have hkept : (g'.attachAt (idx + 1) host).2 = g' := congrArg Prod.snd hout
        exact .inl ⟨⟨aliased, congrArg Prod.fst hout⟩, hkept⟩
      · exact .inr ⟨idx, hid _ rfl, hidx, hnew, hattached⟩

theorem Consistent.attach (h : Consistent g) (path : Path) (host : Host) (pushed : Except IoError Unit) :
    Consistent (g.attach path host pushed).2 ∧ g.paths <+: (g.attach path host pushed).2.paths := by
  obtain ⟨hc, hpre, -⟩ := h.registerPath path pushed
  obtain ⟨-, heq⟩ | ⟨idx, -, hidx, hnew, heq⟩ := h.attach_cases path host pushed
  · rw [heq]
    exact ⟨hc, hpre⟩
  · rw [heq]
    exact ⟨hc.attached hidx hnew, hpre⟩

theorem Consistent.detach (h : Consistent g) (id : Nat) :
    Consistent (g.detach id) ∧ g.paths <+: (g.detach id).paths := by
  obtain ⟨-, heq⟩ | ⟨idx, host, -, hidx, heq⟩ := h.linked.detach_cases id
  · rw [heq]
    exact ⟨h, List.prefix_refl _⟩
  · rw [heq]
    exact ⟨⟨h.clean, h.names, List.length_set.trans h.slots, h.reverse.clear hidx⟩, List.prefix_refl _⟩

/-- The step lemma. -/
theorem Consistent.step (h : Consistent g) (op : RegistryOp) :
    Consistent (g.step op) ∧ g.paths <+: (g.step op).paths := by
  cases op with
  | registerPath path pushed =>
      obtain ⟨hc, hpre, -⟩ := h.registerPath path pushed
      exact ⟨hc, hpre⟩
  | attach path host pushed => exact h.attach path host pushed
  | detach id => exact h.detach id
  | reopen =>
      obtain ⟨hc, hpaths⟩ := h.clean.openLog
      refine ⟨hc, ?_⟩
      have heq : g.paths = (FileRegistry.openLog g.log).paths := hpaths.symm
      exact ⟨[], (List.append_nil _).trans heq⟩

/-- The run lemma. -/
theorem Consistent.run (h : Consistent g) (ops : List RegistryOp) :
    Consistent (g.run ops) ∧ g.paths <+: (g.run ops).paths := by
  induction ops generalizing g with
  | nil => exact ⟨h, List.prefix_refl _⟩
  | cons op ops ih =>
      obtain ⟨hc, hpre⟩ := h.step op
      obtain ⟨hc', hpre'⟩ := ih hc
      exact ⟨hc', hpre.trans hpre'⟩

end Operations

/-! ### What an id means -/

/-- The promises of the registry in one state. -/
structure Identity (g : FileRegistry) : Prop where
  /-- Ids are ordinary ones, -/
  ordinary : ∀ path id, g.idOf path = some id → 1 ≤ id ∧ id < FileId.SPECIAL_FLOOR ∧ id ≠ FileId.SELF
  /-- different paths have different ones, -/
  injective : ∀ p q id, g.idOf p = some id → g.idOf q = some id → p.components = q.components
  /-- and the two maps between paths and ids are inverse to each other. -/
  inverse : ∀ path id, g.idOf path = some id ↔ ∃ p, g.pathOf id = some p ∧ p.components = path.components
  /-- A host is live under one id only, and has that id; a host that is not live has none. -/
  once : ∀ host id id', g.hostArc id = some host → g.hostArc id' = some host → id = id'
  reverse : ∀ host id, g.idOfHost host = some id ↔ g.hostArc id = some host

/-- The promises about what one operation answers. -/
structure Answers (g : FileRegistry) : Prop where
  registered : ∀ path pushed id, (g.registerPath path pushed).1 = .ok id →
    (g.registerPath path pushed).2.idOf path = some id
  known : ∀ path pushed id, g.idOf path = some id → g.registerPath path pushed = (.ok id, g)
  attached : ∀ path host pushed id, (g.attach path host pushed).1 = .ok id →
    (g.attach path host pushed).2.idOf path = some id ∧
      (g.attach path host pushed).2.hostArc id = some host ∧
      (g.attach path host pushed).2.idOfHost host = some id
  replaced : ∀ path host pushed id old, (g.attach path host pushed).1 = .ok id → g.hostArc id = some old →
    old ≠ host → (g.attach path host pushed).2.idOfHost old = none
  detached : ∀ id host, g.hostArc id = some host →
    (g.detach id).hostArc id = none ∧ (g.detach id).idOfHost host = none

/-- The later registry `g'` still has every path and every id of `g`. -/
structure Persists (g g' : FileRegistry) : Prop where
  ids : ∀ path id, g.idOf path = some id → g'.idOf path = some id
  paths : ∀ id path, g.pathOf id = some path → g'.pathOf id = some path

section Promises

variable {g g' : FileRegistry}

theorem Linked.hostArc_iff (h : Linked g) {id : Nat} {host : Host} :
    g.hostArc id = some host ↔ ∃ i, g.live[i]? = some (some host) ∧ id = i + 1 := by
  constructor
  · intro hhost
    rw [hostArc] at hhost
    obtain ⟨idx, hindex, hlive⟩ := Option.bind_eq_some_iff.mp hhost
    exact ⟨idx, Option.join_eq_some_iff.mp hlive, (FileId.eq_succ_of_tableIndex hindex).1⟩
  · intro ⟨i, hi, hid⟩
    rw [hid, hostArc, h.ordinary i host hi, Option.bind_some, liveAt, hi]
    rfl

theorem Linked.idOfHost_iff (h : Linked g) {id : Nat} {host : Host} :
    g.idOfHost host = some id ↔ g.hostArc id = some host :=
  (h.reverse host.stack id).trans h.hostArc_iff.symm

theorem Consistent.pathOf_succ (h : Consistent g) {i : Nat} {p : Path} (hp : g.paths[i]? = some p) :
    g.pathOf (i + 1) = some p := by
  have hlt := (List.getElem?_eq_some_iff.mp hp).1
  have hslots := h.slots
  rw [pathOf, h.tableIndex (by omega)]
  exact hp

theorem Consistent.inverse (h : Consistent g) (path : Path) (id : Nat) :
    g.idOf path = some id ↔ ∃ p, g.pathOf id = some p ∧ p.components = path.components := by
  constructor
  · intro hid
    obtain ⟨idx, p, rfl, -, hp, hcomponents⟩ := h.slot_of_idOf hid
    exact ⟨p, h.pathOf_succ hp, hcomponents⟩
  · intro ⟨p, hp, hcomponents⟩
    rw [pathOf] at hp
    obtain ⟨idx, hindex, hslot⟩ := Option.bind_eq_some_iff.mp hp
    obtain ⟨rfl, -⟩ := FileId.eq_succ_of_tableIndex hindex
    have hlt := (List.getElem?_eq_some_iff.mp hslot).1
    exact (h.names _ _).mpr ⟨idx, p, hslot, hcomponents, (FileId.ofIndex_eq (Nat.lt_trans hlt h.clean.few)).symm⟩

theorem Consistent.identity (h : Consistent g) : Identity g where
  ordinary := by
    intro path id hid
    obtain ⟨idx, p, rfl, hidx, -⟩ := h.slot_of_idOf hid
    have hfew := h.clean.few
    have hslots := h.slots
    exact ⟨Nat.le_add_left 1 idx, by omega, Nat.succ_ne_zero idx⟩
  injective := by
    intro p q id hp hq
    obtain ⟨r, hr, hrp⟩ := (h.inverse p id).mp hp
    obtain ⟨r', hr', hrq⟩ := (h.inverse q id).mp hq
    rw [hr] at hr'
    cases hr'
    exact hrp.symm.trans hrq
  inverse := h.inverse
  once := by
    intro host id id' hid hid'
    obtain ⟨i, hi, rfl⟩ := h.linked.hostArc_iff.mp hid
    obtain ⟨j, hj, rfl⟩ := h.linked.hostArc_iff.mp hid'
    rw [h.reverse.unique hi hj]
  reverse := fun _ _ => h.linked.idOfHost_iff

theorem Consistent.answers (h : Consistent g) : Answers g where
  registered := fun path pushed => (h.registerPath path pushed).2.2
  known := by
    intro path pushed id hid
    have hpath : g.byPath path.components = some id := hid
    rw [FileRegistry.registerPath, hpath]
  attached := by
    intro path host pushed id hok
    have hc := (h.attach path host pushed).1
    obtain ⟨⟨e, herr⟩, -⟩ | ⟨idx, hpath, hidx, hnew, heq⟩ := h.attach_cases path host pushed
    · rw [herr] at hok
      cases hok
    · rw [heq] at hok hc ⊢
      cases hok
      have hhost := hc.linked.hostArc_iff.mpr ⟨idx, List.getElem?_set_self hidx, rfl⟩
      exact ⟨hpath, hhost, (hc.identity.reverse host _).mpr hhost⟩
  replaced := by
    intro path host pushed id old hok hold hne
    have hc := (h.attach path host pushed).1
    obtain ⟨⟨e, herr⟩, -⟩ | ⟨idx, hpath, hidx, hnew, heq⟩ := h.attach_cases path host pushed
    · rw [herr] at hok
      cases hok
    · rw [heq] at hok hc ⊢
      cases hok
      obtain ⟨i, hi, hid⟩ := h.linked.hostArc_iff.mp hold
      obtain rfl : i = idx := (Nat.succ.inj hid).symm
      cases hback : ((g.registerPath path pushed).2.attached i host).idOfHost old with
      | none => rfl
      | some id' =>
          obtain ⟨j, hj, -⟩ := hc.linked.hostArc_iff.mp ((hc.identity.reverse old id').mp hback)
          -- the old host would be live in another slot, where it was live before
          have hj' : ((g.registerPath path pushed).2.live.set i (some host))[j]? = some (some old) := hj
          by_cases hsame : i = j
          · rw [← hsame, List.getElem?_set_self hidx] at hj'
            cases hj'
            exact absurd rfl hne
          · rw [List.getElem?_set_ne hsame, live_registerPath] at hj'
            exact absurd (h.reverse.unique hi hj') hsame
  detached := by
    intro id host hhost
    have hc := (h.detach id).1
    obtain ⟨hnone, -⟩ | ⟨idx, host', rfl, hidx, heq⟩ := h.linked.detach_cases id
    · rw [hnone] at hhost
      cases hhost
    · obtain ⟨i, hi, hid⟩ := h.linked.hostArc_iff.mp hhost
      obtain rfl : idx = i := Nat.succ.inj hid
      rw [hidx] at hi
      cases hi
      have hback : (g.detach (idx + 1)).idOfHost host = none := by
        rw [heq]
        exact Function.update_self ..
      refine ⟨?_, hback⟩
      cases hlive : (g.detach (idx + 1)).hostArc (idx + 1) with
      | none => rfl
      | some host' =>
          obtain ⟨j, hj, hid'⟩ := hc.linked.hostArc_iff.mp hlive
          obtain rfl : j = idx := (Nat.succ.inj hid').symm
          rw [heq] at hj
          rw [List.getElem?_set_self (List.getElem?_eq_some_iff.mp hidx).1] at hj
          cases hj

theorem Consistent.persists (h : Consistent g) (h' : Consistent g') (hpre : g.paths <+: g'.paths) :
    Persists g g' := by
  have hpaths : ∀ id path, g.pathOf id = some path → g'.pathOf id = some path := by
    intro id path hp
    rw [pathOf] at hp ⊢
    obtain ⟨idx, hindex, hp⟩ := Option.bind_eq_some_iff.mp hp
    obtain ⟨rest, hrest⟩ := hpre
    have hlt := (List.getElem?_eq_some_iff.mp hp).1
    rw [hindex, Option.bind_some, ← hrest, List.getElem?_append_left hlt]
    exact hp
  refine ⟨fun path id hid => ?_, hpaths⟩
  obtain ⟨p, hp, hcomponents⟩ := (h.inverse path id).mp hid
  exact (h'.inverse path id).mpr ⟨p, hpaths id p hp, hcomponents⟩

end Promises

/-- A log of whole records of different paths keeps every id in every run, whatever is registered,
attached, detached or reopened. -/
theorem registry_identity {log : List UInt8} {paths : List Path} (h : Clean log paths) (ops later : List RegistryOp) :
    Identity ((openLog log).run ops) ∧ Answers ((openLog log).run ops) ∧
      Persists ((openLog log).run ops) (((openLog log).run ops).run later) := by
  obtain ⟨hc, -⟩ := h.openLog.1.run ops
  obtain ⟨hc', hpre⟩ := hc.run later
  exact ⟨hc.identity, hc.answers, hc.persists hc' hpre⟩

/-- The log of two paths; the first one is attached, and then detached. -/
theorem registry_identity_detach :
    Identity ((openLog (RegistryStore.encode [[97], [98]])).run [.attach [97] ⟨64⟩ (.ok ()), .detach 1]) ∧
    Answers ((openLog (RegistryStore.encode [[97], [98]])).run [.attach [97] ⟨64⟩ (.ok ()), .detach 1]) ∧
    Persists ((openLog (RegistryStore.encode [[97], [98]])).run [.attach [97] ⟨64⟩ (.ok ()), .detach 1])
      (((openLog (RegistryStore.encode [[97], [98]])).run [.attach [97] ⟨64⟩ (.ok ()), .detach 1]).run [.reopen]) :=
  have hdistinct : ([[97], [98]].map Path.components).Nodup := by decide +kernel
  registry_identity (show Clean _ [[97], [98]] from ⟨rfl, by decide, hdistinct, by decide⟩) _ _

/-- A log that ends in a cut record: eight bytes that announce nine more. Opening it stops there, a new
path goes behind it, and the next process reads the nine bytes of its record as another path. -/
theorem registry_shifts : ∃ log, RegistryStore.load log = [] ∧
    ((openLog log).registerPath [97] (.ok ())).1 = .ok 1 ∧
    ((openLog log).run [.registerPath [97] (.ok ())]).pathOf 1 = some [97] ∧
    ((openLog log).run [.registerPath [97] (.ok ()), .reopen]).idOf [97] = none ∧
    ((openLog log).run [.registerPath [97] (.ok ()), .reopen]).pathOf 1 = some [1, 0, 0, 0, 0, 0, 0, 0, 97] :=
  ⟨leBytes 8 9, by decide +kernel, by decide +kernel, by decide +kernel, by decide +kernel, by decide +kernel⟩

end FileRegistry

end BStackRaii
