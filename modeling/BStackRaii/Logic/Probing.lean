import Mathlib.Algebra.Group.Nat.Defs
import Mathlib.Data.List.Basic
import Mathlib.Logic.Function.Basic
/-!
# Linear probing

Open addressing over a ring of `cap` slots. A key is looked for from its home slot on, a removal leaves
a tombstone behind, and a slot that is empty ends a search. `Probed` is what a search relies on: every
key is found on the way from its home, and lies in one slot only.

`seek` is the search of a lookup and of an insertion at once. It remembers the first tombstone, which
an insertion reuses.
-/

namespace BStackRaii

inductive Slot (K V : Type)
  | empty
  | tombstone
  | occupied (key : K) (val : V)
deriving DecidableEq, Repr

namespace Slot

variable {K V : Type}

def isOccupied : Slot K V → Bool
  | occupied _ _ => true
  | _ => false

def isUsed : Slot K V → Bool
  | empty => false
  | _ => true

def entry : Slot K V → Option (K × V)
  | occupied k v => some (k, v)
  | _ => none

theorem isUsed_iff {x : Slot K V} : x.isUsed = true ↔ x ≠ .empty := by cases x <;> simp [isUsed]

theorem isUsed_of_isOccupied {x : Slot K V} (h : x.isOccupied = true) : x.isUsed = true := by
  cases x <;> simp_all [isUsed, isOccupied]

end Slot

namespace Probing

variable {K V : Type} {home : K → Nat} {cap : Nat} {s : Nat → Slot K V} {k : K} {v : V} {i d : Nat}

/-- The slots a search passes in its first `d` steps are in use. -/
def Open (cap : Nat) (s : Nat → Slot K V) (start d : Nat) : Prop :=
  ∀ j < d, s ((start + j) % cap) ≠ .empty

/-- The probing invariant. -/
structure Probed (home : K → Nat) (cap : Nat) (s : Nat → Slot K V) : Prop where
  reach : ∀ {i k v}, i < cap → s i = .occupied k v →
    ∃ d < cap, (home k + d) % cap = i ∧ Open cap s (home k) d
  unique : ∀ {i j k v v'}, i < cap → j < cap → s i = .occupied k v → s j = .occupied k v' → i = j

/-- No slot holds `k`. -/
def Absent (cap : Nat) (s : Nat → Slot K V) (k : K) : Prop := ∀ i < cap, ∀ v, s i ≠ .occupied k v

/-- The finite map that the slots hold. -/
def Maps (cap : Nat) (s : Nat → Slot K V) (m : K → Option V) : Prop :=
  ∀ k v, m k = some v ↔ ∃ i < cap, s i = .occupied k v

def lenOf (cap : Nat) (s : Nat → Slot K V) : Nat := (List.range cap).countP fun i => (s i).isOccupied

def usedOf (cap : Nat) (s : Nat → Slot K V) : Nat := (List.range cap).countP fun i => (s i).isUsed

def entries (cap : Nat) (s : Nat → Slot K V) : List (K × V) :=
  (List.range cap).filterMap fun i => (s i).entry

/-! ### Counting -/

theorem count_update (p : Slot K V → Bool) (s : Nat → Slot K V) (x : Slot K V) (hi : i < cap) :
    (List.range cap).countP (fun j => p (Function.update s i x j)) + (p (s i)).toNat =
      (List.range cap).countP (fun j => p (s j)) + (p x).toNat := by
  induction cap with
  | zero => omega
  | succ n ih =>
      rw [List.range_succ, List.countP_append, List.countP_append, List.countP_singleton,
        List.countP_singleton]
      by_cases hn : i = n
      · subst hn
        have hrest : (List.range i).countP (fun j => p (Function.update s i x j)) =
            (List.range i).countP fun j => p (s j) := by
          apply List.countP_congr
          intro j hj
          rw [Function.update_of_ne (Nat.ne_of_lt (List.mem_range.mp hj))]
        rw [hrest, Function.update_self]
        cases p x <;> cases p (s i) <;> simp
      · have hrec := ih (by omega)
        rw [Function.update_of_ne (fun h => hn h.symm)]
        omega

theorem lenOf_update (s : Nat → Slot K V) (x : Slot K V) (hi : i < cap) :
    lenOf cap (Function.update s i x) + (s i).isOccupied.toNat = lenOf cap s + x.isOccupied.toNat :=
  count_update Slot.isOccupied s x hi

theorem usedOf_update (s : Nat → Slot K V) (x : Slot K V) (hi : i < cap) :
    usedOf cap (Function.update s i x) + (s i).isUsed.toNat = usedOf cap s + x.isUsed.toNat :=
  count_update Slot.isUsed s x hi

theorem lenOf_le_usedOf (cap : Nat) (s : Nat → Slot K V) : lenOf cap s ≤ usedOf cap s :=
  List.countP_mono_left fun _ _ h => Slot.isUsed_of_isOccupied h

theorem usedOf_le (cap : Nat) (s : Nat → Slot K V) : usedOf cap s ≤ cap := by
  simpa [usedOf] using List.countP_le_length (p := fun i => (s i).isUsed) (l := List.range cap)

theorem usedOf_congr {s' : Nat → Slot K V} (h : ∀ i < cap, s i = s' i) : usedOf cap s = usedOf cap s' := by
  apply List.countP_congr
  intro i hi
  rw [h i (List.mem_range.mp hi)]

theorem exists_empty (h : usedOf cap s < cap) : ∃ i < cap, s i = .empty := by
  by_contra hno
  have hall : usedOf cap s = (List.range cap).length := by
    apply List.countP_eq_length.mpr
    intro i hi
    apply Slot.isUsed_iff.mpr
    intro he
    exact hno ⟨i, List.mem_range.mp hi, he⟩
  rw [List.length_range] at hall
  omega

/-! ### Walking the ring -/

theorem step_mod (start d cap : Nat) : ((start + d) % cap + 1) % cap = (start + (d + 1)) % cap := by
  rw [Nat.mod_add_mod, Nat.add_assoc]

/-- Every slot lies some steps away from any start. -/
theorem exists_steps (start : Nat) (hi : i < cap) : ∃ d < cap, (start + d) % cap = i := by
  have hpos : 0 < cap := by omega
  have hs : start % cap < cap := Nat.mod_lt start hpos
  by_cases h : start % cap ≤ i
  · refine ⟨i - start % cap, by omega, ?_⟩
    rw [← Nat.mod_add_mod, Nat.add_sub_cancel' h, Nat.mod_eq_of_lt hi]
  · refine ⟨cap + i - start % cap, by omega, ?_⟩
    rw [← Nat.mod_add_mod, Nat.add_sub_cancel' (by omega), Nat.add_mod_left, Nat.mod_eq_of_lt hi]

theorem Open.succ {start : Nat} (h : Open cap s start d) (hd : s ((start + d) % cap) ≠ .empty) :
    Open cap s start (d + 1) := by
  intro j hj
  by_cases he : j = d
  · rw [he]
    exact hd
  · exact h j (by omega)

theorem Open.update {start : Nat} {x : Slot K V} (h : Open cap s start d) (hx : x ≠ .empty) :
    Open cap (Function.update s i x) start d := by
  intro j hj
  by_cases he : (start + j) % cap = i
  · rw [he, Function.update_self]
    exact hx
  · rw [Function.update_of_ne he]
    exact h j hj

/-- A search that has come to an empty slot without finding its key knows that the key is absent. -/
theorem Probed.absent_of_empty (hp : Probed home cap s)
    (hmiss : ∀ j < d, ∀ v, s ((home k + j) % cap) ≠ .occupied k v)
    (hempty : s ((home k + d) % cap) = .empty) : Absent cap s k := by
  intro i hi v hs
  obtain ⟨e, -, rfl, hopen⟩ := hp.reach hi hs
  have hle : e ≤ d := by
    by_contra hlt
    exact hopen d (by omega) hempty
  by_cases he : e = d
  · rw [he, hempty] at hs
    cases hs
  · exact hmiss e (by omega) v hs

theorem absent_of_all (hmiss : ∀ j < cap, ∀ v, s ((home k + j) % cap) ≠ .occupied k v) : Absent cap s k := by
  intro i hi v
  obtain ⟨d, hd, rfl⟩ := exists_steps (home k) hi
  exact hmiss d hd v

/-! ### The operations keep the invariant -/

theorem probed_empty (home : K → Nat) (cap : Nat) : Probed home cap (fun _ => (.empty : Slot K V)) where
  reach _ h := by cases h
  unique _ _ h := by cases h

/-- Slot `i` is filled with `x`, whose key is found on the way from its home and lies nowhere else. -/
theorem Probed.update (hp : Probed home cap s) {x : Slot K V} (hx : x ≠ .empty)
    (hreach : ∀ {k v}, x = .occupied k v → ∃ d < cap, (home k + d) % cap = i ∧ Open cap s (home k) d)
    (halone : ∀ {k v}, x = .occupied k v → ∀ j < cap, j ≠ i → ∀ v', s j ≠ .occupied k v') :
    Probed home cap (Function.update s i x) := by
  constructor
  · intro j k v hj hs
    by_cases he : j = i
    · rw [he, Function.update_self] at hs
      obtain ⟨d, hd, heq, hopen⟩ := hreach hs
      exact ⟨d, hd, heq.trans he.symm, hopen.update hx⟩
    · rw [Function.update_of_ne he] at hs
      obtain ⟨d, hd, heq, hopen⟩ := hp.reach hj hs
      exact ⟨d, hd, heq, hopen.update hx⟩
  · intro j j' k v v' hj hj' h h'
    by_cases he : j = i
    · by_cases he' : j' = i
      · rw [he, he']
      · rw [he, Function.update_self] at h
        rw [Function.update_of_ne he'] at h'
        exact absurd h' (halone h j' hj' he' v')
    · rw [Function.update_of_ne he] at h
      by_cases he' : j' = i
      · rw [he', Function.update_self] at h'
        exact absurd h (halone h' j hj he v)
      · rw [Function.update_of_ne he'] at h'
        exact hp.unique hj hj' h h'

/-- A new key goes to the end of an open way from its home. -/
theorem Probed.insert (hp : Probed home cap s) (habs : Absent cap s k) (hd : d < cap)
    (hopen : Open cap s (home k) d) (v : V) :
    Probed home cap (Function.update s ((home k + d) % cap) (.occupied k v)) := by
  apply hp.update (by simp)
  · intro k' v' h
    cases h
    exact ⟨d, hd, rfl, hopen⟩
  · intro k' v' h j hj _
    cases h
    exact habs j hj

theorem Probed.replace (hp : Probed home cap s) (hi : i < cap) (hs : s i = .occupied k v) (v' : V) :
    Probed home cap (Function.update s i (.occupied k v')) := by
  apply hp.update (by simp)
  · intro k₁ v₁ h
    cases h
    exact hp.reach hi hs
  · intro k₁ v₁ h j hj hne v₂ h₂
    cases h
    exact hne (hp.unique hj hi h₂ hs)

theorem Probed.remove (hp : Probed home cap s) (i : Nat) :
    Probed home cap (Function.update s i .tombstone) := by
  apply hp.update (by simp)
  · intro k v h
    cases h
  · intro k v h
    cases h

/-! ### The operations on the finite map -/

section Maps

variable {m : K → Option V}

theorem Maps.get_of_slot (hm : Maps cap s m) (hi : i < cap) (hs : s i = .occupied k v) : m k = some v :=
  (hm k v).mpr ⟨i, hi, hs⟩

theorem Maps.get_of_absent (hm : Maps cap s m) (habs : Absent cap s k) : m k = none := by
  cases h : m k with
  | none => rfl
  | some v =>
      obtain ⟨i, hi, hs⟩ := (hm k v).mp h
      exact absurd hs (habs i hi v)

theorem maps_empty (cap : Nat) : Maps cap (fun _ => (.empty : Slot K V)) fun _ => none := by
  intro k v
  simp

variable [DecidableEq K]

/-- Slot `i`, the only one that may hold `k` and of no other key, comes to hold `o` for `k`. -/
theorem Maps.update (hm : Maps cap s m) (hi : i < cap) {x : Slot K V} {o : Option V}
    (halone : ∀ j < cap, j ≠ i → ∀ v, s j ≠ .occupied k v) (hown : ∀ {k' v}, s i = .occupied k' v → k' = k)
    (hx : ∀ k' v, x = .occupied k' v ↔ k' = k ∧ o = some v) :
    Maps cap (Function.update s i x) (Function.update m k o) := by
  intro k' v
  by_cases hk : k' = k
  · subst hk
    rw [Function.update_self]
    constructor
    · intro h
      exact ⟨i, hi, by rw [Function.update_self, (hx k' v).mpr ⟨rfl, h⟩]⟩
    · intro ⟨j, hj, h⟩
      by_cases hji : j = i
      · rw [hji, Function.update_self] at h
        exact ((hx k' v).mp h).2
      · rw [Function.update_of_ne hji] at h
        exact absurd h (halone j hj hji v)
  · rw [Function.update_of_ne hk, hm k' v]
    constructor
    · intro ⟨j, hj, h⟩
      have hji : j ≠ i := by
        intro he
        rw [he] at h
        exact hk (hown h)
      exact ⟨j, hj, by rw [Function.update_of_ne hji, h]⟩
    · intro ⟨j, hj, h⟩
      by_cases hji : j = i
      · rw [hji, Function.update_self] at h
        exact absurd ((hx k' v).mp h).1 hk
      · exact ⟨j, hj, by rwa [Function.update_of_ne hji] at h⟩

/-- A slot that held no key takes `k`. -/
theorem Maps.insert (hm : Maps cap s m) (habs : Absent cap s k) (hi : i < cap)
    (hfree : (s i).isOccupied = false) (v : V) :
    Maps cap (Function.update s i (.occupied k v)) (Function.update m k (some v)) := by
  apply hm.update hi
  · intro j hj _
    exact habs j hj
  · intro k' v' h
    rw [h] at hfree
    cases hfree
  · intro k' v'
    simp [eq_comm]

theorem Maps.replace (hp : Probed home cap s) (hm : Maps cap s m) (hi : i < cap)
    (hs : s i = .occupied k v) (v' : V) :
    Maps cap (Function.update s i (.occupied k v')) (Function.update m k (some v')) := by
  apply hm.update hi
  · intro j hj hne v₁ h
    exact hne (hp.unique hj hi h hs)
  · intro k' v₁ h
    rw [hs] at h
    cases h
    rfl
  · intro k' v₁
    simp [eq_comm]

theorem Maps.remove (hp : Probed home cap s) (hm : Maps cap s m) (hi : i < cap)
    (hs : s i = .occupied k v) :
    Maps cap (Function.update s i .tombstone) (Function.update m k none) := by
  apply hm.update hi
  · intro j hj hne v₁ h
    exact hne (hp.unique hj hi h hs)
  · intro k' v₁ h
    rw [hs] at h
    cases h
    rfl
  · intro k' v₁
    simp

end Maps

/-! ### Searching -/

/-- What a search for a key ends with: the slot that holds it, the slot an insertion takes and whether
that one was empty, or a table without room. -/
inductive Outcome (V : Type)
  | found (i : Nat) (val : V)
  | free (i : Nat) (wasEmpty : Bool)
  | full
deriving DecidableEq, Repr

/-- The end of a search that saw every slot. -/
def closing : Option Nat → Outcome V
  | some t => .free t false
  | none => .full

/-- What a search may say. -/
def Sought (home : K → Nat) (cap : Nat) (s : Nat → Slot K V) (k : K) : Outcome V → Prop
  | .found i v => i < cap ∧ s i = .occupied k v
  | .free i wasEmpty => Absent cap s k ∧ s i = (if wasEmpty then .empty else .tombstone) ∧
      ∃ d < cap, i = (home k + d) % cap ∧ Open cap s (home k) d
  | .full => Absent cap s k ∧ ∀ i < cap, (s i).isOccupied = true

/-- The tombstone a search has passed in its first `d` steps. -/
def Passed (cap : Nat) (s : Nat → Slot K V) (start d : Nat) : Option Nat → Prop
  | some t => ∃ e < d, t = (start + e) % cap ∧ s t = .tombstone
  | none => ∀ j < d, (s ((start + j) % cap)).isOccupied = true

theorem Passed.sought {tomb : Nat} (h : Passed cap s (home k) d (some tomb)) (hd : d ≤ cap)
    (hopen : Open cap s (home k) d) (habs : Absent cap s k) : Sought home cap s k (.free tomb false) := by
  obtain ⟨e, he, ht, hs⟩ := h
  exact ⟨habs, hs, e, by omega, ht, fun j hj => hopen j (by omega)⟩

section Seek

variable [DecidableEq K]

/-- Look at the next `left` slots from `cur` on. -/
def seek (cap : Nat) (s : Nat → Slot K V) (k : K) : Nat → Nat → Option Nat → Outcome V
  | 0, _, tomb => closing tomb
  | left + 1, cur, tomb =>
      match s cur with
      | .empty =>
          match tomb with
          | some t => .free t false
          | none => .free cur true
      | .occupied k' v => if k' = k then .found cur v else seek cap s k left ((cur + 1) % cap) tomb
      | .tombstone => seek cap s k left ((cur + 1) % cap) (tomb.or (some cur))

theorem seek_sought (hp : Probed home cap s) {left cur : Nat} {tomb : Option Nat} (hleft : d + left = cap)
    (hcur : cur = (home k + d) % cap) (hmiss : ∀ j < d, ∀ v, s ((home k + j) % cap) ≠ .occupied k v)
    (hopen : Open cap s (home k) d) (hpass : Passed cap s (home k) d tomb) :
    Sought home cap s k (seek cap s k left cur tomb) := by
  induction left generalizing d cur tomb with
  | zero =>
      have hall : d = cap := by omega
      have habs : Absent cap s k := absent_of_all (hall ▸ hmiss)
      cases tomb with
      | some t => exact hpass.sought (Nat.le_of_eq hall) hopen habs
      | none =>
          refine ⟨habs, fun i hi => ?_⟩
          obtain ⟨e, he, rfl⟩ := exists_steps (home k) hi
          exact hpass e (hall ▸ he)
  | succ left ih =>
      have hnext : (cur + 1) % cap = (home k + (d + 1)) % cap := by rw [hcur, step_mod]
      unfold seek
      cases hs : s cur with
      | empty =>
          have habs := hp.absent_of_empty hmiss (hcur ▸ hs)
          cases tomb with
          | some t => exact hpass.sought (by omega) hopen habs
          | none => exact ⟨habs, hs, d, by omega, hcur, hopen⟩
      | occupied k' v =>
          dsimp only
          by_cases hk : k' = k
          · rw [if_pos hk]
            exact ⟨hcur ▸ Nat.mod_lt _ (by omega), hk ▸ hs⟩
          · rw [if_neg hk]
            apply ih (by omega) hnext
            · intro j hj v' h
              by_cases hjd : j = d
              · rw [hjd, ← hcur, hs] at h
                cases h
                exact hk rfl
              · exact hmiss j (by omega) v' h
            · exact hopen.succ (by simp [← hcur, hs])
            · cases tomb with
              | some t =>
                  obtain ⟨e, he, ht⟩ := hpass
                  exact ⟨e, by omega, ht⟩
              | none =>
                  intro j hj
                  by_cases hjd : j = d
                  · rw [hjd, ← hcur, hs]
                    rfl
                  · exact hpass j (by omega)
      | tombstone =>
          apply ih (by omega) hnext
          · intro j hj v' h
            by_cases hjd : j = d
            · rw [hjd, ← hcur, hs] at h
              cases h
            · exact hmiss j (by omega) v' h
          · exact hopen.succ (by simp [← hcur, hs])
          · cases tomb with
            | some t =>
                obtain ⟨e, he, ht⟩ := hpass
                exact ⟨e, by omega, ht⟩
            | none => exact ⟨d, Nat.lt_succ_self d, hcur, hs⟩

theorem Probed.seek (hp : Probed home cap s) (k : K) :
    Sought home cap s k (seek cap s k cap (home k % cap) none) := by
  apply seek_sought hp (Nat.zero_add cap) rfl
  · intro j hj
    omega
  · intro j hj
    omega
  · intro j hj
    omega

end Seek

/-! ### The entries of a table -/

theorem mem_entries : (k, v) ∈ entries cap s ↔ ∃ i < cap, s i = .occupied k v := by
  rw [entries, List.mem_filterMap]
  constructor
  · intro ⟨i, hi, h⟩
    refine ⟨i, List.mem_range.mp hi, ?_⟩
    cases hs : s i <;> simp_all [Slot.entry]
  · intro ⟨i, hi, h⟩
    exact ⟨i, List.mem_range.mpr hi, by rw [h, Slot.entry]⟩

theorem length_entries (cap : Nat) (s : Nat → Slot K V) : (entries cap s).length = lenOf cap s := by
  rw [entries, List.length_filterMap_eq_countP, lenOf]
  apply List.countP_congr
  intro i _
  cases s i <;> simp [Slot.entry, Slot.isOccupied]

theorem Probed.nodup_entries (hp : Probed home cap s) : ((entries cap s).map Prod.fst).Nodup := by
  rw [entries, List.Nodup, List.pairwise_map, List.pairwise_filterMap]
  apply List.nodup_range.imp_of_mem
  intro i j hi hj hne a ha b hb hab
  have hocc : ∀ {l : Nat} {x : K × V}, (s l).entry = some x → s l = .occupied x.1 x.2 := by
    intro l x hx
    cases hs : s l with
    | occupied k v =>
        rw [hs] at hx
        cases hx
        rfl
    | empty =>
        rw [hs] at hx
        cases hx
    | tombstone =>
        rw [hs] at hx
        cases hx
  have h := hocc hb
  rw [← hab] at h
  exact hne (hp.unique (List.mem_range.mp hi) (List.mem_range.mp hj) (hocc ha) h)

/-! ### Rehashing -/

/-- The first of the next `left` slots from `cur` on that is empty. -/
def vacancy (cap : Nat) (s : Nat → Slot K V) : Nat → Nat → Option Nat
  | 0, _ => none
  | left + 1, cur => if (s cur).isUsed then vacancy cap s left ((cur + 1) % cap) else some cur

/-- Enter the entries one by one into the first empty slots from their homes on. -/
def rehash (home : K → Nat) (cap : Nat) : List (K × V) → (Nat → Slot K V) → Option (Nat → Slot K V)
  | [], s => some s
  | (k, v) :: es, s => do
      let i ← vacancy cap s cap (home k % cap)
      rehash home cap es (Function.update s i (.occupied k v))

theorem vacancy_spec {start left cur : Nat} (hleft : d + left = cap) (hcur : cur = (start + d) % cap)
    (hopen : Open cap s start d) (hroom : ∃ i < cap, s i = .empty) :
    ∃ e < cap, vacancy cap s left cur = some ((start + e) % cap) ∧ s ((start + e) % cap) = .empty ∧
      Open cap s start e := by
  induction left generalizing d cur with
  | zero =>
      obtain ⟨i, hi, hs⟩ := hroom
      obtain ⟨e, he, rfl⟩ := exists_steps start hi
      exact absurd hs (hopen e (by omega))
  | succ left ih =>
      rw [vacancy]
      by_cases hu : (s cur).isUsed = true
      · rw [if_pos hu]
        have hne := Slot.isUsed_iff.mp hu
        exact ih (by omega) (by rw [hcur, step_mod]) (hopen.succ (hcur ▸ hne))
      · rw [if_neg hu, hcur]
        have he : s cur = .empty := by
          by_contra hne
          exact hu (Slot.isUsed_iff.mpr hne)
        exact ⟨d, by omega, rfl, hcur ▸ he, hopen⟩

/-- Filling an empty slot adds its entry. -/
theorem holds_fill (hi : i < cap) (hempty : s i = .empty) {k₁ : K} {v₁ : V} :
    (∃ j < cap, Function.update s i (.occupied k v) j = .occupied k₁ v₁) ↔
      (∃ j < cap, s j = .occupied k₁ v₁) ∨ (k₁, v₁) = (k, v) := by
  constructor
  · intro ⟨j, hj, h⟩
    by_cases hji : j = i
    · rw [hji, Function.update_self] at h
      cases h
      exact .inr rfl
    · rw [Function.update_of_ne hji] at h
      exact .inl ⟨j, hj, h⟩
  · intro h
    cases h with
    | inl h =>
        obtain ⟨j, hj, h⟩ := h
        have hji : j ≠ i := by
          intro he
          rw [he, hempty] at h
          cases h
        exact ⟨j, hj, by rw [Function.update_of_ne hji, h]⟩
    | inr h =>
        cases h
        exact ⟨i, hi, Function.update_self ..⟩

/-- What rehashing `es` into a table without tombstones makes of it. -/
theorem rehash_spec (hp : Probed home cap s) (es : List (K × V)) (hnodup : (es.map Prod.fst).Nodup)
    (habs : ∀ e ∈ es, Absent cap s e.1) (hclean : usedOf cap s = lenOf cap s)
    (hroom : lenOf cap s + es.length ≤ cap) :
    ∃ s', rehash home cap es s = some s' ∧ Probed home cap s' ∧ lenOf cap s' = lenOf cap s + es.length ∧
      usedOf cap s' = lenOf cap s' ∧
      ∀ k v, (∃ i < cap, s' i = .occupied k v) ↔ (∃ i < cap, s i = .occupied k v) ∨ (k, v) ∈ es := by
  induction es generalizing s with
  | nil => exact ⟨s, rfl, hp, rfl, hclean, by simp⟩
  | cons x es ih =>
      obtain ⟨k, v⟩ := x
      simp only [List.length_cons] at hroom
      simp only [List.map_cons, List.nodup_cons] at hnodup
      have hk : Absent cap s k := habs (k, v) List.mem_cons_self
      have hvacancy : ∃ e < cap, vacancy cap s cap (home k % cap) = some ((home k + e) % cap) ∧
          s ((home k + e) % cap) = .empty ∧ Open cap s (home k) e :=
        vacancy_spec (Nat.zero_add cap) rfl (fun j hj => by omega) (exists_empty (by omega))
      obtain ⟨e, he, hvac, hempty, hopen⟩ := hvacancy
      have hi : (home k + e) % cap < cap := Nat.mod_lt _ (by omega)
      have hlen := lenOf_update s (.occupied k v) hi
      have hused := usedOf_update s (.occupied k v) hi
      rw [hempty] at hlen hused
      simp only [Slot.isOccupied, Slot.isUsed, Bool.toNat_false, Bool.toNat_true] at hlen hused
      obtain ⟨s', hs', hp', hl', hu', hm'⟩ := ih (hp.insert hk he hopen v) hnodup.2
        (by
          intro y hy j hj w h
          by_cases hj' : j = (home k + e) % cap
          · rw [hj', Function.update_self] at h
            cases h
            exact hnodup.1 (List.mem_map_of_mem hy)
          · rw [Function.update_of_ne hj'] at h
            exact habs y (List.mem_cons_of_mem _ hy) j hj w h)
        (by omega) (by omega)
      refine ⟨s', by rw [rehash, hvac]; exact hs', hp', ?_, hu', fun k₁ v₁ => ?_⟩
      · rw [hl', List.length_cons]
        omega
      · rw [hm', List.mem_cons, holds_fill hi hempty, or_assoc]

/-- Growing a table: rehash all of its entries into an empty one. -/
theorem Probed.grow (hp : Probed home cap s) (newcap : Nat) (hcap : lenOf cap s ≤ newcap) :
    ∃ s', rehash home newcap (entries cap s) (fun _ => .empty) = some s' ∧ Probed home newcap s' ∧
      lenOf newcap s' = lenOf cap s ∧ usedOf newcap s' = lenOf cap s ∧
      ∀ m, Maps cap s m → Maps newcap s' m := by
  have hzero : lenOf newcap (fun _ => (.empty : Slot K V)) = 0 := by simp [lenOf, Slot.isOccupied]
  have hused : usedOf newcap (fun _ => (.empty : Slot K V)) = 0 := by simp [usedOf, Slot.isUsed]
  obtain ⟨s', hs', hp', hl, hu, hm⟩ := rehash_spec (probed_empty home newcap) (entries cap s)
    hp.nodup_entries (fun e _ i _ v h => by cases h) (hused.trans hzero.symm)
    (by rw [hzero, length_entries, Nat.zero_add]; exact hcap)
  rw [hzero, Nat.zero_add, length_entries] at hl
  refine ⟨s', hs', hp', hl, hu.trans hl, fun m hmaps k v => ?_⟩
  rw [hmaps k v, hm k v, mem_entries]
  simp

end Probing

end BStackRaii
