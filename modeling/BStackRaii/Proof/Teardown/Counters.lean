import BStackRaii.Proof.Teardown.Structure
/-!
# Where the counters of a structure lie

A teardown writes to the counters and nowhere else. Each counter lies in an allocation of the structure, no
two of them overlap, and what the walks read of a block lies off all of them.
-/

namespace BStackRaii

variable {τ : Type} [DecidableEq τ] {types : τ → BlockType τ} {f : File} {root : Place τ}
  {N : Finset (Place τ)}

/-- The allocation belongs to the structure. -/
def Uses (types : τ → BlockType τ) (N : Finset (Place τ)) (r : Range) : Prop :=
  ∃ p ∈ N, p.range types = some r

/-- The address belongs to a counter of the structure. -/
def InCounter (types : τ → BlockType τ) (f : File) (N : Finset (Place τ)) (i : Nat) : Prop :=
  ∃ p ∈ N, ∃ c, p.counter types f = some c ∧ c ≤ i ∧ i < c + 8

/-- The address belongs to an allocation of the structure, and to none of its counters. -/
structure Uncounted (types : τ → BlockType τ) (f : File) (N : Finset (Place τ)) (i : Nat) : Prop where
  used : ∃ r, Uses types N r ∧ r.start ≤ i ∧ i < r.stop
  clear : ¬ InCounter types f N i

namespace Structure

variable {p q : Place τ} {r r' : Range} {c c' i : Nat} {t : τ} {off : Nat}

theorem mem_root (hs : Structure types f root N) : root ∈ N := (hs.reach root).mpr .root

theorem mem_holds (hs : Structure types f root N) (hp : p ∈ N)
    (hq : q ∈ (Place.holdings types f).holds p) : q ∈ N :=
  (hs.reach q).mpr (.step ((hs.reach p).mp hp) hq)

theorem holds_tokens {tokens : List (Token τ)} (htokens : p.tokens types f = .ok tokens) :
    (Place.holdings types f).holds p = tokens.map Token.target ++ p.phantom types f := by
  simp only [Place.holdings, Place.children, htokens]

theorem mem_target {tokens : List (Token τ)} (hs : Structure types f root N) (hp : p ∈ N)
    (htokens : p.tokens types f = .ok tokens) {tok : Token τ} (htok : tok ∈ tokens) : tok.target ∈ N := by
  refine hs.mem_holds hp ?_
  rw [holds_tokens htokens]
  exact List.mem_append_left _ (List.mem_map_of_mem htok)

theorem mem_ctrl (hs : Structure types f root N) (hp : .block t off ∈ N)
    (hmode : (types t).mode = .rcWeak) : .ctrl (Place.ctrlOf f off) ∈ N := by
  obtain ⟨tokens, htokens⟩ := hs.readable _ hp
  refine hs.mem_holds hp ?_
  rw [holds_tokens htokens, Place.phantom, if_pos hmode]
  exact List.mem_append_right _ List.mem_cons_self

theorem sound (hs : Structure types f root N) : (Place.holdings types f).Sound root N where
  root_mem := hs.mem_root
  closed p hp q hq := hs.mem_holds hp hq
  root_free p hp hroot := by
    obtain ⟨rank, hrank⟩ := hs.acyclic
    have hle : ∀ q, Reach types f root q → rank q ≤ rank root := by
      intro q hq
      induction hq with
      | root => exact Nat.le_refl _
      | step hp hq ih => exact Nat.le_trans (Nat.le_of_lt (hrank _ ((hs.reach _).mpr hp) _ hq)) ih
    exact absurd (hrank p hp root hroot) (Nat.not_lt.mpr (hle p ((hs.reach p).mp hp)))
  backed := hs.backed

/-- An address lies in the allocation of one place at most. -/
theorem same_place (hs : Structure types f root N) (hp : p ∈ N) (hq : q ∈ N)
    (hr : p.range types = some r) (hr' : q.range types = some r') (hi : r.start ≤ i ∧ i < r.stop)
    (hi' : r'.start ≤ i ∧ i < r'.stop) : p = q := by
  by_cases heq : r = r'
  · exact hs.distinct p hp q hq r hr (heq ▸ hr')
  · have hapart := apart_of_mem f.apart (hs.allocated p hp r hr) (hs.allocated q hq r' hr') heq
    obtain ⟨-, h | h⟩ := hapart <;> omega

theorem counter_home (hl : Laid types) (hs : Structure types f root N) (hp : p ∈ N)
    (hc : p.counter types f = some c) :
    (∃ t off, p = .block t off ∧ (types t).mode = .rc ∧ c = off + RC_REFCOUNT_OFFSET ∧
      c + 8 ≤ off + (types t).size) ∨
    ∃ off, .ctrl off ∈ N ∧ (p = .ctrl off ∧ c = off + CTRL_WEAK_OFFSET ∨
      ∃ t o, p = .block t o ∧ (types t).mode = .rcWeak ∧ off = Place.ctrlOf f o ∧
        c = off + CTRL_STRONG_OFFSET) := by
  cases p with
  | block t off =>
      have hsize := hl.size t
      cases hmode : (types t).mode with
      | plain => simp only [Place.counter, hmode, reduceCtorEq] at hc
      | rc =>
          simp only [Place.counter, hmode, Option.some.injEq] at hc
          rw [hmode] at hsize
          simp only [Mode.userStart, RC_REFCOUNT_OFFSET] at hsize hc
          exact .inl ⟨t, off, rfl, hmode, hc.symm, by omega⟩
      | rcWeak =>
          simp only [Place.counter, hmode, Option.some.injEq] at hc
          exact .inr ⟨_, hs.mem_ctrl hp hmode, .inr ⟨t, off, rfl, hmode, rfl, hc.symm⟩⟩
  | inline t off => simp only [Place.counter, reduceCtorEq] at hc
  | ctrl off =>
      simp only [Place.counter, Option.some.injEq] at hc
      exact .inr ⟨off, hp, .inl ⟨rfl, hc.symm⟩⟩
  | data r => simp only [Place.counter, reduceCtorEq] at hc

theorem counter_range (hl : Laid types) (hs : Structure types f root N) (hp : p ∈ N)
    (hc : p.counter types f = some c) :
    ∃ q ∈ N, ∃ r, q.range types = some r ∧ r.start + HEADER_SIZE ≤ c ∧ c + 8 ≤ r.stop ∧
      ((∃ t off, q = .block t off ∧ (types t).mode = .rc ∧ c = off + RC_REFCOUNT_OFFSET) ∨
        ∃ off, q = .ctrl off) := by
  rcases hs.counter_home hl hp hc with ⟨t, off, rfl, hmode, rfl, hle⟩ | ⟨off, hctrl, h⟩
  · exact ⟨_, hp, _, rfl, Nat.le_refl _, hle, .inl ⟨t, off, rfl, hmode, rfl⟩⟩
  · refine ⟨_, hctrl, _, rfl, ?_, ?_, .inr ⟨off, rfl⟩⟩ <;>
      rcases h with ⟨-, rfl⟩ | ⟨-, -, -, -, -, rfl⟩ <;>
      simp only [CTRL_WEAK_OFFSET, CTRL_STRONG_OFFSET, HEADER_SIZE, Range.stop, CONTROL_SIZE,
        CTRL_DATA_OFFSET] <;> omega

theorem counter_le_len (hl : Laid types) (hs : Structure types f root N) (hp : p ∈ N)
    (hc : p.counter types f = some c) : 16 ≤ c ∧ c + 8 ≤ f.len := by
  obtain ⟨q, hq, r, hr, hge, hle, -⟩ := hs.counter_range hl hp hc
  have hinside := f.inside r (hs.allocated q hq r hr)
  exact ⟨by omega, by omega⟩

/-- The addresses of a block that belong to a counter are those of its inline one. -/
theorem counted_block (hl : Laid types) (hs : Structure types f root N) (hp : .block t off ∈ N)
    (hge : off ≤ i) (hlt : i < off + (types t).size) (hcounted : InCounter types f N i) :
    (types t).mode = .rc ∧ i < off + RC_REFCOUNT_OFFSET + 8 := by
  obtain ⟨p, hpN, c, hc, hci, hic⟩ := hcounted
  obtain ⟨q, hq, r, hr, hrc, hcr, hkind⟩ := hs.counter_range hl hpN hc
  have heq := hs.same_place hq hp hr rfl ⟨by omega, by omega⟩ ⟨hge, hlt⟩
  rcases hkind with ⟨t', off', rfl, hmode, rfl⟩ | ⟨off', rfl⟩
  · cases heq
    exact ⟨hmode, hic⟩
  · cases heq

/-- The user's part of a block lies off the counters. -/
theorem uncounted_user (hl : Laid types) (hs : Structure types f root N) (hp : .block t off ∈ N)
    (hge : off + (types t).mode.userStart ≤ i) (hlt : i < off + (types t).size) : Uncounted types f N i := by
  refine ⟨⟨_, ⟨_, hp, rfl⟩, by simp only; omega, by simp only [Range.stop]; omega⟩, fun hcounted => ?_⟩
  obtain ⟨hmode, hi⟩ := hs.counted_block hl hp (by omega) hlt hcounted
  rw [hmode] at hge
  simp only [Mode.userStart, RC_REFCOUNT_OFFSET] at hge hi
  omega

theorem uncounted_data (hl : Laid types) (hs : Structure types f root N) (hp : .data r ∈ N)
    (hge : r.start ≤ i) (hlt : i < r.stop) : Uncounted types f N i := by
  refine ⟨⟨r, ⟨_, hp, rfl⟩, hge, hlt⟩, ?_⟩
  rintro ⟨p, hpN, c, hc, hci, hic⟩
  obtain ⟨q, hq, r', hr, hrc, hcr, hkind⟩ := hs.counter_range hl hpN hc
  have heq := hs.same_place hq hp hr rfl ⟨by omega, by omega⟩ ⟨hge, hlt⟩
  rcases hkind with ⟨t', off', rfl, -⟩ | ⟨off', rfl⟩ <;> cases heq

omit [DecidableEq τ] in
/-- A counter of a control block lies inside of it. -/
theorem within_ctrl (h : p = .ctrl off ∧ c = off + CTRL_WEAK_OFFSET ∨
    ∃ t o, p = .block t o ∧ (types t).mode = .rcWeak ∧ off = Place.ctrlOf f o ∧
      c = off + CTRL_STRONG_OFFSET) : off ≤ c ∧ c + 8 ≤ off + CONTROL_SIZE := by
  simp only [CTRL_WEAK_OFFSET, CTRL_STRONG_OFFSET, CONTROL_SIZE, CTRL_DATA_OFFSET] at h ⊢
  rcases h with ⟨-, rfl⟩ | ⟨-, -, -, -, -, rfl⟩ <;> omega

/-- The counters of two places do not overlap. -/
theorem counters_apart (hl : Laid types) (hs : Structure types f root N) (hp : p ∈ N) (hq : q ∈ N)
    (hc : p.counter types f = some c) (hc' : q.counter types f = some c') (hne : p ≠ q) :
    c + 8 ≤ c' ∨ c' + 8 ≤ c := by
  rcases hs.counter_home hl hp hc with ⟨t, off, rfl, -, rfl, hle⟩ | ⟨off, hctrl, h⟩
  · -- both counters inline, or one of them in a control block: the blocks are apart
    by_contra hover
    rcases hs.counter_home hl hq hc' with ⟨t', off', rfl, -, rfl, hle'⟩ | ⟨off', hctrl', h'⟩
    · simp only [RC_REFCOUNT_OFFSET] at *
      exact hne (hs.same_place (i := max off off' + HEADER_SIZE) hp hq rfl rfl
        ⟨by simp only; omega, by simp only [Range.stop]; omega⟩ ⟨by simp only; omega, by simp only [Range.stop]; omega⟩)
    · obtain ⟨hge, hlt⟩ := within_ctrl h'
      simp only [RC_REFCOUNT_OFFSET] at *
      cases hs.same_place (i := max (off + HEADER_SIZE) c') hp hctrl' rfl rfl
        ⟨by simp only; omega, by simp only [Range.stop]; omega⟩
        ⟨by simp only; omega, by simp only [Range.stop]; omega⟩
  · rcases hs.counter_home hl hq hc' with ⟨t', off', rfl, -, rfl, hle'⟩ | ⟨off', hctrl', h'⟩
    · by_contra hover
      obtain ⟨hge, hlt⟩ := within_ctrl h
      simp only [RC_REFCOUNT_OFFSET] at *
      cases hs.same_place (i := max (off' + HEADER_SIZE) c) hq hctrl rfl rfl
        ⟨by simp only; omega, by simp only [Range.stop]; omega⟩
        ⟨by simp only; omega, by simp only [Range.stop]; omega⟩
    · by_contra hover
      obtain ⟨hge, hlt⟩ := within_ctrl h
      obtain ⟨hge', hlt'⟩ := within_ctrl h'
      cases hs.same_place (i := max c c') hctrl hctrl' rfl rfl
        ⟨by simp only; omega, by simp only [Range.stop]; omega⟩
        ⟨by simp only; omega, by simp only [Range.stop]; omega⟩
      simp only [CTRL_WEAK_OFFSET, CTRL_STRONG_OFFSET] at h h'
      rcases h with ⟨rfl, rfl⟩ | ⟨t, o, rfl, hmode, ho, rfl⟩ <;>
        rcases h' with ⟨rfl, rfl⟩ | ⟨t', o', rfl, hmode', ho', rfl⟩
      · exact hne rfl
      · omega
      · omega
      · -- the control block points at one data block
        have hpair := hs.paired t o hp hmode
        have hpair' := hs.paired t' o' hq hmode'
        rw [← ho] at hpair
        rw [← ho', hpair] at hpair'
        subst hpair'
        have hsize := hl.size t
        have hsize' := hl.size t'
        rw [hmode] at hsize
        rw [hmode'] at hsize'
        simp only [Mode.userStart, HEADER_SIZE] at hsize hsize'
        exact hne (hs.same_place (i := o) hp hq rfl rfl
          ⟨Nat.le_refl _, by simp only [Range.stop]; omega⟩
          ⟨Nat.le_refl _, by simp only [Range.stop]; omega⟩)

end Structure

end BStackRaii
