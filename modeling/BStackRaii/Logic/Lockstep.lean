import BStackRaii.Logic.Codec
/-!
# Decoders in lockstep

Bytes that no encoder wrote have no encoder to walk along. But a decoder that succeeds has read some of them, and
most decoders read the same value from the same bytes whatever stands before and after: they are local. A search
that moves as such a decoder does finds its slot where the decoder reads the value of that slot, and other bytes of
its width written there are what the decoder reads instead.
-/

namespace BStackRaii

variable {ε α β γ δ : Type}

/-- The run of `d` from `r` to `r'`. It is a run at every place as far from the start. -/
def Took (d : Decoder ε α) (v : α) (r r' : Reader) : Prop :=
  ∃ pre bytes post, r = ⟨pre ++ bytes ++ post, pre.length⟩ ∧ r' = ⟨pre ++ bytes ++ post, (pre ++ bytes).length⟩ ∧
    ∀ pre', pre'.length = pre.length → Reads d pre' bytes v

/-- Every run of `d` depends only on the bytes it moves over and on where they stand. -/
def Local (d : Decoder ε α) : Prop := ∀ r v r', r.pos ≤ r.buf.length → d r = .ok (v, r') → Took d v r r'

/-- Two views of one buffer that meet at the cursor. -/
theorem append_meet {pre bytes post pre₂ rest : List UInt8} (hbuf : pre ++ bytes ++ post = pre₂ ++ rest)
    (hpos : (pre ++ bytes).length = pre₂.length) : pre₂ = pre ++ bytes ∧ post = rest := by
  obtain ⟨hpre, hrest⟩ := List.append_inj hbuf hpos
  exact ⟨hpre.symm, hrest⟩

namespace Took

variable {d : Decoder ε α} {v : α} {r r' t : Reader}

theorem inside (h : Took d v r r') : r'.pos ≤ r'.buf.length := by
  obtain ⟨pre, bytes, post, rfl, rfl, -⟩ := h
  exact (List.prefix_append (pre ++ bytes) post).length_le

theorem next {n : Nat} (hin : r.pos + n ≤ r.buf.length)
    (hreads : ∀ pre' : List UInt8, pre'.length = r.pos → Reads d pre' ((r.buf.drop r.pos).take n) v) :
    Took d v r { r with pos := r.pos + n } := by
  have hbuf : r.buf.take r.pos ++ (r.buf.drop r.pos).take n ++ (r.buf.drop r.pos).drop n = r.buf := by
    rw [List.append_assoc, List.take_append_drop, List.take_append_drop]
  have hpre : (r.buf.take r.pos).length = r.pos := by
    rw [List.length_take, Nat.min_eq_left (by omega)]
  have hlen : ((r.buf.drop r.pos).take n).length = n := by
    rw [List.length_take, List.length_drop]
    omega
  refine ⟨r.buf.take r.pos, (r.buf.drop r.pos).take n, (r.buf.drop r.pos).drop n, ?_, ?_, fun pre' hpre' => ?_⟩
  · rw [hbuf, hpre]
  · rw [hbuf, List.length_append, hpre, hlen]
  · exact hreads pre' (hpre'.trans hpre)

theorem pure (v : α) (h : r.pos ≤ r.buf.length) : Took (pure v : Decoder ε α) v r r :=
  next (n := 0) h fun pre' _ => Reads.pure pre' v

theorem bind {f : α → Decoder ε β} {b : β} (hd : Took d v r t) (hf : Took (f v) b t r') : Took (d >>= f) b r r' := by
  obtain ⟨pre, bytes, post, rfl, rfl, hreads⟩ := hd
  obtain ⟨pre₂, rest, post₂, hbuf, rfl, hreads₂⟩ := hf
  rw [Reader.mk.injEq, List.append_assoc pre₂] at hbuf
  obtain ⟨rfl, rfl⟩ := append_meet hbuf.1 hbuf.2
  refine ⟨pre, bytes ++ rest, post₂, ?_, ?_, fun pre' hpre => ?_⟩
  · simp only [List.append_assoc]
  · simp only [List.append_assoc]
  · apply (hreads pre' hpre).bind
    apply hreads₂
    rw [List.length_append, List.length_append, hpre]

end Took

namespace Local

variable {d : Decoder ε α}

theorem pure (v : α) : Local (pure v : Decoder ε α) := by
  intro r v' r' hin hrun
  cases hrun
  exact Took.pure v hin

theorem throw (e : ε) : Local (throw e : Decoder ε α) := by
  intro r v r' hin hrun
  cases hrun

theorem bind {f : α → Decoder ε β} (hd : Local d) (hf : ∀ v, Local (f v)) : Local (d >>= f) := by
  intro r b r' hin hrun
  obtain ⟨v, t, hx, hrest⟩ := stateT_bind_ok.mp hrun
  have htook := hd r v t hin hx
  exact htook.bind (hf v t b r' htook.inside hrest)

theorem position : Local (Decoder.position : Decoder ε Nat) := by
  intro r v r' hin hrun
  cases hrun
  refine Took.next (n := 0) hin fun pre' hpre => ?_
  rw [← hpre]
  exact Reads.position pre'

theorem times (hd : Local d) (k : Nat) : Local (d.times k) := by
  induction k with
  | zero => exact pure []
  | succ k ih => exact hd.bind fun x => ih.bind fun xs => pure (x :: xs)

theorem word (f : List UInt8 → α) (k : Nat) (e : ε) :
    Local (Decoder.ofOption e (Reader.mapFst f (Reader.take k))) := by
  intro r v r' hin hrun
  by_cases hend : r.pos + k ≤ r.buf.length
  · rw [Decoder.ofOption, Reader.mapFst, Reader.take, if_pos hend] at hrun
    cases hrun
    have hlen : ((r.buf.drop r.pos).take k).length = k := by
      rw [List.length_take, List.length_drop]
      omega
    refine Took.next hend fun pre' _ => Reads.ofOption ?_ e pre'
    have hfetch := (Fetches.take ((r.buf.drop r.pos).take k)).mapFst f
    rwa [hlen] at hfetch
  · rw [Decoder.ofOption, Reader.mapFst, Reader.take, if_neg hend] at hrun
    cases hrun

theorem take (k : Nat) (e : ε) : Local (Decoder.ofOption e (Reader.take k)) := by
  have hid : Reader.mapFst id (Reader.take k) = Reader.take k := by
    funext r
    exact congrFun Option.map_id (Reader.take k r)
  rw [← hid]
  exact word id k e

theorem skipPad {a : Nat} (ha : 0 < a) (e : ε) : Local (Decoder.ofOption e (Reader.skipPad a)) := by
  intro r v r' hin hrun
  have hle := le_alignUp ha r.pos
  by_cases hend : alignUp r.pos a ≤ r.buf.length
  · rw [Decoder.ofOption, Reader.skipPad, if_pos hend] at hrun
    cases hrun
    have hgap : r.pos + (alignUp r.pos a - r.pos) = alignUp r.pos a := Nat.add_sub_cancel' hle
    have htook : Took (Decoder.ofOption e (Reader.skipPad a))
      () r { r with pos := r.pos + (alignUp r.pos a - r.pos) } := by
      refine Took.next (Nat.le_trans (Nat.le_of_eq hgap) hend) fun pre' hpre post => ?_
      have hstop : (pre' ++ (r.buf.drop r.pos).take (alignUp r.pos a - r.pos)).length = alignUp r.pos a := by
        rw [List.length_append, List.length_take, List.length_drop, hpre]
        omega
      rw [Decoder.ofOption, Reader.skipPad]
      simp only [hpre]
      rw [hstop, if_pos]
      rw [List.length_append, hstop]
      exact Nat.le_add_right _ _
    rwa [hgap] at htook
  · rw [Decoder.ofOption, Reader.skipPad, if_neg hend] at hrun
    cases hrun

end Local

/-! ### Decoders that refuse less -/

/-- `d'` reads what `d` reads. -/
def Extends (d d' : Decoder ε α) : Prop := ∀ r p, d r = .ok p → d' r = .ok p

namespace Extends

variable {d d' : Decoder ε α}

theorem refl (d : Decoder ε α) : Extends d d := fun _ _ h => h

theorem throw (e : ε) : Extends (throw e) d := by
  intro r p hrun
  cases hrun

theorem bind {f f' : α → Decoder ε β} (hd : Extends d d') (hf : ∀ v, Extends (f v) (f' v)) :
    Extends (d >>= f) (d' >>= f') := by
  rintro r ⟨b, r'⟩ hrun
  obtain ⟨v, t, hx, hrest⟩ := stateT_bind_ok.mp hrun
  exact stateT_bind_ok.mpr ⟨v, t, hd r (v, t) hx, hf v t (b, r') hrest⟩

theorem times (hd : Extends d d') (k : Nat) : Extends (d.times k) (d'.times k) := by
  induction k with
  | zero => exact refl _
  | succ k ih => exact hd.bind fun x => ih.bind fun xs => refl _

theorem reads {pre bytes : List UInt8} {v : α} (h : Extends d d') (hd : Reads d pre bytes v) : Reads d' pre bytes v :=
  fun post => h _ _ (hd post)

end Extends

/-! ### Spots -/

/-- The run of `d` from `r` to `r'` moves over a slot that holds `old`. With another value of that width there, `d`
reads `v` of the value, and `s` answers `answer` of the place. -/
def Spot (d : Decoder ε α) (s : Decoder ε β) (v : List UInt8 → α) (old : List UInt8) (answer : Nat → β)
    (r r' : Reader) : Prop :=
  ∃ pre front back post, r = ⟨pre ++ (front ++ old ++ back) ++ post, pre.length⟩ ∧
    r' = ⟨pre ++ (front ++ old ++ back) ++ post, (pre ++ (front ++ old ++ back)).length⟩ ∧
    ∀ pre' value : List UInt8, pre'.length = pre.length → value.length = old.length →
      Reads d pre' (front ++ value ++ back) (v value) ∧
      Finds s pre' (front ++ value ++ back) (answer (pre'.length + front.length))

namespace Spot

variable {d : Decoder ε α} {s : Decoder ε β} {v : List UInt8 → α} {old : List UInt8} {answer : Nat → β}
  {r r' t : Reader}

theorem inside (h : Spot d s v old answer r r') : r'.pos ≤ r'.buf.length := by
  obtain ⟨pre, front, back, post, rfl, rfl, -⟩ := h
  exact (List.prefix_append (pre ++ (front ++ old ++ back)) post).length_le

theorem after {c c' : Decoder ε γ} {x : γ} {f : γ → Decoder ε α} {g : γ → Decoder ε β} (hc : Took c x r t)
    (hext : Extends c c') (h : Spot (f x) (g x) v old answer t r') : Spot (c >>= f) (c' >>= g) v old answer r r' := by
  obtain ⟨pre, bytes, post, rfl, rfl, hreads⟩ := hc
  obtain ⟨pre₂, front, back, post₂, hbuf, rfl, hall⟩ := h
  rw [Reader.mk.injEq, List.append_assoc pre₂] at hbuf
  obtain ⟨rfl, rfl⟩ := append_meet hbuf.1 hbuf.2
  refine ⟨pre, bytes ++ front, back, post₂, ?_, ?_, fun pre' value hpre hvalue => ?_⟩
  · simp only [List.append_assoc]
  · simp only [List.append_assoc]
  · have hnext : (pre' ++ bytes).length = (pre ++ bytes).length := by
      rw [List.length_append, List.length_append, hpre]
    obtain ⟨hd, hs⟩ := hall (pre' ++ bytes) value hnext hvalue
    have hplace : (pre' ++ bytes).length + front.length = pre'.length + (bytes ++ front).length := by
      simp only [List.length_append]
      omega
    have hsplit : bytes ++ front ++ value ++ back = bytes ++ (front ++ value ++ back) := by
      simp only [List.append_assoc]
    rw [hsplit, ← hplace]
    exact ⟨(hreads pre' hpre).bind hd, hs.bind (hext.reads (hreads pre' hpre))⟩

/-- The decoder may ask where it stands. -/
theorem position {f : Nat → Decoder ε α} (h : Spot (f r.pos) s v old answer r r') :
    Spot (Decoder.position >>= f) s v old answer r r' := by
  obtain ⟨pre, front, back, post, rfl, rfl, hall⟩ := h
  refine ⟨pre, front, back, post, rfl, rfl, fun pre' value hpre hvalue => ?_⟩
  obtain ⟨hd, hs⟩ := hall pre' value hpre hvalue
  refine ⟨?_, hs⟩
  have hplace : Reads (f pre'.length) (pre' ++ []) (front ++ value ++ back) (v value) := by
    rw [hpre, List.append_nil]
    exact hd
  exact (Reads.position pre').bind hplace

theorem before {rest : Decoder ε γ} {y : γ} {g : α → γ → δ} {f : α → Decoder ε δ} (h : Spot d s v old answer r t)
    (hrest : Took rest y t r') (hf : ∀ x, f x = rest >>= fun y => Pure.pure (g x y)) :
    Spot (d >>= f) s (fun value => g (v value) y) old answer r r' := by
  obtain ⟨pre, front, back, post, rfl, rfl, hall⟩ := h
  obtain ⟨pre₂, bytes, post₂, hbuf, rfl, hreads⟩ := hrest
  rw [Reader.mk.injEq, List.append_assoc pre₂] at hbuf
  obtain ⟨rfl, rfl⟩ := append_meet hbuf.1 hbuf.2
  refine ⟨pre, front, back ++ bytes, post₂, ?_, ?_, fun pre' value hpre hvalue => ?_⟩
  · simp only [List.append_assoc]
  · simp only [List.append_assoc]
  · obtain ⟨hd, hs⟩ := hall pre' value hpre hvalue
    have hnext : (pre' ++ (front ++ value ++ back)).length = (pre ++ (front ++ old ++ back)).length := by
      simp only [List.length_append, hpre, hvalue]
    have hsplit : front ++ value ++ (back ++ bytes) = front ++ value ++ back ++ bytes := by
      simp only [List.append_assoc]
    rw [hsplit]
    refine ⟨hd.bind ?_, hs.extend bytes⟩
    rw [hf]
    have hlast : Reads (rest >>= fun y => Pure.pure (g (v value) y)) _ (bytes ++ []) _ :=
      (hreads _ hnext).bind (Reads.pure _ (g (v value) y))
    rwa [List.append_nil] at hlast

theorem map (h : Spot d s v old answer r r') (g : α → δ) :
    Spot (d >>= fun x => Pure.pure (g x)) s (fun value => g (v value)) old answer r r' :=
  before (g := fun x _ => g x) h (Took.pure () h.inside) fun _ => rfl

theorem none_here {x : α} {b : β} (h : Took d x r r') (hs : ∀ pre bytes, Reads d pre bytes x → Finds s pre bytes b) :
    Spot d s (fun _ => x) [] (fun _ => b) r r' := by
  obtain ⟨pre, bytes, post, rfl, rfl, hreads⟩ := h
  refine ⟨pre, bytes, [], post, by simp, by simp, fun pre' value hpre hvalue => ?_⟩
  obtain rfl : value = [] := List.eq_nil_of_length_eq_zero hvalue
  simp only [List.append_nil]
  exact ⟨hreads pre' hpre, hs pre' bytes (hreads pre' hpre)⟩

/-- From the start of a buffer. -/
theorem run {bytes : List UInt8} (h : Spot d s v old answer ⟨bytes, 0⟩ r') :
    ∃ front back, bytes = front ++ old ++ back ∧
    ∀ value : List UInt8, value.length = old.length → d.run (front ++ value ++ back) = .ok (v value) ∧
      s.run (front ++ value ++ back) = .ok (answer front.length) := by
  obtain ⟨pre, front, back, post, hr, -, hall⟩ := h
  rw [Reader.mk.injEq] at hr
  obtain rfl : pre = [] := List.eq_nil_of_length_eq_zero hr.2.symm
  refine ⟨front, back ++ post, ?_, fun value hvalue => ?_⟩
  · rw [hr.1]
    simp only [List.nil_append, List.append_assoc]
  · obtain ⟨hd, hs⟩ := hall [] value rfl hvalue
    have hbuf : front ++ value ++ (back ++ post) = [] ++ (front ++ value ++ back) ++ post := by
      simp only [List.nil_append, List.append_assoc]
    obtain ⟨stop, hstop⟩ := hs post
    rw [List.length_nil, Nat.zero_add] at hstop
    constructor
    · rw [hbuf, Decoder.run]
      show (d ⟨[] ++ (front ++ value ++ back) ++ post, ([] : List UInt8).length⟩).map (·.1) = _
      rw [hd post]
      rfl
    · rw [hbuf, Decoder.run, hstop]
      rfl

end Spot

end BStackRaii
