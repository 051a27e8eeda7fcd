import BStackRaii.Logic.Chain
import BStackRaii.Proof.LinkedList
/-!
# Walks along corrupt links

The walks along a list count down from its stored length, whatever its links say. So they end. A teardown that
frees as it goes has met some nodes by then, and it has met one of them twice when the links lead back to it
before the count is used up. A WAL-backed teardown frees only once the walk has reached the end of the chain,
and a chain that ends has no cycle.
-/

namespace BStackRaii

namespace BStackLinkedList

theorem readU64_any (k off : Nat) {I : File → Prop} {C : World → Prop} :
    Prog.Spec (fun w => I (w.files k)) (readU64 k off)
      (fun v w => I (w.files k) ∧ off + 8 ≤ (w.files k).len ∧ v = (w.files k).bytes.word off)
      (fun _ w => I (w.files k)) C := by
  apply Prog.Spec.bind (Q := fun b w => I (w.files k) ∧ off + 8 ≤ (w.files k).len ∧ b = (w.files k).bytes.read off 8)
  · apply Prog.Spec.volatile
    · intro w b t hw ht
      split at ht
      · cases ht
      · split at ht
        · rename_i hin
          cases ht
          exact ⟨hw, hin, rfl⟩
        · cases ht
    · intro w e t hw ht
      split at ht
      · cases ht
        exact hw
      · split at ht
        · cases ht
        · cases ht
          exact hw
  · intro b
    apply Prog.Spec.pure
    rintro w ⟨hw, hin, rfl⟩
    exact ⟨hw, hin, rfl⟩

/-! ### The nodes of a walk -/

def next (f : File) (x : Nat) : Nat := f.bytes.word (x + NNEXT_OFF)

/-- The nodes met from `cur` on, at most `n` of them: up to a null link, or a link out of the file. -/
def nodesFrom (f : File) : Nat → Nat → List Nat
  | 0, _ => []
  | n + 1, cur => if cur ≠ 0 ∧ cur + NODE_SIZE ≤ f.len then cur :: nodesFrom f n (next f cur) else []

/-- The nodes that a walk meets before its count is used up. -/
def visited (f : File) (list : Nat) : List Nat :=
  if list + LIST_SIZE ≤ f.len then nodesFrom f (f.bytes.word (list + LEN_OFF)) (f.bytes.word (list + HEAD_OFF)) else []

/-- Code that a teardown calls: it writes no link of the walk, and does not lengthen the file. -/
structure Spares (k : Nat) (nodes : List Nat) (c : Io Unit) : Prop where
  len : ∀ w, ((c w).final.files k).len ≤ (w.files k).len
  links : ∀ w, ∀ x ∈ nodes, next ((c w).final.files k) x = next (w.files k) x

theorem spares_pure (k : Nat) (nodes : List Nat) :
    Spares k nodes (pure ()) := ⟨fun _ => Nat.le_refl _, fun _ _ _ => rfl⟩

/-- The file has the links of `f` at `nodes`. -/
def Agrees (f : File) (nodes : List Nat) (g : File) : Prop := g.len ≤ f.len ∧ ∀ x ∈ nodes, next g x = next f x

section Teardown

variable {a : Allocator} {f : File} {nodes asked : List Nat} {list n cur : Nat} {dropValue : Nat → Io Unit}
  {free : Range → Io Unit}

theorem Spares.spec {c : Io Unit} (h : Spares a.stack nodes c) :
    Prog.Spec (fun s : List Nat × World => s.1 = asked ∧ Agrees f nodes (s.2.files a.stack)) (Prog.onSnd c)
      (fun _ s => s.1 = asked ∧ Agrees f nodes (s.2.files a.stack))
      (fun _ s => s.1 = asked ∧ Agrees f nodes (s.2.files a.stack)) fun _ => True := by
  have hkeeps : ∀ w, Agrees f nodes (w.files a.stack) → Agrees f nodes ((c w).final.files a.stack) := fun w hw =>
    ⟨Nat.le_trans (h.len w) hw.1, fun x hx => (h.links w x hx).trans (hw.2 x hx)⟩
  rintro ⟨nodes, w⟩ ⟨rfl, hw⟩
  exact ⟨fun _ _ => ⟨rfl, hkeeps w hw⟩, fun _ _ => ⟨rfl, hkeeps w hw⟩, fun _ _ => trivial⟩

theorem read_spec (off : Nat) :
    Prog.Spec (fun s : List Nat × World => s.1 = asked ∧ Agrees f nodes (s.2.files a.stack))
      (Prog.onSnd (readU64 a.stack off))
      (fun v s => (s.1 = asked ∧ Agrees f nodes (s.2.files a.stack)) ∧ off + 8 ≤ f.len ∧
        v = (s.2.files a.stack).bytes.word off)
      (fun _ s => s.1 = asked ∧ Agrees f nodes (s.2.files a.stack)) fun _ => True := by
  have hread := Prog.Spec.onSnd (readU64_any a.stack off (I := Agrees f nodes) (C := fun _ => True))
    fun nodes => nodes = asked
  refine hread.weaken (fun _ hs => hs) (fun v s hs => ?_) (fun _ _ hs => hs) fun _ _ => trivial
  obtain ⟨hasked, hagrees, hin, hv⟩ := hs
  exact ⟨⟨hasked, hagrees⟩, Nat.le_trans hin hagrees.1, hv⟩

/-- The nodes handed out so far, and some more of the walk. -/
def Further (asked walk : List Nat) (s : List Nat × World) : Prop := ∃ p, s.1 = asked ++ p ∧ p <+: walk

theorem further_none {walk : List Nat} {s : List Nat × World} (h : s.1 = asked) : Further asked walk s :=
  ⟨[], by rw [h, List.append_nil], List.nil_prefix⟩

theorem nodesFrom_stop (h : cur = 0 ∨ f.len < cur + NODE_SIZE) : nodesFrom f n cur = [] := by
  cases n with
  | zero => rfl
  | succ n =>
      refine if_neg fun hgo => ?_
      cases h with
      | inl hzero => exact hgo.1 hzero
      | inr hout => exact Nat.not_lt.mpr hgo.2 hout

theorem dropFrom_outside (hne : cur ≠ 0) (hout : f.len < cur + NODE_SIZE) :
    Prog.Spec (fun s : List Nat × World => s.1 = asked ∧ Agrees f nodes (s.2.files a.stack))
      (dropFrom a dropValue free (n + 1) cur) (fun _ _ => False) (fun _ s => s.1 = asked) fun _ => True := by
  have hsize : NODE_SIZE = 40 := rfl
  have hval : NVAL_OFF = 32 := rfl
  have hkept : ∀ (e : IoError) (s : List Nat × World), s.1 = asked ∧ Agrees f nodes (s.2.files a.stack) → s.1 = asked :=
    fun _ _ hs => hs.1
  rw [dropFrom, if_neg hne]
  apply Prog.Spec.bind (Q := fun _ s => s.1 = asked ∧ Agrees f nodes (s.2.files a.stack))
  · cases checkedOff cur NNEXT_OFF with
    | ok off => exact Prog.Spec.pure fun _ hs => hs
    | error e => exact Prog.Spec.fail fun _ hs => hs.1
  intro nextOff
  apply Prog.Spec.bind (((read_spec nextOff).onError hkept).weaken (fun _ hs => hs) (fun _ _ hs => hs.1)
    (fun _ _ hs => hs) fun _ h => h)
  intro next
  cases hcheck : checkedOff cur NVAL_OFF with
  | error e =>
      rw [Prog.lift_error]
      exact Prog.Spec.bind (Q := fun _ _ => False) (Prog.Spec.fail fun _ hs => hs.1) fun _ _ hs => hs.elim
  | ok off =>
      have hoff : off = cur + NVAL_OFF := by
        rw [checkedOff] at hcheck
        split at hcheck
        · exact (Except.ok.inj hcheck).symm
        · cases hcheck
      rw [Prog.lift_ok, pure_bind]
      refine Prog.Spec.bind (Q := fun _ _ => False)
        ((read_spec off).weaken (fun _ hs => hs) (fun v s hs => ?_) hkept fun _ h => h)
        fun _ _ hs => hs.elim
      obtain ⟨-, hin, -⟩ := hs
      omega

/-- The step lemma. A teardown hands out the nodes of the walk in order, and all of them if the chain ends. -/
theorem dropFrom_spec (hdrop : ∀ v, Spares a.stack nodes (dropValue v)) (hfree : ∀ r, Spares a.stack nodes (free r))
    (hsub : nodesFrom f n cur ⊆ nodes) :
    Prog.Spec (fun s : List Nat × World => s.1 = asked ∧ Agrees f nodes (s.2.files a.stack))
      (dropFrom a dropValue free n cur)
      (fun _ s => s.1 = asked ++ nodesFrom f n cur ∧ Chain.Reaches (next f) 0 cur (nodesFrom f n cur))
      (fun _ s => Further asked (nodesFrom f n cur) s) fun _ => True := by
  induction n generalizing cur asked with
  | zero =>
      rw [dropFrom]
      split
      · rename_i hzero
        exact Prog.Spec.pure fun s hs => ⟨by rw [nodesFrom, List.append_nil, hs.1], hzero⟩
      · exact Prog.Spec.fail fun s hs => further_none hs.1
  | succ n ih =>
      by_cases hzero : cur = 0
      · rw [dropFrom, if_pos hzero, nodesFrom_stop (.inl hzero)]
        exact Prog.Spec.pure fun s hs => ⟨by rw [List.append_nil, hs.1], hzero⟩
      by_cases hout : f.len < cur + NODE_SIZE
      · rw [nodesFrom_stop (.inr hout)]
        exact (dropFrom_outside hzero hout).weaken (fun _ hs => hs) (fun _ _ hs => hs.elim)
          (fun _ _ hs => further_none hs)
          fun _ h => h
      have hnodes : nodesFrom f (n + 1) cur = cur :: nodesFrom f n (next f cur) := if_pos ⟨hzero, Nat.not_lt.mp hout⟩
      have hkept : ∀ (e : IoError) (s : List Nat × World), s.1 = asked ∧ Agrees f nodes (s.2.files a.stack) →
          Further asked (cur :: nodesFrom f n (next f cur)) s := fun _ _ hs => further_none hs.1
      have hsize : NODE_SIZE = 40 := rfl
      have hnextOff : NNEXT_OFF = 24 := rfl
      have hvalOff : NVAL_OFF = 32 := rfl
      have haddr := f.addressable
      rw [hnodes] at hsub ⊢
      rw [dropFrom, if_neg hzero, checkedOff_ok (by omega), checkedOff_ok (by omega)]
      simp only [Prog.lift_ok, pure_bind]
      -- the link is read before anything is freed
      have hlink : Prog.Spec (fun s : List Nat × World => s.1 = asked ∧ Agrees f nodes (s.2.files a.stack))
          (Prog.onSnd (readU64 a.stack (cur + NNEXT_OFF)))
          (fun v s => v = next f cur ∧ s.1 = asked ∧ Agrees f nodes (s.2.files a.stack))
          (fun _ s => Further asked (cur :: nodesFrom f n (next f cur)) s) fun _ => True := by
        refine (read_spec (cur + NNEXT_OFF)).weaken (fun _ hs => hs) (fun v s hs => ?_) hkept fun _ h => h
        exact ⟨hs.2.2.trans (hs.1.2.2 cur (hsub List.mem_cons_self)), hs.1⟩
      apply Prog.Spec.bind_value hlink
      apply Prog.Spec.bind ((read_spec (cur + NVAL_OFF)).weaken (fun _ hs => hs) (fun _ _ hs => hs.1) hkept
        fun _ h => h)
      intro val
      have hvalue : Spares a.stack nodes (if val ≠ 0 then dropValue val else pure ()) := by
        split
        · exact hdrop val
        · exact spares_pure _ _
      apply Prog.Spec.bind (hvalue.spec.onError hkept)
      intro _
      apply Prog.Spec.bind (Q := fun _ s => s.1 = asked ++ [cur] ∧ Agrees f nodes (s.2.files a.stack))
        (Prog.Spec.onFst fun s hs => ⟨by rw [hs.1], hs.2⟩)
      intro _
      apply Prog.Spec.bind ((hfree _).spec.onError fun _ s hs => ⟨[cur], hs.1, List.prefix_append [cur] _⟩)
      intro _
      refine (ih fun x hx => hsub (List.mem_cons_of_mem cur hx)).weaken (fun _ hs => hs) (fun _ s hs => ?_)
        (fun _ s hs => ?_) fun _ h => h
      · rw [hs.1, List.append_assoc, List.singleton_append]
        exact ⟨rfl, rfl, hzero, hs.2⟩
      · obtain ⟨p, hp, hprefix⟩ := hs
        exact ⟨cur :: p, by rw [hp, List.append_assoc, List.singleton_append], (List.prefix_cons_inj cur).mpr hprefix⟩

/-- From an unchanged file, a teardown that succeeds has handed out each of its nodes once. -/
theorem dropFrom_once (hdrop : ∀ v, Spares a.stack (nodesFrom f n cur) (dropValue v))
    (hfree : ∀ r, Spares a.stack (nodesFrom f n cur) (free r)) :
    Prog.Spec (fun s : List Nat × World => s.1 = [] ∧ s.2.files a.stack = f) (dropFrom a dropValue free n cur)
      (fun _ s => s.1.Nodup) (fun _ s => s.1 <+: nodesFrom f n cur) fun _ => True := by
  refine (dropFrom_spec hdrop hfree fun _ hx => hx).weaken (fun s hs => ⟨hs.1, ?_⟩) (fun _ s hs => ?_)
    (fun _ s hs => ?_) fun _ h => h
  · rw [hs.2]
    exact ⟨Nat.le_refl _, fun _ _ => rfl⟩
  · rw [hs.1, List.nil_append]
    exact hs.2.nodup
  · obtain ⟨p, hp, hprefix⟩ := hs
    rw [hp, List.nil_append]
    exact hprefix

theorem dropChildren_rule {P : List Nat × World → Prop} {Q : Unit → List Nat × World → Prop}
    {E : IoError → List Nat × World → Prop}
    (hread : ∀ off, off = list + HEAD_OFF ∨ off = list + LEN_OFF → Prog.Spec P (Prog.onSnd (readU64 a.stack off))
      (fun v s => P s ∧ off + 8 ≤ f.len ∧ v = f.bytes.word off) E fun _ => True)
    (hbody : list + LIST_SIZE ≤ f.len →
      Prog.Spec P (dropFrom a dropValue free (f.bytes.word (list + LEN_OFF)) (f.bytes.word (list + HEAD_OFF))) Q E
        fun _ => True) :
    Prog.Spec P (dropChildren a list dropValue free) Q E fun _ => True := by
  rw [dropChildren]
  apply (hread (list + HEAD_OFF) (.inl rfl)).bind
  intro cur s hs
  obtain ⟨hs, -, rfl⟩ := hs
  refine Prog.Spec.bind (hread (list + LEN_OFF) (.inr rfl)) (fun remaining t ht => ?_) s hs
  obtain ⟨ht, hin, rfl⟩ := ht
  exact hbody hin t ht

theorem visited_eq (hin : list + LIST_SIZE ≤ f.len) :
    visited f list = nodesFrom f (f.bytes.word (list + LEN_OFF)) (f.bytes.word (list + HEAD_OFF)) := if_pos hin

/-- The run lemma. -/
theorem dropChildren_spec (hdrop : ∀ v, Spares a.stack (visited f list) (dropValue v))
    (hfree : ∀ r, Spares a.stack (visited f list) (free r)) :
    Prog.Spec (fun s : List Nat × World => s.1 = [] ∧ s.2.files a.stack = f) (dropChildren a list dropValue free)
      (fun _ s => s.1.Nodup) (fun _ s => s.1 <+: visited f list) fun _ => True := by
  apply dropChildren_rule (f := f)
  · rintro off - ⟨asked, w⟩ ⟨rfl, rfl⟩
    obtain ⟨hok, herr, -⟩ := readU64_any a.stack off (I := fun g => g = w.files a.stack) (C := fun _ => True) w rfl
    refine ⟨fun v hv => ?_, fun e he => List.nil_prefix, fun _ _ => trivial⟩
    obtain ⟨hsame, hin, hval⟩ := hok v hv
    exact ⟨⟨rfl, hsame⟩, hsame ▸ hin, hsame ▸ hval⟩
  · intro hin
    rw [visited_eq hin] at hdrop hfree ⊢
    exact dropFrom_once hdrop hfree

/-! ### A teardown that nothing disturbs -/

section Quiet

variable {w : World} (hq : w.Quiet) (hw : w.files a.stack = f)
include hq hw

theorem read_quiet (off : Nat) :
    Prog.Spec (fun s : List Nat × World => s = (asked, w)) (Prog.onSnd (readU64 a.stack off))
      (fun v s => s = (asked, w) ∧ off + 8 ≤ f.len ∧ v = f.bytes.word off)
      (fun _ s => s = (asked, w) ∧ ¬ off + 8 ≤ f.len) fun _ => True := by
  rintro s rfl
  by_cases hin : off + 8 ≤ f.len
  · have hrun := readU64_run hq (hw ▸ hin : off + 8 ≤ (w.files a.stack).len)
    rw [Prog.onSnd, hrun]
    refine ⟨fun v hv => ?_, fun e he => (by cases he), fun _ _ => trivial⟩
    cases hv
    exact ⟨rfl, hin, by rw [hw]⟩
  · have hrun : readU64 a.stack off w = ⟨.error outOfBounds, w, []⟩ := by
      rw [readU64]
      apply Prog.bind_of_error
      simp only [getInto, Prog.volatile_apply, if_neg hq.not_faulty, hw, if_neg hin, hq.tick_eq]
    rw [Prog.onSnd, hrun]
    exact ⟨fun v hv => (by cases hv), fun e he => ⟨rfl, hin⟩, fun _ _ => trivial⟩

/-- A teardown hands out every node of the walk. -/
theorem dropFrom_quiet : Prog.Spec (fun s : List Nat × World => s = (asked, w))
    (dropFrom a (fun _ => pure ()) (fun _ => pure ()) n cur) (fun _ s => s.1 = asked ++ nodesFrom f n cur)
    (fun _ s => s.1 = asked ++ nodesFrom f n cur) fun _ => True := by
  induction n generalizing cur asked with
  | zero =>
      rw [dropFrom, nodesFrom, List.append_nil]
      split
      · exact Prog.Spec.pure fun s hs => by rw [hs]
      · exact Prog.Spec.fail fun s hs => by rw [hs]
  | succ n ih =>
      have hsize : NODE_SIZE = 40 := rfl
      have hnextOff : NNEXT_OFF = 24 := rfl
      have hvalOff : NVAL_OFF = 32 := rfl
      have haddr := f.addressable
      by_cases hzero : cur = 0
      · rw [dropFrom, if_pos hzero, nodesFrom_stop (.inl hzero), List.append_nil]
        exact Prog.Spec.pure fun s hs => by rw [hs]
      by_cases hout : f.len < cur + NODE_SIZE
      · rw [nodesFrom_stop (.inr hout), List.append_nil]
        have hstart : ∀ s : List Nat × World, s = (asked, w) → s.1 = asked ∧ Agrees f [] (s.2.files a.stack) := by
          rintro s rfl
          exact ⟨rfl, hw ▸ Nat.le_refl _, fun _ hx => absurd hx List.not_mem_nil⟩
        exact (dropFrom_outside hzero hout).weaken hstart (fun _ _ hs => hs.elim) (fun _ _ hs => hs) fun _ h => h
      have hnodes : nodesFrom f (n + 1) cur = cur :: nodesFrom f n (next f cur) := if_pos ⟨hzero, Nat.not_lt.mp hout⟩
      rw [hnodes, dropFrom, if_neg hzero, checkedOff_ok (by omega), checkedOff_ok (by omega)]
      simp only [Prog.lift_ok, pure_bind, ite_self]
      have hlink : Prog.Spec (fun s : List Nat × World => s = (asked, w))
        (Prog.onSnd (readU64 a.stack (cur + NNEXT_OFF)))
          (fun v s => v = next f cur ∧ s = (asked, w)) (fun _ s => s.1 = asked ++ cur :: nodesFrom f n (next f cur))
          fun _ => True :=
        (read_quiet hq hw (cur + NNEXT_OFF)).weaken (fun _ hs => hs) (fun v s hs => ⟨hs.2.2, hs.1⟩)
          (fun _ s hs => absurd (by omega) hs.2) fun _ h => h
      apply Prog.Spec.bind_value hlink
      apply Prog.Spec.bind (Q := fun _ s => s = (asked, w))
      · refine (read_quiet hq hw (cur + NVAL_OFF)).weaken (fun _ hs => hs) (fun v s hs => hs.1)
          (fun _ s hs => absurd (by omega) hs.2) fun _ h => h
      intro val
      apply Prog.Spec.bind (Q := fun _ s => s = (asked, w))
      · rintro s rfl
        exact ⟨fun _ _ => rfl, fun e he => (by cases he), fun _ _ => trivial⟩
      intro _
      apply Prog.Spec.bind (Q := fun _ s => s = (asked ++ [cur], w)) (Prog.Spec.onFst fun s hs => by rw [hs])
      intro _
      apply Prog.Spec.bind (Q := fun _ s => s = (asked ++ [cur], w))
      · rintro s rfl
        exact ⟨fun _ _ => rfl, fun e he => (by cases he), fun _ _ => trivial⟩
      intro _
      have hsplit : asked ++ cur :: nodesFrom f n (next f cur) = (asked ++ [cur]) ++ nodesFrom f n (next f cur) := by
        rw [List.append_assoc, List.singleton_append]
      rw [hsplit]
      exact ih

theorem dropChildren_quiet :
    (dropChildren a list (fun _ => pure ()) (fun _ => pure ()) ([], w)).final.1 = visited f list := by
  have hsize : LIST_SIZE = 40 := rfl
  have hhead : HEAD_OFF = 16 := rfl
  have hlen : LEN_OFF = 32 := rfl
  have hspec : Prog.Spec (fun s : List Nat × World => s = ([], w))
    (dropChildren a list (fun _ => pure ()) (fun _ => pure ()))
      (fun _ s => s.1 = visited f list) (fun _ s => s.1 = visited f list) fun _ => True := by
    apply dropChildren_rule (f := f)
    · intro off hoff
      refine (read_quiet hq hw off).onError fun _ s hs => ?_
      have hout : ¬ list + LIST_SIZE ≤ f.len := fun hin => hs.2 (by omega)
      rw [visited, if_neg hout, hs.1]
    · intro hin
      rw [visited_eq hin]
      exact (dropFrom_quiet hq hw).weaken (fun _ hs => hs) (fun _ _ hs => by rw [hs, List.nil_append])
        (fun _ _ hs => by rw [hs, List.nil_append]) fun _ h => h
  obtain ⟨hok, herr, -⟩ := hspec ([], w) rfl
  cases hout : (dropChildren a list (fun _ => pure ()) (fun _ => pure ()) ([], w)).out with
  | ok _ => exact hok _ hout
  | error e => exact herr e hout

end Quiet

end Teardown

/-! ### The counts -/

section Counts

variable {a : Allocator} {list n cur : Nat} {P : World → Prop}

theorem any_spec {σ α : Type} (c : Prog IoError σ α) :
    Prog.Spec (fun _ => True) c (fun _ _ => True) (fun _ _ => True) fun _ => True :=
  fun _ _ => ⟨fun _ _ => trivial, fun _ _ => trivial, fun _ _ => trivial⟩

/-- A walk that yields no more than `n` values. -/
def Counts {β : Type} (n : Nat) (c : Io (List β)) : Prop :=
  Prog.Spec (fun _ => True) c (fun vs _ => vs.length ≤ n) (fun _ _ => True) fun _ => True

theorem Counts.nil {β : Type} : Counts n (pure [] : Io (List β)) := Prog.Spec.pure fun _ _ => Nat.zero_le _

theorem Counts.fail {β : Type} (e : IoError) : Counts n (Prog.fail e : Io (List β)) := Prog.Spec.fail fun _ _ => trivial

theorem Counts.after {α β : Type} {c : Io α} {f : α → Io (List β)} (h : ∀ x, Counts n (f x)) : Counts n (c >>= f) :=
  Prog.Spec.bind (any_spec c) h

theorem Counts.cons {β : Type} {c : Io (List β)} (h : Counts n c) (v : β) :
    Counts (n + 1) (c >>= fun rest => pure (v :: rest)) :=
  h.bind fun _ => Prog.Spec.pure fun _ hrest => Nat.succ_le_succ hrest

theorem toVecFrom_count : Counts n (toVecFrom a n cur) := by
  induction n generalizing cur with
  | zero =>
      rw [toVecFrom]
      split
      · exact .nil
      · exact .fail _
  | succ n ih =>
      rw [toVecFrom]
      split
      · exact .nil
      · exact .after fun off => .after fun fields => ih.cons _

theorem gatherFrom_count : Counts n (gatherFrom a n cur) := by
  induction n generalizing cur with
  | zero =>
      rw [gatherFrom]
      split
      · exact .nil
      · exact .fail _
  | succ n ih =>
      rw [gatherFrom]
      split
      · exact .nil
      · exact .after fun valOff => .after fun val => .after fun nextOff => .after fun next => ih.cons _

theorem counted {β : Type} {k first second : Nat} {f : File} {body : Nat → Nat → Io (List β)}
    (hbody : ∀ cur n, Counts n (body cur n))
    {w : World} (hw : w.files k = f) {vs : List β}
    (hout : ((do
      let cur ← readU64 k first
      let n ← readU64 k second
      body cur n) w).out = .ok vs) : vs.length ≤ f.bytes.word second := by
  have hspec : Prog.Spec (fun w : World => w.files k = f) (do
      let cur ← readU64 k first
      let n ← readU64 k second
      body cur n) (fun vs _ => vs.length ≤ f.bytes.word second) (fun _ _ => True) fun _ => True := by
    apply Prog.Spec.bind (Q := fun _ w => w.files k = f)
    · exact (readU64_any _ _ (I := fun g => g = f)).weaken (fun _ h => h) (fun _ _ h => h.1) (fun _ _ _ => trivial)
        fun _ h => h
    intro cur
    apply Prog.Spec.bind (readU64_any _ _ (I := fun g => g = f) |>.onError fun _ _ _ => trivial)
    rintro n w ⟨rfl, -, rfl⟩
    exact hbody cur _ w trivial
  exact (hspec w hw).1 vs hout

/-- An iteration ends after one call more than it counts. -/
theorem drain_ends (it : ListIter) {calls : Nat} (h : it.remaining < calls) :
    it.drain a calls = it.drain a (it.remaining + 1) := by
  obtain ⟨blockOff, len0, cur, remaining⟩ := it
  replace h : remaining < calls := h
  show ListIter.drain a calls _ = ListIter.drain a (remaining + 1) _
  induction remaining generalizing cur calls with
  | zero =>
      obtain ⟨m, rfl⟩ := Nat.exists_eq_add_of_le' h
      simp only [ListIter.drain, ListIter.next]
      split
      · simp only [pure_bind]
      · simp only [bind_assoc]
        congr 1
        funext len
        split
        · funext w
          rfl
        · funext w
          rfl
  | succ remaining ih =>
      obtain ⟨m, rfl⟩ := Nat.exists_eq_add_of_le' h
      rw [show m + (remaining + 1 + 1) = (m + (remaining + 1)) + 1 by omega]
      rw [ListIter.drain, ListIter.drain]
      simp only [ListIter.next]
      split
      · simp only [pure_bind]
      · simp only [bind_assoc]
        congr 1
        funext len
        split
        · funext w
          rfl
        · simp only [bind_assoc, pure_bind]
          congr 1
          funext off
          congr 1
          funext fields
          rw [ih (fields.getD 0 0) (by omega)]

theorem onSnd_count {β : Type} (c : Io β) (asked : List Nat) (m : Nat) :
    Prog.Spec (fun s : List Nat × World => s.1 = asked) (Prog.onSnd c) (fun _ s => s.1 = asked)
      (fun _ s => s.1.length ≤ asked.length + m) fun _ => True := by
  rintro s rfl
  exact ⟨fun _ _ => rfl, fun _ _ => Nat.le_add_right _ _, fun _ _ => trivial⟩

theorem lift_count (out : Except IoError Nat) (asked : List Nat) (m : Nat) :
    Prog.Spec (fun s : List Nat × World => s.1 = asked) (Prog.lift out) (fun _ s => s.1 = asked)
      (fun _ s => s.1.length ≤ asked.length + m) fun _ => True := by
  cases out with
  | ok x => exact Prog.Spec.pure fun _ hs => hs
  | error e => exact Prog.Spec.fail fun s hs => by rw [hs]; exact Nat.le_add_right _ _

/-- A teardown hands out no more nodes than it counts. -/
theorem dropFrom_count (dropValue : Nat → Io Unit) (free : Range → Io Unit) (asked : List Nat) :
    Prog.Spec (fun s : List Nat × World => s.1 = asked) (dropFrom a dropValue free n cur)
      (fun _ s => s.1.length ≤ asked.length + n) (fun _ s => s.1.length ≤ asked.length + n) fun _ => True := by
  induction n generalizing cur asked with
  | zero =>
      rw [dropFrom]
      split
      · exact Prog.Spec.pure fun s hs => by rw [hs]; exact Nat.le_refl _
      · exact Prog.Spec.fail fun s hs => by rw [hs]; exact Nat.le_refl _
  | succ n ih =>
      rw [dropFrom]
      split
      · exact Prog.Spec.pure fun s hs => by rw [hs]; exact Nat.le_add_right _ _
      · apply Prog.Spec.bind (lift_count _ _ _)
        intro nextOff
        apply Prog.Spec.bind (onSnd_count _ _ _)
        intro next
        apply Prog.Spec.bind (lift_count _ _ _)
        intro valOff
        apply Prog.Spec.bind (onSnd_count _ _ _)
        intro val
        apply Prog.Spec.bind (onSnd_count _ _ _)
        intro _
        apply Prog.Spec.bind (Q := fun _ s => s.1 = asked ++ [cur]) (Prog.Spec.onFst fun s hs => by rw [hs])
        intro _
        have hlen : (asked ++ [cur]).length + n = asked.length + (n + 1) := by
          rw [List.length_append, List.length_singleton]
          omega
        apply Prog.Spec.bind (Q := fun _ s => s.1 = asked ++ [cur])
        · rintro s hs
          refine ⟨fun _ _ => hs, fun _ _ => ?_, fun _ _ => trivial⟩
          show s.1.length ≤ _
          rw [hs, ← hlen]
          exact Nat.le_add_right _ _
        intro _
        rw [← hlen]
        exact ih _

theorem dropChildren_count {f : File} {dropValue : Nat → Io Unit} {free : Range → Io Unit} {w : World}
    (hw : w.files a.stack = f) :
    (dropChildren a list dropValue free ([], w)).final.1.length ≤ f.bytes.word (list + LEN_OFF) := by
  have hspec : Prog.Spec (fun s : List Nat × World => s.1 = [] ∧ s.2.files a.stack = f)
    (dropChildren a list dropValue free)
      (fun _ s => s.1.length ≤ f.bytes.word (list + LEN_OFF)) (fun _ s => s.1.length ≤ f.bytes.word (list + LEN_OFF))
      fun _ => True := by
    apply dropChildren_rule (f := f)
    · rintro off - ⟨asked, w⟩ ⟨rfl, rfl⟩
      obtain ⟨hok, -, -⟩ := readU64_any a.stack off (I := fun g => g = w.files a.stack) (C := fun _ => True) w rfl
      refine ⟨fun v hv => ?_, fun e he => Nat.zero_le _, fun _ _ => trivial⟩
      obtain ⟨hsame, hin, hval⟩ := hok v hv
      exact ⟨⟨rfl, hsame⟩, hsame ▸ hin, hsame ▸ hval⟩
    · intro _
      exact (dropFrom_count dropValue free []).weaken (fun _ hs => hs.1)
        (fun _ _ hs => Nat.le_trans hs (Nat.le_of_eq (Nat.zero_add _)))
        (fun _ _ hs => Nat.le_trans hs (Nat.le_of_eq (Nat.zero_add _))) fun _ h => h
  obtain ⟨hok, herr, -⟩ := hspec ([], w) ⟨rfl, hw⟩
  cases hout : (dropChildren a list dropValue free ([], w)).out with
  | ok _ => exact hok _ hout
  | error e => exact herr e hout

end Counts

/-! ### When the walks are safe -/

section Safe

variable (a : Allocator) (f : File) (list : Nat) (collects : Bool)

/-- The walks along a list end within the count that is stored in it, and no teardown frees a node twice. -/
structure WalksSafe : Prop where
  toVec : ∀ w vs, w.files a.stack = f → (BStackLinkedList.toVec a list w).out = .ok vs →
    vs.length ≤ f.bytes.word (list + LEN_OFF)
  clone : ∀ w vs, w.files a.stack = f → (gather a list w).out = .ok vs → vs.length ≤ f.bytes.word (list + LEN_OFF)
  iter : ∀ (it : ListIter) (calls : Nat), it.remaining < calls → it.drain a calls = it.drain a (it.remaining + 1)
  teardown : ∀ dropValue free w, w.files a.stack = f →
    (dropChildren a list dropValue free ([], w)).final.1.length ≤ f.bytes.word (list + LEN_OFF)
  once : ∀ dropValue free w, w.files a.stack = f → (∀ v, Spares a.stack (visited f list) (dropValue v)) →
    (∀ r, Spares a.stack (visited f list) (free r)) → (freedNodes a list collects dropValue free w).Nodup

variable {a f list collects}

/-- Every walk ends. A node is freed twice exactly when the frees are not collected and the links lead back to a
node before the count is used up. -/
theorem walks_safe_iff : WalksSafe a f list collects ↔ collects = true ∨ (visited f list).Nodup := by
  constructor
  · intro h
    cases collects with
    | true => exact .inl rfl
    | false =>
        have honce := h.once (fun _ => pure ()) (fun _ => pure ()) ((World.blank []).setFile a.stack f)
          (World.files_setFile_same ..) (fun _ => spares_pure _ _) fun _ => spares_pure _ _
        have hfreed : freedNodes a list false (fun _ => pure ()) (fun _ => pure ())
          ((World.blank []).setFile a.stack f) =
            visited f list := dropChildren_quiet rfl (World.files_setFile_same ..)
        exact .inr (hfreed ▸ honce)
  · intro h
    refine ⟨fun w vs hw hout => counted (fun _ _ => toVecFrom_count) hw hout, fun w vs hw hout =>
      counted (fun _ _ => gatherFrom_count) hw hout, fun it calls hcalls => drain_ends it hcalls,
      fun _ _ w hw => dropChildren_count hw, fun dropValue free w hw hdrop hfree => ?_⟩
    cases collects with
    | true =>
        obtain ⟨hok, -, -⟩ := dropChildren_spec hdrop (fun _ => spares_pure _ _) ([], w) ⟨rfl, hw⟩
        rw [freedNodes, if_pos rfl]
        cases hout : (dropChildren a list dropValue (fun _ => pure ()) ([], w)).out with
        | ok _ => exact hok _ hout
        | error e => exact List.nodup_nil
    | false =>
        obtain ⟨hok, herr, -⟩ := dropChildren_spec hdrop hfree ([], w) ⟨rfl, hw⟩
        have hnodup : (visited f list).Nodup := h.resolve_left Bool.false_ne_true
        show (dropChildren a list dropValue free ([], w)).final.1.Nodup
        cases hout : (dropChildren a list dropValue free ([], w)).out with
        | ok _ => exact hok _ hout
        | error e => exact hnodup.sublist (herr e hout).sublist

/-- One node that links to itself, in a list that counts two. -/
def cyclic : World := (oneNode.store 0 (100 + NNEXT_OFF) (leBytes 8 100)).store 0 (16 + LEN_OFF) (leBytes 8 2)

/-- A teardown without a transaction frees that node twice. -/
theorem cyclic_freed_twice :
    freedNodes oneAllocator 16 false (fun _ => pure ()) (deallocRange oneAllocator) cyclic = [100, 100] ∧
      ¬ WalksSafe oneAllocator (cyclic.files 0) 16 false := by
  have hfreed : freedNodes oneAllocator 16 false (fun _ => pure ()) (deallocRange oneAllocator) cyclic =
    [100, 100] := by
    decide +kernel
  refine ⟨hfreed, fun hsafe => ?_⟩
  have honce := hsafe.once (fun _ => pure ()) (fun _ => pure ()) cyclic rfl (fun _ => spares_pure _ _) fun _ =>
    spares_pure _ _
  have hagain : freedNodes oneAllocator 16 false (fun _ => pure ()) (fun _ => pure ()) cyclic = [100, 100] := by
    decide +kernel
  rw [hagain] at honce
  exact absurd honce (by decide)

end Safe

end BStackLinkedList

end BStackRaii
