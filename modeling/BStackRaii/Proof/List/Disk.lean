import BStackRaii.Logic.Chain
import BStackRaii.Model.LinkedList
import BStackRaii.Proof.Update
/-!
# Linked lists on disk

`ListAt` says that a file holds a chain of nodes, read from one of its two ends. Read from the other end it
is the reversed chain, so a push and a pop are proved once. `Linking` and `Unlinking` are all that the
batch of a push or a pop does to the words of the file.
-/

namespace BStackRaii

namespace BStackLinkedList

/-- A node of a chain, and the value it refers to. -/
structure Node where
  off : Nat
  value : UInt64
deriving DecidableEq, Repr

namespace Node

def block (n : Node) : Range := ⟨n.off, NODE_SIZE⟩

end Node

/-- The list at `list` holds the nodes `ns`, read from the end `s`. -/
structure ListAt (f : File) (list : Nat) (s : Side) (ns : List Node) : Prop where
  block : ⟨list, LIST_SIZE⟩ ∈ f.live
  nodes : ∀ n ∈ ns, n.block ∈ f.live
  apart : list ∉ ns.map Node.off
  linked : Chain.Linked (fun x => f.bytes.word (x + s.outward)) (fun x => f.bytes.word (x + s.inward)) 0
    (ns.map Node.off) 0
  values : ∀ n ∈ ns, f.bytes.word (n.off + NVAL_OFF) = n.value.toNat
  first : f.bytes.word (list + s.endOff) = (ns.map Node.off).headD 0
  last : f.bytes.word (list + s.flip.endOff) = (ns.map Node.off).getLastD 0
  len : f.bytes.word (list + LEN_OFF) = ns.length

namespace Side

@[simp] theorem flip_flip (s : Side) : s.flip.flip = s := by cases s <;> rfl

@[simp] theorem outward_flip (s : Side) : s.flip.outward = s.inward := by rw [outward, flip_flip]

@[simp] theorem inward_flip (s : Side) : s.flip.inward = s.outward := rfl

theorem links (s : Side) : (s.inward = 16 ∧ s.outward = 24) ∨ (s.inward = 24 ∧ s.outward = 16) := by
  cases s with
  | front => exact .inr ⟨rfl, rfl⟩
  | back => exact .inl ⟨rfl, rfl⟩

theorem ends (s : Side) : (s.endOff = 16 ∧ s.flip.endOff = 24) ∨ (s.endOff = 24 ∧ s.flip.endOff = 16) := by
  cases s with
  | front => exact .inl ⟨rfl, rfl⟩
  | back => exact .inr ⟨rfl, rfl⟩

end Side

section Geometry

variable {f f' : File} {list node : Nat} {s : Side} {ns : List Node} {n : Node}

theorem blocks_apart {x y : Nat} (hx : ⟨x, NODE_SIZE⟩ ∈ f.live) (hy : ⟨y, NODE_SIZE⟩ ∈ f.live) (hne : x ≠ y) :
    x + 40 ≤ y ∨ y + 40 ≤ x :=
  (apart_of_mem f.apart hx hy fun heq => hne (congrArg Range.start heq)).2

theorem block_inside {x : Nat} (hx : ⟨x, NODE_SIZE⟩ ∈ f.live) : 16 ≤ x ∧ x + 40 ≤ f.len := f.inside _ hx

namespace ListAt

theorem mem_live (h : ListAt f list s ns) {x : Nat} (hx : x ∈ ns.map Node.off) : ⟨x, NODE_SIZE⟩ ∈ f.live := by
  obtain ⟨n, hn, rfl⟩ := List.mem_map.mp hx
  exact h.nodes n hn

theorem not_null (h : ListAt f list s ns) : 0 ∉ ns.map Node.off := fun hmem => by
  have hin := block_inside (h.mem_live hmem)
  omega

theorem nodup (h : ListAt f list s ns) : (ns.map Node.off).Nodup := h.linked.nodup h.not_null

theorem flip (h : ListAt f list s ns) : ListAt f list s.flip ns.reverse := by
  refine ⟨h.block, fun n hn => h.nodes n (List.mem_reverse.mp hn), ?_, ?_, ?_, ?_, ?_, ?_⟩
  · rw [List.map_reverse]
    exact fun hmem => h.apart (List.mem_reverse.mp hmem)
  · rw [List.map_reverse, Side.outward_flip, Side.inward_flip]
    exact Chain.linked_reverse.mpr h.linked
  · exact fun n hn => h.values n (List.mem_reverse.mp hn)
  · rw [h.last, List.map_reverse, ← Chain.getLastD_reverse, List.reverse_reverse]
  · rw [Side.flip_flip, h.first, List.map_reverse, Chain.getLastD_reverse]
  · rw [h.len, List.length_reverse]

theorem frame (h : ListAt f list s ns)
    (hkeep : ∀ r, r = ⟨list, LIST_SIZE⟩ ∨ r ∈ ns.map Node.block → r ∈ f'.live ∧
      ∀ x, r.start ≤ x → x < r.stop → f'.bytes x = f.bytes x) : ListAt f' list s ns := by
  have hlist : ∀ k, k + 8 ≤ 40 → f'.bytes.word (list + k) = f.bytes.word (list + k) := by
    intro k hk
    refine Mem.word_congr fun x hx hx' => (hkeep _ (.inl rfl)).2 x ?_ ?_
    · show list ≤ x
      omega
    · show x < list + 40
      omega
  have hnode : ∀ n ∈ ns, ∀ k, k + 8 ≤ 40 → f'.bytes.word (n.off + k) = f.bytes.word (n.off + k) := by
    intro n hn k hk
    refine Mem.word_congr fun x hx hx' => (hkeep n.block (.inr (List.mem_map_of_mem hn))).2 x ?_ ?_
    · show n.off ≤ x
      omega
    · show x < n.off + 40
      omega
  have hoff : ∀ x ∈ ns.map Node.off, ∀ k, k + 8 ≤ 40 → f'.bytes.word (x + k) = f.bytes.word (x + k) := by
    intro x hx
    obtain ⟨n, hn, rfl⟩ := List.mem_map.mp hx
    exact hnode n hn
  have hlinks := s.links
  have hends := s.ends
  refine ⟨(hkeep _ (.inl rfl)).1, fun n hn => (hkeep _ (.inr (List.mem_map_of_mem hn))).1, h.apart, ?_, ?_, ?_, ?_, ?_⟩
  · apply h.linked.congr
    · exact fun x hx => hoff x hx _ (by omega)
    · exact fun x hx => hoff x hx _ (by omega)
  · exact fun n hn => (hnode n hn _ (by decide)).trans (h.values n hn)
  · exact (hlist _ (by omega)).trans h.first
  · exact (hlist _ (by omega)).trans h.last
  · exact (hlist _ (by decide)).trans h.len

end ListAt

/-! ### The writes of a push -/

theorem nodeImage_words {m : Mem} {tag : UInt64} {prev next value : Nat} (hprev : prev < 2 ^ 64)
    (hnext : next < 2 ^ 64) (hvalue : value < 2 ^ 64) (hread : m.read node 40 = nodeImage tag prev next value) :
    m.word (node + NPREV_OFF) = prev ∧ m.word (node + NNEXT_OFF) = next ∧ m.word (node + NVAL_OFF) = value := by
  have hword : ∀ k, k + 8 ≤ 40 → m.word (node + k) = getU64 (nodeImage tag prev next value) k := by
    intro k hk
    rw [← hread, getU64_read hk]
  have hfields : getU64 (nodeImage tag prev next value) NPREV_OFF = leNat (leBytes 8 prev) ∧
      getU64 (nodeImage tag prev next value) NNEXT_OFF = leNat (leBytes 8 next) ∧
      getU64 (nodeImage tag prev next value) NVAL_OFF = leNat (leBytes 8 value) := by
    refine ⟨?_, ?_, ?_⟩ <;>
      simp [getU64, nodeImage, NPREV_OFF, NNEXT_OFF, NVAL_OFF, HEADER_SIZE, List.drop_append]
  obtain ⟨hp, hn, hv⟩ := hfields
  rw [leNat_leBytes (by simpa using hprev)] at hp
  rw [leNat_leBytes (by simpa using hnext)] at hn
  rw [leNat_leBytes (by simpa using hvalue)] at hv
  exact ⟨(hword _ (by decide)).trans hp, (hword _ (by decide)).trans hn, (hword _ (by decide)).trans hv⟩

theorem length_newNode (tag : UInt64) (s : Side) (old value : Nat) : (s.newNode tag old value).length = 40 := by
  cases s <;> simp [Side.newNode, nodeImage]

theorem newNode_words {m : Mem} {tag : UInt64} {old value : Nat} (hold : old < 2 ^ 64) (hvalue : value < 2 ^ 64)
    (hread : m.read node 40 = s.newNode tag old value) :
    m.word (node + s.outward) = 0 ∧ m.word (node + s.inward) = old ∧ m.word (node + NVAL_OFF) = value := by
  cases s with
  | front => exact nodeImage_words (by decide) hold hvalue hread
  | back =>
      obtain ⟨hprev, hnext, hval⟩ := nodeImage_words hold (by decide) hvalue hread
      exact ⟨hnext, hprev, hval⟩

/-- A word that the batch writes and nothing else in it touches. -/
theorem word_written {m : Mem} {ws : Batch} (hws : ws.Pairwise fun x y => Mem.Clear x.1 x.2.length y)
    {off v : Nat} (hmem : w8 off v ∈ ws) (hv : v < 2 ^ 64) : (Mem.writeAll ws m).word off = v := by
  have hread := Mem.read_writeAll_mem m hws hmem
  show leNat ((Mem.writeAll ws m).read off 8) = v
  rw [show (Mem.writeAll ws m).read off 8 = leBytes 8 v by simpa [w8] using hread]
  exact leNat_leBytes (by simpa using hv)

theorem word_kept {m : Mem} {ws : Batch} {off : Nat} (h : ∀ x ∈ ws, Mem.Clear off 8 x) :
    (Mem.writeAll ws m).word off = m.word off :=
  congrArg leNat (Mem.read_writeAll_clear m h)

def linkBatch (list : Nat) (tag : UInt64) (s : Side) (node old len link : Nat) (v : UInt64) : Batch :=
  [(node, s.newNode tag old v.toNat), w8 link node, w8 (list + s.endOff) node, w8 (list + LEN_OFF) (len + 1)]

/-- What a push at the end `s` leaves in the words of the file. -/
structure Linking (m m' : Mem) (list : Nat) (s : Side) (node old len link : Nat) (v : UInt64) : Prop where
  outward : m'.word (node + s.outward) = 0
  inward : m'.word (node + s.inward) = old
  value : m'.word (node + NVAL_OFF) = v.toNat
  linked : m'.word link = node
  first : m'.word (list + s.endOff) = node
  count : m'.word (list + LEN_OFF) = len + 1
  kept : ∀ off, (off + 8 ≤ node ∨ node + 40 ≤ off) → (off + 8 ≤ link ∨ link + 8 ≤ off) →
    (off + 8 ≤ list + s.endOff ∨ list + s.endOff + 8 ≤ off) →
    (off + 8 ≤ list + LEN_OFF ∨ list + LEN_OFF + 8 ≤ off) → m'.word off = m.word off

theorem linking (m : Mem) (tag v : UInt64) {old len link : Nat} (hnode : node < 2 ^ 64) (hold : old < 2 ^ 64)
    (hlen : len + 1 < 2 ^ 64) (hlist : list + 40 ≤ node ∨ node + 40 ≤ list)
    (hlink : link + 8 ≤ node ∨ node + 40 ≤ link)
    (hend : link + 8 ≤ list + s.endOff ∨ list + s.endOff + 8 ≤ link)
    (hcount : link + 8 ≤ list + LEN_OFF ∨ list + LEN_OFF + 8 ≤ link) :
    Linking m (Mem.writeAll (linkBatch list tag s node old len link v) m) list s node old len link v := by
  have hends := s.ends
  have hoff : LEN_OFF = 32 := rfl
  have hpair : (linkBatch list tag s node old len link v).Pairwise fun x y => Mem.Clear x.1 x.2.length y := by
    simp only [linkBatch, List.pairwise_cons, List.mem_cons, List.not_mem_nil, or_false, forall_eq_or_imp, forall_eq,
      Mem.Clear, w8, length_newNode, length_leBytes, List.Pairwise.nil, and_true, IsEmpty.forall_iff, implies_true]
    omega
  have hread := Mem.read_writeAll_mem m hpair (List.mem_cons_self)
  have hwords := newNode_words hold v.toNat_lt (by rw [← length_newNode tag s old v.toNat]; exact hread)
  refine ⟨hwords.1, hwords.2.1, hwords.2.2, word_written hpair (by simp [linkBatch]) hnode,
    word_written hpair (by simp [linkBatch]) hnode, word_written hpair (by simp [linkBatch]) hlen, ?_⟩
  intro off h1 h2 h3 h4
  apply word_kept
  simp only [linkBatch, List.mem_cons, List.not_mem_nil, or_false, forall_eq_or_imp, forall_eq, Mem.Clear, w8,
    length_newNode,
    length_leBytes]
  exact ⟨h1, h2, h3, h4⟩

namespace ListAt

theorem length_lt (h : ListAt f list s ns) : ns.length + 1 < 2 ^ 64 := by
  have hsub : ns.map Node.off ⊆ List.range (2 ^ 64 - 40) := by
    intro x hx
    have hin := block_inside (h.mem_live hx)
    have haddr := f.addressable
    exact List.mem_range.mpr (by omega)
  have hle := (List.subperm_of_subset h.nodup hsub).length_le
  rw [List.length_map, List.length_range] at hle
  omega

/-- Where the words of a node and of the list are, beside a node `n`. -/
theorem beside (h : ListAt f list s ns) {n : Node} (hn : n ∈ ns) {x : Nat} (hx : ⟨x, NODE_SIZE⟩ ∈ f.live) :
    n.off = x ∨ n.off + 40 ≤ x ∨ x + 40 ≤ n.off := by
  by_cases heq : n.off = x
  · exact .inl heq
  · exact .inr (blocks_apart (h.nodes n hn) hx heq)

theorem beside_list (h : ListAt f list s ns) {n : Node} (hn : n ∈ ns) :
    n.off + 40 ≤ list ∨ list + 40 ≤ n.off :=
  blocks_apart (h.nodes n hn) h.block fun heq => h.apart (heq ▸ List.mem_map_of_mem hn)

def linkOff (list : Nat) (s : Side) : List Node → Nat
  | [] => list + s.flip.endOff
  | d :: _ => d.off + s.outward

/-- A file with the words of a push holds the new node in front. -/
theorem linked_in (h : ListAt f list s ns) {v : UInt64} (hlive : f'.live = f.live)
    (hnode : ⟨node, NODE_SIZE⟩ ∈ f.live) (hlist : node ≠ list) (hfresh : node ∉ ns.map Node.off)
    (heff : Linking f.bytes f'.bytes list s node ((ns.map Node.off).headD 0) ns.length (linkOff list s ns) v) :
    ListAt f' list s (⟨node, v⟩ :: ns) := by
  have hends := s.ends
  have hlinks := s.links
  have hcount : LEN_OFF = 32 := rfl
  have hval : NVAL_OFF = 32 := rfl
  have hlisted := blocks_apart h.block hnode (Ne.symm hlist)
  have hapart : list ∉ (⟨node, v⟩ :: ns : List Node).map Node.off := by
    rw [List.map_cons, List.mem_cons]
    rintro (heq | hmem)
    · exact hlist heq.symm
    · exact h.apart hmem
  -- a word of an old node is the link, or it stays
  have hsame : ∀ n ∈ ns, ∀ k, (k = 16 ∨ k = 24 ∨ k = 32) → n.off + k ≠ linkOff list s ns →
      f'.bytes.word (n.off + k) = f.bytes.word (n.off + k) := by
    intro n hn k hk hne
    have hne' : n.off ≠ node := fun heq => hfresh (heq ▸ List.mem_map_of_mem hn)
    have hn' := h.beside hn hnode
    have hl := h.beside_list hn
    cases ns with
    | nil => cases hn
    | cons d ds =>
        have hd := h.beside hn (h.nodes d List.mem_cons_self)
        simp only [linkOff] at hne heff
        apply heff.kept <;> omega
  have hvalues : ∀ n ∈ (⟨node, v⟩ :: ns : List Node), f'.bytes.word (n.off + NVAL_OFF) = n.value.toNat := by
    intro n hn
    cases List.mem_cons.mp hn with
    | inl heq => exact heq ▸ heff.value
    | inr hn =>
        refine (hsame n hn _ (.inr (.inr rfl)) ?_).trans (h.values n hn)
        cases ns with
        | nil => cases hn
        | cons d ds =>
            have hd := h.beside hn (h.nodes d List.mem_cons_self)
            simp only [linkOff]
            omega
  refine ⟨hlive ▸ h.block, fun n hn => ?_, hapart, ⟨heff.outward, heff.inward, ?_⟩, hvalues, heff.first, ?_,
    heff.count⟩
  · rw [hlive]
    cases List.mem_cons.mp hn with
    | inl heq => exact heq ▸ hnode
    | inr hn => exact h.nodes n hn
  · cases ns with
    | nil => trivial
    | cons d ds =>
        apply h.linked.rehead
        · intro x hx
          obtain ⟨n, hn, rfl⟩ := List.mem_map.mp hx
          have hd := h.beside hn (h.nodes d List.mem_cons_self)
          apply hsame n hn _ (by omega)
          simp only [linkOff]
          omega
        · intro x hx
          obtain ⟨n, hn, rfl⟩ := List.mem_map.mp hx
          have hd := h.beside (List.mem_cons_of_mem d hn) (h.nodes d List.mem_cons_self)
          have hne : n.off ≠ d.off := fun heq =>
            (List.nodup_cons.mp h.nodup).1 (heq ▸ List.mem_map_of_mem hn)
          apply hsame n (List.mem_cons_of_mem d hn) _ (by omega)
          simp only [linkOff]
          omega
        · intro x hx
          have heq : d.off = x := Option.some.inj hx
          rw [← heq]
          exact heff.linked
  · cases ns with
    | nil => exact heff.linked
    | cons d ds =>
        have hd := h.beside_list List.mem_cons_self
        have hlast : f'.bytes.word (list + s.flip.endOff) = f.bytes.word (list + s.flip.endOff) := by
          simp only [linkOff] at heff
          apply heff.kept <;> omega
        exact hlast.trans h.last

theorem link (h : ListAt f list s ns) (tag v : UInt64) (hnode : ⟨node, NODE_SIZE⟩ ∈ f.live) (hlist : node ≠ list)
    (hfresh : node ∉ ns.map Node.off) :
    ∃ ws, linkWrites list tag s node v.toNat ((ns.map Node.off).headD 0) ns.length = .ok ws ∧
      (∀ x ∈ ws, x.1 + x.2.length ≤ f.len) ∧ ListAt (File.writeAll ws f) list s (⟨node, v⟩ :: ns) := by
  have haddr := f.addressable
  have hin := block_inside hnode
  have hblock := block_inside h.block
  have hends := s.ends
  have hlinks := s.links
  have hcount : LEN_OFF = 32 := rfl
  have hlisted := blocks_apart h.block hnode (Ne.symm hlist)
  have hold : (ns.map Node.off).headD 0 < 2 ^ 64 ∧ linkOff list s ns + 8 ≤ f.len ∧
      (linkOff list s ns + 8 ≤ node ∨ node + 40 ≤ linkOff list s ns) ∧
      (linkOff list s ns + 8 ≤ list + s.endOff ∨ list + s.endOff + 8 ≤ linkOff list s ns) ∧
      (linkOff list s ns + 8 ≤ list + LEN_OFF ∨ list + LEN_OFF + 8 ≤ linkOff list s ns) := by
    cases ns with
    | nil =>
        simp only [linkOff, List.map_nil, List.headD_nil]
        omega
    | cons d ds =>
        have hd := block_inside (h.nodes d List.mem_cons_self)
        have hne : d.off ≠ node := fun heq => hfresh (heq ▸ List.mem_map_of_mem List.mem_cons_self)
        have hbeside := h.beside List.mem_cons_self hnode
        have hl := h.beside_list List.mem_cons_self
        simp only [linkOff, List.map_cons, List.headD_cons]
        omega
  obtain ⟨hword, hinside, hclear, hend, hlen⟩ := hold
  refine ⟨linkBatch list tag s node ((ns.map Node.off).headD 0) ns.length (linkOff list s ns) v, ?_, ?_, ?_⟩
  · cases ns with
    | nil => rfl
    | cons d ds =>
        have hd := block_inside (h.nodes d List.mem_cons_self)
        have hne : ((d :: ds).map Node.off).headD 0 ≠ 0 := by
          show d.off ≠ 0
          omega
        have hcheck : checkedOff (((d :: ds).map Node.off).headD 0) s.outward = .ok (d.off + s.outward) :=
          checkedOff_ok (by rw [List.map_cons, List.headD_cons]; omega)
        rw [linkWrites, if_pos hne, hcheck]
        rfl
  · simp only [linkBatch, List.mem_cons, List.not_mem_nil, or_false, forall_eq_or_imp, forall_eq, w8,
      length_newNode, length_leBytes]
    omega
  · apply h.linked_in (File.live_writeAll _ _) hnode hlist hfresh
    rw [File.bytes_writeAll]
    exact linking f.bytes tag v (by omega) hword h.length_lt hlisted hclear hend hlen

end ListAt

/-! ### The writes of a pop -/

/-- What a pop at the end `s` leaves in the words of the file. -/
structure Unlinking (m m' : Mem) (list : Nat) (s : Side) (next len link : Nat) : Prop where
  linked : m'.word link = 0
  first : m'.word (list + s.endOff) = next
  count : m'.word (list + LEN_OFF) = len
  kept : ∀ off, (off + 8 ≤ link ∨ link + 8 ≤ off) →
    (off + 8 ≤ list + s.endOff ∨ list + s.endOff + 8 ≤ off) →
    (off + 8 ≤ list + LEN_OFF ∨ list + LEN_OFF + 8 ≤ off) → m'.word off = m.word off

theorem unlinking {m : Mem} {ws : Batch} {next len link : Nat} (hnext : next < 2 ^ 64) (hlen : len < 2 ^ 64)
    (hpair : ws.Pairwise fun x y => Mem.Clear x.1 x.2.length y)
    (hmem : ∀ x, x ∈ ws ↔ x = w8 link 0 ∨ x = w8 (list + s.endOff) next ∨ x = w8 (list + LEN_OFF) len) :
    Unlinking m (Mem.writeAll ws m) list s next len link := by
  refine ⟨?_, ?_, ?_, fun off h1 h2 h3 => word_kept fun x hx => ?_⟩
  · exact word_written hpair ((hmem _).mpr (.inl rfl)) (by decide)
  · exact word_written hpair ((hmem _).mpr (.inr (.inl rfl))) hnext
  · exact word_written hpair ((hmem _).mpr (.inr (.inr rfl))) hlen
  · obtain rfl | rfl | rfl := (hmem x).mp hx
    · exact h1
    · exact h2
    · exact h3

namespace ListAt

/-- A file with the words of a pop holds the nodes behind the one taken. -/
theorem unlinked_in (h : ListAt f list s (n :: ns)) (hlive : f'.live = f.live)
    (heff : Unlinking f.bytes f'.bytes list s ((ns.map Node.off).headD 0) ns.length (linkOff list s ns)) :
    ListAt f' list s ns := by
  have hends := s.ends
  have hlinks := s.links
  have hcount : LEN_OFF = 32 := rfl
  have hval : NVAL_OFF = 32 := rfl
  have hsame : ∀ x ∈ ns, ∀ k, (k = 16 ∨ k = 24 ∨ k = 32) → x.off + k ≠ linkOff list s ns →
      f'.bytes.word (x.off + k) = f.bytes.word (x.off + k) := by
    intro x hx k hk hne
    have hl := h.beside_list (List.mem_cons_of_mem n hx)
    cases ns with
    | nil => cases hx
    | cons d ds =>
        have hd := h.beside (List.mem_cons_of_mem n hx) (h.nodes d (List.mem_cons_of_mem n List.mem_cons_self))
        simp only [linkOff] at hne heff
        apply heff.kept <;> omega
  refine ⟨hlive ▸ h.block, fun x hx => hlive ▸ h.nodes x (List.mem_cons_of_mem n hx),
    fun hmem => h.apart (List.mem_cons_of_mem n.off hmem), ?_, fun x hx => ?_, heff.first, ?_, heff.count⟩
  · cases ns with
    | nil => trivial
    | cons d ds =>
        have hdmem : d ∈ n :: d :: ds := List.mem_cons_of_mem n List.mem_cons_self
        apply h.linked.2.2.rehead
        · intro x hx
          obtain ⟨y, hy, rfl⟩ := List.mem_map.mp hx
          have hd := h.beside (List.mem_cons_of_mem n hy) (h.nodes d hdmem)
          apply hsame y hy _ (by omega)
          simp only [linkOff]
          omega
        · intro x hx
          obtain ⟨y, hy, rfl⟩ := List.mem_map.mp hx
          have hd := h.beside (List.mem_cons_of_mem n (List.mem_cons_of_mem d hy)) (h.nodes d hdmem)
          have hne : y.off ≠ d.off := fun heq =>
            (List.nodup_cons.mp (List.nodup_cons.mp h.nodup).2).1 (heq ▸ List.mem_map_of_mem hy)
          apply hsame y (List.mem_cons_of_mem d hy) _ (by omega)
          simp only [linkOff]
          omega
        · intro x hx
          have heq : d.off = x := Option.some.inj hx
          rw [← heq]
          exact heff.linked
  · refine (hsame x hx _ (.inr (.inr rfl)) ?_).trans (h.values x (List.mem_cons_of_mem n hx))
    cases ns with
    | nil => cases hx
    | cons d ds =>
        have hd := h.beside (List.mem_cons_of_mem n hx) (h.nodes d (List.mem_cons_of_mem n List.mem_cons_self))
        simp only [linkOff]
        omega
  · cases ns with
    | nil => exact heff.linked
    | cons d ds =>
        have hd := h.beside_list (List.mem_cons_of_mem n List.mem_cons_self)
        have hlast : f'.bytes.word (list + s.flip.endOff) = f.bytes.word (list + s.flip.endOff) := by
          simp only [linkOff] at heff
          apply heff.kept <;> omega
        rw [hlast, h.last, List.map_cons, List.getLastD_cons]
        rfl

/-- The writes of a pop take the first node out. -/
theorem unlink (h : ListAt f list s (n :: ns)) :
    ∃ ws, unlinkWrites list s ((ns.map Node.off).headD 0) (n :: ns).length = .ok ws ∧
      (∀ x ∈ ws, x.1 + x.2.length ≤ f.len) ∧ ListAt (File.writeAll ws f) list s ns := by
  have haddr := f.addressable
  have hblock := block_inside h.block
  have hends := s.ends
  have hlinks := s.links
  have hcount : LEN_OFF = 32 := rfl
  have hlen := h.length_lt
  have hdown : wrappingPred (n :: ns).length = ns.length :=
    wrappingPred_eq (Nat.succ_pos _) (Nat.lt_of_succ_lt hlen)
  have hfits : ns.length < 2 ^ 64 := by
    rw [List.length_cons] at hlen
    omega
  have hdone : ∀ ws : Batch, (ns.map Node.off).headD 0 < 2 ^ 64 →
      (ws.Pairwise fun x y => Mem.Clear x.1 x.2.length y) →
      (∀ x, x ∈ ws ↔ x = w8 (linkOff list s ns) 0 ∨ x = w8 (list + s.endOff) ((ns.map Node.off).headD 0) ∨
        x = w8 (list + LEN_OFF) ns.length) → ListAt (File.writeAll ws f) list s ns := by
    intro ws hnext hpair hmem
    apply h.unlinked_in (File.live_writeAll _ _)
    rw [File.bytes_writeAll]
    exact unlinking hnext hfits hpair hmem
  cases ns with
  | nil =>
      refine ⟨[w8 (list + HEAD_OFF) 0, w8 (list + TAIL_OFF) 0, w8 (list + LEN_OFF) 0], ?_, ?_, ?_⟩
      · rw [unlinkWrites, hdown]
        rfl
      · simp only [List.mem_cons, List.not_mem_nil, or_false, forall_eq_or_imp, forall_eq, w8, length_leBytes,
          HEAD_OFF, TAIL_OFF, HEADER_SIZE]
        omega
      · apply hdone _ (by decide)
        · simp [Mem.Clear, w8, HEAD_OFF, TAIL_OFF, LEN_OFF, HEADER_SIZE]
        · intro x
          cases s with
          | front =>
              simp only [List.mem_cons, List.not_mem_nil, or_false]
              exact or_left_comm
          | back =>
              simp only [List.mem_cons, List.not_mem_nil, or_false]
              rfl
  | cons d ds =>
      have hdmem : d ∈ n :: d :: ds := List.mem_cons_of_mem n List.mem_cons_self
      have hd := block_inside (h.nodes d hdmem)
      have hl := h.beside_list hdmem
      have hne : ((d :: ds).map Node.off).headD 0 ≠ 0 := by
        show d.off ≠ 0
        omega
      have hcheck : checkedOff (((d :: ds).map Node.off).headD 0) s.outward = .ok (d.off + s.outward) :=
        checkedOff_ok (by rw [List.map_cons, List.headD_cons]; omega)
      refine ⟨[w8 (d.off + s.outward) 0, w8 (list + s.endOff) d.off, w8 (list + LEN_OFF) (d :: ds).length], ?_, ?_, ?_⟩
      · rw [unlinkWrites, if_pos hne, hcheck, hdown]
        rfl
      · simp only [List.mem_cons, List.not_mem_nil, or_false, forall_eq_or_imp, forall_eq, w8, length_leBytes]
        omega
      · apply hdone
        · rw [List.map_cons, List.headD_cons]
          omega
        · simp only [List.pairwise_cons, List.mem_cons, List.not_mem_nil, or_false, forall_eq_or_imp, forall_eq,
            Mem.Clear, w8, length_leBytes, List.Pairwise.nil, and_true, IsEmpty.forall_iff, implies_true]
          omega
        · intro x
          simp only [List.mem_cons, List.not_mem_nil, or_false]
          rfl

end ListAt

end Geometry

end BStackLinkedList

end BStackRaii
