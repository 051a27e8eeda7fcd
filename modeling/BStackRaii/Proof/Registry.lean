import BStackRaii.Model.Registry
import BStackRaii.Proof.ClassValue
import Mathlib.Data.List.Nodup
/-!
# The registry keeps what was registered

A stack built by `append` is a sequence of framed records, and a registry over it is the index of
that sequence. `Held` says so and says which types the records encode. Every successful operation
keeps it.
-/

namespace BStackRaii

/-! ### Framed records -/

abbrev Entry := EightCC × List UInt8

namespace Entry

def header (e : Entry) : List UInt8 := e.1.bytes ++ leBytes 4 e.2.length ++ leBytes 4 0

def frame (e : Entry) : List UInt8 :=
  e.header ++ e.2 ++
    List.replicate (alignUp (RECORD_HEADER_LEN + e.2.length) 8 - (RECORD_HEADER_LEN + e.2.length)) 0

@[simp] theorem length_header (e : Entry) : e.header.length = RECORD_HEADER_LEN := by
  simp [header, e.1.length_eq, RECORD_HEADER_LEN]

theorem length_frame (e : Entry) : e.frame.length = alignUp (RECORD_HEADER_LEN + e.2.length) 8 := by
  have hle := le_alignUp (by decide : 0 < 8) (RECORD_HEADER_LEN + e.2.length)
  simp only [frame, List.length_append, length_header, List.length_replicate]
  omega

theorem header_tag (e : Entry) : EightCC.ofBytes (e.header.take 8) = e.1 := by
  rw [header, List.append_assoc, List.take_left' e.1.length_eq, EightCC.ofBytes_bytes]

theorem header_word (e : Entry) : (e.header.drop 8).take 4 = leBytes 4 e.2.length := by
  rw [header, List.append_assoc, List.drop_left' e.1.length_eq,
    List.take_left' (length_leBytes 4 _)]

theorem header_bodyLen {e : Entry} (h : e.2.length < 2 ^ 32) :
    (UInt32.ofNat (leNat ((e.header.drop 8).take 4))).toNat = e.2.length := by
  rw [header_word, leNat_leBytes (by simpa using h), UInt32.toNat_ofNat_of_lt' h]

end Entry

theorem frameRecord_ok {tag : EightCC} {body record : List UInt8} {bodyLen : UInt32}
    (h : frameRecord tag body = .ok (record, bodyLen)) :
    body.length < 2 ^ 32 ∧ bodyLen = UInt32.ofNat body.length ∧ record = Entry.frame (tag, body) := by
  unfold frameRecord at h
  by_cases hlt : body.length < 2 ^ 32
  · rw [tryU32, if_pos hlt] at h
    cases h
    refine ⟨hlt, rfl, ?_⟩
    have hlen : (UInt32.ofNat body.length).toNat = body.length := UInt32.toNat_ofNat_of_lt' hlt
    have hw : ([] ++ tag.bytes ++ leBytes 4 (UInt32.ofNat body.length).toNat ++ leBytes 4 0 ++ body)
        = Entry.header (tag, body) ++ body := by
      rw [hlen, List.nil_append]
      rfl
    show ([] ++ tag.bytes ++ leBytes 4 (UInt32.ofNat body.length).toNat ++ leBytes 4 0 ++ body) ++
      List.replicate (alignUp ([] ++ tag.bytes ++ leBytes 4 (UInt32.ofNat body.length).toNat ++
        leBytes 4 0 ++ body).length 8 - ([] ++ tag.bytes ++
        leBytes 4 (UInt32.ofNat body.length).toNat ++ leBytes 4 0 ++ body).length) 0 = _
    rw [hw, List.length_append, Entry.length_header]
    rfl
  · rw [tryU32, if_neg hlt] at h
    cases h

def stackOf (es : List Entry) : List UInt8 := es.flatMap Entry.frame

def recordsFrom : Nat → List Entry → List RecordRef
  | _, [] => []
  | off, e :: rest =>
      ⟨e.1, off, UInt32.ofNat e.2.length⟩ :: recordsFrom (off + e.frame.length) rest

@[simp] theorem stackOf_append (es fs : List Entry) : stackOf (es ++ fs) = stackOf es ++ stackOf fs :=
  List.flatMap_append

@[simp] theorem stackOf_cons (e : Entry) (es : List Entry) :
    stackOf (e :: es) = e.frame ++ stackOf es := List.flatMap_cons

theorem recordsFrom_append (es fs : List Entry) (off : Nat) :
    recordsFrom off (es ++ fs) = recordsFrom off es ++ recordsFrom (off + (stackOf es).length) fs := by
  induction es generalizing off with
  | nil => simp [recordsFrom, stackOf]
  | cons e rest ih =>
      simp only [List.cons_append, recordsFrom, ih, stackOf_cons, List.length_append]
      rw [Nat.add_assoc]

@[simp] theorem length_recordsFrom (off : Nat) (es : List Entry) :
    (recordsFrom off es).length = es.length := by
  induction es generalizing off with
  | nil => rfl
  | cons e rest ih => simp [recordsFrom, ih]

theorem map_tag_recordsFrom (off : Nat) (es : List Entry) :
    (recordsFrom off es).map (·.tag) = es.map (·.1) := by
  induction es generalizing off with
  | nil => rfl
  | cons e rest ih => rw [recordsFrom, List.map_cons, List.map_cons, ih]

theorem recordsFrom_get (es : List Entry) (e : Entry) (fs : List Entry) :
    (recordsFrom 0 (es ++ e :: fs))[es.length]?
      = some ⟨e.1, (stackOf es).length, UInt32.ofNat e.2.length⟩ := by
  rw [recordsFrom_append, List.getElem?_append_right (by simp), length_recordsFrom, Nat.sub_self,
    Nat.zero_add]
  rfl

theorem stackGet_middle (front data back : List UInt8) :
    stackGet (front ++ data ++ back) front.length data.length = .ok data := by
  rw [stackGet, if_pos (by simp), List.append_assoc, List.drop_left, List.take_left]

theorem stackSet_middle (front data back value : List UInt8) (h : value.length = data.length) :
    stackSet (front ++ data ++ back) front.length value = .ok (front ++ value ++ back) := by
  rw [stackSet, if_pos (by simp [h]), List.append_assoc front data, List.take_left, h,
    ← List.append_assoc front data, ← List.length_append, List.drop_left]

theorem getElem?_snoc {α : Type} {l : List α} {x y : α} {i : Nat} :
    (l ++ [x])[i]? = some y ↔ l[i]? = some y ∨ (i = l.length ∧ x = y) := by
  rw [List.getElem?_append]
  split
  next hlt => exact ⟨.inl, fun h => h.resolve_right fun h => absurd h.1 (by omega)⟩
  next hge =>
    rw [List.getElem?_eq_none (l := l) (by omega), List.getElem?_singleton]
    simp only [reduceCtorEq, false_or]
    constructor
    · intro h
      split at h
      · cases h
        exact ⟨by omega, rfl⟩
      · cases h
    · intro h
      rw [if_pos (by omega), h.2]

namespace RttiRegistry

/-! ### The index of a stack -/

/-- The registry lists the records of `es` and resolves each of their tags. -/
structure Indexed (reg : RttiRegistry) (es : List Entry) : Prop where
  records : reg.records = recordsFrom 0 es
  byTag : ∀ tag ord, reg.byTag tag = some ord ↔ (es.map (·.1))[ord.toNat]? = some tag

variable {reg reg' : RttiRegistry} {es : List Entry} {e : Entry} {ord : RttiOrdinal}

theorem Indexed.index (h : Indexed reg es) (hcount : es.length < 2 ^ 32)
    (hnew : e.1 ∉ es.map (·.1)) :
    ∃ reg', reg.index e.1 (stackOf es).length (UInt32.ofNat e.2.length)
        = .ok (UInt32.ofNat es.length, reg') ∧
      reg'.stack = reg.stack ∧ Indexed reg' (es ++ [e]) := by
  have hlen : reg.records.length = es.length := by rw [h.records, length_recordsFrom]
  have habsent : reg.byTag e.1 = none := by
    cases htag : reg.byTag e.1 with
    | none => rfl
    | some ord => exact absurd (List.mem_of_getElem? ((h.byTag e.1 ord).mp htag)) hnew
  have hord : (UInt32.ofNat es.length).toNat = es.length := UInt32.toNat_ofNat_of_lt' hcount
  refine ⟨{ reg with
      records := reg.records ++ [⟨e.1, (stackOf es).length, UInt32.ofNat e.2.length⟩]
      byTag := Function.update reg.byTag e.1 (some (UInt32.ofNat es.length)) }, ?_, rfl, ?_, ?_⟩
  · simp only [RttiRegistry.index, habsent, hlen]
  · rw [recordsFrom_append, Nat.zero_add, h.records]
    rfl
  · intro tag ord
    show Function.update reg.byTag e.1 (some (UInt32.ofNat es.length)) tag = some ord ↔ _
    rw [List.map_append, List.map_singleton]
    rw [getElem?_snoc, List.length_map]
    by_cases heq : tag = e.1
    · rw [heq, Function.update_self]
      constructor
      · intro h
        cases h
        exact .inr ⟨hord, rfl⟩
      · intro h
        cases h with
        | inl h => exact absurd (List.mem_of_getElem? h) hnew
        | inr h => rw [← h.1, UInt32.ofNat_toNat]
    · rw [Function.update_of_ne heq, h.byTag]
      exact ⟨.inl, fun h => h.resolve_right fun h => heq h.2.symm⟩

/-- The index does not depend on what the bodies hold. -/
theorem Indexed.replace {done rest : List Entry} {body : List UInt8}
    (h : Indexed reg (done ++ e :: rest)) (hlen : body.length = e.2.length) {stack : List UInt8} :
    Indexed { reg with stack := stack } (done ++ (e.1, body) :: rest) := by
  have hframe : (Entry.frame (e.1, body)).length = e.frame.length := by
    rw [Entry.length_frame, Entry.length_frame, hlen]
  refine ⟨?_, fun tag ord => ?_⟩
  · show reg.records = _
    rw [h.records, recordsFrom_append, recordsFrom_append, recordsFrom, recordsFrom, hframe, hlen]
  · show reg.byTag tag = some ord ↔ _
    rw [h.byTag, List.map_append, List.map_append, List.map_cons, List.map_cons]

/-- Two registries over one stack that index the same records are one. -/
theorem Indexed.unique (h : Indexed reg es) (h' : Indexed reg' es) (hs : reg.stack = reg'.stack) :
    reg = reg' := by
  obtain ⟨stack, records, byTag⟩ := reg
  obtain ⟨stack', records', byTag'⟩ := reg'
  have hrecords : records = records' := h.records.trans h'.records.symm
  have htags : byTag = byTag' := by
    funext tag
    apply Option.ext
    intro ord
    exact (h.byTag tag ord).trans (h'.byTag tag ord).symm
  have hstack : stack = stack' := hs
  rw [hrecords, htags, hstack]

theorem Indexed.nodup (h : Indexed reg es) (hcount : es.length ≤ 2 ^ 32) :
    (es.map (·.1)).Nodup := by
  rw [List.nodup_iff_getElem?_ne_getElem?]
  intro i j hij hj heq
  rw [List.length_map] at hj
  obtain ⟨tag, htag⟩ : ∃ tag, (es.map (·.1))[j]? = some tag :=
    ⟨_, List.getElem?_eq_getElem (by rwa [List.length_map])⟩
  have hofNat : ∀ k, k ≤ j → (UInt32.ofNat k).toNat = k := fun k hk =>
    UInt32.toNat_ofNat_of_lt' (Nat.lt_of_le_of_lt hk (Nat.lt_of_lt_of_le hj hcount))
  have h1 := (h.byTag tag (.ofNat i)).mpr (by rw [hofNat i (by omega), heq, htag])
  have h2 := (h.byTag tag (.ofNat j)).mpr (by rw [hofNat j le_rfl, htag])
  rw [h1] at h2
  have heq' := congrArg UInt32.toNat (Option.some.inj h2)
  rw [hofNat i (by omega), hofNat j le_rfl] at heq'
  omega

theorem scan_step {off : Nat} {header : List UInt8} (hoff : off < reg.stack.length)
    (hheader : stackGet reg.stack off RECORD_HEADER_LEN = .ok header)
    (hbound : ¬ RECORD_HEADER_LEN + (UInt32.ofNat (leNat ((header.drop 8).take 4))).toNat
      > reg.stack.length - off)
    (hindex : reg.index (EightCC.ofBytes (header.take 8)) off
      (UInt32.ofNat (leNat ((header.drop 8).take 4))) = .ok (ord, reg')) :
    reg.scan off = reg'.scan (off + alignUp (RECORD_HEADER_LEN +
      (UInt32.ofNat (leNat ((header.drop 8).take 4))).toNat) 8) := by
  rw [scan, if_pos hoff, hheader]
  dsimp only
  rw [if_neg hbound]
  split
  next e heq =>
    rw [hindex] at heq
    cases heq
  next ord₁ reg₁ heq =>
    rw [hindex] at heq
    cases heq
    rfl

/-- Scanning the rest of a stack adds its records to the index. -/
theorem scan_rest (rest : List Entry) : ∀ (reg : RttiRegistry) (done : List Entry),
    reg.stack = stackOf (done ++ rest) → Indexed reg done →
    ((done ++ rest).map (·.1)).Nodup → (done ++ rest).length ≤ 2 ^ 32 →
    (∀ e ∈ rest, e.2.length < 2 ^ 32) →
    ∃ reg', reg.scan (stackOf done).length = .ok reg' ∧ reg'.stack = reg.stack ∧
      Indexed reg' (done ++ rest) := by
  induction rest with
  | nil =>
      intro reg done hstack hindex hnodup hcount hlens
      rw [List.append_nil] at hstack
      refine ⟨reg, ?_, rfl, by rwa [List.append_nil]⟩
      rw [scan, if_neg (by rw [hstack]; omega)]
  | cons e rest ih =>
      intro reg done hstack hindex hnodup hcount hlens
      have hlen := hlens e List.mem_cons_self
      have hnew : e.1 ∉ done.map (·.1) := by
        intro hmem
        rw [List.map_append, List.map_cons] at hnodup
        exact (List.nodup_append'.mp hnodup).2.2 hmem List.mem_cons_self
      have hcount' : done.length < 2 ^ 32 := by
        rw [List.length_append, List.length_cons] at hcount
        omega
      obtain ⟨reg₁, hrun, hstack₁, hindex₁⟩ := hindex.index hcount' hnew
      have happend : done ++ e :: rest = (done ++ [e]) ++ rest := by simp
      have hnext : (stackOf done).length + alignUp (RECORD_HEADER_LEN + e.2.length) 8
          = (stackOf (done ++ [e])).length := by
        rw [stackOf_append, List.length_append, stackOf_cons, List.length_append, e.length_frame]
        rfl
      obtain ⟨reg₂, hscan, hstack₂, hindex₂⟩ := ih reg₁ (done ++ [e])
        (by rw [hstack₁, hstack, happend]) hindex₁ (by rwa [← happend]) (by rwa [← happend])
        fun x hx => hlens x (List.mem_cons_of_mem e hx)
      refine ⟨reg₂, ?_, hstack₂.trans hstack₁, by rwa [happend]⟩
      have hsplit : reg.stack
          = stackOf done ++ e.header ++ (e.frame.drop RECORD_HEADER_LEN ++ stackOf rest) := by
        have hframe : e.frame = e.header ++ e.frame.drop RECORD_HEADER_LEN := by
          conv_lhs => rw [← List.take_append_drop RECORD_HEADER_LEN e.frame]
          rw [Entry.frame, List.append_assoc, List.take_left' e.length_header]
        rw [hstack, stackOf_append, stackOf_cons, List.append_assoc (stackOf done),
          ← List.append_assoc e.header, ← hframe]
      have hroom : (stackOf done).length + alignUp (RECORD_HEADER_LEN + e.2.length) 8
          ≤ reg.stack.length := by
        rw [hnext, hstack, happend, stackOf_append (done ++ [e]), List.length_append]
        exact Nat.le_add_right _ _
      have hpad := le_alignUp (by decide : 0 < 8) (RECORD_HEADER_LEN + e.2.length)
      have hheader : 0 < RECORD_HEADER_LEN := by decide
      have hbodyLen := Entry.header_bodyLen hlen
      have hget : stackGet reg.stack (stackOf done).length RECORD_HEADER_LEN = .ok e.header := by
        rw [hsplit, ← e.length_header, stackGet_middle]
      have hindexed : reg.index (EightCC.ofBytes (e.header.take 8)) (stackOf done).length
          (.ofNat (leNat ((e.header.drop 8).take 4))) = .ok (.ofNat done.length, reg₁) := by
        rw [e.header_tag, ← hrun, e.header_word, leNat_leBytes (by simpa using hlen)]
      have hstep := scan_step (by omega) hget (by rw [hbodyLen]; omega) hindexed
      rw [hbodyLen, hnext] at hstep
      rw [hstep, hscan]

/-! ### What a registry holds -/

/-- The record of `e` is the one `ty` was appended as. -/
structure Records (e : Entry) (ty : RttiType) : Prop where
  tag : e.1 = ty.tag
  body : encodeType ty = .ok e.2
  readable : ty.Readable
  short : e.2.length < 2 ^ 32

/-- The registry is open on the records of `tys`, in their order. -/
def Held (reg : RttiRegistry) (tys : List RttiType) : Prop :=
  tys.length ≤ 2 ^ 32 ∧ ∃ es, List.Forall₂ Records es tys ∧ reg.stack = stackOf es ∧ Indexed reg es

variable {tys : List RttiType} {ty : RttiType}

theorem map_tag_of_records (h : List.Forall₂ Records es tys) :
    es.map (·.1) = tys.map (·.tag) := by
  induction h with
  | nil => rfl
  | cons hhead _ ih => rw [List.map_cons, List.map_cons, hhead.tag, ih]

theorem short_of_records (h : List.Forall₂ Records es tys) : ∀ e ∈ es, e.2.length < 2 ^ 32 := by
  induction h with
  | nil => exact nofun
  | cons hhead _ ih =>
      intro e he
      cases he with
      | head => exact hhead.short
      | tail _ he => exact ih e he

theorem Records.split (h : List.Forall₂ Records es tys) {i : Nat} (hi : tys[i]? = some ty) :
    ∃ done e rest doneTys restTys, es = done ++ e :: rest ∧ tys = doneTys ++ ty :: restTys ∧
      done.length = i ∧ doneTys.length = i ∧ Records e ty ∧
      List.Forall₂ Records done doneTys ∧ List.Forall₂ Records rest restTys := by
  induction h generalizing i with
  | nil => cases hi
  | @cons e ty' rest restTys hhead htail ih =>
      cases i with
      | zero =>
          cases hi
          exact ⟨[], e, rest, [], restTys, rfl, rfl, rfl, rfl, hhead, .nil, htail⟩
      | succ i =>
          obtain ⟨done, e', rest', doneTys, restTys', hes, htys, hlen, hlen', he, hdone, hrest⟩ := ih hi
          exact ⟨e :: done, e', rest', ty' :: doneTys, restTys', by rw [hes]; rfl, by rw [htys]; rfl,
            by rw [List.length_cons, hlen], by rw [List.length_cons, hlen'], he,
            .cons hhead hdone, hrest⟩

theorem stack_body (done : List Entry) (e : Entry) (rest : List Entry) :
    ∃ back, ∀ body : List UInt8, body.length = e.2.length →
      stackOf (done ++ (e.1, body) :: rest) = stackOf done ++ e.header ++ body ++ back := by
  refine ⟨List.replicate (alignUp (RECORD_HEADER_LEN + e.2.length) 8
    - (RECORD_HEADER_LEN + e.2.length)) 0 ++ stackOf rest, fun body hbody => ?_⟩
  rw [stackOf_append, stackOf_cons, Entry.frame, Entry.header, hbody]
  simp only [List.append_assoc, Entry.header]

theorem Held.open_empty (h : RttiRegistry.open [] = .ok reg) : Held reg [] := by
  rw [RttiRegistry.open, scan, if_neg (by simp)] at h
  cases h
  refine ⟨by simp, [], .nil, rfl, rfl, fun tag ord => ?_⟩
  simp

theorem Held.append (h : Held reg tys) (hcount : tys.length < 2 ^ 32) (hty : ty.Readable)
    (hrun : reg.append ty = .ok (ord, reg')) : Held reg' (tys ++ [ty]) := by
  obtain ⟨-, es, hes, hstack, hindex⟩ := h
  have hlen : es.length = tys.length := hes.length_eq
  unfold RttiRegistry.append at hrun
  cases htag : reg.byTag ty.tag with
  | some o =>
      rw [htag] at hrun
      cases hrun
  | none =>
      rw [htag] at hrun
      obtain ⟨body, hbody, hrun⟩ := except_bind_ok.mp hrun
      obtain ⟨⟨record, bodyLen⟩, hframe, hrun⟩ := except_bind_ok.mp hrun
      obtain ⟨hshort, rfl, rfl⟩ := frameRecord_ok hframe
      have hnew : ty.tag ∉ es.map (·.1) := by
        intro hmem
        obtain ⟨i, hi⟩ := List.getElem?_of_mem hmem
        have hlt : i < es.length := by
          have := (List.getElem?_eq_some_iff.mp hi).1
          rwa [List.length_map] at this
        have hsome := (hindex.byTag ty.tag (.ofNat i)).mpr (by
          rwa [UInt32.toNat_ofNat_of_lt' (Nat.lt_trans hlt (hlen ▸ hcount))])
        rw [htag] at hsome
        cases hsome
      have hindex₀ : Indexed { reg with stack := reg.stack ++ Entry.frame (ty.tag, body) } es :=
        ⟨hindex.records, hindex.byTag⟩
      obtain ⟨reg₁, hrun₁, hstack₁, hindex₁⟩ := hindex₀.index (e := (ty.tag, body))
        (hlen ▸ hcount) hnew
      rw [← hstack] at hrun₁
      have heq := hrun₁.symm.trans hrun
      cases heq
      refine ⟨by rw [List.length_append]; exact hcount, es ++ [(ty.tag, body)], ?_, ?_, hindex₁⟩
      · exact List.rel_append hes (.cons ⟨rfl, hbody, hty, hshort⟩ .nil)
      · rw [hstack₁, stackOf_append, hstack]
        show _ = _ ++ (Entry.frame (ty.tag, body) ++ [])
        rw [List.append_nil]

theorem Held.reopen (h : Held reg tys) : RttiRegistry.open reg.stack = .ok reg := by
  obtain ⟨hcount, es, hes, hstack, hindex⟩ := h
  have hlen : es.length = tys.length := hes.length_eq
  have hempty : Indexed ⟨reg.stack, [], fun _ => none⟩ [] := ⟨rfl, fun tag ord => by simp⟩
  obtain ⟨reg', hscan, hstack', hindex'⟩ := scan_rest es ⟨reg.stack, [], fun _ => none⟩ []
    hstack hempty (hindex.nodup (by omega)) (by rw [List.nil_append]; omega) (short_of_records hes)
  rw [RttiRegistry.open]
  show scan _ (stackOf []).length = _
  rw [hscan, hindex'.unique hindex hstack']

/-- Every ordinal loads the type that was appended there. -/
theorem Held.loadType (h : Held reg tys) (hi : tys[ord.toNat]? = some ty) :
    reg.loadType ord = .ok ty := by
  obtain ⟨-, es, hes, hstack, hindex⟩ := h
  obtain ⟨done, e, rest, doneTys, restTys, rfl, rfl, hdone, -, he, -, -⟩ := Records.split hes hi
  obtain ⟨back, hback⟩ := stack_body done e rest
  have hrec : reg.records[ord.toNat]? = some ⟨e.1, (stackOf done).length, .ofNat e.2.length⟩ := by
    rw [hindex.records, ← hdone, recordsFrom_get]
  have hget : stackGet reg.stack ((stackOf done).length + RECORD_HEADER_LEN) e.2.length
      = .ok e.2 := by
    rw [hstack, hback e.2 rfl, ← e.length_header, ← List.length_append, stackGet_middle]
  rw [RttiRegistry.loadType, hrec]
  show (stackGet reg.stack _ (UInt32.ofNat e.2.length).toNat >>= _) = _
  rw [UInt32.toNat_ofNat_of_lt' he.short, hget]
  show decodeType e.1 e.2 = _
  rw [he.tag]
  exact (decode_of_encode he.body).mpr he.readable

/-- Ordinals and tags resolve to one another. -/
theorem Held.ordinalOf_iff (h : Held reg tys) (tag : EightCC) (ord : RttiOrdinal) :
    reg.ordinalOf tag = some ord ↔ reg.tagOf ord = some tag := by
  obtain ⟨-, es, hes, hstack, hindex⟩ := h
  rw [RttiRegistry.ordinalOf, hindex.byTag, RttiRegistry.tagOf, hindex.records, ← map_tag_recordsFrom 0,
    List.getElem?_map]

theorem Held.type_of_ordinal {tag : EightCC} (h : Held reg tys)
    (hord : reg.ordinalOf tag = some ord) : ∃ ty, tys[ord.toNat]? = some ty ∧ ty.tag = tag := by
  obtain ⟨-, es, hes, -, hindex⟩ := h
  rw [RttiRegistry.ordinalOf, hindex.byTag, map_tag_of_records hes, List.getElem?_map] at hord
  exact Option.map_eq_some_iff.mp hord

theorem Held.ordinal_of_type (h : Held reg tys) (hty : ty ∈ tys) :
    ∃ ord : RttiOrdinal, tys[ord.toNat]? = some ty := by
  obtain ⟨i, hi⟩ := List.getElem?_of_mem hty
  have hlt : i < 2 ^ 32 := Nat.lt_of_lt_of_le (List.getElem?_eq_some_iff.mp hi).1 h.1
  exact ⟨.ofNat i, by rwa [UInt32.toNat_ofNat_of_lt' hlt]⟩

def withClassValue (tys : List RttiType) (tag : EightCC) (name : String) (value : List UInt8) :
    List RttiType :=
  tys.map fun ty => if ty.tag = tag then ty.withClassValue name value else ty

theorem withClassValue_split {doneTys restTys : List RttiType} {name : String}
    {value : List UInt8} (h : ((doneTys ++ ty :: restTys).map (·.tag)).Nodup) :
    withClassValue (doneTys ++ ty :: restTys) ty.tag name value
      = doneTys ++ ty.withClassValue name value :: restTys := by
  rw [List.map_append, List.map_cons, List.nodup_append'] at h
  obtain ⟨-, hrest, hdisj⟩ := h
  have hother : ∀ tys' : List RttiType, ty.tag ∉ tys'.map (·.tag) →
      (tys'.map fun ty' => if ty'.tag = ty.tag then ty'.withClassValue name value else ty') = tys' := by
    intro tys' hnot
    conv_rhs => rw [← List.map_id tys']
    apply List.map_congr_left
    intro ty' hmem
    rw [if_neg]
    · rfl
    · intro heq
      exact hnot (heq ▸ List.mem_map_of_mem hmem)
  rw [withClassValue, List.map_append, List.map_cons, if_pos rfl,
    hother doneTys fun hmem => hdisj hmem List.mem_cons_self, hother restTys (List.nodup_cons.mp hrest).1]

/-- A class variable stands at one place of the stack. Other bytes of its width written there are its
new value. -/
theorem Held.slot (h : Held reg tys) (hi : tys[ord.toNat]? = some ty) (name : String) :
    ∃ front back, reg.stack = front ++ slotValue (ty.classVariable name) ++ back ∧
      reg.locateClassValue ty.tag name = (match ty.classVariable name with
        | none => .error ⟨.classVar, "RTTI class variable: no class variable named `" ++ name ++ "`"⟩
        | some (mutable, value) => .ok (front.length, value.length, mutable)) ∧
      ∀ value, value.length = (slotValue (ty.classVariable name)).length →
        Held { reg with stack := front ++ value ++ back } (withClassValue tys ty.tag name value) := by
  obtain ⟨hcount, es, hes, hstack, hindex⟩ := h
  have hnodup : (tys.map (·.tag)).Nodup := by
    rw [← map_tag_of_records hes]
    exact hindex.nodup (by rw [hes.length_eq]; exact hcount)
  have hbyTag : reg.byTag ty.tag = some ord := by
    rw [hindex.byTag, map_tag_of_records hes, List.getElem?_map, hi]
    rfl
  obtain ⟨done, e, rest, doneTys, restTys, rfl, rfl, hdone, -, he, hdoneTys, hrestTys⟩ :=
    Records.split hes hi
  obtain ⟨back, hback⟩ := stack_body done e rest
  obtain ⟨front, back', hbody, hall⟩ := classValueSlot_spec he.readable he.body name
  have hrec : reg.records[ord.toNat]? = some ⟨e.1, (stackOf done).length, .ofNat e.2.length⟩ := by
    rw [hindex.records, ← hdone, recordsFrom_get]
  have hget : stackGet reg.stack ((stackOf done).length + RECORD_HEADER_LEN)
      (UInt32.ofNat e.2.length).toNat = .ok e.2 := by
    rw [hstack, hback e.2 rfl, ← e.length_header, ← List.length_append,
      UInt32.toNat_ofNat_of_lt' he.short, stackGet_middle]
  have hplace : (stackOf done).length + RECORD_HEADER_LEN + front.length
      = (stackOf done ++ e.header ++ front).length := by
    rw [List.length_append, List.length_append, e.length_header]
  refine ⟨stackOf done ++ e.header ++ front, back' ++ back, ?_, ?_, fun value hvalue => ?_⟩
  · rw [hstack, hback e.2 rfl]
    conv_lhs => rw [hbody]
    simp only [List.append_assoc]
  · have hslot := (hall _ rfl).2
    rw [← hbody] at hslot
    simp only [locateClassValue, ordinalOf, hbyTag, hrec]
    show (stackGet reg.stack _ _ >>= _) = _
    rw [hget]
    show (classValueSlot e.2 name >>= _) = _
    rw [hslot]
    cases ty.classVariable name with
    | none => rfl
    | some s =>
        rw [← hplace]
        rfl
  · obtain ⟨hencode, -⟩ := hall value hvalue
    have hlen : (front ++ value ++ back').length = e.2.length := by
      rw [hbody]
      simp only [List.length_append, hvalue]
    rw [withClassValue_split hnodup]
    refine ⟨by simpa using hcount, done ++ (e.1, front ++ value ++ back') :: rest, ?_, ?_, ?_⟩
    · apply List.rel_append hdoneTys
      refine .cons ⟨?_, hencode, RttiType.readable_withClassValue he.readable, ?_⟩ hrestTys
      · rw [RttiType.withClassValue_tag, he.tag]
      · exact lt_of_eq_of_lt hlen he.short
    · rw [hback _ hlen]
      simp only [List.append_assoc]
    · exact hindex.replace hlen

theorem Held.setClassValue {tag : EightCC} {name : String} {value : List UInt8} (h : Held reg tys)
    (hrun : reg.setClassValue tag name value = .ok reg') :
    Held reg' (withClassValue tys tag name value) := by
  obtain ⟨⟨off, len, mutable⟩, hlocate, hset⟩ := except_bind_ok.mp hrun
  cases hord : reg.ordinalOf tag with
  | none =>
      rw [RttiRegistry.locateClassValue, hord] at hlocate
      cases hlocate
  | some ord =>
      obtain ⟨ty, hi, rfl⟩ := h.type_of_ordinal hord
      obtain ⟨front, back, hstack, hplace, hheld⟩ := h.slot hi name
      rw [hlocate] at hplace
      cases hvar : ty.classVariable name with
      | none =>
          rw [hvar] at hplace
          cases hplace
      | some s =>
          rw [hvar] at hplace hstack hheld
          cases hplace
          simp only at hset
          split at hset
          · cases hset
          · split at hset
            · cases hset
            · next hlen =>
              rw [Decidable.not_not] at hlen
              obtain ⟨stack, hstack', heq⟩ := except_bind_ok.mp hset
              cases heq
              rw [hstack, stackSet_middle _ (slotValue (some s)) _ _ hlen] at hstack'
              cases hstack'
              exact hheld value hlen

theorem Held.classValue {name : String} {mutable : Bool} {value : List UInt8} (h : Held reg tys)
    (hty : ty ∈ tys) (hvar : ty.classVariable name = some (mutable, value)) :
    reg.classValue ty.tag name = .ok value := by
  obtain ⟨ord, hi⟩ := h.ordinal_of_type hty
  obtain ⟨front, back, hstack, hplace, -⟩ := h.slot hi name
  rw [hvar] at hplace hstack
  rw [RttiRegistry.classValue, hplace]
  show stackGet reg.stack front.length value.length = _
  rw [hstack]
  exact stackGet_middle front value back

theorem Held.tagOf (h : Held reg tys) (ord : RttiOrdinal) :
    reg.tagOf ord = tys[ord.toNat]?.map (·.tag) := by
  obtain ⟨-, es, hes, -, hindex⟩ := h
  rw [RttiRegistry.tagOf, hindex.records, ← List.getElem?_map, map_tag_recordsFrom,
    map_tag_of_records hes, List.getElem?_map]

theorem map_tag_withClassValue (tys : List RttiType) (tag : EightCC) (name : String)
    (value : List UInt8) : (withClassValue tys tag name value).map (·.tag) = tys.map (·.tag) := by
  rw [withClassValue, List.map_map]
  apply List.map_congr_left
  intro ty _
  show (if ty.tag = tag then ty.withClassValue name value else ty).tag = ty.tag
  split
  · exact RttiType.withClassValue_tag
  · rfl

/-! ### Runs -/

/-- The operations that change a registry or replace it. -/
inductive Op
  | append (ty : RttiType)
  | setClassValue (tag : EightCC) (name : String) (value : List UInt8)
  | reopen

namespace Op

def run : Op → RttiRegistry → RttiResult RttiRegistry
  | append ty, reg => (·.2) <$> reg.append ty
  | setClassValue tag name value, reg => reg.setClassValue tag name value
  | reopen, reg => RttiRegistry.open reg.stack

/-- What the operation makes of the types appended so far. -/
def types : Op → List RttiType → List RttiType
  | append ty, tys => tys ++ [ty]
  | setClassValue tag name value, tys => withClassValue tys tag name value
  | reopen, tys => tys

/-- Only readable types are appended, and no more of them than there are ordinals. -/
def Fits : Op → List RttiType → Prop
  | append ty, tys => ty.Readable ∧ tys.length < 2 ^ 32
  | setClassValue _ _ _, _ => True
  | reopen, _ => True

end Op

/-- The successful operations that lead from one registry to another, beside the types. -/
inductive Leads (reg : RttiRegistry) (tys : List RttiType) : RttiRegistry → List RttiType → Prop
  | refl : Leads reg tys reg tys
  | step {reg₁ reg₂ : RttiRegistry} {tys₁ : List RttiType} (op : Op) (h : Leads reg tys reg₁ tys₁)
      (hfits : op.Fits tys₁) (hrun : op.run reg₁ = .ok reg₂) : Leads reg tys reg₂ (op.types tys₁)

theorem Held.step {op : Op} (h : Held reg tys) (hfits : op.Fits tys) (hrun : op.run reg = .ok reg') :
    Held reg' (op.types tys) := by
  cases op with
  | append ty =>
      obtain ⟨⟨ord, reg₁⟩, happend, heq⟩ := except_bind_ok.mp hrun
      cases heq
      exact h.append hfits.2 hfits.1 happend
  | setClassValue tag name value => exact h.setClassValue hrun
  | reopen =>
      have heq := h.reopen.symm.trans hrun
      cases heq
      exact h

theorem Held.leads (h : Held reg tys) {tys' : List RttiType} (hrun : Leads reg tys reg' tys') :
    Held reg' tys' := by
  induction hrun with
  | refl => exact h
  | step op _ hfits hrun ih => exact ih.step hfits hrun

theorem Leads.tags {tys' : List RttiType} (h : Leads reg tys reg' tys') {i : Nat} {tag : EightCC}
    (hi : (tys.map (·.tag))[i]? = some tag) : (tys'.map (·.tag))[i]? = some tag := by
  induction h with
  | refl => exact hi
  | step op _ _ _ ih =>
      cases op with
      | append ty =>
          show ((_ ++ [ty]).map (·.tag))[i]? = _
          rw [List.map_append, List.getElem?_append_left (List.getElem?_eq_some_iff.mp ih).1, ih]
      | setClassValue tag' name value =>
          show ((withClassValue _ tag' name value).map (·.tag))[i]? = _
          rw [map_tag_withClassValue, ih]
      | reopen => exact ih

/-- A record gives its type back just when the type is readable. A registry that took only such
types, one for each ordinal at most, loads every one of them with the current values of its class
variables, resolves tags and ordinals to one another, never renumbers, and reopens as it was. -/
theorem registry_returns_types {fresh reg : RttiRegistry} {tys : List RttiType}
    (hopen : RttiRegistry.open [] = .ok fresh) (hrun : Leads fresh [] reg tys) :
    (∀ ty body, encodeType ty = .ok body → (decodeType ty.tag body = .ok ty ↔ ty.Readable)) ∧
      (∀ (ord : RttiOrdinal) ty, tys[ord.toNat]? = some ty → reg.loadType ord = .ok ty) ∧
      (∀ ord, reg.tagOf ord = tys[ord.toNat]?.map (·.tag)) ∧
      (∀ tag ord, reg.ordinalOf tag = some ord ↔ reg.tagOf ord = some tag) ∧
      (∀ reg' tys', Leads reg tys reg' tys' →
        ∀ ord tag, reg.tagOf ord = some tag → reg'.tagOf ord = some tag) ∧
      RttiRegistry.open reg.stack = .ok reg := by
  have hheld := (Held.open_empty hopen).leads hrun
  refine ⟨fun ty body => decode_of_encode, fun ord ty => hheld.loadType, hheld.tagOf,
    hheld.ordinalOf_iff, fun reg' tys' hlater ord tag htag => ?_, hheld.reopen⟩
  rw [(hheld.leads hlater).tagOf, ← List.getElem?_map]
  apply hlater.tags
  rw [List.getElem?_map, ← hheld.tagOf, htag]

theorem exists_of_isOk {α : Type} {x : RttiResult α} (h : x.isOk = true) : ∃ a, x = .ok a := by
  cases x with
  | error e => cases h
  | ok a => exact ⟨a, rfl⟩

def oneField (shape : Shape) : RttiType where
  tag := .zero
  name := "T"
  rc := false
  weak := false
  ctrlTag := none
  ondiskSize := 16
  body := .struct [⟨"v", 0, shape⟩]

/-- A class variable is registered, set and read back. -/
theorem registry_returns_types_once :
    ∃ fresh reg₁ reg₂ : RttiRegistry, RttiRegistry.open [] = .ok fresh ∧
      fresh.append (oneField (.classVar true (.pod 1) [0])) = .ok (0, reg₁) ∧
      reg₁.setClassValue .zero "v" [7] = .ok reg₂ ∧
      reg₂.loadType 0 = .ok (oneField (.classVar true (.pod 1) [7])) := by
  have hopen : RttiRegistry.open [] = .ok ⟨[], [], fun _ => none⟩ := by
    rw [RttiRegistry.open, scan, if_neg (by simp)]
  have hruns : (RttiRegistry.append ⟨[], [], fun _ => none⟩ (oneField (.classVar true (.pod 1) [0]))
      >>= fun r => pure r.1 : RttiResult RttiOrdinal) = .ok 0 := by decide +kernel
  have hsets : ((RttiRegistry.append ⟨[], [], fun _ => none⟩ (oneField (.classVar true (.pod 1) [0]))
      >>= fun r => r.2.setClassValue .zero "v" [7]) : RttiResult RttiRegistry).isOk = true := by
    decide +kernel
  obtain ⟨⟨ord, reg₁⟩, happend, hord⟩ := except_bind_ok.mp hruns
  cases hord
  rw [happend] at hsets
  obtain ⟨reg₂, hset⟩ := exists_of_isOk hsets
  have hreadable : (oneField (.classVar true (.pod 1) [0])).Readable := by
    refine ⟨rfl, ?_⟩
    intro f hf
    cases hf with
    | head => exact trivial
    | tail _ hf => cases hf
  have hrun : Leads ⟨[], [], fun _ => none⟩ [] reg₂ _ :=
    .step (.setClassValue .zero "v" [7]) (.step (.append (oneField (.classVar true (.pod 1) [0])))
      .refl ⟨hreadable, by decide⟩ (by rw [Op.run, happend]; rfl)) trivial hset
  exact ⟨_, reg₁, reg₂, hopen, happend, hset,
    (registry_returns_types hopen hrun).2.1 0 _ rfl⟩

def nestedOptions : Nat → Shape
  | 0 => .pod 1
  | n + 1 => .option (nestedOptions n)

/-- The registry takes a type of 65 levels and cannot give it back. -/
theorem deep_type_unreadable :
    ∃ body fresh reg, encodeType (oneField (nestedOptions 64)) = .ok body ∧
      decodeType .zero body = .error ⟨.depth, "RTTI shape nesting exceeds the maximum depth"⟩ ∧
      RttiRegistry.open [] = .ok fresh ∧
      fresh.append (oneField (nestedOptions 64)) = .ok (0, reg) ∧
      reg.loadType 0 = .error ⟨.depth, "RTTI shape nesting exceeds the maximum depth"⟩ := by
  have herror : ∀ {x : RttiResult RttiType} {e : RttiError}, x.map (fun _ => ()) = .error e →
      x = .error e := by
    intro x e h
    cases x with
    | error e' =>
        cases h
        rfl
    | ok _ => cases h
  have hopen : RttiRegistry.open [] = .ok ⟨[], [], fun _ => none⟩ := by
    rw [RttiRegistry.open, scan, if_neg (by simp)]
  have hbody : (encodeType (oneField (nestedOptions 64))).isOk = true := by decide +kernel
  have hruns : (RttiRegistry.append ⟨[], [], fun _ => none⟩ (oneField (nestedOptions 64))
      >>= fun r => pure r.1 : RttiResult RttiOrdinal) = .ok 0 := by decide +kernel
  have hdecode : (encodeType (oneField (nestedOptions 64)) >>= decodeType .zero).map (fun _ => ())
      = .error ⟨.depth, "RTTI shape nesting exceeds the maximum depth"⟩ := by decide +kernel
  have hload : (RttiRegistry.append ⟨[], [], fun _ => none⟩ (oneField (nestedOptions 64))
      >>= fun r => r.2.loadType 0).map (fun _ => ())
      = .error ⟨.depth, "RTTI shape nesting exceeds the maximum depth"⟩ := by decide +kernel
  obtain ⟨⟨ord, reg⟩, happend, hord⟩ := except_bind_ok.mp hruns
  cases hord
  rw [happend] at hload
  obtain ⟨body, hencode⟩ := exists_of_isOk hbody
  rw [hencode] at hdecode
  exact ⟨body, _, reg, hencode, herror hdecode, hopen, happend, herror hload⟩

end RttiRegistry

end BStackRaii
