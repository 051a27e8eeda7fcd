import BStackRaii.Proof.Teardown.Counters
/-!
# What a walk depends on

The walks of generated teardown read whole images, counters included, and go by words that are none. So
whatever a teardown has done to the counters so far, a walk drops the tokens it would have dropped at the
start.
-/

namespace BStackRaii

variable {τ : Type} {types : τ → BlockType τ} {f : File}

/-! ### The tokens of a walk -/

namespace Walk

/-- Every token the walk may drop, whatever it reads. -/
def All (P : Token τ → Prop) : Walk τ → Prop
  | .done _ => True
  | .read _ _ rest => ∀ bytes, (rest bytes).All P
  | .drop token rest => P token ∧ rest.All P

theorem All.of_tokens {P : Token τ → Prop} {walk : Walk τ} {tokens : List (Token τ)} (h : walk.All P)
    (htokens : walk.tokens f = .ok tokens) : ∀ tok ∈ tokens, P tok := by
  induction walk generalizing tokens with
  | done out =>
      cases out with
      | ok _ =>
          cases htokens
          exact fun tok htok => by cases htok
      | error e => cases htokens
  | read off n rest ih =>
      rw [Walk.tokens] at htokens
      split at htokens
      · exact ih _ (h _) htokens
      · cases htokens
  | drop token rest ih =>
      rw [Walk.tokens] at htokens
      cases hrest : rest.tokens f with
      | error e =>
          rw [hrest] at htokens
          cases htokens
      | ok tokens' =>
          rw [hrest] at htokens
          cases htokens
          exact List.forall_mem_cons.mpr ⟨h.1, ih h.2 hrest⟩

end Walk

theorem Walk.All.mono {P Q : Token τ → Prop} (hPQ : ∀ tok, P tok → Q tok) :
    ∀ {walk : Walk τ}, walk.All P → walk.All Q
  | .done _, _ => trivial
  | .read _ _ _, h => fun bytes => (h bytes).mono hPQ
  | .drop _ _, h => ⟨hPQ _ h.1, h.2.mono hPQ⟩

theorem Walk.All.intro {P : Token τ → Prop} (hP : ∀ tok, P tok) : ∀ walk : Walk τ, walk.All P
  | .done _ => trivial
  | .read _ _ rest => fun bytes => .intro hP (rest bytes)
  | .drop token rest => ⟨hP token, .intro hP rest⟩

/-- What a token of the block of type `T` at `start` leads to. -/
def Token.Fits (types : τ → BlockType τ) (T : BlockType τ) (start : Nat) : Token τ → Prop
  | owned t _ => (types t).mode = .plain
  | element t _ => (types t).mode = .plain
  | strong t _ => (types t).mode ≠ .plain
  | embed t off => (types t).mode = .plain ∧ start + T.mode.userStart ≤ off ∧
      off + (types t).size ≤ start + T.size
  | weak _ => True
  | data _ => True

section Fits

variable {T : BlockType τ} {start : Nat}

theorem all_child {P : Token τ → Prop} {off : Nat} {token : Nat → Token τ} {rest : Walk τ}
    (htoken : P (token off)) (hrest : rest.All P) : (Walk.child off token rest).All P := by
  rw [Walk.child]
  split
  · exact ⟨htoken, hrest⟩
  · exact hrest

theorem all_embedded {field : Nat} {t : τ} {rest : Walk τ} (hslot : FieldSlot T field (types t).size)
    (hmode : (types t).mode = .plain) (hrest : rest.All (Token.Fits types T start)) :
    (Walk.embedded start field t rest).All (Token.Fits types T start) := by
  rw [Walk.embedded, checkedOff]
  obtain ⟨hge, hle⟩ := hslot
  split
  · rename_i off hoff
    split at hoff
    · cases hoff
      exact ⟨⟨hmode, by omega, by omega⟩, hrest⟩
    · cases hoff
  · trivial

theorem all_struct {stmts : List (DropStmt τ)} (hfits : ∀ s ∈ stmts, s.Fits types T)
    (image : List UInt8) : (stmts.foldr (fun s rest => DropStmt.emit start image rest s) (.done (.ok ()))).All
      (Token.Fits types T start) := by
  induction stmts with
  | nil => trivial
  | cons s stmts ih =>
      obtain ⟨hs, hstmts⟩ := List.forall_mem_cons.mp hfits
      rw [List.foldr_cons]
      generalize List.foldr (fun s rest => DropStmt.emit start image rest s) (Walk.done (.ok ())) stmts = rest at ih
      cases s with
      | owned field t => exact all_child hs.2 (ih hstmts)
      | strong field t => exact all_child hs.2 (ih hstmts)
      | weak field => exact all_child trivial (ih hstmts)
      | embed field t => exact all_embedded hs.1 hs.2 (ih hstmts)
      | vec field nullable =>
          rw [DropStmt.emit]
          split
          · exact ih hstmts
          · exact ⟨trivial, ih hstmts⟩

theorem all_arm {payload : Nat} {arm : DropArm τ} (hfits : arm.Fits types T payload) (image : List UInt8) :
    (arm.emit start payload image).All (Token.Fits types T start) := by
  cases arm with
  | owned t => exact ⟨hfits.2, trivial⟩
  | strong t => exact ⟨hfits.2, trivial⟩
  | weak => exact ⟨trivial, trivial⟩
  | embed t => exact all_embedded hfits.1 hfits.2 trivial
  | nothing => trivial

theorem all_nodes {value : τ} (hvalue : (types value).mode = .plain) (remaining : Nat) (cur : Nat) :
    (nodeChildren value remaining cur).All (Token.Fits types T start) := by
  induction remaining generalizing cur with
  | zero =>
      rw [nodeChildren]
      split <;> trivial
  | succ remaining ih =>
      rw [nodeChildren]
      split
      · trivial
      · split
        · exact fun _ _ => all_child hvalue ⟨trivial, ih _⟩
        · trivial
        · exact fun _ => trivial

theorem mem_of_lookup {α β : Type} [DecidableEq α] {k : α} {v : β} {l : List (α × β)}
    (h : l.lookup k = some v) : (k, v) ∈ l := by
  obtain ⟨l₁, l₂, rfl, -⟩ := List.lookup_eq_some_iff.mp h
  exact List.mem_append_right _ List.mem_cons_self

theorem all_dropChildren [DecidableEq τ] (hl : Laid types) (t : τ) (start : Nat) :
    ((types t).dropChildren start).All (Token.Fits types (types t) start) := by
  have hfits := hl.fits t
  rw [BlockType.dropChildren]
  cases hbody : (types t).body with
  | struct stmts =>
      rw [hbody] at hfits
      exact fun image => all_struct hfits image
  | enum disc width payload arms =>
      rw [hbody] at hfits
      simp only [enumChildren]
      split
      · trivial
      · intro image
        simp only
        split
        · rename_i arm harm
          exact all_arm (hfits.2 _ (mem_of_lookup harm)) image
        · trivial
  | list value =>
      rw [hbody] at hfits
      exact fun _ _ => all_nodes hfits.2.2 _ _

end Fits

/-! ### Types without elements -/

/-- The token is not for an element, which is torn down in a batch of its own. -/
def Token.Plain : Token τ → Prop
  | element _ _ => False
  | _ => True

section Plain

variable {start : Nat}

theorem plain_embedded {field : Nat} {t : τ} {rest : Walk τ} (hrest : rest.All Token.Plain) :
    (Walk.embedded start field t rest).All Token.Plain := by
  rw [Walk.embedded]
  split
  · exact ⟨trivial, hrest⟩
  · trivial

theorem plain_struct (image : List UInt8) (stmts : List (DropStmt τ)) :
    (stmts.foldr (fun s rest => DropStmt.emit start image rest s) (.done (.ok ()))).All Token.Plain := by
  induction stmts with
  | nil => trivial
  | cons s stmts ih =>
      rw [List.foldr_cons]
      generalize List.foldr (fun s rest => DropStmt.emit start image rest s) (Walk.done (.ok ())) stmts = rest at ih
      cases s with
      | owned field t => exact all_child trivial ih
      | strong field t => exact all_child trivial ih
      | weak field => exact all_child trivial ih
      | embed field t => exact plain_embedded ih
      | vec field nullable =>
          rw [DropStmt.emit]
          split
          · exact ih
          · exact ⟨trivial, ih⟩

theorem plain_arm {payload : Nat} (arm : DropArm τ) (image : List UInt8) :
    (arm.emit start payload image).All Token.Plain := by
  cases arm with
  | owned t => exact ⟨trivial, trivial⟩
  | strong t => exact ⟨trivial, trivial⟩
  | weak => exact ⟨trivial, trivial⟩
  | embed t => exact plain_embedded trivial
  | nothing => trivial

/-- Lists alone have elements. -/
theorem plain_dropChildren [DecidableEq τ] {T : BlockType τ} (hlist : ∀ value, T.body ≠ .list value) (start : Nat) :
    (T.dropChildren start).All Token.Plain := by
  rw [BlockType.dropChildren]
  cases hbody : T.body with
  | struct stmts => exact fun image => plain_struct image stmts
  | enum disc width payload arms =>
      simp only [enumChildren]
      split
      · trivial
      · intro image
        simp only
        split
        · exact plain_arm _ image
        · trivial
  | list value => exact absurd hbody (hlist value)

end Plain

/-! ### Blindness -/

section Blind

variable {root : Place τ} {N : Finset (Place τ)}

/-- In the structure, the memory differs from the file's in the counters only. -/
def AgreesOff (types : τ → BlockType τ) (f : File) (N : Finset (Place τ)) (m : Mem) : Prop :=
  ∀ i, Uncounted types f N i → m i = f.bytes i

/-- On its way over `f`, the walk would not notice other counters. -/
def Walk.Blind (types : τ → BlockType τ) (f : File) (N : Finset (Place τ)) : Walk τ → Prop
  | .done _ => True
  | .read off n rest => (∀ m, AgreesOff types f N m → rest (m.read off n) = rest (f.bytes.read off n)) ∧
      (rest (f.bytes.read off n)).Blind types f N
  | .drop _ rest => rest.Blind types f N

variable {m : Mem} {T : BlockType τ} {start off n field width : Nat}

theorem AgreesOff.read_eq (hm : AgreesOff types f N m)
    (huncounted : ∀ i, off ≤ i → i < off + n → Uncounted types f N i) : m.read off n = f.bytes.read off n :=
  Mem.read_congr fun i hge hlt => hm i (huncounted i hge hlt)

theorem fieldWord_read (m : Mem) (h : field + 8 ≤ n) : fieldWord (m.read off n) field = m.word (off + field) := by
  rw [fieldWord, Mem.take_drop_read h]
  rfl

/-- The user's part of the block at `start` lies off the counters. -/
def ClearAt (types : τ → BlockType τ) (f : File) (N : Finset (Place τ)) (T : BlockType τ) (start : Nat) :
    Prop :=
  ∀ i, start + T.mode.userStart ≤ i → i < start + T.size → Uncounted types f N i

theorem ClearAt.fieldWord_eq (hclear : ClearAt types f N T start) (hm : AgreesOff types f N m)
    (hslot : FieldSlot T field width) (hword : 8 ≤ width) :
    fieldWord (m.read start T.size) field = fieldWord (f.bytes.read start T.size) field := by
  obtain ⟨hge, hle⟩ := hslot
  rw [fieldWord_read m (by omega), fieldWord_read f.bytes (by omega)]
  exact Mem.word_congr fun i hi hi' => hm i (hclear i (by omega) (by omega))

theorem blind_read {rest : List UInt8 → Walk τ}
    (heq : ∀ m, AgreesOff types f N m → m.read off n = f.bytes.read off n)
    (hrest : (rest (f.bytes.read off n)).Blind types f N) : (Walk.read off n rest).Blind types f N := by
  rw [Walk.Blind]
  exact ⟨fun m hm => by rw [heq m hm], hrest⟩

theorem blind_child {token : Nat → Token τ} {rest : Walk τ} (hrest : rest.Blind types f N) :
    (Walk.child off token rest).Blind types f N := by
  rw [Walk.child]
  split <;> exact hrest

theorem blind_embedded {t : τ} {rest : Walk τ} (hrest : rest.Blind types f N) :
    (Walk.embedded start field t rest).Blind types f N := by
  rw [Walk.embedded]
  split
  · exact hrest
  · trivial

theorem blind_stmt {rest : Walk τ} (hrest : rest.Blind types f N) (image : List UInt8) (s : DropStmt τ) :
    (s.emit start image rest).Blind types f N := by
  cases s with
  | owned field t => exact blind_child hrest
  | strong field t => exact blind_child hrest
  | weak field => exact blind_child hrest
  | embed field t => exact blind_embedded hrest
  | vec field nullable =>
      rw [DropStmt.emit]
      split <;> exact hrest

theorem emit_eq (hclear : ClearAt types f N T start) (hm : AgreesOff types f N m) {s : DropStmt τ}
    (hfits : s.Fits types T) (rest : Walk τ) :
    s.emit start (m.read start T.size) rest = s.emit start (f.bytes.read start T.size) rest := by
  cases s with
  | owned field t => rw [DropStmt.emit, DropStmt.emit, hclear.fieldWord_eq hm hfits.1 (Nat.le_refl 8)]
  | strong field t => rw [DropStmt.emit, DropStmt.emit, hclear.fieldWord_eq hm hfits.1 (Nat.le_refl 8)]
  | weak field => rw [DropStmt.emit, DropStmt.emit, hclear.fieldWord_eq hm hfits (Nat.le_refl 8)]
  | embed field t => rfl
  | vec field nullable =>
      have hlow : FieldSlot T field 8 := ⟨hfits.1, by have := hfits.2; omega⟩
      have hhigh : FieldSlot T (field + 8) 8 := ⟨by have := hfits.1; omega, by have := hfits.2; omega⟩
      rw [DropStmt.emit, DropStmt.emit, hclear.fieldWord_eq hm hlow (Nat.le_refl 8),
        hclear.fieldWord_eq hm hhigh (Nat.le_refl 8)]

theorem blind_struct {stmts : List (DropStmt τ)} (hclear : ClearAt types f N T start)
    (hfits : ∀ s ∈ stmts, s.Fits types T) : (structChildren T.size start stmts).Blind types f N := by
  constructor
  · intro m hm
    simp only
    induction stmts with
    | nil => rfl
    | cons s stmts ih =>
        obtain ⟨hs, hstmts⟩ := List.forall_mem_cons.mp hfits
        rw [List.foldr_cons, List.foldr_cons, ih hstmts, emit_eq hclear hm hs]
  · clear hfits
    simp only
    generalize f.bytes.read start T.size = image
    induction stmts with
    | nil => trivial
    | cons s stmts ih =>
        rw [List.foldr_cons]
        exact blind_stmt ih image s

theorem arm_eq (hclear : ClearAt types f N T start) (hm : AgreesOff types f N m) {arm : DropArm τ}
    (hfits : arm.Fits types T field) :
    arm.emit start field (m.read start T.size) = arm.emit start field (f.bytes.read start T.size) := by
  cases arm with
  | owned t => rw [DropArm.emit, DropArm.emit, hclear.fieldWord_eq hm hfits.1 (Nat.le_refl 8)]
  | strong t => rw [DropArm.emit, DropArm.emit, hclear.fieldWord_eq hm hfits.1 (Nat.le_refl 8)]
  | weak => rw [DropArm.emit, DropArm.emit, hclear.fieldWord_eq hm hfits (Nat.le_refl 8)]
  | embed t => rfl
  | nothing => rfl

theorem blind_arm (image : List UInt8) (arm : DropArm τ) :
    (arm.emit start field image).Blind types f N := by
  cases arm with
  | owned t => trivial
  | strong t => trivial
  | weak => trivial
  | embed t => exact blind_embedded trivial
  | nothing => trivial

theorem blind_enum [DecidableEq τ] {disc payload : Nat} {arms : List (Nat × DropArm τ)}
    (hclear : ClearAt types f N T start) (hdisc : FieldSlot T disc width)
    (hfits : ∀ arm ∈ arms, arm.2.Fits types T payload) :
    (enumChildren T.size start disc width payload arms).Blind types f N := by
  rw [enumChildren]
  split
  · trivial
  refine ⟨fun m hm => ?_, ?_⟩
  · have heq : discriminant (m.read start T.size) disc width =
        discriminant (f.bytes.read start T.size) disc width := by
      obtain ⟨hge, hle⟩ := hdisc
      rw [discriminant, discriminant, Mem.take_drop_read hle, Mem.take_drop_read hle]
      congr 1
      exact hm.read_eq fun i hi hi' => hclear i (by omega) (by omega)
    simp only [heq]
    split
    · rename_i arm harm
      exact arm_eq hclear hm (hfits _ (mem_of_lookup harm))
    · rfl
  · simp only
    split
    · exact blind_arm _ _
    · trivial

/-! ### The list's walk -/

variable [DecidableEq τ]

omit [DecidableEq τ] in
theorem tokens_child {t : Nat → Token τ} {rest : Walk τ} {tokens : List (Token τ)}
    (h : (Walk.child off t rest).tokens f = .ok tokens) :
    ∃ tokens', rest.tokens f = .ok tokens' ∧ ∀ tok ∈ tokens', tok ∈ tokens := by
  rw [Walk.child] at h
  split at h
  · rw [Walk.tokens] at h
    cases hrest : rest.tokens f with
    | error e =>
        rw [hrest] at h
        cases h
    | ok tokens' =>
        rw [hrest] at h
        cases h
        exact ⟨tokens', rfl, fun tok htok => List.mem_cons_of_mem _ htok⟩
  · exact ⟨tokens, h, fun _ htok => htok⟩

/-- A node is read just before it is dropped. -/
theorem blind_nodes {value : τ} (hl : Laid types) (hs : Structure types f root N) {remaining cur : Nat}
    {tokens : List (Token τ)} (htokens : (nodeChildren value remaining cur).tokens f = .ok tokens)
    (hN : ∀ tok ∈ tokens, tok.target ∈ N) : (nodeChildren value remaining cur).Blind types f N := by
  induction remaining generalizing cur tokens with
  | zero =>
      rw [nodeChildren]
      split <;> trivial
  | succ remaining ih =>
      rw [nodeChildren] at htokens ⊢
      split
      · trivial
      · rename_i hcur
        rw [if_neg hcur] at htokens
        split
        · rename_i nextOff valOff hnext hval
          rw [hnext, hval] at htokens
          simp only [Walk.tokens] at htokens
          split at htokens
          case isFalse => cases htokens
          rename_i hnextLen
          split at htokens
          case isFalse => cases htokens
          rename_i hvalLen
          obtain ⟨tokens', hrest, hsub⟩ := tokens_child htokens
          rw [Walk.tokens] at hrest
          cases hmore : (nodeChildren value remaining (leNat (f.bytes.read nextOff 8))).tokens f with
          | error e =>
              rw [hmore] at hrest
              cases hrest
          | ok tokens'' =>
              rw [hmore] at hrest
              cases hrest
              have hnode : .data ⟨cur, BStackLinkedList.NODE_SIZE⟩ ∈ N :=
                hN _ (hsub _ List.mem_cons_self)
              have huncounted : ∀ i, cur ≤ i → i < cur + BStackLinkedList.NODE_SIZE → Uncounted types f N i :=
                fun i hge hlt => hs.uncounted_data hl hnode hge hlt
              have hfield : ∀ {field off : Nat}, checkedOff cur field = .ok off →
                  field + 8 ≤ BStackLinkedList.NODE_SIZE → ∀ m, AgreesOff types f N m →
                  m.read off 8 = f.bytes.read off 8 := by
                intro field off hoff hle m hm
                rw [checkedOff] at hoff
                split at hoff
                · cases hoff
                  exact hm.read_eq fun i hge hlt => huncounted i (by omega) (by omega)
                · cases hoff
              have hrest := ih hmore fun tok htok => hN tok (hsub tok (List.mem_cons_of_mem _ htok))
              refine blind_read (hfield hnext (by decide)) ?_
              generalize leNat (f.bytes.read nextOff 8) = next at hrest ⊢
              refine blind_read (hfield hval (by decide)) ?_
              generalize leNat (f.bytes.read valOff 8) = val
              exact blind_child hrest
        · trivial
        · simp only [Walk.Blind, implies_true, and_self]

theorem blind_list {value : τ} (hl : Laid types) (hs : Structure types f root N)
    (hclear : ClearAt types f N T start) (hplain : T.mode = .plain)
    (hsize : BStackLinkedList.LIST_SIZE ≤ T.size) {tokens : List (Token τ)}
    (htokens : (listChildren value start).tokens f = .ok tokens) (hN : ∀ tok ∈ tokens, tok.target ∈ N) :
    (listChildren value start).Blind types f N := by
  have hfield : ∀ {field : Nat}, HEADER_SIZE ≤ field → field + 8 ≤ BStackLinkedList.LIST_SIZE →
      ∀ m, AgreesOff types f N m → m.read (start + field) 8 = f.bytes.read (start + field) 8 := by
    intro field hge hle m hm
    rw [ClearAt, hplain] at hclear
    exact hm.read_eq fun i hi hi' => hclear i (by simp only [Mode.userStart]; omega) (by omega)
  have hhead := hfield (show HEADER_SIZE ≤ BStackLinkedList.HEAD_OFF by decide) (by decide)
  have hlen := hfield (show HEADER_SIZE ≤ BStackLinkedList.LEN_OFF by decide) (by decide)
  rw [listChildren] at htokens ⊢
  simp only [Walk.tokens] at htokens
  split at htokens
  case isFalse => cases htokens
  split at htokens
  case isFalse => cases htokens
  have hnodes : ∀ remaining cur, (nodeChildren value remaining cur).tokens f = .ok tokens →
      (nodeChildren value remaining cur).Blind types f N := fun _ _ h => blind_nodes hl hs h hN
  generalize nodeChildren value = nodes at hnodes htokens ⊢
  exact blind_read hhead (blind_read hlen (hnodes _ _ htokens))

/-- The walk of a place that lies off the counters. -/
theorem blind_dropChildren (hl : Laid types) (hs : Structure types f root N) {t : τ}
    (hclear : ClearAt types f N (types t) start) {tokens : List (Token τ)}
    (htokens : ((types t).dropChildren start).tokens f = .ok tokens)
    (hN : ∀ tok ∈ tokens, tok.target ∈ N) : ((types t).dropChildren start).Blind types f N := by
  have hfits := hl.fits t
  rw [BlockType.dropChildren] at htokens ⊢
  cases hbody : (types t).body with
  | struct stmts =>
      rw [hbody] at hfits
      exact blind_struct hclear hfits
  | enum disc width payload arms =>
      rw [hbody] at hfits
      exact blind_enum hclear hfits.1 hfits.2
  | list value =>
      rw [hbody] at hfits htokens
      exact blind_list hl hs hclear hfits.1 hfits.2.1 htokens hN

end Blind

end BStackRaii
