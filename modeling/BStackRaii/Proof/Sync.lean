import BStackRaii.Proof.Agreement
/-!
# Syncing the compiled types

`sync_compiled` on a registry that holds what earlier syncs appended. Over the list of registered types the loop does
one of two things with a compiled type: where the tag is registered, the two descriptors must agree, and where it is
not, the type is appended. So it succeeds just when the whole compiled set is acceptable beside the registered types.
-/

namespace BStackRaii

namespace RttiRegistry

variable {reg reg' : RttiRegistry} {tys cs : List RttiType} {ty d : RttiType} {known : List EightCC}

/-! ### The types to append -/

/-- A record can be written for the type. -/
def Recordable (ty : RttiType) : Prop := ∃ body, encodeType ty = .ok body ∧ body.length < 2 ^ 32

/-- The compiled types with no tag among `known`, each at its first place. -/
def missing (known : List EightCC) : List RttiType → List RttiType
  | [] => []
  | ty :: rest => if ty.tag ∈ known then missing known rest else ty :: missing (known ++ [ty.tag]) rest

theorem missing_known (h : ty.tag ∈ known) (cs : List RttiType) : missing known (ty :: cs) = missing known cs :=
  if_pos h

theorem missing_new (h : ty.tag ∉ known) (cs : List RttiType) :
    missing known (ty :: cs) = ty :: missing (known ++ [ty.tag]) cs := if_neg h

theorem mem_of_missing (h : ty ∈ missing known cs) : ty ∈ cs := by
  induction cs generalizing known with
  | nil => cases h
  | cons c rest ih =>
      by_cases hc : c.tag ∈ known
      · rw [missing_known hc] at h
        exact List.mem_cons_of_mem c (ih h)
      · rw [missing_new hc] at h
        cases h with
        | head => exact List.mem_cons_self
        | tail _ h => exact List.mem_cons_of_mem c (ih h)

/-- With what is missing appended, every tag is known. -/
theorem tag_known (known : List EightCC) (h : ty ∈ cs) : ty.tag ∈ known ++ (missing known cs).map (·.tag) := by
  induction cs generalizing known with
  | nil => cases h
  | cons c rest ih =>
      by_cases hc : c.tag ∈ known
      · rw [missing_known hc]
        cases h with
        | head => exact List.mem_append_left _ hc
        | tail _ h => exact ih known h
      · rw [missing_new hc, List.map_cons, List.append_cons]
        cases h with
        | head => exact List.mem_append_left _ (List.mem_append_right _ List.mem_cons_self)
        | tail _ h => exact ih (known ++ [c.tag]) h

theorem missing_eq_nil (h : ∀ ty ∈ cs, ty.tag ∈ known) : missing known cs = [] := by
  induction cs with
  | nil => rfl
  | cons c rest ih =>
      rw [missing_known (h c List.mem_cons_self)]
      exact ih fun ty hty => h ty (List.mem_cons_of_mem c hty)

theorem missing_take (cs : List RttiType) : ∀ (known : List EightCC) (k : Nat),
    (missing known (cs.take k)).length ≤ (missing known cs).length := by
  induction cs with
  | nil =>
      intro known k
      rw [List.take_nil]
  | cons c rest ih =>
      intro known k
      cases k with
      | zero => exact Nat.zero_le _
      | succ k =>
          rw [List.take_succ_cons]
          by_cases hc : c.tag ∈ known
          · rw [missing_known hc, missing_known hc]
            exact ih known k
          · rw [missing_new hc, missing_new hc, List.length_cons, List.length_cons]
            exact Nat.succ_le_succ (ih _ k)

/-! ### Acceptable sets -/

/-- The compiled set may be synced beside the registered types. -/
structure Accepts (tys cs : List RttiType) : Prop where
  onDisk : ∀ d ∈ tys, ∀ ty ∈ cs, d.tag = ty.tag → d.Agrees AnyValues ty
  apart : ∀ a ∈ cs, ∀ b ∈ cs, a.tag = b.tag → a.Agrees AnyValues b
  encodes : ∀ ty ∈ missing (tys.map (·.tag)) cs, Recordable ty

theorem Accepts.nil (tys : List RttiType) : Accepts tys [] := ⟨nofun, nofun, nofun⟩

theorem accepts_known (hnodup : (tys.map (·.tag)).Nodup) (hd : d ∈ tys) (htag : d.tag = ty.tag) :
    Accepts tys (ty :: cs) ↔ d.Agrees AnyValues ty ∧ Accepts tys cs := by
  have hknown : ty.tag ∈ tys.map (·.tag) := htag ▸ List.mem_map_of_mem hd
  constructor
  · rintro ⟨honDisk, hapart, hencodes⟩
    rw [missing_known hknown] at hencodes
    exact ⟨honDisk d hd ty List.mem_cons_self htag, fun d' hd' b hb => honDisk d' hd' b (List.mem_cons_of_mem ty hb),
      fun a ha b hb => hapart a (List.mem_cons_of_mem ty ha) b (List.mem_cons_of_mem ty hb), hencodes⟩
  · rintro ⟨hagrees, honDisk, hapart, hencodes⟩
    have hwith : ∀ b ∈ cs, ty.tag = b.tag → ty.Agrees AnyValues b := fun b hb hb' =>
      hagrees.symm.trans (honDisk d hd b hb (htag.trans hb'))
    refine ⟨fun d' hd' b hb hb' => ?_, fun a ha b hb hab => ?_, by rwa [missing_known hknown]⟩
    · cases hb with
      | head =>
          rw [List.inj_on_of_nodup_map hnodup hd' hd (hb'.trans htag.symm)]
          exact hagrees
      | tail _ hb => exact honDisk d' hd' b hb hb'
    · cases ha with
      | head =>
          cases hb with
          | head => exact .refl _
          | tail _ hb => exact hwith b hb hab
      | tail _ ha =>
          cases hb with
          | head => exact (hwith a ha hab.symm).symm
          | tail _ hb => exact hapart a ha b hb hab

theorem accepts_new (hnew : ty.tag ∉ tys.map (·.tag)) :
    Accepts tys (ty :: cs) ↔ Recordable ty ∧ Accepts (tys ++ [ty]) cs := by
  constructor
  · rintro ⟨honDisk, hapart, hencodes⟩
    rw [missing_new hnew] at hencodes
    refine ⟨hencodes ty List.mem_cons_self, fun d hd b hb hdb => ?_, ?_, ?_⟩
    · rcases List.mem_append.mp hd with hd | hd
      · exact honDisk d hd b (List.mem_cons_of_mem ty hb) hdb
      · rw [List.mem_singleton.mp hd] at hdb ⊢
        exact hapart ty List.mem_cons_self b (List.mem_cons_of_mem ty hb) hdb
    · exact fun a ha b hb => hapart a (List.mem_cons_of_mem ty ha) b (List.mem_cons_of_mem ty hb)
    · rw [List.map_append]
      exact fun b hb => hencodes b (List.mem_cons_of_mem ty hb)
  · rintro ⟨hty, honDisk, hapart, hencodes⟩
    have hwith : ∀ b ∈ cs, ty.tag = b.tag → ty.Agrees AnyValues b :=
      honDisk ty (List.mem_append_right _ List.mem_cons_self)
    refine ⟨fun d hd b hb hdb => ?_, fun a ha b hb hab => ?_, fun b hb => ?_⟩
    · cases hb with
      | head => exact absurd (hdb ▸ List.mem_map_of_mem hd) hnew
      | tail _ hb => exact honDisk d (List.mem_append_left _ hd) b hb hdb
    · cases ha with
      | head =>
          cases hb with
          | head => exact .refl _
          | tail _ hb => exact hwith b hb hab
      | tail _ ha =>
          cases hb with
          | head => exact (hwith a ha hab.symm).symm
          | tail _ hb => exact hapart a ha b hb hab
    · rw [missing_new hnew] at hb
      cases hb with
      | head => exact hty
      | tail _ hb =>
          apply hencodes
          rwa [List.map_append]

/-- Once it is synced, the set is still acceptable, and misses nothing. -/
theorem Accepts.again (h : Accepts tys cs) : Accepts (tys ++ missing (tys.map (·.tag)) cs) cs ∧
    missing ((tys ++ missing (tys.map (·.tag)) cs).map (·.tag)) cs = [] := by
  have hnil : missing ((tys ++ missing (tys.map (·.tag)) cs).map (·.tag)) cs = [] := by
    apply missing_eq_nil
    intro ty hty
    rw [List.map_append]
    exact tag_known _ hty
  refine ⟨⟨fun d hd ty hty => ?_, h.apart, by rw [hnil]; exact nofun⟩, hnil⟩
  rcases List.mem_append.mp hd with hd | hd
  · exact h.onDisk d hd ty hty
  · exact h.apart d (mem_of_missing hd) ty hty

/-! ### The registry of some types -/

theorem Held.nodup (h : Held reg tys) : (tys.map (·.tag)).Nodup := by
  obtain ⟨hcount, es, hes, -, hindex⟩ := h
  rw [← map_tag_of_records hes]
  exact hindex.nodup (by rw [hes.length_eq]; exact hcount)

theorem Held.tags (h : Held reg tys) : reg.records.map (·.tag) = tys.map (·.tag) := by
  obtain ⟨-, es, hes, -, hindex⟩ := h
  rw [hindex.records, map_tag_recordsFrom, map_tag_of_records hes]

theorem Held.len (h : Held reg tys) : reg.len = tys.length := by
  have hlen := congrArg List.length h.tags
  rwa [List.length_map, List.length_map] at hlen

theorem Records.unique {e e' : Entry} (h : Records e ty) (h' : Records e' ty) : e = e' := by
  have hbody := h.body.symm.trans h'.body
  exact Prod.ext (h.tag.trans h'.tag.symm) (Except.ok.inj hbody)

theorem Records.unique_all {es es' : List Entry} (h : List.Forall₂ Records es tys) (h' : List.Forall₂ Records es' tys) :
    es = es' := by
  induction h generalizing es' with
  | nil =>
      cases h'
      rfl
  | cons hhead _ ih =>
      cases h' with
      | cons hhead' hrest' => rw [hhead.unique hhead', ih hrest']

theorem Held.unique (h : Held reg tys) (h' : Held reg' tys) : reg = reg' := by
  obtain ⟨-, es, hes, hstack, hindex⟩ := h
  obtain ⟨-, es', hes', hstack', hindex'⟩ := h'
  cases Records.unique_all hes hes'
  exact hindex.unique hindex' (hstack.trans hstack'.symm)

theorem Held.registered (h : Held reg tys) (hd : d ∈ tys) :
    ∃ ord, reg.ordinalOf d.tag = some ord ∧ reg.loadType ord = .ok d := by
  obtain ⟨ord, hi⟩ := h.ordinal_of_type hd
  refine ⟨ord, ?_, h.loadType hi⟩
  rw [h.ordinalOf_iff, h.tagOf, hi]
  rfl

theorem Held.unregistered {tag : EightCC} (h : Held reg tys) (hnew : tag ∉ tys.map (·.tag)) :
    reg.ordinalOf tag = none := by
  cases hord : reg.ordinalOf tag with
  | none => rfl
  | some ord =>
      obtain ⟨d, hi, rfl⟩ := h.type_of_ordinal hord
      exact absurd (List.mem_map_of_mem (List.mem_of_getElem? hi)) hnew

theorem frameRecord_short (tag : EightCC) {body : List UInt8} (h : body.length < 2 ^ 32) :
    ∃ record, frameRecord tag body = .ok (record, UInt32.ofNat body.length) := by
  rw [frameRecord, tryU32, if_pos h]
  exact ⟨_, rfl⟩

/-- A type of a new tag is appended just when a record can be written for it. -/
theorem Held.append_iff (h : Held reg tys) (hnew : ty.tag ∉ tys.map (·.tag)) :
    (reg.append ty).isOk = true ↔ Recordable ty := by
  have hnone : reg.byTag ty.tag = none := h.unregistered hnew
  unfold RttiRegistry.append Recordable
  rw [hnone]
  dsimp only
  cases hbody : encodeType ty with
  | error e => exact ⟨nofun, nofun⟩
  | ok body =>
      by_cases hshort : body.length < 2 ^ 32
      · obtain ⟨record, hframe⟩ := frameRecord_short ty.tag hshort
        refine ⟨fun _ => ⟨body, rfl, hshort⟩, fun _ => ?_⟩
        show (frameRecord ty.tag body >>= _ : RttiResult (RttiOrdinal × RttiRegistry)).isOk = true
        rw [hframe]
        show (RttiRegistry.index _ _ _ _).isOk = true
        rw [RttiRegistry.index, hnone]
        rfl
      · constructor
        · intro hok
          have herr : ∃ e, frameRecord ty.tag body = .error e := by
            rw [frameRecord, tryU32, if_neg hshort]
            exact ⟨_, rfl⟩
          obtain ⟨e, herr⟩ := herr
          have hok' : (frameRecord ty.tag body >>= fun p => RttiRegistry.index
              { reg with stack := reg.stack ++ p.1 } ty.tag reg.stack.length p.2 :
              RttiResult (RttiOrdinal × RttiRegistry)).isOk = true := hok
          rw [herr] at hok'
          cases hok'
        · rintro ⟨body', heq, hlt⟩
          cases heq
          exact absurd hlt hshort

/-! ### The loop -/

/-- How a sync beside the types `tys` ends: all that is missing is appended, or the set is not acceptable and a part of
it is. -/
inductive Outcome (tys cs : List RttiType) (appended : Nat) : RttiResult Nat × RttiRegistry → Prop
  | synced {reg' : RttiRegistry} (haccepts : Accepts tys cs) (hheld : Held reg' (tys ++ missing (tys.map (·.tag)) cs)) :
      Outcome tys cs appended (.ok (appended + (missing (tys.map (·.tag)) cs).length), reg')
  | refused {e : RttiError} {reg' : RttiRegistry} (k : Nat) (haccepts : ¬ Accepts tys cs)
      (hheld : Held reg' (tys ++ (missing (tys.map (·.tag)) cs).take k)) : Outcome tys cs appended (.error e, reg')

variable {appended : Nat}

theorem Outcome.registered {run : RttiResult Nat × RttiRegistry} (hnodup : (tys.map (·.tag)).Nodup) (hd : d ∈ tys)
    (htag : d.tag = ty.tag) (hagrees : d.Agrees AnyValues ty) (h : Outcome tys cs appended run) :
    Outcome tys (ty :: cs) appended run := by
  have hmissing := missing_known (htag ▸ List.mem_map_of_mem hd : ty.tag ∈ tys.map (·.tag)) cs
  cases h with
  | synced haccepts hheld =>
      rw [← hmissing] at hheld ⊢
      exact .synced ((accepts_known hnodup hd htag).mpr ⟨hagrees, haccepts⟩) hheld
  | refused k haccepts hheld =>
      rw [← hmissing] at hheld
      exact .refused k (fun h => haccepts ((accepts_known hnodup hd htag).mp h).2) hheld

theorem Outcome.new {run : RttiResult Nat × RttiRegistry} (hnew : ty.tag ∉ tys.map (·.tag)) (hty : Recordable ty)
    (h : Outcome (tys ++ [ty]) cs (appended + 1) run) : Outcome tys (ty :: cs) appended run := by
  have hmissing : missing (tys.map (·.tag)) (ty :: cs) = ty :: missing ((tys ++ [ty]).map (·.tag)) cs := by
    rw [missing_new hnew, List.map_append]
    rfl
  cases h with
  | synced haccepts hheld =>
      have hcount : appended + 1 + (missing ((tys ++ [ty]).map (·.tag)) cs).length
          = appended + (missing (tys.map (·.tag)) (ty :: cs)).length := by
        rw [hmissing, List.length_cons]
        omega
      rw [hcount]
      refine .synced ((accepts_new hnew).mpr ⟨hty, haccepts⟩) ?_
      rwa [hmissing, List.append_cons]
  | refused k haccepts hheld =>
      refine .refused (k + 1) (fun h => haccepts ((accepts_new hnew).mp h).2) ?_
      rwa [hmissing, List.take_succ_cons, List.append_cons]

/-- Every type seen agrees with the registered type of its tag. -/
def Seen (seen : EightCC → Option RttiType) (tys : List RttiType) : Prop :=
  ∀ tag prev, seen tag = some prev → prev.tag = tag ∧ ∃ d ∈ tys, d.Agrees AnyValues prev

theorem Seen.update {seen : EightCC → Option RttiType} (h : Seen seen tys) (hd : d ∈ tys)
    (hagrees : d.Agrees AnyValues ty) : Seen (Function.update seen ty.tag (some ty)) tys := by
  intro tag prev hprev
  by_cases htag : tag = ty.tag
  · rw [htag, Function.update_self] at hprev
    cases hprev
    exact ⟨htag.symm, d, hd, hagrees⟩
  · rw [Function.update_of_ne htag] at hprev
    exact h tag prev hprev

theorem Seen.append {seen : EightCC → Option RttiType} (h : Seen seen tys) (ty : RttiType) : Seen seen (tys ++ [ty]) :=
  fun tag prev hprev => ⟨(h tag prev hprev).1, by
    obtain ⟨d, hd, hagrees⟩ := (h tag prev hprev).2
    exact ⟨d, List.mem_append_left _ hd, hagrees⟩⟩

/-- The comparison with a registered type `d` goes through `prev`, which agrees with it. -/
theorem Outcome.compared {prev : RttiType} {e e' : RttiError} {run : RttiResult Nat × RttiRegistry}
    (hheld : Held reg tys) (hd : d ∈ tys) (htag : prev.tag = ty.tag) (hprev : d.Agrees AnyValues prev)
    (hrun : d.Agrees AnyValues ty → Outcome tys cs appended run) :
    Outcome tys (ty :: cs) appended (if prev.name ≠ ty.name then (.error e, reg)
      else if !layoutsMatch prev ty then (.error e', reg) else run) := by
  have hdtag : d.tag = ty.tag := hprev.tag.trans htag
  have hrefused : ¬ prev.Agrees AnyValues ty → ∀ e, Outcome tys (ty :: cs) appended (.error e, reg) := by
    intro hdiffer e
    refine .refused 0 (fun haccepts => hdiffer ?_) ?_
    · exact hprev.symm.trans ((accepts_known hheld.nodup hd hdtag).mp haccepts).1
    · rwa [List.take_zero, List.append_nil]
  by_cases hname : prev.name = ty.name
  · rw [if_neg (not_not.mpr hname)]
    by_cases hlayout : layoutsMatch prev ty = true
    · have hagrees := hprev.trans ((layoutsMatch_iff prev ty).mp hlayout)
      rw [hlayout]
      exact (hrun hagrees).registered hheld.nodup hd hdtag hagrees
    · rw [Bool.not_eq_true] at hlayout
      rw [hlayout]
      refine hrefused (fun hagrees => ?_) e'
      rw [← layoutsMatch_iff, hlayout] at hagrees
      cases hagrees
  · rw [if_pos hname]
    exact hrefused (fun hagrees => hname hagrees.name) e

theorem Held.syncFrom (cs : List RttiType) : ∀ {reg : RttiRegistry} {tys : List RttiType}
    {seen : EightCC → Option RttiType} {appended : Nat}, Held reg tys → Seen seen tys → (∀ ty ∈ cs, ty.Readable) →
    tys.length + (missing (tys.map (·.tag)) cs).length ≤ 2 ^ 32 →
    Outcome tys cs appended (reg.syncFrom seen appended cs) := by
  induction cs with
  | nil =>
      intro reg tys seen appended hheld _ _ _
      exact .synced (.nil tys) (by rwa [missing, List.append_nil])
  | cons ty cs ih =>
      intro reg tys seen appended hheld hseen hreadable hroom
      have hrest : ∀ ty ∈ cs, ty.Readable := fun c hc => hreadable c (List.mem_cons_of_mem ty hc)
      rw [RttiRegistry.syncFrom]
      cases hprev : seen ty.tag with
      | some prev =>
          obtain ⟨htag, d, hd, hagrees⟩ := hseen ty.tag prev hprev
          have hknown : ty.tag ∈ tys.map (·.tag) := (hagrees.tag.trans htag) ▸ List.mem_map_of_mem hd
          rw [missing_known hknown] at hroom
          exact Outcome.compared hheld hd htag hagrees fun _ => ih hheld hseen hrest hroom
      | none =>
          dsimp only
          by_cases hknown : ty.tag ∈ tys.map (·.tag)
          · obtain ⟨d, hd, htag⟩ := List.mem_map.mp hknown
            obtain ⟨ord, hord, hload⟩ := hheld.registered hd
            rw [htag] at hord
            rw [hord]
            dsimp only
            rw [hload]
            rw [missing_known hknown] at hroom
            exact Outcome.compared hheld hd htag (.refl d) fun hagrees =>
              ih hheld (hseen.update hd hagrees) hrest hroom
          · have hlen : tys.length < 2 ^ 32 := by
              rw [missing_new hknown, List.length_cons] at hroom
              omega
            have happend := hheld.append_iff hknown
            rw [hheld.unregistered hknown]
            dsimp only
            cases hrun : reg.append ty with
            | error e =>
                rw [hrun] at happend
                refine .refused 0 (fun haccepts => ?_) (by rwa [List.take_zero, List.append_nil])
                exact absurd (happend.mpr ((accepts_new hknown).mp haccepts).1) nofun
            | ok p =>
                rw [hrun] at happend
                have hheld' := hheld.append hlen (hreadable ty List.mem_cons_self) hrun
                refine .new hknown (happend.mp rfl) (ih hheld' ?_ hrest ?_)
                · exact (hseen.append ty).update (List.mem_append_right _ List.mem_cons_self) (.refl ty)
                · rw [missing_new hknown, List.length_cons] at hroom
                  rw [List.length_append, List.map_append]
                  simp only [List.length_singleton, List.map_cons, List.map_nil]
                  omega

theorem Held.syncCompiled (h : Held reg tys) (hreadable : ∀ ty ∈ cs, ty.Readable)
    (hroom : tys.length + (missing (tys.map (·.tag)) cs).length ≤ 2 ^ 32) :
    Outcome tys cs 0 (reg.syncCompiled cs) := h.syncFrom cs nofun hreadable hroom

/-! ### Runs of syncs -/

/-- The compiled types can be given back once they are registered, and there is an ordinal for each of them. -/
structure Fits (reg : RttiRegistry) (cs : List RttiType) : Prop where
  readable : ∀ ty ∈ cs, ty.Readable
  room : reg.len + (missing (reg.records.map (·.tag)) cs).length ≤ 2 ^ 32

/-- The registries that syncs of any compiled sets, crashes between their appends and updates of class variables lead
to. A sync may fail, and the process may stop after any number of the types. -/
inductive Synced : RttiRegistry → Prop
  | opened {reg : RttiRegistry} (h : RttiRegistry.open [] = .ok reg) : Synced reg
  | sync {reg : RttiRegistry} {cs : List RttiType} (h : Synced reg) (hfits : Fits reg cs) :
      Synced (reg.syncCompiled cs).2
  | crashed {reg reg' : RttiRegistry} {cs : List RttiType} (h : Synced reg) (hfits : Fits reg cs) (k : Nat)
      (hopen : RttiRegistry.open (reg.syncCompiled (cs.take k)).2.stack = .ok reg') : Synced reg'
  | setClassValue {reg reg' : RttiRegistry} {tag : EightCC} {name : String} {value : List UInt8} (h : Synced reg)
      (hset : reg.setClassValue tag name value = .ok reg') : Synced reg'
  | reopened {reg reg' : RttiRegistry} (h : Synced reg) (hopen : RttiRegistry.open reg.stack = .ok reg') : Synced reg'

theorem Fits.take (h : Fits reg cs) (k : Nat) : Fits reg (cs.take k) :=
  ⟨fun ty hty => h.readable ty (List.mem_of_mem_take hty), (Nat.add_le_add_left (missing_take cs _ k) _).trans h.room⟩

theorem Held.outcome (h : Held reg tys) (hfits : Fits reg cs) : Outcome tys cs 0 (reg.syncCompiled cs) := by
  apply h.syncCompiled hfits.readable
  rw [← h.tags, ← h.len]
  exact hfits.room

theorem Held.synced (h : Held reg tys) (hfits : Fits reg cs) : ∃ tys', Held (reg.syncCompiled cs).2 tys' := by
  cases hrun : reg.syncCompiled cs with
  | mk result reg' =>
      have houtcome := h.outcome hfits
      rw [hrun] at houtcome
      cases houtcome with
      | synced _ hheld => exact ⟨_, hheld⟩
      | refused _ _ hheld => exact ⟨_, hheld⟩

theorem Synced.held (h : Synced reg) : ∃ tys, Held reg tys := by
  induction h with
  | opened h => exact ⟨[], .open_empty h⟩
  | sync _ hfits ih =>
      obtain ⟨tys, hheld⟩ := ih
      exact hheld.synced hfits
  | crashed _ hfits k hopen ih =>
      obtain ⟨tys, hheld⟩ := ih
      obtain ⟨tys', hheld'⟩ := hheld.synced (hfits.take k)
      cases hheld'.reopen.symm.trans hopen
      exact ⟨tys', hheld'⟩
  | setClassValue _ hset ih =>
      obtain ⟨tys, hheld⟩ := ih
      exact ⟨_, hheld.setClassValue hset⟩
  | reopened _ hopen ih =>
      obtain ⟨tys, hheld⟩ := ih
      cases hheld.reopen.symm.trans hopen
      exact ⟨tys, hheld⟩

/-- Of types that differ in the values of their mutable class variables only, all can be written if one is. -/
structure Writable (reg : RttiRegistry) (cs : List RttiType) : Prop where
  onDisk : ∀ ord d, reg.loadType ord = .ok d → ∀ ty ∈ cs, d.Agrees AnyValues ty → Recordable ty
  compiled : ∀ a ∈ cs, ∀ b ∈ cs, a.Agrees AnyValues b → Recordable a → Recordable b

theorem Recordable.of_agrees (h : Recordable d) (hagrees : d.Agrees SameLength ty) : Recordable ty := by
  obtain ⟨body, hbody, hshort⟩ := h
  obtain ⟨body', hbody', hlen⟩ := hagrees.encodeType hbody
  exact ⟨body', hbody', lt_of_eq_of_lt hlen hshort⟩

theorem Held.recordable (h : Held reg tys) (hd : d ∈ tys) : Recordable d := by
  obtain ⟨-, es, hes, -, -⟩ := h
  obtain ⟨i, hi⟩ := List.getElem?_of_mem hd
  obtain ⟨_, e, _, _, _, _, _, _, _, he, _, _⟩ := Records.split hes hi
  exact ⟨e.2, he.body, he.short⟩

theorem Held.loadType_iff (h : Held reg tys) (ord : RttiOrdinal) :
    reg.loadType ord = .ok d ↔ tys[ord.toNat]? = some d := by
  refine ⟨fun hload => ?_, h.loadType⟩
  cases hi : tys[ord.toNat]? with
  | some d' =>
      rw [h.loadType hi] at hload
      rw [Except.ok.inj hload]
  | none =>
      have htag := h.tagOf ord
      rw [hi, RttiRegistry.tagOf, Option.map_none, Option.map_eq_none_iff] at htag
      rw [RttiRegistry.loadType, htag] at hload
      cases hload

theorem Held.loads (h : Held reg tys) (hd : d ∈ tys) : ∃ ord, reg.loadType ord = .ok d := by
  obtain ⟨ord, hi⟩ := h.ordinal_of_type hd
  exact ⟨ord, h.loadType hi⟩

theorem Accepts.recordable (h : Accepts tys cs) (hheld : Held reg tys) (hwritable : Writable reg cs) :
    ∀ ty ∈ cs, Recordable ty := by
  intro ty hty
  have hknown := tag_known (tys.map (·.tag)) hty
  rw [← List.map_append] at hknown
  obtain ⟨d, hd, htag⟩ := List.mem_map.mp hknown
  rcases List.mem_append.mp hd with hd | hd
  · obtain ⟨ord, hload⟩ := hheld.loads hd
    exact hwritable.onDisk ord d hload ty hty (h.onDisk d hd ty hty htag)
  · have hmem := mem_of_missing hd
    exact hwritable.compiled d hmem ty hty (h.apart d hmem ty hty htag) (h.encodes d hd)

/-- Beside readable types, a sync succeeds just when no two compiled types of one tag differ, each can be written and
each agrees with the registered type of its tag. It appends what is missing, in order, leaves what is registered as it
is, and has nothing to append a second time. -/
theorem sync_compiled_exact (hreg : Synced reg) (hfits : Fits reg cs) (hwritable : Writable reg cs) :
    (∀ ord : RttiOrdinal, ord.toNat < reg.len → ∃ d, reg.loadType ord = .ok d ∧ reg.tagOf ord = some d.tag) ∧
      ((reg.syncCompiled cs).1.isOk = true ↔
        (∀ a ∈ cs, ∀ b ∈ cs, a.tag = b.tag → a.Agrees AnyValues b) ∧ (∀ ty ∈ cs, Recordable ty) ∧
          ∀ ord d, reg.loadType ord = .ok d → ∀ ty ∈ cs, d.tag = ty.tag → d.Agrees AnyValues ty) ∧
      ∀ n reg', reg.syncCompiled cs = (.ok n, reg') →
        n = (missing (reg.records.map (·.tag)) cs).length ∧ reg'.len = reg.len + n ∧
        (∀ i ty, (missing (reg.records.map (·.tag)) cs)[i]? = some ty →
          reg'.loadType (.ofNat (reg.len + i)) = .ok ty) ∧
        (∀ ord tag, reg.tagOf ord = some tag → reg'.tagOf ord = some tag) ∧
        (∀ ord d, reg.loadType ord = .ok d → reg'.loadType ord = .ok d) ∧
        reg'.syncCompiled cs = (.ok 0, reg') := by
  obtain ⟨tys, hheld⟩ := hreg.held
  have houtcome := hheld.outcome hfits
  refine ⟨fun ord hord => ?_, ?_, fun n reg' hrun => ?_⟩
  · rw [hheld.len] at hord
    refine ⟨tys[ord.toNat], hheld.loadType (List.getElem?_eq_getElem hord), ?_⟩
    rw [hheld.tagOf, List.getElem?_eq_getElem hord]
    rfl
  · have haccepts : (reg.syncCompiled cs).1.isOk = true ↔ Accepts tys cs := by
      cases hrun : reg.syncCompiled cs with
      | mk result reg' =>
          rw [hrun] at houtcome
          cases houtcome with
          | synced haccepts _ => exact ⟨fun _ => haccepts, fun _ => rfl⟩
          | refused _ haccepts _ => exact ⟨nofun, fun h => absurd h haccepts⟩
    rw [haccepts]
    constructor
    · intro h
      refine ⟨h.apart, h.recordable hheld hwritable, fun ord d hload => ?_⟩
      exact h.onDisk d (List.mem_of_getElem? ((hheld.loadType_iff ord).mp hload))
    · rintro ⟨hapart, hencodes, honDisk⟩
      refine ⟨fun d hd => ?_, hapart, fun ty hty => hencodes ty (mem_of_missing hty)⟩
      obtain ⟨ord, hload⟩ := hheld.loads hd
      exact honDisk ord d hload
  · rw [hrun] at houtcome
    cases houtcome with
    | synced haccepts hheld' =>
        have hcount : tys.length + (missing (tys.map (·.tag)) cs).length ≤ 2 ^ 32 := by
          rw [← hheld.tags, ← hheld.len]
          exact hfits.room
        rw [hheld.tags, hheld'.len, hheld.len, Nat.zero_add, List.length_append]
        refine ⟨rfl, rfl, fun i ty hi => ?_, fun ord tag htag => ?_, fun ord d hload => ?_, ?_⟩
        · have hlt := (List.getElem?_eq_some_iff.mp hi).1
          apply hheld'.loadType
          rw [UInt32.toNat_ofNat_of_lt' (show tys.length + i < 2 ^ 32 by omega),
            List.getElem?_append_right (Nat.le_add_right _ _), Nat.add_sub_cancel_left, hi]
        · rw [hheld.tagOf] at htag
          obtain ⟨d, hi, rfl⟩ := Option.map_eq_some_iff.mp htag
          rw [hheld'.tagOf, List.getElem?_append_left (List.getElem?_eq_some_iff.mp hi).1, hi]
          rfl
        · have hi := (hheld.loadType_iff ord).mp hload
          exact hheld'.loadType ((List.getElem?_append_left (List.getElem?_eq_some_iff.mp hi).1).trans hi)
        · obtain ⟨hagain, hnil⟩ := haccepts.again
          have hsecond := hheld'.syncCompiled hfits.readable (by rw [hnil]; exact hheld'.1)
          cases hrun' : reg'.syncCompiled cs with
          | mk result reg'' =>
              rw [hrun'] at hsecond
              cases hsecond with
              | synced _ hheld'' =>
                  rw [hnil, List.append_nil] at hheld''
                  rw [hnil, hheld''.unique hheld']
                  rfl
              | refused _ haccepts' _ => exact absurd hagain haccepts'

def counter (value : UInt8) : RttiType := oneField (.classVar true (.pod 1) [value])

theorem counter_readable (value : UInt8) : (counter value).Readable := by
  refine ⟨rfl, ?_⟩
  intro f hf
  cases hf with
  | head => exact trivial
  | tail _ hf => cases hf

theorem counter_agrees (a b : UInt8) : (counter a).Agrees SameLength (counter b) :=
  ⟨rfl, rfl, rfl, rfl, rfl, rfl, .cons ⟨rfl, rfl, rfl, rfl⟩ .nil⟩

theorem counter_fits (h : Held reg tys) (hlen : tys.length ≤ 1) (value : UInt8) : Fits reg [counter value] := by
  refine ⟨fun ty hty => List.mem_singleton.mp hty ▸ counter_readable value, ?_⟩
  have hmissing : (missing (reg.records.map (·.tag)) [counter value]).length ≤ 1 := by
    unfold missing
    split
    · exact Nat.zero_le _
    · exact le_rfl
  rw [h.len]
  omega

/-- The class variable is registered and set. The compiled type, with its first value, is synced again. -/
theorem sync_compiled_exact_updated : ∃ reg : RttiRegistry, Synced reg ∧ reg.loadType 0 = .ok (counter 7) ∧
    (reg.syncCompiled [counter 0]).1.isOk = true := by
  have hopen : RttiRegistry.open [] = .ok ⟨[], [], fun _ => none⟩ := by
    rw [RttiRegistry.open, scan, if_neg (by simp)]
  have hfresh := Held.open_empty hopen
  have hsynced := Synced.sync (.opened hopen) (counter_fits hfresh (Nat.zero_le 1) 0)
  have houtcome := hfresh.outcome (counter_fits hfresh (Nat.zero_le 1) 0)
  have hsets : ((RttiRegistry.syncCompiled ⟨[], [], fun _ => none⟩ [counter 0]).2.setClassValue .zero "v" [7]).isOk
      = true := by decide +kernel
  obtain ⟨reg, hset⟩ := exists_of_isOk hsets
  have hheld : Held reg [counter 7] := by
    cases hrun : RttiRegistry.syncCompiled ⟨[], [], fun _ => none⟩ [counter 0] with
    | mk result reg' =>
        rw [hrun] at houtcome hset
        cases houtcome with
        | synced _ hheld => exact hheld.setClassValue hset
        | refused k haccepts _ =>
            refine absurd ((accepts_new List.not_mem_nil).mpr ⟨?_, .nil _⟩) haccepts
            have hbody : (encodeType (counter 0)).isOk = true := by decide +kernel
            have hlen : (encodeType (counter 0)).map List.length = .ok 56 := by decide +kernel
            obtain ⟨body, hbody⟩ := exists_of_isOk hbody
            rw [hbody] at hlen
            exact ⟨body, hbody, by rw [Except.ok.inj hlen]; decide⟩
  have hloaded : ∀ ord d, reg.loadType ord = .ok d → d = counter 7 := fun ord d hload =>
    List.mem_singleton.mp (List.mem_of_getElem? ((hheld.loadType_iff ord).mp hload))
  have hrecordable : Recordable (counter 0) := (hheld.recordable List.mem_cons_self).of_agrees (counter_agrees 7 0)
  have hwritable : Writable reg [counter 0] := by
    refine ⟨fun ord d _ ty hty _ => ?_, fun a _ b hb _ _ => ?_⟩
    · exact List.mem_singleton.mp hty ▸ hrecordable
    · exact List.mem_singleton.mp hb ▸ hrecordable
  have hreg := hsynced.setClassValue hset
  refine ⟨reg, hreg, hheld.loadType rfl, ?_⟩
  refine ((sync_compiled_exact hreg (counter_fits hheld le_rfl 0) hwritable).2.1).mpr ⟨fun a ha b hb _ => ?_, ?_, ?_⟩
  · rw [List.mem_singleton.mp ha, List.mem_singleton.mp hb]
    exact .refl _
  · intro ty hty
    exact List.mem_singleton.mp hty ▸ hrecordable
  · intro ord d hload ty hty _
    rw [hloaded ord d hload, List.mem_singleton.mp hty]
    exact ⟨rfl, rfl, rfl, rfl, rfl, rfl, .cons ⟨rfl, rfl, rfl, trivial⟩ .nil⟩

/-- A type of 65 levels is appended by a first sync and stops every later one. -/
theorem sync_appends_unreadable : ∃ fresh reg : RttiRegistry, RttiRegistry.open [] = .ok fresh ∧
    (encodeType (oneField (nestedOptions 64))).isOk = true ∧
    fresh.syncCompiled [oneField (nestedOptions 64)] = (.ok 1, reg) ∧
    (reg.syncCompiled [oneField (nestedOptions 64)]).1
      = .error ⟨.depth, "RTTI shape nesting exceeds the maximum depth"⟩ := by
  have hopen : RttiRegistry.open [] = .ok ⟨[], [], fun _ => none⟩ := by
    rw [RttiRegistry.open, scan, if_neg (by simp)]
  have hfirst : (RttiRegistry.syncCompiled ⟨[], [], fun _ => none⟩ [oneField (nestedOptions 64)]).1 = .ok 1 := by
    decide +kernel
  have hsecond : ((RttiRegistry.syncCompiled ⟨[], [], fun _ => none⟩ [oneField (nestedOptions 64)]).2.syncCompiled
      [oneField (nestedOptions 64)]).1.map (fun _ => ())
      = .error ⟨.depth, "RTTI shape nesting exceeds the maximum depth"⟩ := by
    decide +kernel
  have hencodes : (encodeType (oneField (nestedOptions 64))).isOk = true := by decide +kernel
  cases hrun : RttiRegistry.syncCompiled ⟨[], [], fun _ => none⟩ [oneField (nestedOptions 64)] with
  | mk result reg =>
      rw [hrun] at hfirst hsecond
      dsimp only at hfirst hsecond
      rw [hfirst] at hrun
      refine ⟨_, reg, hopen, hencodes, hrun, ?_⟩
      cases hagain : (reg.syncCompiled [oneField (nestedOptions 64)]).1 with
      | ok n =>
          rw [hagain] at hsecond
          cases hsecond
      | error e =>
          rw [hagain] at hsecond
          exact congrArg Except.error (Except.error.inj hsecond)

end RttiRegistry

end BStackRaii
