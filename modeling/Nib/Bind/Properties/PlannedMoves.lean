import Nib.Bind.Properties.Moves
import Mathlib.Data.List.Pairwise

/-!
# Planned moves happen as if at once

The turns of the scheduler are an induction over what single sequences do, and so are the pops.

* `run_turns` — what the turns leave in the registers and on the stack
* `run_pops` — what the pops take from the stack
* `emitPlannedRegisterMoves_carried` — sound moves happen as if at once
-/

namespace Nib.Bind

open Nib.Infra Turn

variable {env : MoveEnv} {v : Source} {s : Cpu}

/-! ## The turns -/

/-- What a move reads lies in this register, or is found through it. -/
def Reads (v : Source) (r : Preg) : Prop :=
  v.home = .reg r ∨ (∃ off, v.home = .slot off) ∧ r = .bp

/-- A value stays as long as the register and the slot it comes from do. -/
theorem value_congr {pl : Addresses} {s t : Cpu} {n : Nat}
    (hread : ∀ r, Reads v r → t.read r = s.read r) (habove : Above n s t)
    (hclear : ∀ off, v.home = .slot off → (s.slotAddr off - s.sp).toNat + 2 * n + 2 ≤ 65536) :
    v.value pl t = v.value pl s := by
  unfold Source.value
  cases hv : v.home with
  | reg r =>
    have hr := hread r (.inl hv)
    simp only [hr]
  | remat c => rfl
  | slot off =>
    have haddr : t.slotAddr off = s.slotAddr off :=
      slotAddr_congr (hread .bp (.inr ⟨⟨off, hv⟩, rfl⟩)) off
    have hlow := hclear off hv
    have h0 := habove (s.slotAddr off) (by omega)
    have h1 := habove (s.slotAddr off + 1) (by bv_omega)
    simp only [Cpu.readSlot, readWord, haddr, h0, h1]

/-- The word of a source that has been put aside. -/
def Carries (pl : Addresses) (s : Cpu) (m : Numbered) (w : Word) : Prop :=
  m.1.dst.fit w = m.1.dst.fit (m.1.src.value pl s)

/-- What is performed overwrites nothing that is read later. -/
def Undisturbed : List (Turn Numbered) → Prop
  | [] => True
  | perform m :: ts =>
    (∀ t ∈ ts, ∀ r, Reads t.item.1.src r → pregsAlias m.1.dst r = false) ∧ Undisturbed ts
  | save _ :: ts => Undisturbed ts

/-- The turns in `ts` can be carried out. -/
structure Plan (ts : List (Turn Numbered)) : Prop where
  ordered : Undisturbed ts
  apart : ts.Pairwise fun t t' => pregsAlias t.item.1.dst t'.item.1.dst = false
  sound : ∀ t ∈ ts, t.item.1.Sound
  aside : ∀ m ∈ saves ts, m.1.SoundAside

theorem Plan.tail {t : Turn Numbered} {ts : List (Turn Numbered)} (h : Plan (t :: ts)) :
    Plan ts where
  ordered := by
    cases t with
    | perform m => exact h.ordered.2
    | save m => exact h.ordered
  apart := h.apart.tail
  sound := fun t ht => h.sound t (List.mem_cons_of_mem _ ht)
  aside := fun m hm => h.aside m (by
    rw [mem_saves] at hm ⊢
    exact List.mem_cons_of_mem _ hm)

/-- What is left after the turns: `ws` are the words on the stack, the last one on top. -/
structure Turned (pl : Addresses) (ts : List (Turn Numbered)) (s t : Cpu) (ws : List Word) :
    Prop where
  holds : ∀ m ∈ performed ts, t.read m.1.dst = m.1.dst.fit (m.1.src.value pl s)
  kept : ∀ r ≠ .flags, r ≠ .sp → (∀ m ∈ performed ts, pregsAlias m.1.dst r = false) →
    t.read r = s.read r
  carries : List.Forall₂ (Carries pl s) (saves ts) ws
  sp : t.sp = s.sp - BitVec.ofNat 16 (2 * ws.length)
  words : wordsAt t.stack t.sp ws.reverse
  above : Above (ts.length + 2) s t

theorem Above.mono {n m : Nat} (h : n ≤ m) {s t : Cpu} (ha : Above n s t) : Above m s t :=
  fun a hlt => ha a (by omega)

theorem pregWriteClobbers_eq (d r : Preg) :
    pregWriteClobbers (some d) (some r) = pregsAlias d r := by
  cases d <;> cases r <;> rfl

/-- A sound move is planned as what it writes, but for constants of one byte. -/
theorem clobberReg_of_sound {m : PlannedMove} (h : m.Sound) : m.clobberReg = m.dst ∨
    m.src.isByte = true ∧ (∃ c, m.src.home = .remat c) ∧ m.dst.aliasLo = some m.clobberReg := by
  obtain ⟨-, hhome⟩ := h
  unfold PlannedMove.clobberReg
  cases hseg : m.dst.isSegment with
  | true => exact .inl rfl
  | false =>
    rw [if_neg (by decide)]
    cases hd : m.dst.isByte with
    | true =>
      cases hf : m.src.assigned.filter fun actual => true && actual.isWord with
      | none => exact .inl (by simp)
      | some actual =>
        obtain ⟨hassigned, hword⟩ := Option.filter_eq_some_iff.mp hf
        have hv := home_of_assigned hassigned
        rw [hv] at hhome
        have hkind := hhome.2
        rw [if_pos hd] at hkind
        cases hhalves : actual.hasHalves with
        | true => exact .inl (by simp [hhalves])
        | false =>
          have hax : m.isAxByte = false := by
            rcases hkind with h | h | ⟨-, h⟩
            · have hno := Preg.not_byte_of_word (r := actual) (by simpa using hword)
              rw [hno] at h
              cases h
            · rw [hhalves] at h
              cases h
            · exact h
          have hne : m.dst ≠ .al := by
            rintro h
            rw [PlannedMove.isAxByte, h] at hax
            cases hax
          exact .inl (by simp [hne])
    | false =>
      have hwiden : ∀ r : Preg, r.widens = true → r.aliasLo.getD r = r := by
        intro r hr
        cases r <;> first | rfl | exact absurd hr (by decide)
      have hfilter : (m.src.assigned.filter fun actual => false && actual.isWord) = none := by
        cases m.src.assigned <;> rfl
      rw [hfilter]
      cases hnarrow : m.src.isByte || m.src.assigned.any Preg.isByte with
      | false => exact .inl (by simp)
      | true =>
        cases hv : m.src.home with
        | reg r =>
          rw [hv] at hhome
          have hassigned : m.src.assigned = some r := by simp [Source.assigned, hv]
          have hkind := hhome.2
          rw [hassigned, Option.any_some] at hnarrow
          rw [if_neg (by simp [hd]), if_pos hnarrow] at hkind
          exact .inl (by simp [hwiden _ hkind.1])
        | slot off =>
          rw [hv] at hhome
          have hassigned : m.src.assigned = none := by simp [Source.assigned, hv]
          rw [hassigned, Option.any_none, Bool.or_false] at hnarrow
          rcases hhome hnarrow with h | h
          · rw [hd] at h
            cases h
          · exact .inl (by simp [hwiden _ h])
        | remat c =>
          have hassigned : m.src.assigned = none := by simp [Source.assigned, hv]
          rw [hassigned, Option.any_none, Bool.or_false] at hnarrow
          cases hlo : m.dst.aliasLo with
          | none => exact .inl (by simp)
          | some lo =>
            have hw := (Preg.aliasLo_cases hlo).1
            exact .inr ⟨hnarrow, ⟨c, rfl⟩, by simp [hw]⟩

theorem alias_of_lo {d lo r : Preg} (hlo : d.aliasLo = some lo) (h : pregsAlias lo r = false)
    (hhi : d.aliasHi ≠ some r) : pregsAlias d r = false := by
  have hne : d ≠ r := by
    rintro rfl
    revert hlo h
    cases d <;> rintro ⟨⟩ <;> decide
  have hlr : lo ≠ r := by
    rintro rfl
    rw [pregsAlias_self] at h
    cases h
  revert hlo
  cases d <;> rintro ⟨⟩ <;> cases r <;>
    first
    | rfl
    | exact absurd rfl hne
    | exact absurd rfl hlr
    | exact absurd rfl hhi

/-- `m'` does not lose its source when `m` is performed first. -/
theorem reads_of_not_clobbers {m m' : Numbered} (hsound : m.1.Sound)
    (hhigh : m.1.SparesHigh m'.1) (h : clobbersPendingSrc m m' = false) {r : Preg}
    (hr : Reads m'.1.src r) : pregsAlias m.1.dst r = false := by
  have hdep : m'.1.srcDepReg = some r := by
    unfold PlannedMove.srcDepReg
    rcases hr with hr | ⟨⟨off, hoff⟩, rfl⟩
    · rw [hr]
    · rw [hoff]
  unfold clobbersPendingSrc at h
  rw [hdep, pregWriteClobbers_eq] at h
  rcases clobberReg_of_sound hsound with heq | ⟨hbyte, hremat, hlo⟩
  · rw [heq] at h
    exact h
  · refine alias_of_lo hlo h fun hhi => ?_
    rcases hr with hr | ⟨-, rfl⟩
    · exact hhigh hbyte hremat r hhi hr
    · revert hhi
      cases m.1.dst <;> decide

theorem forall₂_congr_mem {α β : Type*} {R S : α → β → Prop} {l : List α} {l' : List β}
    (h : List.Forall₂ R l l') (hrs : ∀ a ∈ l, ∀ b, R a b → S a b) : List.Forall₂ S l l' := by
  induction h with
  | nil => exact .nil
  | cons hab _ ih =>
    exact .cons (hrs _ List.mem_cons_self _ hab)
      (ih fun a ha => hrs a (List.mem_cons_of_mem _ ha))

/-- Nothing that a sound move reads is `SP` or the flags. -/
theorem PlannedMove.Sound.reads {m : PlannedMove} (h : m.Sound) {r : Preg} (hr : Reads m.src r) :
    r ≠ .sp ∧ r ≠ .flags := by
  rcases hr with hr | ⟨-, rfl⟩
  · obtain ⟨-, hhome⟩ := h
    rw [hr] at hhome
    exact hhome.1
  · decide

/-- The sources of the moves to come, after another one. -/
theorem rest_congr {pl : Addresses} {ts : List (Turn Numbered)} {s t : Cpu} {k n : Nat}
    (hread : ∀ u ∈ ts, ∀ r, Reads u.item.1.src r → t.read r = s.read r)
    (hsp : t.sp = s.sp - BitVec.ofNat 16 (2 * k)) (habove : Above 2 s t)
    (hroom : s.HasRoom (n + 1) (ts.map fun u => u.item.1.src)) (hk : k ≤ 1) :
    (∀ u ∈ ts, u.item.1.src.value pl t = u.item.1.src.value pl s) ∧
      t.HasRoom n (ts.map fun u => u.item.1.src) := by
  obtain ⟨hn, hslots⟩ := hroom
  refine ⟨fun u hu => value_congr (hread u hu) habove fun off hoff => ?_, by omega, ?_⟩
  · have hlow := hslots _ (List.mem_map_of_mem hu) off hoff
    omega
  · intro v hv off hoff
    obtain ⟨u, hu, rfl⟩ := List.mem_map.mp hv
    have hlow := hslots _ hv off hoff
    have hbp : t.reg .bp = s.reg .bp := hread u hu .bp (.inr ⟨⟨off, hoff⟩, rfl⟩)
    rw [slotAddr_congr hbp, hsp]
    bv_omega

/-- After a move is performed the rest does not touch its destination. -/
theorem Turned.perform {pl : Addresses} {m : Numbered} {ts : List (Turn Numbered)} {s s₁ t : Cpu}
    {ws : List Word} (hsound : m.1.Sound) (hput : Put m.1.dst (m.1.src.value pl s) s s₁)
    (hvalue : ∀ u ∈ ts, u.item.1.src.value pl s₁ = u.item.1.src.value pl s)
    (hapart : ∀ u ∈ ts, pregsAlias m.1.dst u.item.1.dst = false) (ht : Turned pl ts s₁ t ws) :
    Turned pl (.perform m :: ts) s t ws where
  holds := by
    intro m' hm'
    rcases List.mem_cons.mp hm' with rfl | hm'
    · have hdst := Preg.isTarget_cases hsound.1
      rw [ht.kept _ hdst.2.1 hdst.1 fun m'' hm'' => ?_, hput.value]
      rw [pregsAlias_comm]
      exact hapart _ (mem_performed.mp hm'')
    · rw [ht.holds m' hm']
      exact congrArg _ (hvalue _ (mem_performed.mp hm'))
  kept := by
    intro r hf hrsp hr
    rw [ht.kept r hf hrsp fun m' hm' => hr m' (List.mem_cons_of_mem _ hm')]
    exact hput.regs r hf (hr m List.mem_cons_self)
  carries := by
    refine forall₂_congr_mem ht.carries fun m' hm' w hw => ?_
    have hsame : m'.1.src.value pl s₁ = m'.1.src.value pl s := hvalue _ (mem_saves.mp hm')
    unfold Carries
    rw [← hsame]
    exact hw
  sp := by rw [ht.sp, hput.sp]
  words := ht.words
  above := by
    intro a ha
    rw [List.length_cons] at ha
    rw [ht.above a (by rw [hput.sp]; omega), hput.above a (by omega)]

/-- The word of a source that is put aside lies under those of the rest. -/
theorem Turned.save {pl : Addresses} {m : Numbered} {ts : List (Turn Numbered)} {s s₁ t : Cpu}
    {w : Word} {ws : List Word} (hw : Carries pl s m w) (hleft : Left w s s₁)
    (hvalue : ∀ u ∈ ts, u.item.1.src.value pl s₁ = u.item.1.src.value pl s)
    (hn : 2 * (ts.length + 1) + 6 ≤ 65536) (ht : Turned pl ts s₁ t ws) :
    Turned pl (.save m :: ts) s t (w :: ws) where
  holds := by
    intro m' hm'
    rw [ht.holds m' hm']
    exact congrArg _ (hvalue _ (mem_performed.mp hm'))
  kept := by
    intro r hf hrsp hr
    rw [ht.kept r hf hrsp hr, hleft.regs r hf hrsp]
  carries := by
    refine .cons hw (forall₂_congr_mem ht.carries fun m' hm' w' hw' => ?_)
    have hsame : m'.1.src.value pl s₁ = m'.1.src.value pl s := hvalue _ (mem_saves.mp hm')
    unfold Carries
    rw [← hsame]
    exact hw'
  sp := by
    rw [ht.sp, hleft.sp, List.length_cons]
    bv_omega
  words := hleft.under ht.sp ht.above (by omega) ht.words
  above := by
    intro a ha
    rw [List.length_cons] at ha
    have hdist : (a - s₁.sp).toNat = (a - s.sp).toNat + 2 := by
      rw [hleft.sp]
      bv_omega
    rw [ht.above a (by omega), hleft.above a (by omega)]

/-- **The turns perform what they perform and leave the rest on the stack.** -/
theorem run_turns {ts : List (Turn Numbered)} (hplan : Plan ts)
    (hroom : s.HasRoom ts.length (ts.map fun u => u.item.1.src)) :
    ∃ t ws, moveRun env (ts.flatMap emitTurn) s = some t ∧ Turned env.places ts s t ws := by
  induction ts generalizing s with
  | nil =>
    refine ⟨s, [], rfl, ⟨?_, fun _ _ _ _ => rfl, .nil, ?_, trivial, fun _ _ => rfl⟩⟩
    · intro m hm
      cases hm
    · exact (BitVec.sub_zero s.sp).symm
  | cons turn ts ih =>
    have hsound := hplan.sound turn List.mem_cons_self
    have hclear : Clear s turn.item.1.src := by
      intro off hoff
      have hlow := hroom.2 _ (List.mem_map_of_mem List.mem_cons_self) off hoff
      omega
    have hrest : s.HasRoom (ts.length + 1) (ts.map fun u => u.item.1.src) :=
      ⟨hroom.1, fun v hv => hroom.2 v (List.mem_cons_of_mem _ hv)⟩
    obtain ⟨hapart, -⟩ := List.pairwise_cons.mp hplan.apart
    cases turn with
    | perform m =>
      have hsound : m.1.Sound := hsound
      obtain ⟨s₁, hrun, hput⟩ := @run_mov env s m.1 hsound hclear
      -- the order of the turns: what is still read is not overwritten
      have hread : ∀ u ∈ ts, ∀ r, Reads u.item.1.src r → s₁.read r = s.read r := by
        intro u hu r hr
        have hr' := (hplan.sound u (List.mem_cons_of_mem _ hu)).reads hr
        exact hput.regs r hr'.2 (hplan.ordered.1 u hu r hr)
      have hsp₁ : s₁.sp = s.sp - BitVec.ofNat 16 (2 * 0) := by
        rw [hput.sp]
        exact (BitVec.sub_zero s.sp).symm
      obtain ⟨hvalue, hroom₁⟩ :=
        @rest_congr env.places ts s s₁ 0 ts.length hread hsp₁ hput.above hrest (Nat.zero_le 1)
      obtain ⟨t, ws, hrun', ht⟩ := ih hplan.tail hroom₁
      refine ⟨t, ws, ?_, ht.perform hsound hput hvalue hapart⟩
      rw [List.flatMap_cons, emitTurn, moveRun_append hrun, hrun']
    | save m =>
      have hsound : m.1.Sound := hsound
      have haside := hplan.aside m (mem_saves.mpr List.mem_cons_self)
      obtain ⟨s₁, w, hrun, hleft, hw⟩ := @run_push env s m.1 hsound haside hclear
      have hread : ∀ u ∈ ts, ∀ r, Reads u.item.1.src r → s₁.read r = s.read r := by
        intro u hu r hr
        have hr' := (hplan.sound u (List.mem_cons_of_mem _ hu)).reads hr
        exact hleft.regs r hr'.2 hr'.1
      obtain ⟨hvalue, hroom₁⟩ :=
        @rest_congr env.places ts s s₁ 1 ts.length hread hleft.sp hleft.above hrest (Nat.le_refl 1)
      obtain ⟨t, ws, hrun', ht⟩ := ih hplan.tail hroom₁
      refine ⟨t, w :: ws, ?_, ht.save hw hleft hvalue hroom.1⟩
      rw [List.flatMap_cons, emitTurn, moveRun_append hrun, hrun']

/-! ## The pops -/

/-- What the pops leave. -/
structure Popped (value : Numbered → Word) (ms : List Numbered) (s t : Cpu) : Prop where
  holds : ∀ m ∈ ms, t.read m.1.dst = m.1.dst.fit (value m)
  kept : ∀ r ≠ .flags, r ≠ .sp → (∀ m ∈ ms, pregsAlias m.1.dst r = false) → t.read r = s.read r
  sp : t.sp = s.sp + BitVec.ofNat 16 (2 * ms.length)

theorem run_pops {value : Numbered → Word} {ms : List Numbered} {ws : List Word}
    (hws : List.Forall₂ (fun m w => m.1.dst.fit w = m.1.dst.fit (value m)) ms ws)
    (hms : ∀ m ∈ ms, m.1.dst.isTarget = true ∧ m.1.isAxByte = false)
    (hapart : ms.Pairwise fun m m' => pregsAlias m.1.dst m'.1.dst = false)
    (hwords : wordsAt s.stack s.sp ws) (hroom : 2 * ws.length + 2 ≤ 65536) :
    ∃ t, moveRun env (ms.flatMap fun m => popSaved m.1) s = some t ∧ Popped value ms s t := by
  induction hws generalizing s with
  | nil =>
    refine ⟨s, rfl, ?_, fun _ _ _ _ => rfl, ?_⟩
    · intro m hm
      cases hm
    · exact (BitVec.add_zero s.sp).symm
  | @cons m w ms ws hw hws ih =>
    rw [List.length_cons] at hroom
    obtain ⟨htop, hrest⟩ := hwords
    obtain ⟨htarget, hax⟩ := hms m List.mem_cons_self
    obtain ⟨happ, hapart⟩ := List.pairwise_cons.mp hapart
    obtain ⟨s₁, hrun, htaken⟩ := @run_popSaved env s m.1 htarget hax w htop
    have hdst := Preg.isTarget_cases htarget
    have hwords₁ : wordsAt s₁.stack s₁.sp ws := by
      rw [htaken.sp]
      refine wordsAt_congr (fun i hi => htaken.above _ ?_ ?_) hrest <;> bv_omega
    obtain ⟨t, hrun', ht⟩ :=
      ih (fun m' hm' => hms m' (List.mem_cons_of_mem _ hm')) hapart hwords₁ (by omega)
    refine ⟨t, ?_, ?_, ?_, ?_⟩
    · rw [List.flatMap_cons, moveRun_append hrun, hrun']
    · intro m' hm'
      rcases List.mem_cons.mp hm' with rfl | hm'
      · rw [ht.kept _ hdst.2.1 hdst.1 fun m'' hm'' => ?_, htaken.value, hw]
        rw [pregsAlias_comm]
        exact happ m'' hm''
      · exact ht.holds m' hm'
    · intro r hf hrsp hr
      rw [ht.kept r hf hrsp fun m' hm' => hr m' (List.mem_cons_of_mem _ hm')]
      exact htaken.regs r hf hrsp (hr m List.mem_cons_self)
    · rw [ht.sp, htaken.sp, List.length_cons]
      bv_omega

/-! ## All of it -/

variable {moves : List PlannedMove}

theorem saveVictim_mem {us : List Numbered} {m : Numbered} (h : saveVictim us = some m) :
    m ∈ us := by
  unfold saveVictim at h
  rcases Option.or_eq_some_iff.mp h with h | ⟨-, h⟩
  · exact List.mem_of_find?_eq_some h
  · exact List.mem_of_head? h

theorem exists_saveVictim {us : List Numbered} (h : us ≠ []) : ∃ m, saveVictim us = some m := by
  unfold saveVictim
  cases hf : us.find? fun m => !m.1.isAxByte with
  | some m => exact ⟨m, rfl⟩
  | none =>
    cases us with
    | nil => exact absurd rfl h
    | cons m us => exact ⟨m, rfl⟩

theorem find?_of_saveVictim {us : List Numbered} {m : Numbered} (h : saveVictim us = some m)
    (hm : (!m.1.isAxByte) = true) : us.find? (fun m => !m.1.isAxByte) = some m := by
  have hin := saveVictim_mem h
  unfold saveVictim at h
  rcases Option.or_eq_some_iff.mp h with h | ⟨hnone, -⟩
  · exact h
  · exact absurd hm (List.find?_eq_none.mp hnone m hin)

theorem zipIdx_fst (moves : List PlannedMove) : moves.zipIdx.map Prod.fst = moves := by
  simp

theorem nodup_zipIdx (moves : List PlannedMove) : moves.zipIdx.Nodup := by
  have hsnd : (moves.zipIdx.map Prod.snd).Nodup := by
    rw [List.zipIdx_map_snd]
    exact List.nodup_range'
  exact hsnd.of_map

theorem fst_mem {m : Numbered} (h : m ∈ moves.zipIdx) : m.1 ∈ moves := by
  rw [← zipIdx_fst moves]
  exact List.mem_map_of_mem h

theorem planTurns_perm (moves : List PlannedMove) :
    ((planTurns moves).map Turn.item).Perm moves.zipIdx :=
  schedule_perm saveVictim_mem (fun _ => exists_saveVictim) (by simp)

theorem mem_planTurns {t : Turn Numbered} (h : t ∈ planTurns moves) : t.item ∈ moves.zipIdx :=
  (planTurns_perm moves).subset (List.mem_map_of_mem h)

/-- The turns of moves with different targets have different targets. -/
theorem turns_apart {ts : List (Turn Numbered)} (hperm : (ts.map Turn.item).Perm moves.zipIdx)
    (hdst : DisjointTargets moves) :
    ts.Pairwise fun t t' => pregsAlias t.item.1.dst t'.item.1.dst = false := by
  have hnumbered : moves.zipIdx.Pairwise fun m m' => pregsAlias m.1.dst m'.1.dst = false := by
    unfold DisjointTargets at hdst
    rw [← zipIdx_fst moves] at hdst
    exact List.pairwise_map.mp hdst
  have hsymm : ∀ {m m' : Numbered}, pregsAlias m.1.dst m'.1.dst = false →
      pregsAlias m'.1.dst m.1.dst = false := fun h => (pregsAlias_comm _ _).trans h
  exact List.pairwise_map.mp ((hperm.pairwise_iff hsymm).mpr hnumbered)

/-- Every move has its turn. -/
theorem exists_turn {ts : List (Turn Numbered)} (hperm : (ts.map Turn.item).Perm moves.zipIdx)
    {m : PlannedMove} (hm : m ∈ moves) : ∃ t ∈ ts, t.item.1 = m := by
  rw [← zipIdx_fst moves] at hm
  obtain ⟨n, hnum, rfl⟩ := List.mem_map.mp hm
  obtain ⟨turn, hturn, rfl⟩ := List.mem_map.mp (hperm.symm.subset hnum)
  exact ⟨turn, hturn, rfl⟩

theorem undisturbed_of_ordered {ts : List (Turn Numbered)} (h : Ordered clobbersPendingSrc ts)
    (hsound : ∀ t ∈ ts, t.item.1.Sound)
    (hhigh : ∀ t ∈ ts, ∀ t' ∈ ts, t.item.1.SparesHigh t'.item.1) : Undisturbed ts := by
  induction ts with
  | nil => trivial
  | cons t ts ih =>
    have hrest : Ordered clobbersPendingSrc ts → Undisturbed ts := fun h =>
      ih h (fun u hu => hsound u (List.mem_cons_of_mem _ hu))
        fun u hu u' hu' => hhigh u (List.mem_cons_of_mem _ hu) u' (List.mem_cons_of_mem _ hu')
    cases t with
    | save m => exact hrest h
    | perform m =>
      refine ⟨fun u hu r hr => ?_, hrest h.2⟩
      exact reads_of_not_clobbers (hsound _ List.mem_cons_self)
        (hhigh _ List.mem_cons_self u (List.mem_cons_of_mem _ hu)) (h.1 u hu) hr

theorem plan_planTurns (hdst : DisjointTargets moves) (hok : MovesSound moves) :
    Plan (planTurns moves) where
  ordered := undisturbed_of_ordered (ordered_schedule saveVictim_mem (nodup_zipIdx moves))
    (fun _ ht => hok.sound _ (fst_mem (mem_planTurns ht)))
    fun _ ht _ ht' => hok.high _ (fst_mem (mem_planTurns ht)) _ (fst_mem (mem_planTurns ht'))
  apart := turns_apart (planTurns_perm moves) hdst
  sound := fun _ ht => hok.sound _ (fst_mem (mem_planTurns ht))
  aside := fun m hm => hok.aside m (stuck_of_save (mem_saves.mp hm))

/-- The saved sources are popped in the reverse of the order in which they were pushed. -/
theorem popped_eq (hok : MovesSound moves) :
    moves.zipIdx.reverse.filter (· ∈ saves (planTurns moves)) =
      (saves (planTurns moves)).reverse := by
  have hkeep : ∀ m ∈ saves (planTurns moves), (!m.1.isAxByte) = true := by
    intro m hm
    rw [(hok.aside m (stuck_of_save (mem_saves.mp hm))).1]
    rfl
  have hsub := saves_sublist (fun h hm => find?_of_saveVictim h hm) (nodup_zipIdx moves) hkeep
  rw [List.filter_reverse]
  have hfilter := filter_mem_of_sublist (hsub.trans List.filter_sublist) (nodup_zipIdx moves)
  refine congrArg List.reverse (Eq.trans (List.filter_congr fun m _ => ?_) hfilter)
  exact decide_eq_decide.mpr Iff.rfl

/-- **Sound moves happen as if at once.** -/
theorem emitPlannedRegisterMoves_carried (hdst : DisjointTargets moves) (hok : MovesSound moves) :
    MovesCarried moves := by
  intro env s hroom
  have hplan := plan_planTurns hdst hok
  have hperm := planTurns_perm moves
  have hlen : (planTurns moves).length = moves.length := by
    have h := hperm.length_eq
    simpa using h
  have hturns : s.HasRoom (planTurns moves).length
      ((planTurns moves).map fun u => u.item.1.src) := by
    refine ⟨by rw [hlen]; exact hroom.1, fun v hv off hoff => ?_⟩
    obtain ⟨u, hu, rfl⟩ := List.mem_map.mp hv
    rw [hlen]
    exact hroom.2 _ (List.mem_map_of_mem (fst_mem (mem_planTurns hu))) off hoff
  obtain ⟨t, ws, hrun, ht⟩ := @run_turns env s _ hplan hturns
  have hsaves : ∀ m ∈ saves (planTurns moves), m.1.dst.isTarget = true ∧ m.1.isAxByte = false :=
    fun m hm => ⟨(hplan.sound _ (mem_saves.mp hm)).1, (hplan.aside m hm).1⟩
  have happ : ((saves (planTurns moves)).reverse).Pairwise
      fun m m' => pregsAlias m.1.dst m'.1.dst = false := by
    have hitems : ((planTurns moves).map Turn.item).Pairwise
        fun m m' => pregsAlias m.1.dst m'.1.dst = false := List.pairwise_map.mpr hplan.apart
    have hsub := hitems.sublist (saves_sublist_items _)
    refine (List.pairwise_reverse.mpr hsub).imp fun h => ?_
    rw [pregsAlias_comm]
    exact h
  have hcount : ws.length ≤ moves.length := by
    have h := (saves_sublist_items (planTurns moves)).length_le
    rw [ht.carries.length_eq, List.length_map, hlen] at h
    exact h
  have hn := hroom.1
  have hpops : 2 * ws.reverse.length + 2 ≤ 65536 := by
    rw [List.length_reverse]
    omega
  obtain ⟨u, hrun', hu⟩ := @run_pops env t _ _ _ (List.forall₂_reverse_iff.mpr ht.carries)
    (fun m hm => hsaves m (List.mem_reverse.mp hm)) happ ht.words hpops
  refine ⟨u, ?_, ?_, ?_, ?_⟩
  · rw [emitPlannedRegisterMoves, moveRun_append hrun, popped_eq hok]
    exact hrun'
  · intro m hm
    obtain ⟨turn, hturn, rfl⟩ := exists_turn hperm hm
    cases turn with
    | save n => exact hu.holds n (List.mem_reverse.mpr (mem_saves.mpr hturn))
    | perform n =>
      -- the pops come after it, and end elsewhere
      have hdst := Preg.isTarget_cases (hplan.sound _ hturn).1
      have hother : ∀ m ∈ (saves (planTurns moves)).reverse,
          pregsAlias m.1.dst n.1.dst = false := by
        intro m hm
        have hsave := mem_saves.mp (List.mem_reverse.mp hm)
        have hsymm : Std.Symm fun t t' : Turn Numbered =>
            pregsAlias t.item.1.dst t'.item.1.dst = false :=
          ⟨fun _ _ h => (pregsAlias_comm _ _).trans h⟩
        exact hplan.apart.forall hsave hturn (by simp)
      have hkept : u.read n.1.dst = t.read n.1.dst := hu.kept _ hdst.2.1 hdst.1 hother
      exact hkept.trans (ht.holds n (mem_performed.mpr hturn))
  · intro r hf hr
    have hsp : u.sp = s.sp := by
      rw [hu.sp, ht.sp, List.length_reverse, ht.carries.length_eq]
      bv_omega
    by_cases hrsp : r = .sp
    · rw [hrsp]
      exact hsp
    · rw [hu.kept r hf hrsp fun m hm => ?_, ht.kept r hf hrsp fun m hm => ?_]
      · exact hr _ (fst_mem (mem_planTurns (mem_performed.mp hm)))
      · exact hr _ (fst_mem (mem_planTurns (mem_saves.mp (List.mem_reverse.mp hm))))
  · rw [hu.sp, ht.sp, List.length_reverse, ht.carries.length_eq]
    bv_omega

/-- `BX` and `CX` are exchanged through the stack. -/
def swapWords : List PlannedMove :=
  [⟨.bx, { home := .reg .cx }⟩, ⟨.cx, { home := .reg .bx }⟩]

theorem swapWords_sound : MovesSound swapWords where
  sound := fun m hm => by
    rcases List.mem_pair.mp hm with rfl | rfl <;> exact ⟨rfl, ⟨by decide, by decide⟩, trivial⟩
  high := fun m hm m' _ hbyte => by
    rcases List.mem_pair.mp hm with rfl | rfl <;> cases hbyte
  aside := by
    rintro m ⟨us, hsub, -, hv⟩
    have hm : m.1 ∈ swapWords := fst_mem (hsub.subset (saveVictim_mem hv))
    refine ⟨?_, ?_, ?_⟩
    · rcases List.mem_pair.mp hm with h | h <;> rw [h] <;> rfl
    · intro hbyte
      rcases List.mem_pair.mp hm with h | h <;> rw [h] at hbyte <;> cases hbyte
    · intro r hr
      rcases List.mem_pair.mp hm with h | h <;> rw [h] at hr ⊢ <;> cases hr <;> rfl

theorem swapWords_carried : MovesCarried swapWords :=
  emitPlannedRegisterMoves_carried (by unfold DisjointTargets; decide) swapWords_sound

/-- A word in `SI` for `AL`: it is moved to `AX` as a whole. -/
def indexToAl : List PlannedMove := [⟨.al, { home := .reg .si }⟩]

theorem indexToAl_not_carried : DisjointTargets indexToAl ∧ ¬MovesCarried indexToAl := by
  refine ⟨List.pairwise_singleton _ _, fun h => ?_⟩
  let env : MoveEnv := ⟨⟨fun _ => 0, fun _ => 0⟩, fun _ _ => 0⟩
  let s : Cpu := { reg := fun r => if r = .si then 0x1234 else 0, ip := 0, stack := fun _ => 0 }
  have hroom : s.HasRoom indexToAl.length (indexToAl.map PlannedMove.src) := by
    refine ⟨by decide, fun v hv off hoff => ?_⟩
    obtain rfl := List.mem_singleton.mp hv
    cases hoff
  obtain ⟨t, hrun, hmoved⟩ := h env s hroom
  have hrun' : moveRun env (emitPlannedRegisterMoves indexToAl) s = some (s.put .ax 0x1234) := rfl
  obtain rfl : s.put .ax 0x1234 = t := Option.some.inj (hrun'.symm.trans hrun)
  have hkept := hmoved.kept .ah (by decide) (by
    intro m hm
    obtain rfl := List.mem_singleton.mp hm
    rfl)
  revert hkept
  decide

end Nib.Bind
