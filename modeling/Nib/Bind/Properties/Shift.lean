import Nib.Bind.Properties.ShiftMoves

/-!
# Sound variable shifts are carried out

* `Typed.run_emitShift` — the destination is shifted by what is in `CL`
* `run_rinsIrStackCached` — so it is between the pops and the pushes of the stack cache
* `routed_of_sound` — on every route `CL` has the count, and what the route uses comes back
-/

namespace Nib.Bind

open Nib.Infra

namespace VarShift

variable {i : VarShift}

/-! ## The shift -/

theorem shiftStep_shift {env : ShiftEnv} {op : String} {r : Preg}
    (h : r.isByte = true ∨ r.isWord = true) (s : Cpu) : shiftStep env (.shift op r) s =
      some ((s.put r (env.shift op r.isByte (s.read r) (s.read .cl) (s.reg .flags)).1).setReg .flags
        (env.shift op r.isByte (s.read r) (s.read .cl) (s.reg .flags)).2) :=
  if_pos (by simpa using h)

theorem shiftStep_shiftSlot {env : ShiftEnv} {op : String} {word byte : Bool} (h : (!word) = byte)
    (off : Int) (s : Cpu) : shiftStep env (.shiftSlot op word off) s =
      some { s.setReg .flags
          (env.shift op byte (s.readSlot byte off) (s.read .cl) (s.reg .flags)).2 with
        stack := write byte s.stack (s.slotAddr off)
          (env.shift op byte (s.readSlot byte off) (s.read .cl) (s.reg .flags)).1 } := by
  subst h
  rfl

/-- The destination is shifted in its place. -/
theorem Typed.run_shiftDst {env : ShiftEnv} {s : Cpu} {w : Word} (h : i.Typed)
    (hw : i.dst.Has w s s) (hfit : i.dst.isByte = true → zeroExtend (low w) = w) :
    ∃ t, shiftRun env [i.shiftDst] s = some t ∧
      Wrote i.dst (env.shift i.op i.dst.isByte w (s.read .cl) (s.reg .flags)).1 s t := by
  have hdst := h.dst
  unfold Source.Has at hw
  cases hd : i.dst.home with
  | remat c =>
    rw [hd] at hdst
    exact hdst.elim
  | reg q =>
    rw [hd] at hdst hw
    obtain ⟨hbyte, hkind, hsp⟩ := hdst
    have hread : s.read q = w := by
      cases hq : q.isByte with
      | true => rw [hw, Preg.fit_of_byte hq, hfit (hbyte.symm.trans hq)]
      | false => rw [hw, Preg.fit_of_not_byte hq]
    have hflags : q ≠ .flags := by
      rintro rfl
      rcases hkind with hk | hk <;> cases hk
    have hshift : i.shiftDst = .shift i.op q := by
      unfold shiftDst
      rw [hd]
    have hstep := @shiftStep_shift env i.op q hkind s
    rw [hread, hbyte] at hstep
    rw [hshift]
    exact ⟨_, (shiftRun_cons hstep).trans rfl,
      wrote_of_put hd (put_flags (put_put hsp _ s) hflags _)⟩
  | slot off =>
    rw [hd] at hdst hw
    have hsize : (!(!i.dst.isByte && !i.stackHome)) = i.dst.isByte := by
      cases hb : i.dst.isByte with
      | true => rfl
      | false =>
        cases hh : i.stackHome with
        | true => exact absurd (hdst hh) (by simp [hb])
        | false => rfl
    have hread : s.readSlot i.dst.isByte off = w := by
      cases hb : i.dst.isByte with
      | true =>
        rw [hb] at hw
        exact (congrArg zeroExtend hw).trans (hfit hb)
      | false =>
        rw [hb] at hw
        exact hw
    have hshift : i.shiftDst = .shiftSlot i.op (!i.dst.isByte && !i.stackHome) off := by
      unfold shiftDst
      rw [hd]
    have hstep := @shiftStep_shiftSlot env i.op _ _ hsize off s
    rw [hread] at hstep
    rw [hshift]
    refine ⟨_, (shiftRun_cons hstep).trans rfl, wrote_slot hd rfl (fun _ _ => rfl) fun r hr => ?_⟩
    refine Cpu.read_put_of_ne (d := .flags) s _ ?_
    cases r <;> first | rfl | exact absurd rfl hr

theorem Typed.run_emitShift {env : ShiftEnv} {s : Cpu} (h : i.Typed) (hclear : Clear s i.dst)
    (hclear' : Clear s i.src1) (hcl : i.dst.home = i.src1.home ∨ i.dst.Spares .cl) :
    ∃ t, shiftRun env i.emitShift s = some t ∧
      Wrote i.dst (env.shift i.op i.dst.isByte (i.value env.places s) (s.read .cl)
        (s.reg .flags)).1 s t := by
  obtain ⟨u, hmov, hwrote, hflags, hsame⟩ := @run_emitMov i env s h hclear hclear'
  have hcount : u.read .cl = s.read .cl := by
    rcases hcl with he | hspare
    · rw [hsame he]
    · exact hwrote.kept .cl (by decide) hspare
  have hfit : i.dst.isByte = true →
      zeroExtend (low (i.value env.places s)) = i.value env.places s := fun hb => by
    rw [value, if_pos hb, zeroExtend_low_zeroExtend]
  -- a value that is widened changes the flags, but then the shift does not read them
  have hcarry : ∀ w count, (env.shift i.op i.dst.isByte w count (u.reg .flags)).1 =
      (env.shift i.op i.dst.isByte w count (s.reg .flags)).1 := by
    intro w count
    by_cases hop : i.op = "rcl" ∨ i.op = "rcr"
    · rw [hflags (h.carry hop)]
    · exact env.flagless _ (fun he => hop (.inl he)) (fun he => hop (.inr he)) _ _ _ _ _
  obtain ⟨t, hshift, hdone⟩ := @run_shiftDst i env u _ h hwrote.self hfit
  rw [hcount, hcarry] at hdone
  exact ⟨t, (shiftRun_append hmov).trans hshift, hwrote.trans hdone⟩

/-! ## The stack cache -/

end VarShift

theorem canPop_kind {p : Preg} (h : p.canPop = true) : p.isByte = false ∧ p ≠ .flags := by
  revert h
  cases p <;> decide

theorem pregsAlias_flags {p : Preg} (h : p ≠ .flags) : pregsAlias p .flags = false := by
  revert h
  cases p <;> decide

@[simp] theorem popAll_stack (s : Cpu) (ps : List Preg) : (s.popAll ps).stack = s.stack := by
  induction ps generalizing s with
  | nil => rfl
  | cons p ps ih =>
    rw [Cpu.popAll, ih]
    rfl

theorem popAll_sp (s : Cpu) {ps : List Preg} (h : ∀ p ∈ ps, p ≠ .sp) :
    (s.popAll ps).sp = s.sp + BitVec.ofNat 16 (2 * ps.length) := by
  induction ps generalizing s with
  | nil => simp [Cpu.popAll]
  | cons p ps ih =>
    rw [Cpu.popAll, ih _ fun q hq => h q (List.mem_cons_of_mem _ hq),
      Cpu.setReg_sp _ _ (h p List.mem_cons_self), Cpu.drop_sp, List.length_cons]
    bv_omega

/-- Registers that are not popped stay. -/
theorem popAll_read (s : Cpu) {ps : List Preg} {r : Preg} (hr : r ≠ .sp)
    (h : ∀ p ∈ ps, p.canPop = true ∧ pregsAlias p r = false) : (s.popAll ps).read r = s.read r := by
  induction ps generalizing s with
  | nil => rfl
  | cons p ps ih =>
    obtain ⟨hpop, halias⟩ := h p List.mem_cons_self
    rw [Cpu.popAll, ih _ fun q hq => h q (List.mem_cons_of_mem _ hq),
      ← Cpu.put_eq_setReg _ _ (canPop_kind hpop).1, Cpu.read_put_of_ne _ _ halias,
      Cpu.read_drop _ _ hr]

theorem popAll_flags (s : Cpu) {ps : List Preg} (h : ∀ p ∈ ps, p.canPop = true) :
    (s.popAll ps).reg .flags = s.reg .flags :=
  popAll_read s (by decide) fun p hp => ⟨h p hp, pregsAlias_flags (canPop_kind (h p hp)).2⟩

theorem read_setReg_congr {s u : Cpu} {p r : Preg} (hp : p.isByte = false) (w : Word)
    (h : pregsAlias p r = false → u.read r = s.read r) :
    (u.setReg p w).read r = (s.setReg p w).read r := by
  cases halias : pregsAlias p r with
  | false =>
    rw [← Cpu.put_eq_setReg _ _ hp, ← Cpu.put_eq_setReg _ _ hp, Cpu.read_put_of_ne _ _ halias,
      Cpu.read_put_of_ne _ _ halias, h halias]
  | true =>
    cases p <;> cases r <;>
      first
      | exact absurd halias (by decide)
      | exact absurd hp (by decide)
      | simp [Cpu.read, Preg.aliasParent]

/-- Processors that differ in `CL` pop the same. -/
theorem popAll_congr {s u : Cpu} {ps : List Preg} {n : Nat}
    (hregs : ∀ r ≠ .flags, pregsAlias .cl r = false → u.read r = s.read r) (habove : Above n s u)
    (hn : 2 * n + 2 * ps.length < 65536) (hps : ∀ p ∈ ps, p.canPop = true ∧ p ≠ .sp) {r : Preg}
    (hf : r ≠ .flags) (hr : pregsAlias .cl r = false) :
    (u.popAll ps).read r = (s.popAll ps).read r := by
  induction ps generalizing s u n with
  | nil => exact hregs r hf hr
  | cons p ps ih =>
    obtain ⟨hpop, hpsp⟩ := hps p List.mem_cons_self
    rw [List.length_cons] at hn
    have hsp : u.sp = s.sp := hregs .sp (by decide) (by decide)
    have hpeek : u.peek 0 = s.peek 0 := by
      have h0 := habove s.sp (by bv_omega)
      have h1 := habove (s.sp + 1) (by bv_omega)
      rw [Cpu.peek, Cpu.peek, hsp, Nat.mul_zero, BitVec.add_zero, readWord, h0, h1, readWord]
    rw [Cpu.popAll, Cpu.popAll, hpeek]
    refine @ih ((s.drop 1).setReg p (s.peek 0)) ((u.drop 1).setReg p (s.peek 0)) (n + 1) ?_ ?_
      (by omega) fun q hq => hps q (List.mem_cons_of_mem _ hq)
    · intro r hf hr
      refine read_setReg_congr (canPop_kind hpop).1 _ fun _ => ?_
      by_cases hrsp : r = .sp
      · rw [hrsp, ← sp_eq_read, ← sp_eq_read, Cpu.drop_sp, Cpu.drop_sp, hsp]
      · rw [Cpu.read_drop _ _ hrsp, Cpu.read_drop _ _ hrsp, hregs r hf hr]
    · intro a ha
      rw [Cpu.setReg_sp _ _ hpsp, Cpu.drop_sp] at ha
      exact habove a (by bv_omega)

theorem run_popAll {env : ShiftEnv} {ps : List Preg} (h : ∀ p ∈ ps, p.canPop = true) (s : Cpu) :
    shiftRun env (ps.map fun r => .move (.pop r)) s = some (s.popAll ps) := by
  induction ps generalizing s with
  | nil => rfl
  | cons p ps ih =>
    have hstep : shiftStep env (.move (.pop p)) s = some ((s.drop 1).setReg p (s.peek 0)) :=
      if_pos (h p List.mem_cons_self)
    rw [List.map_cons, shiftRun_cons hstep, ih fun q hq => h q (List.mem_cons_of_mem _ hq)]
    rfl

theorem run_pushAll {env : ShiftEnv} {ps : List Preg} (h : ∀ p ∈ ps, p.canPush = true) (s : Cpu) :
    ∃ t, shiftRun env (ps.map fun r => .move (.push r)) s = some t ∧
      t.sp = s.sp - BitVec.ofNat 16 (2 * ps.length) ∧ (∀ r ≠ .sp, t.read r = s.read r) ∧
      ∀ a, (a - s.sp).toNat + 2 * ps.length < 65536 → t.stack a = s.stack a := by
  induction ps generalizing s with
  | nil => exact ⟨s, rfl, by simp, fun _ _ => rfl, fun _ _ => rfl⟩
  | cons p ps ih =>
    have hstep : shiftStep env (.move (.push p)) s = some (s.push [s.reg p]) :=
      if_pos (h p List.mem_cons_self)
    obtain ⟨t, hrun, hsp, hregs, hstack⟩ :=
      ih (fun q hq => h q (List.mem_cons_of_mem _ hq)) (s.push [s.reg p])
    rw [Cpu.push_one_sp] at hsp hstack
    refine ⟨t, (shiftRun_cons hstep).trans hrun, ?_, ?_, ?_⟩
    · rw [hsp, List.length_cons]
      bv_omega
    · intro r hr
      rw [hregs r hr, Cpu.read_push _ _ hr]
    · intro a ha
      rw [List.length_cons] at ha
      rw [hstack a (by bv_omega)]
      exact write_below (by omega)

namespace VarShift

variable {i : VarShift}

/-- The stack cache gives back the registers, and takes others in their place. -/
theorem run_rinsIrStackCached {env : ShiftEnv} {s : Cpu} (h : i.Typed) (hcache : i.CacheSound)
    (hroom : ∀ v ∈ [i.dst, i.src1], ∀ off, v.home = .slot off →
      ((s.popAll i.cachePops).slotAddr off - (s.popAll i.cachePops).sp).toNat +
        2 * i.cachePops.length + 6 ≤ 65536)
    (hcl : i.dst.home = i.src1.home ∨ i.dst.Spares .cl) :
    ∃ t, shiftRun env i.rinsIrStackCached s = some t ∧
      i.dst.Has (env.shift i.op i.dst.isByte (i.value env.places (s.popAll i.cachePops))
        ((s.popAll i.cachePops).read .cl) ((s.popAll i.cachePops).reg .flags)).1
        (s.popAll i.cachePops) t ∧
      (∀ r ≠ .flags, r ≠ .sp → i.dst.Spares r →
        t.read r = (s.popAll i.cachePops).read r) ∧ t.sp = s.sp := by
  have hpop : ∀ p ∈ i.cachePops, p.canPop = true := fun p hp => (hcache.pops p hp).1
  have hclear : ∀ v ∈ [i.dst, i.src1], Clear (s.popAll i.cachePops) v := by
    intro v hv off hoff
    have hlow := hroom v hv off hoff
    omega
  obtain ⟨u, hshift, hwrote⟩ := @Typed.run_emitShift i env (s.popAll i.cachePops) h
    (hclear _ (by simp)) (hclear _ (by simp)) hcl
  obtain ⟨t, hpush, hsp, hregs, hstack⟩ := @run_pushAll env _ hcache.pushes u
  refine ⟨t, ?_, ?_, ?_, ?_⟩
  · rw [rinsIrStackCached, List.append_assoc, shiftRun_append (run_popAll hpop s),
      shiftRun_append hshift, hpush]
  · refine hwrote.holds.congr (fun q hd => hregs q ?_) fun off hd => ⟨rfl, ?_⟩
    · rintro rfl
      exact h.notSp hd
    · have hlow := hroom i.dst (by simp) off hd
      rw [hcache.balanced] at hlow
      exact ⟨hstack _ (by rw [hwrote.sp]; omega), hstack _ (by rw [hwrote.sp]; bv_omega)⟩
  · intro r hf hr hspare
    rw [hregs r hr, hwrote.kept r hf hspare]
  · rw [hsp, hwrote.sp, popAll_sp s fun p hp => (hcache.pops p hp).2.1, hcache.balanced]
    bv_omega

end VarShift

/-! ## Registers that are saved -/

/-- A push does not change the value of a vreg. -/
theorem value_push {pl : Addresses} {v : Source} {s : Cpu} (hv : v.home ≠ .reg .sp)
    (hclear : ∀ off, v.home = .slot off → (s.slotAddr off - s.sp).toNat + 4 ≤ 65536) (w : Word) :
    v.value pl (s.push [w]) = v.value pl s := by
  refine value_congr (n := 1) (fun r hr => Cpu.read_push s _ ?_)
    (fun a ha => write_below (by omega)) fun off hoff => ?_
  · rcases hr with hr | ⟨-, rfl⟩
    · rintro rfl
      exact hv hr
    · decide
  · have hlow := hclear off hoff
    omega

/-- A register is back as it was in `s`, and the others are as in `u`. -/
structure PoppedBack (r : Preg) (s u t : Cpu) : Prop where
  back : ∀ q, pregsAlias r q = true → t.read q = s.read q
  kept : ∀ q ≠ .sp, pregsAlias r q = false → t.read q = u.read q
  sp : t.sp = s.sp
  stack : t.stack = u.stack

/-- What has been pushed is popped, when the word on the stack is still there. -/
theorem run_popBack {env : ShiftEnv} {s u : Cpu} {r : Preg} (hpop : r.canPop = true)
    (hr : r ≠ .sp) (hsp : u.sp = s.sp - 2)
    (htop : ∀ a, a = s.sp - 2 ∨ a = s.sp - 2 + 1 →
      u.stack a = (s.push [s.reg r]).stack a) :
    ∃ t, shiftStep env (.move (.pop r)) u = some t ∧ PoppedBack r s u t := by
  have hpeek : u.peek 0 = s.reg r := by
    rw [Cpu.peek, hsp, Nat.mul_zero, BitVec.add_zero, readWord, htop _ (.inl rfl),
      htop _ (.inr rfl)]
    exact readWord_write_self _ _ _
  have hbyte := (canPop_kind hpop).1
  refine ⟨(u.drop 1).setReg r (s.reg r), ?_, fun q hq => ?_, fun q hq hno => ?_, ?_, rfl⟩
  · rw [← hpeek]
    exact if_pos hpop
  · exact Cpu.read_setReg_back s _ hbyte hq
  · rw [← Cpu.put_eq_setReg _ _ hbyte, Cpu.read_put_of_ne _ _ hno, Cpu.read_drop _ _ hq]
  · rw [Cpu.setReg_sp _ _ hr, Cpu.drop_sp, hsp]
    bv_omega

namespace VarShift

variable {i : VarShift}

/-! ## The routes -/

theorem emitPlannedRegisterMoves_single (m : PlannedMove) :
    emitPlannedRegisterMoves [m] = rinsMovPregFromVreg m.dst m.src := by
  have hturns : planTurns [m] = [.perform (m, 0)] := by
    simp [planTurns, schedule, ready]
  simp [emitPlannedRegisterMoves, hturns, emitTurn, Turn.saves]

theorem run_moveCount {env : ShiftEnv} {s : Cpu} (hm : PlannedMove.Sound ⟨.cl, i.src2⟩)
    (hclear : Clear s i.src2) : ∃ u, shiftRun env i.moveCount s = some u ∧
      Put .cl (i.src2.value env.places s) s u ∧ u.reg .flags = s.reg .flags := by
  obtain ⟨u, hrun, hput⟩ := @run_mov env.toMoveEnv s _ hm hclear
  refine ⟨u, ?_, hput, moveRun_flags (rinsMov_keepsFlags (.inl rfl)) hrun⟩
  rw [moveCount, shiftRun_moves, emitPlannedRegisterMoves_single]
  exact hrun

/-- The count is in `CL` already. -/
theorem Sound.routed_inCl (h : i.Sound) (hcl : i.src2.assigned = some .cl) : i.Routed := by
  intro env s hroom
  have hroute : i.routeShift = i.rinsIrStackCached := if_pos hcl
  have hhome := home_of_assigned hcl
  have hcount : ∀ t : Cpu, zeroExtend (low (i.src2.value env.places t)) = t.read .cl := by
    intro t
    unfold Source.value
    rw [hhome]
    have hfit : zeroExtend (low (t.read .cl)) = t.read .cl := Cpu.fit_read t .cl
    cases i.src2.isByte <;> simp [hfit]
  obtain ⟨t, hrun, hholds, hkept, hsp⟩ := @run_rinsIrStackCached i env s h.toTyped h.toCacheSound
    (fun v hv off hoff => by
      have hlow := hroom.2 v (by simp at hv ⊢; grind) off hoff
      omega) (h.inCl hcl)
  refine ⟨t, hroute ▸ hrun, ?_, ?_, hsp⟩
  · rw [result, hcount]
    exact hholds
  · intro r hr hf hspare
    by_cases hrsp : r = .sp
    · rw [hrsp]
      exact hsp
    · rw [hkept r hf hrsp hspare]
      exact popAll_read s hrsp fun p hp => ⟨(h.pops p hp).1, (h.pops p hp).2.2 r hr⟩

theorem Typed.reads (h : i.Typed) {r : Preg} (hr : Reads i.src1 r) : r ≠ .flags ∧ r ≠ .sp := by
  have hnot : r.isByte = true ∨ r.isWord = true → r ≠ .flags := by
    rintro hk rfl
    rcases hk with hk | hk <;> cases hk
  rcases hr with hv | ⟨-, rfl⟩
  · have hdst := h.dst
    by_cases hsame : i.dst.home = i.src1.home
    · rw [hsame, hv] at hdst
      exact ⟨hnot hdst.2.1, hdst.2.2⟩
    · have harrives := h.arrives hsame
      unfold Arrives at harrives
      cases hd : i.dst.home with
      | reg q =>
        rw [hd, hv] at harrives
        have hhome := harrives.2
        simp only [hv] at hhome
        exact ⟨hhome.1.2, hhome.1.1⟩
      | slot off =>
        rw [hd, hv] at harrives
        exact ⟨hnot harrives.1, harrives.2.1⟩
      | remat c =>
        rw [hd] at hdst
        exact hdst.elim
  · decide

theorem value_eq {pl : Addresses} {s t : Cpu} (h : i.src1.value pl t = i.src1.value pl s) :
    i.value pl t = i.value pl s := by
  rw [value, value, h]

theorem Sound.count_reads (hm : PlannedMove.Sound ⟨.cl, i.src2⟩) {r : Preg}
    (hr : Reads i.src2 r) : r ≠ .flags ∧ r ≠ .sp := by
  rcases hr with hv | ⟨-, rfl⟩
  · have hhome := hm.2
    simp only [hv] at hhome
    exact ⟨hhome.1.2, hhome.1.1⟩
  · decide

theorem pregsAlias_cl_of_cx {r : Preg} (h : pregsAlias .cx r = false) :
    pregsAlias .cl r = false := by
  revert h
  cases r <;> decide

theorem isFree_cx (h : i.isFree .cx = true) :
    (∀ r ∈ i.liveAfter, pregsAlias .cx r = false) ∧
      (∀ r, i.src1.home = .reg r → pregsAlias .cx r = false) := by
  have hall : ∀ r ∈ i.liveAfter ++ i.src1.assigned.toList ++ i.src2.assigned.toList,
      pregsAlias .cx r = false := by
    rw [isFree, Bool.not_eq_true', List.any_eq_false] at h
    exact fun r hr => Bool.eq_false_of_not_eq_true (h r hr)
  refine ⟨fun r hr => hall r (by simp [hr]), fun r hr => hall r ?_⟩
  simp [Source.assigned, hr]

theorem spares_cx (h : i.dstIsCx = false) {q : Preg} (hq : i.dst.home = .reg q) :
    pregsAlias .cx q = false := by
  rw [dstIsCx, Source.assigned, hq] at h
  revert h
  cases q <;> decide

/-- Nothing is in `CX`: the count gets to `CL`, and the rest is as before. -/
theorem Sound.routed_free (h : i.Sound) (hcl : i.src2.assigned ≠ some .cl)
    (hfree : i.isFree .cx = true) (hdst : i.dstIsCx = false) : i.Routed := by
  intro env s hroom
  have hroute : i.routeShift = i.moveCount ++ i.rinsIrStackCached := by
    rw [routeShift, if_neg hcl, hfree, hdst]
    rfl
  have hm := h.count hcl hdst
  obtain ⟨hliveCx, hsrcCx⟩ := isFree_cx hfree
  have hpop : ∀ p ∈ i.cachePops, p.canPop = true := fun p hp => (h.pops p hp).1
  have hpopSp : ∀ p ∈ i.cachePops, p ≠ .sp := fun p hp => (h.pops p hp).2.1
  have hapart : ∀ p ∈ i.cachePops, pregsAlias p .cl = false ∧
      (∀ r, i.src2.home = .reg r → pregsAlias p r = false) ∧
      (i.src2.isSpilled = true → p ≠ .bp) := fun p hp =>
    (h.routed hcl (List.ne_nil_of_mem hp)).2.2 p hp
  have hsp := popAll_sp s hpopSp
  have hcountRead : ∀ r, Reads i.src2 r → (s.popAll i.cachePops).read r = s.read r := by
    intro r hr
    refine popAll_read s (count_reads hm hr).2 fun p hp => ⟨hpop p hp, ?_⟩
    rcases hr with hv | ⟨⟨off, hv⟩, rfl⟩
    · exact (hapart p hp).2.1 r hv
    · exact pregsAlias_bp_of_ne ((hapart p hp).2.2 (by rw [Source.isSpilled, hv]))
  have hclear : Clear s i.src2 := by
    intro off hoff
    have hlow := hroom.2 i.src2 (by simp) off hoff
    have hbp : (s.popAll i.cachePops).reg .bp = s.reg .bp :=
      hcountRead .bp (.inr ⟨⟨off, hoff⟩, rfl⟩)
    rw [Cpu.slotAddr, hbp, hsp] at hlow
    rw [Cpu.slotAddr]
    bv_omega
  -- the count is read before the pops, the value after them
  obtain ⟨u, hmove, hput, huflags⟩ := @run_moveCount i env s hm hclear
  have hregs : ∀ r ≠ .flags, pregsAlias .cl r = false →
      (u.popAll i.cachePops).read r = (s.popAll i.cachePops).read r := fun r hf hr =>
    popAll_congr (n := 2) hput.regs hput.above (by have := hroom.1; omega)
      (fun p hp => ⟨hpop p hp, hpopSp p hp⟩) hf hr
  have habove : Above (i.cachePops.length + 2) (s.popAll i.cachePops) (u.popAll i.cachePops) := by
    intro a ha
    rw [hsp] at ha
    rw [popAll_stack, popAll_stack]
    exact hput.above a (by bv_omega)
  have hvalue : i.value env.places (u.popAll i.cachePops) =
      i.value env.places (s.popAll i.cachePops) := by
    refine value_eq (value_congr (fun r hr => hregs r (h.toTyped.reads hr).1 ?_) habove
      fun off hoff => ?_)
    · rcases hr with hv | ⟨-, rfl⟩
      · exact pregsAlias_cl_of_cx (hsrcCx r hv)
      · decide
    · have hlow := hroom.2 i.src1 (by simp) off hoff
      omega
  have hcount : (u.popAll i.cachePops).read .cl =
      zeroExtend (low (i.src2.value env.places (s.popAll i.cachePops))) := by
    have hsame : i.src2.value env.places s = i.src2.value env.places (s.popAll i.cachePops) := by
      refine value_congr (n := 0) (fun r hr => (hcountRead r hr).symm)
        (fun a _ => by rw [popAll_stack]) fun off hoff => ?_
      have hlow := hroom.2 i.src2 (by simp) off hoff
      omega
    rw [popAll_read u (by decide) fun p hp => ⟨hpop p hp, (hapart p hp).1⟩, hput.value, ← hsame]
    rfl
  have hflags : (u.popAll i.cachePops).reg .flags = (s.popAll i.cachePops).reg .flags := by
    rw [popAll_flags u hpop, popAll_flags s hpop, huflags]
  have haddr : ∀ off, (u.popAll i.cachePops).slotAddr off = (s.popAll i.cachePops).slotAddr off :=
    slotAddr_congr (hregs .bp (by decide) (by decide))
  have hspare : i.dst.Spares .cl := fun q hq => by
    rw [pregsAlias_comm]
    exact pregsAlias_cl_of_cx (spares_cx hdst hq)
  obtain ⟨t, hrun, hholds, hkept, htsp⟩ :=
    @run_rinsIrStackCached i env u h.toTyped h.toCacheSound
      (fun v hv off hoff => by
        have hlow := hroom.2 v (by simp at hv ⊢; grind) off hoff
        have husp : (u.popAll i.cachePops).sp = (s.popAll i.cachePops).sp :=
          hregs .sp (by decide) (by decide)
        rw [haddr, husp]
        omega) (.inr hspare)
  rw [hvalue, hcount, hflags] at hholds
  refine ⟨t, ?_, ?_, ?_, htsp.trans hput.sp⟩
  · rw [hroute, shiftRun_append hmove, hrun]
  · exact hholds.congr (fun _ _ => rfl) fun off _ =>
      ⟨(haddr off).symm, by rw [haddr], by rw [haddr]⟩
  · intro r hr hf hspares
    by_cases hrsp : r = .sp
    · rw [hrsp]
      exact htsp.trans hput.sp
    · rw [hkept r hf hrsp hspares, hregs r hf (pregsAlias_cl_of_cx (hliveCx r hr))]
      exact popAll_read s hrsp fun p hp => ⟨hpop p hp, (h.pops p hp).2.2 r hr⟩

/-- Without a free register the stack cache has nothing to do. -/
theorem Sound.uncached (h : i.Sound) (hcl : i.src2.assigned ≠ some .cl)
    (hroute : i.isFree .cx = false ∨ i.dstIsCx = true) :
    i.cachePops = [] ∧ i.cachePushes = [] := by
  have hpops : i.cachePops = [] := by
    by_contra hne
    obtain ⟨hfree, hdst, -⟩ := h.routed hcl hne
    rcases hroute with hr | hr
    · rw [hfree] at hr
      cases hr
    · rw [hdst] at hr
      cases hr
  refine ⟨hpops, List.eq_nil_of_length_eq_zero ?_⟩
  rw [← h.balanced, hpops]
  rfl

/-- `CX` is saved: the count gets to `CL`, and what was there comes back. -/
theorem Sound.routed_occupied (h : i.Sound) (hcl : i.src2.assigned ≠ some .cl)
    (hfree : i.isFree .cx = false) (hdst : i.dstIsCx = false) : i.Routed := by
  intro env s hroom
  obtain ⟨hpops, hpushes⟩ := h.uncached hcl (.inl hfree)
  have hroute : i.routeShift =
      .move (.push .cx) :: (i.moveCount ++ (i.emitShift ++ [.move (.pop .cx)])) := by
    rw [routeShift, if_neg hcl, hfree, hdst, rinsIrStackCached, hpops, hpushes]
    simp
  have hm := h.count hcl hdst
  rw [hpops] at hroom
  have hlow : ∀ v ∈ [i.dst, i.src1, i.src2], ∀ off, v.home = .slot off →
      (s.slotAddr off - s.sp).toNat + 12 ≤ 65536 := fun v hv off hoff => hroom.2 v hv off hoff
  let s₁ := s.push [s.reg .cx]
  have hpush : shiftStep env (.move (.push .cx)) s = some s₁ := rfl
  have hs₁sp : s₁.sp = s.sp - 2 := Cpu.push_one_sp s _
  have hs₁ : ∀ r ≠ .sp, s₁.read r = s.read r := fun r hr => Cpu.read_push s _ hr
  have habove₁ : Above 1 s s₁ := fun a ha => write_below (by omega)
  obtain ⟨u, hmove, hput, huflags⟩ := @run_moveCount i env s₁ hm fun off hoff => by
    have hoff := hlow i.src2 (by simp) off hoff
    rw [slotAddr_push, hs₁sp]
    bv_omega
  have hcountVal : i.src2.value env.places s₁ = i.src2.value env.places s :=
    value_push (fun hv => (count_reads hm (.inl hv)).2 rfl) (fun off hoff => by
      have hoff := hlow i.src2 (by simp) off hoff
      omega) _
  have hu : ∀ r ≠ .flags, r ≠ .sp → pregsAlias .cl r = false → u.read r = s.read r :=
    fun r hf hr hc => (hput.regs r hf hc).trans (hs₁ r hr)
  have husp : u.sp = s.sp - 2 := hput.sp.trans hs₁sp
  have haddr : ∀ off, u.slotAddr off = s.slotAddr off :=
    slotAddr_congr (hu .bp (by decide) (by decide) (by decide))
  have habove : Above 3 s u := by
    intro a ha
    rw [hput.above a (by rw [hs₁sp]; bv_omega), habove₁ a (by omega)]
  -- the value is not read from what the count overwrites; `CH` keeps what it has
  have hsrc : ∀ r, i.src1.home = .reg r → pregsAlias .cl r = false := by
    obtain ⟨hcx, hcl⟩ := h.occupied hcl hdst
    intro r hr
    rw [Source.assigned, hr] at hcx hcl
    revert hcx hcl
    cases r <;> simp [pregsAlias, Preg.aliasLo, Preg.aliasHi]
  have hvalue : i.value env.places u = i.value env.places s := by
    refine value_eq (value_congr (fun r hr => hu r (h.toTyped.reads hr).1 (h.toTyped.reads hr).2 ?_)
      habove fun off hoff => ?_)
    · rcases hr with hv | ⟨-, rfl⟩
      · exact hsrc r hv
      · decide
    · have hoff := hlow i.src1 (by simp) off hoff
      omega
  have hclear : ∀ v ∈ [i.dst, i.src1, i.src2], Clear u v := by
    intro v hv off hoff
    have hoff := hlow v hv off hoff
    rw [haddr, husp]
    bv_omega
  have hspare : i.dst.Spares .cl := fun q hq => by
    rw [pregsAlias_comm]
    exact pregsAlias_cl_of_cx (spares_cx hdst hq)
  obtain ⟨v, hshift, hwrote⟩ := @Typed.run_emitShift i env u h.toTyped (hclear _ (by simp))
    (hclear _ (by simp)) (.inr hspare)
  have hvsp : v.sp = s.sp - 2 := hwrote.sp.trans husp
  -- the destination's slot is above the word that `CX` had
  have houtside : i.dst.Outside u (s.sp - 2) ∧ i.dst.Outside u (s.sp - 2 + 1) := by
    refine ⟨fun off hoff => ?_, fun off hoff => ?_⟩ <;>
    · have hoff := hlow i.dst (by simp) off hoff
      rw [haddr]
      constructor <;> bv_omega
  obtain ⟨t, hpop, hback⟩ := @run_popBack env s v .cx rfl (by decide) hvsp fun a ha => by
    have hfar : (a - u.sp).toNat + 4 < 65536 := by
      rw [husp]
      rcases ha with rfl | rfl <;> bv_omega
    have hout : i.dst.Outside u a := by
      rcases ha with rfl | rfl
      · exact houtside.1
      · exact houtside.2
    rw [hwrote.above a hfar hout, hput.above a (by rw [hs₁sp, ← husp]; omega)]
  have hresult : (env.shift i.op i.dst.isByte (i.value env.places u) (u.read .cl)
      (u.reg .flags)).1 = i.result env s := by
    have hs₁flags : s₁.reg .flags = s.reg .flags := Cpu.push_reg s _ (by decide)
    rw [result, hvalue, hput.value, hcountVal, huflags, hs₁flags]
    rfl
  refine ⟨t, ?_, ?_, ?_, hback.sp⟩
  · rw [hroute, shiftRun_cons hpush, shiftRun_append hmove, shiftRun_append hshift,
      shiftRun_cons hpop]
    rfl
  · rw [hpops]
    rw [hresult] at hwrote
    refine hwrote.holds.congr (fun q hq => hback.kept q ?_ (spares_cx hdst hq)) fun off _ =>
      ⟨(haddr off).symm, by rw [hback.stack], by rw [hback.stack]⟩
    rintro rfl
    exact h.toTyped.notSp hq
  · intro r _ hf hspares
    by_cases hrsp : r = .sp
    · rw [hrsp]
      exact hback.sp
    cases hc : pregsAlias .cx r with
    | true => exact hback.back r hc
    | false =>
      rw [hback.kept r hrsp hc, hwrote.kept r hf hspares, hu r hf hrsp (pregsAlias_cl_of_cx hc)]

/-- The half or the whole of `AX` that the value goes through. -/
def accOf (q : Preg) : Preg := if q.isByte then .al else .ax

/-- What is done to a register of `CX`, with `AX` to spare. -/
def throughAcc (op : String) (q : Preg) (v : Source) : List ShiftInsn :=
  [.move (.mov (accOf q) q), .move (.push .cx), .move (v.movTo .cl), .shift op (accOf q),
    .move (.pop .cx), .move (.mov q (accOf q))]

/-- A half of `CX`, or the whole. -/
def InCx (q : Preg) : Prop := q = .cx ∨ q = .cl ∨ q = .ch

structure AccFits (q acc : Preg) : Prop where
  width : acc.isByte = q.isByte
  kind : acc.isByte = true ∨ acc.isWord = true
  canMov : acc.canMov q = true ∧ q.canMov acc = true
  notSp : acc ≠ .sp ∧ acc ≠ .flags
  apart : pregsAlias .cl acc = false ∧ pregsAlias .cx acc = false
  spares : pregsAlias acc .cx = false ∧ pregsAlias acc .bp = false ∧ pregsAlias acc .sp = false
  inAx : ∀ r, pregsAlias .ax r = false → pregsAlias acc r = false

theorem accOf_fits {q : Preg} (hq : InCx q) : AccFits q (accOf q) := by
  rcases hq with rfl | rfl | rfl <;>
  · refine ⟨by decide, by decide, by decide, by decide, by decide, by decide, fun r => ?_⟩
    cases r <;> decide

/-- The value is in `AX`, the count in `CL`, and the old `CX` on the stack. -/
structure AccLoaded (q : Preg) (count : Word) (s u : Cpu) : Prop where
  value : u.read (accOf q) = s.read q
  count : u.read .cl = count
  flags : u.reg .flags = s.reg .flags
  regs : ∀ r ≠ .sp, pregsAlias .ax r = false → pregsAlias .cl r = false → u.read r = s.read r
  sp : u.sp = s.sp - 2
  stack : u.stack = (s.push [s.reg .cx]).stack

theorem run_loadAcc {env : ShiftEnv} {s : Cpu} {q : Preg} {v : Source} (hq : InCx q)
    (hcan : v.CanMovTo .cl)
    (hv : ∀ r, v.home = .reg r → r ≠ .sp ∧ r ≠ .flags ∧ pregsAlias (accOf q) r = false)
    (hroom : ∀ off, v.home = .slot off → (s.slotAddr off - s.sp).toNat + 4 ≤ 65536) :
    ∃ u, shiftRun env [.move (.mov (accOf q) q), .move (.push .cx), .move (v.movTo .cl)] s =
        some u ∧ AccLoaded q (zeroExtend (low (v.value env.places s))) s u := by
  have hacc := accOf_fits hq
  let s₁ := s.put (accOf q) (s.read q)
  let s₂ := s₁.push [s.reg .cx]
  let u := s₂.put .cl (v.operand env.places true s₂)
  have hs₁ : ∀ r, pregsAlias (accOf q) r = false → s₁.read r = s.read r := fun r hr =>
    Cpu.read_put_of_ne s _ hr
  have hs₁sp : s₁.sp = s.sp := Cpu.put_sp s _ hacc.notSp.1
  have hs₂ : ∀ r ≠ .sp, s₂.read r = s₁.read r := fun r hr => Cpu.read_push s₁ _ hr
  have hs₂stack : s₂.stack = (s.push [s.reg .cx]).stack := by
    show write false s₁.stack (s₁.sp - 2) _ = write false s.stack (s.sp - 2) _
    rw [hs₁sp, Cpu.put_stack]
  have hu : ∀ r, pregsAlias .cl r = false → u.read r = s₂.read r := fun r hr =>
    Cpu.read_put_of_ne s₂ _ hr
  have hmov : shiftStep env (.move (.mov (accOf q) q)) s = some s₁ := if_pos hacc.canMov.1
  have hpush : shiftStep env (.move (.push .cx)) s₁ = some s₂ := by
    have hcx : s₁.reg .cx = s.reg .cx := hs₁ .cx hacc.spares.1
    show some (s₁.push [s₁.reg .cx]) = _
    rw [hcx]
  have hload : shiftStep env (.move (v.movTo .cl)) s₂ = some u :=
    @moveStep_movTo env.toMoveEnv _ _ hcan s₂
  refine ⟨u, ?_, ?_, ?_, ?_, ?_, ?_, ?_⟩
  · rw [shiftRun_cons hmov, shiftRun_cons hpush, shiftRun_cons hload]
    rfl
  · have hself : s₁.read (accOf q) = (accOf q).fit (s.read q) := Cpu.read_put_self s _ _
    rw [hu _ hacc.apart.1, hs₂ _ hacc.notSp.1, hself, Preg.fit, hacc.width]
    exact Cpu.fit_read s q
  · have hself : u.read .cl = zeroExtend (low (v.operand env.places true s₂)) :=
      Cpu.read_put_self s₂ _ _
    have hvalue : v.value env.places s₂ = v.value env.places s := by
      refine value_congr (n := 1) (fun r hr => ?_) (fun a ha => ?_) fun off hoff => ?_
      · rcases hr with hr | ⟨-, rfl⟩
        · exact (hs₂ r (hv r hr).1).trans (hs₁ r (hv r hr).2.2)
        · exact (hs₂ .bp (by decide)).trans (hs₁ .bp hacc.spares.2.1)
      · rw [hs₂stack]
        exact write_below (by omega)
      · have hoff := hroom off hoff
        omega
    rw [hself, low_operand, hvalue]
  · have h₁ : s₁.reg .flags = s.reg .flags := put_keeps_flags s _ hacc.notSp.2
    have h₂ : s₂.reg .flags = s₁.reg .flags := Cpu.push_reg s₁ _ (by decide)
    have h₃ : u.reg .flags = s₂.reg .flags := put_keeps_flags s₂ _ (by decide)
    rw [h₃, h₂, h₁]
  · intro r hr hax hcl
    rw [hu r hcl, hs₂ r hr, hs₁ r (hacc.inAx r hax)]
  · have hsp : u.sp = s₂.sp := Cpu.put_sp s₂ _ (by decide)
    rw [hsp, ← hs₁sp]
    exact Cpu.push_one_sp s₁ _
  · rw [← hs₂stack]
    exact Cpu.put_stack _ _ _

/-- The destination has the result, and `CX` what it had besides. -/
theorem run_throughAcc {env : ShiftEnv} {s : Cpu} {op : String} {q : Preg} {v : Source}
    (hq : InCx q) (hcan : v.CanMovTo .cl)
    (hv : ∀ r, v.home = .reg r → r ≠ .sp ∧ r ≠ .flags ∧ pregsAlias (accOf q) r = false)
    (hroom : ∀ off, v.home = .slot off → (s.slotAddr off - s.sp).toNat + 4 ≤ 65536) :
    ∃ t, shiftRun env (throughAcc op q v) s = some t ∧
      t.read q = q.fit (env.shift op q.isByte (s.read q)
        (zeroExtend (low (v.value env.places s))) (s.reg .flags)).1 ∧
      (∀ r ≠ .flags, pregsAlias .ax r = false → pregsAlias q r = false → t.read r = s.read r) ∧
      ∀ a, (a - s.sp).toNat + 2 < 65536 → t.stack a = s.stack a := by
  have hacc := accOf_fits hq
  obtain ⟨s₃, hrun, hloaded⟩ := @run_loadAcc env s q v hq hcan hv hroom
  let result := env.shift op q.isByte (s.read q) (zeroExtend (low (v.value env.places s)))
    (s.reg .flags)
  let s₄ := (s₃.put (accOf q) result.1).setReg .flags result.2
  have hshift : shiftStep env (.shift op (accOf q)) s₃ = some s₄ := by
    rw [shiftStep_shift hacc.kind, hloaded.value, hloaded.count, hloaded.flags, hacc.width]
  have hput : Put (accOf q) result.1 s₃ s₄ :=
    put_flags (put_put hacc.notSp.1 _ s₃) hacc.notSp.2 _
  have hs₄stack : s₄.stack = (s.push [s.reg .cx]).stack :=
    (Cpu.put_stack s₃ (accOf q) result.1).trans hloaded.stack
  obtain ⟨s₅, hpop, hback⟩ := @run_popBack env s s₄ .cx rfl (by decide)
    (hput.sp.trans hloaded.sp) fun a _ => by rw [hs₄stack]
  let t := s₅.put q (s₅.read (accOf q))
  have hmov : shiftStep env (.move (.mov q (accOf q))) s₅ = some t := if_pos hacc.canMov.2
  refine ⟨t, ?_, ?_, ?_, ?_⟩
  · have hrest : shiftRun env [.shift op (accOf q), .move (.pop .cx), .move (.mov q (accOf q))] s₃ =
        some t := by
      rw [shiftRun_cons hshift, shiftRun_cons hpop, shiftRun_cons hmov]
      rfl
    exact (shiftRun_append hrun).trans hrest
  · have hself : t.read q = q.fit (s₅.read (accOf q)) := Cpu.read_put_self _ _ _
    have hfit : (accOf q).fit result.1 = q.fit result.1 := by
      rw [Preg.fit, hacc.width]
      rfl
    rw [hself, hback.kept _ hacc.notSp.1 hacc.apart.2, hput.value, hfit, Preg.fit_fit]
  · intro r hf hax hqr
    have ht : t.read r = s₅.read r := Cpu.read_put_of_ne _ _ hqr
    rw [ht]
    by_cases hrsp : r = .sp
    · rw [hrsp]
      exact hback.sp
    cases hc : pregsAlias .cx r with
    | true => exact hback.back r hc
    | false =>
      rw [hback.kept r hrsp hc, hput.regs r hf (hacc.inAx r hax),
        hloaded.regs r hrsp hax (pregsAlias_cl_of_cx hc)]
  · intro a ha
    have ht : t.stack = s₅.stack := Cpu.put_stack _ _ _
    rw [ht, hback.stack, hs₄stack]
    exact write_below ha

/-- So it is when `AX` is saved around it, and then `AX` is as before too. -/
theorem run_throughAcc_saved {env : ShiftEnv} {s : Cpu} {op : String} {q : Preg} {v : Source}
    (hq : InCx q) (hcan : v.CanMovTo .cl)
    (hv : ∀ r, v.home = .reg r → r ≠ .sp ∧ r ≠ .flags ∧ pregsAlias (accOf q) r = false)
    (hroom : ∀ off, v.home = .slot off → (s.slotAddr off - s.sp).toNat + 6 ≤ 65536) :
    ∃ t, shiftRun env (.move (.push .ax) :: (throughAcc op q v ++ [.move (.pop .ax)])) s = some t ∧
      t.read q = q.fit (env.shift op q.isByte (s.read q)
        (zeroExtend (low (v.value env.places s))) (s.reg .flags)).1 ∧
      ∀ r ≠ .flags, pregsAlias q r = false → t.read r = s.read r := by
  have hqAx : pregsAlias .ax q = false ∧ q ≠ .sp ∧ pregsAlias q .sp = false := by
    rcases hq with rfl | rfl | rfl <;> decide
  let s₁ := s.push [s.reg .ax]
  have hpush : shiftStep env (.move (.push .ax)) s = some s₁ := rfl
  have hs₁ : ∀ r ≠ .sp, s₁.read r = s.read r := fun r hr => Cpu.read_push s _ hr
  have hs₁sp : s₁.sp = s.sp - 2 := Cpu.push_one_sp s _
  have hvalue : v.value env.places s₁ = v.value env.places s :=
    value_push (fun hv' => (hv _ hv').1 rfl) (fun off hoff => by
      have hoff := hroom off hoff
      omega) _
  obtain ⟨u, hrun, hread, hregs, hstack⟩ :=
    @run_throughAcc env s₁ op q v hq hcan hv fun off hoff => by
      have hoff := hroom off hoff
      rw [slotAddr_push, hs₁sp]
      bv_omega
  have husp : u.sp = s.sp - 2 :=
    (hregs .sp (by decide) (by decide) hqAx.2.2 : u.read .sp = s₁.read .sp).trans hs₁sp
  obtain ⟨t, hpop, hback⟩ := @run_popBack env s u .ax rfl (by decide) husp fun a ha => by
    refine hstack a ?_
    rw [hs₁sp]
    rcases ha with rfl | rfl <;> bv_omega
  have hflags : s₁.reg .flags = s.reg .flags := Cpu.push_reg s _ (by decide)
  rw [hs₁ q hqAx.2.1, hvalue, hflags] at hread
  refine ⟨t, ?_, (hback.kept q hqAx.2.1 hqAx.1).trans hread, fun r hf hqr => ?_⟩
  · have hrest : shiftRun env (throughAcc op q v ++ [.move (.pop .ax)]) s₁ = some t := by
      rw [shiftRun_append hrun, shiftRun_cons hpop]
      rfl
    exact (shiftRun_cons hpush).trans hrest
  · by_cases hrsp : r = .sp
    · rw [hrsp]
      exact hback.sp
    cases hax : pregsAlias .ax r with
    | true => exact hback.back r hax
    | false => rw [hback.kept r hrsp hax, hregs r hf hax hqr, hs₁ r hrsp]

theorem home_of_dstIsCx (h : i.Typed) (hdst : i.dstIsCx = true) :
    ∃ q, i.dst.home = .reg q ∧ InCx q ∧ q.isByte = i.dst.isByte := by
  have hkind := h.dst
  unfold dstIsCx Source.assigned at hdst
  cases hd : i.dst.home with
  | reg q =>
    rw [hd] at hdst hkind
    exact ⟨q, rfl, by simpa [InCx, or_assoc] using hdst, hkind.1⟩
  | slot off =>
    rw [hd] at hdst
    cases hdst
  | remat c =>
    rw [hd] at hdst
    cases hdst

/-- The count of a shift that goes through `AX`. -/
theorem Sound.count_kind (h : i.Sound) (hcl : i.src2.assigned ≠ some .cl)
    (hdst : i.dstIsCx = true) {q : Preg} (hq : q.isByte = i.dst.isByte) :
    i.src2.CanMovTo .cl ∧ i.loadCount = .move (i.src2.movTo .cl) ∧
      ∀ r, i.src2.home = .reg r → r ≠ .sp ∧ r ≠ .flags ∧ pregsAlias (accOf q) r = false := by
  unfold Source.CanMovTo loadCount
  rcases (h.dstCx hcl hdst).2 with ⟨off, hv⟩ | ⟨r, hv, hbyte, halias⟩
  · rw [hv]
    exact ⟨rfl, rfl, fun r hr => by cases hr⟩
  · rw [hv]
    refine ⟨?_, rfl, fun r' hr => ?_⟩
    · have hclByte : Preg.cl.isByte = true := rfl
      simp [Preg.canMov, hbyte, hclByte]
    · obtain rfl := Home.reg.inj hr
      refine ⟨?_, ?_, by rw [accOf, hq]; exact halias⟩
      · rintro rfl
        cases hbyte
      · rintro rfl
        cases hbyte

/-- The destination is in `CX`: the shift goes through `AX`. -/
theorem Sound.routed_dstCx (h : i.Sound) (hcl : i.src2.assigned ≠ some .cl)
    (hdst : i.dstIsCx = true) : i.Routed := by
  intro env s hroom
  obtain ⟨hpops, -⟩ := h.uncached hcl (.inr hdst)
  obtain ⟨q, hq, hkind, hbyte⟩ := home_of_dstIsCx h.toTyped hdst
  obtain ⟨hcan, hload, hcount⟩ := h.count_kind hcl hdst hbyte
  have hsame := (h.dstCx hcl hdst).1
  have hroute : i.routeShift = (if i.isFree .ax then [] else [.move (.push .ax)]) ++
      (throughAcc i.op q i.src2 ++ if i.isFree .ax then [] else [.move (.pop .ax)]) := by
    have hacc : (if i.dst.isByte then Preg.al else .ax) = accOf q := by rw [accOf, hbyte]
    have hto : i.dst.movTo (accOf q) = .mov (accOf q) q := by
      unfold Source.movTo
      rw [hq]
    have hfrom : i.dst.movFrom (accOf q) = .move (.mov q (accOf q)) := by
      unfold Source.movFrom
      rw [hq]
    rw [routeShift, if_neg hcl, hdst]
    simp [throughAcc, hacc, hload, hto, hfrom]
  rw [hpops] at hroom
  have hlow : ∀ off, i.src2.home = .slot off → (s.slotAddr off - s.sp).toNat + 12 ≤ 65536 :=
    fun off hoff => hroom.2 i.src2 (by simp) off hoff
  have hvalue : i.value env.places s = s.read q := by
    have hwrote := h.toTyped.wrote_refl hsame.symm env.places s
    have hholds := hwrote.holds
    unfold Source.Has at hholds
    rw [hq] at hholds
    exact (hholds.trans (fit_value_self hbyte _ _)).symm
  have hresult : (env.shift i.op q.isByte (s.read q)
      (zeroExtend (low (i.src2.value env.places s))) (s.reg .flags)).1 = i.result env s := by
    rw [result, hvalue, hbyte]
  have hqsp : pregsAlias q .sp = false := by
    rcases hkind with rfl | rfl | rfl <;> decide
  have hholds : ∀ t : Cpu, t.read q = q.fit (i.result env s) →
      i.dst.Has (i.result env (s.popAll i.cachePops)) (s.popAll i.cachePops) t := by
    intro t ht
    rw [hpops]
    unfold Source.Has
    rw [hq]
    exact ht
  cases hfree : i.isFree .ax with
  | true =>
    rw [hfree] at hroute
    obtain ⟨t, hrun, hread, hregs, -⟩ := @run_throughAcc env s i.op q i.src2 hkind hcan hcount
      fun off hoff => by have := hlow off hoff; omega
    have hlive : ∀ r ∈ i.liveAfter, pregsAlias .ax r = false := by
      intro r hr
      rw [isFree, Bool.not_eq_true', List.any_eq_false] at hfree
      exact Bool.eq_false_of_not_eq_true (hfree r (by simp [hr]))
    refine ⟨t, by rw [hroute]; simpa using hrun, hholds t (hresult ▸ hread),
      fun r hr hf hspare => hregs r hf (hlive r hr) (hspare q hq),
      hregs .sp (by decide) (by decide) hqsp⟩
  | false =>
    rw [hfree] at hroute
    obtain ⟨t, hrun, hread, hregs⟩ := @run_throughAcc_saved env s i.op q i.src2 hkind hcan hcount
      fun off hoff => by have := hlow off hoff; omega
    refine ⟨t, by rw [hroute]; simpa using hrun, hholds t (hresult ▸ hread),
      fun r _ hf hspare => hregs r hf (hspare q hq), hregs .sp (by decide) hqsp⟩

end VarShift

/-! ## Sound shifts -/

/-- `AX = DX << BL` while `CX` is in use. -/
def shiftBesideCx : VarShift :=
  { op := "shl", dst := { home := .reg .ax }, src1 := { home := .reg .dx },
    src2 := { isByte := true, home := .reg .bl }, liveAfter := [.cx] }

theorem shiftBesideCx_sound : shiftBesideCx.Sound where
  dst := ⟨rfl, .inr rfl, by decide⟩
  same := nofun
  arrives := fun _ => ⟨rfl, ⟨by decide, by decide⟩, trivial⟩
  carry := by
    rintro (h | h) <;> exact absurd h (by decide)
  balanced := rfl
  pops := nofun
  pushes := nofun
  routed := fun _ h => absurd rfl h
  inCl := nofun
  count := fun _ _ => ⟨rfl, ⟨by decide, by decide⟩, .inl rfl⟩
  occupied := fun _ _ => ⟨by decide, by decide⟩
  dstCx := fun _ h => absurd h (by decide)

/-- `AX = CX << BL`: the count gets to `CL` before the value leaves `CX`. -/
def shiftFromCx : VarShift :=
  { op := "shl", dst := { home := .reg .ax }, src1 := { home := .reg .cx },
    src2 := { isByte := true, home := .reg .bl } }

end Nib.Bind
