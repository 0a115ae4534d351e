import Nib.Bind.Spec.Extend
import Nib.Bind.Properties.ShiftMoves

/-!
# Moves and extensions

* `moveSound_done` — the value arrives, as its width wants it
* `extension_carried` — moves, zero extensions and sign extensions
-/

namespace Nib.Bind

open Nib.Infra

variable {i : Extension} {env : ExtEnv} {s t : Cpu} {w w' : Word} {q r : Preg} {off : Int}

/-! ## Runs -/

theorem extRun_runs (env : ExtEnv) : RunsBy (extStep env) (extRun env) :=
  ⟨fun _ => rfl, fun _ _ _ => rfl⟩

theorem extRun_cons {j : ExtInsn} {is : List ExtInsn} (h : extStep env j s = some t) :
    extRun env (j :: is) s = extRun env is t :=
  (extRun_runs env).head h

theorem extRun_append {is js : List ExtInsn} (h : extRun env is s = some t) :
    extRun env (is ++ js) s = extRun env js t :=
  (extRun_runs env).append h

theorem extRun_base (is : List ShiftInsn) (s : Cpu) :
    extRun env (is.map .base) s = shiftRun env.toShiftEnv is s :=
  congrFun ((extRun_runs env).map (shiftRun_runs env.toShiftEnv) (fun _ => rfl) is) s

/-! ## Registers -/

theorem Preg.kinds (h : r ≠ .flags) :
    r.isByte = true ∨ r.isWord = true ∨ r.isSegment = true := by
  revert h
  cases r <;> decide

theorem Preg.not_byte_of_segment (h : r.isSegment = true) : r.isByte = false := by
  revert h
  cases r <;> decide

theorem Cpu.read_lo (s : Cpu) {lo : Preg} (h : r.aliasLo = some lo) :
    lo.isByte = true ∧ s.read lo = zeroExtend (low (s.reg r)) := by
  revert h
  cases r <;> rintro ⟨⟩ <;> exact ⟨rfl, rfl⟩

/-! ## What is left of it -/

namespace Extension

theorem Room.clear_dst (h : i.Room s) : Clear s i.dst.toSource := fun off hd => h off (.inl hd)

theorem Room.clear_src (h : i.Room s) : Clear s i.src.toSource := fun off hv =>
  h off (.inr (.inl hv))

theorem Room.far (h : i.Room s) (hoff : off ∈ i.liveBytes) :
    (s.slotAddr off - s.sp).toNat + 4 < 65536 := by
  have hroom := h off (.inr (.inr hoff))
  omega

theorem done_of_put (hroom : i.Room s) (hd : i.dst.home = .reg q) (h : Put q w s t)
    (hw : if i.dst.isByte = true then low w = low (i.op.result (i.src.value env.places s))
      else q.fit w = q.fit (i.op.result (i.src.value env.places s))) : i.Done env s t where
  holds := by
    unfold Source.Holds
    rw [hd]
    by_cases hb : i.dst.isByte = true
    · simp only [if_pos hb] at hw ⊢
      rw [h.value, Preg.low_fit, hw]
    · simp only [if_neg hb] at hw ⊢
      rw [h.value, hw]
  kept := fun r _ hf hr => h.regs r hf (hr q hd)
  bytes := fun off hoff _ => h.above _ (hroom.far hoff)
  sp := h.sp

theorem done_of_wrote (hroom : i.Room s) (hd : i.dst.home = .slot off)
    (h : Wrote i.dst.toSource (i.op.result (i.src.value env.places s)) s t) : i.Done env s t where
  holds := by
    have hholds := h.holds
    unfold Source.Holds
    rw [hd]
    exact hholds
  kept := fun r _ hf hr => h.kept r hf hr
  bytes := fun _ hoff hout => h.above _ (hroom.far hoff) hout
  sp := h.sp

/-- A register of the width of the destination has the value whole. -/
theorem fits_of_eq (h : q.fit w = q.fit w') : if i.dst.isByte = true then low w = low w'
    else q.fit w = q.fit w' := by
  split_ifs with hb
  · cases hq : q.isByte with
    | true =>
      rw [Preg.fit_of_byte hq, Preg.fit_of_byte hq] at h
      have hlow := congrArg low h
      simpa [zeroExtend] using hlow
    | false => rw [Preg.fit_of_not_byte hq, Preg.fit_of_not_byte hq] at h; rw [h]
  · exact h

end Extension

/-! ## The instructions of a move -/

namespace Operand

variable {d v : Operand}

/-- Neither the same storage nor two slots nor two segments. -/
theorem emitMov_eq (hconst : ∀ c, d.home ≠ .remat c) (hne : d.home ≠ v.home)
    (hslots : d.isSpilled = false ∨ v.isSpilled = false)
    (hsegs : d.isSeg = false ∨ v.isSeg = false) :
    d.emitMov v = Bind.emitMov d.toSource v.toSource := by
  unfold emitMov
  have hs : ¬(d.isSpilled && v.isSpilled) = true := by
    rcases hslots with h | h <;> simp [h]
  have hg : ¬(d.isSeg && v.isSeg) = true := by
    rcases hsegs with h | h <;> simp [h]
  cases hd : d.home with
  | remat c => exact absurd hd (hconst c)
  | reg q =>
    rw [hd] at hne
    simp only [if_neg hne, if_neg hs, if_neg hg]
  | slot off =>
    rw [hd] at hne
    simp only [if_neg hne, if_neg hs, if_neg hg]

theorem emitMov_slots {off' : Int} (hd : d.home = .slot off) (hv : v.home = .slot off')
    (hne : d.home ≠ v.home) :
    d.emitMov v = if d.isByte || v.isByte then
      [.move (.push .ax), .move (v.movTo .al), d.movFrom .al, .move (.pop .ax)]
    else [.move v.pushed, d.popTo] := by
  have hnone : d.assigned = none ∧ v.assigned = none := by simp [Source.assigned, hd, hv]
  have hspill : d.isSpilled = true ∧ v.isSpilled = true := by simp [Source.isSpilled, hd, hv]
  have hoff : ¬off = off' := fun h => hne (by rw [hd, hv, h])
  simp [emitMov, Bind.emitMov, hd, hv, hoff, hspill, Source.isByteOperand, hnone]

variable {d v : Source}

/-- From a slot or a register, or a constant, as it is. -/
theorem emitMov_plain (hd : d.home = .reg q) (hne : d.home ≠ v.home)
    (h : if d.isByteOperand = true then ∀ r, v.home = .reg r → r.isWord = false
      else v.isByteOperand = false) : Bind.emitMov d v = [.move (v.movTo q)] := by
  have hassigned : d.assigned = some q := by simp [Source.assigned, hd]
  have hspill : d.isSpilled = false := by simp [Source.isSpilled, hd]
  have hplain : d.movPlain v = .move (v.movTo q) := by simp [Source.movPlain, hd]
  rw [hd] at hne
  unfold Bind.emitMov
  rw [hd, hspill, hassigned, hplain]
  cases hb : d.isByteOperand with
  | true =>
    rw [if_pos hb] at h
    cases hv : v.home with
    | reg r =>
      have hr := h r hv
      rw [hv] at hne
      simp [hne, Source.assigned, hv, hr, Option.filter]
    | slot off => simp [Source.assigned, hv, Option.filter]
    | remat c => simp [Source.assigned, hv, Option.filter]
  | false =>
    rw [if_neg (by rw [hb]; decide)] at h
    cases v.assigned <;> simp [hne, h, Option.filter]

/-- The low byte of a word register. -/
theorem emitMov_narrow (hd : d.home = .reg q) (hv : v.home = .reg r) (hne : d.home ≠ v.home)
    (hb : d.isByteOperand = true) (hr : r.isWord = true) :
    Bind.emitMov d v = match r.aliasLo with
      | some lo => if q = lo then [] else [.move (.mov q lo)]
      | none => if q = .al then [.move (.mov .ax r)]
        else [.xchg r, .move (.mov q .al), .xchg r] := by
  have hassigned : d.assigned = some q ∧ v.assigned = some r := by simp [Source.assigned, hd, hv]
  have hspill : d.isSpilled = false := by simp [Source.isSpilled, hd]
  have hqr : ¬q = r := fun h => hne (by rw [hd, hv, h])
  cases hlo : r.aliasLo <;>
    simp [Bind.emitMov, hd, hv, hspill, hassigned, hb, hr, hqr, hlo, Option.filter,
      Source.movFrom]

/-- A byte into the low half of a word register. -/
theorem emitMov_half {lo : Preg} (hd : d.home = .reg q) (hne : d.home ≠ v.home)
    (hb : d.isByteOperand = false) (hvb : v.isByteOperand = true) (hlo : q.aliasLo = some lo) :
    Bind.emitMov d v = [.move (v.movTo lo)] := by
  have hassigned : d.assigned = some q := by simp [Source.assigned, hd]
  have hspill : d.isSpilled = false := by simp [Source.isSpilled, hd]
  rw [hd] at hne
  cases hv : v.assigned <;>
    simp [Bind.emitMov, hd, hne, hspill, hassigned, hv, hb, hvb, hlo, Option.filter]

/-- A byte into a word register without halves, or a segment register. -/
theorem emitMov_widen (hd : d.home = .reg q) (hne : d.home ≠ v.home)
    (hb : d.isByteOperand = false) (hvb : v.isByteOperand = true) (hlo : q.aliasLo = none) :
    Bind.emitMov d v = match v.assigned.bind Preg.aliasParent with
      | some parent =>
        [.move (.mov q parent),
          .move (if v.assigned = parent.aliasLo then .andByte q else .shrByte q)]
      | none => [.move (.push .ax), .move .xorAx, .move (v.movTo .al), .move (.mov q .ax),
          .move (.pop .ax)] := by
  have hassigned : d.assigned = some q := by simp [Source.assigned, hd]
  have hspill : d.isSpilled = false := by simp [Source.isSpilled, hd]
  rw [hd] at hne
  cases hv : v.assigned with
  | none => simp [Bind.emitMov, hd, hne, hspill, hassigned, hv, hb, hvb, hlo, Option.filter]
  | some r =>
    cases hp : r.aliasParent <;>
      simp [Bind.emitMov, hd, hne, hspill, hassigned, hv, hb, hvb, hlo, hp, Option.filter]

end Operand

/-! ## Moves -/

namespace Extension

/-- The move comes to this. -/
def Moves (i : Extension) (env : ExtEnv) (s : Cpu) : Prop :=
  ∃ t, shiftRun env.toShiftEnv (i.dst.emitMov i.src) s = some t ∧ i.Done env s t

/-- The value goes into a register. -/
theorem moves_of_put {is : List ShiftInsn} (hop : i.op = .mov) (hroom : i.Room s)
    (hd : i.dst.home = .reg q) (hemit : i.dst.emitMov i.src = is)
    (h : ∃ t, shiftRun env.toShiftEnv is s = some t ∧ Put q w s t)
    (hw : if i.dst.isByte = true then low w = low (i.src.value env.places s)
      else q.fit w = q.fit (i.src.value env.places s)) : i.Moves env s := by
  obtain ⟨t, hrun, hput⟩ := h
  refine ⟨t, by rw [hemit]; exact hrun, done_of_put hroom hd hput ?_⟩
  rw [hop]
  exact hw

theorem moves_of_wrote {is : List ShiftInsn} (hop : i.op = .mov) (hroom : i.Room s)
    (hd : i.dst.home = .slot off) (hemit : i.dst.emitMov i.src = is)
    (h : ∃ t, shiftRun env.toShiftEnv is s = some t ∧
      Wrote i.dst.toSource (i.src.value env.places s) s t) : i.Moves env s := by
  obtain ⟨t, hrun, hwrote⟩ := h
  refine ⟨t, by rw [hemit]; exact hrun, done_of_wrote hroom hd ?_⟩
  rw [hop]
  exact hwrote

theorem moves_same (hop : i.op = .mov) (hsame : i.dst.home = i.src.home)
    (h : i.dst.isByteOperand = true ∨ i.src.isByte = false) : i.Moves env s := by
  have hemit : i.dst.emitMov i.src = [] := by
    unfold Operand.emitMov
    cases hd : i.dst.home with
    | remat c => rfl
    | reg q => simp [← hsame, hd]
    | slot off => simp [← hsame, hd]
  refine ⟨s, by rw [hemit]; rfl, ⟨?_, fun _ _ _ _ => rfl, fun _ _ _ => rfl, rfl⟩⟩
  rw [hop]
  show i.dst.Holds (i.src.value env.places s) s s
  unfold Source.Holds Source.Has Source.value
  rw [← hsame]
  cases hd : i.dst.home with
  | remat c => exact absurd hd (i.stored c)
  | reg q =>
    have hoperand : i.dst.isByteOperand = (i.dst.isByte || q.isByte) := by
      simp [Source.isByteOperand, Source.assigned, hd]
    rw [hoperand] at h
    cases hb : i.dst.isByte with
    | true => cases i.src.isByte <;> simp [zeroExtend]
    | false =>
      rw [hb, Bool.false_or] at h
      rcases h with hq | hv
      · cases i.src.isByte with
        | false => simp
        | true =>
          have hread := (Preg.fit_of_byte hq (s.read q)).symm.trans (Cpu.fit_read s q)
          simpa [Preg.fit_of_byte hq, zeroExtend] using hread.symm
      · simp [hv]
  | slot off =>
    have hoperand : i.dst.isByteOperand = i.dst.isByte := by
      simp [Source.isByteOperand, Source.assigned, hd]
    rw [hoperand] at h
    cases hb : i.dst.isByte with
    | true => simp [low_readSlot]
    | false =>
      have hv : i.src.isByte = false := h.resolve_left (by simp [hb])
      simp [hv, Cpu.readSlot]

theorem low_value_reg (hv : i.src.home = .reg r) (pl : Addresses) (s : Cpu) :
    low (i.src.value pl s) = low (s.read r) := by
  unfold Source.value
  rw [hv]
  cases i.src.isByte <;> simp [zeroExtend]

theorem value_reg (hv : i.src.home = .reg r) (hb : i.src.isByte = false ∨ r.isByte = true)
    (pl : Addresses) (s : Cpu) : i.src.value pl s = s.read r := by
  unfold Source.value
  rw [hv]
  cases hsrc : i.src.isByte with
  | false => rfl
  | true =>
    have hr := hb.resolve_left (by simp [hsrc])
    exact (Preg.fit_of_byte hr _).symm.trans (Cpu.fit_read s r)

/-! ### Into a slot -/

/-- A word or a byte has been stored, and nothing else is changed. -/
structure Stored (off : Int) (byte : Bool) (w : Word) (s t : Cpu) : Prop where
  regs : ∀ r ≠ .flags, t.read r = s.read r
  stack : ∀ a, (a - s.sp).toNat + 4 < 65536 → t.stack a = write byte s.stack (s.slotAddr off) w a

theorem wrote_of_stored {d : Source} (hd : d.home = .slot off) (hclear : Clear s d)
    (h : Stored off d.isByte w s t) : Wrote d w s t where
  holds := by
    have hoff := hclear off hd
    unfold Source.Has
    rw [hd]
    have h0 := h.stack (s.slotAddr off) (by omega)
    have h1 := h.stack (s.slotAddr off + 1) (by bv_omega)
    cases hb : d.isByte with
    | true =>
      rw [hb] at h0
      exact h0.trans (write_self _ _ _ _)
    | false =>
      rw [hb] at h0 h1
      simp only [Bool.false_eq_true, if_false]
      rw [readWord, h0, h1]
      exact readWord_write_self _ _ _
  kept := fun r hr _ => h.regs r hr
  sp := h.regs .sp (by decide)
  above := fun a ha hout => by
    obtain ⟨h0, h1⟩ := hout off hd
    rw [h.stack a ha, write_of_notMem _ s.stack w]
    rintro (rfl | ⟨hword, rfl⟩)
    · exact h0 rfl
    · exact h1 hword rfl

/-- A word that is stored over a byte and the byte after it, which is not needed. -/
theorem done_over (hroom : i.Room s) (hd : i.dst.home = .slot off)
    (hb : i.dst.isByte = true) (hfree : NextFree i.liveBytes off)
    (hlow : low w = low (i.op.result (i.src.value env.places s)))
    (h : Stored off false w s t) : i.Done env s t where
  holds := by
    have hoff := hroom off (.inl hd)
    unfold Source.Holds Source.Has
    rw [hd]
    simp only [if_pos hb]
    rw [h.stack _ (by omega), ← hlow]
    simp [write]
  kept := fun r _ hf _ => h.regs r hf
  bytes := fun k hk hout => by
    obtain ⟨hne, -⟩ := hout off hd
    have hnext : s.slotAddr k ≠ s.slotAddr off + 1 := by
      intro heq
      refine hfree k hk ?_
      rw [← slotAddr_next] at heq
      unfold Cpu.slotAddr at heq
      generalize BitVec.ofInt 16 k = x at *
      generalize BitVec.ofInt 16 (off + 1) = y at *
      bv_omega
    rw [h.stack _ (hroom.far hk), write_of_notMem _ s.stack w]
    rintro (h | ⟨-, h⟩)
    · exact hne h
    · exact hnext h
  sp := h.regs .sp (by decide)

theorem stored_movFrom {d : Source} {x : Preg} (hd : d.home = .slot off)
    (hx : x.isByte = true ∨ x.isWord = true ∨ x.isSegment = true) :
    shiftStep env.toShiftEnv (d.movFrom x) s =
      some { s with stack := write x.isByte s.stack (s.slotAddr off) (s.read x) } := by
  have hmov : d.movFrom x = .move (.store off x) := by
    unfold Source.movFrom
    rw [hd]
  rw [hmov]
  refine if_pos ?_
  rcases hx with h | h | h <;> simp [h]

theorem stored_direct {d : Source} {x : Preg} (hd : d.home = .slot off)
    (hx : x.isByte = true ∨ x.isWord = true ∨ x.isSegment = true) :
    ∃ t, shiftRun env.toShiftEnv [d.movFrom x] s = some t ∧
      Stored off x.isByte (s.read x) s t :=
  ⟨_, (shiftRun_cons (stored_movFrom hd hx)).trans rfl, fun _ _ => rfl, fun _ _ => rfl⟩

/-- `AX` has been saved, is stored and comes back. -/
theorem stored_around {u : Cpu} {x : Preg} (hclear : (s.slotAddr off - s.sp).toNat + 6 ≤ 65536)
    (hregs : ∀ r ≠ .flags, pregsAlias .ax r = false → u.read r = (s.push [s.reg .ax]).read r)
    (hstack : u.stack = (s.push [s.reg .ax]).stack) :
    ∃ t, shiftStep env.toShiftEnv (.move (.pop .ax))
        { u with stack := write x.isByte u.stack (u.slotAddr off) (u.read x) } = some t ∧
      Stored off x.isByte (u.read x) s t := by
  have hsp : u.sp = s.sp - 2 := by
    rw [sp_eq_read, hregs .sp (by decide) (by decide), ← sp_eq_read, Cpu.push_one_sp]
  have haddr : u.slotAddr off = s.slotAddr off := by
    refine slotAddr_congr ?_ off
    have hbp := hregs .bp (by decide) (by decide)
    rw [Cpu.read_push _ _ (by decide)] at hbp
    exact hbp
  let v : Cpu := { u with stack := write x.isByte u.stack (u.slotAddr off) (u.read x) }
  have hpeek : v.peek 0 = s.reg .ax := by
    have hkeep : ∀ a, a = s.sp - 2 ∨ a = s.sp - 2 + 1 →
        v.stack a = write false s.stack (s.sp - 2) (s.reg .ax) a := by
      intro a ha
      refine (write_of_notMem ?_ _ _).trans (congrFun hstack a)
      rw [haddr]
      rintro (h | ⟨-, h⟩) <;> rcases ha with rfl | rfl <;> bv_omega
    have hv : v.sp = s.sp - 2 := hsp
    rw [Cpu.peek, hv, Nat.mul_zero, BitVec.add_zero, readWord, hkeep _ (.inl rfl),
      hkeep _ (.inr rfl)]
    exact readWord_write_self _ _ _
  refine ⟨(v.drop 1).setReg .ax (s.reg .ax), ?_, fun r hf => ?_, fun a ha => ?_⟩
  · show some ((v.drop 1).setReg .ax (v.peek 0)) = _
    rw [hpeek]
  · cases halias : pregsAlias .ax r with
    | true => exact Cpu.read_setReg_back s _ rfl halias
    | false =>
      have hput : (v.drop 1).setReg .ax (s.reg .ax) = (v.drop 1).put .ax (s.reg .ax) := rfl
      rw [hput, Cpu.read_put_of_ne _ _ halias]
      by_cases hrsp : r = .sp
      · subst hrsp
        rw [← sp_eq_read, Cpu.drop_sp, ← sp_eq_read]
        show u.sp + _ = _
        rw [hsp]
        bv_omega
      · rw [Cpu.read_drop _ _ hrsp]
        exact (hregs r hf halias).trans (Cpu.read_push _ _ hrsp)
  · show write x.isByte u.stack (u.slotAddr off) (u.read x) a = _
    rw [haddr, hstack]
    unfold write
    have hbelow : (s.push [s.reg .ax]).stack a = s.stack a := write_below (by omega)
    simp only [hbelow]

/-- From anywhere through a half of `AX`, or the whole of it. -/
theorem stored_viaAx {d v : Source} {x : Preg} (hd : d.home = .slot off)
    (hx : x = .al ∨ x = .ax) (hcan : v.CanMovTo x) (hsp : v.home ≠ .reg .sp) (hclear : Clear s d)
    (hclear' : Clear s v) :
    ∃ t, shiftRun env.toShiftEnv
        [.move (.push .ax), .move (v.movTo x), d.movFrom x, .move (.pop .ax)] s = some t ∧
      Stored off x.isByte (x.fit (v.operand env.places x.isByte s)) s t := by
  have hkind : x.isByte = true ∨ x.isWord = true ∨ x.isSegment = true := by
    rcases hx with rfl | rfl <;> decide
  have haliases : ∀ r, pregsAlias .ax r = false → pregsAlias x r = false := by
    intro r hr
    rcases hx with rfl | rfl
    · revert hr
      cases r <;> decide
    · exact hr
  let s₁ := s.push [s.reg .ax]
  let u := s₁.put x (v.operand env.places x.isByte s)
  have hload : shiftStep env.toShiftEnv (.move (v.movTo x)) s₁ = some u := by
    have hstep := @moveStep_movTo env.toMoveEnv _ _ hcan s₁
    have hoperand : v.operand env.places x.isByte s₁ = v.operand env.places x.isByte s :=
      operand_push _ hsp hclear' _
    rw [shiftStep, hstep]
    exact congrArg (fun w => some (s₁.put x w)) hoperand
  have hread : u.read x = x.fit (v.operand env.places x.isByte s) := Cpu.read_put_self _ _ _
  obtain ⟨t, hpop, ht⟩ := @stored_around env s off u x (hclear off hd)
    (fun r _ hr => Cpu.read_put_of_ne _ _ (haliases r hr)) (Cpu.put_stack _ _ _)
  rw [hread] at ht
  refine ⟨t, ?_, ht⟩
  have hpush : shiftStep env.toShiftEnv (.move (.push .ax)) s = some s₁ := rfl
  rw [shiftRun_cons hpush, shiftRun_cons hload, shiftRun_cons (stored_movFrom hd hkind),
    shiftRun_cons hpop]
  rfl

theorem moves_slots {off' : Int} (hop : i.op = .mov) (hroom : i.Room s)
    (hd : i.dst.home = .slot off)
    (hv : i.src.home = .slot off') (hne : i.dst.home ≠ i.src.home)
    (h : i.dst.isByte = true ∨ i.src.isByte = false) : i.Moves env s := by
  have hemit := Operand.emitMov_slots hd hv hne
  cases hb : i.dst.isByte with
  | true =>
    rw [hb, Bool.true_or, if_pos rfl] at hemit
    obtain ⟨t, hrun, hwrote, -⟩ := @run_movByteSlots env.toShiftEnv _ _ s _ _ hd hv hb
      hroom.clear_dst hroom.clear_src
    exact moves_of_wrote hop hroom hd hemit ⟨t, hrun, hwrote⟩
  | false =>
    have hword := h.resolve_left (by simp [hb])
    rw [hb, hword] at hemit
    obtain ⟨t, hrun, hwrote, -⟩ := @run_movWordSlots env.toShiftEnv _ _ s _ _ hd hv hb hword
    exact moves_of_wrote hop hroom hd hemit ⟨t, hrun, hwrote⟩

theorem moves_slotConst {c : Recipe} (hop : i.op = .mov) (hroom : i.Room s)
    (hd : i.dst.home = .slot off) (hv : i.src.home = .remat c) (hb : i.dst.isByte = true) :
    i.Moves env s := by
  have hne : i.dst.home ≠ i.src.home := by
    rw [hd, hv]
    exact nofun
  have hemit : i.dst.emitMov i.src = [.storeConst off c] := by
    rw [Operand.emitMov_eq i.stored hne (.inr (by simp [Source.isSpilled, hv]))
      (.inr (i.src.remat c hv))]
    simp [Bind.emitMov, hd, hv, Source.isSpilled, Source.assigned, Source.movPlain]
  refine moves_of_wrote hop hroom hd hemit ⟨_, rfl, ?_⟩
  refine wrote_slot hd ?_ (fun _ _ => rfl) (fun _ _ => rfl)
  rw [hb]
  refine write_byte_congr ?_
  unfold Source.value
  rw [hv]
  cases i.src.isByte <;> simp [zeroExtend]

/-- A register that the width of the slot goes with is stored. -/
theorem moves_slotDirect {x : Preg} (hop : i.op = .mov) (hroom : i.Room s)
    (hd : i.dst.home = .slot off) (hemit : i.dst.emitMov i.src = [i.dst.movFrom x])
    (hx : x.isByte = true ∨ x.isWord = true ∨ x.isSegment = true) (hwidth : x.isByte = i.dst.isByte)
    (hw : if i.dst.isByte = true then low (s.read x) = low (i.src.value env.places s)
      else s.read x = i.src.value env.places s) : i.Moves env s := by
  obtain ⟨t, hrun, hstored⟩ := @stored_direct env s off _ x hd hx
  rw [hwidth] at hstored
  have hwrote := wrote_of_stored hd hroom.clear_dst hstored
  refine moves_of_wrote hop hroom hd hemit ⟨t, hrun, ?_⟩
  split_ifs at hw with hb
  · exact hwrote.of_low hd hb hw
  · exact hw ▸ hwrote

theorem moves_slotReg (hop : i.op = .mov) (hroom : i.Room s) (hd : i.dst.home = .slot off)
    (hv : i.src.home = .reg r)
    (h : if i.dst.isByte = true then r.isByte = true ∨ (r.isWord = true ∧ r ≠ .bp) ∨
        (r.isSegment = true ∧ NextFree i.liveBytes off)
      else r.isByte = false ∧ i.src.isByte = false) : i.Moves env s := by
  have hne : i.dst.home ≠ i.src.home := by
    rw [hd, hv]
    exact nofun
  have hspill : i.src.isSpilled = false := by simp [Source.isSpilled, hv]
  obtain ⟨hrsp, hrflags, hrseg⟩ := i.src.reg r hv
  by_cases hsegs : i.dst.isSeg = true ∧ i.src.isSeg = true
  · -- a segment register into a slot
    have hb := i.dst.seg_word hsegs.1
    have hvb := i.src.seg_word hsegs.2
    have hemit : i.dst.emitMov i.src =
        [.move (.push .ax), .move (i.src.movTo .ax), i.dst.movFrom .ax, .move (.pop .ax)] := by
      unfold Operand.emitMov
      rw [hd] at hne ⊢
      simp [hne, hspill, hsegs]
    have hcan : i.src.CanMovTo .ax := by
      unfold Source.CanMovTo
      rw [hv]
      rw [hsegs.2] at hrseg
      simp [Preg.canMov, hrseg, Preg.isByte, Preg.isWord]
    obtain ⟨t, hrun, hstored⟩ := @stored_viaAx env s off _ _ .ax hd (.inr rfl) hcan
      (by rw [hv]; simpa using hrsp) hroom.clear_dst hroom.clear_src
    have hwidth : Preg.ax.isByte = i.dst.isByte := hb.symm
    rw [hwidth] at hstored
    have hwrote := wrote_of_stored hd hroom.clear_dst hstored
    refine moves_of_wrote hop hroom hd hemit ⟨t, hrun, ?_⟩
    rw [hb, operand_eq_value hvb] at hwrote
    exact hwrote
  · have hemit := Operand.emitMov_eq i.stored hne (.inr hspill)
      (by revert hsegs; cases i.dst.isSeg <;> cases i.src.isSeg <;> simp)
    rw [emitMov_slot hd hv] at hemit
    cases hb : i.dst.isByte with
    | false =>
      rw [hb, if_neg (by decide)] at h
      rw [hb] at hemit
      refine moves_slotDirect hop hroom hd hemit ?_ (h.1.trans hb.symm) ?_
      · exact Preg.kinds hrflags
      · rw [if_neg (by rw [hb]; decide), value_reg hv (.inl h.2)]
    | true =>
      rw [hb, if_pos rfl] at h
      rw [hb, Bool.true_and] at hemit
      cases hword : r.isWord with
      | false =>
        rw [hword, if_neg (by decide)] at hemit
        rcases h with hbyte | ⟨h, -⟩ | ⟨hseg, hfree⟩
        · refine moves_slotDirect hop hroom hd hemit (.inl hbyte) (hbyte.trans hb.symm) ?_
          rw [if_pos hb, low_value_reg hv]
        · rw [hword] at h
          cases h
        · obtain ⟨t, hrun, hstored⟩ :=
            @stored_direct env s off i.dst.toSource r hd (.inr (.inr hseg))
          have hbyte : r.isByte = false := Preg.not_byte_of_segment hseg
          rw [hbyte] at hstored
          refine ⟨t, by rw [hemit]; exact hrun, done_over hroom hd hb hfree ?_ hstored⟩
          rw [hop]
          exact (low_value_reg hv _ _).symm
      | true =>
        rw [hword, if_pos rfl] at hemit
        have hbyte := Preg.not_byte_of_word hword
        have hbp : r ≠ .bp := by
          rcases h with h | ⟨-, h⟩ | ⟨h, -⟩
          · rw [hbyte] at h
            cases h
          · exact h
          · rintro rfl
            cases h
        cases hlo : r.aliasLo with
        | some lo =>
          rw [hlo] at hemit
          obtain ⟨hlobyte, hread⟩ := Cpu.read_lo s hlo
          refine moves_slotDirect hop hroom hd hemit (.inl hlobyte) (hlobyte.trans hb.symm) ?_
          rw [if_pos hb, low_value_reg hv, hread, Cpu.read_eq_reg s hbyte]
          simp [zeroExtend]
        | none =>
          rw [hlo] at hemit
          obtain ⟨t, hrun, hwrote, -⟩ :=
            @run_xchgSlot _ env.toShiftEnv off r hd hb hword hlo hbp s
          refine moves_of_wrote hop hroom hd hemit ⟨t, hrun, hwrote.of_low hd hb ?_⟩
          exact (low_value_reg hv _ _).symm

/-! ### Into a register -/

theorem isByteOperand_reg (hd : i.dst.home = .reg q) :
    i.dst.isByteOperand = (i.dst.isByte || q.isByte) := by
  simp [Source.isByteOperand, Source.assigned, hd]

theorem emitMov_toReg (hd : i.dst.home = .reg q) (hne : i.dst.home ≠ i.src.home)
    (hsegs : i.dst.isSeg = false ∨ i.src.isSeg = false) :
    i.dst.emitMov i.src = Bind.emitMov i.dst.toSource i.src.toSource :=
  Operand.emitMov_eq i.stored hne (.inl (by simp [Source.isSpilled, hd])) hsegs

/-- One `mov`. -/
theorem moves_plain (hop : i.op = .mov) (hroom : i.Room s) (hd : i.dst.home = .reg q)
    (hne : i.dst.home ≠ i.src.home) (hsegs : i.dst.isSeg = false ∨ i.src.isSeg = false)
    (hwidth : if i.dst.isByteOperand = true then ∀ r, i.src.home = .reg r → r.isWord = false
      else i.src.isByteOperand = false) (hcan : i.src.CanMovTo q) : i.Moves env s := by
  have hemit := (emitMov_toReg hd hne hsegs).trans (Operand.emitMov_plain hd hne hwidth)
  obtain ⟨hqsp, -⟩ := i.dst.reg q hd
  have hstep : shiftStep env.toShiftEnv (.move (i.src.movTo q)) s =
      some (s.put q (i.src.operand env.places q.isByte s)) := moveStep_movTo hcan s
  refine moves_of_put hop hroom hd hemit ⟨_, shiftRun_cons hstep, put_put hqsp _ s⟩ ?_
  have hoperand := isByteOperand_reg hd
  split_ifs with hb
  · exact low_operand _ _ _ _
  · refine fit_operand (fun hq => ?_) s
    rw [Bool.eq_false_iff.mpr hb, hq, Bool.or_self] at hoperand
    rw [hoperand, if_neg (by decide)] at hwidth
    exact (Bool.or_eq_false_iff.mp hwidth).1

/-- A byte that is widened in `AX`. -/
theorem moves_widenAx (hop : i.op = .mov) (hroom : i.Room s) (hd : i.dst.home = .reg q)
    (hv : ∀ r, i.src.home ≠ .reg r) (hb : i.dst.isByteOperand = false)
    (hvb : i.src.isByte = true) (hlo : q.aliasLo = none) (hmov : q.canMov .ax = true)
    (hax : pregsAlias .ax q = false) : i.Moves env s := by
  have hne : i.dst.home ≠ i.src.home := by
    rw [hd]
    exact Ne.symm (hv q)
  have hsegs : i.src.isSeg = false := by
    by_contra h
    have hword := i.src.seg_word (by simpa using h)
    rw [hvb] at hword
    cases hword
  have hnone : i.src.assigned = none := by
    unfold Source.assigned
    cases h : i.src.home with
    | reg r => exact absurd h (hv r)
    | slot off => rfl
    | remat c => rfl
  have hemit := (emitMov_toReg hd hne (.inr hsegs)).trans
    (Operand.emitMov_widen hd hne hb (by simp [Source.isByteOperand, hvb]) hlo)
  rw [hnone] at hemit
  obtain ⟨hqsp, -⟩ := i.dst.reg q hd
  obtain ⟨t, hrun, hput⟩ := @run_widenViaAx env.toMoveEnv _ q s hv hvb hmov hqsp hax hroom.clear_src
  refine moves_of_put hop hroom hd hemit ⟨t, (shiftRun_moves).trans hrun, hput⟩ ?_
  split_ifs <;> rfl

/-- A segment through `AX`. -/
theorem moves_segment (hop : i.op = .mov) (hroom : i.Room s) (hd : i.dst.home = .reg q)
    (hne : i.dst.home ≠ i.src.home) (hsegs : i.dst.isSeg = true ∧ i.src.isSeg = true)
    (hcs : q ≠ .cs) : i.Moves env s := by
  have hspill : i.dst.isSpilled = false := by simp [Source.isSpilled, hd]
  obtain ⟨hqsp, -, hqseg⟩ := i.dst.reg q hd
  rw [hsegs.1] at hqseg
  have hvb := i.src.seg_word hsegs.2
  have hfrom : i.dst.movFrom .ax = .move (.mov q .ax) := by simp [Source.movFrom, hd]
  have hemit : i.dst.emitMov i.src = ([.push .ax, i.src.movTo .ax, .mov q .ax, .pop .ax] :
      List MoveInsn).map .move := by
    unfold Operand.emitMov
    rw [hd] at hne ⊢
    simp [hne, hspill, hsegs, hfrom]
  have hcan : i.src.CanMovTo .ax := by
    unfold Source.CanMovTo
    cases hv : i.src.home with
    | reg r =>
      obtain ⟨-, -, hrseg⟩ := i.src.reg r hv
      rw [hsegs.2] at hrseg
      simp [Preg.canMov, hrseg, Preg.isByte, Preg.isWord]
    | slot off => rfl
    | remat c => rfl
  have hqax : q.canMov .ax = true ∧ pregsAlias .ax q = false ∧ q.isByte = false := by
    revert hqseg hcs
    cases q <;> decide
  have hsp : i.src.home ≠ .reg .sp := fun h => (i.src.reg .sp h).1 rfl
  obtain ⟨t, hrun, hput⟩ := @run_viaAx env.toMoveEnv _ q s .ax hcan hqax.1 hqax.2.1 hqsp hsp
    hroom.clear_src fun u => by
      rw [Cpu.read_put_self, operand_eq_value hvb]
      rfl
  refine moves_of_put hop hroom hd hemit ⟨t, shiftRun_moves.trans hrun, hput⟩ ?_
  split_ifs <;> rfl

/-- From a slot, or of a constant. -/
theorem moves_regMem (hop : i.op = .mov) (hroom : i.Room s) (hd : i.dst.home = .reg q)
    (hv : ∀ r, i.src.home ≠ .reg r)
    (h : q.isByte = true ∨ (q.isSegment = true ∧ q ≠ .cs ∧
        (i.src.isByte = true ∨ ∃ off, i.src.home = .slot off)) ∨
      (q.isWord = true ∧ (i.dst.isByte = true ∨ i.src.isByte = false ∨ q.widens = true))) :
    i.Moves env s := by
  have hne : i.dst.home ≠ i.src.home := by
    rw [hd]
    exact Ne.symm (hv q)
  have hoperand := isByteOperand_reg hd
  obtain ⟨hqsp, -, hqseg⟩ := i.dst.reg q hd
  have hvoperand : i.src.isByteOperand = i.src.isByte := by
    unfold Source.isByteOperand Source.assigned
    cases hh : i.src.home with
    | reg r => exact absurd hh (hv r)
    | slot off => simp
    | remat c => simp
  have hcan : (q.isByte = true ∨ q.isWord = true) → i.src.CanMovTo q := by
    intro hq
    unfold Source.CanMovTo
    cases hh : i.src.home with
    | reg r => exact absurd hh (hv r)
    | slot off => rcases hq with h | h <;> simp [Preg.canLoad, h]
    | remat c => rcases hq with h | h <;> simp [Preg.canConst, h]
  rcases h with hq | ⟨hseg, hcs, hfrom⟩ | ⟨hq, hwidth⟩
  · have hsegs : i.dst.isSeg = false := by
      rw [← hqseg]
      revert hq
      cases q <;> decide
    refine moves_plain hop hroom hd hne (.inl hsegs) ?_ (hcan (.inl hq))
    rw [hoperand, hq, Bool.or_true, if_pos rfl]
    exact fun r hr => absurd hr (hv r)
  · have hdseg := hqseg.symm.trans hseg
    have hb := i.dst.seg_word hdseg
    have hqb : q.isByte = false := Preg.not_byte_of_segment hseg
    rw [hb, hqb, Bool.or_self] at hoperand
    by_cases hsegs : i.src.isSeg = true
    · exact moves_segment hop hroom hd hne ⟨hdseg, hsegs⟩ hcs
    · cases hvb : i.src.isByte with
      | true =>
        have hqax : q.aliasLo = none ∧ q.canMov .ax = true ∧ pregsAlias .ax q = false := by
          revert hseg hcs
          cases q <;> decide
        exact moves_widenAx hop hroom hd hv hoperand hvb hqax.1 hqax.2.1 hqax.2.2
      | false =>
        obtain ⟨off, hslot⟩ := hfrom.resolve_left (by simp [hvb])
        refine moves_plain hop hroom hd hne (.inr (by simpa using hsegs)) ?_ ?_
        · rw [hoperand, hvoperand, hvb]
          simp
        · unfold Source.CanMovTo
          rw [hslot]
          simp [Preg.canLoad, hseg, hcs]
  · have hqb := Preg.not_byte_of_word hq
    have hsegs : i.dst.isSeg = false := by
      rw [← hqseg]
      revert hq
      cases q <;> decide
    rw [hqb, Bool.or_false] at hoperand
    cases hb : i.dst.isByte with
    | true =>
      refine moves_plain hop hroom hd hne (.inl hsegs) ?_ (hcan (.inr hq))
      rw [hoperand, hb, if_pos rfl]
      exact fun r hr => absurd hr (hv r)
    | false =>
      cases hvb : i.src.isByte with
      | false =>
        refine moves_plain hop hroom hd hne (.inl hsegs) ?_ (hcan (.inr hq))
        rw [hoperand, hb, hvoperand, hvb]
        simp
      | true =>
        have hwidens := (hwidth.resolve_left (by simp [hb])).resolve_left (by simp [hvb])
        have hqax : q.aliasLo = none ∧ q.canMov .ax = true ∧ pregsAlias .ax q = false := by
          revert hwidens
          cases q <;> decide
        exact moves_widenAx hop hroom hd hv (hoperand.trans hb) hvb hqax.1 hqax.2.1 hqax.2.2

theorem fits_low (hq : q.isByte = true) (h : low w = low w') :
    if i.dst.isByte = true then low w = low w' else q.fit w = q.fit w' := by
  split_ifs
  · exact h
  · rw [Preg.fit_of_byte hq, Preg.fit_of_byte hq, h]

/-- The low half of a word register. -/
theorem moves_lowHalf {lo : Preg} (hop : i.op = .mov) (hroom : i.Room s) (hd : i.dst.home = .reg q)
    (hv : i.src.home = .reg r) (hq : q.isByte = true) (hlo : r.aliasLo = some lo)
    (hemit : i.dst.emitMov i.src = if q = lo then [] else [.move (.mov q lo)]) :
    i.Moves env s := by
  obtain ⟨hqsp, -⟩ := i.dst.reg q hd
  obtain ⟨hlobyte, hread⟩ := Cpu.read_lo s hlo
  have hr : r.isByte = false := by
    revert hlo
    cases r <;> rintro ⟨⟩ <;> rfl
  have hlow : low (s.read lo) = low (i.src.value env.places s) := by
    rw [low_value_reg hv, hread, Cpu.read_eq_reg s hr]
    simp [zeroExtend]
  by_cases hsame : q = lo
  · subst hsame
    rw [if_pos rfl] at hemit
    exact moves_of_put hop hroom hd hemit ⟨s, rfl, put_refl (Cpu.fit_read s q).symm⟩
      (fits_low hq hlow)
  · rw [if_neg hsame] at hemit
    have hstep : shiftStep env.toShiftEnv (.move (.mov q lo)) s = some (s.put q (s.read lo)) :=
      if_pos (by simp [Preg.canMov, hq, hlobyte])
    exact moves_of_put hop hroom hd hemit ⟨_, shiftRun_cons hstep, put_put hqsp _ s⟩
      (fits_low hq hlow)

/-- `AL` gets its byte with the whole of `AX`. -/
theorem moves_wholeAl (hop : i.op = .mov) (hd : i.dst.home = .reg .al)
    (hv : i.src.home = .reg r) (hr : r.isWord = true) (hah : .ah ∉ i.liveAfter)
    (hemit : i.dst.emitMov i.src = [.move (.mov .ax r)]) : i.Moves env s := by
  have hstep : shiftStep env.toShiftEnv (.move (.mov .ax r)) s = some (s.put .ax (s.read r)) :=
    if_pos (by revert hr; cases r <;> decide)
  refine ⟨_, by rw [hemit]; exact shiftRun_cons hstep, ⟨?_, fun x hx hf hspare => ?_, ?_, ?_⟩⟩
  · have hal : (s.put .ax (s.read r)).read .al = zeroExtend (low (s.read r)) := by
      simp [Cpu.read, Cpu.put, Preg.aliasParent, Preg.aliasLo]
    unfold Source.Holds
    rw [hd, hop]
    simp only [hal, ExtOp.result]
    split_ifs
    · rw [low_value_reg hv]
      simp [zeroExtend]
    · rw [Preg.fit_of_byte rfl, low_value_reg hv]
  · have hal := hspare .al hd
    refine Cpu.read_put_of_ne _ _ ?_
    by_contra h
    have hxah : x = .ah := by
      revert hal h
      cases x <;> decide
    exact hah (hxah ▸ hx)
  · intro off _ _
    rfl
  · exact Cpu.put_sp _ _ (by decide)

theorem moves_regReg (hop : i.op = .mov) (hroom : i.Room s) (hd : i.dst.home = .reg q)
    (hv : i.src.home = .reg r) (hne : i.dst.home ≠ i.src.home) (h : i.RegToReg q r) :
    i.Moves env s := by
  obtain ⟨hqsp, hqflags, hqseg⟩ := i.dst.reg q hd
  obtain ⟨hrsp, hrflags, hrseg⟩ := i.src.reg r hv
  have hoperand := isByteOperand_reg hd
  have hassigned : i.src.assigned = some r := by simp [Source.assigned, hv]
  have hvoperand : i.src.isByteOperand = (i.src.isByte || r.isByte) := by
    simp [Source.isByteOperand, hassigned]
  have honly : ∀ x, i.src.home = .reg x → x = r := fun x hx => by
    rw [hv] at hx
    exact (Home.reg.inj hx).symm
  have hcan : q.canMov r = true → i.src.CanMovTo q := fun hmov => by
    unfold Source.CanMovTo
    rw [hv]
    exact hmov
  unfold RegToReg at h
  cases hq : q.isByte with
  | true =>
    rw [if_pos hq] at h
    rw [hq, Bool.or_true] at hoperand
    have hsegs : i.dst.isSeg = false := by
      rw [← hqseg]
      revert hq
      cases q <;> decide
    cases hword : r.isWord with
    | false =>
      have hr : r.isByte = true := by
        rcases h with h | h | ⟨h, -⟩
        · exact h
        · revert hword h
          cases r <;> decide
        · rw [hword] at h
          cases h
      refine moves_plain hop hroom hd hne (.inl hsegs) ?_ (hcan (by simp [Preg.canMov, hq, hr]))
      rw [if_pos hoperand]
      exact fun x hx => honly x hx ▸ hword
    | true =>
      have hemit := (emitMov_toReg hd hne (.inl hsegs)).trans
        (Operand.emitMov_narrow hd hv hne hoperand hword)
      cases hlo : r.aliasLo with
      | some lo =>
        rw [hlo] at hemit
        exact moves_lowHalf hop hroom hd hv hq hlo hemit
      | none =>
        rw [hlo] at hemit
        have hnot : ¬r.hasHalves = true := by simp [Preg.hasHalves, hlo]
        have hbyte : ¬r.isByte = true := by simp [Preg.not_byte_of_word hword]
        obtain ⟨-, hah, hlive⟩ := (h.resolve_left hbyte).resolve_left hnot
        by_cases hal : q = .al
        · subst hal
          rw [if_pos rfl] at hemit
          exact moves_wholeAl hop hd hv hword (hlive rfl) hemit
        · rw [if_neg hal] at hemit
          have hqAx : q.aliasParent ≠ some .ax := by
            revert hal hah
            cases q <;> decide
          obtain ⟨t, hrun, hput, -⟩ := @run_xchgReg env.toShiftEnv q r hq hqAx hword hlo s
          exact moves_of_put hop hroom hd hemit ⟨t, hrun, hput⟩
            (fits_low hq (low_value_reg hv _ _).symm)
  | false =>
    rw [if_neg (by rw [hq]; decide)] at h
    rw [hq, Bool.or_false] at hoperand
    cases hseg : q.isSegment with
    | true =>
      rw [if_pos hseg] at h
      have hdseg := hqseg.symm.trans hseg
      have hb := i.dst.seg_word hdseg
      rcases h.2 with hr | ⟨hr, hvb⟩
      · exact moves_segment hop hroom hd hne ⟨hdseg, hrseg.symm.trans hr⟩ h.1
      · have hsegs : i.src.isSeg = false := by
          rw [← hrseg]
          revert hr
          cases r <;> decide
        refine moves_plain hop hroom hd hne (.inr hsegs) ?_ (hcan ?_)
        · rw [hoperand, hb, hvoperand, hvb, Preg.not_byte_of_word hr]
          simp
        · simp [Preg.canMov, hseg, h.1, hr]
    | false =>
      rw [if_neg (by rw [hseg]; decide)] at h
      have hword : q.isWord = true := by
        have hkinds := Preg.kinds hqflags
        rw [hq, hseg] at hkinds
        simpa using hkinds
      have hsegs : i.dst.isSeg = false := hqseg.symm.trans hseg
      cases hb : i.dst.isByte with
      | true =>
        rw [if_pos hb] at h
        rw [hb] at hoperand
        refine moves_plain hop hroom hd hne (.inl hsegs) ?_
          (hcan (by simp [Preg.canMov, hword, h]))
        rw [if_pos hoperand]
        intro x hx
        obtain rfl := honly x hx
        revert h
        cases x <;> decide
      | false =>
        rw [if_neg (by rw [hb]; decide)] at h
        rw [hb] at hoperand
        rcases h with ⟨hr, hwidens⟩ | ⟨hr, hvb⟩
        · have hlo : q.aliasLo = none := by
            revert hwidens
            cases q <;> decide
          obtain ⟨p, hp⟩ : ∃ p, r.aliasParent = some p := by
            revert hr
            cases r <;> first | exact fun _ => ⟨_, rfl⟩ | rintro ⟨⟩
          have hemit := (emitMov_toReg hd hne (.inl hsegs)).trans
            (Operand.emitMov_widen hd hne hoperand (by rw [hvoperand, hr, Bool.or_true]) hlo)
          rw [hassigned, Option.bind_some, hp] at hemit
          obtain ⟨t, hrun, hput⟩ := @run_widenByte env.toMoveEnv _ q r p hv hp hwidens s
          refine moves_of_put hop hroom hd hemit ⟨t, ?_, hput⟩ ?_
          · rw [← hrun, ← shiftRun_moves]
            rfl
          · split_ifs <;> rfl
        · refine moves_plain hop hroom hd hne (.inl hsegs) ?_ (hcan ?_)
          · rw [hoperand, hvoperand, hvb, hr]
            simp
          · rcases Preg.kinds hrflags with hr' | hr' | hr'
            · rw [hr] at hr'
              cases hr'
            · simp [Preg.canMov, hword, hr']
            · simp [Preg.canMov, hword, hr']

/-- **The value arrives**, wherever it is and wherever it is wanted. -/
theorem moveSound_moves (hop : i.op = .mov) (hroom : i.Room s) (h : i.MoveSound) :
    i.Moves env s := by
  unfold MoveSound at h
  by_cases hsame : i.dst.home = i.src.home
  · rw [if_pos hsame] at h
    exact moves_same hop hsame h
  · rw [if_neg hsame] at h
    cases hd : i.dst.home with
    | remat c => exact absurd hd (i.stored c)
    | slot off =>
      rw [hd] at h
      cases hv : i.src.home with
      | slot off' =>
        rw [hv] at h
        exact moves_slots hop hroom hd hv hsame h
      | reg r =>
        rw [hv] at h
        exact moves_slotReg hop hroom hd hv h
      | remat c =>
        rw [hv] at h
        exact moves_slotConst hop hroom hd hv h
    | reg q =>
      rw [hd] at h
      cases hv : i.src.home with
      | slot off' =>
        rw [hv] at h
        refine moves_regMem hop hroom hd (by rw [hv]; exact fun _ => nofun) ?_
        exact h.imp_right (.imp_left fun hq => ⟨hq.1, hq.2, .inr ⟨off', hv⟩⟩)
      | remat c =>
        rw [hv] at h
        refine moves_regMem hop hroom hd (by rw [hv]; exact fun _ => nofun) ?_
        exact h.imp_right (.imp_left fun hq => ⟨hq.1, hq.2.1, .inl hq.2.2⟩)
      | reg r =>
        rw [hv] at h
        exact moves_regReg hop hroom hd hv hsame h

/-! ## Zero extension -/

/-- The mask does not change a byte that is stored. -/
theorem step_andSlot (s : Cpu) (off : Int) : extStep env (.andSlot off) s =
    some (s.setReg .flags (env.extFlags (.andSlot off) s)) := by
  have hmem : write true s.stack (s.slotAddr off) (s.readSlot true off &&& 255) = s.stack := by
    funext a
    unfold write
    have hlow : low (s.readSlot true off &&& 255) = s.stack (s.slotAddr off) := by
      rw [and_byte]
      simp [Cpu.readSlot, zeroExtend]
    rw [hlow]
    by_cases ha : a = s.slotAddr off
    · rw [if_pos ha, ha]
    · rw [if_neg ha, if_neg (by simp)]
  rw [extStep, hmem]
  rfl

theorem flags_read (s : Cpu) (f : Word) (h : r ≠ .flags) :
    (s.setReg .flags f).read r = s.read r := by
  refine Cpu.read_put_of_ne s (d := .flags) f ?_
  revert h
  cases r <;> decide

theorem Stored.flags {byte : Bool} (h : Stored off byte w s t) (f : Word) :
    Stored off byte w s (t.setReg .flags f) where
  regs := fun _ hr => (flags_read t f hr).trans (h.regs _ hr)
  stack := h.stack

/-- A register is written and masked. -/
theorem run_mask {m : MoveInsn} {x : Word} (hm : moveStep env.toMoveEnv m s = some (s.put q x))
    (hkind : q.isByte = true ∨ q.isWord = true) (hsp : q ≠ .sp) :
    ∃ t, extRun env [.base (.move m), .andByte q] s = some t ∧ Put q (zeroExtend (low x)) s t ∧
      t.stack = s.stack := by
  have hstep : extStep env (.base (.move m)) s = some (s.put q x) := hm
  have hflags : q ≠ .flags := by
    rintro rfl
    revert hkind
    decide
  have hmask : extStep env (.andByte q) (s.put q x) = some (((s.put q x).put q
      ((s.put q x).read q &&& 255)).setReg .flags (env.extFlags (.andByte q) (s.put q x))) := by
    refine if_pos ?_
    rcases hkind with h | h <;> simp [h]
  have hlow : (s.put q x).read q &&& 255 = zeroExtend (low x) := by
    rw [Cpu.read_put_self, and_byte]
    cases hq : q.isByte with
    | true => rw [Preg.fit_of_byte hq]; simp [zeroExtend]
    | false => rw [Preg.fit_of_not_byte hq]
  rw [hlow] at hmask
  refine ⟨_, by rw [extRun_cons hstep, extRun_cons hmask]; rfl,
    put_flags (put_again (put_put hsp x s) hsp) hflags _, ?_⟩
  rw [Cpu.setReg_stack, Cpu.put_stack, Cpu.put_stack]

/-- The high half of a register is shifted down. -/
theorem run_shiftHigh {p : Preg} (hp : r.aliasParent = some p) (hlo : p.aliasLo ≠ some r)
    (hq : q.isWord = true) (hsp : q ≠ .sp) :
    ∃ t, extRun env [.base (.move (.mov q p)), .shrByte q] s = some t ∧
      Put q (zeroExtend (low (s.read r))) s t := by
  have hparent : p.isWord = true ∧ p.isByte = false := by
    revert hp
    cases r <;> rintro ⟨⟩ <;> decide
  have hnot := Preg.not_byte_of_word hq
  have hflags : q ≠ .flags := by
    rintro rfl
    cases hq
  have hstep : extStep env (.base (.move (.mov q p))) s = some (s.put q (s.read p)) :=
    if_pos (by simp [Preg.canMov, hq, hparent.1])
  have hshift : extStep env (.shrByte q) (s.put q (s.read p)) = some (((s.put q (s.read p)).put q
      ((s.put q (s.read p)).read q >>> 8)).setReg .flags
        (env.extFlags (.shrByte q) (s.put q (s.read p)))) := if_pos (by simp [hq])
  have hvalue : (s.put q (s.read p)).read q >>> 8 = zeroExtend (low (s.read r)) := by
    rw [Cpu.read_put_self, Preg.fit_of_not_byte hnot, shr_byte, Cpu.read_eq_reg s hparent.2]
    unfold Cpu.read
    rw [hp]
    simp only [if_neg hlo]
    simp [zeroExtend]
  rw [hvalue] at hshift
  exact ⟨_, by rw [extRun_cons hstep, extRun_cons hshift]; rfl,
    put_flags (put_again (put_put hsp _ s) hsp) hflags _⟩

/-- The word is cleared, then its low byte is written. -/
theorem run_clear {v : Source} {lo : Preg} (hlo : q.aliasLo = some lo)
    (hv : ∀ r, v.home = .reg r → r.isByte = true ∧ pregsAlias q r = false) :
    ∃ t, extRun env [.xor q, .base (.move (v.movTo lo))] s = some t ∧
      Put q (zeroExtend (low (v.value env.places s))) s t := by
  have hq : q.isWord = true ∧ q ≠ .sp ∧ q ≠ .flags ∧ q.isByte = false ∧
      pregsAlias q .bp = false := by
    revert hlo
    cases q <;> rintro ⟨⟩ <;> decide
  obtain ⟨hword, hsp, hflags, hnot, hbp⟩ := hq
  let u := (s.put q 0).setReg .flags (env.extFlags (.xor q) s)
  have hxor : extStep env (.xor q) s = some u := if_pos (by simp [hword])
  have hlobyte : lo.isByte = true := (Cpu.read_lo s hlo).1
  have hcan : v.CanMovTo lo := by
    unfold Source.CanMovTo
    cases hh : v.home with
    | reg r => simp [Preg.canMov, hlobyte, (hv r hh).1]
    | slot off => simp [Preg.canLoad, hlobyte]
    | remat c => simp [Preg.canConst, hlobyte]
  have hoperand : v.operand env.places true u = v.operand env.places true s := by
    have hread : ∀ x, x ≠ .flags → pregsAlias q x = false → u.read x = s.read x := fun x hx hqx =>
      (flags_read _ _ hx).trans (Cpu.read_put_of_ne _ _ hqx)
    unfold Source.operand
    cases hh : v.home with
    | reg r =>
      obtain ⟨hr, hqr⟩ := hv r hh
      exact hread r (by rintro rfl; cases hr) hqr
    | slot off =>
      have haddr : u.slotAddr off = s.slotAddr off := slotAddr_congr (hread .bp (by decide) hbp) off
      have hstack : u.stack = s.stack := Cpu.put_stack _ _ _
      simp only [Cpu.readSlot, haddr, hstack]
    | remat c => rfl
  have hload : extStep env (.base (.move (v.movTo lo))) u =
      some (u.put lo (v.operand env.places true s)) := by
    have hstep := @moveStep_movTo env.toMoveEnv v lo hcan u
    rw [hlobyte, hoperand] at hstep
    exact hstep
  have hlow : low (v.operand env.places true s) = low (v.value env.places s) := low_operand _ _ _ _
  refine ⟨_, by rw [extRun_cons hxor, extRun_cons hload]; rfl, ?_, fun x hx hqx => ?_, ?_, ?_⟩
  · rw [← hlow, Preg.fit_of_not_byte hnot]
    revert hlo
    cases q <;> rintro ⟨⟩ <;>
      simp [u, Cpu.read, Cpu.put, Preg.aliasParent, Preg.aliasLo, zeroExtend] <;> rfl
  · have hlox : pregsAlias lo x = false := by
      revert hlo hqx
      cases q <;> rintro ⟨⟩ <;> cases x <;> decide
    rw [Cpu.read_put_of_ne _ _ hlox, flags_read _ _ hx, Cpu.read_put_of_ne _ _ hqx]
  · have hlosp : lo ≠ .sp := by
      rintro rfl
      cases hlobyte
    rw [Cpu.put_sp _ _ hlosp, Cpu.setReg_sp _ _ (by decide), Cpu.put_sp _ _ hsp]
  · intro a _
    rw [Cpu.put_stack]
    show (s.put q 0).stack a = _
    rw [Cpu.put_stack]

/-- The instructions come to this. -/
def Runs (i : Extension) (env : ExtEnv) (s : Cpu) : Prop :=
  ∃ t, extRun env i.emit s = some t ∧ i.Done env s t

theorem runs_of_put {is : List ExtInsn} (hop : i.op = .zext) (hroom : i.Room s)
    (hd : i.dst.home = .reg q) (hemit : i.dst.emitZext i.src = is)
    (h : ∃ t, extRun env is s = some t ∧
      Put q (zeroExtend (low (i.src.value env.places s))) s t) : i.Runs env s := by
  obtain ⟨t, hrun, hput⟩ := h
  refine ⟨t, ?_, done_of_put hroom hd hput (fits_of_eq ?_)⟩
  · unfold emit
    rw [hop]
    exact (congrArg (extRun env · s) hemit).trans hrun
  · rw [hop]
    rfl

/-- A byte in the low half of the destination. -/
theorem zext_inPlace {lo : Preg} (hop : i.op = .zext) (hroom : i.Room s)
    (hd : i.dst.home = .reg q) (hlo : q.aliasLo = some lo) (hv : i.src.home = .reg lo) :
    i.Runs env s := by
  have hassigned : i.dst.assigned = some q ∧ i.src.assigned = some lo := by
    simp [Source.assigned, hd, hv]
  obtain ⟨hi, hhi⟩ : ∃ hi, q.aliasHi = some hi := by
    revert hlo
    cases q <;> first | exact fun _ => ⟨_, rfl⟩ | rintro ⟨⟩
  have hhalves : q.hasHalves = true := by simp [Preg.hasHalves, hlo]
  have hemit : i.dst.emitZext i.src = [.xor hi] := by
    simp [Operand.emitZext, hassigned, hhalves, hlo, hhi, Option.filter]
  have hkinds : hi.isByte = true ∧ hi ≠ .flags ∧ q.isByte = false ∧ hi ≠ .sp := by
    revert hhi
    cases q <;> rintro ⟨⟩ <;> decide
  obtain ⟨hhibyte, hhiflags, hnot, hhisp⟩ := hkinds
  have hstep : extStep env (.xor hi) s =
      some ((s.put hi 0).setReg .flags (env.extFlags (.xor hi) s)) := if_pos (by simp [hhibyte])
  refine runs_of_put hop hroom hd hemit ⟨_, extRun_cons hstep, ?_⟩
  have hvalue : low (i.src.value env.places s) = low (s.reg q) := by
    rw [low_value_reg hv, (Cpu.read_lo s hlo).2]
    simp [zeroExtend]
  refine put_flags ⟨?_, fun r _ hr => ?_, Cpu.put_sp _ _ hhisp, ?_⟩ ?_ _
  · rw [hvalue, Preg.fit_of_not_byte hnot]
    revert hhi
    cases q <;> rintro ⟨⟩ <;>
      simp [Cpu.read, Cpu.put, Preg.aliasParent, Preg.aliasLo, zeroExtend] <;> rfl
  · refine Cpu.read_put_of_ne _ _ ?_
    revert hhi hr
    cases q <;> rintro ⟨⟩ <;> cases r <;> decide
  · intro a _
    rw [Cpu.put_stack]
  · rintro rfl
    cases hlo

theorem zext_halves {lo : Preg} (hop : i.op = .zext) (hroom : i.Room s)
    (hd : i.dst.home = .reg q) (hlo : q.aliasLo = some lo) (hv : i.src.home ≠ .reg lo)
    (h : ∀ r, i.src.home = .reg r → r.isByte = true ∧ q.aliasHi ≠ some r) : i.Runs env s := by
  have hassigned : i.dst.assigned = some q := by simp [Source.assigned, hd]
  have hne : i.src.assigned ≠ some lo := by
    exact fun hs => hv (home_of_assigned hs)
  have hhalves : q.hasHalves = true := by simp [Preg.hasHalves, hlo]
  have hemit : i.dst.emitZext i.src = [.xor q, .base (.move (i.src.movTo lo))] := by
    simp [Operand.emitZext, hassigned, hhalves, hlo, hne, Option.filter]
  refine runs_of_put hop hroom hd hemit (run_clear hlo fun r hr => ?_)
  obtain ⟨hbyte, hhi⟩ := h r hr
  refine ⟨hbyte, ?_⟩
  have hrlo : r ≠ lo := fun heq => hv (hr.trans (congrArg Home.reg heq))
  revert hlo hhi hbyte hrlo
  cases q <;> rintro ⟨⟩ <;> cases r <;> decide

/-- What is not in halves, or comes from memory, is moved and masked. -/
theorem zext_mask (hop : i.op = .zext) (hroom : i.Room s) (hd : i.dst.home = .reg q)
    (hlo : q.aliasLo = none) (hv : ∀ r, i.src.home = .reg r → r.aliasParent = none)
    (hkind : q.isByte = true ∨ q.isWord = true) (hcan : i.src.CanMovTo q) : i.Runs env s := by
  have hassigned : i.dst.assigned = some q := by simp [Source.assigned, hd]
  have hhalves : q.hasHalves = false := by simp [Preg.hasHalves, hlo]
  have hparent : i.src.assigned.bind Preg.aliasParent = none := by
    unfold Source.assigned
    cases hh : i.src.home with
    | reg r => exact hv r hh
    | slot off => rfl
    | remat c => rfl
  have hspill : i.dst.isSpilled = false := by simp [Source.isSpilled, hd]
  have hemit : i.dst.emitZext i.src = [.base (.move (i.src.movTo q)), .andByte q] := by
    simp [Operand.emitZext, hassigned, hhalves, hparent, hspill, Option.filter, Operand.maskLow, hd,
      Source.movPlain]
  obtain ⟨t, hrun, hput, -⟩ := run_mask (moveStep_movTo hcan s) hkind (i.dst.reg q hd).1
  rw [low_operand] at hput
  exact runs_of_put hop hroom hd hemit ⟨t, hrun, hput⟩

/-- A byte register into a register without halves. -/
theorem zext_parent {p : Preg} (hop : i.op = .zext) (hroom : i.Room s) (hd : i.dst.home = .reg q)
    (hlo : q.aliasLo = none) (hq : q.isWord = true) (hv : i.src.home = .reg r)
    (hp : r.aliasParent = some p) : i.Runs env s := by
  have hassigned : i.dst.assigned = some q ∧ i.src.assigned = some r := by
    simp [Source.assigned, hd, hv]
  have hhalves : q.hasHalves = false := by simp [Preg.hasHalves, hlo]
  have hparent : p.isWord = true := by
    revert hp
    cases r <;> rintro ⟨⟩ <;> decide
  obtain ⟨hqsp, -⟩ := i.dst.reg q hd
  have hemit : i.dst.emitZext i.src =
      [.base (.move (.mov q p)), if some r = p.aliasLo then .andByte q else .shrByte q] := by
    simp [Operand.emitZext, hassigned, hhalves, hp, Option.filter, Operand.maskLow,
      Operand.shiftHigh, hd, Source.movFrom]
  have hvalue : low (i.src.value env.places s) = low (s.read r) := low_value_reg hv _ _
  by_cases hlow : some r = p.aliasLo
  · rw [if_pos hlow] at hemit
    have hmov : moveStep env.toMoveEnv (.mov q p) s = some (s.put q (s.read p)) :=
      if_pos (by simp [Preg.canMov, hq, hparent])
    obtain ⟨t, hrun, hput, -⟩ := run_mask hmov (.inr hq) hqsp
    refine runs_of_put hop hroom hd hemit ⟨t, hrun, ?_⟩
    have hread := (Cpu.read_lo s hlow.symm).2
    rw [hvalue, hread]
    rw [Cpu.read_eq_reg s (Preg.not_byte_of_word hparent)] at hput
    simpa [zeroExtend] using hput
  · rw [if_neg hlow] at hemit
    obtain ⟨t, hrun, hput⟩ := @run_shiftHigh env s q r p hp (Ne.symm hlow) hq hqsp
    rw [← hvalue] at hput
    exact runs_of_put hop hroom hd hemit ⟨t, hrun, hput⟩

theorem runs_zext (hop : i.op = .zext) {is : List ExtInsn} (hemit : i.dst.emitZext i.src = is)
    (h : ∃ t, extRun env is s = some t ∧ i.Done env s t) : i.Runs env s := by
  obtain ⟨t, hrun, hdone⟩ := h
  refine ⟨t, ?_, hdone⟩
  unfold emit
  rw [hop]
  exact (congrArg (extRun env · s) hemit).trans hrun

/-- A word that is stored is the value, or covers the byte after it. -/
theorem done_of_stored (hop : i.op = .zext) (hroom : i.Room s) (hd : i.dst.home = .slot off)
    (hfree : i.dst.isByte = true → NextFree i.liveBytes off)
    (hw : if i.dst.isByte = true then low w = low (i.src.value env.places s)
      else w = zeroExtend (low (i.src.value env.places s)))
    (h : Stored off false w s t) : i.Done env s t := by
  split_ifs at hw with hb
  · refine done_over hroom hd hb (hfree hb) ?_ h
    rw [hop, hw]
    simp [ExtOp.result, zeroExtend]
  · have hfalse : i.dst.isByte = false := by simpa using hb
    rw [← hfalse] at h
    have hwrote := wrote_of_stored hd hroom.clear_dst h
    rw [hw] at hwrote
    refine done_of_wrote hroom hd ?_
    rw [hop]
    exact hwrote

theorem zext_slots {off' : Int} (hop : i.op = .zext) (hroom : i.Room s)
    (hd : i.dst.home = .slot off) (hv : i.src.home = .slot off')
    (hfree : i.dst.isByte = true → NextFree i.liveBytes off) : i.Runs env s := by
  have hnone : i.dst.assigned = none ∧ i.src.assigned = none := by
    simp [Source.assigned, hd, hv]
  have hspill : i.dst.isSpilled = true ∧ i.src.isSpilled = true := by
    simp [Source.isSpilled, hd, hv]
  have hemit : i.dst.emitZext i.src = [.base (.move (.push .ax)), .base (.move (i.src.movTo .ax)),
      .andByte .ax, .base (i.dst.movFrom .ax), .base (.move (.pop .ax))] := by
    simp [Operand.emitZext, hnone, hspill]
  have hcan : i.src.CanMovTo .ax := by
    unfold Source.CanMovTo
    rw [hv]
    rfl
  let s₁ := s.push [s.reg .ax]
  have hsp : i.src.home ≠ .reg .sp := by
    rw [hv]
    rintro ⟨⟩
  have hmov := @moveStep_movTo env.toMoveEnv _ _ hcan s₁
  rw [operand_push _ hsp hroom.clear_src] at hmov
  obtain ⟨u, hrun, hput, hstack⟩ := run_mask hmov (.inr rfl) (by decide)
  obtain ⟨t, hpop, hstored⟩ := @stored_around env s off u .ax (hroom.clear_dst off hd)
    (fun r hf hr => hput.regs r hf hr) hstack
  refine runs_zext hop hemit ⟨t, ?_, ?_⟩
  · have hpush : extStep env (.base (.move (.push .ax))) s = some s₁ := rfl
    have hstore : extStep env (.base (i.dst.movFrom .ax)) u = _ :=
      stored_movFrom hd (.inr (.inl rfl))
    have hlast : extStep env (.base (.move (.pop .ax))) _ = some t := hpop
    have hbody := @extRun_append env s₁ u [.base (.move (i.src.movTo .ax)), .andByte .ax]
      [.base (i.dst.movFrom .ax), .base (.move (.pop .ax))] hrun
    rw [extRun_cons hpush]
    refine hbody.trans ?_
    rw [extRun_cons hstore, extRun_cons hlast]
    rfl
  · have hvalue : u.read .ax = zeroExtend (low (i.src.value env.places s)) := by
      rw [hput.value, low_operand]
      rfl
    rw [hvalue] at hstored
    refine done_of_stored hop hroom hd hfree ?_ hstored
    split_ifs
    · simp [zeroExtend]
    · rfl

/-- A word is stored over the byte, and the mask finds the byte already there. -/
theorem zext_slotReg (hop : i.op = .zext) (hroom : i.Room s) (hd : i.dst.home = .slot off)
    (hv : i.src.home = .reg r) (hb : i.dst.isByte = true) (hfree : NextFree i.liveBytes off)
    (hlo : ∀ p, r.aliasParent = some p → p.aliasLo = some r) : i.Runs env s := by
  have hassigned : i.dst.assigned = none ∧ i.src.assigned = some r := by
    simp [Source.assigned, hd, hv]
  have hspill : i.src.isSpilled = false := by simp [Source.isSpilled, hv]
  obtain ⟨hrsp, hrflags, -⟩ := i.src.reg r hv
  obtain ⟨x, hx, hemit, hlow⟩ : ∃ x : Preg, (x.isByte = false ∧ x ≠ .flags) ∧
      i.dst.emitZext i.src = [.base (i.dst.movFrom x), .andSlot off] ∧
      low (s.read x) = low (i.src.value env.places s) := by
    cases hp : r.aliasParent with
    | some p =>
      have hplo := hlo p hp
      have hkind : p.isByte = false ∧ p ≠ .flags := by
        revert hp
        cases r <;> rintro ⟨⟩ <;> decide
      refine ⟨p, hkind, ?_, ?_⟩
      · simp [Operand.emitZext, hassigned, hp, hplo, Operand.maskLow, hd]
      · rw [low_value_reg hv, (Cpu.read_lo s hplo).2, Cpu.read_eq_reg s hkind.1]
        simp [zeroExtend]
    | none =>
      have hkind : r.isByte = false := by
        revert hp
        cases r <;> first | exact fun _ => rfl | rintro ⟨⟩
      refine ⟨r, ⟨hkind, hrflags⟩, ?_, (low_value_reg hv _ _).symm⟩
      have hplain : i.dst.movPlain i.src.toSource = i.dst.movFrom r := by
        simp [Source.movPlain, Source.movFrom, hd, hv]
      simp [Operand.emitZext, hassigned, hp, hspill, Operand.maskLow, hd, hplain]
  obtain ⟨t, hrun, hstored⟩ := @stored_direct env s off i.dst.toSource x hd (Preg.kinds hx.2)
  rw [hx.1] at hstored
  have hbase : extRun env [.base (i.dst.movFrom x)] s = some t := (extRun_base _ _).trans hrun
  refine runs_zext hop hemit ⟨t.setReg .flags (env.extFlags (.andSlot off) t), ?_,
    done_of_stored hop hroom hd (fun _ => hfree) ?_ (hstored.flags _)⟩
  · refine (@extRun_append env s t [.base (i.dst.movFrom x)] _ hbase).trans ?_
    rw [extRun_cons (step_andSlot t off)]
    rfl
  · rw [if_pos hb]
    exact hlow

theorem zext_slotConst {c : Recipe} (hop : i.op = .zext) (hroom : i.Room s)
    (hd : i.dst.home = .slot off) (hv : i.src.home = .remat c) (hb : i.dst.isByte = true) :
    i.Runs env s := by
  have hassigned : i.dst.assigned = none ∧ i.src.assigned = none := by
    simp [Source.assigned, hd, hv]
  have hspill : i.src.isSpilled = false := by simp [Source.isSpilled, hv]
  have hemit : i.dst.emitZext i.src = [.base (.storeConst off c), .andSlot off] := by
    simp [Operand.emitZext, hassigned, hspill, Operand.maskLow, hd, hv, Source.movPlain]
  let t : Cpu := { s with stack := write true s.stack (s.slotAddr off) (c.value env.places) }
  have hstore : extStep env (.base (.storeConst off c)) s = some t := rfl
  have hlow : low (c.value env.places) =
      low (zeroExtend (low (i.src.value env.places s))) := by
    unfold Source.value
    rw [hv]
    cases i.src.isByte <;> simp [zeroExtend]
  have hwrote : Wrote i.dst.toSource (zeroExtend (low (i.src.value env.places s))) s
      (t.setReg .flags (env.extFlags (.andSlot off) t)) := by
    refine wrote_slot hd ?_ (fun _ _ => rfl) fun r hr => flags_read t _ hr
    rw [hb]
    exact write_byte_congr hlow
  refine runs_zext hop hemit ⟨_, ?_, done_of_wrote hroom hd (by rw [hop]; exact hwrote)⟩
  rw [extRun_cons hstore, extRun_cons (step_andSlot t off)]
  rfl

theorem zextSound_runs (hop : i.op = .zext) (hroom : i.Room s) (h : i.ZextSound) :
    i.Runs env s := by
  unfold ZextSound at h
  cases hd : i.dst.home with
  | remat c => exact absurd hd (i.stored c)
  | slot off =>
    rw [hd] at h
    cases hv : i.src.home with
    | slot off' =>
      rw [hv] at h
      exact zext_slots hop hroom hd hv h
    | reg r =>
      rw [hv] at h
      exact zext_slotReg hop hroom hd hv h.1 h.2.1 h.2.2
    | remat c =>
      rw [hv] at h
      exact zext_slotConst hop hroom hd hv h
  | reg q =>
    rw [hd] at h
    cases hv : i.src.home with
    | slot off' =>
      rw [hv] at h
      have hne : ∀ x, i.src.home ≠ .reg x := by
        rw [hv]
        rintro x ⟨⟩
      have hcan : i.src.CanMovTo q := by
        unfold Source.CanMovTo
        rw [hv]
        rcases h with h | h <;> simp [Preg.canLoad, h]
      cases hlo : q.aliasLo with
      | some lo => exact zext_halves hop hroom hd hlo (hne lo) fun r hr => absurd hr (hne r)
      | none => exact zext_mask hop hroom hd hlo (fun r hr => absurd hr (hne r)) h.symm hcan
    | remat c =>
      rw [hv] at h
      have hne : ∀ x, i.src.home ≠ .reg x := by
        rw [hv]
        rintro x ⟨⟩
      have hcan : i.src.CanMovTo q := by
        unfold Source.CanMovTo
        rw [hv]
        rcases h with h | h <;> simp [Preg.canConst, h]
      cases hlo : q.aliasLo with
      | some lo => exact zext_halves hop hroom hd hlo (hne lo) fun r hr => absurd hr (hne r)
      | none => exact zext_mask hop hroom hd hlo (fun r hr => absurd hr (hne r)) h.symm hcan
    | reg r =>
      rw [hv] at h
      have honly : ∀ x, i.src.home = .reg x → x = r := fun x hx => by
        rw [hv] at hx
        exact (Home.reg.inj hx).symm
      cases hlo : q.aliasLo with
      | some lo =>
        have hhalves : q.hasHalves = true := by simp [Preg.hasHalves, hlo]
        simp only [if_pos hhalves] at h
        by_cases hrlo : r = lo
        · exact zext_inPlace hop hroom hd hlo (hv.trans (congrArg Home.reg hrlo))
        · refine zext_halves hop hroom hd hlo ?_ fun x hx => honly x hx ▸ h
          rw [hv]
          exact fun heq => hrlo (Home.reg.inj heq)
      | none =>
        have hhalves : ¬q.hasHalves = true := by simp [Preg.hasHalves, hlo]
        simp only [if_neg hhalves] at h
        cases hp : r.aliasParent with
        | some p => exact zext_parent hop hroom hd hlo h hv hp
        | none =>
          obtain ⟨-, hrflags, -⟩ := i.src.reg r hv
          refine zext_mask hop hroom hd hlo (fun x hx => honly x hx ▸ hp) (.inr h) ?_
          unfold Source.CanMovTo
          rw [hv]
          rcases Preg.kinds hrflags with hr | hr | hr
          · revert hr hp
            cases r <;> rintro ⟨⟩ ⟨⟩
          · simp [Preg.canMov, h, hr]
          · simp [Preg.canMov, h, hr]

/-! ## Sign extension -/

/-- The instruction as a move. -/
def asMove (i : Extension) : Extension := { i with op := .mov }

theorem low_signExtend (b : BitVec 8) : low (signExtend b) = b := by
  unfold signExtend
  ext j hj
  have hj16 : j < 16 := by omega
  have hbit : (BitVec.signExtend 16 b)[j] = b[j] := by rw [BitVec.getElem_signExtend, dif_pos hj]
  simpa [low, hj16] using hbit

/-- After the move, `AX` has the sign of `AL` in its high half. -/
theorem runs_cbw {u : Cpu} (hop : i.op = .cbw)
    (hrun : shiftRun env.toShiftEnv (i.dst.emitMov i.src) s = some u)
    (hdone : i.Done env s (u.put .ax (signExtend (low (u.reg .ax))))) : i.Runs env s := by
  refine ⟨_, ?_, hdone⟩
  have hemit : i.emit = (i.dst.emitMov i.src).map .base ++ [.cbw] := by
    unfold emit
    rw [hop]
    rfl
  have hmove : extRun env ((i.dst.emitMov i.src).map .base) s = some u := by
    rw [extRun_base]
    exact hrun
  rw [hemit, extRun_append hmove]
  rfl

theorem put_cbw {x : Preg} {u : Cpu} (hx : x = .al ∨ x = .ax) (h : Put x w s u) :
    Put .ax (signExtend (low w)) s (u.put .ax (signExtend (low (u.reg .ax)))) := by
  have hlow : low (u.reg .ax) = low w := by
    have hvalue := congrArg low h.value
    rcases hx with rfl | rfl
    · simpa [Cpu.read, Preg.aliasParent, Preg.aliasLo, Preg.fit, Preg.isByte, zeroExtend]
        using hvalue
    · exact hvalue
  rw [hlow]
  refine ⟨Cpu.read_put_self _ _ _, fun r hf hr => ?_, ?_, fun a ha => ?_⟩
  · have hxr : pregsAlias x r = false := by
      rcases hx with rfl | rfl
      · revert hr
        cases r <;> decide
      · exact hr
    exact (Cpu.read_put_of_ne _ _ hr).trans (h.regs r hf hxr)
  · exact (Cpu.put_sp _ _ (by decide)).trans h.sp
  · rw [Cpu.put_stack]
    exact h.above a ha

/-- The byte has got to `AL`. -/
theorem runs_inAx {x : Preg} {u : Cpu} (hop : i.op = .cbw) (hroom : i.Room s)
    (hd : i.dst.home = .reg .ax) (hx : x = .al ∨ x = .ax)
    (hrun : shiftRun env.toShiftEnv (i.dst.emitMov i.src) s = some u) (hput : Put x w s u)
    (hw : low w = low (i.src.value env.places s)) : i.Runs env s := by
  refine runs_cbw hop hrun (done_of_put hroom hd (put_cbw hx hput) (fits_of_eq ?_))
  rw [hop, hw]
  rfl

theorem cbw_plain (hop : i.op = .cbw) (hroom : i.Room s) (hd : i.dst.home = .reg .ax)
    (hne : i.dst.home ≠ i.src.home)
    (hwidth : if i.dst.isByteOperand = true then ∀ r, i.src.home = .reg r → r.isWord = false
      else i.src.isByteOperand = false) (hcan : i.src.CanMovTo .ax) : i.Runs env s := by
  have hsegs : i.dst.isSeg = false := (i.dst.reg .ax hd).2.2.symm
  have hemit := (emitMov_toReg hd hne (.inl hsegs)).trans (Operand.emitMov_plain hd hne hwidth)
  have hstep : shiftStep env.toShiftEnv (.move (i.src.movTo .ax)) s =
      some (s.put .ax (i.src.operand env.places false s)) := moveStep_movTo hcan s
  refine runs_inAx hop hroom hd (.inr rfl) ?_ (put_put (by decide) _ s) (low_operand _ _ false s)
  rw [hemit]
  exact shiftRun_cons hstep

theorem cbw_half (hop : i.op = .cbw) (hroom : i.Room s) (hd : i.dst.home = .reg .ax)
    (hne : i.dst.home ≠ i.src.home) (hb : i.dst.isByteOperand = false)
    (hvb : i.src.isByteOperand = true) (hcan : i.src.CanMovTo .al) : i.Runs env s := by
  have hsegs : i.dst.isSeg = false := (i.dst.reg .ax hd).2.2.symm
  have hemit := (emitMov_toReg hd hne (.inl hsegs)).trans
    (Operand.emitMov_half hd hne hb hvb rfl)
  have hstep : shiftStep env.toShiftEnv (.move (i.src.movTo .al)) s =
      some (s.put .al (i.src.operand env.places true s)) := moveStep_movTo hcan s
  refine runs_inAx hop hroom hd (.inl rfl) ?_ (put_put (by decide) _ s) (low_operand _ _ true s)
  rw [hemit]
  exact shiftRun_cons hstep

theorem cbw_inAx (hop : i.op = .cbw) (hroom : i.Room s) (hd : i.dst.home = .reg .ax)
    (h : i.src.home = .reg .ax ∨
      match i.src.home with
      | .reg r => r.isSegment = true ∨
          (i.dst.isByte = false ∧ (r.isByte = true ∨ i.src.isByte = false))
      | _ => True) : i.Runs env s := by
  by_cases hsame : i.dst.home = i.src.home
  · have hv := hsame.symm.trans hd
    have hemit : i.dst.emitMov i.src = [] := by simp [Operand.emitMov, hd, hv]
    refine runs_inAx hop hroom hd (.inr rfl) ?_ (put_refl (Cpu.fit_read s .ax).symm)
      (low_value_reg hv _ _).symm
    rw [hemit]
    rfl
  replace h := h.resolve_left fun hv => hsame (hd.trans hv.symm)
  have hoperand : i.dst.isByteOperand = i.dst.isByte :=
    (isByteOperand_reg hd).trans (Bool.or_false _)
  cases hv : i.src.home with
  | reg r =>
    rw [hv] at h
    obtain ⟨hrsp, hrflags, hrseg⟩ := i.src.reg r hv
    have honly : ∀ x, i.src.home = .reg x → x = r := fun x hx => by
      rw [hv] at hx
      exact (Home.reg.inj hx).symm
    have hvoperand : i.src.isByteOperand = (i.src.isByte || r.isByte) := by
      simp [Source.isByteOperand, Source.assigned, hv]
    have hcan : ∀ q : Preg, q.canMov r = true → i.src.CanMovTo q := fun q hmov => by
      unfold Source.CanMovTo
      rw [hv]
      exact hmov
    rcases h with hr | ⟨hb, h⟩
    · have hvb := i.src.seg_word (hrseg.symm.trans hr)
      refine cbw_plain hop hroom hd hsame ?_ (hcan .ax (by revert hr; cases r <;> decide))
      split_ifs
      · intro x hx
        obtain rfl := honly x hx
        revert hr
        cases x <;> decide
      · rw [hvoperand, hvb, Preg.not_byte_of_segment hr]
        rfl
    · cases hr : r.isByte with
      | true =>
        refine cbw_half hop hroom hd hsame (hoperand.trans hb) ?_
          (hcan .al (by revert hr; cases r <;> decide))
        rw [hvoperand, hr, Bool.or_true]
      | false =>
        have hvb := h.resolve_left (by simp [hr])
        refine cbw_plain hop hroom hd hsame ?_
          (hcan .ax (by revert hr hrflags; cases r <;> decide))
        rw [if_neg (by rw [hoperand, hb]; decide), hvoperand, hvb, hr]
        rfl
  | slot off =>
    have hvoperand : i.src.isByteOperand = i.src.isByte := by
      simp [Source.isByteOperand, Source.assigned, hv]
    have hcan : i.src.CanMovTo .ax ∧ i.src.CanMovTo .al := by
      unfold Source.CanMovTo
      rw [hv]
      exact ⟨rfl, rfl⟩
    by_cases hwidth : i.dst.isByteOperand = true ∨ i.src.isByteOperand = false
    · refine cbw_plain hop hroom hd hsame ?_ hcan.1
      split_ifs with hb
      · intro x hx
        rw [hv] at hx
        cases hx
      · exact hwidth.resolve_left hb
    · obtain ⟨hb, hvb⟩ := not_or.mp hwidth
      exact cbw_half hop hroom hd hsame (by simpa using hb) (by simpa using hvb) hcan.2
  | remat c =>
    have hcan : i.src.CanMovTo .ax ∧ i.src.CanMovTo .al := by
      unfold Source.CanMovTo
      rw [hv]
      exact ⟨rfl, rfl⟩
    by_cases hwidth : i.dst.isByteOperand = true ∨ i.src.isByteOperand = false
    · refine cbw_plain hop hroom hd hsame ?_ hcan.1
      split_ifs with hb
      · intro x hx
        rw [hv] at hx
        cases hx
      · exact hwidth.resolve_left hb
    · obtain ⟨hb, hvb⟩ := not_or.mp hwidth
      exact cbw_half hop hroom hd hsame (by simpa using hb) (by simpa using hvb) hcan.2

/-- The byte is the result already, and `AH` is not needed. -/
theorem cbw_elsewhere (hop : i.op = .cbw) (hroom : i.Room s) (hne : i.dst.home ≠ .reg .ax)
    (hmove : i.MoveSound) (hbyte : i.dst.isByteOperand = true) (hah : i.dst.home ≠ .reg .ah)
    (hlive : ∀ r ∈ i.liveAfter, i.dst.Spares r → pregsAlias .ah r = false) : i.Runs env s := by
  obtain ⟨u, hrun, hdone⟩ : i.asMove.Moves env s := moveSound_moves rfl hroom hmove
  -- `AL` stays as it is
  have hread : ∀ r, pregsAlias .ah r = false →
      (u.put .ax (signExtend (low (u.reg .ax)))).read r = u.read r := by
    intro r hr
    by_cases hal : r = .al
    · subst hal
      simp [Cpu.read, Cpu.put, Preg.aliasParent, Preg.aliasLo, low_signExtend]
    · refine Cpu.read_put_of_ne _ _ ?_
      revert hr hal
      cases r <;> decide
  have hvalue : low (i.op.result (i.src.value env.places s)) = low (i.src.value env.places s) := by
    rw [hop]
    exact low_signExtend _
  refine runs_cbw hop hrun ⟨?_, fun r hr hf hspare => ?_, fun off hoff hout => ?_, ?_⟩
  · have hholds := hdone.holds
    unfold Source.Holds at hholds ⊢
    cases hd : i.dst.home with
    | remat c => exact absurd hd (i.stored c)
    | reg q =>
      have hq : pregsAlias .ah q = false := by
        rw [hd] at hne hah
        have hax : q ≠ .ax := fun h => hne (congrArg Home.reg h)
        have hah' : q ≠ .ah := fun h => hah (congrArg Home.reg h)
        revert hax hah'
        cases q <;> decide
      have hoperand := isByteOperand_reg hd
      rw [hbyte] at hoperand
      have hd' : i.asMove.dst.home = .reg q := hd
      rw [hd'] at hholds
      simp only [hread q hq] at hholds ⊢
      have hmoved : i.asMove.op.result (i.asMove.src.value env.places s) =
          i.src.value env.places s := rfl
      rw [hmoved] at hholds
      by_cases hb : i.dst.isByte = true
      · have hb' : i.asMove.dst.isByte = true := hb
        rw [if_pos hb'] at hholds
        rw [if_pos hb, hvalue]
        exact hholds
      · have hb' : ¬i.asMove.dst.isByte = true := hb
        have hqb : q.isByte = true := by simpa [hb] using hoperand.symm
        rw [if_neg hb'] at hholds
        rw [if_neg hb, hholds, Preg.fit_of_byte hqb, Preg.fit_of_byte hqb, hvalue]
    | slot off =>
      have hoperand : i.dst.isByteOperand = i.dst.isByte := by
        simp [Source.isByteOperand, Source.assigned, hd]
      have hb := hoperand.symm.trans hbyte
      have hd' : i.asMove.dst.home = .slot off := hd
      rw [hd'] at hholds
      unfold Source.Has at hholds ⊢
      rw [hd'] at hholds
      rw [hd]
      have hb' : i.asMove.dst.isByte = true := hb
      simp only [if_pos hb'] at hholds
      simp only [if_pos hb]
      rw [Cpu.put_stack, hvalue]
      exact hholds
  · rw [hread r (hlive r hr hspare)]
    exact hdone.kept r hr hf hspare
  · rw [Cpu.put_stack]
    exact hdone.bytes off hoff hout
  · exact (Cpu.put_sp _ _ (by decide)).trans hdone.sp

end Extension

/-- A vreg in a register that is no segment register. -/
def Operand.inReg (r : Preg) (byte : Bool) (h : r ≠ .sp ∧ r ≠ .flags ∧ r.isSegment = false) :
    Operand where
  isByte := byte
  home := .reg r
  isSeg := false
  seg_word := nofun
  reg := fun _ hr => Home.reg.inj hr ▸ h
  remat := nofun

theorem Operand.inReg_stored (r : Preg) (byte : Bool)
    (h : r ≠ .sp ∧ r ≠ .flags ∧ r.isSegment = false) :
    ∀ c, (Operand.inReg r byte h).home ≠ .remat c := by
  rintro c ⟨⟩

/-- A register that a vreg can be in. -/
def Preg.IsGeneral (r : Preg) : Prop := r ≠ .sp ∧ r ≠ .flags ∧ r.isSegment = false

instance (r : Preg) : Decidable r.IsGeneral := inferInstanceAs (Decidable (_ ∧ _))

theorem Preg.ax_general : Preg.ax.IsGeneral := by decide

theorem Preg.cx_general : Preg.cx.IsGeneral := by decide

theorem Preg.bx_general : Preg.bx.IsGeneral := by decide

theorem Preg.si_general : Preg.si.IsGeneral := by decide

theorem Preg.di_general : Preg.di.IsGeneral := by decide

theorem Preg.ah_general : Preg.ah.IsGeneral := by decide

theorem Preg.dl_general : Preg.dl.IsGeneral := by decide

/-- `SI` gets the byte in `BH`, while `AX` and `BX` are in use. -/
def highToIndex : Extension where
  op := .zext
  dst := .inReg .si false (by decide)
  src := .inReg .bh true (by decide)
  stored := nofun
  liveAfter := [.ax, .bx]

/-- `AX` gets the byte in `AH`: it is cleared before its high half is read. -/
def highToAx : Extension where
  op := .zext
  dst := .inReg .ax false (by decide)
  src := .inReg .ah true (by decide)
  stored := nofun

end Nib.Bind
