import Mathlib
import Nib.Bind.Spec.Alu
import Nib.Bind.Properties.PortIo

/-!
# Three-address arithmetic

* `keepsFlags_operand` — a move that does not widen leaves the flags alone
* `Ready.apply` — the operation, once its first operand is in the destination
* `alu_carried` — the result arrives, and whatever is live is kept
-/

namespace Nib.Bind

open Nib.Infra

variable {i : Alu} {env : AluEnv} {s t u : Cpu} {a a' b b' w w' f f' : Word} {p q r : Preg}
  {o : AluOp} {d v : Operand}

/-! ## Runs -/

theorem aluRun_runs (env : AluEnv) : RunsBy (aluStep env) (aluRun env) :=
  ⟨fun _ => rfl, fun _ _ _ => rfl⟩

theorem aluRun_cons {j : AluInsn} {is : List AluInsn} (h : aluStep env j s = some t) :
    aluRun env (j :: is) s = aluRun env is t :=
  (aluRun_runs env).head h

theorem aluRun_append {is js : List AluInsn} (h : aluRun env is s = some t) :
    aluRun env (is ++ js) s = aluRun env js t :=
  (aluRun_runs env).append h

theorem aluRun_base (is : List ShiftInsn) (s : Cpu) :
    aluRun env (is.map .base) s = shiftRun env.toShiftEnv is s :=
  congrFun ((aluRun_runs env).map (shiftRun_runs env.toShiftEnv) (fun _ => rfl) is) s

/-! ## Moves and the flags -/

/-- It leaves the flags. -/
def ShiftInsn.KeepsFlags : ShiftInsn → Prop
  | .move m => m.KeepsFlags
  | .shift .. | .shiftSlot .. => False
  | _ => True

theorem shiftStep_flags {e : ShiftEnv} {j : ShiftInsn} (hj : j.KeepsFlags)
    (h : shiftStep e j s = some t) : t.reg .flags = s.reg .flags := by
  cases j with
  | move m => exact moveStep_flags hj h
  | xchg r =>
    obtain ⟨hword, h⟩ := Option.ite_none_right_eq_some.mp h
    cases h
    have hr : r ≠ .flags := by
      rintro rfl
      cases hword
    exact (setReg_flags _ _ hr).trans (setReg_flags s _ (by decide))
  | storeConst off c =>
    cases h
    rfl
  | shift | shiftSlot => cases hj
  | bad => cases h

theorem shiftRun_flags {e : ShiftEnv} {is : List ShiftInsn} (his : ∀ j ∈ is, j.KeepsFlags)
    (h : shiftRun e is s = some t) : t.reg .flags = s.reg .flags :=
  (shiftRun_runs e).keeps (·.reg .flags) (fun j hj => shiftStep_flags (his j hj)) h

theorem keepsFlags_movFrom (d : Source) (p : Preg) : (d.movFrom p).KeepsFlags := by
  unfold Source.movFrom
  cases d.home <;> trivial

theorem keepsFlags_pushed (v : Source) : v.pushed.KeepsFlags := by
  unfold Source.pushed
  cases v.home <;> trivial

theorem keepsFlags_popTo (d : Source) : d.popTo.KeepsFlags := by
  unfold Source.popTo
  cases d.home <;> trivial

theorem keepsFlags_movPlain (d v : Source) : (d.movPlain v).KeepsFlags := by
  unfold Source.movPlain
  cases d.home with
  | reg q => exact movTo_keepsFlags v q
  | slot off => cases v.home <;> trivial
  | remat c => trivial

/-- Only a byte that becomes a word is widened by arithmetic. -/
theorem keepsFlags_emitMov {d v : Source} (h : v.isByteOperand = true → d.isByteOperand = true) :
    ∀ j ∈ emitMov d v, j.KeepsFlags := by
  have hwiden : (d.assigned.filter fun _ => !d.isByteOperand && v.isByteOperand) = none := by
    cases hv : v.isByteOperand with
    | false => simp
    | true => simp [h hv]
  have hmovTo := movTo_keepsFlags v
  have hmovFrom := keepsFlags_movFrom d
  have hpushed := keepsFlags_pushed v
  have hpopTo := keepsFlags_popTo d
  have hplain := keepsFlags_movPlain d v
  intro j hj
  unfold emitMov at hj
  simp only [hwiden] at hj
  split at hj
  · cases hj
  split at hj
  · cases hj
  split at hj
  · split at hj
    · simp only [List.mem_cons, List.not_mem_nil, or_false] at hj
      rcases hj with rfl | rfl | rfl | rfl <;> first | trivial | exact hmovTo _ | exact hmovFrom _
    · simp only [List.mem_cons, List.not_mem_nil, or_false] at hj
      rcases hj with rfl | rfl
      · exact hpushed
      · exact hpopTo
  split at hj
  · split at hj
    · split at hj
      · cases hj
      · rw [List.mem_singleton.mp hj]
        exact hmovFrom _
    · split at hj
      · rw [List.mem_singleton.mp hj]
        trivial
      · simp only [List.mem_cons, List.not_mem_nil, or_false] at hj
        rcases hj with rfl | rfl | rfl <;> first | trivial | exact hmovFrom _
  · rw [List.mem_singleton.mp hj]
    exact hplain

theorem keepsFlags_operand (h : v.isByteOperand = true → d.isByteOperand = true) :
    ∀ j ∈ d.emitMov v, j.KeepsFlags := by
  intro j hj
  unfold Operand.emitMov at hj
  split at hj
  · cases hj
  · split_ifs at hj
    · cases hj
    · exact keepsFlags_emitMov h j hj
    · simp only [List.mem_cons, List.not_mem_nil, or_false] at hj
      rcases hj with rfl | rfl | rfl | rfl
      · trivial
      · exact movTo_keepsFlags _ _
      · exact keepsFlags_movFrom _ _
      · trivial
    · exact keepsFlags_emitMov h j hj

/-! ## Results -/

theorem low_eq_iff : low a = low b ↔ a.toNat % 256 = b.toNat % 256 := by
  unfold low
  rw [← BitVec.toNat_inj]
  simp

theorem low_add_congr (ha : low a = low a') (hb : low b = low b') :
    low (a + b) = low (a' + b') := by
  rw [low_eq_iff] at *
  rw [BitVec.toNat_add, BitVec.toNat_add]
  omega

theorem low_sub_congr (ha : low a = low a') (hb : low b = low b') :
    low (a - b) = low (a' - b') := by
  rw [low_eq_iff] at *
  rw [BitVec.toNat_sub, BitVec.toNat_sub]
  omega

theorem setReg_sp (s : Cpu) (f : Word) : (s.setReg .flags f).sp = s.sp := rfl

/-- Values that are the same for a vreg. -/
def Operand.Agrees (d : Operand) (w w' : Word) : Prop :=
  if d.isByte = true then low w = low w' else w = w'

theorem Operand.Agrees.refl (d : Operand) (w : Word) : d.Agrees w w := by
  unfold Operand.Agrees
  split_ifs <;> rfl

theorem holds_congr (h : d.Agrees w w') (hd : d.Holds w s t) : d.Holds w' s t := by
  unfold Operand.Agrees at h
  unfold Source.Holds at hd ⊢
  cases hhome : d.home with
  | remat c =>
    rw [hhome] at hd
    exact hd
  | reg q =>
    rw [hhome] at hd
    by_cases hbyte : d.isByte = true
    · simp only [if_pos hbyte] at h hd ⊢
      rw [hd, h]
    · simp only [if_neg hbyte] at h hd ⊢
      rw [hd, h]
  | slot off =>
    rw [hhome] at hd
    unfold Source.Has at hd ⊢
    rw [hhome] at hd ⊢
    by_cases hbyte : d.isByte = true
    · simp only [if_pos hbyte] at h hd ⊢
      rw [hd, h]
    · simp only [if_neg hbyte] at h hd ⊢
      rw [hd, h]

/-- But for shifts, the low byte of the result depends on low bytes only. -/
theorem low_result (byte byte' : Bool) (ho : o.isShiftOp = false) (ha : low a = low a')
    (hb : low b = low b') : low (env.result byte a b f o) = low (env.result byte' a' b' f o) := by
  cases o with
  | add => exact low_add_congr ha hb
  | adc => exact low_add_congr (low_add_congr ha hb) rfl
  | sub => exact low_sub_congr ha hb
  | sbb => exact low_sub_congr (low_sub_congr ha hb) rfl
  | and =>
    unfold low at *
    simp only [AluEnv.result, BitVec.setWidth_and, ha, hb]
  | or =>
    unfold low at *
    simp only [AluEnv.result, BitVec.setWidth_or, ha, hb]
  | xor =>
    unfold low at *
    simp only [AluEnv.result, BitVec.setWidth_xor, ha, hb]
  | shift op => cases ho

theorem result_flags (byte : Bool) (hf : o.usesCarry = true → f = f') :
    env.result byte a b f o = env.result byte a b f' o := by
  cases o with
  | adc | sbb => rw [hf rfl]
  | add | sub | and | or | xor => rfl
  | shift op =>
    by_cases hop : op = "rcl" ∨ op = "rcr"
    · rw [hf (by simpa [AluOp.usesCarry] using hop)]
    · rw [not_or] at hop
      exact env.flagless op hop.1 hop.2 byte a b f f'

theorem result_comm (byte : Bool) (ho : o.commutes = true) :
    env.result byte a b f o = env.result byte b a f o := by
  cases o with
  | add => exact BitVec.add_comm a b
  | adc => exact congrArg (· + carry f) (BitVec.add_comm a b)
  | and => exact BitVec.and_comm a b
  | or => exact BitVec.or_comm a b
  | xor => exact BitVec.xor_comm a b
  | sub | sbb | shift => cases ho

/-! ## The operation -/

namespace Alu

theorem acc_ne_sp : i.acc ≠ .sp := accOf_ne_sp i.dst.isByte

theorem acc_apart_bp : pregsAlias i.acc .bp = false := accOf_apart_bp i.dst.isByte

theorem acc_apart_flags : pregsAlias i.acc .flags = false := accOf_apart_flags i.dst.isByte

theorem acc_isByte : i.acc.isByte = i.dst.isByte := accOf_isByte i.dst.isByte

/-- The destination has this value, and all else that is needed is as in `s`. -/
structure Left (i : Alu) (w : Word) (s t : Cpu) : Prop where
  holds : i.dst.Holds w s t
  kept : ∀ r ∈ i.liveAfter, r ≠ .flags → i.dst.Spares r → t.read r = s.read r
  bytes : ∀ off ∈ i.liveBytes, i.dst.Outside s (s.slotAddr off) →
    t.stack (s.slotAddr off) = s.stack (s.slotAddr off)
  sp : t.sp = s.sp

/-- The first operand is in the destination. -/
structure Ready (i : Alu) (a : Word) (s u : Cpu) : Prop extends Left i a s u where
  bp : ∀ off, i.dst.home = .slot off → u.reg .bp = s.reg .bp
  flags : i.op.usesCarry = true → u.reg .flags = s.reg .flags

theorem agrees_result {byte : Bool} (hf : i.op.usesCarry = true → f = s.reg .flags)
    (hword : i.dst.isByte = false → byte = false)
    (hshift : i.op.isShiftOp = true → byte = i.dst.isByte ∧ b' = b ∧
      (i.dst.isByte = true → a' = zeroExtend (low a)))
    (ha : i.dst.Agrees a' a) (hb : i.dst.Agrees b' b) :
    i.dst.Agrees (env.result byte a' b' f i.op) (i.resultOf env s a b) := by
  unfold resultOf
  rw [result_flags byte hf]
  unfold Operand.Agrees at *
  by_cases hd : i.dst.isByte = true
  · simp only [if_pos hd] at ha hb ⊢
    by_cases ho : i.op.isShiftOp = true
    · obtain ⟨hbyte, hbb, haa⟩ := hshift ho
      rw [hbyte, hbb, haa hd]
    · have hlow : low a' = low (zeroExtend (low a)) := by
        rw [ha]
        simp [zeroExtend]
      exact low_result _ _ (by simpa using ho) hlow hb
  · have hfalse : i.dst.isByte = false := by simpa using hd
    simp only [if_neg hd] at ha hb ⊢
    rw [hword hfalse, hfalse, ha, hb]

/-- The operation is carried out on the destination. -/
theorem Ready.apply (h : i.Ready a s u) (hdst : i.DstSound) {src : AluSrc} {word : Bool}
    (hreg : ∀ q, i.dst.home = .reg q → src.besideReg i.op q = true)
    (hslot : ∀ off, i.dst.home = .slot off →
      src.besideSlot i.op = true ∧ src.byteSlot i.op word = i.dst.isByte)
    (hsrc : ∀ byte, (i.dst.isByte = false → byte = false) →
      (i.op.isShiftOp = true → byte = i.dst.isByte) →
      i.dst.Agrees (src.value env.places i.op byte u) b ∧
        (i.op.isShiftOp = true → src.value env.places i.op byte u = b)) :
    ∃ t, aluStep env (i.apply word src) u = some t ∧ i.Left (i.resultOf env s a b) s t := by
  have hholds := h.holds
  unfold Source.Holds at hholds
  unfold Alu.apply
  cases hd : i.dst.home with
  | remat c => exact absurd hd (i.stored c)
  | reg q =>
    rw [hd] at hholds
    obtain ⟨hkind, hbyteq, hshiftq⟩ := hdst q hd
    obtain ⟨hqsp, hqflags, -⟩ := i.dst.reg q hd
    have hword : i.dst.isByte = false → q.isByte = false := by
      intro hb
      cases hq : q.isByte with
      | false => rfl
      | true =>
        rw [hbyteq hq] at hb
        cases hb
    have hwidth : i.op.isShiftOp = true → q.isByte = i.dst.isByte := by
      intro ho
      cases hb : i.dst.isByte with
      | true => exact hshiftq ho hb
      | false => exact hword hb
    obtain ⟨hb, hbshift⟩ := hsrc q.isByte hword hwidth
    have ha : i.dst.Agrees (u.read q) a := by
      unfold Operand.Agrees
      by_cases hb : i.dst.isByte = true
      · simpa only [if_pos hb] using hholds
      · simp only [if_neg hb] at hholds ⊢
        rw [hholds, Preg.fit_of_not_byte (hword (by simpa using hb))]
    have hbyte : i.op.isShiftOp = true → i.dst.isByte = true → u.read q = zeroExtend (low a) := by
      intro ho hb
      simp only [if_pos hb] at hholds
      rw [← hholds, ← Preg.fit_of_byte (hshiftq ho hb), Cpu.fit_read]
    have hagrees := @agrees_result i env s a _ b _ _ _ h.flags hword
      (fun ho => ⟨hwidth ho, hbshift ho, hbyte ho⟩) ha hb
    have hcond : ((q.isByte || q.isWord) && src.besideReg i.op q) = true := by
      rw [hreg q hd, Bool.and_true, Bool.or_eq_true]
      exact hkind
    refine ⟨_, if_pos hcond, holds_congr hagrees ?_, fun r hr hf hspares => ?_,
      fun k hk hout => ?_, ?_⟩
    · unfold Source.Holds
      rw [hd]
      have hread := (Extension.flags_read (u.put q (env.result q.isByte (u.read q)
        (src.value env.places i.op q.isByte u) (u.reg .flags) i.op))
        (env.aluFlags i.op q.isByte (u.read q) (src.value env.places i.op q.isByte u)
        (u.reg .flags)) hqflags).trans (Cpu.read_put_self u q _)
      by_cases hb : i.dst.isByte = true
      · simp only [if_pos hb]
        rw [hread, Preg.low_fit]
      · simp only [if_neg hb]
        exact hread
    · exact (Extension.flags_read _ _ hf).trans ((Cpu.read_put_of_ne _ _ (hspares q hd)).trans
        (h.kept r hr hf hspares))
    · rw [Cpu.setReg_stack, Cpu.put_stack]
      exact h.bytes k hk hout
    · exact (setReg_sp _ _).trans ((Cpu.put_sp u _ hqsp).trans h.sp)
  | slot off =>
    rw [hd] at hholds
    unfold Source.Has at hholds
    rw [hd] at hholds
    obtain ⟨hcond, hbyte⟩ := hslot off hd
    have haddr : u.slotAddr off = s.slotAddr off := slotAddr_congr (h.bp off hd) off
    obtain ⟨hb, hbshift⟩ := hsrc i.dst.isByte id fun _ => rfl
    have hread : u.readSlot i.dst.isByte off = if i.dst.isByte then zeroExtend (low a) else a := by
      unfold Cpu.readSlot
      rw [haddr]
      by_cases hb : i.dst.isByte = true
      · simp only [if_pos hb] at hholds ⊢
        rw [hholds]
      · simp only [if_neg hb] at hholds ⊢
        exact hholds
    have ha : i.dst.Agrees (u.readSlot i.dst.isByte off) a := by
      unfold Operand.Agrees
      rw [hread]
      split_ifs
      · simp [zeroExtend]
      · rfl
    have hagrees := @agrees_result i env s a _ b _ _ _ h.flags id
      (fun ho => ⟨rfl, hbshift ho, fun hb => by rw [hread, if_pos hb]⟩) ha hb
    refine ⟨_, if_pos hcond, holds_congr hagrees ?_, fun r hr hf hspares => ?_,
      fun k hk hout => ?_, ?_⟩
    · unfold Source.Holds
      rw [hd]
      show i.dst.Has _ s _
      unfold Source.Has
      rw [hd, hbyte]
      dsimp only
      rw [← haddr]
      exact holds_write _ _ _ _
    · exact (Extension.flags_read u _ hf).trans (h.kept r hr hf hspares)
    · obtain ⟨h0, h1⟩ := hout off hd
      refine (write_of_notMem ?_ _ _).trans (h.bytes k hk hout)
      rw [hbyte, haddr]
      rintro (heq | ⟨hword, heq⟩)
      · exact h0 heq
      · exact h1 hword heq
    · exact h.sp

/-! ## The operands before the operation -/

/-- A vreg that is as it was. -/
structure Stays (v : Operand) (s u : Cpu) : Prop where
  reg : ∀ r, v.home = .reg r → u.read r = s.read r
  addr : ∀ off, v.home = .slot off → u.slotAddr off = s.slotAddr off
  low : ∀ off, v.home = .slot off → u.stack (s.slotAddr off) = s.stack (s.slotAddr off)
  high : ∀ off, v.home = .slot off → v.isByte = false →
    u.stack (s.slotAddr off + 1) = s.stack (s.slotAddr off + 1)

theorem stays_refl (v : Operand) (s : Cpu) : Stays v s s where
  reg := fun _ _ => rfl
  addr := fun _ _ => rfl
  low := fun _ _ => rfl
  high := fun _ _ _ => rfl

theorem agrees_operand {byte : Bool} (pl : Addresses) (hstays : Stays v s u)
    (hfit : d.isByte = true ∨ PortIo.WordOperand v) (hword : d.isByte = false → byte = false) :
    d.Agrees (v.operand pl byte u) (v.value pl s) := by
  unfold Operand.Agrees
  by_cases hb : d.isByte = true
  · rw [if_pos hb, ← low_operand pl v.toSource byte s]
    unfold Source.operand
    cases hv : v.home with
    | reg r =>
      show low (u.read r) = low (s.read r)
      rw [hstays.reg r hv]
    | slot off =>
      show low (u.readSlot byte off) = low (s.readSlot byte off)
      rw [low_readSlot, low_readSlot, hstays.addr off hv, hstays.low off hv]
    | remat c => rfl
  · have hd : d.isByte = false := by simpa using hb
    have hv := hfit.resolve_left hb
    rw [if_neg hb, hword hd, ← wordOperand_value hv]
    unfold Source.operand
    cases hhome : v.home with
    | reg r => exact hstays.reg r hhome
    | slot off =>
      have hbyte : v.isByte = false := by
        unfold PortIo.WordOperand at hv
        rw [hhome] at hv
        exact hv
      show u.readSlot false off = s.readSlot false off
      simp only [Cpu.readSlot, readWord, hstays.addr off hhome, hstays.low off hhome,
        hstays.high off hhome hbyte]
    | remat c => rfl

theorem asSrc_value {byte : Bool} (pl : Addresses) (ho : o.isShiftOp = false) (v : Operand)
    (u : Cpu) : v.asSrc.value pl o byte u = v.operand pl byte u := by
  unfold Source.asSrc Source.operand
  cases v.home with
  | reg r => rfl
  | slot off => rfl
  | remat c =>
    show (if o.isShiftOp = true then _ else _) = _
    rw [ho]
    rfl

/-- The accumulator is written on the way. -/
theorem Ready.put (h : i.Ready a s u) (hfree : i.AccFree) (hspares : i.dst.Spares i.acc)
    (x : Word) : i.Ready a s (u.put i.acc x) where
  holds := by
    have hholds := h.holds
    unfold Source.Holds at hholds ⊢
    cases hd : i.dst.home with
    | remat c =>
      rw [hd] at hholds
      exact hholds
    | slot off =>
      rw [hd] at hholds
      unfold Source.Has at hholds ⊢
      rw [hd] at hholds ⊢
      dsimp only at hholds ⊢
      rw [Cpu.put_stack]
      exact hholds
    | reg q =>
      rw [hd] at hholds
      have hq : pregsAlias i.acc q = false := by
        rw [pregsAlias_comm]
        exact hspares q hd
      have hread := Cpu.read_put_of_ne u x hq
      by_cases hb : i.dst.isByte = true
      · simp only [if_pos hb] at hholds ⊢
        rw [hread, hholds]
      · simp only [if_neg hb] at hholds ⊢
        rw [hread, hholds]
  kept := fun r hr hf hr' => (Cpu.read_put_of_ne u x (hfree r hr hr')).trans (h.kept r hr hf hr')
  bytes := fun k hk hout => by
    rw [Cpu.put_stack]
    exact h.bytes k hk hout
  sp := (Cpu.put_sp u x acc_ne_sp).trans h.sp
  bp := fun off hd => (Cpu.read_put_of_ne u x acc_apart_bp).trans (h.bp off hd)
  flags := fun hc => (Cpu.read_put_of_ne u x acc_apart_flags).trans (h.flags hc)

/-- An operand in memory goes through the accumulator. -/
theorem Ready.throughAcc {off : Int} (h : i.Ready a s u) (hdst : i.DstSound)
    (ho : i.op.isShiftOp = false) (hv : v.home = .slot off) (hstays : Stays v s u)
    (hfit : i.dst.isByte = true ∨ v.isByte = false) (hfree : i.AccFree)
    (hspares : i.dst.Spares i.acc) (hwidth : ∀ q, i.dst.home = .reg q → q.isByte = i.dst.isByte) :
    ∃ t, aluRun env [.base (.move (v.movTo i.acc)), i.apply false (.reg i.acc)] u = some t ∧
      i.Left (i.resultOf env s a (v.value env.places s)) s t := by
  have hcan : v.CanMovTo i.acc := by
    unfold Source.CanMovTo
    rw [hv]
    unfold Alu.acc
    split_ifs <;> rfl
  have hload : aluStep env (.base (.move (v.movTo i.acc))) u =
      some (u.put i.acc (v.operand env.places i.acc.isByte u)) := moveStep_movTo hcan u
  have hacc := h.put hfree hspares (v.operand env.places i.acc.isByte u)
  have hword : i.dst.isByte = true ∨ PortIo.WordOperand v := by
    refine hfit.imp_right fun hb => ?_
    unfold PortIo.WordOperand
    rw [hv]
    exact hb
  have hoperand := @agrees_operand s u i.dst v i.acc.isByte env.places hstays hword
    fun hb => acc_isByte.trans hb
  have hkind : (i.acc.isByte || i.acc.isWord) = true := accOf_kind i.dst.isByte
  have hreg : ∀ q, i.dst.home = .reg q → (AluSrc.reg i.acc).besideReg i.op q = true := by
    intro q hd
    show (if i.op.isShiftOp = true then _ else _) = true
    rw [ho, hwidth q hd, ← acc_isByte]
    simpa using hkind
  have hslot : ∀ off', i.dst.home = .slot off' → (AluSrc.reg i.acc).besideSlot i.op = true ∧
      (AluSrc.reg i.acc).byteSlot i.op false = i.dst.isByte := by
    intro off' _
    refine ⟨?_, ?_⟩
    · show (if i.op.isShiftOp = true then _ else _) = true
      rw [ho]
      exact hkind
    · show (if i.op.isShiftOp = true then _ else _) = _
      rw [ho]
      exact acc_isByte
  have hvalue : i.dst.Agrees ((u.put i.acc (v.operand env.places i.acc.isByte u)).read i.acc)
      (v.value env.places s) := by
    rw [Cpu.read_put_self]
    unfold Operand.Agrees at hoperand ⊢
    by_cases hb : i.dst.isByte = true
    · simp only [if_pos hb] at hoperand ⊢
      rw [Preg.low_fit, hoperand]
    · simp only [if_neg hb] at hoperand ⊢
      have hbyte : i.acc.isByte = false := by
        rw [acc_isByte]
        simpa using hb
      rw [Preg.fit_of_not_byte hbyte, hoperand]
  obtain ⟨t, hstep, hleft⟩ := @Ready.apply i env s _ a (v.value env.places s) hacc hdst
    (.reg i.acc) false hreg hslot fun _ _ _ => ⟨hvalue, fun hs => by rw [ho] at hs; cases hs⟩
  exact ⟨t, (aluRun_cons hload).trans ((aluRun_cons hstep).trans rfl), hleft⟩

/-- An operand that the instruction takes as it is. -/
theorem Ready.direct (h : i.Ready a s u) (hdst : i.DstSound) (ho : i.op.isShiftOp = false)
    (hstays : Stays v s u) (hfits : i.Fits v)
    (hmem : ¬((∃ off, i.dst.home = .slot off) ∧ ∃ off, v.home = .slot off)) :
    ∃ t, aluRun env [i.apply false v.asSrc] u = some t ∧
      i.Left (i.resultOf env s a (v.value env.places s)) s t := by
  obtain ⟨hfit, hkinds⟩ := hfits
  have hreg : ∀ q, i.dst.home = .reg q → v.asSrc.besideReg i.op q = true := by
    intro q hd
    unfold Source.asSrc
    cases hv : v.home with
    | reg r =>
      rw [hd, hv] at hkinds
      obtain ⟨hbyte, hkind⟩ := hkinds
      show (if i.op.isShiftOp = true then _ else _) = true
      rw [ho, hbyte]
      rw [hbyte] at hkind
      simpa using hkind
    | slot off => simp [AluSrc.besideReg, ho]
    | remat c => rfl
  have hslot : ∀ off, i.dst.home = .slot off → v.asSrc.besideSlot i.op = true ∧
      v.asSrc.byteSlot i.op false = i.dst.isByte := by
    intro off hd
    unfold Source.asSrc
    cases hv : v.home with
    | reg r =>
      rw [hd, hv] at hkinds
      obtain ⟨hbyte, hkind⟩ := hkinds
      refine ⟨?_, ?_⟩
      · show (if i.op.isShiftOp = true then _ else _) = true
        rw [ho]
        simpa using hkind
      · show (if i.op.isShiftOp = true then _ else _) = _
        rw [ho]
        exact hbyte
    | slot off' => exact absurd ⟨⟨off, hd⟩, off', hv⟩ hmem
    | remat c =>
      rw [hd, hv] at hkinds
      have hkinds : i.dst.isByte = true := hkinds
      exact ⟨rfl, hkinds.symm⟩
  obtain ⟨t, hstep, hleft⟩ := @Ready.apply i env s _ a (v.value env.places s) h hdst v.asSrc false
    hreg hslot fun byte hword _ => ⟨by
      rw [asSrc_value env.places ho]
      exact agrees_operand env.places hstays hfit hword, fun hs => by rw [ho] at hs; cases hs⟩
  exact ⟨t, (aluRun_cons hstep).trans rfl, hleft⟩

/-! ## The move to the destination -/

theorem emitMov_same (hd : ∀ c, d.home ≠ .remat c) (hsame : d.home = v.home) :
    d.emitMov v = [] := by
  unfold Operand.emitMov
  rw [← hsame]
  cases hhome : d.home with
  | remat c => exact absurd hhome (hd c)
  | reg q => exact if_pos rfl
  | slot off => exact if_pos rfl

theorem slotAddr_ne {k k' : Int} (s : Cpu) (h : BitVec.ofInt 16 k ≠ BitVec.ofInt 16 k') :
    s.slotAddr k ≠ s.slotAddr k' := by
  unfold Cpu.slotAddr
  generalize BitVec.ofInt 16 k = x at *
  generalize BitVec.ofInt 16 k' = y at *
  bv_omega

theorem mem_bytes {x : Rhs} {k : Int} (h : k ∈ x.bytes) :
    ∃ v off, x = .vreg v ∧ v.home = .slot off ∧ (k = off ∨ k = off + 1) := by
  unfold Rhs.bytes at h
  cases x with
  | imm k' => cases h
  | vreg v =>
    cases hv : v.home with
    | slot off =>
      simp only [hv] at h
      refine ⟨v, off, rfl, hv, ?_⟩
      split_ifs at h
      · exact .inl (List.mem_singleton.mp h)
      · simpa using h
    | reg r =>
      simp only [hv] at h
      cases h
    | remat c =>
      simp only [hv] at h
      cases h

theorem bp_mem_regs (x : Rhs) : Preg.bp ∈ x.regs := by
  cases x <;> exact List.mem_cons_self

theorem Room.mov (hroom : i.Room s) : i.mov.Room s := by
  rintro off (hd | hv | hk)
  · have hfar := hroom off (.inl hd)
    omega
  · have hfar := hroom off (.inr (.inl hv))
    omega
  · rcases List.mem_append.mp hk with hk | hk
    · have hfar := hroom off (.inr (.inr (.inr hk)))
      omega
    · obtain ⟨v, off', hsrc, hv, rfl | rfl⟩ := mem_bytes hk
      · have hfar := hroom off (.inr (.inr (.inl ⟨v, hsrc, hv⟩)))
        omega
      · have hfar := hroom off' (.inr (.inr (.inl ⟨v, hsrc, hv⟩)))
        rw [slotAddr_next]
        bv_omega

theorem Outlives.outside {k : Int} (h : i.Outlives v) (hk : k ∈ (Rhs.vreg v).bytes) (s : Cpu) :
    i.dst.Outside s (s.slotAddr k) := by
  intro off hd
  obtain ⟨h0, h1⟩ := h.bytes k hk off hd
  refine ⟨slotAddr_ne s h0, fun hb => ?_⟩
  rw [← slotAddr_next]
  exact slotAddr_ne s (h1 hb)

/-- The first operand comes to the destination, and the second one stays. -/
theorem ready_moved (h : i.MovedSound) (hroom : i.Room s)
    (hout : ∀ v, i.src2 = .vreg v → i.dst.home ≠ i.src1.home → i.Outlives v) :
    ∃ u, aluRun env ((i.dst.emitMov i.src1).map .base) s = some u ∧
      i.Ready (i.src1.value env.places s) s u ∧ ∀ v, i.src2 = .vreg v → Stays v s u := by
  obtain ⟨u, hrun, hdone⟩ := @Extension.moveSound_moves i.mov env.toExtEnv s rfl hroom.mov h.move
  have hbp : i.dst.Spares .bp → u.read .bp = s.read .bp :=
    hdone.kept .bp (List.mem_append_right _ (bp_mem_regs _)) (by decide)
  refine ⟨u, (aluRun_base _ s).trans hrun, ⟨⟨hdone.holds, fun r hr => ?_, fun k hk => ?_, hdone.sp⟩,
    fun off hd => ?_, fun hc => ?_⟩, fun v hsrc => ?_⟩
  · exact hdone.kept r (List.mem_append_left _ hr)
  · exact hdone.bytes k (List.mem_append_left _ hk)
  · exact hbp fun q hq => by cases hd.symm.trans hq
  · exact shiftRun_flags (keepsFlags_operand (h.carry hc)) hrun
  · by_cases hsame : i.dst.home = i.src1.home
    · have hnil : i.mov.dst.emitMov i.mov.src = [] := emitMov_same i.stored hsame
      rw [hnil] at hrun
      cases hrun
      exact stays_refl v s
    · have houtlives := hout v hsrc hsame
      have hregs : ∀ r, v.home = .reg r → r ∈ i.mov.liveAfter := by
        intro r hr
        refine List.mem_append_right _ ?_
        rw [hsrc, Rhs.regs, Source.assigned, hr]
        exact List.mem_cons_of_mem _ (List.mem_singleton.mpr rfl)
      have hbytes : ∀ k ∈ (Rhs.vreg v).bytes, u.stack (s.slotAddr k) = s.stack (s.slotAddr k) := by
        intro k hk
        refine hdone.bytes k (List.mem_append_right _ ?_) (houtlives.outside hk s)
        rw [hsrc]
        exact hk
      refine ⟨fun r hr => ?_, fun off hv => ?_, fun off hv => ?_, fun off hv hb => ?_⟩
      · exact hdone.kept r (hregs r hr) (v.reg r hr).2.1 (houtlives.reg r hr)
      · exact slotAddr_congr (hbp (houtlives.bp off hv)) off
      · refine hbytes off ?_
        simp only [Rhs.bytes, hv]
        split_ifs <;> exact List.mem_cons_self
      · rw [← slotAddr_next]
        refine hbytes (off + 1) ?_
        simp only [Rhs.bytes, hv, hb, Bool.false_eq_true, if_false]
        exact List.mem_cons_of_mem _ List.mem_cons_self

/-! ## Both ways -/

theorem isSpilled_slot {v : Source} (h : v.isSpilled = true) : ∃ off, v.home = .slot off := by
  unfold Source.isSpilled at h
  cases hv : v.home with
  | slot off => exact ⟨off, rfl⟩
  | reg r =>
    rw [hv] at h
    cases h
  | remat c =>
    rw [hv] at h
    cases h

theorem isSpilled_of_slot {v : Source} {off : Int} (h : v.home = .slot off) :
    v.isSpilled = true := by
  unfold Source.isSpilled
  rw [h]

theorem dstIsSrc2_reg (hcut : i.dstIsSrc2 = true) (hsrc : i.src2 = .vreg v) :
    ∃ q, i.dst.home = .reg q ∧ v.home = .reg q := by
  unfold dstIsSrc2 at hcut
  rw [hsrc] at hcut
  simp only [Bool.and_eq_true, Bool.not_eq_true', beq_iff_eq] at hcut
  obtain ⟨⟨hd, -⟩, hsame⟩ := hcut
  cases hhome : i.dst.home with
  | remat c => exact absurd hhome (i.stored c)
  | slot off =>
    rw [isSpilled_of_slot hhome] at hd
    cases hd
  | reg q =>
    refine ⟨q, rfl, home_of_assigned ?_⟩
    rw [← hsame, Source.assigned, hhome]

theorem resultOf_comm (ho : i.op.commutes = true) :
    i.dst.Agrees (i.resultOf env s a b) (i.resultOf env s b a) := by
  have hshift : i.op.isShiftOp = false := by
    cases hop : i.op <;> first | rfl | (rw [hop] at ho; cases ho)
  unfold resultOf Operand.Agrees
  by_cases hb : i.dst.isByte = true
  · rw [if_pos hb, if_pos hb, if_pos hb, result_comm _ ho]
    exact low_result _ _ hshift (by simp [zeroExtend]) (by simp [zeroExtend])
  · rw [if_neg hb, if_neg hb, if_neg hb]
    exact result_comm _ ho

/-- The first operand is applied to the second. -/
theorem shortcut_done (hdst : i.DstSound) (hcut : i.dstIsSrc2 = true)
    (ho : i.op.isShiftOp = false) (hsrc : i.src2 = .vreg v) (h : i.ShortcutSound v) :
    ∃ t, aluRun env (if i.src1.isSpilled then
        [.base (.move (i.src1.movTo i.acc)), i.apply false (.reg i.acc)]
      else [i.apply false i.src1.asSrc]) s = some t ∧ i.Done env s t := by
  obtain ⟨q, hd, hv⟩ := dstIsSrc2_reg hcut hsrc
  have hplace : v.operand env.places false s = s.read q := by
    unfold Source.operand
    rw [hv]
  have hready : i.Ready (v.value env.places s) s s := by
    refine ⟨⟨?_, fun _ _ _ _ => rfl, fun _ _ _ => rfl, rfl⟩, fun _ _ => rfl, fun _ => rfl⟩
    unfold Source.Holds
    rw [hd]
    by_cases hb : i.dst.isByte = true
    · simp only [if_pos hb]
      rw [← low_operand env.places v.toSource false s, hplace]
    · simp only [if_neg hb]
      rw [← wordOperand_value (h.word.resolve_left hb), hplace, Cpu.fit_read]
  have hdone : ∀ t, i.Left (i.resultOf env s (v.value env.places s)
      (i.src1.value env.places s)) s t → i.Done env s t := by
    intro t hleft
    refine ⟨?_, hleft.kept, hleft.bytes, hleft.sp⟩
    unfold result
    rw [hsrc]
    exact holds_congr (resultOf_comm h.commutes) hleft.holds
  have hfirst := h.first
  by_cases hspilled : i.src1.isSpilled = true
  · rw [if_pos hspilled] at hfirst ⊢
    obtain ⟨hfit, hfree, hspares, hwidth⟩ := hfirst
    obtain ⟨off, hoff⟩ := isSpilled_slot hspilled
    obtain ⟨t, hrun, hleft⟩ := @Ready.throughAcc i env s s _ i.src1 off hready hdst ho hoff
      (stays_refl _ s) hfit hfree hspares hwidth
    exact ⟨t, hrun, hdone t hleft⟩
  · rw [if_neg hspilled] at hfirst ⊢
    obtain ⟨t, hrun, hleft⟩ := @Ready.direct i env s s _ i.src1 hready hdst ho
      (stays_refl _ s) hfirst fun ⟨⟨off, hoff⟩, _⟩ => by cases hd.symm.trans hoff
    exact ⟨t, hrun, hdone t hleft⟩

/-- The second operand is applied to the first. -/
theorem moved_done (hdst : i.DstSound) (hroom : i.Room s) (h : i.MovedSound) :
    ∃ t, aluRun env ((i.dst.emitMov i.src1).map .base ++
      match i.src2 with
      | .imm k => [i.apply i.sizedWord (.const (.imm k))]
      | .vreg v =>
        if i.op.isShiftOp then [i.apply i.sizedWord (.reg .cl)]
        else if i.dst.isSpilled && v.isSpilled then
          [.base (.move (v.movTo i.acc)), i.apply false (.reg i.acc)]
        else [i.apply false v.asSrc]) s = some t ∧ i.Done env s t := by
  have hsecond := h.second
  have hsized : (∀ off, i.dst.home = .slot off → i.stackHome = true → i.dst.isByte = true) →
      ∀ off, i.dst.home = .slot off → (!i.sizedWord) = i.dst.isByte := by
    intro hsize off hd
    unfold sizedWord
    cases hb : i.dst.isByte with
    | true => rfl
    | false =>
      cases hhome : i.stackHome with
      | false => rfl
      | true =>
        rw [hsize off hd hhome] at hb
        cases hb
  cases hsrc : i.src2 with
  | imm k =>
    rw [hsrc] at hsecond
    obtain ⟨hcount, hsize⟩ := hsecond
    obtain ⟨u, hrun, hready, -⟩ := @ready_moved i env s h hroom fun v hv => by
      rw [hsrc] at hv
      cases hv
    have hvalue : ∀ byte, (AluSrc.const (.imm k)).value env.places i.op byte u =
        BitVec.ofInt 16 k := by
      intro byte
      show (if i.op.isShiftOp = true then _ else _) = _
      split_ifs with ho
      · exact zeroExtend_ofInt (hcount ho).1 (hcount ho).2
      · rfl
    obtain ⟨t, hstep, hleft⟩ := @Ready.apply i env s u _ (BitVec.ofInt 16 k) hready hdst
      (.const (.imm k)) i.sizedWord (fun _ _ => rfl) (fun off hd => ⟨rfl, hsized hsize off hd⟩)
      fun byte _ _ => ⟨by rw [hvalue]; exact .refl _ _, fun _ => hvalue byte⟩
    refine ⟨t, (aluRun_append hrun).trans ((aluRun_cons hstep).trans rfl), ?_, hleft.kept,
      hleft.bytes, hleft.sp⟩
    unfold result
    rw [hsrc]
    exact hleft.holds
  | vreg v =>
    rw [hsrc] at hsecond
    obtain ⟨hout, hrest⟩ := hsecond
    obtain ⟨u, hrun, hready, hstays⟩ := @ready_moved i env s h hroom fun v' hv' hne => by
      rw [hsrc] at hv'
      cases hv'
      exact hout hne
    have hstays := hstays v hsrc
    have hdone : ∀ {is : List AluInsn}, (∃ t, aluRun env is u = some t ∧ i.Left (i.resultOf env s
        (i.src1.value env.places s) (v.value env.places s)) s t) →
        ∃ t, aluRun env ((i.dst.emitMov i.src1).map .base ++ is) s = some t ∧ i.Done env s t := by
      rintro is ⟨t, hrest, hleft⟩
      refine ⟨t, (aluRun_append hrun).trans hrest, ?_, hleft.kept, hleft.bytes, hleft.sp⟩
      unfold result
      rw [hsrc]
      exact hleft.holds
    refine hdone ?_
    dsimp only
    by_cases ho : i.op.isShiftOp = true
    · rw [if_pos ho] at hrest ⊢
      obtain ⟨hcl, hsize⟩ := hrest
      have hvalue : u.read .cl = v.value env.places s := by
        rw [hstays.reg .cl hcl]
        unfold Source.value
        rw [hcl]
        cases v.isByte with
        | false => rfl
        | true => exact (Cpu.fit_read s .cl).symm
      have hagrees : i.dst.Agrees (u.read .cl) (v.value env.places s) := by
        rw [hvalue]
        exact .refl _ _
      obtain ⟨t, hstep, hleft⟩ := @Ready.apply i env s u _ (v.value env.places s) hready hdst
        (.reg .cl) i.sizedWord (fun _ _ => if_pos ho)
        (fun off hd => ⟨if_pos ho, (if_pos ho).trans (hsized hsize off hd)⟩)
        fun _ _ _ => ⟨hagrees, fun _ => hvalue⟩
      exact ⟨t, (aluRun_cons hstep).trans rfl, hleft⟩
    · have hoff : i.op.isShiftOp = false := by simpa using ho
      rw [if_neg ho] at hrest ⊢
      by_cases hmem : i.dst.isSpilled = true ∧ v.isSpilled = true
      · rw [if_pos hmem] at hrest
        rw [if_pos (by simpa using hmem)]
        obtain ⟨off, hd⟩ := isSpilled_slot hmem.1
        obtain ⟨off', hv⟩ := isSpilled_slot hmem.2
        exact hready.throughAcc hdst hoff hv hstays hrest.2 hrest.1
          (fun q hq => by cases hd.symm.trans hq) fun q hq => by cases hd.symm.trans hq
      · rw [if_neg hmem] at hrest
        rw [if_neg (by simpa using hmem)]
        refine hready.direct hdst hoff hstays hrest fun ⟨⟨off, hd⟩, off', hv⟩ => ?_
        exact hmem ⟨isSpilled_of_slot hd, isSpilled_of_slot hv⟩

end Alu

/-- `SI = DI + CX` with the carry, while the operands are in use. -/
def addToIndex : Alu where
  op := .adc
  dst := .inReg .si false Preg.si_general
  src1 := .inReg .di false Preg.di_general
  src2 := .vreg (.inReg .cx false Preg.cx_general)
  stored := Operand.inReg_stored .si false Preg.si_general
  liveAfter := [.ax, .cx, .di]

theorem addToIndex_sound : addToIndex.Sound where
  dst := by
    rintro q ⟨⟩
    exact ⟨.inr rfl, nofun, nofun⟩
  shortcut := fun h => nomatch h
  moved := fun _ => {
    move := .inr ⟨rfl, rfl⟩
    carry := nofun
    second := by
      refine ⟨fun _ => ⟨?_, nofun, fun _ hk => nomatch hk⟩, .inr ⟨rfl, rfl⟩, rfl, .inr rfl⟩
      rintro r ⟨⟩ q ⟨⟩
      rfl }

/-- `BX = AX - BX`: the subtrahend is in the destination. -/
def subFromAx : Alu where
  op := .sub
  dst := .inReg .bx false Preg.bx_general
  src1 := .inReg .ax false Preg.ax_general
  src2 := .vreg (.inReg .bx false Preg.bx_general)
  stored := Operand.inReg_stored .bx false Preg.bx_general

end Nib.Bind
