import Nib.Bind.Spec.PortIo
import Nib.Bind.Properties.Extend

/-!
# Port input and output

* `Within` — the words that are on the stack while the access is made
* `inSound_carried`, `outSound_carried` — one access, and whatever is live is kept
-/

namespace Nib.Bind

open Nib.Infra

variable {env : PortEnv} {s t u : Cpu} {ws : List Word} {m : Memory} {w : Word} {p q r : Preg}
  {log : List PortAccess}

/-! ## Runs -/

theorem portRun_runs (env : PortEnv) : RunsBy (portStep env) (portRun env) :=
  ⟨fun _ => rfl, fun _ _ _ => rfl⟩

theorem portRun_cons {j : PortInsn} {is : List PortInsn} {a b : PortCpu}
    (h : portStep env j a = some b) : portRun env (j :: is) a = portRun env is b :=
  (portRun_runs env).head h

theorem portRun_append {is js : List PortInsn} {a b : PortCpu} (h : portRun env is a = some b) :
    portRun env (is ++ js) a = portRun env js b :=
  (portRun_runs env).append h

/-! ## Words on the stack -/

/-- The words `ws` have been pushed since `s`, and the memory above is `m`. -/
structure Within (ws : List Word) (m : Memory) (s u : Cpu) : Prop where
  few : ws.length ≤ 3
  sp : u.sp = s.sp - BitVec.ofNat 16 (2 * ws.length)
  words : wordsAt u.stack u.sp ws
  above : ∀ a, (a - s.sp).toNat + 7 ≤ 65536 → u.stack a = m a

theorem within_refl (s : Cpu) : Within [] s.stack s s where
  few := by decide
  sp := by simp
  words := trivial
  above := fun _ _ => rfl

theorem Within.put (h : Within ws m s u) (hq : q ≠ .sp) (w : Word) : Within ws m s (u.put q w) where
  few := h.few
  sp := (Cpu.put_sp u w hq).trans h.sp
  words := by
    rw [Cpu.put_stack, Cpu.put_sp u w hq]
    exact h.words
  above := fun a ha => by
    rw [Cpu.put_stack]
    exact h.above a ha

theorem Within.push (h : Within ws m s u) (hfew : ws.length ≤ 2) (w : Word) :
    Within (w :: ws) m s (u.push [w]) where
  few := Nat.succ_le_succ hfew
  sp := by
    rw [Cpu.push_one_sp, h.sp, List.length_cons, Nat.mul_succ]
    have hofNat : BitVec.ofNat 16 (2 * ws.length + 2) = BitVec.ofNat 16 (2 * ws.length) + 2 :=
      BitVec.ofNat_add _ _
    rw [hofNat]
    bv_omega
  words := by
    rw [Cpu.push_one_stack, Cpu.push_one_sp]
    refine ⟨readWord_write_self _ _ _, ?_⟩
    have hback : u.sp - 2 + 2 = u.sp := by bv_omega
    rw [hback]
    refine wordsAt_congr (fun i hi => write_of_notMem ?_ _ _) h.words
    have hlen := h.few
    have hi6 : i < 6 := by omega
    rintro (h | ⟨-, h⟩) <;> bv_omega
  above := fun a ha => by
    rw [Cpu.push_one_stack, write_of_notMem ?_ _ _]
    · exact h.above a ha
    · rw [h.sp]
      have hpast : (a - s.sp).toNat < 65530 := by omega
      rintro (h | ⟨-, h⟩) <;> bv_omega

theorem Within.peek (h : Within (w :: ws) m s u) : u.peek 0 = w := by
  rw [Cpu.peek, Nat.mul_zero, BitVec.add_zero]
  exact h.words.1

theorem Within.drop (h : Within (w :: ws) m s u) : Within ws m s (u.drop 1) where
  few := Nat.le_of_succ_le h.few
  sp := by
    rw [Cpu.drop_sp, h.sp, List.length_cons, Nat.mul_succ]
    have hofNat : BitVec.ofNat 16 (2 * ws.length + 2) = BitVec.ofNat 16 (2 * ws.length) + 2 :=
      BitVec.ofNat_add _ _
    rw [hofNat]
    bv_omega
  words := by
    rw [Cpu.drop_sp]
    exact h.words.2
  above := fun a ha => h.above a ha

/-- A slot is written while words are on the stack. -/
theorem Within.store {off : Int} (h : Within ws m s u)
    (hclear : (s.slotAddr off - s.sp).toNat + 8 ≤ 65536) (byte : Bool) (w : Word) :
    Within ws (write byte m (s.slotAddr off) w) s
      { u with stack := write byte u.stack (s.slotAddr off) w } where
  few := h.few
  sp := h.sp
  words := by
    refine wordsAt_congr (fun i hi => write_of_notMem ?_ _ _) h.words
    have hlen := h.few
    have hsp : u.sp = s.sp - BitVec.ofNat 16 (2 * ws.length) := h.sp
    show ¬written byte (s.slotAddr off) (u.sp + BitVec.ofNat 16 i)
    rw [hsp]
    generalize s.slotAddr off = a at *
    rintro (h | ⟨-, h⟩) <;> bv_omega
  above := fun a ha => by
    show write byte u.stack _ w a = write byte m _ w a
    unfold write
    rw [h.above a ha]

/-- What a push, a pop and a move are as steps. -/
theorem step_push (hp : p.canPush = true) (log : List PortAccess) :
    portStep env (PortIo.push p) ⟨u, log⟩ = some ⟨u.push [u.reg p], log⟩ := by
  have hstep : shiftStep env.toShiftEnv (.move (.push p)) u = some (u.push [u.reg p]) := if_pos hp
  unfold PortIo.push
  rw [portStep, hstep]
  rfl

theorem step_pop (hp : p.canPop = true) (h : Within (w :: ws) m s u) (log : List PortAccess) :
    portStep env (PortIo.pop p) ⟨u, log⟩ = some ⟨(u.drop 1).setReg p w, log⟩ := by
  have hstep : shiftStep env.toShiftEnv (.move (.pop p)) u = some ((u.drop 1).setReg p w) := by
    rw [← h.peek]
    exact if_pos hp
  unfold PortIo.pop
  rw [portStep, hstep]
  rfl

theorem step_mov {x : MoveInsn} (h : moveStep env.toMoveEnv x u = some t) (log : List PortAccess) :
    portStep env (.base (.move x)) ⟨u, log⟩ = some ⟨t, log⟩ := by
  have hstep : shiftStep env.toShiftEnv (.move x) u = some t := h
  rw [portStep, hstep]
  rfl

theorem step_movReg (h : p.canMov q = true) (log : List PortAccess) :
    portStep env (.base (.move (.mov p q))) ⟨u, log⟩ = some ⟨u.put p (u.read q), log⟩ := by
  have hmove : moveStep env.toMoveEnv (.mov p q) u = some (u.put p (u.read q)) := if_pos h
  exact step_mov hmove log

theorem Preg.apart_ax (h : pregsAlias .ax r = true) :
    pregsAlias .bx r = false ∧ pregsAlias .dx r = false := by
  revert h
  cases r <;> decide

theorem Preg.apart_dx (h : pregsAlias .dx r = true) :
    r ≠ .sp ∧ pregsAlias .bx r = false ∧ pregsAlias .ax r = false := by
  revert h
  cases r <;> decide

theorem holds_write (byte : Bool) (m : Memory) (x w : Word) :
    if byte = true then write byte m x w x = low w else readWord (write byte m x w) x = w := by
  cases byte with
  | true => exact write_self _ _ _ _
  | false => exact readWord_write_self _ _ _

/-! ## Pushes and pops that are made or not -/

theorem Preg.canPop_kinds (h : p.canPop = true) (hp : p ≠ .sp) :
    p.canPush = true ∧ p.isByte = false := by
  revert h hp
  cases p <;> decide

/-- The word of a register that is saved. -/
def saved (b : Bool) (s : Cpu) (p : Preg) : List Word := if b then [s.reg p] else []

theorem run_pushIf (b : Bool) (hp : p.canPop = true) (hpsp : p ≠ .sp) (h : Within ws m s u)
    (hfew : ws.length ≤ 2) (hread : ∀ r ≠ .flags, r ≠ .sp → u.read r = s.read r) :
    ∃ t, portRun env (if b then [PortIo.push p] else []) ⟨u, log⟩ = some ⟨t, log⟩ ∧
      Within (saved b s p ++ ws) m s t ∧ ∀ r ≠ .flags, r ≠ .sp → t.read r = s.read r := by
  cases b with
  | false => exact ⟨u, rfl, h, hread⟩
  | true =>
    obtain ⟨hpush, hbyte⟩ := Preg.canPop_kinds hp hpsp
    have hpflags : p ≠ .flags := by
      rintro rfl
      cases hp
    have hreg : u.reg p = s.reg p := by
      have hp := hread p hpflags hpsp
      rwa [Cpu.read_eq_reg _ hbyte, Cpu.read_eq_reg _ hbyte] at hp
    refine ⟨u.push [u.reg p], ?_, ?_, fun r hf hr => ?_⟩
    · exact (portRun_cons (step_push hpush log)).trans rfl
    · show Within (s.reg p :: ws) m s (u.push [u.reg p])
      rw [← hreg]
      exact h.push hfew _
    · exact (Cpu.read_push _ _ hr).trans (hread r hf hr)

theorem run_popIf (b : Bool) (hp : p.canPop = true) (hpsp : p ≠ .sp)
    (h : Within (saved b s p ++ ws) m s u) :
    ∃ t, portRun env (if b then [PortIo.pop p] else []) ⟨u, log⟩ = some ⟨t, log⟩ ∧
      Within ws m s t ∧
      (∀ r, r ≠ .sp → (b = true → pregsAlias p r = false) → t.read r = u.read r) ∧
      ∀ r, b = true → pregsAlias p r = true → t.read r = s.read r := by
  cases b with
  | false => exact ⟨u, rfl, h, fun _ _ _ => rfl, fun _ hb => by cases hb⟩
  | true =>
    obtain ⟨-, hbyte⟩ := Preg.canPop_kinds hp hpsp
    have hput : (u.drop 1).setReg p (s.reg p) = (u.drop 1).put p (s.reg p) :=
      (Cpu.put_eq_setReg _ _ hbyte).symm
    refine ⟨(u.drop 1).setReg p (s.reg p), ?_, ?_, fun r hr hal => ?_, fun r _ hal => ?_⟩
    · exact (portRun_cons (step_pop hp h log)).trans rfl
    · rw [hput]
      exact (h.drop).put hpsp _
    · rw [hput, Cpu.read_put_of_ne _ _ (hal rfl), Cpu.read_drop _ _ hr]
    · exact Cpu.read_setReg_back s _ hbyte hal

/-! ## Operands -/

/-- An operand that nothing has been done to. -/
theorem operand_within {v : Operand} {pl : Addresses} (byte : Bool) (h : Within ws s.stack s u)
    (hreg : ∀ r, v.home = .reg r → u.read r = s.read r)
    (hbp : ∀ off, v.home = .slot off → u.read .bp = s.read .bp)
    (hroom : ∀ off, v.home = .slot off → (s.slotAddr off - s.sp).toNat + 8 ≤ 65536) :
    v.operand pl byte u = v.operand pl byte s := by
  unfold Source.operand
  cases hv : v.home with
  | reg r => exact hreg r hv
  | slot off =>
    have hroom := hroom off hv
    have haddr : u.slotAddr off = s.slotAddr off := slotAddr_congr (hbp off hv) off
    have h0 := h.above (s.slotAddr off) (by omega)
    have h1 := h.above (s.slotAddr off + 1) (by bv_omega)
    simp only [Cpu.readSlot, haddr, readWord, h0, h1]
  | remat c => rfl

theorem zeroExtend_low_iff {x : Word} : zeroExtend (low x) = x ↔ x.toNat ≤ 255 := by
  rw [← and_byte, ← BitVec.toNat_inj, BitVec.toNat_and]
  have hmask : x.toNat &&& 255 = x.toNat % 256 := Nat.and_two_pow_sub_one_eq_mod x.toNat 8
  show x.toNat &&& 255 = x.toNat ↔ _
  rw [hmask]
  omega

theorem zeroExtend_low_ofInt {k : Int} :
    zeroExtend (low (BitVec.ofInt 16 k)) = BitVec.ofInt 16 k ↔ k % 65536 ≤ 255 := by
  rw [zeroExtend_low_iff, BitVec.toNat_ofInt]
  omega

theorem wordOperand_canMov {v : Operand} (h : PortIo.WordOperand v) (hq : q.isWord = true) :
    v.CanMovTo q := by
  unfold PortIo.WordOperand at h
  unfold Source.CanMovTo
  cases hv : v.home with
  | reg r =>
    rw [hv] at h
    obtain ⟨hrsp, hrflags, -⟩ := v.reg r hv
    rcases Preg.kinds hrflags with hr | hr | hr
    · rw [h.2] at hr
      cases hr
    · simp [Preg.canMov, hq, hr]
    · simp [Preg.canMov, hq, hr]
  | slot off => simp [Preg.canLoad, hq]
  | remat c => simp [Preg.canConst, hq]

theorem wordOperand_value {v : Operand} (h : PortIo.WordOperand v) (pl : Addresses) (s : Cpu) :
    v.operand pl false s = v.value pl s := by
  unfold PortIo.WordOperand at h
  unfold Source.operand Source.value
  cases hv : v.home with
  | reg r =>
    rw [hv] at h
    simp [h.1]
  | slot off =>
    rw [hv] at h
    have h : v.isByte = false := h
    simp [h]
  | remat c =>
    rw [hv] at h
    have h : v.isByte = true → ∃ k, c = .imm k ∧ k % 65536 ≤ 255 := h
    cases hb : v.isByte with
    | false => rfl
    | true =>
      obtain ⟨k, rfl, hk⟩ := h hb
      exact (zeroExtend_low_ofInt.mpr hk).symm

/-! ## The accumulator -/

theorem accOf_ne_sp (byte : Bool) : accOf byte ≠ .sp := by
  cases byte <;> decide

theorem accOf_apart_bp (byte : Bool) : pregsAlias (accOf byte) .bp = false := by
  cases byte <;> rfl

theorem accOf_apart_flags (byte : Bool) : pregsAlias (accOf byte) .flags = false := by
  cases byte <;> rfl

theorem accOf_isByte (byte : Bool) : (accOf byte).isByte = byte := by
  cases byte <;> rfl

theorem accOf_kind (byte : Bool) : ((accOf byte).isByte || (accOf byte).isWord) = true := by
  cases byte <;> rfl

namespace PortIo

variable {i : PortIo}

/-- The port that the processor sees. -/
def portOperand (i : PortIo) (pl : Addresses) (s : Cpu) : Word :=
  match i.port with
  | .imm k => immPort k
  | .vreg v => v.operand pl false s

theorem portOperand_value (h : i.PortSound) (pl : Addresses) (s : Cpu) :
    i.portOperand pl s = i.portValue pl s := by
  unfold PortSound at h
  unfold portOperand portValue
  cases hport : i.port with
  | imm k =>
    rw [hport] at h
    exact zeroExtend_low_ofInt.mpr h
  | vreg v =>
    rw [hport] at h
    exact wordOperand_value h pl s

/-- The port is brought to `DX`. -/
theorem run_loadPort {v : Operand} (hport : i.port = .vreg v) (hcan : v.CanMovTo .dx)
    (hroom : i.Room s) (h : Within ws s.stack s u)
    (hread : ∀ r, r ≠ .flags → r ≠ .sp → v.home = .reg r ∨ r = .bp → u.read r = s.read r) :
    portRun env i.loadPort ⟨u, log⟩ = some ⟨u.put .dx (i.portOperand env.places s), log⟩ := by
  have hstep := @moveStep_movTo env.toMoveEnv v.toSource .dx hcan u
  have hoperand : v.operand env.places false u = v.operand env.places false s :=
    operand_within false h
      (fun r hr => hread r (v.reg r hr).2.1 (v.reg r hr).1 (.inl hr))
      (fun off _ => hread .bp (by decide) (by decide) (.inr rfl))
      fun off hoff => hroom off (.inr ⟨v, hport, hoff⟩)
  have hdx : v.operand env.places Preg.dx.isByte u = i.portOperand env.places s := by
    unfold portOperand
    rw [hport]
    exact hoperand
  rw [hdx] at hstep
  unfold loadPort
  rw [hport]
  exact (portRun_cons (step_mov hstep log)).trans rfl

/-! ## Input -/

theorem acc_ne_sp : i.acc ≠ .sp := accOf_ne_sp i.byte

theorem portElsewhere_imm {k : Int} (hport : i.port = .imm k) : i.portElsewhere = false := by
  unfold portElsewhere
  rw [hport]

/-- The port is known to the instruction. -/
def PortReady (i : PortIo) (w : Word) (u : Cpu) : Prop :=
  match i.port with
  | .imm k => immPort k = w
  | .vreg _ => u.reg .dx = w

/-- A port that is not brought anywhere. -/
theorem portReady_here (helse : i.portElsewhere = false) (hdx : u.read .dx = s.read .dx)
    (pl : Addresses) : i.PortReady (i.portOperand pl s) u := by
  unfold PortReady portOperand
  unfold portElsewhere at helse
  cases hport : i.port with
  | imm k => rfl
  | vreg v =>
    rw [hport] at helse
    have hv : v.home = .reg .dx := home_of_assigned (by simpa using helse)
    show u.reg .dx = v.operand pl false s
    unfold Source.operand
    rw [hv]
    exact hdx

theorem step_in (h : i.PortReady w u) (log : List PortAccess) :
    portStep env i.inInsn ⟨u, log⟩ = some (PortCpu.input env i.byte w ⟨u, log⟩) := by
  unfold PortReady at h
  unfold inInsn
  cases hport : i.port with
  | imm k =>
    rw [hport] at h
    rw [← h]
    rfl
  | vreg v =>
    rw [hport] at h
    rw [← h]
    rfl

theorem acc_apart (h : pregsAlias r .ax = false) : pregsAlias i.acc r = false := by
  unfold acc
  revert h
  cases i.byte <;> cases r <;> decide

theorem acc_apart_dx : pregsAlias .dx i.acc = false := by
  unfold acc
  cases i.byte <;> rfl

theorem acc_apart_bp : pregsAlias i.acc .bp = false := accOf_apart_bp i.byte

theorem acc_isByte : i.acc.isByte = i.byte := accOf_isByte i.byte

/-- The instructions of an input are there. -/
structure InCan (i : PortIo) : Prop where
  port : ∀ v, i.port = .vreg v → i.portElsewhere = true → v.CanMovTo .dx
  data : match i.data.home with
    | .reg q => q.isByte = i.byte ∧ q ≠ .cs
    | .slot _ => True
    | .remat _ => False

theorem InSound.can (hs : i.InSound) : i.InCan where
  port := fun v hport _ => by
    have hport' := hs.port
    unfold PortSound at hport'
    rw [hport] at hport'
    exact wordOperand_canMov hport' rfl
  data := by
    have hwidth := hs.width
    cases hd : i.data.home with
    | reg q =>
      rw [hd] at hwidth
      exact hwidth
    | slot off => trivial
    | remat c =>
      rw [hd] at hwidth
      exact hwidth

/-- Up to the access itself. -/
theorem run_access (hcan : i.InCan) (hroom : i.Room s) (h : Within ws s.stack s u)
    (hread : ∀ r, r ≠ .flags → r ≠ .sp → u.read r = s.read r) :
    ∃ t, portRun env ((if i.portElsewhere then i.loadPort else []) ++ [i.inInsn]) ⟨u, log⟩ =
        some ⟨t, log ++ [⟨false, i.byte, i.portOperand env.places s,
          i.acc.fit (env.input log i.byte (i.portOperand env.places s))⟩]⟩ ∧
      Within ws s.stack s t ∧
      t.read i.acc = i.acc.fit (env.input log i.byte (i.portOperand env.places s)) ∧
      (i.portElsewhere = true → t.reg .dx = i.portOperand env.places s) ∧
      ∀ r, r ≠ .flags → r ≠ .sp → pregsAlias i.acc r = false →
        (i.portElsewhere = true → pregsAlias .dx r = false) → t.read r = s.read r := by
  obtain ⟨v, hrun, hv, hready, hdxv, hreads⟩ : ∃ v, portRun env
      (if i.portElsewhere then i.loadPort else []) ⟨u, log⟩ = some ⟨v, log⟩ ∧
      Within ws s.stack s v ∧ i.PortReady (i.portOperand env.places s) v ∧
      (i.portElsewhere = true → v.reg .dx = i.portOperand env.places s) ∧
      ∀ r, r ≠ .flags → r ≠ .sp → (i.portElsewhere = true → pregsAlias .dx r = false) →
        v.read r = s.read r := by
    cases helse : i.portElsewhere with
    | false =>
      refine ⟨u, rfl, h, portReady_here helse (hread .dx (by decide) (by decide)) _,
        (fun hport => by cases hport), ?_⟩
      exact fun r hf hr _ => hread r hf hr
    | true =>
      cases hport : i.port with
      | imm k =>
        rw [portElsewhere_imm hport] at helse
        cases helse
      | vreg v =>
        have hdx : (u.put .dx (i.portOperand env.places s)).reg .dx = i.portOperand env.places s :=
          Cpu.read_put_self u .dx _
        refine ⟨_, run_loadPort hport (hcan.port v hport helse) hroom h
            fun r hf hr _ => hread r hf hr, h.put (by decide) _, ?_, fun _ => hdx,
          fun r hf hr hapart => ?_⟩
        · unfold PortReady
          rw [hport]
          exact hdx
        · exact (Cpu.read_put_of_ne _ _ (hapart rfl)).trans (hread r hf hr)
  have hin := @step_in env v _ i hready log
  refine ⟨v.put i.acc (i.acc.fit (env.input log i.byte (i.portOperand env.places s))), ?_, ?_, ?_,
    fun helse => ?_, fun r hf hr hacc hdx => ?_⟩
  · rw [portRun_append hrun, portRun_cons hin]
    rfl
  · exact hv.put acc_ne_sp _
  · exact (Cpu.read_put_self _ _ _).trans (Preg.fit_fit _ _)
  · have hacc : pregsAlias i.acc .dx = false := by
      rw [pregsAlias_comm]
      exact acc_apart_dx
    exact (Cpu.read_put_of_ne v _ hacc).trans (hdxv helse)
  · exact (Cpu.read_put_of_ne _ _ hacc).trans (hreads r hf hr hdx)

/-- The frame with the data stored. -/
def stored (i : PortIo) (s : Cpu) (w : Word) : Memory :=
  match i.data.home with
  | .slot off => write i.byte s.stack (s.slotAddr off) w
  | _ => s.stack

/-- How the input ends, from the access on. -/
structure Ended (i : PortIo) (w : Word) (s u t : Cpu) : Prop where
  reg : ∀ q, i.data.home = .reg q → t.read q = q.fit w
  stack : ∀ a, (a - s.sp).toNat + 7 ≤ 65536 → t.stack a = i.stored s w a
  regs : ∀ r, r ≠ .sp → i.data.Spares r → t.read r = s.read r ∨ t.read r = u.read r ∧
    (i.preserveAcc = true → pregsAlias .ax r = false) ∧
    (i.preserveDx = true → pregsAlias .dx r = false)
  dx : ∀ r, i.preserveDx = false → pregsAlias .dx r = true → i.data.Spares r → t.read r = u.read r
  sp : t.sp = s.sp

/-- The destination is half of `AX`, or all of it. -/
inductive InAx (i : PortIo) : Preg → Prop
  | word (h : i.byte = false) : InAx i .ax
  | low (h : i.byte = true) : InAx i .al
  | high (h : i.byte = true) : InAx i .ah

theorem InCan.inAx (hcan : i.InCan) (h : i.dstAccAlias = true) :
    ∃ q, i.data.home = .reg q ∧ InAx i q := by
  unfold dstAccAlias at h
  have hwidth := hcan.data
  cases hd : i.data.home with
  | slot off =>
    rw [Source.assigned, hd] at h
    cases h
  | remat c =>
    rw [hd] at hwidth
    cases hwidth
  | reg q =>
    rw [hd] at hwidth
    rw [Source.assigned, hd] at h
    have hq : pregsAlias .ax q = true := by rwa [← pregWriteClobbers_eq]
    refine ⟨q, rfl, ?_⟩
    cases hb : i.byte with
    | false =>
      rw [hb] at hwidth
      cases q <;> first
        | exact absurd hq (by decide)
        | exact absurd hwidth.1 (by decide)
        | exact .word hb
    | true =>
      rw [hb] at hwidth
      cases q <;> first
        | exact absurd hq (by decide)
        | exact absurd hwidth.1 (by decide)
        | exact .low hb
        | exact .high hb

/-- The registers of a destination in `AX`. -/
structure ThroughBx (i : PortIo) (q : Preg) : Prop where
  parent : i.scratchParent = .bx
  notSp : i.scratch ≠ .sp
  fromAcc : i.scratch.canMov i.acc = true
  toDst : q.canMov i.scratch = true
  inBx : ∀ r, pregsAlias .bx r = false → pregsAlias i.scratch r = false
  inAx : pregsAlias .ax q = true
  fit : ∀ w, q.fit (i.scratch.fit w) = q.fit w

theorem InAx.throughBx {q : Preg} (h : InAx i q) (hd : i.data.home = .reg q) : ThroughBx i q := by
  have hassigned := assigned_of_home hd
  have hparent : i.scratchParent = .bx := by
    unfold scratchParent
    rw [hassigned]
    cases h <;> rfl
  have hscratch : i.scratch = if i.byte then .bl else .bx := by
    unfold scratch
    rw [hparent]
    rfl
  cases h with
  | word hb =>
    rw [hb] at hscratch
    have hacc : i.acc = .ax := by simp [acc, hb]
    exact ⟨hparent, by rw [hscratch]; decide, by rw [hscratch, hacc]; rfl, by rw [hscratch]; rfl,
      fun r hr => by rwa [hscratch], rfl, fun w => by rw [hscratch]; rfl⟩
  | low hb | high hb =>
    rw [hb] at hscratch
    have hacc : i.acc = .al := by simp [acc, hb]
    refine ⟨hparent, by rw [hscratch]; decide, by rw [hscratch, hacc]; rfl, by rw [hscratch]; rfl,
      fun r hr => ?_, rfl, fun w => ?_⟩
    · rw [hscratch]
      revert hr
      cases r <;> decide
    · rw [hscratch, Preg.fit_of_byte rfl, Preg.fit_of_byte rfl, Preg.fit_of_byte rfl,
        zeroExtend_low_zeroExtend]

theorem stored_reg {q : Preg} (hd : i.data.home = .reg q) : i.stored s w = s.stack := by
  unfold stored
  rw [hd]

theorem stored_slot {off : Int} (hd : i.data.home = .slot off) :
    i.stored s w = write i.byte s.stack (s.slotAddr off) w := by
  unfold stored
  rw [hd]

/-- The whole of `AX` comes back, and the destination in it gets its value through `BX`. -/
theorem ended_inAx {q : Preg} (hd : i.data.home = .reg q) (hq : InAx i q)
    (h : Within (s.reg .ax :: (saved i.preserveDx s .dx ++ [s.reg .bx])) s.stack s u)
    (hw : u.read i.acc = w) :
    ∃ t, portRun env ([.base (.move (.mov i.scratch i.acc)), pop .ax,
          .base (i.data.movFrom i.scratch)] ++
        (if i.preserveDx then [pop .dx] else []) ++ [pop i.scratchParent]) ⟨u, log⟩ =
      some ⟨t, log⟩ ∧ i.Ended w s u t := by
  obtain ⟨hparent, hxsp, hfrom, hto, hbx, hax, hfit⟩ := hq.throughBx hd
  have hqsp : q ≠ .sp := by
    rintro rfl
    cases hax
  have hfromDst : i.data.movFrom i.scratch = .move (.mov q i.scratch) := by
    unfold Source.movFrom
    rw [hd]
  -- the value leaves `AX`, `AX` comes back, and the value takes its place in it
  obtain ⟨a, ha⟩ : ∃ a, a = u.put i.scratch w := ⟨_, rfl⟩
  obtain ⟨b, hb⟩ : ∃ b, b = (a.drop 1).setReg .ax (s.reg .ax) := ⟨_, rfl⟩
  obtain ⟨c, hc⟩ : ∃ c, c = b.put q (b.read i.scratch) := ⟨_, rfl⟩
  have hina : Within (s.reg .ax :: (saved i.preserveDx s .dx ++ [s.reg .bx])) s.stack s a := by
    rw [ha]
    exact h.put hxsp w
  have hinc : Within (saved i.preserveDx s .dx ++ [s.reg .bx]) s.stack s c := by
    rw [hc, hb]
    exact ((hina.drop).put (q := .ax) (by decide) _).put hqsp _
  have hrun : portRun env [.base (.move (.mov i.scratch i.acc)), pop .ax,
      .base (i.data.movFrom i.scratch)] ⟨u, log⟩ = some ⟨c, log⟩ := by
    rw [portRun_cons (step_movReg hfrom log), hw, ← ha, portRun_cons (step_pop rfl hina log), ← hb,
      hfromDst, portRun_cons (step_movReg hto log), ← hc]
    rfl
  -- `DX` and `BX` come back as well
  obtain ⟨d, hrund, hind, hkeepd, hbackd⟩ := @run_popIf env _ _ _ _ .dx log i.preserveDx rfl
    (by decide) hinc
  obtain ⟨t, hrunt, hint, hkeept, hbackt⟩ := @run_popIf env _ _ _ _ .bx log true rfl (by decide)
    (show Within (saved true s .bx ++ []) s.stack s d from hind)
  have hregs : ∀ r, r ≠ .sp → pregsAlias q r = false → t.read r = s.read r ∨
      t.read r = u.read r ∧ (i.preserveAcc = true → pregsAlias .ax r = false) ∧
        (i.preserveDx = true → pregsAlias .dx r = false) := by
    intro r hr hqr
    cases hbxr : pregsAlias .bx r with
    | true => exact .inl (hbackt r rfl hbxr)
    | false =>
      rw [hkeept r hr fun _ => hbxr]
      by_cases hdx : i.preserveDx = true ∧ pregsAlias .dx r = true
      · exact .inl (hbackd r hdx.1 hdx.2)
      · have hdx : i.preserveDx = true → pregsAlias .dx r = false := by simpa using hdx
        rw [hkeepd r hr hdx, hc, Cpu.read_put_of_ne _ _ hqr, hb]
        cases haxr : pregsAlias .ax r with
        | true => exact .inl (Cpu.read_setReg_back s _ rfl haxr)
        | false =>
          refine .inr ⟨?_, fun _ => rfl, hdx⟩
          rw [← Cpu.put_eq_setReg _ _ rfl, Cpu.read_put_of_ne _ _ haxr, Cpu.read_drop _ _ hr, ha,
            Cpu.read_put_of_ne _ _ (hbx r hbxr)]
  have hvalue : t.read q = q.fit w := by
    have hread : b.read i.scratch = i.scratch.fit w := by
      have haxs : pregsAlias .ax i.scratch = false := by
        cases haxs : pregsAlias .ax i.scratch with
        | false => rfl
        | true =>
          have hself := hbx i.scratch (Preg.apart_ax haxs).1
          rw [pregsAlias_self] at hself
          cases hself
      rw [hb, ← Cpu.put_eq_setReg _ _ rfl, Cpu.read_put_of_ne _ _ haxs, Cpu.read_drop _ _ hxsp, ha,
        Cpu.read_put_self]
    obtain ⟨hbxq, hdxq⟩ := Preg.apart_ax hax
    rw [hkeept q hqsp fun _ => hbxq, hkeepd q hqsp fun _ => hdxq, hc, Cpu.read_put_self, hread,
      hfit]
  refine ⟨t, ?_, fun q' hq' => ?_, fun a ha => ?_, fun r hr hspares => hregs r hr (hspares q hd),
    fun r hkept hdx hspares => ?_, ?_⟩
  · rw [portRun_append (portRun_append hrun |>.trans hrund), hparent]
    exact hrunt
  · cases hd.symm.trans hq'
    exact hvalue
  · rw [stored_reg hd]
    exact hint.above a ha
  · obtain ⟨hsp, hbxr, haxr⟩ := Preg.apart_dx hdx
    rw [hkeept r hsp fun _ => hbxr, hkeepd r hsp fun h => absurd (hkept.symm.trans h) (by decide),
      hc, Cpu.read_put_of_ne _ _ (hspares q hd), hb, ← Cpu.put_eq_setReg _ _ rfl,
      Cpu.read_put_of_ne _ _ haxr, Cpu.read_drop _ _ hsp, ha, Cpu.read_put_of_ne _ _ (hbx r hbxr)]
  · simpa using hint.sp

theorem InCan.canMov {q : Preg} (hcan : i.InCan) (hd : i.data.home = .reg q) :
    q.canMov i.acc = true := by
  have hwidth := hcan.data
  rw [hd] at hwidth
  obtain ⟨hsp, hflags, -⟩ := i.data.reg q hd
  obtain ⟨hbyte, hcs⟩ := hwidth
  unfold acc
  rw [← hbyte]
  clear hd
  cases q <;> first | rfl | contradiction

/-- The data are moved from the accumulator to the destination. -/
theorem run_store (hcan : i.InCan) (hroom : i.Room s) (h : Within ws s.stack s u)
    (hw : u.read i.acc = w) (hbp : u.read .bp = s.read .bp) :
    ∃ v, portRun env
        (if i.data.assigned = some i.acc then [] else [.base (i.data.movFrom i.acc)]) ⟨u, log⟩ =
        some ⟨v, log⟩ ∧ Within ws (i.stored s w) s v ∧
      (∀ q, i.data.home = .reg q → v.read q = q.fit w) ∧
      ∀ r, i.data.Spares r → v.read r = u.read r := by
  have hdata := hcan.data
  cases hd : i.data.home with
  | remat c =>
    rw [hd] at hdata
    cases hdata
  | reg q =>
    rw [hd] at hdata
    have hassigned := assigned_of_home hd
    have hfit : q.fit w = u.read i.acc := by
      have hself : i.acc.fit (u.read i.acc) = u.read i.acc := Cpu.fit_read u i.acc
      have hkind : q.isByte = i.acc.isByte := hdata.1.trans acc_isByte.symm
      unfold Preg.fit at hself ⊢
      rw [hkind, ← hw]
      exact hself
    rw [hassigned, stored_reg hd]
    by_cases hq : q = i.acc
    · rw [if_pos (congrArg some hq)]
      refine ⟨u, rfl, h, fun q' hq' => ?_, fun _ _ => rfl⟩
      cases hq'
      rw [hfit, hq]
    · rw [if_neg fun h => hq (Option.some.inj h)]
      have hmov : i.data.movFrom i.acc = .move (.mov q i.acc) := by
        unfold Source.movFrom
        rw [hd]
      refine ⟨u.put q (u.read i.acc), ?_, h.put (i.data.reg q hd).1 _, fun q' hq' => ?_,
        fun r hr => Cpu.read_put_of_ne _ _ (hr q hd)⟩
      · rw [hmov, portRun_cons (step_movReg (hcan.canMov hd) log)]
        rfl
      · cases hq'
        rw [Cpu.read_put_self, hw]
  | slot off =>
    have hassigned : i.data.assigned = none := by
      unfold Source.assigned
      rw [hd]
    rw [hassigned, if_neg (by simp), stored_slot hd]
    have haddr : u.slotAddr off = s.slotAddr off := slotAddr_congr hbp off
    have hstep : shiftStep env.toShiftEnv (i.data.movFrom i.acc) u =
        some { u with stack := write i.byte u.stack (s.slotAddr off) w } := by
      have hacc : (i.acc.isByte || i.acc.isWord || i.acc.isSegment) = true := by
        unfold acc
        split_ifs <;> rfl
      unfold Source.movFrom
      rw [hd, ← haddr, ← hw, ← acc_isByte]
      exact if_pos hacc
    have hclear := hroom off (.inl hd)
    refine ⟨{ u with stack := write i.byte u.stack (s.slotAddr off) w }, ?_, h.store hclear _ w,
      nofun, fun _ _ => rfl⟩
    refine (portRun_cons (b := ⟨_, log⟩) ?_).trans rfl
    rw [portStep, hstep]
    rfl

theorem dstDxAlias_of_preserveDx (h : i.preserveDx = true) : i.dstDxAlias = false := by
  unfold preserveDx at h
  simp only [Bool.and_eq_true, Bool.not_eq_true'] at h
  exact h.1.2

/-- The destination has its value before `AX` and `DX` come back. -/
theorem ended_elsewhere (hcan : i.InCan) (hroom : i.Room s)
    (helse : ¬(i.preserveAcc = true ∧ i.dstAccAlias = true))
    (h : Within (saved i.preserveAcc s .ax ++ (saved i.preserveDx s .dx ++ [])) s.stack s u)
    (hw : u.read i.acc = w) (hbp : u.read .bp = s.read .bp) :
    ∃ t, portRun env ((if i.data.assigned = some i.acc then [] else
          [.base (i.data.movFrom i.acc)]) ++ (if i.preserveAcc then [pop .ax] else []) ++
        if i.preserveDx then [pop .dx] else []) ⟨u, log⟩ = some ⟨t, log⟩ ∧ i.Ended w s u t := by
  obtain ⟨v, hrunv, hinv, hhas, hkeepv⟩ := @run_store env _ _ _ _ log _ hcan hroom h hw hbp
  obtain ⟨c, hrunc, hinc, hkeepc, hbackc⟩ := @run_popIf env _ _ _ _ .ax log i.preserveAcc rfl
    (by decide) hinv
  obtain ⟨t, hrunt, hint, hkeept, hbackt⟩ := @run_popIf env _ _ _ _ .dx log i.preserveDx rfl
    (by decide) hinc
  refine ⟨t, ?_, fun q hd => ?_, hint.above, fun r hr hspares => ?_,
    fun r hkept hal hspares => ?_, ?_⟩
  · rw [portRun_append ((portRun_append hrunv).trans hrunc)]
    exact hrunt
  · have hassigned := assigned_of_home hd
    have hq := (i.data.reg q hd).1
    have hax : i.preserveAcc = true → pregsAlias .ax q = false := by
      intro hacc
      have hdst : i.dstAccAlias ≠ true := fun h => helse ⟨hacc, h⟩
      unfold dstAccAlias at hdst
      rw [hassigned] at hdst
      rw [← pregWriteClobbers_eq]
      exact Bool.eq_false_iff.mpr hdst
    have hdx : i.preserveDx = true → pregsAlias .dx q = false := by
      intro hdx
      have hdst := dstDxAlias_of_preserveDx hdx
      unfold dstDxAlias at hdst
      rw [hassigned] at hdst
      rw [pregsAlias_comm]
      exact hdst
    rw [hkeept q hq hdx, hkeepc q hq hax, hhas q hd]
  · by_cases hdx : i.preserveDx = true ∧ pregsAlias .dx r = true
    · exact .inl (hbackt r hdx.1 hdx.2)
    · have hdx : i.preserveDx = true → pregsAlias .dx r = false := by simpa using hdx
      rw [hkeept r hr hdx]
      by_cases hax : i.preserveAcc = true ∧ pregsAlias .ax r = true
      · exact .inl (hbackc r hax.1 hax.2)
      · have hax : i.preserveAcc = true → pregsAlias .ax r = false := by simpa using hax
        exact .inr ⟨(hkeepc r hr hax).trans (hkeepv r hspares), hax, hdx⟩
  · obtain ⟨hsp, -, haxr⟩ := Preg.apart_dx hal
    rw [hkeept r hsp fun h => absurd (hkept.symm.trans h) (by decide), hkeepc r hsp fun _ => haxr,
      hkeepv r hspares]
  · simpa using hint.sp

/-- With its width the destination has the data, and no other byte of the frame is changed. -/
theorem Ended.has {t : Cpu} (h : i.Ended w s u t) (hs : i.InSound) (hroom : i.Room s) :
    i.data.Has w s t := by
  have hwidth := hs.width
  unfold Source.Has
  cases hd : i.data.home with
  | remat c =>
    rw [hd] at hwidth
    cases hwidth
  | reg q => exact h.reg q hd
  | slot off =>
    rw [hd] at hwidth
    have hclear := hroom off (.inl hd)
    have h0 := h.stack (s.slotAddr off) (by omega)
    have h1 := h.stack (s.slotAddr off + 1) (by bv_omega)
    rw [stored_slot hd] at h0 h1
    have hholds := holds_write i.byte s.stack (s.slotAddr off) w
    rw [hwidth]
    simpa only [readWord, h0, h1] using hholds

theorem Ended.bytes {t : Cpu} (h : i.Ended w s u t) (hs : i.InSound) {a : Word}
    (ha : (a - s.sp).toNat + 8 ≤ 65536) (hout : i.data.Outside s a) : t.stack a = s.stack a := by
  have hwidth := hs.width
  rw [h.stack a (by omega)]
  cases hd : i.data.home with
  | remat c =>
    rw [hd] at hwidth
    cases hwidth
  | reg q => rw [stored_reg hd]
  | slot off =>
    rw [hd] at hwidth
    rw [stored_slot hd, ← hwidth]
    obtain ⟨h0, h1⟩ := hout off hd
    refine write_of_notMem ?_ _ _
    rintro (rfl | ⟨hword, rfl⟩)
    · exact h0 rfl
    · exact h1 hword rfl

theorem live_of_alias (hr : r ∈ i.liveAfter) (p : Preg) (hp : pregsAlias p r = true) :
    i.pregLiveAfter p = true := by
  unfold pregLiveAfter
  exact List.any_eq_true.mpr ⟨r, hr, by rwa [pregWriteClobbers_eq]⟩

/-- What is live and in the way is saved. -/
theorem kept_of_ended (hs : i.InSound) {t : Cpu} (h : i.Ended w s u t)
    (hu : ∀ r, r ≠ .flags → r ≠ .sp → pregsAlias i.acc r = false →
      (i.portElsewhere = true → pregsAlias .dx r = false) → u.read r = s.read r) : i.Kept s t where
  regs := fun r hr hf hspares => by
    by_cases hsp : r = .sp
    · rw [hsp]
      exact h.sp
    rcases h.regs r hsp hspares with hback | ⟨hkept, hax, hdx⟩
    · exact hback
    have hlive : ∀ p, pregsAlias p r = true → i.pregLiveAfter p = true := live_of_alias hr
    refine hkept.trans (hu r hf hsp ?_ fun helse => ?_)
    · -- the accumulator is saved, and so is the register
      cases hacc : pregsAlias i.acc r with
      | false => rfl
      | true =>
        have hapart := hax (hlive _ hacc)
        rw [pregsAlias_comm] at hapart
        rw [acc_apart hapart] at hacc
        cases hacc
    · cases hal : pregsAlias .dx r with
      | false => rfl
      | true =>
        have hdst : i.dstDxAlias = false := by
          cases hdst : i.dstDxAlias with
          | false => rfl
          | true =>
            rw [hs.halves helse hdst r hr hspares] at hal
            cases hal
        have hpreserve : i.preserveDx = true := by
          simp [preserveDx, helse, hdst, hlive _ hal]
        rw [hdx hpreserve] at hal
        cases hal
  bytes := fun _ ha hout => h.bytes hs ha hout
  sp := h.sp

theorem saved_length (b : Bool) (s : Cpu) (p : Preg) : (saved b s p).length ≤ 1 := by
  cases b <;> simp [saved]

/-- Everything up to the access. -/
theorem run_toAccess (hcan : i.InCan) (hroom : i.Room s) : ∃ u,
    portRun env ((if i.preserveAcc && i.dstAccAlias then [push i.scratchParent] else []) ++
      (if i.preserveDx then [push .dx] else []) ++ (if i.preserveAcc then [push .ax] else []) ++
      (if i.portElsewhere then i.loadPort else []) ++ [i.inInsn]) ⟨s, log⟩ =
        some ⟨u, log ++ [⟨false, i.byte, i.portOperand env.places s,
          i.acc.fit (env.input log i.byte (i.portOperand env.places s))⟩]⟩ ∧
      Within (saved i.preserveAcc s .ax ++ (saved i.preserveDx s .dx ++
        (saved (i.preserveAcc && i.dstAccAlias) s .bx ++ []))) s.stack s u ∧
      u.read i.acc = i.acc.fit (env.input log i.byte (i.portOperand env.places s)) ∧
      (i.portElsewhere = true → u.reg .dx = i.portOperand env.places s) ∧
      ∀ r, r ≠ .flags → r ≠ .sp → pregsAlias i.acc r = false →
        (i.portElsewhere = true → pregsAlias .dx r = false) → u.read r = s.read r := by
  have hscratch : (if i.preserveAcc && i.dstAccAlias then [push i.scratchParent] else []) =
      if i.preserveAcc && i.dstAccAlias then [push .bx] else [] := by
    by_cases hb : (i.preserveAcc && i.dstAccAlias) = true
    · obtain ⟨q, hd, hq⟩ := hcan.inAx (Bool.and_eq_true_iff.mp hb).2
      rw [if_pos hb, if_pos hb, (hq.throughBx hd).parent]
    · rw [if_neg hb, if_neg hb]
  obtain ⟨a, hruna, hina, hreada⟩ := @run_pushIf env s s [] s.stack .bx log
    (i.preserveAcc && i.dstAccAlias) rfl (by decide) (within_refl s) (by decide) fun _ _ _ => rfl
  have hlena := saved_length (i.preserveAcc && i.dstAccAlias) s .bx
  have hlenb := saved_length i.preserveDx s .dx
  obtain ⟨b, hrunb, hinb, hreadb⟩ := @run_pushIf env _ _ _ _ .dx log i.preserveDx rfl (by decide)
    hina (by simp; omega) hreada
  obtain ⟨c, hrunc, hinc, hreadc⟩ := @run_pushIf env _ _ _ _ .ax log i.preserveAcc rfl (by decide)
    hinb (by simp; omega) hreadb
  obtain ⟨u, hrunu, hinu, haccu, hdxu, hreadu⟩ := @run_access env _ _ _ log _ hcan hroom hinc hreadc
  refine ⟨u, ?_, hinu, haccu, hdxu, hreadu⟩
  rw [hscratch, List.append_assoc _ _ [i.inInsn],
    portRun_append ((portRun_append ((portRun_append hruna).trans hrunb)).trans hrunc)]
  exact hrunu

/-- An input, whatever its width. -/
theorem run_in (hcan : i.InCan) (hroom : i.Room s) : ∃ u t,
    portRun env i.emitIn ⟨s, log⟩ = some ⟨t, log ++ [⟨false, i.byte, i.portOperand env.places s,
      i.acc.fit (env.input log i.byte (i.portOperand env.places s))⟩]⟩ ∧
      i.Ended (i.acc.fit (env.input log i.byte (i.portOperand env.places s))) s u t ∧
      (i.portElsewhere = true → u.reg .dx = i.portOperand env.places s) ∧
      ∀ r, r ≠ .flags → r ≠ .sp → pregsAlias i.acc r = false →
        (i.portElsewhere = true → pregsAlias .dx r = false) → u.read r = s.read r := by
  obtain ⟨u, hrun, hin, hacc, hdx, hread⟩ := @run_toAccess env s log i hcan hroom
  unfold emitIn
  by_cases hback : i.preserveAcc = true ∧ i.dstAccAlias = true
  · obtain ⟨q, hd, hq⟩ := hcan.inAx hback.2
    rw [hback.1, hback.2] at hin hrun ⊢
    obtain ⟨t, htail, hended⟩ := @ended_inAx env s u _ (log ++ [_]) i q hd hq hin hacc
    rw [portRun_append hrun, if_pos rfl]
    exact ⟨u, t, htail, hended, hdx, hread⟩
  · have hb : (i.preserveAcc && i.dstAccAlias) = false := by simpa using hback
    rw [hb] at hin hrun ⊢
    obtain ⟨t, htail, hended⟩ := @ended_elsewhere env s u _ (log ++ [_]) i hcan hroom hback hin hacc
      (hread .bp (by decide) (by decide) acc_apart_bp fun _ => rfl)
    rw [portRun_append hrun]
    exact ⟨u, t, htail, hended, hdx, hread⟩

theorem inSound_carried (hs : i.InSound) : i.InCarried := by
  rintro env ⟨s, log⟩ hroom
  have hroom : i.Room s := hroom
  obtain ⟨u, t, hrun, hended, -, hread⟩ := @run_in env s log i hs.can hroom
  have hport := portOperand_value hs.port env.places s
  rw [hport] at hrun hended
  exact ⟨⟨t, _⟩, hrun, _, rfl, rfl, hended.has hs hroom, kept_of_ended hs hended hread⟩

/-! ## Output -/

theorem OutSound.canMovTo (hs : i.OutSound) : i.data.CanMovTo i.acc := by
  have hwidth := hs.width
  unfold acc
  cases hb : i.byte with
  | false =>
    rw [hb] at hwidth
    exact wordOperand_canMov hwidth rfl
  | true =>
    rw [hb] at hwidth
    have hwidth : ∀ r, i.data.home = .reg r → r.isByte = true := hwidth
    unfold Source.CanMovTo
    cases hd : i.data.home with
    | reg r =>
      show Preg.canMov .al r = true
      rw [Preg.canMov, hwidth r hd]
      rfl
    | slot off => rfl
    | remat c => rfl

theorem OutSound.fit_operand (hs : i.OutSound) (pl : Addresses) (s : Cpu) :
    i.acc.fit (i.data.operand pl i.acc.isByte s) = i.acc.fit (i.data.value pl s) := by
  have hwidth := hs.width
  cases hb : i.byte with
  | true =>
    have hacc : i.acc.isByte = true := acc_isByte.trans hb
    exact Bind.fit_operand (fun h => absurd (hacc.symm.trans h) (by decide)) s
  | false =>
    rw [hb] at hwidth
    have hacc : i.acc.isByte = false := acc_isByte.trans hb
    rw [hacc, wordOperand_value hwidth]

/-- The instructions of an output are there. -/
structure OutCan (i : PortIo) : Prop where
  port : ∀ v, i.port = .vreg v → i.portElsewhere = true → i.saveAxPort = false → v.CanMovTo .dx
  data : i.valIsAcc = false → i.data.CanMovTo i.acc

theorem OutSound.can (hs : i.OutSound) : i.OutCan where
  port := fun v hport _ _ => by
    have hport' := hs.port
    unfold PortSound at hport'
    rw [hport] at hport'
    exact wordOperand_canMov hport' rfl
  data := fun _ => hs.canMovTo

/-- The value comes to the accumulator. -/
theorem run_loadValue (hcan : i.OutCan) (hroom : i.Room s) (h : Within ws s.stack s u)
    (hreg : ∀ r, i.data.home = .reg r → u.read r = s.read r) (hbp : u.read .bp = s.read .bp) :
    ∃ t, portRun env (if i.valIsAcc then [] else [.base (.move (i.data.movTo i.acc))]) ⟨u, log⟩ =
        some ⟨t, log⟩ ∧ Within ws s.stack s t ∧
      t.read i.acc = i.acc.fit (i.data.operand env.places i.acc.isByte s) ∧
      ∀ r, (i.valIsAcc = false → pregsAlias i.acc r = false) → t.read r = u.read r := by
  have hoperand : i.data.operand env.places i.acc.isByte u =
      i.data.operand env.places i.acc.isByte s :=
    operand_within _ h hreg (fun _ _ => hbp) fun off hoff => hroom off (.inl hoff)
  cases hval : i.valIsAcc with
  | true =>
    have hassigned : i.data.assigned = some i.acc := by
      unfold valIsAcc at hval
      exact eq_of_beq hval
    refine ⟨u, rfl, h, ?_, fun _ _ => rfl⟩
    have hread : u.read i.acc = i.data.operand env.places i.acc.isByte u := by
      unfold Source.operand
      rw [home_of_assigned hassigned]
    rw [← hoperand, ← hread, Cpu.fit_read]
  | false =>
    have hstep := @moveStep_movTo env.toMoveEnv i.data.toSource i.acc (hcan.data hval) u
    rw [hoperand] at hstep
    refine ⟨_, (portRun_cons (step_mov hstep log)).trans rfl, h.put acc_ne_sp _, ?_,
      fun r hr => Cpu.read_put_of_ne _ _ (hr rfl)⟩
    rw [Cpu.read_put_self]

theorem portElsewhere_vreg (h : i.portElsewhere = true) : ∃ v, i.port = .vreg v := by
  cases hport : i.port with
  | imm k =>
    rw [portElsewhere_imm hport] at h
    cases h
  | vreg v => exact ⟨v, rfl⟩

theorem portReady_dx (h : i.portElsewhere = true) (hdx : u.reg .dx = w) : i.PortReady w u := by
  obtain ⟨v, hport⟩ := portElsewhere_vreg h
  unfold PortReady
  rw [hport]
  exact hdx

/-- The port of an output. While the port and the value are in each other's place, all of `AX` is
saved for it. -/
def outPort (i : PortIo) (pl : Addresses) (s : Cpu) : Word :=
  if i.saveAxPort then s.reg .ax else i.portOperand pl s

/-- What has been pushed before an output is still there, and the port and the value are in
place. -/
structure OutReady (i : PortIo) (pl : Addresses) (ws : List Word) (s t : Cpu) : Prop where
  within : Within ws s.stack s t
  port : i.PortReady (i.outPort pl s) t
  value : t.read i.acc = i.acc.fit (i.data.operand pl i.acc.isByte s)
  regs : ∀ r, r ≠ .flags → r ≠ .sp → (i.valIsAcc = false → pregsAlias i.acc r = false) →
    (i.portElsewhere = true → pregsAlias .dx r = false) → t.read r = s.read r

/-- A port that is saved in `AX` is all of it. -/
theorem portValue_inAx {v : Operand} {pl : Addresses} (hport : i.port = .vreg v)
    (hword : WordOperand v) (hsave : i.saveAxPort = true) : i.portValue pl s = s.reg .ax := by
  have haliases : i.portAliasesAx = true := by
    unfold saveAxPort at hsave
    simp only [Bool.and_eq_true] at hsave
    exact hsave.1.2
  unfold portAliasesAx portPreg at haliases
  rw [hport] at haliases
  have haliases : v.assigned.any (fun r => pregsAlias r .ax) = true := haliases
  have hvalue := wordOperand_value hword pl s
  have hport' : i.portValue pl s = v.value pl s := by
    unfold portValue
    rw [hport]
  rw [hport', ← hvalue]
  unfold Source.operand
  unfold Source.assigned at haliases
  unfold WordOperand at hword
  cases hv : v.home with
  | reg r =>
    rw [hv] at haliases hword
    have hr : r = .ax := by
      have hal : pregsAlias r .ax = true := haliases
      have hbyte := hword.2
      clear hv haliases hword
      revert hal hbyte
      cases r <;> decide
    rw [hr]
    rfl
  | slot off =>
    rw [hv] at haliases
    cases haliases
  | remat c =>
    rw [hv] at haliases
    cases haliases

theorem outPort_value (h : i.PortSound) (pl : Addresses) (s : Cpu) :
    i.outPort pl s = i.portValue pl s := by
  unfold outPort
  cases hsave : i.saveAxPort with
  | false => exact portOperand_value h pl s
  | true =>
    have helse : i.portElsewhere = true := by
      unfold saveAxPort at hsave
      simp only [Bool.and_eq_true] at hsave
      exact hsave.1.1
    obtain ⟨v, hport⟩ := portElsewhere_vreg helse
    unfold PortSound at h
    rw [hport] at h
    exact (portValue_inAx hport h hsave).symm

theorem run_outReady (hcan : i.OutCan) (hroom : i.Room s)
    (h : Within (saved i.saveAxPort s .ax ++ ws) s.stack s u)
    (hread : ∀ r, r ≠ .flags → r ≠ .sp → u.read r = s.read r) :
    ∃ t, portRun env ((if i.portFirst then i.loadPort else []) ++
        (if i.valIsAcc then [] else [.base (.move (i.data.movTo i.acc))]) ++
        if i.portElsewhere && !i.portFirst then if i.saveAxPort then [pop .dx] else i.loadPort
        else []) ⟨u, log⟩ = some ⟨t, log⟩ ∧ i.OutReady env.places ws s t := by
  cases helse : i.portElsewhere with
  | false =>
    have hfirst : i.portFirst = false := by simp [portFirst, helse]
    have hsave : i.saveAxPort = false := by simp [saveAxPort, helse]
    rw [hsave] at h
    obtain ⟨t, hrun, hin, hvalue, hkeep⟩ := @run_loadValue env s u ws log i hcan hroom h
      (fun r hd => hread r (i.data.reg r hd).2.1 (i.data.reg r hd).1)
      (hread .bp (by decide) (by decide))
    rw [hfirst]
    refine ⟨t, (portRun_append hrun).trans rfl, hin, ?_, hvalue, fun r hf hr hacc _ => ?_⟩
    · unfold outPort
      rw [hsave]
      refine portReady_here helse ?_ _
      rw [hkeep .dx fun _ => by rw [pregsAlias_comm]; exact acc_apart_dx]
      exact hread .dx (by decide) (by decide)
    · exact (hkeep r hacc).trans (hread r hf hr)
  | true =>
    obtain ⟨v, hport⟩ := portElsewhere_vreg helse
    cases hsave : i.saveAxPort with
    | true =>
      -- the value takes the place of the port, which is on the stack by then
      have hfirst : i.portFirst = false := by simp [portFirst, hsave]
      rw [hsave] at h
      obtain ⟨a, hrun, hin, hvalue, hkeep⟩ := @run_loadValue env s u _ log i hcan hroom h
        (fun r hd => hread r (i.data.reg r hd).2.1 (i.data.reg r hd).1)
        (hread .bp (by decide) (by decide))
      have hin : Within (s.reg .ax :: ws) s.stack s a := hin
      rw [hfirst]
      refine ⟨(a.drop 1).setReg .dx (s.reg .ax), ?_, ?_, portReady_dx helse ?_, ?_,
        fun r hf hr hacc hdx => ?_⟩
      · exact (portRun_append hrun).trans ((portRun_cons (step_pop rfl hin log)).trans rfl)
      · exact (hin.drop).put (q := .dx) (by decide) _
      · unfold outPort
        rw [hsave]
        exact Cpu.setReg_reg _ _ _ _ |>.trans (if_pos rfl)
      · rw [← Cpu.put_eq_setReg _ _ rfl, Cpu.read_put_of_ne _ _ acc_apart_dx,
          Cpu.read_drop _ _ acc_ne_sp, hvalue]
      · rw [← Cpu.put_eq_setReg _ _ rfl, Cpu.read_put_of_ne _ _ (hdx helse), Cpu.read_drop _ _ hr,
          hkeep r hacc, hread r hf hr]
    | false =>
      rw [hsave] at h
      have h : Within ws s.stack s u := h
      have hout : i.outPort env.places s = i.portOperand env.places s := by
        unfold outPort
        rw [hsave]
        rfl
      have hload := hcan.port v hport helse hsave
      cases hfirst : i.portFirst with
      | true =>
        have hdata : ∀ r, i.data.home = .reg r → pregsAlias .dx r = false := by
          intro r hd
          have haliases : i.valAliasesDx = false := by
            unfold portFirst at hfirst
            unfold saveAxPort at hsave hfirst
            simp only [Bool.and_eq_true] at hfirst
            simpa [hfirst.1.1, hfirst.1.2] using hsave
          unfold valAliasesDx Source.assigned at haliases
          rw [hd] at haliases
          rw [pregsAlias_comm]
          exact haliases
        have hruna := @run_loadPort env s u ws log i v hport hload hroom h
          fun r hf hr _ => hread r hf hr
        have hina := h.put (q := .dx) (by decide) (i.portOperand env.places s)
        obtain ⟨t, hrun, hin, hvalue, hkeep⟩ := @run_loadValue env s _ ws log i hcan hroom hina
          (fun r hd => (Cpu.read_put_of_ne _ _ (hdata r hd)).trans
            (hread r (i.data.reg r hd).2.1 (i.data.reg r hd).1))
          (hread .bp (by decide) (by decide))
        refine ⟨t, ?_, hin, portReady_dx helse ?_, hvalue, fun r hf hr hacc hdx => ?_⟩
        · exact (portRun_append ((portRun_append hruna).trans hrun)).trans rfl
        · have hkept := hkeep .dx fun _ => by
            rw [pregsAlias_comm]
            exact acc_apart_dx
          rw [hout]
          exact hkept.trans (Cpu.read_put_self _ _ _)
        · exact (hkeep r hacc).trans ((Cpu.read_put_of_ne _ _ (hdx helse)).trans (hread r hf hr))
      | false =>
        have hapart : ∀ r, v.home = .reg r → pregsAlias i.acc r = false := by
          intro r hv
          have haliases : i.portAliasesAx = false := by simpa [portFirst, helse, hsave] using hfirst
          unfold portAliasesAx portPreg at haliases
          rw [hport] at haliases
          have haliases : v.assigned.any (fun r => pregsAlias r .ax) = false := haliases
          unfold Source.assigned at haliases
          rw [hv] at haliases
          exact acc_apart haliases
        obtain ⟨a, hruna, hina, hvalue, hkeep⟩ := @run_loadValue env s u ws log i hcan hroom h
          (fun r hd => hread r (i.data.reg r hd).2.1 (i.data.reg r hd).1)
          (hread .bp (by decide) (by decide))
        have hrun := @run_loadPort env s a ws log i v hport hload hroom hina fun r hf hr hv => by
          refine (hkeep r fun _ => ?_).trans (hread r hf hr)
          rcases hv with hv | rfl
          · exact hapart r hv
          · exact acc_apart_bp
        refine ⟨a.put .dx (i.portOperand env.places s), ?_, hina.put (by decide) _,
          portReady_dx helse ?_, ?_, fun r hf hr hacc hdx => ?_⟩
        · exact (portRun_append hruna).trans hrun
        · rw [hout]
          exact Cpu.read_put_self a .dx _
        · exact (Cpu.read_put_of_ne _ _ acc_apart_dx).trans hvalue
        · exact (Cpu.read_put_of_ne _ _ (hdx helse)).trans ((hkeep r hacc).trans (hread r hf hr))

theorem step_out {w' : Word} (h : i.PortReady w u) (hw : u.read i.acc = w')
    (log : List PortAccess) : portStep env i.outInsn ⟨u, log⟩ =
      some ⟨u, log ++ [⟨true, i.byte, w, w'⟩]⟩ := by
  unfold PortReady at h
  unfold outInsn
  cases hport : i.port with
  | imm k =>
    rw [hport] at h
    rw [← h, ← hw]
    rfl
  | vreg v =>
    rw [hport] at h
    rw [← h, ← hw]
    rfl

/-- An output, whatever the widths. -/
theorem run_out (hcan : i.OutCan) (hroom : i.Room s) : ∃ t,
    portRun env i.emitOut ⟨s, log⟩ = some ⟨t, log ++ [⟨true, i.byte, i.outPort env.places s,
      i.acc.fit (i.data.operand env.places i.acc.isByte s)⟩]⟩ ∧
      (∀ r ∈ i.liveAfter, r ≠ .flags → t.read r = s.read r) ∧
      (∀ a, (a - s.sp).toNat + 8 ≤ 65536 → t.stack a = s.stack a) ∧ t.sp = s.sp := by
  -- at most three words are saved
  have hlend := saved_length i.saveDx s .dx
  have hlena := saved_length i.saveAcc s .ax
  obtain ⟨a, hruna, hina, hreada⟩ := @run_pushIf env s s [] s.stack .dx log i.saveDx rfl (by decide)
    (within_refl s) (by decide) fun _ _ _ => rfl
  obtain ⟨b, hrunb, hinb, hreadb⟩ := @run_pushIf env _ _ _ _ .ax log i.saveAcc rfl (by decide)
    hina (by simp; omega) hreada
  obtain ⟨c, hrunc, hinc, hreadc⟩ := @run_pushIf env _ _ _ _ .ax log i.saveAxPort rfl (by decide)
    hinb (by simp; omega) hreadb
  obtain ⟨u, hrunu, hready⟩ := @run_outReady env s c _ log i hcan hroom hinc hreadc
  have hout := @step_out env u _ i _ hready.port hready.value log
  obtain ⟨d, hrund, hind, hkeepd, hbackd⟩ := @run_popIf env _ _ _ _ .ax
    (log ++ [⟨true, i.byte, i.outPort env.places s,
      i.acc.fit (i.data.operand env.places i.acc.isByte s)⟩])
    i.saveAcc rfl (by decide) hready.within
  obtain ⟨t, hrunt, hint, hkeept, hbackt⟩ := @run_popIf env _ _ _ _ .dx
    (log ++ [⟨true, i.byte, i.outPort env.places s,
      i.acc.fit (i.data.operand env.places i.acc.isByte s)⟩])
    i.saveDx rfl (by decide) hind
  refine ⟨t, ?_, fun r hr hf => ?_, fun a ha => hint.above a (by omega), ?_⟩
  · have hsaved := (portRun_append ((portRun_append hruna).trans hrunb)).trans hrunc
    have hbrought := (portRun_append hsaved).trans hrunu
    have hrunout : portRun env [i.outInsn] ⟨u, log⟩ = some ⟨u, log ++ [⟨true, i.byte,
        i.outPort env.places s,
      i.acc.fit (i.data.operand env.places i.acc.isByte s)⟩]⟩ :=
      (portRun_cons hout).trans rfl
    have haccessed := (portRun_append hbrought).trans hrunout
    have hback := (portRun_append ((portRun_append haccessed).trans hrund)).trans hrunt
    unfold emitOut
    simp only [List.append_assoc] at hback ⊢
    exact hback
  · by_cases hsp : r = .sp
    · have ht : t.sp = s.sp := by simpa using hint.sp
      rw [hsp]
      exact ht
    have hlive : ∀ p, pregsAlias p r = true → i.pregLiveAfter p = true := live_of_alias hr
    by_cases hdx : i.saveDx = true ∧ pregsAlias .dx r = true
    · exact hbackt r hdx.1 hdx.2
    have hdx : i.saveDx = true → pregsAlias .dx r = false := by simpa using hdx
    rw [hkeept r hsp hdx]
    by_cases hax : i.saveAcc = true ∧ pregsAlias .ax r = true
    · exact hbackd r hax.1 hax.2
    have hax : i.saveAcc = true → pregsAlias .ax r = false := by simpa using hax
    rw [hkeepd r hsp hax]
    -- whatever is written without being saved is not live
    refine hready.regs r hf hsp (fun hval => ?_) fun helse => ?_
    · cases hacc : pregsAlias i.acc r with
      | false => rfl
      | true =>
        have hsave : i.saveAcc = true := by simp [saveAcc, hval, hlive _ hacc]
        have hapart := hax hsave
        rw [pregsAlias_comm] at hapart
        rw [acc_apart hapart] at hacc
        cases hacc
    · cases hal : pregsAlias .dx r with
      | false => rfl
      | true =>
        have hsave : i.saveDx = true := by simp [saveDx, helse, hlive _ hal]
        rw [hdx hsave] at hal
        cases hal
  · simpa using hint.sp

theorem outSound_carried (hs : i.OutSound) : i.OutCarried := by
  rintro env ⟨s, log⟩ hroom
  obtain ⟨t, hrun, hregs, hstack, hsp⟩ := @run_out env s log i hs.can hroom
  rw [outPort_value hs.port, hs.fit_operand] at hrun
  exact ⟨⟨t, _⟩, hrun, rfl, hregs, hstack, hsp⟩

end PortIo

end Nib.Bind
