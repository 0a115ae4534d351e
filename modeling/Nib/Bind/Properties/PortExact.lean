import Mathlib
import Nib.Bind.Properties.PortIo

/-!
# Port input and output that works

* `ones` — a start from which every fault of an access can be seen
* `inSound_of_carried`, `outSound_of_carried` — without its condition an access fails
* `portIo_carried` — when an access is carried out
-/

namespace Nib.Bind

open Nib.Infra

variable {env : PortEnv} {q r : Preg}

/-! ## Accesses that are carried out -/

theorem canMovTo_of_step {v : Source} {a b : PortCpu}
    (h : portStep env (.base (.move (v.movTo q))) a = some b) : v.CanMovTo q := by
  have hstep : ∃ c, moveStep env.toMoveEnv (v.movTo q) a.cpu = some c := by
    obtain ⟨c, hc, -⟩ := Option.map_eq_some_iff.mp h
    exact ⟨c, hc⟩
  obtain ⟨c, hc⟩ := hstep
  unfold Source.movTo at hc
  unfold Source.CanMovTo
  cases hv : v.home with
  | reg r =>
    rw [hv] at hc
    exact (Option.ite_none_right_eq_some.mp hc).1
  | slot off =>
    rw [hv] at hc
    exact (Option.ite_none_right_eq_some.mp hc).1
  | remat c =>
    rw [hv] at hc
    exact (Option.ite_none_right_eq_some.mp hc).1

theorem Preg.fit_zero (r : Preg) : r.fit 0 = 0 := by
  cases r <;> rfl

/-- What is moved to somewhere from a register. -/
theorem canMovFrom_of_step {d : Source} {a b : PortCpu}
    (h : portStep env (.base (d.movFrom q)) a = some b) :
    match d.home with
    | .reg r => r.canMov q = true
    | .slot _ => True
    | .remat _ => False := by
  obtain ⟨c, hc, -⟩ := Option.map_eq_some_iff.mp h
  unfold Source.movFrom at hc
  cases hd : d.home with
  | reg r =>
    rw [hd] at hc
    exact (Option.ite_none_right_eq_some.mp hc).1
  | slot off => trivial
  | remat k =>
    rw [hd] at hc
    cases hc

/-- Every byte of the registers, of the frame and of the labels is one, but for `DX` and `SP`. -/
def ones (x p : Word) : Cpu :=
  ⟨fun r => if r = .dx then x else if r = .sp then p else 0x0101, 0, fun _ => 1⟩

theorem ones_room (a b : Word) :
    ∃ p : Word, (a - p).toNat + 9 ≤ 65536 ∧ (b - p).toNat + 9 ≤ 65536 := by
  by_cases h : (b - a).toNat + 9 ≤ 65536
  · refine ⟨a, ?_, h⟩
    rw [BitVec.sub_self]
    decide
  · refine ⟨b, ?_, ?_⟩
    · bv_omega
    · rw [BitVec.sub_self]
      decide

/-- The devices say nothing, and every label is at `0x0101`. -/
def quiet : PortEnv where
  places := ⟨fun _ => 0x0101, fun _ => 0x0101⟩
  flags := fun _ _ => 0
  shift := fun _ _ w _ f => (w, f)
  flagless := fun _ _ _ _ _ _ _ _ => rfl
  input := fun _ _ _ => 0

theorem ones_read (p : Word) (h : r.isByte = false) (hsp : r ≠ .sp) :
    (ones 0x0101 p).read r = 0x0101 := by
  rw [Cpu.read_eq_reg _ h]
  show (if r = .dx then (0x0101 : Word) else if r = .sp then p else 0x0101) = 0x0101
  rw [if_neg hsp]
  exact ite_self _

theorem ones_slot (x p : Word) (off : Int) : (ones x p).readSlot false off = 0x0101 := by
  have hword : joinBytes 1 1 = 0x0101 := by decide
  exact hword

/-- A vreg that is read as a word has that value only if it is a word. -/
theorem wordOperand_of_value {p : Word} {v : Operand}
    (hreg : ∀ r, v.home = .reg r → r.isByte = false)
    (h : v.operand quiet.places false (ones 0x0101 p) = v.value quiet.places (ones 0x0101 p)) :
    PortIo.WordOperand v := by
  have hbyte : (zeroExtend (low 0x0101) : Word) ≠ 0x0101 := by decide
  unfold Source.operand Source.value at h
  unfold PortIo.WordOperand
  cases hv : v.home with
  | reg r =>
    rw [hv] at h
    refine ⟨?_, hreg r hv⟩
    have hread := ones_read p (hreg r hv) (v.reg r hv).1
    cases hb : v.isByte with
    | false => rfl
    | true =>
      have h : (ones 0x0101 p).read r = if v.isByte then zeroExtend (low ((ones 0x0101 p).read r))
        else (ones 0x0101 p).read r := h
      rw [hread, hb] at h
      exact absurd h.symm hbyte
  | slot off =>
    rw [hv] at h
    cases hb : v.isByte with
    | false => rfl
    | true =>
      have h : (ones 0x0101 p).readSlot false off = (ones 0x0101 p).readSlot v.isByte off := h
      rw [hb, ones_slot] at h
      exact absurd h.symm hbyte
  | remat c =>
    rw [hv] at h
    intro hb
    have h : c.value quiet.places = if v.isByte then zeroExtend (low (c.value quiet.places))
      else c.value quiet.places := h
    rw [hb, if_pos rfl] at h
    cases c with
    | imm k => exact ⟨k, rfl, zeroExtend_low_ofInt.mp h.symm⟩
    | label name => exact absurd h.symm hbyte
    | segLabel name => exact absurd h.symm hbyte

/-- A byte register does not hold two bytes. -/
theorem value_ne_ones {v : Source} (hv : v.home = .reg r) (hr : r.isByte = true) (pl : Addresses)
    (s : Cpu) : v.value pl s ≠ 0x0101 := by
  have hread : zeroExtend (low (s.read r)) = s.read r := by
    rw [← Preg.fit_of_byte hr]
    exact Cpu.fit_read s r
  have hvalue : v.value pl s = zeroExtend (low (s.read r)) := by
    unfold Source.value
    rw [hv]
    show (if v.isByte then zeroExtend (low (s.read r)) else s.read r) = zeroExtend (low (s.read r))
    rw [hread]
    exact ite_self _
  intro h
  have hbyte : zeroExtend (low (v.value pl s)) = v.value pl s := by
    rw [hvalue, hread, hread]
  rw [h] at hbyte
  exact absurd hbyte (by decide)

namespace PortIo

variable {i : PortIo}

/-- Where a slot lies then. -/
def onesAddr : Home → Word
  | .slot off => 0x0101 + BitVec.ofInt 16 off
  | _ => 0

def onesPort : Port → Word
  | .vreg v => onesAddr v.home
  | .imm _ => 0

/-- Both slots are clear of the stack pointer, with a byte to spare. -/
theorem ones_clear (i : PortIo) : ∃ p : Word, ∀ x off,
    i.data.home = .slot off ∨ (∃ v, i.port = .vreg v ∧ v.home = .slot off) →
      ((ones x p).slotAddr off - p).toNat + 9 ≤ 65536 := by
  obtain ⟨p, hdata, hport⟩ := ones_room (onesAddr i.data.home) (onesPort i.port)
  refine ⟨p, fun x off hoff => ?_⟩
  have haddr : (ones x p).slotAddr off = 0x0101 + BitVec.ofInt 16 off := rfl
  rw [haddr]
  rcases hoff with hoff | ⟨v, hv, hoff⟩
  · rw [hoff] at hdata
    exact hdata
  · rw [hv, onesPort, hoff] at hport
    exact hport

theorem mem_loadPort {v : Operand} (hport : i.port = .vreg v) :
    (.base (.move (v.movTo .dx)) : PortInsn) ∈ i.loadPort := by
  unfold loadPort
  rw [hport]
  exact List.mem_singleton_self _

theorem scratch_kind (i : PortIo) : i.scratch.isByte = i.byte ∧ i.scratch.isSegment = false := by
  have hparent : ∀ r, (scratchWordNotAliasing r).isByte = false ∧
      (scratchWordNotAliasing r).isSegment = false := by
    intro r
    cases r <;> decide
  obtain ⟨hbyte, hseg⟩ := hparent (i.data.assigned.getD .ax)
  unfold scratch
  cases i.byte with
  | false => exact ⟨hbyte, hseg⟩
  | true =>
    show (scratchByteForParent i.scratchParent).isByte = true ∧
      (scratchByteForParent i.scratchParent).isSegment = false
    unfold scratchByteForParent
    split <;> exact ⟨rfl, rfl⟩

/-- The data come from a register of the width of the access. -/
theorem movFrom_of_run {a b : PortCpu} (h : portRun env i.emitIn a = some b)
    (hacc : i.data.assigned ≠ some i.acc) :
    ∃ q u v, q.isByte = i.byte ∧ q.isSegment = false ∧
      portStep env (.base (i.data.movFrom q)) u = some v := by
  by_cases hback : (i.preserveAcc && i.dstAccAlias) = true
  · have hmem : (.base (i.data.movFrom i.scratch) : PortInsn) ∈ i.emitIn := by
      simp [emitIn, hback]
    obtain ⟨u, v, hstep⟩ := (portRun_runs env).stepped h _ hmem
    obtain ⟨hbyte, hseg⟩ := i.scratch_kind
    exact ⟨i.scratch, u, v, hbyte, hseg, hstep⟩
  · have hmem : (.base (i.data.movFrom i.acc) : PortInsn) ∈ i.emitIn := by
      simp [emitIn, hback, hacc]
    obtain ⟨u, v, hstep⟩ := (portRun_runs env).stepped h _ hmem
    refine ⟨i.acc, u, v, acc_isByte, ?_, hstep⟩
    unfold acc
    split_ifs <;> rfl

/-- An input has its instructions if it runs at all. -/
theorem inCan_of_run {a b : PortCpu} (h : portRun env i.emitIn a = some b) : i.InCan where
  port := fun v hport helse => by
    have hmem : (.base (.move (v.movTo .dx)) : PortInsn) ∈ i.emitIn := by
      simp [emitIn, helse, mem_loadPort hport]
    obtain ⟨c, d, hstep⟩ := (portRun_runs env).stepped h _ hmem
    exact canMovTo_of_step hstep
  data := by
    by_cases hacc : i.data.assigned = some i.acc
    · rw [home_of_assigned hacc]
      refine ⟨acc_isByte, ?_⟩
      unfold acc
      split_ifs <;> decide
    · obtain ⟨q, u, v, hbyte, hseg, hstep⟩ := movFrom_of_run h hacc
      have hcan := canMovFrom_of_step hstep
      cases hd : i.data.home with
      | reg r =>
        rw [hd] at hcan
        rw [← hbyte]
        clear hd hstep
        revert hcan hseg
        cases q <;> cases r <;> decide
      | slot off => trivial
      | remat c =>
        rw [hd] at hcan
        exact hcan

theorem outCan_of_run {a b : PortCpu} (h : portRun env i.emitOut a = some b) : i.OutCan where
  port := fun v hport helse hsave => by
    have hmem : (.base (.move (v.movTo .dx)) : PortInsn) ∈ i.emitOut := by
      cases hfirst : i.portFirst <;> simp [emitOut, helse, hsave, hfirst, mem_loadPort hport]
    obtain ⟨c, d, hstep⟩ := (portRun_runs env).stepped h _ hmem
    exact canMovTo_of_step hstep
  data := fun hval => by
    have hmem : (.base (.move (i.data.movTo i.acc)) : PortInsn) ∈ i.emitOut := by
      simp [emitOut, hval]
    obtain ⟨c, d, hstep⟩ := (portRun_runs env).stepped h _ hmem
    exact canMovTo_of_step hstep

/-- A register that goes to a word register is none of the bytes. -/
theorem word_of_canMov {v : Operand} (hq : q.isWord = true) (h : v.CanMovTo q) :
    ∀ r, v.home = .reg r → r.isByte = false := by
  intro r hv
  unfold Source.CanMovTo at h
  rw [hv] at h
  have h : q.canMov r = true := h
  clear hv
  revert hq h
  cases q <;> cases r <;> decide

theorem portSound_of_value {p : Word}
    (hreg : ∀ v, i.port = .vreg v → ∀ r, v.home = .reg r → r.isByte = false)
    (h : i.portOperand quiet.places (ones 0x0101 p) = i.portValue quiet.places (ones 0x0101 p)) :
    i.PortSound := by
  unfold portOperand portValue at h
  unfold PortSound
  cases hport : i.port with
  | imm k =>
    rw [hport] at h
    exact zeroExtend_low_ofInt.mp h
  | vreg v =>
    rw [hport] at h
    exact wordOperand_of_value (hreg v hport) h

theorem home_of_here {v : Operand} (hport : i.port = .vreg v) (helse : i.portElsewhere = false) :
    v.home = .reg .dx := by
  unfold portElsewhere at helse
  rw [hport] at helse
  exact home_of_assigned (by simpa using helse)

/-- A port that is brought to `DX` is no byte register, and neither is `DX`. -/
theorem port_word (hload : ∀ v, i.port = .vreg v → i.portElsewhere = true → v.CanMovTo .dx) :
    ∀ v, i.port = .vreg v → ∀ r, v.home = .reg r → r.isByte = false := by
  intro v hport r hv
  cases helse : i.portElsewhere with
  | true => exact word_of_canMov rfl (hload v hport helse) r hv
  | false =>
    cases (home_of_here hport helse).symm.trans hv
    rfl

theorem ones_room_of_clear {x p : Word} (h : ∀ x off,
    i.data.home = .slot off ∨ (∃ v, i.port = .vreg v ∧ v.home = .slot off) →
      ((ones x p).slotAddr off - p).toNat + 9 ≤ 65536) : i.Room (ones x p) := by
  intro off hoff
  have hclear := h x off hoff
  show ((ones x p).slotAddr off - p).toNat + 8 ≤ 65536
  omega

/-- A port that is saved in `AX` is in a register. -/
theorem portReg_of_save (h : i.saveAxPort = true) :
    ∃ v r, i.port = .vreg v ∧ v.home = .reg r := by
  unfold saveAxPort at h
  simp only [Bool.and_eq_true] at h
  obtain ⟨v, hport⟩ := portElsewhere_vreg h.1.1
  have haliases := h.1.2
  unfold portAliasesAx portPreg at haliases
  rw [hport] at haliases
  obtain ⟨r, hr, -⟩ := (Option.any_eq_true _ _).mp haliases
  exact ⟨v, r, hport, home_of_assigned hr⟩

theorem outSound_of_carried (h : i.OutCarried) : i.OutSound := by
  obtain ⟨p, hclear⟩ := i.ones_clear
  have hroom : i.Room (ones 0x0101 p) := ones_room_of_clear hclear
  obtain ⟨t, hrun, hlog, -⟩ := h quiet ⟨ones 0x0101 p, []⟩ hroom
  have hcan := outCan_of_run hrun
  obtain ⟨t', hrun', -⟩ := @run_out quiet _ [] i hcan hroom
  cases Option.some.inj (hrun.symm.trans hrun')
  have haccess := (List.cons.inj hlog).1
  have hport : i.outPort quiet.places (ones 0x0101 p) = i.portValue quiet.places (ones 0x0101 p) :=
    congrArg PortAccess.port haccess
  have hdata : i.acc.fit (i.data.operand quiet.places i.acc.isByte (ones 0x0101 p)) =
      i.acc.fit (i.data.value quiet.places (ones 0x0101 p)) := congrArg PortAccess.data haccess
  refine ⟨?_, ?_⟩
  · cases hsave : i.saveAxPort with
    | false =>
      unfold outPort at hport
      rw [hsave] at hport
      exact portSound_of_value (port_word fun v hv helse => hcan.port v hv helse hsave) hport
    | true =>
      obtain ⟨v, r, hv, hr⟩ := portReg_of_save hsave
      have hone : i.outPort quiet.places (ones 0x0101 p) = 0x0101 := by
        unfold outPort
        rw [hsave]
        rfl
      have hvalue : i.portValue quiet.places (ones 0x0101 p) =
          v.value quiet.places (ones 0x0101 p) := by
        unfold portValue
        rw [hv]
      have hword : r.isByte = false := by
        cases hbyte : r.isByte with
        | false => rfl
        | true =>
          exact absurd (hvalue.symm.trans (hport.symm.trans hone))
            (value_ne_ones hr hbyte quiet.places _)
      have hoperand : i.portOperand quiet.places (ones 0x0101 p) = 0x0101 := by
        unfold portOperand Source.operand
        rw [hv]
        show (match v.home with
          | .reg r => (ones 0x0101 p).read r
          | .slot off => (ones 0x0101 p).readSlot false off
          | .remat c => c.value quiet.places) = 0x0101
        rw [hr]
        exact ones_read p hword (v.reg r hr).1
      refine portSound_of_value (fun v' hv' r' hr' => ?_)
        (hoperand.trans (hone.symm.trans hport))
      cases hv.symm.trans hv'
      cases hr.symm.trans hr'
      exact hword
  · cases hb : i.byte with
    | true =>
      have hacc : i.acc = .al := by simp [acc, hb]
      intro r hd
      cases hval : i.valIsAcc with
      | true =>
        unfold valIsAcc at hval
        rw [assigned_of_home hd, hacc] at hval
        rw [Option.some.inj (eq_of_beq hval)]
        rfl
      | false =>
        have hmov := hcan.data hval
        unfold Source.CanMovTo at hmov
        rw [hd, hacc] at hmov
        have hmov : Preg.canMov .al r = true := hmov
        clear hd
        revert hmov
        cases r <;> decide
    | false =>
      have hacc : i.acc = .ax := by simp [acc, hb]
      rw [hacc] at hdata
      refine wordOperand_of_value (fun r hd => ?_) hdata
      cases hval : i.valIsAcc with
      | true =>
        unfold valIsAcc at hval
        rw [assigned_of_home hd, hacc] at hval
        rw [Option.some.inj (eq_of_beq hval)]
        rfl
      | false =>
        have hmov := hcan.data hval
        rw [hacc] at hmov
        exact word_of_canMov rfl hmov r hd

/-- What is known of an input that is carried out from `ones`. -/
theorem ended_of_carried {p : Word} (h : i.InCarried) (hroom : ∀ x, i.Room (ones x p)) (x : Word) :
    ∃ u t, i.Ended (i.acc.fit 0) (ones x p) u t ∧
      i.portOperand quiet.places (ones x p) = i.portValue quiet.places (ones x p) ∧
      i.data.Has 0 (ones x p) t ∧ i.Kept (ones x p) t ∧
      (i.portElsewhere = true → u.reg .dx = i.portOperand quiet.places (ones x p)) := by
  obtain ⟨t, hrun, w, hw, hlog, hhas, hkept⟩ := h quiet ⟨ones x p, []⟩ (hroom x)
  obtain ⟨u, t', hrun', hended, hdx, -⟩ := @run_in quiet _ [] i (inCan_of_run hrun) (hroom x)
  cases Option.some.inj (hrun.symm.trans hrun')
  have haccess := (List.cons.inj hlog).1
  refine ⟨u, t', hended, congrArg PortAccess.port haccess, ?_, hkept, hdx⟩
  have hzero : w = 0 := by
    rw [hw]
    exact (accOf i.byte).fit_zero
  rwa [hzero] at hhas

theorem width_of_carried (h : i.InCarried) {p : Word} {off : Int} (hd : i.data.home = .slot off)
    (hroom : ∀ x, i.Room (ones x p)) (hclear : ((ones 0 p).slotAddr off - p).toNat + 9 ≤ 65536) :
    i.data.isByte = i.byte := by
  obtain ⟨u, t, hended, -, hhas, hkept, -⟩ := ended_of_carried h hroom 0
  have hacc : i.acc.fit 0 = 0 := i.acc.fit_zero
  have hnext := hended.stack ((ones 0 p).slotAddr off + 1) (by
    show ((ones 0 p).slotAddr off + 1 - p).toNat + 7 ≤ 65536
    bv_omega)
  rw [stored_slot hd, hacc] at hnext
  have hapart : (ones 0 p).slotAddr off + 1 ≠ (ones 0 p).slotAddr off := by bv_omega
  cases hb : i.byte with
  | true =>
    -- only the low byte of a word is written
    rw [hb, write_of_notMem (by rintro (h | ⟨h, -⟩); exacts [hapart h, nomatch h])] at hnext
    have hone : t.stack ((ones 0 p).slotAddr off + 1) = 1 := hnext
    cases hbyte : i.data.isByte with
    | true => rfl
    | false =>
      unfold Source.Has at hhas
      rw [hd] at hhas
      have hhas : readWord t.stack ((ones 0 p).slotAddr off) = 0 := by simpa [hbyte] using hhas
      have hhigh : high (readWord t.stack ((ones 0 p).slotAddr off)) = 1 := by
        rw [readWord, high_joinBytes, hone]
      rw [hhas] at hhigh
      exact absurd hhigh (by decide)
  | false =>
    cases hbyte : i.data.isByte with
    | false => rfl
    | true =>
      -- the byte behind the destination is written as well
      have hkeep := hkept.bytes ((ones 0 p).slotAddr off + 1)
        (by
          show ((ones 0 p).slotAddr off + 1 - p).toNat + 8 ≤ 65536
          bv_omega)
        (fun off' hoff' => by
          cases hd.symm.trans hoff'
          exact ⟨hapart, fun h => absurd (hbyte.symm.trans h) (by decide)⟩)
      rw [hkeep, hb] at hnext
      have hzero : write false (ones 0 p).stack ((ones 0 p).slotAddr off) 0
          ((ones 0 p).slotAddr off + 1) = 0 := by
        unfold write
        rw [if_neg hapart]
        simp [high]
      exact absurd (show (1 : BitVec 8) = 0 from hnext.trans hzero) (by decide)

theorem read_congr_dx {a b : Cpu} (hr : pregsAlias .dx r = true) (h : a.reg .dx = b.reg .dx) :
    a.read r = b.read r := by
  cases r <;> first
    | exact absurd hr (by decide)
    | simp only [Cpu.read, Preg.aliasParent, h]

/-- The port does not depend on `DX` unless it is there. -/
theorem portOperand_ones (hcan : i.InCan) (helse : i.portElsewhere = true) (x y p : Word) :
    i.portOperand quiet.places (ones x p) = i.portOperand quiet.places (ones y p) := by
  obtain ⟨v, hport⟩ := portElsewhere_vreg helse
  unfold portOperand Source.operand
  rw [hport]
  cases hv : v.home with
  | reg r =>
    have hword := word_of_canMov rfl (hcan.port v hport helse) r hv
    have hdx : r ≠ .dx := by
      rintro rfl
      unfold portElsewhere at helse
      rw [hport] at helse
      have helse : (v.assigned != some .dx) = true := helse
      rw [assigned_of_home hv] at helse
      exact absurd helse (by decide)
    show (match v.home with
      | .reg r => (ones x p).read r
      | .slot off => (ones x p).readSlot false off
      | .remat c => c.value quiet.places) = match v.home with
      | .reg r => (ones y p).read r
      | .slot off => (ones y p).readSlot false off
      | .remat c => c.value quiet.places
    rw [hv]
    show (ones x p).read r = (ones y p).read r
    rw [Cpu.read_eq_reg _ hword, Cpu.read_eq_reg _ hword]
    exact (if_neg hdx).trans (if_neg hdx).symm
  | slot off => simp only [hv]; rfl
  | remat c => simp only [hv]

theorem inSound_of_carried (h : i.InCarried) : i.InSound := by
  obtain ⟨p, hclear⟩ := i.ones_clear
  have hroom : ∀ x, i.Room (ones x p) := fun x => ones_room_of_clear hclear
  have hcan : i.InCan := by
    obtain ⟨t, hrun, -⟩ := h quiet ⟨ones 0 p, []⟩ (hroom 0)
    exact inCan_of_run hrun
  obtain ⟨-, -, -, hport, -⟩ := ended_of_carried h hroom 0x0101
  refine ⟨portSound_of_value (port_word hcan.port) hport, ?_, fun helse hdst r hr hspares => ?_⟩
  · have hdata := hcan.data
    cases hd : i.data.home with
    | reg q =>
      rw [hd] at hdata
      exact hdata
    | slot off => exact width_of_carried h hd hroom (hclear 0 off (.inl hd))
    | remat c =>
      rw [hd] at hdata
      exact hdata
  · cases hal : pregsAlias .dx r with
    | false => rfl
    | true =>
      have hkeep : i.preserveDx = false := by simp [preserveDx, hdst]
      have hflags : r ≠ .flags := by
        rintro rfl
        cases hal
      -- what is left in `DX` is the port, whatever was there
      have hleft : ∀ x, ∃ u : Cpu, u.reg .dx = i.portOperand quiet.places (ones x p) ∧
          u.read r = (ones x p).read r := by
        intro x
        obtain ⟨u, t, hended, -, -, hkept, hdx⟩ := ended_of_carried h hroom x
        exact ⟨u, hdx helse, (hended.dx r hkeep hal hspares).symm.trans
          (hkept.regs r hr hflags hspares)⟩
      obtain ⟨u, hu, hread⟩ := hleft 0x0202
      obtain ⟨u', hu', hread'⟩ := hleft 0x0303
      have hsame : (ones 0x0202 p).read r = (ones 0x0303 p).read r := by
        rw [← hread, ← hread']
        exact read_congr_dx hal (hu.trans ((portOperand_ones hcan helse _ _ p).trans hu'.symm))
      have hdiffer : (ones 0x0202 0).read r ≠ (ones 0x0303 0).read r := by
        clear hspares hr hread hread' hsame hleft
        revert hal
        cases r <;> decide
      have hsp : ∀ x, (ones x 0).read r = (ones x p).read r := fun x => read_congr_dx hal rfl
      exact absurd ((hsp _).trans (hsame.trans (hsp _).symm)) hdiffer

end PortIo

/-- **Port input and output**: an input or an output is one access at the port, with the data, and
what is live comes through it, exactly under its condition. -/
theorem portIo_carried (i : PortIo) :
    (i.InCarried ↔ i.InSound) ∧ (i.OutCarried ↔ i.OutSound) :=
  ⟨⟨PortIo.inSound_of_carried, PortIo.inSound_carried⟩,
    ⟨PortIo.outSound_of_carried, PortIo.outSound_carried⟩⟩

/-- A byte for `AH` from the port in `SI`, while `AL` and `DX` are in use. -/
def inToHigh : PortIo where
  byte := true
  port := .vreg (.inReg .si false Preg.si_general)
  data := .inReg .ah true Preg.ah_general
  liveAfter := [.al, .ah, .dx]

theorem inToHigh_sound : inToHigh.InSound where
  port := ⟨rfl, rfl⟩
  width := ⟨rfl, by decide⟩
  halves := fun _ h => nomatch h

/-- A byte in `DL` for the port in `AX`, while both are in use. -/
def outCrossed : PortIo where
  byte := true
  port := .vreg (.inReg .ax false Preg.ax_general)
  data := .inReg .dl true Preg.dl_general
  liveAfter := [.ax, .dx]

theorem outCrossed_sound : outCrossed.OutSound where
  port := ⟨rfl, rfl⟩
  width := fun _ h => Home.reg.inj h ▸ rfl

theorem portIo_crossed : inToHigh.InCarried ∧ outCrossed.OutCarried :=
  ⟨(portIo_carried inToHigh).1.mpr inToHigh_sound,
    (portIo_carried outCrossed).2.mpr outCrossed_sound⟩

/-- The modem status port of the first serial line does not fit into the instruction. -/
def inSerial : PortIo where
  byte := true
  port := .imm 0x3FE
  data := .inReg .al true (by decide)

theorem inSerial_lost : ¬inSerial.InCarried := by
  intro h
  let env : PortEnv :=
    { places := ⟨fun _ => 0, fun _ => 0⟩, flags := fun _ _ => 0,
      shift := fun _ _ w _ f => (w, f), flagless := fun _ _ _ _ _ _ _ _ => rfl,
      input := fun _ _ _ => 0 }
  let s : PortCpu := ⟨⟨fun _ => 0, 0, fun _ => 0⟩, []⟩
  have hroom : inSerial.Room s.cpu := by
    rintro off (hoff | ⟨v, hport, -⟩)
    · cases hoff
    · cases hport
  obtain ⟨t, hrun, w, -, hlog, -⟩ := h env s hroom
  have hport : t.log.map PortAccess.port = [0xFE] := by
    have hran : (portRun env inSerial.emitIn s).map (fun t => t.log.map PortAccess.port) =
        some [0xFE] := by decide
    rw [hrun] at hran
    exact Option.some.inj hran
  rw [hlog] at hport
  have hhead : BitVec.ofInt 16 0x3FE = (0xFE : Word) := (List.cons.inj hport).1
  exact absurd hhead (by decide)

end Nib.Bind
