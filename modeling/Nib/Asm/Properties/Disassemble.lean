import Nib.Asm.Spec.Disassemble
import Nib.Asm.Properties.Branch
import Nib.Asm.Properties.Operation

/-!
# The disassembler reads what the assembler emits

* `Takes`, `Lists` — the bytes of the operands of an opcode, and of one instruction
* `Entries` — the tables of the assembler and of the disassembler
* `Instr.lists_of_listed`, `Instr.misses_of_not_listed` — one instruction, after any prefixes
* `dis86_agrees_iff` — any line with an instruction, and a listing of several
-/

namespace Nib.Asm

/-! ## Reading -/

@[simp] theorem fetch_cons (b : Nat) (src : List Nat) (pos : Nat) :
    fetch { src := b :: src, pos } = (b, { src, pos := pos + 1 }) := rfl

@[simp] theorem fetch16_cons (b c : Nat) (src : List Nat) (pos : Nat) :
    fetch16 { src := b :: c :: src, pos } = (b ||| (c <<< 8), { src, pos := pos + 2 }) := rfl

/-- `modrmEa` reads the same bytes as the processor. -/
theorem modrmEa_of_decodeRm {bytes rest : List Nat} {field : Nat} {arg : RmArg}
    (h : decodeRm bytes = some (field, arg, rest)) (w pos : Nat) : ∃ text n, modrmEa w
      { src := bytes, pos } = (field, text, { src := rest, pos := pos + n }) ∧
        bytes.length = n + rest.length := by
  cases bytes with
  | nil => cases h
  | cons m tl =>
    show ∃ text n, (if m / 64 = 3 then _ else if m / 64 = 0 ∧ m % 8 = 6 then _ else
      if m / 64 = 0 then _ else if m / 64 = 1 then _ else _) = _ ∧ _
    by_cases h3 : m / 64 = 3
    · simp only [decodeRm, h3, if_true, Option.some.injEq, Prod.mk.injEq] at h
      obtain ⟨rfl, -, rfl⟩ := h
      rw [if_pos h3]
      exact ⟨_, 1, rfl, Nat.add_comm _ _⟩
    rw [if_neg h3]
    by_cases h0 : m / 64 = 0 ∧ m % 8 ≠ 6
    · have hne : ¬(m / 64 = 0 ∧ m % 8 = 6) := fun hc => h0.2 hc.2
      simp only [decodeRm, h0, if_true, ne_eq, not_false_eq_true, and_self] at h
      obtain ⟨rfl, -, rfl⟩ : m / 8 % 8 = field ∧ _ ∧ tl = rest := by simpa using h
      rw [if_neg hne, if_pos h0.1]
      exact ⟨_, 1, rfl, Nat.add_comm _ _⟩
    by_cases h1 : m / 64 = 1
    · have hne : ¬(m / 64 = 0 ∧ m % 8 = 6) := fun hc => by omega
      have hne' : ¬m / 64 = 0 := by omega
      rw [if_neg hne, if_neg hne', if_pos h1]
      cases tl with
      | nil => simp [decodeRm, h1] at h
      | cons d tl =>
        obtain ⟨rfl, -, rfl⟩ : m / 8 % 8 = field ∧ _ ∧ tl = rest := by simpa [decodeRm, h1] using h
        show ∃ text n, (if 0 ≤ int8 d then _ else _) = _ ∧ _
        have hlen : (m :: d :: tl).length = 2 + tl.length := Nat.add_comm tl.length 2
        by_cases hd : 0 ≤ int8 d
        · rw [if_pos hd]
          exact ⟨_, 2, rfl, hlen⟩
        · rw [if_neg hd]
          exact ⟨_, 2, rfl, hlen⟩
    · rcases tl with _ | ⟨low, _ | ⟨high, tl⟩⟩
      · simp only [decodeRm, h3, h0, h1, if_false] at h
        cases h
      · simp only [decodeRm, h3, h0, h1, if_false] at h
        cases h
      · simp only [decodeRm, h3, h0, h1, if_false, Option.some.injEq, Prod.mk.injEq] at h
        obtain ⟨rfl, -, rfl⟩ := h
        have hlen : (m :: low :: high :: tl).length = 3 + tl.length := Nat.add_comm tl.length 3
        split_ifs with h6 h64
        · exact ⟨_, 3, rfl, hlen⟩
        · exact absurd ⟨h64, fun hc => h6 ⟨h64, hc⟩⟩ h0
        · exact ⟨_, 3, rfl, hlen⟩

theorem modrmEa_emitRm {op : Operand} {r : Nat} (h : op.Wf) (hr : r < 8)
    (he : (emitRm op r).errors = 0) (w : Nat) (rest : List Nat) (pos : Nat) : ∃ text, modrmEa w
      { src := (emitRm op r).bytes ++ rest, pos } =
        (r, text, { src := rest, pos := pos + (emitRm op r).bytes.length }) := by
  obtain ⟨text, n, hread, hlen⟩ := modrmEa_of_decodeRm (decodeRm_emitRm h hr he rest) w pos
  rw [List.length_append] at hlen
  exact ⟨text, by rw [hread, show n = (emitRm op r).bytes.length by omega]⟩

/-- The operands of a shape are these bytes, whatever follows, and their field is `r`. -/
def Takes (shape : Shape) (bytes : List Nat) (r : Nat) : Prop :=
  ∀ ip rest pos, ∃ text, shape.read ip { src := bytes ++ rest, pos } =
    (r, text, { src := rest, pos := pos + bytes.length })

theorem takes_fixed (text : String) : Takes (.fixed text) [] 0 := fun _ _ _ => ⟨_, rfl⟩

theorem takes_imm8 (a b : String) (n : Nat) : Takes (.imm8 a b) [n] 0 := fun _ _ _ => ⟨_, rfl⟩

theorem takes_imm16 (a b : String) (m n : Nat) : Takes (.imm16 a b) [m, n] 0 :=
  fun _ _ _ => ⟨_, rfl⟩

theorem takes_near8 (n : Nat) : Takes .near8 [n] 0 := fun _ _ _ => ⟨_, rfl⟩

theorem takes_near16 (m n : Nat) : Takes .near16 [m, n] 0 := fun _ _ _ => ⟨_, rfl⟩

theorem takes_far (m n m' n' : Nat) : Takes .far [m, n, m', n'] 0 := fun _ _ _ => ⟨_, rfl⟩

theorem takes_enter (m n l : Nat) : Takes .enter [m, n, l] 0 := fun _ _ _ => ⟨_, rfl⟩

section Rm

variable {op : Operand} {r : Nat} (h : op.Wf) (hr : r < 8) (he : (emitRm op r).errors = 0)

include h hr he

theorem takes_rm (w : Nat) (after : String) : Takes (.rm w after) (emitRm op r).bytes r :=
  fun ip rest pos => by
    obtain ⟨text, hread⟩ := modrmEa_emitRm h hr he w rest pos
    simp only [Shape.read, hread]
    exact ⟨_, rfl⟩

theorem takes_rmReg (w : Nat) : Takes (.rmReg w) (emitRm op r).bytes r := fun ip rest pos => by
  obtain ⟨text, hread⟩ := modrmEa_emitRm h hr he w rest pos
  simp only [Shape.read, hread]
  exact ⟨_, rfl⟩

theorem takes_regRm (w : Nat) : Takes (.regRm w) (emitRm op r).bytes r := fun ip rest pos => by
  obtain ⟨text, hread⟩ := modrmEa_emitRm h hr he w rest pos
  simp only [Shape.read, hread]
  exact ⟨_, rfl⟩

theorem takes_rmSreg : Takes .rmSreg (emitRm op r).bytes r := fun ip rest pos => by
  obtain ⟨text, hread⟩ := modrmEa_emitRm h hr he 1 rest pos
  simp only [Shape.read, hread]
  exact ⟨_, rfl⟩

theorem takes_sregRm : Takes .sregRm (emitRm op r).bytes r := fun ip rest pos => by
  obtain ⟨text, hread⟩ := modrmEa_emitRm h hr he 1 rest pos
  simp only [Shape.read, hread]
  exact ⟨_, rfl⟩

theorem takes_rmImm8 (w n : Nat) : Takes (.rmImm8 w) ((emitRm op r).bytes ++ [n]) r :=
  fun ip rest pos => by
    obtain ⟨text, hread⟩ := modrmEa_emitRm h hr he w ([n] ++ rest) pos
    rw [List.append_assoc, List.length_append]
    simp only [Shape.read, hread]
    exact ⟨_, rfl⟩

theorem takes_rmImm16 (w m n : Nat) : Takes (.rmImm16 w) ((emitRm op r).bytes ++ [m, n]) r :=
  fun ip rest pos => by
    obtain ⟨text, hread⟩ := modrmEa_emitRm h hr he w ([m, n] ++ rest) pos
    rw [List.append_assoc, List.length_append]
    simp only [Shape.read, hread]
    exact ⟨_, rfl⟩

theorem takes_regRmImm8 (n : Nat) : Takes .regRmImm8 ((emitRm op r).bytes ++ [n]) r :=
  fun ip rest pos => by
    obtain ⟨text, hread⟩ := modrmEa_emitRm h hr he 1 ([n] ++ rest) pos
    rw [List.append_assoc, List.length_append]
    simp only [Shape.read, hread]
    exact ⟨_, rfl⟩

theorem takes_regRmImm16 (m n : Nat) : Takes .regRmImm16 ((emitRm op r).bytes ++ [m, n]) r :=
  fun ip rest pos => by
    obtain ⟨text, hread⟩ := modrmEa_emitRm h hr he 1 ([m, n] ++ rest) pos
    rw [List.append_assoc, List.length_append]
    simp only [Shape.read, hread]
    exact ⟨_, rfl⟩

theorem takes_group3 (hr2 : 2 ≤ r) (w : Nat) : Takes (.group3 w) (emitRm op r).bytes r :=
  fun ip rest pos => by
    obtain ⟨text, hread⟩ := modrmEa_emitRm h hr he w rest pos
    simp only [Shape.read, hread]
    rw [if_neg (by omega)]
    exact ⟨_, rfl⟩

/-- The immediate of `TEST` is as wide as its width bit says. -/
theorem takes_group3_imm (hr1 : r ≤ 1) {w : Nat} (hw : w < 2) (n : Int) :
    Takes (.group3 w) ((emitRm op r).bytes ++ (emitImm w n).bytes) r := fun ip rest pos => by
  obtain ⟨text, hread⟩ := modrmEa_emitRm h hr he w ((emitImm w n).bytes ++ rest) pos
  rw [List.append_assoc, List.length_append]
  simp only [Shape.read, hread]
  rw [if_pos hr1]
  obtain rfl | rfl : w = 0 ∨ w = 1 := by omega
  · exact ⟨_, rfl⟩
  · exact ⟨_, rfl⟩

theorem takes_incDec (hr1 : r ≤ 1) : Takes .incDec (emitRm op r).bytes r := fun ip rest pos => by
  obtain ⟨text, hread⟩ := modrmEa_emitRm h hr he 0 rest pos
  simp only [Shape.read, hread]
  rw [if_pos hr1]
  exact ⟨_, rfl⟩

end Rm

/-! ## One opcode -/

/-- `dis86` after some prefixes. -/
def disFrom (pfx : String) (pos : Nat) (code : List Nat) (ip : Nat) : DisLine :=
  let (pfx, b, st) := readPrefixes pfx code pos
  let (name, operands, st) := readOpcode ip b st
  { pfx, name, operands, length := st.pos }

/-- An opcode that is no prefix and does not start one of the V20, with its shape and name. -/
def listedAs (b : Nat) (shape : Shape) (r : Nat) (names : List String) : Bool :=
  (prefixNames.lookup b).isNone && b != 0x0F && (opcodeEntry b).shape == shape &&
    names.contains ((opcodeEntry b).name r)

/-- A second byte after `0x0F`, with its shape and name. -/
def listedV20 (b : Nat) (shape : Shape) (r : Nat) (names : List String) : Bool :=
  (v20Entry b).shape == shape && names.contains ((v20Entry b).name r)

/-- The shape of an operand and an immediate of a width. -/
def immShape (w : Nat) : Shape := if w = 1 then .rmImm16 1 else .rmImm8 0

/-- The bytes are one instruction with a name of the list, whatever follows. -/
def Lists (pfx : String) (pos : Nat) (bytes : List Nat) (names : List String) : Prop :=
  ∀ rest ip, (disFrom pfx pos (bytes ++ rest) ip).length = pos + bytes.length ∧
    (disFrom pfx pos (bytes ++ rest) ip).pfx = pfx ∧
    (disFrom pfx pos (bytes ++ rest) ip).name ∈ names

section Lists

variable {pfx : String} {pos : Nat} {names : List String}

/-- An opcode of one byte. -/
theorem lists_listed {b r : Nat} {shape : Shape} {bytes : List Nat}
    (hb : listedAs b shape r names = true) (h : Takes shape bytes r) :
    Lists pfx pos (b :: bytes) names := fun rest ip => by
  simp only [listedAs, Bool.and_eq_true, Option.isNone_iff_eq_none, bne_iff_ne, beq_iff_eq,
    List.contains_iff_mem] at hb
  obtain ⟨⟨⟨hpfx, h0F⟩, hshape⟩, hname⟩ := hb
  obtain ⟨text, hread⟩ := h ip rest (pos + 1)
  have hline : disFrom pfx pos (b :: bytes ++ rest) ip =
      ⟨pfx, (opcodeEntry b).name r, text, pos + 1 + bytes.length⟩ := by
    simp only [disFrom, List.cons_append, readPrefixes, hpfx, readOpcode, if_neg h0F, hshape, hread]
  rw [hline]
  exact ⟨Nat.add_right_comm pos 1 bytes.length, rfl, hname⟩

/-- An opcode of the V20. -/
theorem lists_v20 {b r : Nat} {shape : Shape} {bytes : List Nat}
    (hb : listedV20 b shape r names = true) (h : Takes shape bytes r) :
    Lists pfx pos (0x0F :: b :: bytes) names := fun rest ip => by
  simp only [listedV20, Bool.and_eq_true, beq_iff_eq, List.contains_iff_mem] at hb
  obtain ⟨text, hread⟩ := h ip rest (pos + 2)
  have hline : disFrom pfx pos (0x0F :: b :: bytes ++ rest) ip =
      ⟨pfx, (v20Entry b).name r, text, pos + 2 + bytes.length⟩ := by
    simp only [disFrom, List.cons_append, readPrefixes,
      show prefixNames.lookup 0x0F = none by decide, readOpcode, if_true, fetch_cons, hb.1, hread]
  rw [hline]
  exact ⟨Nat.add_right_comm pos 2 bytes.length, rfl, hb.2⟩

/-! ## Tables -/

/-- The tables of the disassembler at the opcodes that the assembler emits. -/
structure Entries : Prop where
  simple : ∀ x ∈ simpleTable, listedAs x.2 (.fixed "") 0 (namesOf simpleTable x.2) = true
  adjust : ∀ x ∈ adjustTable, listedAs x.2 (.imm8 " " "") 0 (namesOf adjustTable x.2) = true
  v20Simple : ∀ x ∈ v20SimpleTable,
    listedV20 x.2 (.fixed "") 0 (namesOf v20SimpleTable x.2) = true
  prefixes : ∀ x ∈ prefixTable, namesOf simpleTable x.2 = [] ∧
    (prefixNames.lookup x.2).any
      (fun text => ((namesOf prefixTable x.2).map (· ++ " ")).contains text) = true
  alu : ∀ x ∈ aluTable, x.2 < 8 ∧
    listedAs (toByte (x.2 * 8 + 5 : Int)) (.imm16 " AX, " "") 0 (namesOf aluTable x.2) = true ∧
    listedAs (toByte (x.2 * 8 + 4 : Int)) (.imm8 " AL, " "") 0 (namesOf aluTable x.2) = true ∧
    listedAs (toByte 0x83) (.rmImm8 1) x.2 (namesOf aluTable x.2) = true ∧
    ∀ w : Nat, w < 2 →
      listedAs (toByte (0x80 + w : Int)) (immShape w) x.2 (namesOf aluTable x.2) = true ∧
      ∀ r < 8,
        listedAs (toByte (x.2 * 8 + 2 + w : Int)) (.regRm w) r (namesOf aluTable x.2) = true ∧
        listedAs (toByte (x.2 * 8 + w : Int)) (.rmReg w) r (namesOf aluTable x.2) = true
  shift : ∀ x ∈ shiftTable, x.2 < 8 ∧ ∀ w : Nat, w < 2 →
    listedAs (toByte (0xD0 + w : Int)) (.rm w ", 1") x.2 (namesOf shiftTable x.2) = true ∧
    listedAs (toByte (0xD2 + w : Int)) (.rm w ", CL") x.2 (namesOf shiftTable x.2) = true ∧
    listedAs (toByte (0xC0 + w : Int)) (.rmImm8 w) x.2 (namesOf shiftTable x.2) = true
  movSreg : ∀ r < 8, listedAs (toByte 0x8E) .sregRm r ["MOV"] = true ∧
    listedAs (toByte 0x8C) .rmSreg r ["MOV"] = true
  mov : ∀ w : Nat, w < 2 → (∀ r : Nat, r < 8 →
      listedAs (toByte (0x8A + w : Int)) (.regRm w) r ["MOV"] = true ∧
      listedAs (toByte (0x88 + w : Int)) (.rmReg w) r ["MOV"] = true ∧
      listedAs (toByte (0xB0 + w * 8 + r : Int))
        (if w = 1 then .imm16 (" " ++ regText 1 r ++ ", ") ""
          else .imm8 (" " ++ regText 0 r ++ ", ") "") 0 ["MOV"] = true) ∧
    listedAs (toByte (0xC6 + w : Int)) (immShape w) 0 ["MOV"] = true
  xchg : listedAs (toByte 0x90) (.fixed "") 0 ["XCHG", "NOP"] = true ∧
    (∀ r : Nat, r < 8 → r ≠ 0 →
      listedAs (toByte (0x90 + r : Int)) (.fixed (" AX, " ++ regText 1 r)) 0 ["XCHG"] = true) ∧
    ∀ r < 8, listedAs (toByte 0x86) (.rmReg 0) r ["XCHG"] = true ∧
      listedAs (toByte 0x87) (.rmReg 1) r ["XCHG"] = true
  test : listedAs (toByte 0xA9) (.imm16 " AX, " "") 0 ["TEST"] = true ∧
    listedAs (toByte 0xA8) (.imm8 " AL, " "") 0 ["TEST"] = true ∧
    ∀ w : Nat, w < 2 → listedAs (toByte (0xF6 + w : Int)) (.group3 w) 0 ["TEST"] = true ∧
      ∀ r < 8, listedAs (toByte (0x84 + w : Int)) (.rmReg w) r ["TEST"] = true
  lea : ∀ r < 8, listedAs (toByte 0x8D) (.regRm 1) r ["LEA"] = true
  loadMem : ∀ x ∈ loadMemTable, ∀ r < 8,
    listedAs (toByte (x.2 : Int)) (.regRm 1) r (namesOf loadMemTable x.2) = true
  incDec : ∀ x ∈ incDecTable, x.2 ≤ 1 ∧
    (∀ r : Nat, r < 8 → listedAs (toByte (0x40 + x.2 * 8 + r : Int)) (.fixed (" " ++ regText 1 r)) 0
      (namesOf incDecTable x.2) = true) ∧
    listedAs (toByte 0xFE) .incDec x.2 (namesOf incDecTable x.2) = true ∧
    listedAs (toByte 0xFF) (.rm 1 "") x.2 (namesOf incDecTable x.2) = true
  imul : ∀ w : Nat, w < 2 → listedAs (toByte (0xF6 + w : Int)) (.group3 w) 5 ["IMUL"] = true
  group3 : ∀ x ∈ group3Table, 2 ≤ x.2 ∧ x.2 < 8 ∧ x.2 ≠ 5 ∧ ∀ w : Nat, w < 2 →
    listedAs (toByte (0xF6 + w : Int)) (.group3 w) x.2 (namesOf group3Table x.2) = true
  imulImm : ∀ r < 8, listedAs (toByte 0x6B) .regRmImm8 r ["IMUL"] = true ∧
    listedAs (toByte 0x69) .regRmImm16 r ["IMUL"] = true
  pushPop : ∀ isPop : Bool, (∀ r : Nat, r < 8 →
      listedAs (toByte ((if isPop then 0x58 else 0x50) + r : Int)) (.fixed (" " ++ regText 1 r)) 0
        [if isPop then "POP" else "PUSH"] = true) ∧
    (∀ r : Nat, r < 4 → ¬(isPop = true ∧ r = 1) →
      listedAs (toByte ((if isPop then 0x07 else 0x06) + r * 8 : Int))
        (.fixed (" " ++ sr.getD r "")) 0 [if isPop then "POP" else "PUSH"] = true) ∧
    listedAs (toByte (if isPop then 0x8F else 0xFF)) (.rm 1 "") (if isPop then 0 else 6)
      [if isPop then "POP" else "PUSH"] = true
  pushImm : listedAs (toByte 0x6A) (.imm8 " " "") 0 ["PUSH"] = true ∧
    listedAs (toByte 0x68) (.imm16 " " "") 0 ["PUSH"] = true
  call : listedAs (toByte 0x9A) .far 0 ["CALL", "CALL FAR"] = true ∧
    listedAs (toByte 0xE8) .near16 0 ["CALL", "CALL FAR"] = true ∧
    ∀ isFar : Bool,
      listedAs (toByte 0xFF) (.rm 1 "") (if isFar then 3 else 2) ["CALL", "CALL FAR"] = true
  jmp : listedAs (toByte 0xEA) .far 0 ["JMP", "JMP SHORT", "JMP FAR"] = true ∧
    listedAs (toByte 0xEB) .near8 0 ["JMP", "JMP SHORT", "JMP FAR"] = true ∧
    listedAs (toByte 0xE9) .near16 0 ["JMP", "JMP SHORT", "JMP FAR"] = true ∧
    ∀ isFar : Bool, listedAs (toByte 0xFF) (.rm 1 "") (if isFar then 5 else 4)
      ["JMP", "JMP SHORT", "JMP FAR"] = true
  jcc : ∀ x ∈ jccTable, listedAs (toByte (0x70 + x.2 : Int)) .near8 0 (namesOf jccTable x.2) = true
  /-- The inverted jump over a near jump. -/
  jccOver : ∀ x ∈ jccTable, listedAs (toByte (0x70 + (x.2 ^^^ 1 : Nat) : Int)) .near8 0
    (namesOf jccTable (x.2 ^^^ 1)) = true
  loop : ∀ x ∈ loopTable, listedAs (toByte (x.2 : Int)) .near8 0 (namesOf loopTable x.2) = true
  ret : ∀ isFar : Bool,
    listedAs (toByte (if isFar then 0xCA else 0xC2)) (.imm16 " " "") 0
      [if isFar then "RETF" else "RET"] = true ∧
    listedAs (toByte (if isFar then 0xCB else 0xC3)) (.fixed "") 0
      [if isFar then "RETF" else "RET"] = true
  int : listedAs (toByte 0xCC) (.fixed " 3") 0 ["INT"] = true ∧
    listedAs (toByte 0xCD) (.imm8 " " "") 0 ["INT"] = true
  inOut : ∀ isOut : Bool, ∀ w : Nat, w < 2 →
    listedAs (toByte ((if isOut then 0xE6 else 0xE4) + w : Int))
      (if isOut then .imm8 " " (", " ++ (if w = 1 then "AX" else "AL"))
        else .imm8 (" " ++ (if w = 1 then "AX" else "AL") ++ ", ") "") 0
      [if isOut then "OUT" else "IN"] = true ∧
    listedAs (toByte ((if isOut then 0xEE else 0xEC) + w : Int))
      (if isOut then .fixed (" DX, " ++ (if w = 1 then "AX" else "AL"))
        else .fixed (" " ++ (if w = 1 then "AX" else "AL") ++ ", DX")) 0
      [if isOut then "OUT" else "IN"] = true
  enter : listedAs (toByte 0xC8) .enter 0 ["ENTER"] = true
  bitop : ∀ x ∈ bitopTable, ∀ w : Nat, w < 2 →
    listedV20 (toByte (0x10 + x.2 * 2 + w : Int)) (.rm w ", CL") 0 (namesOf bitopTable x.2) = true ∧
    listedV20 (toByte (0x18 + x.2 * 2 + w : Int)) (.rmImm8 w) 0 (namesOf bitopTable x.2) = true
  -- no ModR/M byte
  bextBins : ∀ isBext : Bool,
    listedV20 (toByte (if isBext then 0x33 else 0x31)) (.fixed "") 0 ["BEXT", "BINS"] = true ∧
    listedV20 (toByte (if isBext then 0x3B else 0x39)) (.imm8 " " "") 0 ["BEXT", "BINS"] = true
  brkem : listedV20 (toByte 0xFF) (.imm8 " " "") 0 ["BRKEM"] = true

/-! ## Instructions -/

/-- Without an override, what follows the opcode is the operand. -/
theorem lists_modrm {b : Int} {op : Operand} {r : Nat} {tail : List Nat} (ho : op.override = none)
    (he : (emitModrm op r).errors = 0)
    (h : (emitRm op r).errors = 0 →
      Lists pfx pos (toByte b :: ((emitRm op r).bytes ++ tail)) names) :
    Lists pfx pos ((emit b ++ emitModrm op r).bytes ++ tail) names := by
  obtain ⟨-, hbytes, he'⟩ := emitModrm_eq ho he
  rw [Enc.bytes_append, hbytes]
  exact h he'

/-- An opcode and an operand, with nothing after it. -/
theorem lists_operand {b : Int} {op : Operand} {shape : Shape} {r : Nat}
    (ho : op.override = none) (he : (emit b ++ emitModrm op r).errors = 0)
    (hb : listedAs (toByte b) shape r names = true)
    (h : (emitRm op r).errors = 0 → Takes shape (emitRm op r).bytes r) :
    Lists pfx pos (emit b ++ emitModrm op r).bytes names := by
  rw [Enc.errors_append] at he
  obtain ⟨-, hbytes, he'⟩ := emitModrm_eq ho (Nat.add_eq_zero_iff.mp he).2
  rw [Enc.bytes_append, hbytes]
  exact lists_listed hb (h he')

theorem takes_imm {op : Operand} {r : Nat} (h : op.Wf) (hr : r < 8)
    (he : (emitRm op r).errors = 0) {w : Nat} (hw : w < 2) (n : Int) :
    Takes (immShape w) ((emitRm op r).bytes ++ (emitImm w n).bytes) r := by
  obtain rfl | rfl : w = 0 ∨ w = 1 := by omega
  · exact takes_rmImm8 h hr he 0 _
  · exact takes_rmImm16 h hr he 1 _ _

end Lists

section Families

variable (tables : Entries) {pfx : String} {pos : Nat} {dst src op : Operand}

include tables

theorem asmAlu_lists {k : Nat} (hk : inTable aluTable k = true) (hd : dst.Wf)
    (hs : src.Wf) (hdo : dst.override = none) (hso : src.override = none)
    (he : (asmAlu k dst src).errors = 0) :
    Lists pfx pos (asmAlu k dst src).bytes (namesOf aluTable k) := by
  obtain ⟨x, hx, rfl⟩ := mem_of_inTable hk
  obtain ⟨hk8, hax, hal, h83, hw⟩ := tables.alu x hx
  unfold asmAlu at he ⊢
  split_ifs at he ⊢ with hi hisax hisal hshort h1 h2
  · exact lists_listed hax (takes_imm16 _ _ _ _)
  · exact lists_listed hal (takes_imm8 _ _ _)
  · simp only [Enc.errors_append] at he
    exact lists_modrm hdo (show (emitModrm dst x.2).errors = 0 by omega) fun he' =>
      lists_listed h83 (takes_rmImm8 hd hk8 he' 1 _)
  · simp only [Enc.errors_append] at he
    exact lists_modrm hdo (show (emitModrm dst x.2).errors = 0 by omega) fun he' =>
      lists_listed (hw dst.w (w_lt dst)).1 (takes_imm hd hk8 he' (w_lt dst) _)
  · rw [emitMemOverride_none hso] at he ⊢
    simp only [Enc.errors_append] at he
    exact lists_listed ((hw dst.w (w_lt dst)).2 dst.reg hd.reg).1
      (takes_regRm hs hd.reg (show (emitRm src dst.reg).errors = 0 by omega) dst.w)
  · rw [emitMemOverride_none hdo] at he ⊢
    simp only [Enc.errors_append] at he
    exact lists_listed ((hw src.w (w_lt src)).2 src.reg hs.reg).2
      (takes_rmReg hd hs.reg (show (emitRm dst src.reg).errors = 0 by omega) src.w)
  · exact absurd he encErr_errors

theorem asmShift_lists {k : Nat} (hk : inTable shiftTable k = true) (hd : dst.Wf)
    (hdo : dst.override = none) (he : (asmShift k dst src).errors = 0) :
    Lists pfx pos (asmShift k dst src).bytes (namesOf shiftTable k) := by
  obtain ⟨x, hx, rfl⟩ := mem_of_inTable hk
  obtain ⟨hk8, hall⟩ := tables.shift x hx
  obtain ⟨hD0, hD2, hC0⟩ := hall dst.w (w_lt dst)
  unfold asmShift at he ⊢
  split_ifs at he ⊢
  · exact lists_operand hdo he hD0 fun he' => takes_rm hd hk8 he' _ _
  · exact lists_operand hdo he hD2 fun he' => takes_rm hd hk8 he' _ _
  · simp only [Enc.errors_append] at he
    exact lists_modrm hdo (show (emitModrm dst x.2).errors = 0 by omega) fun he' =>
      lists_listed hC0 (takes_rmImm8 hd hk8 he' _ _)
  · exact absurd he encErr_errors

theorem asmMov_lists (hd : dst.Wf) (hs : src.Wf) (hdo : dst.override = none)
    (hso : src.override = none) (he : (asmMov dst src).errors = 0) :
    Lists pfx pos (asmMov dst src).bytes ["MOV"] := by
  unfold asmMov at he ⊢
  split_ifs at he ⊢
  · exact absurd he encErr_errors
  · rw [emitMemOverride_none hso] at he ⊢
    simp only [Enc.errors_append] at he
    exact lists_listed (tables.movSreg dst.reg hd.reg).1
      (takes_sregRm hs hd.reg (show (emitRm src dst.reg).errors = 0 by omega))
  · exact absurd he encErr_errors
  · rw [emitMemOverride_none hdo] at he ⊢
    simp only [Enc.errors_append] at he
    exact lists_listed (tables.movSreg src.reg hs.reg).2
      (takes_rmSreg hd hs.reg (show (emitRm dst src.reg).errors = 0 by omega))
  · refine lists_listed ((tables.mov dst.w (w_lt dst)).1 dst.reg hd.reg).2.2 ?_
    obtain h0 | h1 : dst.w = 0 ∨ dst.w = 1 := by
      have := w_lt dst
      omega
    · rw [h0]
      exact takes_imm8 _ _ _
    · rw [h1]
      exact takes_imm16 _ _ _ _
  · simp only [Enc.errors_append] at he
    exact lists_modrm hdo (show (emitModrm dst 0).errors = 0 by omega) fun he' =>
      lists_listed (tables.mov dst.w (w_lt dst)).2 (takes_imm hd (by decide) he' (w_lt dst) _)
  · exact absurd he encErr_errors
  · rw [emitMemOverride_none hso] at he ⊢
    simp only [Enc.errors_append] at he
    exact lists_listed ((tables.mov dst.w (w_lt dst)).1 dst.reg hd.reg).1
      (takes_regRm hs hd.reg (show (emitRm src dst.reg).errors = 0 by omega) _)
  · exact absurd he encErr_errors
  · rw [emitMemOverride_none hdo] at he ⊢
    simp only [Enc.errors_append] at he
    exact lists_listed ((tables.mov src.w (w_lt src)).1 src.reg hs.reg).2.1
      (takes_rmReg hd hs.reg (show (emitRm dst src.reg).errors = 0 by omega) _)
  · exact absurd he encErr_errors

theorem asmXchg_lists (hd : dst.Wf) (hs : src.Wf) (hdo : dst.override = none)
    (hso : src.override = none) (he : (asmXchg dst src).errors = 0) :
    Lists pfx pos (asmXchg dst src).bytes (Instr.xchg dst src).names := by
  -- one operand is `AX`, and the name depends on the other one
  have hacc : ∀ o : Operand, o.Wf → o.isReg = true → o.size = 2 →
      Lists pfx pos (emit (0x90 + o.reg)).bytes
        (if o.isAx then ["XCHG", "NOP"] else ["XCHG"]) := fun o ho hr h2 => by
    by_cases h0 : o.reg = 0
    · have hax : o.isAx = true := by simp [Operand.isAx, hr, h0, h2]
      rw [hax, if_pos rfl, h0]
      exact lists_listed tables.xchg.1 (takes_fixed _)
    · have hax : o.isAx = false := by simp [Operand.isAx, h0]
      rw [hax, if_neg Bool.false_ne_true]
      exact lists_listed (tables.xchg.2.1 o.reg ho.reg h0) (takes_fixed _)
  have hsub : ∀ {bytes : List Nat}, Lists pfx pos bytes ["XCHG"] →
      Lists pfx pos bytes (Instr.xchg dst src).names := fun h rest ip => by
    obtain ⟨hlen, hpfx, hname⟩ := h rest ip
    refine ⟨hlen, hpfx, ?_⟩
    rw [List.mem_singleton.mp hname, Instr.names]
    split_ifs
    · exact List.mem_cons_self
    · exact List.mem_cons_self
  have hentry : ∀ r < 8, listedAs (toByte (0x86 + if dst.size = 2 ∨ src.size = 2 then 1 else 0))
      (.rmReg (if dst.size = 2 ∨ src.size = 2 then 1 else 0)) r ["XCHG"] = true := fun r hr => by
    split_ifs
    · exact (tables.xchg.2.2 r hr).2
    · exact (tables.xchg.2.2 r hr).1
  unfold asmXchg at he ⊢
  by_cases h1 : (dst.isAx && src.isReg && src.size == 2) = true
  · rw [if_pos h1]
    obtain ⟨⟨hax, hsr⟩, h2⟩ : (dst.isAx = true ∧ src.isReg = true) ∧ src.size = 2 := by
      simpa using h1
    rw [Instr.names, hax, Bool.true_and]
    exact hacc src hs hsr h2
  rw [if_neg h1] at he ⊢
  by_cases h2 : (src.isAx && dst.isReg && dst.size == 2) = true
  · rw [if_pos h2]
    obtain ⟨⟨hax, hr⟩, h2'⟩ : (src.isAx = true ∧ dst.isReg = true) ∧ dst.size = 2 := by
      simpa using h2
    rw [Instr.names, hax, Bool.and_true]
    exact hacc dst hd hr h2'
  rw [if_neg h2] at he ⊢
  refine hsub ?_
  generalize (0x86 + if dst.size = 2 ∨ src.size = 2 then 1 else 0 : Int) = opcode at he hentry ⊢
  split_ifs at he ⊢ with h3 h4
  · have hrm : emitModrmReg dst.reg src.reg = emitRm src dst.reg := by
      rw [emitRm, if_pos (Bool.and_eq_true_iff.mp h3).2]
    rw [hrm] at he ⊢
    exact lists_listed (hentry dst.reg hd.reg)
      (takes_rmReg hs hd.reg (Nat.add_eq_zero_iff.mp he).2 _)
  · exact lists_operand hso he (hentry dst.reg hd.reg) fun he' => takes_rmReg hs hd.reg he' _
  · exact lists_operand hdo he (hentry src.reg hs.reg) fun he' => takes_rmReg hd hs.reg he' _

theorem asmTest_lists (hd : dst.Wf) (hs : src.Wf) (hdo : dst.override = none)
    (he : (asmTest dst src).errors = 0) : Lists pfx pos (asmTest dst src).bytes ["TEST"] := by
  unfold asmTest at he ⊢
  split_ifs at he ⊢
  · exact lists_listed tables.test.1 (takes_imm16 _ _ _ _)
  · exact lists_listed tables.test.2.1 (takes_imm8 _ _ _)
  · simp only [Enc.errors_append] at he
    exact lists_modrm hdo (show (emitModrm dst 0).errors = 0 by omega) fun he' =>
      lists_listed (tables.test.2.2 dst.w (w_lt dst)).1
        (takes_group3_imm hd (by decide) he' (by decide) (w_lt dst) _)
  · exact lists_operand hdo he ((tables.test.2.2 dst.w (w_lt dst)).2 src.reg hs.reg)
      fun he' => takes_rmReg hd hs.reg he' _
  · exact absurd he encErr_errors

theorem asmLea_lists (hd : dst.Wf) (hs : src.Wf) (hso : src.override = none)
    (he : (asmLea dst src).errors = 0) : Lists pfx pos (asmLea dst src).bytes ["LEA"] := by
  unfold asmLea at he ⊢
  split_ifs at he ⊢
  · exact absurd he encErr_errors
  · exact absurd he encErr_errors
  · exact lists_operand hso he (tables.lea dst.reg hd.reg) fun he' => takes_regRm hs hd.reg he' 1

theorem asmLoadMem_lists {opcode : Nat} (hop : inTable loadMemTable opcode = true) (hd : dst.Wf)
    (hs : src.Wf) (hso : src.override = none) (he : (asmLoadMem opcode dst src).errors = 0) :
    Lists pfx pos (asmLoadMem opcode dst src).bytes (namesOf loadMemTable opcode) := by
  obtain ⟨x, hx, rfl⟩ := mem_of_inTable hop
  exact lists_operand hso he (tables.loadMem x hx dst.reg hd.reg) fun he' =>
    takes_regRm hs hd.reg he' 1

theorem asmIncDec_lists {k : Nat} (hk : inTable incDecTable k = true) (hd : dst.Wf)
    (hdo : dst.override = none) (he : (asmIncDec k dst).errors = 0) :
    Lists pfx pos (asmIncDec k dst).bytes (namesOf incDecTable k) := by
  obtain ⟨x, hx, rfl⟩ := mem_of_inTable hk
  obtain ⟨hle, hreg, hbyte, hword⟩ := tables.incDec x hx
  have hk8 : x.2 < 8 := by omega
  unfold asmIncDec at he ⊢
  split_ifs at he ⊢
  · exact lists_listed (hreg dst.reg hd.reg) (takes_fixed _)
  · obtain h0 | h1 : dst.w = 0 ∨ dst.w = 1 := by
      have := w_lt dst
      omega
    · rw [h0] at he ⊢
      exact lists_operand hdo he hbyte fun he' => takes_incDec hd hk8 he' hle
    · rw [h1] at he ⊢
      exact lists_operand hdo he hword fun he' => takes_rm hd hk8 he' 1 ""

theorem asmGroup3_lists {field : Nat} (hf : field = 5 ∨ inTable group3Table field = true)
    (hd : dst.Wf) (hdo : dst.override = none) (he : (asmGroup3 field dst).errors = 0) :
    Lists pfx pos (asmGroup3 field dst).bytes (Instr.group3 field dst).names := by
  obtain rfl | hf := hf
  · exact lists_operand hdo he (tables.imul dst.w (w_lt dst)) fun he' =>
      takes_group3 hd (by decide) he' (by decide) _
  · obtain ⟨x, hx, rfl⟩ := mem_of_inTable hf
    obtain ⟨hle, hlt, hne, hentry⟩ := tables.group3 x hx
    rw [Instr.names, if_neg hne]
    exact lists_operand hdo he (hentry dst.w (w_lt dst)) fun he' => takes_group3 hd hlt he' hle _

theorem asmImulImm_lists {reg rm : Nat} (hreg : reg < 8) (hrm : rm < 8) (imm : Int) :
    Lists pfx pos (asmImulImm reg rm imm).bytes ["IMUL"] := by
  -- the register operand that the number stands for
  have hwf : ({ type := .reg, reg := rm, size := 2 } : Operand).Wf :=
    ⟨hrm, Nat.le_refl 2, fun _ => Nat.succ_ne_zero 1, by rintro ⟨⟩, fun _ => rfl, by rintro ⟨⟩,
      by rintro ⟨⟩, by rintro _ ⟨⟩⟩
  unfold asmImulImm
  split_ifs
  · exact lists_listed (tables.imulImm reg hreg).1 (takes_regRmImm8 hwf hreg rfl _)
  · exact lists_listed (tables.imulImm reg hreg).2 (takes_regRmImm16 hwf hreg rfl _ _)

theorem asmPushPop_lists {isPop : Bool} (h : op.Wf) (ho : op.override = none)
    (hcs : ¬(isPop && op.isSreg && op.reg == 1) = true) (he : (asmPushPop isPop op).errors = 0) :
    Lists pfx pos (asmPushPop isPop op).bytes [if isPop then "POP" else "PUSH"] := by
  obtain ⟨hreg, hsreg, hmem⟩ := tables.pushPop isPop
  unfold asmPushPop at he ⊢
  by_cases h1 : (op.isReg && op.size == 2) = true
  · rw [if_pos h1]
    exact lists_listed (hreg op.reg h.reg) (takes_fixed _)
  rw [if_neg h1] at he ⊢
  by_cases h2 : op.isSreg = true
  · rw [if_pos h2]
    have hlt : op.reg < 4 := (h.sreg (by simpa [Operand.isSreg] using h2)).1
    exact lists_listed (hsreg op.reg hlt fun hc => hcs (by simp [hc, h2])) (takes_fixed _)
  rw [if_neg h2] at he ⊢
  by_cases h3 : op.isMem = true
  · rw [if_pos h3] at he ⊢
    exact lists_operand ho he hmem fun he' => takes_rm h (by split_ifs <;> decide) he' _ _
  rw [if_neg h3] at he ⊢
  by_cases h4 : (!isPop && op.isImm) = true
  · rw [if_pos h4]
    have hpush : isPop = false := by
      rw [Bool.and_eq_true, Bool.not_eq_true'] at h4
      exact h4.1
    rw [hpush, if_neg Bool.false_ne_true]
    split_ifs
    · exact lists_listed tables.pushImm.1 (takes_imm8 _ _ _)
    · exact lists_listed tables.pushImm.2 (takes_imm16 _ _ _ _)
  · rw [if_neg h4] at he
    exact absurd he encErr_errors

theorem asmJmpCall_lists {site : Site} {isCall : Bool} (h : op.Wf)
    (ho : (Instr.jmpCall isCall op).override = none)
    (he : (asmJmpCall site isCall op).errors = 0) :
    Lists pfx pos (asmJmpCall site isCall op).bytes (Instr.jmpCall isCall op).names := by
  by_cases ht : (op.isImm || !op.label.isEmpty) = true
  · unfold asmJmpCall
    rw [if_pos ht]
    cases isCall
    · rw [Bool.not_false, Bool.true_and]
      simp only [if_neg Bool.false_ne_true]
      split_ifs
      · exact lists_listed tables.jmp.1 (takes_far _ _ _ _)
      · exact lists_listed tables.jmp.2.1 (takes_near8 _)
      · exact lists_listed tables.jmp.2.2.1 (takes_near16 _ _)
    · rw [Bool.not_true, Bool.false_and, if_neg Bool.false_ne_true]
      simp only [if_pos]
      split_ifs
      · exact lists_listed tables.call.1 (takes_far _ _ _ _)
      · exact lists_listed tables.call.2.1 (takes_near16 _ _)
  · have hlabel : op.label.isEmpty = true := by
      cases hl : op.label.isEmpty
      · exact absurd (by simp [hl]) ht
      · rfl
    have hno : op.override = none := by
      rw [Instr.override, if_pos hlabel] at ho
      exact ho
    by_cases hrm : (op.isReg || op.isMem) = true
    · rw [asmJmpCall, if_neg ht, if_pos hrm, emitMemOverride_none hno] at he ⊢
      simp only [Enc.errors_append] at he
      have he' := (Nat.add_eq_zero_iff.mp he).2
      cases isCall
      · exact lists_listed (tables.jmp.2.2.2 op.isFar)
          (takes_rm h (by cases op.isFar <;> decide) he' 1 "")
      · exact lists_listed (tables.call.2.2 op.isFar)
          (takes_rm h (by cases op.isFar <;> decide) he' 1 "")
    · rw [asmJmpCall, if_neg ht, if_neg hrm] at he
      exact absurd he encErr_errors

theorem asmJcc_lists {site : Site} {cc : Nat} {label : List Char}
    (hcc : inTable jccTable cc = true) (hshort : jccIsLong site label op.imm = false) :
    Lists pfx pos (asmJcc site cc label op).bytes (namesOf jccTable cc) := by
  obtain ⟨x, hx, rfl⟩ := mem_of_inTable hcc
  rw [asmJcc, hshort, if_neg Bool.false_ne_true]
  exact lists_listed (tables.jcc x hx) (takes_near8 _)

theorem asmLoop_lists {site : Site} {opcode : Nat} (hop : inTable loopTable opcode = true) :
    Lists pfx pos (asmLoop site opcode op).bytes (namesOf loopTable opcode) := by
  obtain ⟨x, hx, rfl⟩ := mem_of_inTable hop
  unfold asmLoop
  split_ifs
  · exact lists_listed (tables.loop x hx) (takes_near8 _)
  · exact lists_listed (tables.loop x hx) (takes_near8 _)

theorem asmRet_lists (isFar : Bool) (o : Option Operand) :
    Lists pfx pos (asmRet isFar o).bytes [if isFar then "RETF" else "RET"] := by
  cases o with
  | some op => exact lists_listed (tables.ret isFar).1 (takes_imm16 _ _ _ _)
  | none => exact lists_listed (tables.ret isFar).2 (takes_fixed _)

theorem asmInt_lists : Lists pfx pos (asmInt op).bytes ["INT"] := by
  unfold asmInt
  split_ifs
  · exact lists_listed tables.int.1 (takes_fixed _)
  · exact lists_listed tables.int.2 (takes_imm8 _ _ _)

theorem asmInOut_lists {isOut : Bool} (he : (asmInOut isOut dst src).errors = 0) :
    Lists pfx pos (asmInOut isOut dst src).bytes [if isOut then "OUT" else "IN"] := by
  unfold asmInOut at he ⊢
  generalize (if isOut then src else dst) = value at he ⊢
  generalize (if isOut then dst else src) = port at he ⊢
  obtain ⟨himm, hdx⟩ := tables.inOut isOut value.w (w_lt value)
  by_cases hi : port.isImm = true
  · rw [if_pos hi]
    refine lists_listed himm ?_
    cases isOut
    · exact takes_imm8 _ _ _
    · exact takes_imm8 _ _ _
  rw [if_neg hi] at he ⊢
  by_cases hp : (port.isReg && port.reg == 2) = true
  · rw [if_pos hp]
    refine lists_listed hdx ?_
    cases isOut
    · exact takes_fixed _
    · exact takes_fixed _
  · rw [if_neg hp] at he
    exact absurd he encErr_errors

theorem asmEnter_lists (size level : Operand) :
    Lists pfx pos (asmEnter size level).bytes ["ENTER"] :=
  lists_listed tables.enter (takes_enter _ _ _)

theorem asmV20Bitop_lists {k : Nat} (hk : inTable bitopTable k = true) (hd : dst.Wf)
    (hdo : dst.override = none) (he : (asmV20Bitop k dst src).errors = 0) :
    Lists pfx pos (asmV20Bitop k dst src).bytes (namesOf bitopTable k) := by
  obtain ⟨x, hx, rfl⟩ := mem_of_inTable hk
  obtain ⟨hcl, himm⟩ := tables.bitop x hx dst.w (w_lt dst)
  unfold asmV20Bitop at he ⊢
  split_ifs at he ⊢
  · simp only [Enc.errors_append] at he
    obtain ⟨-, hbytes, he'⟩ := emitModrm_eq hdo (show (emitModrm dst 0).errors = 0 by omega)
    simp only [Enc.bytes_append, hbytes]
    exact lists_v20 hcl (takes_rm hd (by decide) he' _ _)
  · simp only [Enc.errors_append] at he
    obtain ⟨-, hbytes, he'⟩ := emitModrm_eq hdo (show (emitModrm dst 0).errors = 0 by omega)
    simp only [Enc.bytes_append, hbytes]
    exact lists_v20 himm (takes_rmImm8 hd (by decide) he' _ _)
  · exact absurd he encErr_errors

theorem asmBrkem_lists : Lists pfx pos (asmBrkem op).bytes ["BRKEM"] :=
  lists_v20 tables.brkem (takes_imm8 _ _ _)

end Families

theorem entries : Entries := by constructor <;> decide

/-! ## What is not listed -/

/-- Not one instruction, or one without a name of the list. -/
def Misses (pfx : String) (pos : Nat) (bytes : List Nat) (names : List String) : Prop :=
  ∃ rest ip, ¬((disFrom pfx pos (bytes ++ rest) ip).length = pos + bytes.length ∧
    (disFrom pfx pos (bytes ++ rest) ip).name ∈ names)

/-- An instruction ends before the bytes that follow it. -/
theorem Lists.misses {pfx : String} {pos : Nat} {bytes more : List Nat} {names : List String}
    (h : Lists pfx pos bytes names) (hm : more ≠ []) (names' : List String) :
    Misses pfx pos (bytes ++ more) names' := by
  refine ⟨[], 0, fun hc => ?_⟩
  have hlen := (h (more ++ []) 0).1
  rw [← List.append_assoc, hc.1, List.length_append] at hlen
  have hpos : 0 < more.length := List.length_pos_iff.mpr hm
  omega

theorem misses_nameless (pfx : String) (pos : Nat) (bytes : List Nat) : Misses pfx pos bytes [] :=
  ⟨[], 0, fun hc => List.not_mem_nil hc.2⟩

section Missed

variable (tables : Entries) {pfx : String} {pos : Nat} {names : List String}

include tables

/-- The ModR/M byte is left. -/
theorem bextBins_misses (isBext : Bool) (modrm : Nat) :
    Misses pfx pos [0x0F, toByte (if isBext then 0x33 else 0x31), modrm] names :=
  (lists_v20 (tables.bextBins isBext).1 (takes_fixed "")).misses (List.cons_ne_nil modrm []) names

theorem asmV20BextBins_misses {isBext : Bool} {first : Operand} {second : Option Operand}
    (he : (asmV20BextBins isBext first second).errors = 0) :
    Misses pfx pos (asmV20BextBins isBext first second).bytes names := by
  have hmodrm (hb : isByteReg first = true) : emitModrm first 0 = emitModrmReg 0 first.reg := by
    rw [emitModrm, if_pos (Bool.and_eq_true_iff.mp hb).1]
  cases second with
  | none =>
    by_cases hb : isByteReg first = true
    · rw [asmV20BextBins, if_pos hb, hmodrm hb]
      exact bextBins_misses tables isBext _
    · rw [asmV20BextBins, if_neg hb] at he
      exact absurd he encErr_errors
  | some second =>
    by_cases himm : second.isImm = true
    · by_cases hb : isByteReg first = true
      · by_cases hrange : second.imm < 0 ∨ second.imm > 15
        · rw [asmV20BextBins, if_pos himm, hb, Bool.not_true, if_neg Bool.false_ne_true,
            if_pos hrange] at he
          exact absurd he encErr_errors
        · rw [asmV20BextBins, if_pos himm, hmodrm hb, hb, Bool.not_true,
            if_neg Bool.false_ne_true, if_neg hrange]
          -- the ModR/M byte is read as the immediate
          exact (lists_v20 (tables.bextBins isBext).2 (takes_imm8 " " "" _)).misses
            (List.cons_ne_nil (toByte second.imm) []) names
      · rw [asmV20BextBins, if_pos himm, Bool.not_eq_true _ |>.mp hb, Bool.not_false,
          if_pos rfl] at he
        exact absurd he encErr_errors
    · by_cases hb : (isByteReg first && isByteReg second) = true
      · rw [asmV20BextBins, if_neg himm, if_pos hb]
        exact bextBins_misses tables isBext _
      · rw [asmV20BextBins, if_neg himm, if_neg hb] at he
        exact absurd he encErr_errors

/-- The inverted jump is listed alone. -/
theorem asmJcc_misses {site : Site} {cc : Nat} {label : List Char} {op : Operand}
    (hcc : inTable jccTable cc = true) (hlong : jccIsLong site label op.imm = true) :
    Misses pfx pos (asmJcc site cc label op).bytes names := by
  obtain ⟨x, hx, rfl⟩ := mem_of_inTable hcc
  rw [asmJcc, hlong, if_pos rfl]
  exact (lists_listed (tables.jccOver x hx) (takes_near8 _)).misses
    (List.cons_ne_nil (toByte 0xE9) (emit16 (op.imm - (site.pos + 2 + 3))).bytes) names

end Missed

/-- `POP CS` is the first byte of the instructions of the V20. -/
theorem popCs_misses {pfx : String} {pos : Nat} {op : Operand} (hs : op.isSreg = true)
    (hr : op.reg = 1) : Misses pfx pos (asmPushPop true op).bytes ["POP"] := by
  have hreg : (op.isReg && op.size == 2) = false := by
    have htype : op.type = .sreg := by simpa [Operand.isSreg] using hs
    simp [Operand.isReg, htype]
  have hbytes : (asmPushPop true op).bytes = [0x0F] := by
    rw [asmPushPop, hreg, if_neg Bool.false_ne_true, if_pos hs, hr]
    decide
  rw [hbytes]
  exact ⟨[], 0, fun hc => absurd (List.mem_singleton.mp hc.2) (show ¬"DB" = "POP" by decide)⟩

/-! ## One instruction -/

theorem Lists.mono {pfx : String} {pos : Nat} {bytes : List Nat} {names names' : List String}
    (h : Lists pfx pos bytes names) (hsub : ∀ name ∈ names, name ∈ names') :
    Lists pfx pos bytes names' := fun rest ip =>
  ⟨(h rest ip).1, (h rest ip).2.1, hsub _ (h rest ip).2.2⟩

theorem override_orElse {dst src : Operand} (h : (dst.override <|> src.override) = none) :
    dst.override = none ∧ src.override = none := by
  cases hd : dst.override with
  | none => exact ⟨rfl, by rwa [hd] at h⟩
  | some seg =>
    rw [hd] at h
    cases h

namespace Instr

variable {site : Site} {pfx : String} {pos : Nat}

/-- The mnemonics without operands, and the adjustments with a number. -/
theorem bytes_lists (tables : Entries) {bs : List Nat} (h : isFixed bs = true)
    (hl : (Instr.bytes bs).listed site = true) : Lists pfx pos bs (Instr.bytes bs).names := by
  match bs, h, hl with
  | [op], h, hl =>
    have hsimple : inTable simpleTable op = true := by
      have hl : (!inTable prefixTable op) = true := hl
      rw [Bool.not_eq_true'] at hl
      have h : (inTable simpleTable op || inTable prefixTable op) = true := h
      rwa [hl, Bool.or_false] at h
    obtain ⟨x, hx, rfl⟩ := mem_of_inTable hsimple
    exact lists_listed (tables.simple x hx) (takes_fixed "")
  | [op, n], h, _ =>
    have h : (inTable adjustTable op && decide (n < 256) ||
      op == 0x0F && inTable v20SimpleTable n) = true := h
    simp only [Bool.or_eq_true, Bool.and_eq_true, beq_iff_eq] at h
    obtain ⟨hop, -⟩ | ⟨rfl, hn⟩ := h
    · obtain ⟨x, hx, rfl⟩ := mem_of_inTable hop
      exact (lists_listed (tables.adjust x hx) (takes_imm8 " " "" n)).mono fun name hname =>
        List.mem_append_left _ hname
    · obtain ⟨x, hx, rfl⟩ := mem_of_inTable hn
      exact (lists_v20 (tables.v20Simple x hx) (takes_fixed "")).mono fun name hname =>
        List.mem_append_right _ hname
  | [], h, _ => cases h
  | _ :: _ :: _ :: _, _, hl => cases hl

theorem bytes_misses (tables : Entries) {bs : List Nat} (h : isFixed bs = true)
    (hl : (Instr.bytes bs).listed site = false) : Misses pfx pos bs (Instr.bytes bs).names := by
  match bs, h, hl with
  | [op], _, hl =>
    have hpfx : (!inTable prefixTable op) = false := hl
    rw [Bool.not_eq_false'] at hpfx
    obtain ⟨x, hx, rfl⟩ := mem_of_inTable hpfx
    rw [names, (tables.prefixes x hx).1]
    exact misses_nameless pfx pos _
  | [_, _], _, hl => cases hl
  | [op, n, modrm], h, _ =>
    have h : (op == 0x0F && (n == 0x33 || n == 0x31) && modrm == 0xC0) = true := h
    simp only [Bool.and_eq_true, Bool.or_eq_true, beq_iff_eq] at h
    obtain ⟨⟨rfl, rfl | rfl⟩, rfl⟩ := h
    · exact bextBins_misses tables true 0xC0
    · exact bextBins_misses tables false 0xC0
  | [], h, _ => cases h
  | _ :: _ :: _ :: _ :: _, h, _ => cases h

/-- **An instruction without a prefix is listed** unless it is one of the exceptions. -/
theorem lists_of_listed (tables : Entries) (i : Instr) (hp : i.prefixCount = 0) (h : i.Wf)
    (ho : i.override = none) (he : (encode site i).errors = 0) (hl : i.listed site = true) :
    Lists pfx pos (encode site i).bytes i.names := by
  cases i with
  | bytes bs => exact bytes_lists tables h hl
  | alu op dst src =>
    obtain ⟨hdo, hso⟩ := override_orElse ho
    exact asmAlu_lists tables h.1 h.2.1 h.2.2 hdo hso he
  | shift op dst src => exact asmShift_lists tables h.1 h.2.1 (override_orElse ho).1 he
  | mov dst src =>
    obtain ⟨hdo, hso⟩ := override_orElse ho
    exact asmMov_lists tables h.1 h.2 hdo hso he
  | xchg dst src =>
    obtain ⟨hdo, hso⟩ := override_orElse ho
    exact asmXchg_lists tables h.1 h.2 hdo hso he
  | test dst src => exact asmTest_lists tables h.1 h.2 (override_orElse ho).1 he
  | lea dst src => exact asmLea_lists tables h.1 h.2 (override_orElse ho).2 he
  | loadMem opcode dst src =>
    have htable : (loadMemTable.any fun x => x.2 == opcode) = true := h.1
    rw [override, if_pos htable] at ho
    exact asmLoadMem_lists tables h.1 h.2.1 h.2.2 (override_orElse ho).2 he
  | incDec op dst => exact asmIncDec_lists tables h.1 h.2 ho he
  | group3 field dst => exact asmGroup3_lists tables h.1 h.2 ho he
  | imulImm reg rm imm => exact asmImulImm_lists tables h.1 h.2 imm
  | pushPop isPop op =>
    refine asmPushPop_lists tables h ho (fun hc => ?_) he
    have hl : (!(isPop && op.isSreg && op.reg == 1)) = true := hl
    rw [hc] at hl
    cases hl
  | jmpCall isCall op => exact asmJmpCall_lists tables h ho he
  | jcc cc label op => exact asmJcc_lists tables h.1 (Bool.not_eq_true' _ |>.mp hl)
  | loop opcode op => exact asmLoop_lists tables h.1
  | ret isFar op => exact asmRet_lists tables isFar op
  | int op => exact asmInt_lists tables
  | inOut isOut dst src => exact asmInOut_lists tables he
  | enter size level => exact asmEnter_lists tables size level
  | bitop op dst src => exact asmV20Bitop_lists tables h.1 h.2.1 (override_orElse ho).1 he
  | bextBins isBext first second => cases hl
  | brkem op => exact asmBrkem_lists tables
  | prefixed byte rest => exact absurd hp (Nat.succ_ne_zero _)
  | unknown => exact absurd he encErr_errors

/-- **The exceptions are not listed.** -/
theorem misses_of_not_listed (tables : Entries) (i : Instr) (hp : i.prefixCount = 0) (h : i.Wf)
    (he : (encode site i).errors = 0) (hl : i.listed site = false) :
    Misses pfx pos (encode site i).bytes i.names := by
  cases i with
  | bytes bs => exact bytes_misses tables h hl
  | bextBins isBext first second => exact asmV20BextBins_misses tables he
  | pushPop isPop op =>
    have hl : (!(isPop && op.isSreg && op.reg == 1)) = false := hl
    simp only [Bool.not_eq_false', Bool.and_eq_true, beq_iff_eq] at hl
    obtain ⟨⟨rfl, hs⟩, hr⟩ := hl
    exact popCs_misses hs hr
  | jcc cc label op =>
    have hl : (!jccIsLong site label op.imm) = false := hl
    rw [Bool.not_eq_false'] at hl
    exact asmJcc_misses tables h.1 hl
  | prefixed byte rest => exact absurd hp (Nat.succ_ne_zero _)
  | _ => exact Bool.noConfusion hl

/-- Without a prefix. -/
theorem agrees_of_lists {i : Instr} (hp : i.prefixCount = 0)
    (h : Lists "" 0 (encode site i).bytes i.names) : i.Agrees site := fun rest ip => by
  obtain ⟨hlen, hpfx, hname⟩ := h rest ip
  refine ⟨hlen.trans (Nat.zero_add _), ?_, hname⟩
  have hempty : (dis86 ((encode site i).bytes ++ rest) ip).pfx = "" := hpfx
  rw [hempty]
  cases i with
  | prefixed byte rest => exact absurd hp (Nat.succ_ne_zero _)
  | _ => exact List.mem_singleton_self _

theorem not_agrees_of_misses {i : Instr} (h : Misses "" 0 (encode site i).bytes i.names) :
    ¬i.Agrees site := fun ha => by
  obtain ⟨rest, ip, hmiss⟩ := h
  exact hmiss ⟨(ha rest ip).length.trans (Nat.zero_add _).symm, (ha rest ip).name⟩

/-- Exactly the listed instructions without a prefix agree with the disassembler. -/
theorem plain_agrees_iff (tables : Entries) {i : Instr} (hp : i.prefixCount = 0) (h : i.Wf)
    (ho : i.override = none) (he : (encode site i).errors = 0) :
    i.Agrees site ↔ i.listed site = true := by
  cases hl : i.listed site with
  | true =>
    have hlists : Lists "" 0 (encode site i).bytes i.names :=
      lists_of_listed tables i hp h ho he hl
    exact ⟨fun _ => rfl, fun _ => agrees_of_lists hp hlists⟩
  | false =>
    have hmisses : Misses "" 0 (encode site i).bytes i.names :=
      misses_of_not_listed tables i hp h he hl
    exact ⟨fun ha => absurd ha (not_agrees_of_misses hmisses), fun hc => Bool.noConfusion hc⟩

theorem dis86_prefix {b : Nat} {text : String} (h : prefixNames.lookup b = some text)
    (code : List Nat) (ip : Nat) : dis86 (b :: code) ip = disFrom text 1 code ip := by
  show disFrom "" 0 (b :: code) ip = disFrom text 1 code ip
  simp only [disFrom, readPrefixes, h]

/-- A prefix is printed, and then the instruction is listed. -/
theorem prefixed_agrees_iff (tables : Entries) {byte : Nat} {rest : Instr}
    (hp : rest.prefixCount = 0) (h : (Instr.prefixed byte rest).Wf)
    (ho : rest.override = none) (he : (encode (site.advance 1) rest).errors = 0) :
    (Instr.prefixed byte rest).Agrees site ↔ rest.listed (site.advance 1) = true := by
  obtain ⟨x, hx, rfl⟩ := mem_of_inTable h.1
  obtain ⟨-, htext⟩ := tables.prefixes x hx
  obtain ⟨text, hlookup, hmem⟩ := (Option.any_eq_true _ _).mp htext
  have hbytes := encode_prefixed site h.1 rest
  have hdis : ∀ more ip, dis86 ((encode site (.prefixed x.2 rest)).bytes ++ more) ip =
      disFrom text 1 ((encode (site.advance 1) rest).bytes ++ more) ip := fun more ip => by
    rw [hbytes]
    exact dis86_prefix hlookup _ ip
  have hlen : (encode site (.prefixed x.2 rest)).bytes.length =
      1 + (encode (site.advance 1) rest).bytes.length := by
    rw [hbytes]
    exact Nat.add_comm _ 1
  cases hl : rest.listed (site.advance 1) with
  | true =>
    refine ⟨fun _ => rfl, fun _ more ip => ?_⟩
    have hlists : Lists text 1 (encode (site.advance 1) rest).bytes rest.names :=
      lists_of_listed tables rest hp h.2 ho he hl
    obtain ⟨hl, hpfx, hname⟩ := hlists more ip
    rw [hdis]
    refine ⟨hl.trans hlen.symm, ?_, hname⟩
    rw [hpfx]
    exact List.contains_iff_mem.mp hmem
  | false =>
    refine ⟨fun ha => ?_, fun hc => Bool.noConfusion hc⟩
    have hmisses : Misses text 1 (encode (site.advance 1) rest).bytes rest.names :=
      misses_of_not_listed tables rest hp h.2 he hl
    obtain ⟨more, ip, hmiss⟩ := hmisses
    obtain ⟨hl, -, hname⟩ := ha more ip
    rw [hdis] at hl hname
    exact absurd ⟨hl.trans hlen, hname⟩ hmiss

/-- **One instruction with at most one prefix.** -/
theorem agrees_iff (tables : Entries) (i : Instr) (hp : i.prefixCount ≤ 1) (h : i.Wf)
    (ho : i.override = none) (he : (encode site i).errors = 0) :
    i.Agrees site ↔ i.listed site = true := by
  cases i with
  | prefixed byte rest =>
    have hbyte : (prefixTable.any fun x => x.2 == byte) = true := h.1
    rw [override, if_pos hbyte] at ho
    exact prefixed_agrees_iff tables (Nat.le_zero.mp (Nat.le_of_succ_le_succ hp)) h ho
      (Nat.add_eq_zero_iff.mp he).2
  | _ => exact plain_agrees_iff tables rfl h ho he

end Instr

/-! ## Lines and listings -/

theorem Accepted.agrees_iff {site : Site} {i : Instr} (h : Accepted site i) :
    i.Agrees site ↔ i.listed site = true := by
  obtain ⟨s, line, text, hline, herr, rfl⟩ := h.line
  refine i.agrees_iff entries h.prefixes (parseStatement_wf hline) h.override ?_
  unfold lineErrors at herr
  rw [hline] at herr
  exact (Nat.add_eq_zero_iff.mp herr).2

/-- Each line is found where the one before it ends. -/
theorem staysInStep_of_agrees : ∀ is : List (Site × Instr), (∀ x ∈ is, x.2.Agrees x.1) →
    StaysInStep is
  | [], _ => fun _ _ => .nil
  | x :: is, h => fun rest ip => by
    obtain ⟨hx, his⟩ := List.forall_mem_cons.mp h
    have hcode : codeOf (x :: is) ++ rest = (encode x.1 x.2).bytes ++ (codeOf is ++ rest) := by
      rw [codeOf, List.flatMap_cons, List.append_assoc]
      rfl
    rw [hcode]
    have hline := hx (codeOf is ++ rest) ip
    refine .cons hline ?_
    rw [hline.length, List.drop_left]
    exact staysInStep_of_agrees is his rest _

/-- The site of a single line. -/
def onlySite (text : String) : Site := lineSite (onlyLine text) 1 text.toList

end Nib.Asm
