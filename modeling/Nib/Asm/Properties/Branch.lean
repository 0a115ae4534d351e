import Nib.Asm.Spec.Branch
import Nib.Asm.Properties.Decode

/-!
# Branches reach their targets

* `Cpu.run_prefix`, `Cpu.run_short`, `Cpu.run_jump` — the steps of the processor
* `jmpCall_reaches`, `jcc_reaches`, `loop_reaches` — one mnemonic
* `branch_reaches_iff` — any line with a branch
-/

namespace Nib.Asm

/-! ## The steps -/

namespace Cpu

instance : Inhabited Cpu :=
  ⟨{ cond := fun cc => cc % 2 == 1, inverse := by decide, loops := fun _ => false,
     reg := fun _ => 0, mem := fun _ _ => 0 }⟩

variable (cpu : Cpu) (seg : Option Nat) (ip : Int)

theorem run_prefix {b : Nat} (h : isPrefix b = true) (rest : List Nat) :
    cpu.run seg ip (b :: rest) = cpu.run seg (ip + 1) rest := by
  cases rest with
  | nil => simp only [run, h, if_true]
  | cons d rest => rw [run, if_pos h]

theorem run_override {b n : Nat} (hb : isPrefix b = false) (h : overrideSeg b = some n)
    (d : Nat) (rest : List Nat) :
    cpu.run seg ip (b :: d :: rest) = cpu.run (some n) (ip + 1) (d :: rest) := by
  rw [run, hb, if_neg Bool.false_ne_true, h]

theorem run_short {opcode : Nat} {taken : Bool} (hb : isPrefix opcode = false)
    (ho : overrideSeg opcode = none) (h : cpu.shortJump opcode = some taken) (d : Nat)
    (rest : List Nat) : cpu.run seg ip (opcode :: d :: rest) =
      if taken then some ((ip + 2 + signedByte d) % 65536) else cpu.run none (ip + 2) rest := by
  rw [run, hb, if_neg Bool.false_ne_true, ho]
  simp only [h]
  cases taken <;> rfl

theorem run_jump {opcode : Nat} {t : Int} (hb : isPrefix opcode = false)
    (ho : overrideSeg opcode = none) (hs : cpu.shortJump opcode = none) {d : Nat} {rest : List Nat}
    (h : cpu.jump seg ip opcode (d :: rest) = some t) :
    cpu.run seg ip (opcode :: d :: rest) = some (t % 65536) := by
  rw [run, hb, if_neg Bool.false_ne_true, ho]
  simp only [hs, h]
  rfl

theorem jump_group5 (d : Nat) (bs : List Nat) : cpu.jump seg ip 0xFF (d :: bs) =
    match decodeRm (d :: bs) with
    | some (field, .reg n, _) => if field = 2 ∨ field = 4 then some (cpu.reg n) else none
    | some (field, .mem ref, _) => if 2 ≤ field ∧ field ≤ 5 then some (cpu.mem seg ref) else none
    | none => none := rfl

theorem run_memory {bs rest : List Nat} {field : Nat} {ref : MemRef} (hf : 2 ≤ field ∧ field ≤ 5)
    (h : decodeRm bs = some (field, .mem ref, rest)) :
    cpu.run seg ip (0xFF :: bs) = some (cpu.mem seg ref % 65536) := by
  cases bs with
  | nil => cases h
  | cons d bs =>
    refine cpu.run_jump seg ip (by decide) (by decide) rfl ?_
    rw [cpu.jump_group5, h]
    exact if_pos hf

theorem run_register {bs rest : List Nat} {field n : Nat} (hf : field = 2 ∨ field = 4)
    (h : decodeRm bs = some (field, .reg n, rest)) :
    cpu.run seg ip (0xFF :: bs) = some (cpu.reg n % 65536) := by
  cases bs with
  | nil => cases h
  | cons d bs =>
    refine cpu.run_jump seg ip (by decide) (by decide) rfl ?_
    rw [cpu.jump_group5, h]
    exact if_pos hf

theorem run_segOvr {n : Nat} (hn : n < 4) {bs : List Nat} (hne : bs ≠ []) :
    cpu.run seg ip (overrideByte n :: bs) = cpu.run (some n) (ip + 1) bs := by
  have hall : ∀ n < 4, isPrefix (overrideByte n) = false ∧
      overrideSeg (overrideByte n) = some n := by decide
  cases bs with
  | nil => exact absurd rfl hne
  | cons d bs => exact cpu.run_override seg ip (hall n hn).1 (hall n hn).2 d bs

end Cpu

/-! ## Displacements -/

theorem signedByte_toByte {n : Int} (h : fitsByte n = true) : signedByte (toByte n) = n := by
  simp only [fitsByte, Bool.and_eq_true, decide_eq_true_eq] at h
  unfold signedByte toByte
  split_ifs <;> omega

/-- A word displacement is exact modulo 2^16. -/
theorem add_wordOf (ip n : Int) (rest : List Nat) :
    (ip + wordOf (toByte n :: toByte (n / 256) :: rest)) % 65536 = (ip + n) % 65536 := by
  show (ip + ((toByte n : Nat) + 256 * (toByte (n / 256) : Nat) : Int)) % 65536 = _
  unfold toByte
  omega

theorem wordOf_toByte (n : Int) (rest : List Nat) :
    wordOf (toByte n :: toByte (n / 256) :: rest) % 65536 = n % 65536 := by
  simpa using add_wordOf 0 n rest

/-! ## Jumps and calls -/

section Mnemonics

variable {site : Site} {op : Operand}

/-- The target of a jump or call in the text, in each of its encodings. -/
theorem direct_run (cpu : Cpu) (isCall : Bool) (ht : op.isTarget = true) :
    cpu.run none site.pos (asmJmpCall site isCall op).bytes = some (op.imm % 65536) := by
  unfold asmJmpCall
  rw [if_pos (show (op.isImm || !op.label.isEmpty) = true from ht)]
  by_cases hfar : op.isFar = true
  · have hword := wordOf_toByte op.imm
    rw [if_pos hfar]
    cases isCall
    · exact (cpu.run_jump none _ (by decide) (by decide) rfl rfl).trans (congrArg some (hword _))
    · exact (cpu.run_jump none _ (by decide) (by decide) rfl rfl).trans (congrArg some (hword _))
  · rw [if_neg hfar]
    have hnear := add_wordOf (site.pos + 3) (op.imm - (site.pos + 3)) []
    rw [show site.pos + 3 + (op.imm - (site.pos + 3)) = op.imm by omega] at hnear
    by_cases hs : (!isCall && !jmpIsNear site op.imm) = true
    · rw [if_pos hs]
      simp only [Bool.and_eq_true, Bool.not_eq_true', jmpIsNear, Bool.or_eq_false_iff,
        Bool.not_eq_false'] at hs
      refine (cpu.run_short none _ (by decide) (by decide) rfl _ _).trans ?_
      rw [if_pos rfl, signedByte_toByte hs.2.2]
      exact congrArg (fun n => some (n % 65536)) (by unfold Site.rel; omega)
    · rw [if_neg hs]
      cases isCall
      · exact (cpu.run_jump none _ (by decide) (by decide) rfl rfl).trans (congrArg some hnear)
      · exact (cpu.run_jump none _ (by decide) (by decide) rfl rfl).trans (congrArg some hnear)

/-- A short jump of a direct target is in range. -/
theorem direct_untruncated (isCall : Bool) (ht : op.isTarget = true)
    (hlen : (asmJmpCall site isCall op).bytes.length = 2) : fitsByte (site.rel op.imm) = true := by
  unfold asmJmpCall at hlen
  rw [if_pos (show (op.isImm || !op.label.isEmpty) = true from ht)] at hlen
  split_ifs at hlen with hfar hc hs hc
  all_goals try cases hlen
  simp only [Bool.and_eq_true, Bool.not_eq_true', jmpIsNear, Bool.or_eq_false_iff,
        Bool.not_eq_false'] at hs
  exact hs.2.2

/-- The bytes of an indirect branch. -/
theorem indirect_bytes (isCall : Bool) (ht : op.isTarget = false)
    (hp : (op.isReg || op.isMem) = true) :
    asmJmpCall site isCall op = emitMemOverride op ++ emit 0xFF ++
      emitRm op (if isCall then (if op.isFar then 3 else 2) else if op.isFar then 5 else 4) := by
  unfold asmJmpCall
  rw [if_neg (show ¬(op.isImm || !op.label.isEmpty) = true from Bool.eq_false_iff.mp ht),
    if_pos hp]

/-- The word register or word in memory that an indirect branch goes to. -/
theorem indirect_run (cpu : Cpu) (isCall : Bool) (h : op.Wf) (ht : op.isTarget = false)
    (hp : op.isPointer = true) (he : (asmJmpCall site isCall op).errors = 0) :
    cpu.run none site.pos (asmJmpCall site isCall op).bytes =
      some ((if op.isMem then cpu.mem op.segOvr op.memRef else cpu.reg op.reg) % 65536) := by
  have hkind : (op.isReg || op.isMem) = true := by
    unfold Operand.isPointer at hp
    cases hr : op.isReg <;> cases hm : op.isMem <;> simp [hr, hm] at hp ⊢
  rw [indirect_bytes isCall ht hkind] at he ⊢
  generalize hr : (if isCall then (if op.isFar then 3 else 2) else if op.isFar then 5 else 4) = r
    at he ⊢
  have hrange : 2 ≤ r ∧ r ≤ 5 := by split_ifs at hr <;> omega
  cases hm : op.isMem with
  | true =>
    obtain ⟨hreg, -, -⟩ := isMem_kind hm
    rw [emitRm, hreg, if_neg Bool.false_ne_true] at he ⊢
    simp only [Enc.errors_append] at he
    have hdec := decodeRm_mem h (show r < 8 by omega)
      (show (emitModrmMem op r).errors = 0 by omega) []
    rw [List.append_nil] at hdec
    rw [if_pos rfl]
    cases hseg : op.segOvr with
    | none =>
      rw [emitMemOverride, hm, if_pos rfl, emitSegOverride, hseg]
      exact cpu.run_memory none _ hrange hdec
    | some n =>
      have hbytes : (emitMemOverride op).bytes = [overrideByte n] :=
        emitMemOverride_some (by rw [Operand.override, hm, if_pos rfl, hseg])
      simp only [Enc.bytes_append, hbytes]
      exact (cpu.run_segOvr none _ (h.segOvr n hseg) (List.cons_ne_nil _ _)).trans
        (cpu.run_memory _ _ hrange hdec)
  | false =>
    rw [hm, Bool.or_false] at hkind
    have hfar : op.isFar = false := by
      rw [Operand.isPointer, hm, hkind] at hp
      simpa using (Bool.and_eq_true_iff.mp hp).2
    rw [hfar] at hr
    have hr2 : r = 2 ∨ r = 4 := by cases isCall <;> simp at hr <;> omega
    have hdec := decodeRm_reg (show r < 8 by omega) h.reg []
    rw [List.append_nil] at hdec
    rw [emitRm, hkind, if_pos rfl, emitMemOverride, hm, if_neg Bool.false_ne_true,
      if_neg Bool.false_ne_true]
    exact cpu.run_register none _ hr2 hdec

theorem jmpCall_reaches {isCall : Bool} (h : op.Wf)
    (he : (asmJmpCall site isCall op).errors = 0) :
    (Instr.jmpCall isCall op).Reaches site ↔ (op.isTarget || op.isPointer) = true := by
  cases ht : op.isTarget with
  | true =>
    refine iff_of_true ⟨fun cpu => ⟨op.imm, if_pos ht, ?_⟩, fun hlen _ => ?_⟩ rfl
    · exact direct_run cpu isCall ht
    · exact direct_untruncated isCall ht hlen
  | false =>
    rw [Bool.false_or]
    have hne : ¬op.isTarget = true := Bool.eq_false_iff.mp ht
    cases hp : op.isPointer with
    | true =>
      refine iff_of_true ⟨fun cpu =>
        ⟨if op.isMem then cpu.mem op.segOvr op.memRef else cpu.reg op.reg,
        ?_, indirect_run cpu isCall h ht hp he⟩, fun _ htrue => absurd htrue hne⟩ rfl
      rw [Instr.target, if_neg hne, hp, if_neg (show ¬(!true) = true by decide)]
      split_ifs <;> rfl
    | false =>
      refine iff_of_false (fun hr => ?_) Bool.false_ne_true
      obtain ⟨t, htarget, -⟩ := hr.target default
      rw [Instr.target, if_neg hne, hp, if_pos (show (!false) = true by decide)] at htarget
      cases htarget

/-! ## Conditional jumps -/

theorem jcc_opcode {cc : Nat} (h : cc < 16) : toByte (0x70 + cc : Int) = 0x70 + cc ∧
    toByte (0x70 + (cc ^^^ 1 : Nat) : Int) = 0x70 + (cc ^^^ 1) ∧ cc ^^^ 1 < 16 := by
  have hall : ∀ cc : Nat, cc < 16 → toByte (0x70 + cc : Int) = 0x70 + cc ∧
    toByte (0x70 + (cc ^^^ 1 : Nat) : Int) = 0x70 + (cc ^^^ 1) ∧ cc ^^^ 1 < 16 := by decide
  exact hall cc h

theorem run_jcc (cpu : Cpu) {cc : Nat} (h : cc < 16) (ip : Int) (d : Nat) (rest : List Nat) :
    cpu.run none ip ((0x70 + cc) :: d :: rest) =
      if cpu.cond cc then some ((ip + 2 + signedByte d) % 65536)
      else cpu.run none (ip + 2) rest := by
  have hall : ∀ cc < 16, Cpu.isPrefix (0x70 + cc) = false ∧ Cpu.overrideSeg (0x70 + cc) = none := by
    decide
  refine cpu.run_short none ip (hall cc h).1 (hall cc h).2 ?_ d rest
  rw [Cpu.shortJump, if_pos (by omega), Nat.add_sub_cancel_left]

/-- The short form. -/
theorem jcc_short_run (cpu : Cpu) {cc : Nat} (h : cc < 16) {label : List Char}
    (hshort : jccIsLong site label op.imm = false) (hfits : fitsByte (site.rel op.imm) = true) :
    cpu.run none site.pos (asmJcc site cc label op).bytes =
      some ((if cpu.cond cc then op.imm else site.pos + 2) % 65536) := by
  have hbytes : (asmJcc site cc label op).bytes = [0x70 + cc, toByte (site.rel op.imm)] := by
    rw [asmJcc, hshort, if_neg Bool.false_ne_true, ← (jcc_opcode h).1]
    rfl
  rw [hbytes, run_jcc cpu h, signedByte_toByte hfits, Cpu.run]
  split_ifs
  · exact congrArg (fun n => some (n % 65536)) (by unfold Site.rel; omega)
  · rfl

/-- The inverted jump over a near one. -/
theorem jcc_long_run (cpu : Cpu) {cc : Nat} (h : cc < 16) {label : List Char}
    (hlong : jccIsLong site label op.imm = true) :
    cpu.run none site.pos (asmJcc site cc label op).bytes =
      some ((if cpu.cond cc then op.imm else site.pos + 5) % 65536) := by
  have hbytes : (asmJcc site cc label op).bytes =
      (0x70 + (cc ^^^ 1)) :: 3 :: 0xE9 :: toByte (op.imm - (site.pos + 2 + 3)) ::
        [toByte ((op.imm - (site.pos + 2 + 3)) / 256)] := by
    rw [asmJcc, hlong, if_pos rfl, ← (jcc_opcode h).2.1]
    rfl
  have hnear := add_wordOf (site.pos + 2 + 3) (op.imm - (site.pos + 2 + 3)) []
  rw [show site.pos + 2 + 3 + (op.imm - (site.pos + 2 + 3)) = op.imm by omega] at hnear
  rw [hbytes, run_jcc cpu (jcc_opcode h).2.2, cpu.inverse cc h]
  cases cpu.cond cc with
  | true =>
    show cpu.run none (site.pos + 2) (0xE9 :: _) = _
    exact (cpu.run_jump none _ (by decide) (by decide) rfl rfl).trans (congrArg some hnear)
  | false => exact congrArg (fun n => some (n % 65536)) (Int.add_assoc _ _ _)

theorem jcc_length {cc : Nat} {label : List Char} : (asmJcc site cc label op).bytes.length =
    if jccIsLong site label op.imm then 5 else 2 := by
  rw [asmJcc]
  split_ifs <;> rfl

theorem jcc_reaches {cc : Nat} (h : cc < 16) (label : List Char) :
    (Instr.jcc cc label op).Reaches site ↔
      (op.isImm && (site.relaxed || site.knows label || fitsByte (site.rel op.imm))) = true := by
  have hcond : (site.relaxed || site.knows label || fitsByte (site.rel op.imm)) =
      (jccIsLong site label op.imm || fitsByte (site.rel op.imm)) := by
    rw [jccIsLong]
    cases site.relaxed <;> cases site.knows label <;> cases fitsByte (site.rel op.imm) <;> rfl
  rw [hcond, Bool.and_eq_true, Bool.or_eq_true]
  constructor
  · intro hr
    obtain ⟨t, ht, -⟩ := hr.target default
    rw [Instr.target] at ht
    split_ifs at ht with hi
    refine ⟨hi, ?_⟩
    cases hlong : jccIsLong site label op.imm with
    | true => exact .inl rfl
    | false =>
      refine .inr (hr.short ?_)
      show (asmJcc site cc label op).bytes.length = 2
      rw [jcc_length, hlong, if_neg Bool.false_ne_true]
  · rintro ⟨hi, hlf⟩
    refine ⟨fun cpu => ⟨op.imm, if_pos hi, ?_⟩, fun hlen => ?_⟩
    · show cpu.run none site.pos (asmJcc site cc label op).bytes =
        some ((if cpu.cond cc then op.imm
          else site.pos + (asmJcc site cc label op).bytes.length) % 65536)
      rw [jcc_length]
      cases hlong : jccIsLong site label op.imm with
      | true => exact jcc_long_run cpu h hlong
      | false =>
        refine jcc_short_run cpu h hlong (hlf.resolve_left ?_)
        rw [hlong]
        exact Bool.false_ne_true
    · replace hlen : (asmJcc site cc label op).bytes.length = 2 := hlen
      refine hlf.resolve_left fun hlong => ?_
      rw [jcc_length, if_pos hlong] at hlen
      cases hlen

/-! ## Loops -/

theorem loop_opcode {opcode : Nat} (h : inTable loopTable opcode = true) :
    Cpu.isPrefix opcode = false ∧ Cpu.overrideSeg opcode = none ∧
      ∀ cpu : Cpu, cpu.shortJump opcode = some (cpu.loops opcode) := by
  have hall : ∀ x ∈ loopTable, Cpu.isPrefix x.2 = false ∧ Cpu.overrideSeg x.2 = none ∧
      0xE0 ≤ x.2 ∧ x.2 < 0xE4 := by decide
  obtain ⟨x, hx, rfl⟩ := mem_of_inTable h
  obtain ⟨hb, ho, hrange⟩ := hall x hx
  refine ⟨hb, ho, fun cpu => ?_⟩
  rw [Cpu.shortJump, if_neg (by omega), if_pos hrange]

theorem loop_reaches {opcode : Nat} (h : inTable loopTable opcode = true)
    (he : (asmLoop site opcode op).errors = 0) :
    (Instr.loop opcode op).Reaches site ↔ op.isImm = true := by
  have hfits : fitsByte (site.rel op.imm) = true := by
    unfold asmLoop at he
    by_contra hne
    rw [if_neg hne] at he
    exact absurd he encErr_errors
  have hbytes : (asmLoop site opcode op).bytes = [opcode, toByte (site.rel op.imm)] := by
    have hall : ∀ x ∈ loopTable, toByte (x.2 : Int) = x.2 := by decide
    obtain ⟨x, hx, rfl⟩ := mem_of_inTable h
    rw [asmLoop, if_pos hfits]
    show [toByte (x.2 : Int), toByte (site.rel op.imm)] = _
    rw [hall x hx]
  have hopcode := loop_opcode h
  constructor
  · intro hr
    obtain ⟨t, ht, -⟩ := hr.target default
    rw [Instr.target] at ht
    split_ifs at ht with hi
    exact hi
  · intro hi
    refine ⟨fun cpu => ⟨op.imm, if_pos hi, ?_⟩, fun _ => hfits⟩
    show cpu.run none site.pos (asmLoop site opcode op).bytes =
      some ((if cpu.loops opcode then op.imm
        else site.pos + (asmLoop site opcode op).bytes.length) % 65536)
    rw [hbytes, cpu.run_short none _ hopcode.1 hopcode.2.1 (hopcode.2.2 cpu),
      signedByte_toByte hfits, Cpu.run]
    split_ifs
    · exact congrArg (fun n => some (n % 65536)) (by unfold Site.rel; omega)
    · rfl

end Mnemonics

/-! ## Lines -/

theorem encode_prefixed (site : Site) {byte : Nat} (h : inTable prefixTable byte = true)
    (rest : Instr) : (encode site (.prefixed byte rest)).bytes =
      byte :: (encode (site.advance 1) rest).bytes := by
  have hall : ∀ x ∈ prefixTable, toByte (x.2 : Int) = x.2 := by decide
  obtain ⟨x, hx, rfl⟩ := mem_of_inTable h
  show [toByte (x.2 : Int)] ++ _ = _
  rw [hall x hx]
  rfl

/-- A prefix does nothing. -/
theorem prefixed_reaches {site : Site} {byte : Nat} (h : inTable prefixTable byte = true)
    (rest : Instr) :
    (Instr.prefixed byte rest).Reaches site ↔ rest.Reaches (site.advance 1) := by
  have hbytes := encode_prefixed site h rest
  have hlen : site.pos + ((encode site (.prefixed byte rest)).bytes.length : Nat) =
      (site.advance 1).pos + ((encode (site.advance 1) rest).bytes.length : Nat) := by
    rw [hbytes, List.length_cons]
    show site.pos + ((_ + 1 : Nat) : Int) = site.pos + (1 : Nat) + _
    omega
  have hrun : ∀ cpu : Cpu, cpu.run none site.pos (encode site (.prefixed byte rest)).bytes =
      cpu.run none (site.advance 1).pos (encode (site.advance 1) rest).bytes := fun cpu => by
    rw [hbytes]
    exact cpu.run_prefix none _ h _
  constructor
  · intro hr
    refine ⟨fun cpu => ?_, hr.short⟩
    obtain ⟨t, ht, hgo⟩ := hr.target cpu
    rw [hrun, hlen] at hgo
    exact ⟨t, ht, hgo⟩
  · intro hr
    refine ⟨fun cpu => ?_, hr.short⟩
    obtain ⟨t, ht, hgo⟩ := hr.target cpu
    refine ⟨t, ht, ?_⟩
    rw [hrun, hlen]
    exact hgo

theorem Instr.reaches_iff (i : Instr) : ∀ (site : Site), i.Wf → i.isBranch = true →
    (encode site i).errors = 0 → (i.Reaches site ↔ i.reachable site = true) := by
  induction i with
  | jmpCall isCall op => exact fun _ h _ he => jmpCall_reaches h he
  | jcc cc label op =>
    intro site h _ _
    have hcc : cc < 16 := by
      have hall : ∀ x ∈ jccTable, x.2 < 16 := by decide
      obtain ⟨x, hx, rfl⟩ := mem_of_inTable h.1
      exact hall x hx
    exact jcc_reaches hcc label
  | loop opcode op => exact fun _ h _ he => loop_reaches h.1 he
  | prefixed byte rest ih =>
    intro site h hb he
    have herr : (encode (site.advance 1) rest).errors = 0 :=
      (Nat.add_eq_zero_iff.mp (show 0 + (encode (site.advance 1) rest).errors = 0 from he)).2
    exact (prefixed_reaches h.1 rest).trans (ih (site.advance 1) h.2 hb herr)
  | _ => exact fun _ _ hb _ => Bool.noConfusion hb

/-- The start of pass 2 over a single line. -/
def onlyLine (text : String) : AsmState := (afterPass1 [text.toList]).startPass2

end Nib.Asm
