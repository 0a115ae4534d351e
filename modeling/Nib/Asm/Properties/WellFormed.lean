import Nib.Asm.Spec.WellFormed

/-!
# What the parser promises

* `Yields` — whatever a parser reads, its result has a property
* `parseOperand_wf`, `parseInstr_wf` — operands and instructions are well formed
-/

namespace Nib.Asm

namespace Parse

/-- Every result of a parser has a property. -/
def Yields {α : Type} (P : α → Prop) (p : Parse α) : Prop := ∀ e s, P (p e s).1

variable {α β : Type} {P : α → Prop} {Q : β → Prop}

theorem yields_pure {a : α} (h : P a) : Yields P (pure a) := fun _ _ => h

theorem yields_bind {p : Parse α} {f : α → Parse β} (hp : Yields P p)
    (hf : ∀ a, P a → Yields Q (f a)) : Yields Q (p >>= f) := fun e s => hf _ (hp e s) e _

/-- The result of the first parser does not matter. -/
theorem yields_then {p : Parse α} {f : α → Parse β} (hf : ∀ a, Yields Q (f a)) :
    Yields Q (p >>= f) := fun e _ => hf _ e _

theorem yields_ite {c : Prop} [Decidable c] {p q : Parse α} (hp : c → Yields P p)
    (hq : ¬c → Yields P q) : Yields P (if c then p else q) := by
  by_cases h : c
  · rw [if_pos h]
    exact hp h
  · rw [if_neg h]
    exact hq h

theorem yields_intro {p : Parse α} (h : ∀ e s, P (p e s).1) : Yields P p := h

theorem Yields.result {p : Parse α} (h : Yields P p) (e : Env) (s : ParseState) : P (p e s).1 :=
  h e s

-- otherwise the parsers are run when these lemmas are applied
attribute [irreducible] Yields

end Parse

open Parse

/-! ## Operands -/

theorem findReg_wf {name : List Char} {r : RegInfo} (h : findReg name = some r) :
    r.id < 8 ∧ (r.size = .segment → r.id < 4) := by
  have hall : ∀ r ∈ regs, r.id < 8 ∧ (r.size = .segment → r.id < 4) := by decide
  exact hall r (List.mem_of_find?_eq_some h)

theorem addMemReg_wf {op : Operand} (h : op.Wf) (r : Nat) : Yields Operand.Wf (addMemReg op r) := by
  have hbase : ({ op with base := some r } : Operand).Wf :=
    ⟨h.reg, h.size, h.regSize, h.sreg, h.disp, h.label, fun _ => rfl, h.segOvr⟩
  have hindex : (some r = some R_BP → op.base.isSome = true) →
      ({ op with index := some r } : Operand).Wf := fun hbp =>
    ⟨h.reg, h.size, h.regSize, h.sreg, h.disp, h.label, hbp, h.segOvr⟩
  have herr : Yields Operand.Wf (do err; pure op) := yields_then fun _ => yields_pure h
  unfold addMemReg
  refine yields_ite (fun _ => yields_ite (fun _ => yields_pure hbase) fun hb =>
    yields_ite (fun _ => yields_pure (hindex fun _ => ?_)) fun _ => herr) fun _ => ?_
  · cases hop : op.base with
    | none => exact absurd (by rw [hop]; rfl) hb
    | some b => rfl
  · refine yields_ite (fun hr => yields_ite (fun _ => yields_pure (hindex fun heq => ?_)) fun _ =>
      yields_ite (fun _ => yields_pure hbase) fun _ => herr) fun _ => herr
    -- neither `SI` nor `DI` is `BP`
    rw [Option.some.inj heq] at hr
    exact absurd hr (by decide)

theorem parseSegOverride_wf {op : Operand} (h : op.Wf) :
    Yields Operand.Wf (parseSegOverride op) := by
  unfold parseSegOverride
  refine yields_then fun t => ?_
  split
  · next r hr =>
    have hid : r.size = .segment → r.id < 4 := by
      split_ifs at hr
      exact (findReg_wf hr).2
    refine yields_ite (fun hseg => ?_) fun _ => yields_pure h
    refine yields_then fun _ => yields_then fun _ => yields_then fun _ => yields_ite (fun _ => ?_)
      fun _ => yields_then fun _ => yields_then fun _ => yields_pure h
    exact yields_then fun _ => yields_pure ⟨h.reg, h.size, h.regSize, h.sreg, h.disp, h.label, h.bp,
      fun n hn => Option.some.inj hn ▸ hid hseg⟩
  · exact yields_pure h

theorem withDisp_wf {op : Operand} (h : op.Wf) (disp : Int) :
    ({ op with disp, hasDisp := true } : Operand).Wf :=
  ⟨h.reg, h.size, h.regSize, h.sreg, fun hd => Bool.noConfusion hd, h.label, h.bp, h.segOvr⟩

theorem parseMemComponents_wf : ∀ (fuel : Nat) (got : Bool) {op : Operand}, op.Wf →
    Yields Operand.Wf (parseMemComponents fuel got op)
  | 0, _, _, h => yields_then fun _ => yields_pure h
  | fuel + 1, got, op, h => by
    have ih := fun got {op} (h : Operand.Wf op) => parseMemComponents_wf fuel got h
    have hexpr : Yields Operand.Wf (do
        let val ← parseExpr
        parseMemComponents fuel true
          { op with disp := toInt32 (op.disp + val), hasDisp := true }) :=
      yields_then fun _ => ih true (withDisp_wf h _)
    unfold parseMemComponents
    refine yields_then fun t => yields_ite (fun _ => yields_then fun _ => yields_pure h) fun _ => ?_
    refine yields_ite (fun _ => yields_then fun _ => ih got h) fun _ => ?_
    refine yields_ite (fun _ => yields_then fun _ => yields_then fun _ => yields_then fun _ =>
      ih true (withDisp_wf h _)) fun _ => ?_
    split
    · next r _ =>
      refine yields_ite (fun _ => yields_then fun _ => ?_) fun _ => hexpr
      exact yields_bind (addMemReg_wf h r.id) fun op' h' => ih true h'
    · exact hexpr

theorem parseMem_wf {op : Operand} (h : op.Wf) : Yields Operand.Wf (parseMem op) := by
  unfold parseMem
  refine yields_bind (parseSegOverride_wf h) fun op1 h1 => yields_then fun s =>
    yields_bind (parseMemComponents_wf _ _ h1) fun op2 h2 => ?_
  exact yields_ite (fun _ => yields_pure (withDisp_wf h2 op2.disp)) fun _ => yields_pure h2

theorem checkSizePrefix_le : Yields (· ≤ 2) checkSizePrefix := by
  unfold checkSizePrefix
  refine yields_then fun t => yields_ite (fun _ => yields_then fun _ => yields_pure (by decide))
    fun _ => ?_
  exact yields_ite (fun _ => yields_then fun _ => yields_pure (by decide)) fun _ =>
    yields_pure (by decide)

/-- **A parsed operand is well formed.** -/
theorem parseOperand_wf : Yields Operand.Wf parseOperand := by
  have hempty : ∀ isFar : Bool, ({ isFar } : Operand).Wf := fun _ =>
    ⟨Nat.succ_pos 7, Nat.zero_le _, by rintro ⟨⟩, by rintro ⟨⟩, fun _ => rfl, by rintro ⟨⟩,
        by rintro ⟨⟩, by rintro _ ⟨⟩⟩
  have hlabel : ∀ (op : Operand) (n : Nat) (name : List Char), op.Wf → n ≤ 2 →
      Yields Operand.Wf (labelOperand op n name) := fun op n name h hn => by
    unfold labelOperand
    refine yields_then fun val =>
      yields_pure ⟨h.reg, ?_, by rintro ⟨⟩, by rintro ⟨⟩, h.disp, by rintro ⟨⟩, h.bp, h.segOvr⟩
    split_ifs
    · exact hn
    · exact Nat.le_refl 2
  have hseg : ∀ (op : Operand) (n : Nat) (name : List Char), op.Wf → n ≤ 2 →
      Yields Operand.Wf (segOperand op n name) := fun op n name h hn => yields_intro fun e s => by
    refine ⟨h.reg, ?_, by rintro ⟨⟩, by rintro ⟨⟩, h.disp, by rintro ⟨⟩, h.bp, h.segOvr⟩
    show (if n ≠ 0 then n else 2) ≤ 2
    split_ifs
    · exact hn
    · exact Nat.le_refl 2
  unfold parseOperand
  refine yields_bind checkSizePrefix_le fun n hn => yields_then fun _ => yields_then fun isFar =>
    yields_then fun t => ?_
  have h0 := hempty isFar
  refine yields_ite (fun _ => yields_then fun _ => parseMem_wf
    ⟨Nat.succ_pos 7, hn, by rintro ⟨⟩, by rintro ⟨⟩, fun _ => rfl, fun _ => rfl, by rintro ⟨⟩,
      by rintro _ ⟨⟩⟩) fun _ => ?_
  split
  · next r hr =>
    have hid : r.id < 8 ∧ (r.size = .segment → r.id < 4) := by
      split_ifs at hr
      exact findReg_wf hr
    refine yields_then fun _ => ?_
    split
    · next hs =>
      exact yields_pure ⟨hid.1, Nat.le_refl 2, by rintro ⟨⟩, fun _ => ⟨hid.2 hs, rfl⟩, fun _ => rfl,
        by rintro ⟨⟩, by rintro ⟨⟩, by rintro _ ⟨⟩⟩
    · exact yields_pure ⟨hid.1, Nat.le_refl 2, fun _ => Nat.succ_ne_zero 1, by rintro ⟨⟩,
        fun _ => rfl, by rintro ⟨⟩, by rintro ⟨⟩, by rintro _ ⟨⟩⟩
    · exact yields_pure ⟨hid.1, Nat.le_succ 1, fun _ => Nat.succ_ne_zero 0, by rintro ⟨⟩,
        fun _ => rfl, by rintro ⟨⟩, by rintro ⟨⟩, by rintro _ ⟨⟩⟩
  · refine yields_ite (fun _ => yields_then fun _ => yields_pure
      ⟨Nat.succ_pos 7, hn, by rintro ⟨⟩, by rintro ⟨⟩, fun _ => rfl, by rintro ⟨⟩,
        by rintro ⟨⟩, by rintro _ ⟨⟩⟩) fun _ => ?_
    refine yields_ite (fun _ => ?_) fun _ => yields_then fun _ => yields_pure h0
    refine yields_ite (fun _ => yields_then fun _ => yields_then fun lt => ?_) fun _ =>
      yields_then fun _ => hlabel _ _ _ h0 hn
    exact yields_ite (fun _ => yields_then fun _ => hseg _ _ _ h0 hn) fun _ =>
      yields_then fun _ => hlabel _ _ _ h0 hn

/-! ## Instructions -/

theorem parseTwo_wf {f : Operand → Operand → Instr} (hf : ∀ dst src, dst.Wf → src.Wf →
    (f dst src).Wf) : Yields Instr.Wf (parseTwo f) := by
  unfold parseTwo
  exact yields_bind parseOperand_wf fun dst hd => yields_then fun _ =>
    yields_bind parseOperand_wf fun src hs => yields_pure (hf dst src hd hs)

theorem parseOne_wf {f : Operand → Instr} (hf : ∀ op, op.Wf → (f op).Wf) :
    Yields Instr.Wf (parseOne f) := by
  unfold parseOne
  exact yields_bind parseOperand_wf fun op h => yields_pure (hf op h)

theorem withSize_wf {op : Operand} (h : op.Wf) (h0 : op.size = 0) {n : Nat} (hn : n ≤ 2)
    (hpos : n ≠ 0) : ({ op with size := n } : Operand).Wf :=
  ⟨h.reg, hn, fun _ => hpos, fun hs => by
    have := (h.sreg hs).2
    omega, h.disp, h.label, h.bp, h.segOvr⟩

theorem inferMovSizes_wf {dst src : Operand} (hd : dst.Wf) (hs : src.Wf) :
    (inferMovSizes dst src).1.Wf ∧ (inferMovSizes dst src).2.Wf := by
  unfold inferMovSizes
  by_cases h1 : dst.size ≠ 0 ∧ src.size = 0
  · have hs' := withSize_wf hs h1.2 hd.size h1.1
    simp only [h1, ne_eq, not_false_eq_true, and_self, if_true, and_false, if_false]
    exact ⟨hd, hs'⟩
  · simp only [h1, if_false]
    by_cases h2 : src.size ≠ 0 ∧ dst.size = 0
    · have hd' := withSize_wf hd h2.2 hs.size h2.1
      simp only [h2, ne_eq, not_false_eq_true, and_self, if_true, if_false]
      exact ⟨hd', hs⟩
    · simp only [h2, if_false]
      by_cases h3 : dst.size = 0 ∧ src.size = 0
      · rw [if_pos h3]
        exact ⟨withSize_wf hd h3.1 (Nat.le_refl 2) (by decide),
          withSize_wf hs h3.2 (Nat.le_refl 2) (by decide)⟩
      · rw [if_neg h3]
        exact ⟨hd, hs⟩

theorem parseImul_wf : Yields Instr.Wf parseImul := by
  unfold parseImul
  refine yields_bind parseOperand_wf fun dst hd => yields_then fun save => yields_then fun t =>
    yields_ite (fun _ => ?_) fun _ => yields_then fun _ => yields_pure ⟨.inl rfl, hd⟩
  refine yields_bind parseOperand_wf fun src hs => yields_then fun save2 => yields_then fun t2 =>
    yields_ite (fun _ => ?_) fun _ => yields_then fun _ => yields_pure ⟨hd.reg, hd.reg⟩
  exact yields_bind parseOperand_wf fun imm _ => yields_pure ⟨hd.reg, hs.reg⟩

theorem parseBextBins_wf (isBext : Bool) : Yields Instr.Wf (parseBextBins isBext) := by
  unfold parseBextBins
  refine yields_then fun t => yields_ite (fun _ => yields_pure ?_) fun _ => ?_
  · cases isBext
    · exact (rfl : isFixed [0x0F, 0x31, 0xC0] = true)
    · exact (rfl : isFixed [0x0F, 0x33, 0xC0] = true)
  refine yields_bind parseOperand_wf fun first hf => yields_then fun t2 => ?_
  refine yields_ite (fun _ => yields_pure ⟨hf, by rintro _ ⟨⟩⟩) fun _ => yields_then fun _ => ?_
  exact yields_bind parseOperand_wf fun second hs =>
    yields_pure ⟨hf, fun op hop => Option.some.inj hop ▸ hs⟩

/-- The constant of a mnemonic. -/
theorem mem_of_inTable {table : List (String × Nat)} {n : Nat} (hn : inTable table n = true) :
    ∃ x ∈ table, x.2 = n := by
  obtain ⟨x, hx, heq⟩ := List.any_eq_true.mp hn
  exact ⟨x, hx, beq_iff_eq.mp heq⟩

/-- A mnemonic of a table comes with a constant of the table. -/
theorem onTable_wf {table : List (String × Nat)} {m : List Char} {f : Nat → Parse Instr}
    {otherwise : Parse Instr} (hf : ∀ n, inTable table n = true → Yields Instr.Wf (f n))
    (ho : Yields Instr.Wf otherwise) : Yields Instr.Wf (onTable table m f otherwise) := by
  unfold onTable
  cases h : lookupWord table m with
  | none => exact ho
  | some n =>
    refine hf n (List.any_eq_true.mpr ?_)
    obtain ⟨x, hx, hn⟩ := Option.map_eq_some_iff.mp h
    exact ⟨x, List.mem_of_find?_eq_some hx, beq_iff_eq.mpr hn⟩

theorem onWord_wf {w : String} {m : List Char} {p otherwise : Parse Instr}
    (hp : Yields Instr.Wf p) (ho : Yields Instr.Wf otherwise) :
    Yields Instr.Wf (onWord w m p otherwise) := by
  unfold onWord
  exact yields_ite (fun _ => hp) fun _ => ho

theorem parsePlain_wf (m : List Char) : Yields Instr.Wf (parsePlain m) := by
  unfold parsePlain
  refine onTable_wf (fun op h => yields_pure ?_) ?_
  · show (inTable simpleTable op || inTable prefixTable op) = true
    rw [h, Bool.true_or]
  refine onTable_wf (fun op h => ?_) ?_
  · have hfixed : ∀ n < 256, (Instr.bytes [op, n]).Wf := fun n hn => by
      show (inTable adjustTable op && decide (n < 256) ||
        op == 0x0F && inTable v20SimpleTable n) = true
      rw [h, decide_eq_true hn]
      rfl
    unfold parseAdjust
    refine yields_then fun t => yields_ite (fun _ => yields_then fun _ => yields_pure ?_)
      fun _ => yields_pure (hfixed 0x0A (by decide))
    refine hfixed _ ?_
    unfold toByte
    omega
  refine onTable_wf (fun op h => parseTwo_wf fun _ _ hd hs => ⟨h, hd, hs⟩) ?_
  refine onTable_wf (fun op h => parseTwo_wf fun _ _ hd hs => ⟨h, hd, hs⟩) ?_
  refine onWord_wf (parseTwo_wf fun _ _ hd hs => inferMovSizes_wf hd hs) ?_
  refine onWord_wf (parseTwo_wf fun _ _ hd hs => ⟨hd, hs⟩) ?_
  refine onWord_wf (parseTwo_wf fun _ _ hd hs => ⟨hd, hs⟩) ?_
  refine onWord_wf (parseTwo_wf fun _ _ hd hs => ⟨hd, hs⟩) ?_
  refine onTable_wf (fun op h => parseTwo_wf fun _ _ hd hs => ⟨h, hd, hs⟩) ?_
  refine onTable_wf (fun op h => parseOne_wf fun _ hd => ⟨h, hd⟩) ?_
  refine onTable_wf (fun op h => parseOne_wf fun _ hd => ⟨.inr h, hd⟩) ?_
  refine onWord_wf parseImul_wf ?_
  refine onWord_wf (parseOne_wf fun _ h => h) ?_
  refine onWord_wf (parseOne_wf fun _ h => h) ?_
  refine onWord_wf (parseOne_wf fun _ h => h) ?_
  refine onWord_wf (parseOne_wf fun _ h => h) ?_
  refine onTable_wf (fun cc h => ?_) ?_
  · unfold parseJcc
    exact yields_then fun _ => yields_bind parseOperand_wf fun _ ho => yields_pure ⟨h, ho⟩
  refine onTable_wf (fun op h => parseOne_wf fun _ ho => ⟨h, ho⟩) ?_
  have hret : ∀ isFar, Yields Instr.Wf (parseRet isFar) := fun isFar => by
    unfold parseRet
    refine yields_then fun t => yields_ite (fun _ => ?_) fun _ => yields_pure (by rintro _ ⟨⟩)
    exact yields_bind parseOperand_wf fun op h =>
      yields_pure fun o ho => Option.some.inj ho ▸ h
  refine onWord_wf (hret false) ?_
  refine onWord_wf (hret true) ?_
  refine onWord_wf (parseOne_wf fun _ h => h) ?_
  refine onWord_wf (parseTwo_wf fun _ _ hd hs => ⟨hd, hs⟩) ?_
  refine onWord_wf (parseTwo_wf fun _ _ hd hs => ⟨hd, hs⟩) ?_
  refine onWord_wf (parseTwo_wf fun _ _ hd hs => ⟨hd, hs⟩) ?_
  refine onTable_wf (fun op h => parseTwo_wf fun _ _ hd hs => ⟨h, hd, hs⟩) ?_
  refine onTable_wf (fun op h => yields_pure ?_) ?_
  · show (inTable adjustTable 0x0F && decide (op < 256) ||
      0x0F == 0x0F && inTable v20SimpleTable op) = true
    rw [h]
    exact Bool.or_true _
  refine onWord_wf (parseBextBins_wf true) ?_
  refine onWord_wf (parseBextBins_wf false) ?_
  exact onWord_wf (parseOne_wf fun _ h => h) (yields_pure trivial)

/-- **A parsed instruction is well formed.** -/
theorem parseInstr_wf : ∀ (fuel : Nat) (m : List Char), Yields Instr.Wf (parseInstr fuel m)
  | 0, _ => yields_then fun _ => yields_pure trivial
  | fuel + 1, m => by
    unfold parseInstr
    cases h : lookupWord prefixTable m with
    | none => exact parsePlain_wf m
    | some byte =>
      have hbyte : inTable prefixTable byte = true := by
        obtain ⟨x, hx, hn⟩ := Option.map_eq_some_iff.mp h
        exact List.any_eq_true.mpr ⟨x, List.mem_of_find?_eq_some hx, beq_iff_eq.mpr hn⟩
      refine yields_then fun t => yields_ite (fun _ => yields_then fun _ => ?_) fun _ =>
        yields_pure ?_
      · exact yields_bind (parseInstr_wf fuel t.sval) fun rest hr => yields_pure ⟨hbyte, hr⟩
      · show (inTable simpleTable byte || inTable prefixTable byte) = true
        rw [hbyte, Bool.or_true]

/-- The instruction of a parsed statement. -/
theorem parseStatement_wf {e : Env} {s : ParseState} {i : Instr}
    (h : (parseStatement e s).1 = .instr i) : i.Wf := by
  have hall : Yields (fun st => ∀ i, st = Statement.instr i → i.Wf) parseStatement := by
    unfold parseStatement
    refine yields_then fun t => yields_ite (fun _ => yields_pure (by rintro _ ⟨⟩)) fun _ => ?_
    refine yields_then fun _ => yields_then fun s => ?_
    refine yields_ite (fun _ => yields_then fun _ => yields_pure (by rintro _ ⟨⟩)) fun _ => ?_
    refine yields_ite (fun _ => yields_then fun _ => yields_pure (by rintro _ ⟨⟩)) fun _ => ?_
    refine yields_ite (fun _ => yields_pure (by rintro _ ⟨⟩)) fun _ => ?_
    refine yields_ite (fun _ => yields_then fun _ => yields_pure (by rintro _ ⟨⟩)) fun _ => ?_
    refine yields_ite (fun _ => yields_then fun _ => yields_pure (by rintro _ ⟨⟩)) fun _ => ?_
    refine yields_ite (fun _ => yields_then fun _ => yields_pure (by rintro _ ⟨⟩)) fun _ => ?_
    exact yields_bind (parseInstr_wf _ t.sval) fun j hj =>
      yields_pure fun i hi => Statement.instr.inj hi ▸ hj
  exact hall.result e s i h

end Nib.Asm
