import Nib.Asm.Line

/-!
# The parser reads values from the symbol table, and nothing else

Two parses of the same text against different symbol tables stay at the same place of the text
and return operands that differ in their numbers only.

* `Parse.Agree` — two parsers keep two states in step and return related values
* `parseOperand_agree`, `parseStatement_agree` — the operand parser and the statement parser
-/

namespace Nib.Asm

/-- Two parses at the same place of the same text. Only the error counts may differ. -/
structure ParseState.Sync (s t : ParseState) : Prop where
  ptr : s.ptr = t.ptr
  peek : s.peek = t.peek
  hung : s.hung = t.hung

/-- Equal up to the numbers. -/
structure Operand.Same (a b : Operand) : Prop where
  type : a.type = b.type
  reg : a.reg = b.reg
  size : a.size = b.size
  hasDisp : a.hasDisp = b.hasDisp
  base : a.base = b.base
  index : a.index = b.index
  segOvr : a.segOvr = b.segOvr
  label : a.label = b.label
  isFar : a.isFar = b.isFar

theorem Operand.Same.refl (a : Operand) : a.Same a := ⟨rfl, rfl, rfl, rfl, rfl, rfl, rfl, rfl, rfl⟩

/-- Equal up to the numbers. -/
inductive Instr.Same : Instr → Instr → Prop
  | bytes (bs : List Nat) : Same (.bytes bs) (.bytes bs)
  | alu (op : Nat) {d d' s s' : Operand} : d.Same d' → s.Same s' →
    Same (.alu op d s) (.alu op d' s')
  | shift (op : Nat) {d d' s s' : Operand} : d.Same d' → s.Same s' →
      Same (.shift op d s) (.shift op d' s')
  | mov {d d' s s' : Operand} : d.Same d' → s.Same s' → Same (.mov d s) (.mov d' s')
  | xchg {d d' s s' : Operand} : d.Same d' → s.Same s' → Same (.xchg d s) (.xchg d' s')
  | test {d d' s s' : Operand} : d.Same d' → s.Same s' → Same (.test d s) (.test d' s')
  | lea {d d' s s' : Operand} : d.Same d' → s.Same s' → Same (.lea d s) (.lea d' s')
  | loadMem (opcode : Nat) {d d' s s' : Operand} : d.Same d' → s.Same s' →
      Same (.loadMem opcode d s) (.loadMem opcode d' s')
  | incDec (op : Nat) {d d' : Operand} : d.Same d' → Same (.incDec op d) (.incDec op d')
  | group3 (field : Nat) {d d' : Operand} : d.Same d' → Same (.group3 field d) (.group3 field d')
  | imulImm (reg rm : Nat) (imm imm' : Int) : Same (.imulImm reg rm imm) (.imulImm reg rm imm')
  | pushPop (isPop : Bool) {a b : Operand} : a.Same b → Same (.pushPop isPop a) (.pushPop isPop b)
  | jmpCall (isCall : Bool) {a b : Operand} : a.Same b →
      Same (.jmpCall isCall a) (.jmpCall isCall b)
  | jcc (cc : Nat) (label : List Char) {a b : Operand} : a.Same b →
      Same (.jcc cc label a) (.jcc cc label b)
  | loop (opcode : Nat) {a b : Operand} : a.Same b → Same (.loop opcode a) (.loop opcode b)
  | ret (isFar : Bool) {a b : Operand} : a.Same b →
      Same (.ret isFar (some a)) (.ret isFar (some b))
  | bareRet (isFar : Bool) : Same (.ret isFar none) (.ret isFar none)
  | int {a b : Operand} : a.Same b → Same (.int a) (.int b)
  | inOut (isOut : Bool) {d d' s s' : Operand} : d.Same d' → s.Same s' →
      Same (.inOut isOut d s) (.inOut isOut d' s')
  | enter {d d' s s' : Operand} : d.Same d' → s.Same s' → Same (.enter d s) (.enter d' s')
  | bitop (op : Nat) {d d' s s' : Operand} : d.Same d' → s.Same s' →
      Same (.bitop op d s) (.bitop op d' s')
  | bextBins (isBext : Bool) {a b c d : Operand} : a.Same b → c.Same d →
      Same (.bextBins isBext a (some c)) (.bextBins isBext b (some d))
  | bextBinsReg (isBext : Bool) {a b : Operand} : a.Same b →
      Same (.bextBins isBext a none) (.bextBins isBext b none)
  | brkem {a b : Operand} : a.Same b → Same (.brkem a) (.brkem b)
  | prefixed (byte : Nat) {a b : Instr} : Same a b → Same (.prefixed byte a) (.prefixed byte b)
  | unknown : Same .unknown .unknown

/-- Equal up to the numbers; data of the same length. -/
inductive Statement.Same : Statement → Statement → Prop
  | empty : Same .empty .empty
  | notInstr : Same .notInstr .notInstr
  | org {a b : Operand} : a.Same b → Same (.org a) (.org b)
  | endorg : Same .endorg .endorg
  | data {bs bs' : List Nat} : bs.length = bs'.length → Same (.data bs) (.data bs')
  | seg {a b : Operand} : a.Same b → Same (.seg a) (.seg b)
  | instr {i j : Instr} : i.Same j → Same (.instr i) (.instr j)

/-! ## Parsers in step -/

namespace Parse

/-- Run from states in step, the two parsers return related values and end in step. -/
def Agree {α : Type} (R : α → α → Prop) (m n : Parse α) : Prop :=
  ∀ (e f : Env) (s t : ParseState), s.Sync t → R (m e s).1 (n f t).1 ∧ (m e s).2.Sync (n f t).2

/-- Any two values. -/
def Any {α : Type} : α → α → Prop := fun _ _ => True

variable {α β : Type} {R : α → α → Prop} {S : β → β → Prop}

theorem agree_pure {a b : α} (h : R a b) : Agree R (pure a) (pure b) := fun _ _ _ _ hs => ⟨h, hs⟩

theorem agree_bind {m n : Parse α} {f g : α → Parse β} (h : Agree R m n)
    (hf : ∀ a b, R a b → Agree S (f a) (g b)) : Agree S (m >>= f) (n >>= g) := by
  intro e e' s t hs
  obtain ⟨hr, hs'⟩ := h e e' s t hs
  exact hf _ _ hr e e' _ _ hs'

theorem agree_ite_iff {c d : Prop} [Decidable c] [Decidable d] (hcd : c ↔ d)
    {m n m' n' : Parse α} (h : c → Agree R m n) (h' : ¬c → Agree R m' n') :
    Agree R (if c then m else m') (if d then n else n') := by
  by_cases hc : c
  · rw [if_pos hc, if_pos (hcd.mp hc)]
    exact h hc
  · rw [if_neg hc, if_neg (hcd.not.mp hc)]
    exact h' hc

theorem agree_ite {c : Prop} [Decidable c] {m n m' n' : Parse α} (h : c → Agree R m n)
    (h' : ¬c → Agree R m' n') : Agree R (if c then m else m') (if c then n else n') :=
  agree_ite_iff Iff.rfl h h'

theorem agree_err : Agree Eq err err := fun _ _ _ _ hs => ⟨rfl, hs.ptr, hs.peek, hs.hung⟩

theorem agree_hang : Agree Eq hang hang := fun _ _ _ _ hs => ⟨rfl, hs.ptr, hs.peek, rfl⟩

theorem agree_getState : Agree ParseState.Sync getState getState := fun _ _ _ _ hs => ⟨hs, hs⟩

theorem agree_restore {a b : ParseState} (h : a.Sync b) : Agree Eq (restore a) (restore b) :=
  fun _ _ _ _ hs => ⟨rfl, h.ptr, h.peek, hs.hung⟩

theorem agree_restorePtr {a b : ParseState} (h : a.Sync b) :
    Agree Eq (restorePtr a) (restorePtr b) := fun _ _ _ _ hs => ⟨rfl, h.ptr, hs.peek, hs.hung⟩

end Parse

open Parse

theorem nextTokenRaw_agree : Agree Eq nextTokenRaw nextTokenRaw := by
  intro e f s t hs
  unfold nextTokenRaw
  rw [hs.ptr]
  exact ⟨rfl, rfl, hs.peek, hs.hung⟩

theorem peekToken_agree : Agree Eq peekToken peekToken := by
  intro e f s t hs
  simp only [peekToken, hs.peek]
  cases t.peek with
  | some tok => exact ⟨rfl, hs⟩
  | none =>
    obtain ⟨ht, hs'⟩ := nextTokenRaw_agree e f s t hs
    exact ⟨ht, hs'.ptr, congrArg some ht, hs'.hung⟩

theorem consume_agree : Agree Eq consume consume := by
  intro e f s t hs
  simp only [consume, hs.peek]
  cases t.peek with
  | some tok => exact ⟨rfl, hs.ptr, rfl, hs.hung⟩
  | none => exact nextTokenRaw_agree e f s t hs

/-- A token and what follows it. -/
theorem agree_peek {α : Type} {R : α → α → Prop} {f g : Token → Parse α}
    (h : ∀ t, Agree R (f t) (g t)) : Agree R (peekToken >>= f) (peekToken >>= g) :=
  agree_bind peekToken_agree fun a _ hab => hab ▸ h a

/-- A token that is thrown away. -/
theorem agree_consume {α : Type} {R : α → α → Prop} {m n : Parse α} (h : Agree R m n) :
    Agree R (consume >>= fun _ => m) (consume >>= fun _ => n) :=
  agree_bind consume_agree fun _ _ _ => h

theorem expect_agree (type : TokType) : Agree Eq (expect type) (expect type) := by
  refine agree_bind consume_agree fun _ _ hab => ?_
  subst hab
  exact agree_ite (fun _ => agree_err) fun _ => agree_pure rfl

/-- A lookup moves no state but the error count. -/
theorem lookupLabel_sync (name : List Char) (e : Env) (s : ParseState) :
    (lookupLabel name e s).2.Sync s := by
  unfold lookupLabel
  cases findLabel e.labels name <;> cases e.pass2 <;> exact ⟨rfl, rfl, rfl⟩

theorem lookupSegment_sync (name : List Char) (e : Env) (s : ParseState) :
    (lookupSegment name e s).2.Sync s := by
  unfold lookupSegment
  cases findLabel e.labels name <;> cases e.pass2 <;> exact ⟨rfl, rfl, rfl⟩

theorem lookupLabel_agree (name : List Char) : Agree Any (lookupLabel name) (lookupLabel name) := by
  intro e f s t hs
  obtain ⟨h1, h2, h3⟩ := lookupLabel_sync name e s
  obtain ⟨h1', h2', h3'⟩ := lookupLabel_sync name f t
  exact ⟨trivial, by rw [h1, h1', hs.ptr], by rw [h2, h2', hs.peek], by rw [h3, h3', hs.hung]⟩

theorem lookupSegment_agree (name : List Char) :
    Agree Any (lookupSegment name) (lookupSegment name) := by
  intro e f s t hs
  obtain ⟨h1, h2, h3⟩ := lookupSegment_sync name e s
  obtain ⟨h1', h2', h3'⟩ := lookupSegment_sync name f t
  exact ⟨trivial, by rw [h1, h1', hs.ptr], by rw [h2, h2', hs.peek], by rw [h3, h3', hs.hung]⟩

/-! ## Expressions -/

theorem parsePrimary_agree_succ {fuel : Nat}
    (h : Agree Any (parseExprFuel fuel) (parseExprFuel fuel)) :
    Agree Any (parsePrimary (fuel + 1)) (parsePrimary (fuel + 1)) := by
  unfold parsePrimary
  refine agree_peek fun t => agree_ite (fun _ => ?_) fun _ => agree_ite (fun _ => ?_) fun _ =>
    agree_ite (fun _ => ?_) fun _ => ?_
  · exact agree_consume (agree_pure trivial)
  · refine agree_consume (agree_ite (fun _ => ?_) fun _ => lookupLabel_agree _)
    exact agree_peek fun lt => agree_ite
      (fun _ => agree_consume (lookupSegment_agree _)) fun _ => lookupLabel_agree _
  · refine agree_consume (agree_bind h fun a b _ => ?_)
    exact agree_bind (expect_agree _) fun _ _ _ => agree_pure trivial
  · exact agree_bind agree_err fun _ _ _ => agree_consume (agree_pure trivial)

theorem parseExprFuel_agree_succ {fuel : Nat}
    (hp : Agree Any (parsePrimary fuel) (parsePrimary fuel))
    (hl : ∀ v w, Agree Any (parseExprLoop fuel v) (parseExprLoop fuel w)) :
    Agree Any (parseExprFuel (fuel + 1)) (parseExprFuel (fuel + 1)) := by
  unfold parseExprFuel
  refine agree_peek fun t => agree_ite (fun _ => ?_) fun _ => agree_ite (fun _ => ?_) fun _ => ?_
  · exact agree_consume (agree_bind hp fun _ _ _ => hl _ _)
  · exact agree_consume (agree_bind hp fun _ _ _ => hl _ _)
  · exact agree_bind hp fun _ _ _ => hl _ _

theorem parseExprLoop_agree_succ {fuel : Nat}
    (hp : Agree Any (parsePrimary fuel) (parsePrimary fuel))
    (hl : ∀ v w, Agree Any (parseExprLoop fuel v) (parseExprLoop fuel w)) (v w : Int) :
    Agree Any (parseExprLoop (fuel + 1) v) (parseExprLoop (fuel + 1) w) := by
  unfold parseExprLoop
  refine agree_peek fun t => agree_ite (fun _ => ?_) fun _ => agree_ite (fun _ => ?_) fun _ =>
    agree_ite (fun _ => ?_) fun _ => agree_pure trivial
  · exact agree_consume (agree_bind hp fun _ _ _ => hl _ _)
  · exact agree_consume (agree_bind hp fun _ _ _ => hl _ _)
  · exact agree_consume (agree_bind hp fun _ _ _ => hl _ _)

/-- The three mutually recursive parsers, by induction on the fuel. -/
theorem expr_agree (fuel : Nat) :
    Agree Any (parsePrimary fuel) (parsePrimary fuel) ∧
      Agree Any (parseExprFuel fuel) (parseExprFuel fuel) ∧
      ∀ v w, Agree Any (parseExprLoop fuel v) (parseExprLoop fuel w) := by
  induction fuel with
  | zero =>
    refine ⟨?_, ?_, fun v w => ?_⟩
    · unfold parsePrimary
      exact agree_bind agree_hang fun _ _ _ => agree_pure trivial
    · unfold parseExprFuel
      exact agree_bind agree_hang fun _ _ _ => agree_pure trivial
    · unfold parseExprLoop
      exact agree_bind agree_hang fun _ _ _ => agree_pure trivial
  | succ fuel ih =>
    obtain ⟨hp, he, hl⟩ := ih
    exact ⟨parsePrimary_agree_succ he, parseExprFuel_agree_succ hp hl,
      parseExprLoop_agree_succ hp hl⟩

theorem exprFuel_sync {s t : ParseState} (h : s.Sync t) : exprFuel s = exprFuel t := by
  rw [exprFuel, exprFuel, h.ptr]

theorem parseExpr_agree : Agree Any parseExpr parseExpr :=
  agree_bind agree_getState fun _ _ hs => exprFuel_sync hs ▸ (expr_agree _).2.1

/-! ## Operands -/

theorem checkSizePrefix_agree : Agree Eq checkSizePrefix checkSizePrefix :=
  agree_peek fun _ => agree_ite (fun _ => agree_consume (agree_pure rfl)) fun _ =>
    agree_ite (fun _ => agree_consume (agree_pure rfl)) fun _ => agree_pure rfl

theorem acceptWord_agree (w : String) : Agree Eq (acceptWord w) (acceptWord w) :=
  agree_peek fun _ => agree_ite (fun _ => agree_consume (agree_pure rfl)) fun _ => agree_pure rfl

theorem parseSegOverride_agree {a b : Operand} (h : a.Same b) :
    Agree Operand.Same (parseSegOverride a) (parseSegOverride b) := by
  refine agree_peek fun t => ?_
  cases if t.type = .ident then findReg t.sval else none with
  | none => exact agree_pure h
  | some r =>
    refine agree_ite (fun _ => ?_) fun _ => agree_pure h
    refine agree_bind agree_getState fun saved saved' hs => agree_consume (agree_peek fun t => ?_)
    refine agree_ite (fun _ => ?_) fun _ => ?_
    · refine agree_consume (agree_pure ?_)
      exact ⟨h.type, h.reg, h.size, h.hasDisp, h.base, h.index, rfl, h.label, h.isFar⟩
    · exact agree_bind (agree_restore hs) fun _ _ _ =>
        agree_bind agree_err fun _ _ _ => agree_pure h

theorem addMemReg_agree {a b : Operand} (h : a.Same b) (r : Nat) :
    Agree Operand.Same (addMemReg a r) (addMemReg b r) := by
  have herr : Agree Operand.Same (do Parse.err; pure a) (do Parse.err; pure b) :=
    agree_bind agree_err fun _ _ _ => agree_pure h
  have hbase : Operand.Same { a with base := some r } { b with base := some r } :=
    ⟨h.type, h.reg, h.size, h.hasDisp, rfl, h.index, h.segOvr, h.label, h.isFar⟩
  have hindex : Operand.Same { a with index := some r } { b with index := some r } :=
    ⟨h.type, h.reg, h.size, h.hasDisp, h.base, rfl, h.segOvr, h.label, h.isFar⟩
  have hb : a.base.isNone ↔ b.base.isNone := by rw [h.base]
  have hi : a.index.isNone ↔ b.index.isNone := by rw [h.index]
  refine agree_ite (fun _ => ?_) fun _ => agree_ite (fun _ => ?_) fun _ => herr
  · exact agree_ite_iff hb (fun _ => agree_pure hbase) fun _ =>
      agree_ite_iff hi (fun _ => agree_pure hindex) fun _ => herr
  · exact agree_ite_iff hi (fun _ => agree_pure hindex) fun _ =>
      agree_ite_iff hb (fun _ => agree_pure hbase) fun _ => herr

theorem same_disp {a b : Operand} (h : a.Same b) (v w : Int) :
    Operand.Same { a with disp := v, hasDisp := true } { b with disp := w, hasDisp := true } :=
  ⟨h.type, h.reg, h.size, rfl, h.base, h.index, h.segOvr, h.label, h.isFar⟩

theorem parseMemComponents_agree : ∀ (fuel : Nat) (got : Bool) {a b : Operand}, a.Same b →
    Agree Operand.Same (parseMemComponents fuel got a) (parseMemComponents fuel got b)
  | 0, got, a, b, h => by
    unfold parseMemComponents
    exact agree_bind agree_hang fun _ _ _ => agree_pure h
  | fuel + 1, got, a, b, h => by
    have hdisp : Agree Operand.Same
        (do let val ← parseExpr
            parseMemComponents fuel true
              { a with disp := toInt32 (a.disp + val), hasDisp := true })
        (do let val ← parseExpr
            parseMemComponents fuel true
              { b with disp := toInt32 (b.disp + val), hasDisp := true }) :=
      agree_bind parseExpr_agree fun _ _ _ => parseMemComponents_agree fuel true (same_disp h _ _)
    unfold parseMemComponents
    refine agree_peek fun t => agree_ite (fun _ => agree_consume (agree_pure h)) fun _ =>
      agree_ite (fun _ => agree_consume (parseMemComponents_agree fuel got h)) fun _ =>
      agree_ite (fun _ => agree_consume ?_) fun _ => ?_
    · refine agree_bind agree_getState fun _ _ hs => ?_
      rw [exprFuel_sync hs]
      exact agree_bind (expr_agree _).1 fun _ _ _ =>
        parseMemComponents_agree fuel true (same_disp h _ _)
    · cases if t.type = .ident then findReg t.sval else none with
      | none => exact hdisp
      | some r =>
        refine agree_ite (fun _ => agree_consume ?_) fun _ => hdisp
        exact agree_bind (addMemReg_agree h r.id) fun _ _ h' =>
          parseMemComponents_agree fuel true h'

theorem parseMem_agree {a b : Operand} (h : a.Same b) :
    Agree Operand.Same (parseMem a) (parseMem b) := by
  refine agree_bind (parseSegOverride_agree h) fun a b h => ?_
  refine agree_bind agree_getState fun s t hs => ?_
  rw [hs.ptr]
  refine agree_bind (parseMemComponents_agree _ _ h) fun a b h => ?_
  have hdirect : a.base.isNone ∧ a.index.isNone ↔ b.base.isNone ∧ b.index.isNone := by
    rw [h.base, h.index]
  exact agree_ite_iff hdirect (fun _ => agree_pure
    ⟨h.type, h.reg, h.size, rfl, h.base, h.index, h.segOvr, h.label, h.isFar⟩) fun _ => agree_pure h

/-- The operand of an immediate or label, whatever its value. -/
theorem same_imm (op : Operand) (v w : Int) (label : List Char) (size : Nat) :
    Operand.Same { op with type := .imm, imm := v, label, size }
      { op with type := .imm, imm := w, label, size } :=
  ⟨rfl, rfl, rfl, rfl, rfl, rfl, rfl, rfl, rfl⟩

theorem labelOperand_agree (op : Operand) (sizePfx : Nat) (name : List Char) :
    Agree Operand.Same (labelOperand op sizePfx name) (labelOperand op sizePfx name) :=
  agree_bind (lookupLabel_agree name) fun _ _ _ => agree_pure (same_imm ..)

theorem segOperand_agree (op : Operand) (sizePfx : Nat) (name : List Char) :
    Agree Operand.Same (segOperand op sizePfx name) (segOperand op sizePfx name) :=
  fun _ _ _ _ hs => ⟨same_imm .., hs⟩

/-- **Two parses of one operand text differ in the numbers only.** -/
theorem parseOperand_agree : Agree Operand.Same parseOperand parseOperand := by
  refine agree_bind checkSizePrefix_agree fun size _ hsize => ?_
  subst hsize
  refine agree_bind (acceptWord_agree _) fun _ _ _ => ?_
  refine agree_bind (acceptWord_agree _) fun isFar _ hfar => ?_
  subst hfar
  refine agree_peek fun t =>
    agree_ite (fun _ => agree_consume (parseMem_agree (.refl _))) fun _ => ?_
  cases if t.type = .ident then findReg t.sval else none with
  | some r =>
    refine agree_consume ?_
    cases r.size <;> exact agree_pure (.refl _)
  | none =>
    refine agree_ite (fun _ => agree_consume (agree_pure (.refl _))) fun _ =>
      agree_ite (fun _ => ?_) fun _ => agree_bind agree_err fun _ _ _ => agree_pure (.refl _)
    refine agree_ite (fun _ => agree_consume ?_) fun _ => agree_consume (labelOperand_agree _ _ _)
    exact agree_peek fun lt => agree_ite (fun _ => agree_consume (segOperand_agree _ _ _)) fun _ =>
      agree_consume (labelOperand_agree _ _ _)

/-! ## Instructions -/

theorem parseTwo_agree {f : Operand → Operand → Instr}
    (hf : ∀ {d d' s s'}, d.Same d' → s.Same s' → (f d s).Same (f d' s')) :
    Agree Instr.Same (parseTwo f) (parseTwo f) :=
  agree_bind parseOperand_agree fun _ _ hd => agree_bind (expect_agree _) fun _ _ _ =>
    agree_bind parseOperand_agree fun _ _ hs => agree_pure (hf hd hs)

theorem parseOne_agree {f : Operand → Instr} (hf : ∀ {a b}, a.Same b → (f a).Same (f b)) :
    Agree Instr.Same (parseOne f) (parseOne f) :=
  agree_bind parseOperand_agree fun _ _ h => agree_pure (hf h)

theorem inferMovSizes_same {d d' s s' : Operand} (hd : d.Same d') (hs : s.Same s') :
    (inferMovSizes d s).1.Same (inferMovSizes d' s').1 ∧
      (inferMovSizes d s).2.Same (inferMovSizes d' s').2 := by
  obtain ⟨t, r, n, hd', b, i, g, l, f⟩ := hd
  obtain ⟨t', r', n', hd'', b', i', g', l', f'⟩ := hs
  simp only [inferMovSizes, n, n']
  constructor <;> (split_ifs <;> constructor <;> simp_all)

theorem parseAdjust_agree (opcode : Nat) :
    Agree Instr.Same (parseAdjust opcode) (parseAdjust opcode) :=
  agree_peek fun _ => agree_ite (fun _ => agree_consume (agree_pure (.bytes _))) fun _ =>
    agree_pure (.bytes _)

theorem parseImul_agree : Agree Instr.Same parseImul parseImul := by
  refine agree_bind parseOperand_agree fun dst dst' hd => ?_
  refine agree_bind agree_getState fun save save' hsave => ?_
  refine agree_bind nextTokenRaw_agree fun t _ ht => ?_
  subst ht
  refine agree_ite (fun _ => ?_) fun _ => ?_
  · refine agree_bind parseOperand_agree fun src src' hsrc => ?_
    refine agree_bind agree_getState fun save2 save2' hsave2 => ?_
    refine agree_bind nextTokenRaw_agree fun t2 _ ht2 => ?_
    subst ht2
    rw [hd.reg, hsrc.reg]
    refine agree_ite (fun _ => ?_) fun _ => ?_
    · exact agree_bind parseOperand_agree fun _ _ _ => agree_pure (.imulImm ..)
    · exact agree_bind (agree_restorePtr hsave2) fun _ _ _ => agree_pure (.imulImm ..)
  · exact agree_bind (agree_restorePtr hsave) fun _ _ _ => agree_pure (.group3 5 hd)

theorem parseJcc_agree (cc : Nat) : Agree Instr.Same (parseJcc cc) (parseJcc cc) := by
  refine agree_bind agree_getState fun s t hs => ?_
  rw [hs.ptr]
  exact agree_bind parseOperand_agree fun _ _ h => agree_pure (.jcc cc _ h)

theorem parseRet_agree (isFar : Bool) : Agree Instr.Same (parseRet isFar) (parseRet isFar) :=
  agree_peek fun _ => agree_ite
    (fun _ => agree_bind parseOperand_agree fun _ _ h => agree_pure (.ret isFar h)) fun _ =>
    agree_pure (.bareRet isFar)

theorem parseBextBins_agree (isBext : Bool) :
    Agree Instr.Same (parseBextBins isBext) (parseBextBins isBext) := by
  refine agree_peek fun _ => agree_ite (fun _ => agree_pure (.bytes _)) fun _ => ?_
  refine agree_bind parseOperand_agree fun _ _ h => agree_peek fun _ => ?_
  refine agree_ite (fun _ => agree_pure (.bextBinsReg isBext h)) fun _ => agree_consume ?_
  exact agree_bind parseOperand_agree fun _ _ h' => agree_pure (.bextBins isBext h h')

/-- A parser in step with itself. The mnemonic chooses it, and both runs have the same one. -/
def InStep (m : Parse Instr) : Prop := Agree Instr.Same m m

theorem inStep_onTable {α : Type} {table : List (String × α)} {mnemonic : List Char}
    {f : α → Parse Instr} {otherwise : Parse Instr} (hf : ∀ x, InStep (f x))
    (h : InStep otherwise) : InStep (onTable table mnemonic f otherwise) := by
  unfold onTable
  cases lookupWord table mnemonic with
  | some x => exact hf x
  | none => exact h

theorem inStep_onWord {w : String} {mnemonic : List Char} {p otherwise : Parse Instr}
    (hp : InStep p) (h : InStep otherwise) : InStep (onWord w mnemonic p otherwise) :=
  agree_ite (fun _ => hp) fun _ => h

theorem parsePlain_inStep (mnemonic : List Char) : InStep (parsePlain mnemonic) := by
  refine inStep_onTable (fun _ => agree_pure (.bytes _)) ?_
  refine inStep_onTable parseAdjust_agree ?_
  refine inStep_onTable (fun op => parseTwo_agree (.alu op)) ?_
  refine inStep_onTable (fun op => parseTwo_agree (.shift op)) ?_
  refine inStep_onWord (parseTwo_agree fun hd hs =>
    .mov (inferMovSizes_same hd hs).1 (inferMovSizes_same hd hs).2) ?_
  refine inStep_onWord (parseTwo_agree .xchg) ?_
  refine inStep_onWord (parseTwo_agree .test) ?_
  refine inStep_onWord (parseTwo_agree .lea) ?_
  refine inStep_onTable (fun op => parseTwo_agree (.loadMem op)) ?_
  refine inStep_onTable (fun op => parseOne_agree (.incDec op)) ?_
  refine inStep_onTable (fun field => parseOne_agree (.group3 field)) ?_
  refine inStep_onWord parseImul_agree ?_
  refine inStep_onWord (parseOne_agree (.pushPop false)) ?_
  refine inStep_onWord (parseOne_agree (.pushPop true)) ?_
  refine inStep_onWord (parseOne_agree (.jmpCall false)) ?_
  refine inStep_onWord (parseOne_agree (.jmpCall true)) ?_
  refine inStep_onTable parseJcc_agree ?_
  refine inStep_onTable (fun opcode => parseOne_agree (.loop opcode)) ?_
  refine inStep_onWord (parseRet_agree false) ?_
  refine inStep_onWord (parseRet_agree true) ?_
  refine inStep_onWord (parseOne_agree .int) ?_
  refine inStep_onWord (parseTwo_agree (.inOut false)) ?_
  refine inStep_onWord (parseTwo_agree (.inOut true)) ?_
  refine inStep_onWord (parseTwo_agree .enter) ?_
  refine inStep_onTable (fun op => parseTwo_agree (.bitop op)) ?_
  refine inStep_onTable (fun _ => agree_pure (.bytes _)) ?_
  refine inStep_onWord (parseBextBins_agree true) ?_
  refine inStep_onWord (parseBextBins_agree false) ?_
  exact inStep_onWord (parseOne_agree .brkem) (agree_pure .unknown)

theorem parseInstr_inStep : ∀ (fuel : Nat) (mnemonic : List Char),
    InStep (parseInstr fuel mnemonic)
  | 0, _ => agree_bind agree_hang fun _ _ _ => agree_pure .unknown
  | fuel + 1, mnemonic => by
    unfold parseInstr
    split
    · refine agree_peek fun t => agree_ite (fun _ => agree_consume ?_) fun _ =>
        agree_pure (.bytes _)
      exact agree_bind (parseInstr_inStep fuel t.sval) fun _ _ h => agree_pure (.prefixed _ h)
    · exact parsePlain_inStep mnemonic

/-! ## Statements -/

/-- Lists of the same length. -/
def SameLength (a b : List Nat) : Prop := a.length = b.length

theorem sameLength_append {a b c d : List Nat} (h : SameLength a b) (h' : SameLength c d) :
    SameLength (a ++ c) (b ++ d) := by
  unfold SameLength at *
  rw [List.length_append, List.length_append, h, h']

theorem parseDbItem_agree : Agree (Option.Rel SameLength) parseDbItem parseDbItem := by
  refine agree_peek fun _ => agree_ite (fun _ => agree_consume (agree_pure (.some rfl))) fun _ => ?_
  refine agree_ite (fun _ => ?_) fun _ => agree_pure .none
  exact agree_bind parseExpr_agree fun _ _ _ => agree_pure (.some rfl)

theorem parseDb_agree : ∀ fuel : Nat, Agree SameLength (parseDb fuel) (parseDb fuel)
  | 0 => agree_bind agree_hang fun _ _ _ => agree_pure rfl
  | fuel + 1 => by
    refine agree_bind parseDbItem_agree fun a b hab => ?_
    cases hab with
    | none => exact agree_pure rfl
    | some hlen =>
      refine agree_peek fun _ => agree_ite (fun _ => agree_consume ?_) fun _ => agree_pure hlen
      exact agree_bind (parseDb_agree fuel) fun _ _ h => agree_pure (sameLength_append hlen h)

theorem parseDw_agree : ∀ fuel : Nat, Agree SameLength (parseDw fuel) (parseDw fuel)
  | 0 => agree_bind agree_hang fun _ _ _ => agree_pure rfl
  | fuel + 1 => by
    refine agree_peek fun _ => agree_ite (fun _ => ?_) fun _ => agree_pure rfl
    refine agree_bind parseExpr_agree fun _ _ _ => agree_peek fun _ => ?_
    refine agree_ite (fun _ => agree_consume ?_) fun _ => agree_pure rfl
    exact agree_bind (parseDw_agree fuel) fun _ _ h => agree_pure (sameLength_append rfl h)

/-- **Two parses of one statement differ in the numbers only.** -/
theorem parseStatement_agree : Agree Statement.Same parseStatement parseStatement := by
  refine agree_peek fun t => agree_ite (fun _ => agree_pure .empty) fun _ => agree_consume ?_
  refine agree_bind agree_getState fun s s' hs => ?_
  rw [hs.ptr]
  refine agree_ite (fun _ => agree_bind agree_err fun _ _ _ => agree_pure .notInstr) fun _ => ?_
  refine agree_ite (fun _ => ?_) fun _ => agree_ite (fun _ => agree_pure .endorg) fun _ => ?_
  · exact agree_bind parseOperand_agree fun _ _ h => agree_pure (.org h)
  refine agree_ite (fun _ => ?_) fun _ => agree_ite (fun _ => ?_) fun _ => ?_
  · exact agree_bind (parseDb_agree _) fun _ _ h => agree_pure (.data h)
  · exact agree_bind (parseDw_agree _) fun _ _ h => agree_pure (.data h)
  refine agree_ite (fun _ => ?_) fun _ => ?_
  · exact agree_bind parseOperand_agree fun _ _ h => agree_pure (.seg h)
  · exact agree_bind (parseInstr_inStep _ _) fun _ _ h => agree_pure (.instr h)

end Nib.Asm
