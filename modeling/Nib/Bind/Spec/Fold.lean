import Nib.Bind.Fold
import Nib.Bind.Spec.Live

/-!
# Executions before and after folding

An execution takes a path through the control-flow graph. The addition of a constant is computed;
what any other instruction writes is chosen, and both executions choose the same.

* `Func.SameAt` — both executions do the same at an instruction
* `FoldSafe` — nothing but the access depends on the additions that are folded
-/

namespace Nib.Bind

/-- What is known of vregs and of text. `nearSegment` is the segment of a near access through a
vreg, `textReads` and `textFlags` are what inline assembly reads, and `keepsFlag` holds of the
flags that a call or inline assembly leaves alone. -/
structure IrContext where
  isByte : Nat → Bool := fun _ => false
  nearSegment : Nat → Preg := fun _ => .ds
  textReads : Nat → Nat → Bool := fun _ _ => false
  textFlags : Nat → String → Bool := fun _ _ => false
  keepsFlag : Nat → String → Bool := fun _ _ => false

def arithFlags : List String := ["CF", "PF", "AF", "ZF", "SF", "OF"]

/-- Flags after the addition of words. -/
def addFlag (a b : BitVec 16) (flag : String) : Bool :=
  if flag = "CF" then decide (65536 ≤ a.toNat + b.toNat)
  else if flag = "PF" then (List.range 8).countP (a + b).getLsbD % 2 == 0
  else if flag = "AF" then decide (16 ≤ a.toNat % 16 + b.toNat % 16)
  else if flag = "ZF" then a + b == 0
  else if flag = "SF" then (a + b).msb
  else a.msb == b.msb && (a + b).msb != a.msb

/-! ## Instructions -/

namespace Insn

variable (ctx : IrContext) (i : Nat) (ins : Insn)

/-- Flags that the instruction at `i` depends on. -/
def readsFlag (flag : String) : Bool :=
  match ins.op with
  | .getflag | .toggleflag => ins.name == flag
  | .cjmp => arithFlags.contains flag
  | .alu => (ins.name == "rcl" || ins.name == "rcr") && flag == "CF"
  | .asm => ctx.textFlags i flag
  | _ => false

def writesFlag (flag : String) : Bool :=
  match ins.op with
  | .setflag | .toggleflag => ins.name == flag
  | .cmp => arithFlags.contains flag
  | .alu =>
    !(["out", "outb", "in", "inb", "lea", "far.off", "far.seg"].contains ins.name) &&
      arithFlags.contains flag
  | .unary => ["neg", "cbw", "zext"].contains ins.name && arithFlags.contains flag
  | .call | .mcall | .icall | .ncall | .asm => !ctx.keepsFlag i flag
  | _ => false

/-- What an addition puts into `w`: a byte, or a word. -/
def fit (w : Nat) (x : BitVec 16) : BitVec 16 := if ctx.isByte w then x &&& 255 else x

end Insn

structure IrState where
  env : Nat → BitVec 16
  flags : String → Bool

/-- What an instruction computes, reads or is returned, and where control goes. -/
structure Choice where
  out : Nat → BitVec 16
  flags : String → Bool
  next : Nat

/-- The state after an instruction. -/
def Insn.exec (ctx : IrContext) (i : Nat) (ins : Insn) (st : IrState) (ch : Choice) : IrState where
  env := fun w =>
    if w ∈ ins.defs then
      match ins.addedConstant with
      | some (s, k) => Insn.fit ctx w (st.env s + BitVec.ofInt 16 k)
      | none => ch.out w
    else st.env w
  flags := fun f =>
    if ins.writesFlag ctx i f then
      match ins.addedConstant with
      | some (s, k) =>
        if ins.dst.any ctx.isByte then ch.flags f else addFlag (st.env s) (BitVec.ofInt 16 k) f
      | none => ch.flags f
    else st.flags f

/-- The segment of an access: a register, or the value of a vreg. -/
inductive AccessSegment
  | reg (r : Preg)
  | value (x : BitVec 16)

/-- A memory access through a vreg. `stored` is the value of a store. -/
structure Access where
  segment : AccessSegment
  offset : BitVec 16
  stored : Option (BitVec 16)

def Insn.segmentAt (ctx : IrContext) (ins : Insn) (env : Nat → BitVec 16) (addr : Nat) :
    AccessSegment :=
  match ins.memSeg with
  | some r => .reg r
  | none =>
    match ins.src2 with
    | some x => .value (env x)
    | none => .reg (ctx.nearSegment addr)

def Insn.access (ctx : IrContext) (ins : Insn) (env : Nat → BitVec 16) : Option Access :=
  if (ins.op == .loadmem || ins.op == .storemem) && ins.name == "" then
    ins.addrVreg.map fun a =>
      { segment := ins.segmentAt ctx env a
        offset := env a + BitVec.ofInt 16 (ins.memDisp.getD 0)
        stored := if ins.op == .storemem then ins.src1.map env else none }
  else none

/-! ## Executions -/

namespace Func

variable (ctx : IrContext) (fn : Func)

/-- With these choices, an execution from `st` comes to instruction `i`. -/
inductive Run (st : IrState) : List Choice → Nat → IrState → Prop
  | start : Run st [] 0 st
  | step {cs : List Choice} {i : Nat} {a : IrState} {ins : Insn} (ch : Choice) :
      Run st cs i a → fn.insns[i]? = some ins → fn.Next i ch.next →
      Run st (ch :: cs) ch.next (ins.exec ctx i a ch)

/-- At instruction `i`, `fn` in state `a` and `fn'` in state `b` access the same memory, and what
`fn'` reads there is the same: vregs, vregs in text, and flags. -/
structure SameAt (fn' : Func) (i : Nat) (a b : IrState) : Prop where
  access : ∀ ins ins', fn.insns[i]? = some ins → fn'.insns[i]? = some ins' →
    ins.access ctx a.env = ins'.access ctx b.env
  vregs : ∀ ins', fn'.insns[i]? = some ins' → ∀ w ∈ ins'.uses, a.env w = b.env w
  text : ∀ w, ctx.textReads i w = true → a.env w = b.env w
  flags : ∀ ins', fn'.insns[i]? = some ins' → ∀ f, ins'.readsFlag ctx i f = true →
    a.flags f = b.flags f

/-- What is there before `i` is read on some path from it, with no write in between. -/
inductive ReadFrom (reads writes : Nat → Prop) : Nat → Prop
  | read {i : Nat} : reads i → ReadFrom reads writes i
  | step {i j : Nat} : ¬writes i → fn.Next i j → ReadFrom reads writes j →
      ReadFrom reads writes i

def FlagLive (f : String) : Nat → Prop :=
  fn.ReadFrom (fun i => ∃ ins, fn.insns[i]? = some ins ∧ ins.readsFlag ctx i f = true)
    (fun i => ∃ ins, fn.insns[i]? = some ins ∧ ins.writesFlag ctx i f = true)

def TextLive (v : Nat) : Nat → Prop :=
  fn.ReadFrom (fun i => ctx.textReads i v = true) fun i => fn.Writes i v

/-- The addition at `k` is folded into the access behind it. -/
def FoldedAt (k : Nat) (mem add : Insn) (v s : Nat) (imm : Int) : Prop :=
  fn.insns[k]? = some add ∧ fn.insns[k + 1]? = some mem ∧ mem.foldOf add = some (v, s, imm) ∧
    fn.foldMemoryDisplacements.insns[k]? = some Insn.makeNop

end Func

/-- Nothing else depends on an addition that is folded: a word is added up, a near access has the
same segment through both vregs, and neither inline assembly reads the vreg nor any instruction the
flags. -/
structure FoldSafe (ctx : IrContext) (fn : Func) : Prop where
  word : ∀ {k mem add v s imm}, fn.FoldedAt k mem add v s imm → ctx.isByte v = false
  segment : ∀ {k mem add v s imm}, fn.FoldedAt k mem add v s imm → mem.memSeg = none →
    mem.src2 = none → ctx.nearSegment v = ctx.nearSegment s
  text : ∀ {k mem add v s imm}, fn.FoldedAt k mem add v s imm → ¬fn.TextLive ctx v (k + 1)
  flags : ∀ {k mem add v s imm}, fn.FoldedAt k mem add v s imm → ∀ f ∈ arithFlags,
    ¬fn.FlagLive ctx f (k + 1)

/-- Folding preserves the meaning: the paths are the same, and so is what is done on them. -/
structure FoldPreserves (ctx : IrContext) (fn : Func) : Prop where
  next : ∀ i j, fn.foldMemoryDisplacements.Next i j ↔ fn.Next i j
  same : ∀ {st cs i a b}, fn.Run ctx st cs i a → fn.foldMemoryDisplacements.Run ctx st cs i b →
    fn.SameAt ctx fn.foldMemoryDisplacements i a b

end Nib.Bind
