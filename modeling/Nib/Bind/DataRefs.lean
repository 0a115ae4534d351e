import Nib.Bind.Ir
import Nib.Bind.Data
import Nib.Infra.CopyPass
import Mathlib.Logic.Function.Basic

/-!
# Data labels of vregs

The pass that marks vregs holding an address inside a data block.

* `annotateDataRefs` — the labels of all functions, `none` where the loop has not finished
* `Settled` — the labels that reach the two sides of each copy come from moves of one address
-/

namespace Nib.Bind

open Infra

/-- The data label of each vreg. A vreg without one has the empty text in the source. -/
abbrev DataLabels := Nat → Option String

def findDataBlock (blocks : List DataBlock) (label : Text) : Option DataBlock :=
  blocks.find? fun db => db.label == label

def setVregDataLabel (l : DataLabels) (v : Option Nat) (label : String) : DataLabels :=
  match v with
  | some v => Function.update l v (some label)
  | none => l

def vregDataLabel (l : DataLabels) (v : Option Nat) : Option String := v.bind l

/-- A move of the address of a data block. -/
def initDataLabel (blocks : List DataBlock) (l : DataLabels) (ins : Insn) : DataLabels :=
  if ins.op == .mov && ins.name != "" && !hasPrefix "SEG " ins.name.toList &&
      (findDataBlock blocks ins.name.toList).isSome then
    setVregDataLabel l ins.dst ins.name
  else l

/-- The label that an instruction hands on. -/
def handedLabel (l : DataLabels) (ins : Insn) : Option String :=
  if ins.op == .mov && ins.imm.isNone && ins.src1.isSome then vregDataLabel l ins.src1
  else if ins.op == .alu && ins.name == "add" then
    match vregDataLabel l ins.src1 with
    | some label => some label
    | none => vregDataLabel l ins.src2
  else none

/-- One instruction in the loop: the labels, and whether one has changed. -/
def annotateInsn (s : DataLabels × Bool) (ins : Insn) : DataLabels × Bool :=
  match handedLabel s.1 ins, ins.dst with
  | some label, some dst =>
    if s.1 dst ≠ some label then (setVregDataLabel s.1 ins.dst label, true) else s
  | _, _ => s

/-- The loop over the instructions until none changes a label. -/
def annotateLoop (insns : List Insn) : Nat → DataLabels → Option DataLabels
  | 0, _ => none
  | fuel + 1, l =>
    let (l, changed) := insns.foldl annotateInsn (l, false)
    if changed then annotateLoop insns fuel l else some l

def annotateFunc (blocks : List DataBlock) (fuel : Nat) (fn : Func) : Option DataLabels :=
  annotateLoop fn.insns fuel (fn.insns.foldl (initDataLabel blocks) fun _ => none)

def annotateDataRefs (blocks : List DataBlock) (fns : List Func) (fuel : Nat) :
    Option (List DataLabels) := fns.mapM (annotateFunc blocks fuel)

/-! ## Functions whose data labels settle -/

/-- A move or addition as a copy from its first labelled source. -/
def Insn.dataCopy (ins : Insn) : Option (Copy Nat) :=
  ins.dst.bind fun dst =>
    if ins.op == .mov && ins.imm.isNone && ins.src1.isSome then some ⟨dst, ins.src1.toList⟩
    else if ins.op == .alu && ins.name == "add" then
      some ⟨dst, ins.src1.toList ++ ins.src2.toList⟩
    else none

def Func.dataCopies (fn : Func) : List (Copy Nat) := fn.insns.filterMap Insn.dataCopy

/-- The address of a data block that a vreg is last given by a move. -/
def Func.dataAddress (blocks : List DataBlock) (fn : Func) : DataLabels :=
  fn.insns.foldl (initDataLabel blocks) fun _ => none

/-- The vreg with an address from which each vreg has its label, after two rounds through the
function for each copy. -/
def Func.dataOrigin (blocks : List DataBlock) (fn : Func) : Nat → Option Nat :=
  (Copy.pass fn.dataCopies)^[2 * fn.dataCopies.length] (Copy.marks (fn.dataAddress blocks))

/-- The vregs from which the source and the destination of each copy have their labels were
given the same address. -/
def Settled (blocks : List DataBlock) (fn : Func) : Prop :=
  ∀ c ∈ fn.dataCopies, ∀ s ∈ c.value (fn.dataOrigin blocks),
    ∃ d ∈ fn.dataOrigin blocks c.dst, fn.dataAddress blocks d = fn.dataAddress blocks s

instance (blocks : List DataBlock) (fn : Func) : Decidable (Settled blocks fn) :=
  inferInstanceAs (Decidable (∀ c ∈ fn.dataCopies, ∀ s ∈ c.value (fn.dataOrigin blocks),
    ∃ d ∈ fn.dataOrigin blocks c.dst, fn.dataAddress blocks d = fn.dataAddress blocks s))

end Nib.Bind
