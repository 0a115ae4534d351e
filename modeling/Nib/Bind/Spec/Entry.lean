import Nib.Bind.Entry
import Nib.Bind.Spec.Moves

/-!
# Parameters that arrive

* `EntryFn.Arrives` — every parameter has the value that its register had at the call
* `EntryFn.Sound` — no parameter is lost on the way
-/

namespace Nib.Bind

open Nib.Infra

namespace EntryParam

variable (p : EntryParam)

/-- The home holds a word, or the low byte of it. -/
def Holds (w : Word) (t : Cpu) : Prop :=
  match p.home with
  | .reg r => if p.isByte then low (t.read r) = low w else t.read r = w
  | .slot off =>
    if p.isByte then t.stack (t.slotAddr off) = low w else readWord t.stack (t.slotAddr off) = w
  | .nowhere => True

end EntryParam

namespace EntryFn

variable (f : EntryFn)

/-- The state in which the body starts. -/
def enter (env : MoveEnv) (segs : String → BitVec 16) (s : Cpu) : Option Cpu :=
  (wrapRun segs f.prologue s).bind (moveRun env f.emitParamEntryMoves)

/-- **Every parameter is there**: wherever the processor starts, the home of every parameter holds
what the caller has passed in its register. -/
def Arrives : Prop :=
  ∀ (env : MoveEnv) (segs : String → BitVec 16) (s : Cpu), ∃ t, f.enter env segs s = some t ∧
    ∀ p ∈ f.params, ∀ r, p.expected = some r → p.Holds (s.read r) t

end EntryFn

/-! ## Parameters that arrive -/

/-- The bytes of two slots, from the same address. -/
def SlotsApart (off : Int) (byte : Bool) (off' : Int) (byte' : Bool) : Prop :=
  ∀ k : Nat, k < (if byte then 1 else 2) → ∀ k' : Nat, k' < (if byte' then 1 else 2) →
    BitVec.ofInt 16 (off + k) ≠ BitVec.ofInt 16 (off' + k')

namespace EntryParam

variable (needsFrame : Bool) (p q : EntryParam)

/-- Something is emitted for the parameter. -/
def Moves : Prop := p.entryMove needsFrame ≠ []

/-- The register holds what the parameter is, without a move. -/
def InPlace (e r : Preg) : Prop :=
  r = e ∨ p.isByte = true ∧ (r.aliasLo = some e ∨ e.aliasLo = some r)

/-- The parameter by itself gets to its home: it is not a stack local, its register can be stored
there or moved there, and the frame does not take `BP` from it. -/
def Fits (e : Preg) : Prop :=
  p.isLocalSlot = false ∧ e ≠ .sp ∧ e ≠ .flags ∧
    match p.home with
    | .nowhere => True
    | .slot _ => needsFrame = true ∧ e.isByte = p.isByte
    | .reg r => r ≠ .sp ∧ r ≠ .flags ∧ (r = .bp → needsFrame = false) ∧
        (p.InPlace e r ∨ pregsAlias r e = false ∧ e.isByte = false ∧
          (p.isSeg = true ∧ r.isSegment = true ∧ r ≠ .cs ∨ r.isWord = true ∧ e.isWord = true))

/-- The homes of two parameters do not overlap. -/
def Apart : Prop :=
  match p.home, q.home with
  | .reg r, .reg r' => pregsAlias r r' = false
  | .slot off, .slot off' => SlotsApart off p.isByte off' q.isByte
  | _, _ => True

/-- The home of a parameter is not what another one is still read from. -/
def Spares (e : Preg) : Prop :=
  match p.home with
  | .reg r => pregsAlias r e = false
  | .slot off => e = .bp → SlotsApart off p.isByte 0 false
  | .nowhere => True

end EntryParam

namespace EntryFn

variable (f : EntryFn)

/-- The words that the prologue pushes under the body. -/
def bodyWords : Nat := f.frame.saveRegs.length + (if f.frame.dsExplicitSave then 1 else 0)

/-- The slot lies in the frame or above it, out of the way of pushes. -/
def InFrame (off : Int) : Prop :=
  -(f.frame.frameSize : Int) ≤ off ∧ off + f.frame.frameSize + 2 * f.bodyWords + 6 ≤ 65536

/-- Every parameter with a home gets there by itself; none is overwritten before it is moved or in
its home, by the setup of `DS` or by the move of another one. -/
structure Sound : Prop where
  bare : f.frame.isBare = true → ∀ p ∈ f.params, ¬p.Moves f.frame.needsFrame
  saved : ∀ r ∈ f.frame.saveRegs, r.canPop = true ∨ r = .flags
  room : f.InFrame 0
  slots : ∀ p ∈ f.params, ∀ off, p.home = .slot off → f.InFrame off
  fits : ∀ p ∈ f.params, p.home ≠ .nowhere → ∀ e, p.expected = some e → p.Fits f.frame.needsFrame e
  ds : f.frame.isBare = false → f.frame.dsPolicy.source?.isSome = true →
    ∀ p ∈ f.params, p.home ≠ .nowhere → p.expected ≠ some .ds
  /-- Earlier moves spare what later ones read, and the homes of later parameters. -/
  later : f.params.Pairwise fun p q => ∀ e e', p.expected = some e → q.expected = some e' →
    p.Moves f.frame.needsFrame → (q.Moves f.frame.needsFrame → p.Spares e') ∧ p.Apart q
  /-- Later moves spare the homes of earlier parameters. -/
  earlier : f.params.Pairwise fun p q => ∀ e e', p.expected = some e → q.expected = some e' →
    q.Moves f.frame.needsFrame → p.Apart q

end EntryFn

end Nib.Bind
