import Nib.Compile.Ast

/-!
# Lines of a function body

The lines the compiler prints between `.fn` and `.endfn`, in structured form. An `Instr` never
transfers control inside the function; labels, jumps and the instructions that leave the function
are lines of their own.
-/

namespace Nib.Compile

/-- A memory operand written out in brackets. -/
inductive MemRef
  | abs (off : Int)
  | sym (name : String)
  | far (seg off : Int)
  | regs (seg base index : Option Nat) (disp : Option Int)
  deriving DecidableEq, Repr

/-- An operand. A vreg number of -1 stands for a value that is not there. -/
inductive Arg
  | vreg (v : Int)
  | imm (n : Int)
  | hex (n : Int)
  | name (s : String)
  | segOf (s : String)
  | const (id : Nat)
  | elem (base index : Int)
  | mem (m : MemRef)
  deriving DecidableEq, Repr

inductive Op
  | binop (op : OpKind)
  | unop (op : UnopKind)
  | mov | zext | cbw | lea
  | loadmem | storemem | load | loadb | store | storeb
  | farOff | farSeg | field | storefield
  | getflag | setflag | toggleflag | togglefield
  | call | mcall | icall | ncall | retval | assume
  | inb | inw | outb | outw
  | hlt | nop | pushf | popf | cli | sti | frameEnter | frameLeave | salc
  | push | pop | repMovsb | repStosb | repeCmpsb | repneScasb
  | xlat | bound | adjust (name : String) | brkem | lods | stos
  | bext | bins | rol4 | ror4 | swapFlags
  | into | int
  deriving DecidableEq, Repr

/-- What a `.vreg` directive says beside the type. -/
inductive VregAttr
  | plain
  | const
  | pin (reg : String)
  | csref
  deriving DecidableEq, Repr

/-- A comment. -/
inductive Note
  | pin (v : Int) (reg : String)
  | line (file : String) (line : Nat)
  | memscan (a b : Int)
  | xlat (a b : Int)
  deriving DecidableEq, Repr

/-- A line that does not transfer control. -/
inductive Instr
  | op (o : Op) (args : List Arg)
  | vreg (v : Int) (type : Ty) (attr : VregAttr)
  | prefer (v : Int) (reg : String)
  | stackLocal (v size : Int) (name : String)
  | const (id : Nat) (bytes : List Nat)
  | asm (clause : Option AsmClause) (body : String)
  | note (n : Note)
  deriving DecidableEq, Repr

/-- A label of the compiler, `.Ln`, or of the program. -/
inductive Lbl
  | auto (n : Nat)
  | user (name : String)
  deriving DecidableEq, Repr

inductive Jump
  | always
  | ifZero (v : Int)
  | loop (v : Int)
  /-- On a flag that is set, or clear. Only five flags have such a jump; the mnemonic of the
  others is printed as `???`. -/
  | onFlag (flag : Flag) (set : Bool)
  deriving DecidableEq, Repr

/-- An instruction that leaves the function. -/
inductive Exit
  | ret | tailcall | ntailcall | gotoFn
  deriving DecidableEq, Repr

inductive Line
  | instr (i : Instr)
  | exit (e : Exit) (args : List Arg)
  | label (l : Lbl)
  | jump (j : Jump) (l : Lbl)
  deriving DecidableEq, Repr

end Nib.Compile
