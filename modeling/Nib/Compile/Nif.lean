import Nib.Bind.Globals
import Nib.Compile.Global

/-!
# Interface files

* `nifLines` — what a module writes into its `.nif` file
* `importNif` — what a `use` of the file reads

A file is the list of its lines. Nothing that is written has a carriage return, so its removal has
no counterpart.
-/

namespace Nib.Compile

open Infra Asm Nib.Bind

/-! ## Declarations -/

/-- A parameter. `attrs` is the place, `value` and the pin, which importing does not read. -/
structure NifParam where
  vreg : Nat
  name : String
  type : Ty
  attrs : Text := []
  deriving DecidableEq, Repr

structure NifReturn where
  type : Ty
  attrs : Text := []
  deriving DecidableEq, Repr

/-- A signature. `attrs` is `far` and the `ds()` policy. `preserves` are the registers of a
`.preserves` line. -/
structure NifFn where
  name : String
  params : List NifParam
  returns : List NifReturn
  attrs : Text := []
  preserves : Option Text := none
  deriving DecidableEq, Repr

/-- A declaration after its constants have been computed. A declaration that a used module brings
in is one that is not `pub`. Interrupt handlers are not exported and not registered as functions. -/
inductive NifDecl
  | fn (f : NifFn) (isApi isPub : Bool)
  | externFn (f : NifFn) (hasBody isPub : Bool)
  | struct (s : StructSig) (isPub : Bool)
  | global (name : String) (type : Ty) (isPub : Bool)
  | const (name : String) (value : Int) (isPub : Bool)

/-- `register_function_returns`. The flags of far parameters follow from the types. -/
def NifFn.sig (f : NifFn) : FunctionSig where
  name := symName f.name
  paramTypes := f.params.map NifParam.type
  returnTypes := f.returns.map NifReturn.type

/-! ## Writing -/

def fnWord : Text := ['.', 'f', 'n', ' ']

def descriptorWord : Text := ['.', 'e', 'x', 't', 'e', 'r', 'n', ' ']

def paramWord : Text := ['.', 'p', 'a', 'r', 'a', 'm']

def returnsWord : Text := ['.', 'r', 'e', 't', 'u', 'r', 'n', 's']

def endfnWord : Text := ['.', 'e', 'n', 'd', 'f', 'n']

def endDescriptorWord : Text := ['.', 'e', 'n', 'd', 'e', 'x', 't', 'e', 'r', 'n']

def structWord : Text := ['.', 's', 't', 'r', 'u', 'c', 't', ' ']

def endstructWord : Text := ['.', 'e', 'n', 'd', 's', 't', 'r', 'u', 'c', 't']

def globalWord : Text := ['.', 'g', 'l', 'o', 'b', 'a', 'l', ' ']

def constWord : Text := ['.', 'c', 'o', 'n', 's', 't', ' ']

def preservesWord : Text := ['.', 'p', 'r', 'e', 's', 'e', 'r', 'v', 'e', 's', ' ']

def alignedWord : Text := ['a', 'l', 'i', 'g', 'n', 'e', 'd']

def bitsWord : Text := ['b', 'i', 't', 's', '(']

def asWord : Text := ['a', 's', ' ']

/-- A `.param` line. -/
def paramLine (typeText : Text) (p : NifParam) : Text :=
  paramWord ++ [' ', '%'] ++ printDec p.vreg ++ [',', ' '] ++ typeText ++ [',', ' ', '"'] ++
    p.name.toList ++ ['"'] ++ p.attrs

def returnLine (r : NifReturn) : Text := returnsWord ++ [' '] ++ typeText r.type ++ r.attrs

def preservesLines (f : NifFn) : List Text :=
  match f.preserves with
  | none => []
  | some regs => [preservesWord ++ regs]

/-- The type of a parameter in the block of a function, where a far pointer is `far`. -/
def fnParamText (t : Ty) : Text := if t = .far then ['f', 'a', 'r'] else typeText t

/-- The block of a function. -/
def fnLines (f : NifFn) : List Text :=
  (fnWord ++ f.name.toList ++ f.attrs) :: preservesLines f ++
    f.params.map (fun p => paramLine (fnParamText p.type) p) ++ f.returns.map returnLine ++
    [endfnWord, []]

/-- `emit_extern_descriptor`. An address is one of the attributes. -/
def descriptorLines (f : NifFn) : List Text :=
  [] :: (descriptorWord ++ f.name.toList ++ f.attrs) ::
    f.params.map (fun p => paramLine (typeText p.type) p) ++ f.returns.map returnLine ++
    preservesLines f ++ [endDescriptorWord, []]

def fieldLine (f : Field) : Text :=
  [' ', ' ', ' ', ' '] ++
    if f.isBits then
      ((f.name.map String.toList).getD ['_']) ++ [':', ' '] ++ bitsWord ++ printDec f.bits ++ [')']
    else
      ((f.name.map String.toList).getD []) ++ [':', ' '] ++ typeText (f.type.getD .void) ++
        match f.asType with
        | none => []
        | some t => ' ' :: asWord ++ typeText t

def structLines (s : StructSig) : List Text :=
  (structWord ++ s.name.toList ++ if s.aligned then ',' :: ' ' :: alignedWord else []) ::
    s.fields.map fieldLine ++ [endstructWord, []]

def declLines : NifDecl → List Text
  | .fn f isApi isPub =>
    (if isApi then descriptorLines f else []) ++ (if isPub then fnLines f else [])
  | .externFn f hasBody isPub =>
    descriptorLines f ++ (if hasBody && isPub then fnLines f else [])
  | .struct s isPub => if isPub then structLines s else []
  | .global name t isPub =>
    if isPub then [globalWord ++ name.toList ++ [',', ' '] ++ typeText t] else []
  | .const name value isPub =>
    if isPub then [constWord ++ name.toList ++ [',', ' '] ++ printDec value] else []

/-- The comment at the top. -/
def nifHeader : List Text := ["; Nib interface — generated by nib compile".toList, []]

/-- The file of a module. -/
def nifLines (decls : List NifDecl) : List Text := nifHeader ++ decls.flatMap declLines

/-! ## Reading -/

/-- The characters at which `nif_read_word` stops. -/
def nifEndsWord (c : Char) : Bool := isSpace c || c == ',' || c == ')' || c == ':'

/-- `nif_read_word`. -/
def nifReadWord (size : Nat) (text : Text) : Text × Text :=
  let t := skipWs text
  let word := (t.take (size - 1)).takeWhile fun c => !nifEndsWord c
  (word, t.drop word.length)

/-- What follows a character that may stand here. -/
def skipChar (c : Char) : Text → Text
  | [] => []
  | d :: rest => if d = c then rest else d :: rest

/-- `strtol` with base 0: a prefix of the digits tells their base. -/
def strtolAny (s : Text) : Int :=
  let t := s.dropWhile isSpace
  let octal (t : Text) : Int := digitsValue 8 (t.takeWhile fun c => '0' ≤ c && c ≤ '7')
  match t with
  | '-' :: '0' :: rest => if isHexTail rest then (strtol 16 s).1 else clampLong (-octal rest)
  | '+' :: '0' :: rest | '0' :: rest =>
    if isHexTail rest then (strtol 16 s).1 else clampLong (octal rest)
  | _ => (strtol 10 s).1
where
  isHexTail : Text → Bool
    | x :: d :: _ => (x == 'x' || x == 'X') && isXDigit d
    | _ => false

/-- `nif_parse_type`. -/
def nifParseType (s : Text) : Ty :=
  if s = ['u', '8'] then .u8
  else if s = ['u', '1', '6'] then .u16
  else if s = ['u', '3', '2'] then .u32
  else if s = ['s', 'e', 'g'] then .seg
  else if s = ['b', 'o', 'o', 'l'] then .bool
  else if s = ['f', 'a', 'r'] ∨ s = ['f', 'a', 'r', '3', '2'] then .far
  else if s.take 3 = ['u', '8', '['] then .array .u8 (atoi (s.drop 3))
  else if s.take 4 = ['u', '1', '6', '['] then .array .u16 (atoi (s.drop 4))
  else if s.take 4 = ['b', 'c', 'd', '['] then .array (.bcd 0) (atoi (s.drop 4))
  else if s.take 4 = ['f', 'a', 'r', '['] then .array .far (atoi (s.drop 4))
  else if s.take 6 = ['f', 'a', 'r', '3', '2', '['] then .array .far (atoi (s.drop 6))
  else .struct (String.ofList s)

inductive Directive
  | fn | descriptor | param | returns | endfn | struct | global | const | other
  deriving DecidableEq, Repr

def directives : List (Text × Directive) :=
  [(fnWord, .fn), (descriptorWord, .descriptor), (paramWord, .param), (returnsWord, .returns),
    (endfnWord, .endfn), (endDescriptorWord, .endfn), (structWord, .struct),
    (globalWord, .global), (constWord, .const)]

/-- The directive of a line and what follows it. -/
def directive (p : Text) : Directive × Text :=
  match directives.find? fun d => d.1.isPrefixOf p with
  | some d => (d.2, p.drop d.1.length)
  | none => (.other, p)

/-- What has been imported. -/
structure NifTables where
  functions : List FunctionSig := []
  structs : List StructSig := []
  globals : List (String × Ty) := []
  constants : List (String × Int) := []
  deriving DecidableEq, Repr

/-- The function and the structure that are being read, and what has been imported. -/
structure NifState where
  curFn : Text := []
  curParams : List Ty := []
  curRets : List Ty := []
  curStruct : Option StructSig := none
  tables : NifTables := {}
  deriving DecidableEq, Repr

/-- A line of the fields of a structure. -/
def readField (text : Text) : Field :=
  let (fname, sp) := nifReadWord 64 text
  let (ftype, sp) := nifReadWord 64 (skipWs (skipChar ':' (skipWs sp)))
  if ftype.take 5 = bitsWord then
    { name := if fname = ['_'] then none else some (String.ofList fname), type := none
      bits := atoi (ftype.drop 5), isBits := true, asType := none }
  else
    let sp := skipWs sp
    { name := some (String.ofList fname), type := some (nifParseType ftype), bits := 0
      isBits := false
      asType :=
        if sp.take 3 = asWord then some (nifParseType (nifReadWord 64 (sp.drop 3)).1) else none }

namespace NifState

def enterFn (s : NifState) (rest : Text) : NifState :=
  { s with curFn := (nifReadWord 64 rest).1, curParams := [], curRets := [] }

/-- The type of a parameter, read after the first comma into a small buffer. -/
def readParam (s : NifState) (rest : Text) : NifState :=
  let p := skipChar ',' (rest.dropWhile (· ≠ ','))
  { s with curParams := s.curParams ++ [nifParseType (nifReadWord 32 (skipWs p)).1] }

def readReturns (s : NifState) (rest : Text) : NifState :=
  { s with curRets := s.curRets ++ [nifParseType (nifReadWord 64 rest).1] }

def endFn (s : NifState) : NifState :=
  if s.curFn = [] then s
  else
    { s with
      curFn := []
      tables.functions := s.tables.functions ++
        [{ name := String.ofList s.curFn, paramTypes := s.curParams, returnTypes := s.curRets }] }

def enterStruct (s : NifState) (rest : Text) : NifState :=
  let (name, p) := nifReadWord 64 rest
  let aligned := match skipWs p with
    | ',' :: q => (nifReadWord 64 q).1 == alignedWord
    | _ => false
  { s with curStruct := some { name := String.ofList name, fields := [], aligned } }

def readGlobal (s : NifState) (rest : Text) : NifState :=
  let (name, p) := nifReadWord 64 rest
  let type := (nifReadWord 64 (skipChar ',' (skipWs p))).1
  { s with tables.globals := s.tables.globals ++ [(String.ofList name, nifParseType type)] }

def readConst (s : NifState) (rest : Text) : NifState :=
  let (name, p) := nifReadWord 64 rest
  let value := Asm.toInt32 (strtolAny (skipWs (skipChar ',' (skipWs p))))
  { s with tables.constants := s.tables.constants ++ [(String.ofList name, value)] }

/-- A line outside of a structure. -/
def readLine (s : NifState) (line : Text) : NifState :=
  let (d, rest) := directive (skipWs line)
  match d with
  | .fn | .descriptor => s.enterFn rest
  | .param => s.readParam rest
  | .returns => s.readReturns rest
  | .endfn => s.endFn
  | .struct => s.enterStruct rest
  | .global => s.readGlobal rest
  | .const => s.readConst rest
  | .other => s

/-- A line. The loop over the fields of a structure ends at `.endstruct`. -/
def step (s : NifState) (line : Text) : NifState :=
  match s.curStruct with
  | none => s.readLine line
  | some st =>
    if (skipWs line).take 10 = endstructWord then
      { s with curStruct := none, tables.structs := s.tables.structs ++ [st] }
    else { s with curStruct := some { st with fields := st.fields ++ [readField line] } }

end NifState

/-- `fgets` into a buffer of 512 characters reads a long line in pieces. -/
def linePieces : Nat → Text → List Text
  | 0, _ => []
  | fuel + 1, line =>
    if line.length ≤ 510 then [line] else line.take 511 :: linePieces fuel (line.drop 511)

/-- `import_nif`, of a file that can be opened. -/
def importNif (file : List Text) : NifTables :=
  ((file.flatMap fun line => linePieces (line.length + 1) line).foldl NifState.step {}).tables

end Nib.Compile
