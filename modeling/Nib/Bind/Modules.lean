import Nib.Asm.Line

/-!
# Modules and their expansion

The binder reads every `.nir` file into one list of items, each with the name of its module. The
placement pass and the emission pass both start at the last file and expand every `.use` where it
stands, unless its module has been expanded before. Modules are identified by the name that is cut
out of a path. Names and paths are byte strings.
-/

namespace Nib.Bind

open Nib.Asm

abbrev Text : Type := List Char

/-! ## Names -/

/-- The path after its last slash. -/
def baseName (path : Text) : Text := (path.reverse.takeWhile (· ≠ '/')).reverse

/-- The path up to its last slash, with the slash. -/
def dirPart (path : Text) : Text := (path.reverse.dropWhile (· ≠ '/')).reverse

/-- Cut a name off at its last dot. -/
def cutDot (name : Text) : Text :=
  if name.contains '.' then ((name.reverse.dropWhile (· ≠ '.')).drop 1).reverse else name

/-- The name of a module: 63 characters are kept of the file name. -/
def moduleName (path : Text) : Text := cutDot ((baseName path).take 63)

/-- The module of a `.use` line, from the text after the directive. -/
def useModule (text : Text) : Text :=
  let p := if text.head? = some '"' then text.tail else text
  (p.takeWhile fun c => c ≠ '"' && c ≠ '.').take 63

/-- The path of a used module, relative to the module that uses it. 127 characters are kept. -/
def usePath (path useMod : Text) : Text := (dirPart path ++ useMod ++ ".nir".toList).take 127

/-! ## Items -/

/-- A statement that neither moves the output nor changes the segment. -/
def isPlain : Statement → Bool
  | .org _ | .endorg | .seg _ => false
  | _ => true

/-- The lines of an item after its label. -/
structure ItemLines where
  lines : List Statement := []
  plain : ∀ st ∈ lines, isPlain st = true := by simp

/-- A function, a data block or a global. `emitSeg` is what the placement pass records. -/
structure PlacedItem where
  name : Text
  hasAt : Bool := false
  atSeg : Int := 0
  atOff : Int := 0
  emitSeg : Option Int := none
  body : ItemLines := {}

inductive Item
  | fn (f : PlacedItem)
  | data (d : PlacedItem)
  | glob (g : PlacedItem)
  | at (seg off : Int)
  | endAt

/-- A top-level line of a file. -/
inductive FileLine
  | item (i : Item)
  | use (text : Text)

structure NirFile where
  path : Text
  lines : List FileLine

/-- One entry of `emit_order`. -/
inductive OrderKind
  | item (i : Item)
  | use (useMod : Text)

structure EmitOrder where
  module : Text
  kind : OrderKind

def parseLine (module : Text) : FileLine → EmitOrder
  | .item i => ⟨module, .item i⟩
  | .use text => ⟨module, .use (useModule text)⟩

/-- The top-level lines of a file. -/
def parseNir (f : NirFile) : List EmitOrder := f.lines.map (parseLine (moduleName f.path))

def parseFiles (files : List NirFile) : List EmitOrder := files.flatMap parseNir

/-! ## Expansion -/

/-- What a pass meets, in order: an item, or a used module with all it contains. -/
inductive Event
  | item (module : Text) (i : Item)
  | use (sub : List Event)

/-- The entries of one module. A `.use` is expanded on the spot by `expand`. -/
def expandEntries (expand : Text → List Text → Option (List Event × List Text)) (path : Text) :
    List EmitOrder → List Text → Option (List Event × List Text)
  | [], done => some ([], done)
  | ⟨_, .use useMod⟩ :: rest, done => do
    let (sub, done) ← expand (usePath path useMod) done
    let (events, done) ← expandEntries expand path rest done
    pure (.use sub :: events, done)
  | ⟨module, .item i⟩ :: rest, done => do
    let (events, done) ← expandEntries expand path rest done
    pure (.item module i :: events, done)

/-- The part that `place_module` and `emit_module` share: the events of a module, and the modules
that have been expanded. Without fuel there is no result. -/
def expandModule (order : List EmitOrder) :
    Nat → Text → List Text → Option (List Event × List Text)
  | 0, _, _ => none
  | fuel + 1, path, done =>
    let mod := moduleName path
    if done.contains mod then some ([], done)
    else
      expandEntries (expandModule order fuel) path (order.filter fun e => e.module == mod)
        (mod :: done)

/-- Fuel for every expansion. -/
def expandFuel (order : List EmitOrder) : Nat := order.length + 2

/-- The expansion of the root module. -/
def expandRoot (order : List EmitOrder) (root : Text) : Option (List Event × List Text) :=
  expandModule order (expandFuel order) root []

end Nib.Bind
