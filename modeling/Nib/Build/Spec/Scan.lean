import Nib.Build.Scan
import Nib.Infra.Graph

/-!
# Module identity and build order

* `Ordered` — every module comes after the modules that it uses
* `Discovers` — the table that the driver builds
* `OncePerFile` — no file is in it twice
* `OneSpelling` — the `use` lines lead to each file by one path only
* `FileTree` — directories and files
-/

namespace Nib.Build

/-! ## Build order -/

namespace ModuleTable

variable (t : ModuleTable)

/-- The entry of `i` has `dep` among its dependencies. -/
def Uses (i dep : Nat) : Prop := ∃ m, t.entries[i]? = some m ∧ dep ∈ m.deps

/-- No module uses itself, directly or through others. -/
def Acyclic : Prop := ∀ i, ¬Relation.TransGen t.Uses i i

def Ordered (order : List Nat) : Prop := ∀ i dep, t.Uses i dep → order.idxOf dep < order.idxOf i

end ModuleTable

/-! ## Module identity -/

variable {F : Type}

/-- The scan of a program ends with this table. -/
def Discovers (fs : FileSystem F) (root : Path) (entries : List Entry) : Prop :=
  ∃ fuel i, addModule fs fuel root [] = some (i, entries)

/-- The file of a module. -/
def ModuleTable.file (t : ModuleTable) (fs : FileSystem F) (i : Nat) : Option F :=
  t.entries[i]?.bind fun m => fs.stat m.nibPath

/-- No file is in the table twice, so none is compiled or bound twice. -/
structure OncePerFile (fs : FileSystem F) (t : ModuleTable) : Prop where
  inTable : ∀ i j f, t.file fs i = some f → t.file fs j = some f → i = j
  built : ∀ r, t.topoSort = some r → (r.buildOrder.filterMap (t.file fs)).Nodup

/-- What the source at a path uses. -/
def FileSystem.uses (fs : FileSystem F) (p : Path) : List Path :=
  (fs.sourceLines p).filterMap (fs.useTarget (getDir p))

/-- The paths by which the `use` lines lead from the root to a source. -/
inductive Spelled (fs : FileSystem F) (root : Path) : Path → Prop
  | root : Spelled fs root (fit root)
  | use {p q : Path} : Spelled fs root p → q ∈ fs.uses p → Spelled fs root q

/-- No two of these paths lead to one file. -/
def OneSpelling (fs : FileSystem F) (root : Path) : Prop :=
  ∀ p q f, Spelled fs root p → Spelled fs root q → fs.stat p = some f → fs.stat q = some f → p = q

/-! ## Trees of files -/

abbrev Name := List Char

/-- The files of a tree, by the names on the way from its top, with their contents. The current
directory is the top. -/
abbrev FileTree := List (List Name × List Char)

def splitPath : Path → List Name
  | [] => [[]]
  | c :: p =>
    match splitPath p with
    | [] => [[c]]
    | n :: ns => if c = '/' then [] :: n :: ns else (c :: n) :: ns

namespace FileTree

def isDir (t : FileTree) (d : List Name) : Bool := t.any fun f => d.isPrefixOf f.1 && d != f.1

/-- Follow the names of a path. -/
def walk (t : FileTree) : List Name → List Name → Option (List Name)
  | d, [] => if t.isDir d || t.any (·.1 == d) then some d else none
  | d, n :: ns =>
    if t.isDir d then
      if n = [] ∨ n = ['.'] then t.walk d ns
      else if n = ['.', '.'] then t.walk d.dropLast ns
      else t.walk (d ++ [n]) ns
    else none

/-- A file is known by where it is in the tree. -/
def fileSystem (t : FileTree) : FileSystem (List Name) where
  stat p := t.walk [] (splitPath p)
  contents f := (t.find? (·.1 == f)).map Prod.snd

end FileTree

end Nib.Build
