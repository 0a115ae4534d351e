import Mathlib.Tactic.Common

/-!
# The module table

* `ModuleTable` — the modules of a program, each with the indices of the modules that it uses
* `topoSort` — the order in which they are built
-/

namespace Nib.Build

abbrev Path := List Char

/-- An entry: the source, the outputs, the directory of the source, and the modules it uses. -/
structure Entry where
  nibPath : Path
  nirPath : Path
  nifPath : Path
  dir : Path
  deps : List Nat := []
  deriving DecidableEq, Repr

/-- A table whose dependencies are entries of it. -/
structure ModuleTable where
  entries : List Entry
  inRange : ∀ e ∈ entries, ∀ dep ∈ e.deps, dep < entries.length

/-! ## Topological sort -/

structure TopoState where
  visited : List Bool
  buildOrder : List Nat := []
  changed : Bool := false
  deriving DecidableEq, Repr

namespace TopoState

def isVisited (s : TopoState) (i : Nat) : Bool := s.visited.getD i false

/-- A module is appended when it is new and all that it uses has been visited. -/
def visit (s : TopoState) (i : Nat) (m : Entry) : TopoState :=
  if s.isVisited i then s
  else if m.deps.all s.isVisited then
    { visited := s.visited.set i true, buildOrder := s.buildOrder ++ [i], changed := true }
  else s

/-- The modules from index `i` on. -/
def sweep (s : TopoState) (i : Nat) : List Entry → TopoState
  | [] => s
  | m :: rest => (s.visit i m).sweep (i + 1) rest

end TopoState

/-- The order, and the modules for which a cycle is reported. -/
structure Sorted where
  buildOrder : List Nat
  cycles : List Nat
  deriving DecidableEq, Repr

namespace ModuleTable

def size (t : ModuleTable) : Nat := t.entries.length

/-- Sweeps until one of them changes nothing. -/
def topoLoop (t : ModuleTable) : Nat → TopoState → Option TopoState
  | 0, _ => none
  | fuel + 1, s =>
    let s := { s with changed := false }.sweep 0 t.entries
    if s.changed then t.topoLoop fuel s else some s

/-- What has not been visited comes last. -/
def topoSort (t : ModuleTable) : Option Sorted := do
  let s ← t.topoLoop (t.size + 1) { visited := List.replicate t.size false }
  let cycles := (List.range t.size).filter fun i => !s.isVisited i
  pure { buildOrder := s.buildOrder ++ cycles, cycles }

/-- The report of a cycle. -/
def cycleError (t : ModuleTable) (i : Nat) : List Char :=
  let path := match t.entries[i]? with
    | some m => m.nibPath
    | none => []
  "error: dependency cycle involving '".toList ++ path ++ "'\n".toList

end ModuleTable

end Nib.Build
