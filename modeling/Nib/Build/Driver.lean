import Mathlib

/-!
# The build driver

* `nib` — one run of the compiler, as far as its files go
* `topoSort` — the order in which modules are compiled
* `nibbuild` — one run of the driver
-/

namespace Nib.Build

/-! ## Files -/

/-- A module, by the path of its source. -/
abbrev Module := List Char

/-- An output. `complete` says that a compile that reports success has written all of it. -/
structure Output where
  mtime : Nat
  complete : Bool
  deriving DecidableEq, Repr

/-- The clock in seconds, the times of the sources, and the outputs of each module. -/
structure Disk where
  now : Nat
  src : Module → Option Nat
  nir : Module → Option Output
  nif : Module → Option Output

/-- The time of a file, 0 when there is none. -/
def fileMtime (time : Option Nat) : Nat := time.getD 0

namespace Disk

def srcTime (d : Disk) (m : Module) : Nat := fileMtime (d.src m)

def nirTime (d : Disk) (m : Module) : Nat := fileMtime ((d.nir m).map Output.mtime)

def nifTime (d : Disk) (m : Module) : Nat := fileMtime ((d.nif m).map Output.mtime)

end Disk

def setFile {α : Type} (files : Module → Option α) (m : Module) (file : Option α) :
    Module → Option α := fun m' => if m' = m then file else files m'

/-! ## The compiler -/

/-- What happens in a run of `nib`: whether it starts, whether the source is read without syntax
errors, which outputs can be opened, how many errors are counted, whether the run is cut short,
whether all of what is printed reaches the disk, and how long it takes. -/
structure Attempt where
  spawns : Bool := true
  parses : Bool := true
  nirOpens : Bool := true
  nifOpens : Bool := true
  errors : Nat := 0
  crashes : Bool := false
  written : Bool := true
  seconds : Nat := 0
  deriving DecidableEq, Repr

/-- `compile`: both outputs are opened before the first declaration is looked at. -/
def compile (a : Attempt) (m : Module) (d : Disk) : Nat × Disk :=
  if a.nirOpens = false then (1, d)
  else
    let opened := { d with nir := setFile d.nir m (some { mtime := d.now, complete := false }) }
    if a.nifOpens = false then (1, opened)
    else
      let close (complete : Bool) : Disk :=
        { d with
          nir := setFile d.nir m (some { mtime := d.now + a.seconds, complete })
          nif := setFile d.nif m (some { mtime := d.now + a.seconds, complete }) }
      if a.crashes then (1, close false)
      else if 0 < a.errors then (1, close false)
      -- nothing looks at what `fprintf` and `fclose` return
      else (0, close a.written)

/-- `nib`, with its exit status. -/
def nib (parseOnly : Bool) (a : Attempt) (m : Module) (d : Disk) : Nat × Disk :=
  let r :=
    if a.spawns = false then (1, d)
    else if a.parses = false then (1, d)
    else if parseOnly then (0, d)
    else compile a m d
  (r.1, { r.2 with now := d.now + a.seconds })

/-! ## The order -/

theorem moduleLawful : LawfulBEq Module := inferInstance

attribute [local instance] moduleLawful

/-- One pass: the modules that are ready are appended. -/
def topoPass (deps : Module → List Module) : List Module → List Module → List Module
  | [], order => order
  | m :: modules, order =>
    if m ∈ order then topoPass deps modules order
    else if ∀ dep ∈ deps m, dep ∈ order then topoPass deps modules (order ++ [m])
    else topoPass deps modules order

/-- Passes until nothing changes. Every pass but the last appends a module. -/
def topoLoop (deps : Module → List Module) (modules : List Module) : Nat → List Module → List Module
  | 0, order => order
  | fuel + 1, order =>
    let next := topoPass deps modules order
    if next.length = order.length then order else topoLoop deps modules fuel next

/-- What is left over lies on a cycle, and comes last. -/
def topoSort (deps : Module → List Module) (modules : List Module) : List Module :=
  let order := topoLoop deps modules modules.length []
  order ++ modules.filter fun m => m ∉ order

/-! ## The driver -/

/-- The command line of a run, the modules and dependencies that are found, and what happens in the
tools. -/
structure Invocation where
  force : Bool := false
  parseOnly : Bool := false
  modules : List Module
  deps : Module → List Module := fun _ => []
  attempt : Module → Attempt := fun _ => {}
  binds : Bool := true
  assembles : Bool := true

/-- What a run does: its exit status, the modules it compiles and those it binds. -/
structure Report where
  status : Nat
  compiled : List Module := []
  bound : List Module := []
  deriving DecidableEq, Repr

def needsCompile (v : Invocation) (d : Disk) (m : Module) : Bool :=
  v.force || d.nirTime m == 0 || d.nifTime m == 0 || d.nirTime m < d.srcTime m ||
    d.nifTime m < d.srcTime m || (v.deps m).any fun dep => d.nirTime m < d.nifTime dep

/-- The compile step, with the number of failures. -/
def compileAll (v : Invocation) : List Module → Disk → Nat × Disk
  | [], d => (0, d)
  | m :: order, d =>
    let r := nib v.parseOnly (v.attempt m) m d
    let rest := compileAll v order r.2
    ((if r.1 ≠ 0 then 1 else 0) + rest.1, rest.2)

def nibbuild (v : Invocation) (d : Disk) : Report × Disk :=
  let order := topoSort v.deps v.modules
  if v.modules.any fun m => d.srcTime m == 0 then ({ status := 1 }, d)
  else
    -- all modules are judged before the first one is compiled
    let compiled := order.filter (needsCompile v d)
    let r := compileAll v compiled d
    if 0 < r.1 then ({ status := 1, compiled }, r.2)
    else
      ({ status := if v.binds && v.assembles then 0 else 1, compiled, bound := order }, r.2)

end Nib.Build
