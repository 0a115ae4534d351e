import Nib.Build.Driver
import Nib.Build.Contents

/-!
# Failed compiles and incremental builds

* `step` — edits and builds
* `RecompilesFailed` — an incomplete output is written again, and is not bound
* `Safe` — when a compile leaves no output behind that looks up to date but is not complete
* `RebuiltAsForced` — a build leaves the contents that a forced rebuild would leave
* `SkipsSettled` — when it does
-/

namespace Nib.Build

/-! ## Runs -/

/-- What happens to the files: time passes, a source is written or deleted, the outputs of a module
are deleted, or `nibbuild` runs. -/
inductive Event
  | wait (seconds : Nat)
  | write (m : Module)
  | delete (m : Module)
  | clean (m : Module)
  | build (v : Invocation)

def step (d : Disk) : Event → Disk
  | .wait seconds => { d with now := d.now + seconds }
  | .write m => { d with src := setFile d.src m (some d.now) }
  | .delete m => { d with src := setFile d.src m none }
  | .clean m => { d with nir := setFile d.nir m none, nif := setFile d.nif m none }
  | .build v => (nibbuild v d).2

def runEvents (d : Disk) (events : List Event) : Disk := events.foldl step d

/-- Before the first build. -/
def noFiles (now : Nat) : Disk :=
  { now, src := fun _ => none, nir := fun _ => none, nif := fun _ => none }

/-! ## The property -/

/-- Both outputs of a module were completely written by a compile that succeeded. -/
def Complete (d : Disk) (m : Module) : Prop :=
  (∃ o, d.nir m = some o ∧ o.complete = true) ∧ ∃ o, d.nif m = some o ∧ o.complete = true

/-- A run compiles every module whose outputs are not complete, and binds complete outputs only. -/
def RecompilesFailed (v : Invocation) (d : Disk) : Prop :=
  (∀ m ∈ v.modules, ¬Complete d m → m ∈ (nibbuild v d).1.compiled) ∧
    ∀ m ∈ (nibbuild v d).1.bound, Complete (nibbuild v d).2 m

/-- Every build of a run. -/
def AllBuilds (P : Invocation → Disk → Prop) (d : Disk) (events : List Event) : Prop :=
  ∀ before v after, events = before ++ .build v :: after → P v (runEvents d before)

/-! ## The condition -/

/-- A compile fails before it opens an output, or cannot open a `.nif` file that is missing or
older than the source, or finds no error and writes everything. -/
def SafeAttempt (a : Attempt) (m : Module) (d : Disk) : Prop :=
  a.spawns = false ∨ a.parses = false ∨ a.nirOpens = false ∨
    (a.nifOpens = false ∧ (d.nifTime m = 0 ∨ d.nifTime m < d.srcTime m)) ∨
    (a.nifOpens = true ∧ a.crashes = false ∧ a.errors = 0 ∧ a.written = true)

/-- The compiles of a run, each in the state before it. -/
def SafeAttempts (v : Invocation) : List Module → Disk → Prop
  | [], _ => True
  | m :: order, d =>
    SafeAttempt (v.attempt m) m d ∧ SafeAttempts v order (nib v.parseOnly (v.attempt m) m d).2

/-- A build that is no syntax check, whose sources are there, and whose compiles are safe. -/
structure Safe (v : Invocation) (d : Disk) : Prop where
  sources : ∀ m ∈ v.modules, d.srcTime m ≠ 0
  compiles : v.parseOnly = false
  attempts : SafeAttempts v ((topoSort v.deps v.modules).filter (needsCompile v d)) d

/-! ## Incremental builds -/

section

variable {S N F : Type}

/-- What the scan of the sources finds, on an acyclic module graph. -/
structure Scans (c : Compiler S N F) (st : Store S N F) (b : Build) : Prop where
  once : b.modules.Nodup
  deps : ∀ m ∈ b.modules, b.deps m = st.uses c m
  closed : ∀ m ∈ b.modules, b.deps m ⊆ b.modules
  sources : ∀ m ∈ b.modules, (st.src m).isSome = true
  acyclic : ∃ rank : Module → Nat, ∀ m ∈ b.modules, ∀ dep ∈ b.deps m, rank dep < rank m

/-- No file at first; then sources are edited, and `nibbuild` runs. -/
inductive Reachable (c : Compiler S N F) : Store S N F → Prop
  | start (now : Nat) : Reachable c
    { now, src := fun _ => none, nir := fun _ => none, nif := fun _ => none }
  | write {st : Store S N F} (m : Module) (s : S) : Reachable c st → Reachable c (st.write m s)
  | build {st : Store S N F} {b : Build} : Reachable c st → Scans c st b →
    Reachable c (st.build c b)

/-- The same run with `-f`. -/
def Build.forced (b : Build) : Build := { b with force := true }

/-- **Every output has the contents that a forced rebuild would have given it.** -/
def RebuiltAsForced (c : Compiler S N F) (st : Store S N F) (b : Build) : Prop :=
  ∀ m ∈ b.modules, (st.build c b).contents m = (st.build c b.forced).contents m

/-- A module that is skipped would come out the same from the `.nif` files that are there and from
those that a forced rebuild leaves. -/
def SkipsSettled (c : Compiler S N F) (st : Store S N F) (b : Build) : Prop :=
  ∀ m ∈ b.modules, needsCompile b.invocation st.disk m = false →
    st.output c m = (st.build c b.forced).output c m

end

end Nib.Build
