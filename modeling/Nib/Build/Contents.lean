import Nib.Build.Driver

/-!
# Builds with the contents of the files

The driver looks at times only. Here the files have contents too, and a compile that succeeds is
a function of the source and of the `.nif` files of the modules it uses.

* `Store.build` — one run of `nibbuild` whose tools succeed
* `Store.disk` — the same files by their times, as the driver sees them
-/

namespace Nib.Build

variable {S N F : Type}

/-- The compiler: the modules that a source uses, and what is written for a module. -/
structure Compiler (S N F : Type) where
  uses : S → List Module
  run : Module → S → List (Option F) → N × F

/-- The clock and the files, each with its time and its contents. -/
structure Store (S N F : Type) where
  now : Nat
  src : Module → Option (Nat × S)
  nir : Module → Option (Nat × N)
  nif : Module → Option (Nat × F)

/-- A run of `nibbuild`: its flag, the modules that are found and what they use. -/
structure Build where
  force : Bool := false
  modules : List Module
  deps : Module → List Module

/-- Every tool succeeds, and a compile takes a second. -/
def Build.invocation (b : Build) : Invocation where
  force := b.force
  modules := b.modules
  deps := b.deps
  attempt _ := { seconds := 1 }

namespace Store

def disk (st : Store S N F) : Disk where
  now := st.now
  src m := (st.src m).map Prod.fst
  nir m := (st.nir m).map fun f => { mtime := f.1, complete := true }
  nif m := (st.nif m).map fun f => { mtime := f.1, complete := true }

/-- A source is edited. -/
def write (st : Store S N F) (m : Module) (s : S) : Store S N F :=
  { st with now := st.now + 1, src := setFile st.src m (some (st.now + 1, s)) }

/-- The modules that a module uses. -/
def uses (c : Compiler S N F) (st : Store S N F) (m : Module) : List Module :=
  match st.src m with
  | some f => c.uses f.2
  | none => []

/-- What a compile of a module writes now. -/
def output (c : Compiler S N F) (st : Store S N F) (m : Module) : Option (N × F) :=
  (st.src m).map fun f => c.run m f.2 ((st.uses c m).map fun dep => (st.nif dep).map Prod.snd)

def compile (c : Compiler S N F) (st : Store S N F) (m : Module) : Store S N F :=
  match st.output c m with
  | none => st
  | some r =>
    { st with
      now := st.now + 1
      nir := setFile st.nir m (some (st.now + 1, r.1))
      nif := setFile st.nif m (some (st.now + 1, r.2)) }

/-- The modules that a run compiles, in order. -/
def toCompile (st : Store S N F) (b : Build) : List Module :=
  (topoSort b.deps b.modules).filter (needsCompile b.invocation st.disk)

def build (c : Compiler S N F) (st : Store S N F) (b : Build) : Store S N F :=
  if b.modules.any fun m => st.disk.srcTime m == 0 then st
  else (st.toCompile b).foldl (compile c) st

/-- What the outputs of a module contain. -/
def contents (st : Store S N F) (m : Module) : Option N × Option F :=
  ((st.nir m).map Prod.snd, (st.nif m).map Prod.snd)

end Store

end Nib.Build
