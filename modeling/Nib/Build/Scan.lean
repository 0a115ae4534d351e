import Nib.Build.Table

/-!
# Module discovery

* `replaceExt`, `getDir`, `resolvePath` — path helpers, with the buffers they write to
* `useName` — the path in a `use` line
* `addModule` — a module and all that it uses, added to the table
-/

namespace Nib.Build

/-! ## Path helpers -/

/-- `snprintf` and `strncpy` into a buffer of 256 characters. -/
def fit (p : Path) : Path := p.take 255

/-- The path before its last dot, wherever that is. -/
def stem (p : Path) : Path :=
  if '.' ∈ p then (p.reverse.dropWhile (· ≠ '.')).tail.reverse else p

def replaceExt (p : Path) (ext : String) : Path := fit (stem p ++ ext.toList)

/-- The library's `dirname`. -/
def dirname (p : Path) : Path :=
  match p.reverse.dropWhile (· = '/') with
  | [] => if p.isEmpty then ['.'] else ['/']
  | base =>
    if '/' ∉ base then ['.']
    else
      match (base.dropWhile (· ≠ '/')).dropWhile (· = '/') with
      | [] => ['/']
      | dir => dir.reverse

def getDir (p : Path) : Path := fit (dirname (fit p))

def resolvePath (baseDir relPath : Path) : Path :=
  if relPath.head? = some '/' then fit relPath else fit (baseDir ++ '/' :: relPath)

/-! ## Sources -/

/-- `fgets` with room for `n` characters: a line, or as much of it as fits, and what is left. -/
def fgets : Nat → List Char → List Char × List Char
  | 0, s => ([], s)
  | _ + 1, [] => ([], [])
  | n + 1, c :: s =>
    if c = '\n' then ([c], s)
    else
      let (line, rest) := fgets n s
      (c :: line, rest)

/-- What one `fgets` after the other reads into a buffer of 512 characters. -/
def readLines : Nat → List Char → List (List Char)
  | 0, _ => []
  | fuel + 1, s =>
    if s.isEmpty then []
    else
      let (line, rest) := fgets 511 s
      line :: readLines fuel rest

def skipBlanks (s : List Char) : List Char := s.dropWhile fun c => c = ' ' || c = '\t'

/-- The quoted path of a `use` line. The source copies it to a buffer of 256 characters without a
check; here nothing is cut. -/
def useName (line : List Char) : Option Path :=
  let p := skipBlanks line
  if p.take 4 ≠ "use ".toList then none
  else
    match skipBlanks (p.drop 4) with
    | '"' :: p => if '"' ∈ p then some (p.takeWhile (· ≠ '"')) else none
    | _ => none

/-! ## The table -/

/-- The file that a path leads to, and what can be read from it. -/
structure FileSystem (F : Type) where
  stat : Path → Option F
  contents : F → Option (List Char)

variable {F : Type}

namespace FileSystem

/-- The source that a line uses: beside the source itself, or else in the current directory. -/
def useTarget (fs : FileSystem F) (dir : Path) (line : List Char) : Option Path :=
  (useName line).bind fun nifPath =>
    let nibDep := replaceExt nifPath ".nib"
    let resolved := resolvePath dir nibDep
    if (fs.stat resolved).isSome then some resolved
    else if (fs.stat nibDep).isSome then some nibDep
    else none

/-- The lines of a source, none if it cannot be opened. -/
def sourceLines (fs : FileSystem F) (p : Path) : List (List Char) :=
  match (fs.stat p).bind fs.contents with
  | some text => readLines text.length text
  | none => []

end FileSystem

def newEntry (p : Path) : Entry where
  nibPath := fit p
  nirPath := replaceExt p ".nir"
  nifPath := replaceExt p ".nif"
  dir := getDir p

def findModule (entries : List Entry) (p : Path) : Option Nat :=
  entries.findIdx? fun m => m.nibPath == p

def pushDep (entries : List Entry) (i dep : Nat) : List Entry :=
  entries.modify i fun m => { m with deps := m.deps ++ [dep] }

/-- The loop of `scan_uses` over the lines, where `add` is `add_module`. -/
def scanLines (fs : FileSystem F) (add : Path → List Entry → Option (Nat × List Entry)) (i : Nat)
    (dir : Path) : List (List Char) → List Entry → Option (List Entry)
  | [], entries => some entries
  | line :: rest, entries =>
    match fs.useTarget dir line with
    | none => scanLines fs add i dir rest entries
    | some p =>
      match add p entries with
      | none => none
      | some (dep, entries) => scanLines fs add i dir rest (pushDep entries i dep)

/-- `add_module` and `scan_uses`: the index of a module, and the table with it. The recursion
follows the `use` lines, and is bounded by fuel. -/
def addModule (fs : FileSystem F) : Nat → Path → List Entry → Option (Nat × List Entry)
  | 0, _, _ => none
  | fuel + 1, p, entries =>
    match findModule entries p with
    | some i => some (i, entries)
    | none =>
      let m := newEntry p
      let i := entries.length
      (scanLines fs (addModule fs fuel) i m.dir (fs.sourceLines m.nibPath) (entries ++ [m])).map
        fun entries => (i, entries)

end Nib.Build
