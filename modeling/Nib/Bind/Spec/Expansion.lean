import Nib.Bind.Spec.Placement

/-!
# Modules by their paths

What the `.use` lines mean: each names a file, relative to the directory of the file it stands in.
The module of a file is reachable when a chain of such lines leads to the file.
-/

namespace Nib.Bind

/-! ## Paths -/

/-- Take one component of a path; the components so far are listed last first. -/
def resolveStep (done : List Text) (component : Text) : List Text :=
  if component = [] ∨ component = ['.'] then done
  else if component = ['.', '.'] then
    match done with
    | [] => [component]
    | last :: rest => if last = ['.', '.'] then component :: done else rest
  else component :: done

/-- The components of a path: the characters before the next slash are `current`, last first. -/
def splitPath : Text → Text → List Text
  | current, [] => [current.reverse]
  | current, '/' :: rest => current.reverse :: splitPath [] rest
  | current, c :: rest => splitPath (c :: current) rest

/-- A path without `.` and `..`, last component first, and whether it starts at the root. -/
def resolvePath (path : Text) : Bool × List Text :=
  (path.head? == some '/', (splitPath [] path).foldl resolveStep [])

/-- The text between the quotes. -/
def quotedPath (text : Text) : Text :=
  (if text.head? = some '"' then text.tail else text).takeWhile (· ≠ '"')

/-- The path of the file that a `.use` line names: the extension is that of the IR. -/
def namedPath (path text : Text) : Text :=
  let q := quotedPath text
  (if q.head? = some '/' then [] else dirPart path) ++ dirPart q ++ cutDot (baseName q) ++
    ".nir".toList

/-! ## Reachable files -/

/-- A line of the file names the other file. -/
def Uses (files : List NirFile) (f g : NirFile) : Prop :=
  g ∈ files ∧ ∃ text, .use text ∈ f.lines ∧
    resolvePath (namedPath f.path text) = resolvePath g.path

inductive Reaches (files : List NirFile) (root : NirFile) : NirFile → Prop
  | root : Reaches files root root
  | step {f g : NirFile} (h : Reaches files root f) (hu : Uses files f g) : Reaches files root g

/-! ## Names -/

/-- A path at which a module can be expanded, through modules with different names. -/
inductive Chain (order : List EmitOrder) (root : Text) : Text → List Text → Prop
  | root : Chain order root root []
  | step {path : Text} {above : List Text} (h : Chain order root path above) {useMod : Text}
    (hu : ⟨moduleName path, .use useMod⟩ ∈ order)
    (hnew : moduleName (usePath path useMod) ∉ moduleName path :: above) :
    Chain order root (usePath path useMod) (moduleName path :: above)

/-- Wherever a module is expanded, the name that is cut out of the path of a `.use` line is the name
of the file that the line names. -/
def NamesRight (files : List NirFile) (root : NirFile) : Prop :=
  ∀ path above, Chain (parseFiles files) root.path path above →
    ∀ f ∈ files, moduleName f.path = moduleName path → ∀ text, .use text ∈ f.lines →
      ∀ g ∈ files, resolvePath (namedPath f.path text) = resolvePath g.path →
        moduleName (usePath path (useModule text)) = moduleName g.path

/-! ## What is written -/

mutual

/-- All items with their modules. -/
def eventEntries : Event → List (Text × Item)
  | .item module i => [(module, i)]
  | .use sub => eventsEntries sub

def eventsEntries : List Event → List (Text × Item)
  | [] => []
  | e :: rest => eventEntries e ++ eventsEntries rest

end

/-- The items of a module, in source order. -/
def orderItems (order : List EmitOrder) (module : Text) : List (Text × Item) :=
  (order.filter fun e => e.module == module).filterMap fun e =>
    match e.kind with
    | .item i => some (e.module, i)
    | .use _ => none

/-- An item without what the placement pass records. -/
def Item.erase : Item → Item
  | .fn f => .fn { f with emitSeg := none }
  | .data d => .data { d with emitSeg := none }
  | i => i

/-- The functions, data blocks and globals of the output. -/
def outLabels (out : List OutLine) : List Item :=
  out.filterMap fun line =>
    match line with
    | .label i _ => some i
    | .stmt _ => none

/-- Every module that can be reached is written once and in source order, and the placement pass
meets what is written, in the same order. -/
structure Complete (files : List NirFile) (root : NirFile) : Prop where
  finishes : ∃ events done, expandRoot (parseFiles files) root.path = some (events, done)
  once : ∀ events done, expandRoot (parseFiles files) root.path = some (events, done) →
    ∀ g, Reaches files root g →
      (eventsEntries events).filter (fun e => e.1 == moduleName g.path) =
        orderItems (parseFiles files) (moduleName g.path)
  written : ∀ events done, expandRoot (parseFiles files) root.path = some (events, done) →
    ∀ r, bindModules (parseFiles files) root.path = some r →
      outLabels r.emit.out = ((eventsEntries r.events).map (·.2)).filter Item.hasLabel ∧
        (eventsEntries r.events).map (fun e => (e.1, e.2.erase)) =
          (eventsEntries events).map (fun e => (e.1, e.2.erase))

end Nib.Bind
