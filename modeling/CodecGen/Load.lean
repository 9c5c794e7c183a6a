import CodecGen.Files.Tree
import CodecGen.Resolve.Module
set_option autoImplicit false
/-!
Loading a module from a file tree together with everything it imports. An imported header is looked
for as a file of that name beside the importing file, then along the search path; modules that are
already there are not read again. Files are loaded inside the files that import them, and nothing
bounds how many; loading therefore takes a depth, and has no result where it would go deeper.
-/
namespace CodecGen.Load
open Files Markup Schema

/-- Where imports are looked for after the directory of the importing file, and how deep messages that
contain themselves are spelled out. -/
structure Options where
  searchPath : List String := []
  sysroot : String := ""
  unrolling : Nat := 0

structure FileWarning where
  path : String
  src : Bytes
  warning : Resolve.Warning

inductive Failure where
  | unreadable (fault : ReadFault)
  | malformed (path : String) (src : Bytes) (error : SyntaxError)
  | unresolved (path : String) (src : Bytes) (errors : List Resolve.Error)

structure Progress where
  set : ModuleSet := {}
  warnings : List FileWarning := []
  log : List LogEvent := []

/-- A step of loading. It has no result if files are nested too deep, and what it reports stays when
it fails. -/
abbrev Loading := ExceptT Failure (StateT Progress Option)

def searchDirs (options : Options) (path : String) : List String :=
  Path.dir path :: options.searchPath ++
    if options.sysroot == "" then [] else [Path.join [options.sysroot, "usr", "share", "xcb"]]

def candidates (options : Options) (path imported : String) : List String :=
  (searchDirs options path).map fun dir => Path.join [dir, imported ++ ".xml"]

def findImport? (tree : Tree) (options : Options) (path imported : String) : Option String :=
  (candidates options path imported).find? tree.holds

def report (event : LogEvent) : Loading Unit := modify fun p => { p with log := p.log ++ [event] }

/-- A file that has been read: its path, its content, its root element, and the headers of the
files whose loading led to it, its own last. -/
structure Opened where
  path : String
  src : Bytes
  root : Element
  active : List String

namespace Opened

def header (file : Opened) : String := file.root.attrD "header" ""

def failure (file : Opened) (cause : Resolve.ErrorCause) (node : Element) : Failure :=
  .unresolved file.path file.src [⟨cause, node.span⟩]

end Opened

def openFile (tree : Tree) (active : List String) (path : String) : Except Failure Opened :=
  match tree.read path with
  | .error fault => .error (.unreadable fault)
  | .ok src =>
    match parse src with
    | .error e => .error (.malformed path src e)
    | .ok root => .ok ⟨path, src, root, active ++ [root.attrD "header" ""]⟩

/-- Sees to one import of a file. The header must not belong to a file that is being loaded; unless
its module is there already, `enter` loads the file it is found in. -/
def loadImport (tree : Tree) (options : Options) (enter : String → Loading Module) (file : Opened)
    (node : Element) : Loading Unit := do
  let imported := node.text
  if file.active.contains imported then
    throw (file.failure (.importCycle (file.active ++ [imported])) node)
  else if ((← get).set.get? imported).isSome then
    return
  else match findImport? tree options file.path imported with
    | none =>
      throw (file.failure (.importNotFound imported (searchDirs options file.path)) node)
    | some path => do
      report (.loadingImport file.header imported path)
      let _ ← enter path
      return

def loadImports (tree : Tree) (options : Options) (enter : String → Loading Module)
    (file : Opened) : List Element → Loading Unit
  | [] => return
  | node :: rest => do
    loadImport tree options enter file node
    loadImports tree options enter file rest

def finishFile (file : Opened) : Loading Module := do
  let r := Resolve.resolve (← get).set file.root
  modify fun p => { p with
    warnings := p.warnings ++ r.warnings.map (FileWarning.mk file.path file.src)
    log := p.log ++ r.log file.path }
  match r.module? with
  | none => throw (.unresolved file.path file.src r.errors)
  | some m => do
    modify fun p => { p with set := p.set.add m }
    return m

def tooDeep {α : Type} : Loading α := ExceptT.mk fun _ => none

def loadWithin (tree : Tree) (options : Options) : (depth : Nat) → (active : List String) →
    (path : String) → Loading Module
  | 0, _, _ => tooDeep
  | depth + 1, active, path => do
    let file ← openFile tree active path
    loadImports tree options (loadWithin tree options depth file.active) file
      (file.root.elements "import")
    finishFile file

structure Loaded where
  module : Module
  set : ModuleSet
  warnings : List FileWarning

def initialSet (options : Options) (known : ModuleSet) : ModuleSet :=
  ModuleSet.merge { unrolling := options.unrolling } known

def load (depth : Nat) (tree : Tree) (options : Options) (known : ModuleSet) (path : String) :
    Option (Except Failure Loaded × List LogEvent) :=
  ((loadWithin tree options depth [] path).run.run { set := initialSet options known }).map
    fun (result, progress) =>
      (result.map fun m => ⟨m, progress.set, progress.warnings⟩, progress.log)

namespace Failure

def message : Failure → String
  | .unreadable fault => fault.message
  | .malformed path _ e => path ++ ": " ++ e.text
  | .unresolved path _ errors => "\n".intercalate (errors.map fun e => path ++ ": " ++ e.text)

end Failure
end CodecGen.Load
