import CodecGen.Command.Execute
set_option autoImplicit false
/-!
The program. It reads what the command line may look at into a file tree, runs the command on that
tree, and carries the changes over to the disk.
-/
namespace CodecGen.Main
open Files

/-- The number with which the system refuses to read a directory as a file. -/
def isDirectoryCode : UInt32 := 21

def lookAt (path : String) : IO (Option Entry) := do
  try
    return some (.file (← IO.FS.readBinFile path).toList)
  catch
    | .inappropriateType _ code _ =>
      return if code == isDirectoryCode then some .directory else none
    | _ => return none

def enterParts (tree : Tree) (place : Location) (seen : String) : List String → IO Tree
  | [] => return tree
  | part :: rest => do
    let here := seen ++ part
    if part == "" || part == "." then enterParts tree place (here ++ "/") rest
    else if part == ".." then enterParts tree place.parent (here ++ "/") rest
    else
      let next := place ++ [part]
      if (tree.entry? next).isSome then enterParts tree next (here ++ "/") rest
      else match ← lookAt here with
        | none => return tree
        | some entry => enterParts (tree.put next entry) next (here ++ "/") rest

def enter (tree : Tree) (path : String) : IO Tree :=
  if Path.isRooted path then enterParts tree ["/"] "" (Path.parts path)
  else enterParts tree [] "" (Path.parts path)

def importPaths (options : Load.Options) (tree : Tree) (path : String) : List String :=
  match Load.openFile tree [] path with
  | .error _ => []
  | .ok file =>
    (file.root.elements "import").flatMap fun node => Load.candidates options path node.text

partial def enterImports (options : Load.Options) (tree : Tree) (seen : List String) :
    List String → IO Tree
  | [] => return tree
  | path :: rest =>
    if seen.contains path then enterImports options tree seen rest
    else do
      let tree ← enter tree path
      enterImports options tree (path :: seen) (importPaths options tree path ++ rest)

def describe : LogEvent → String
  | .compiled header src decls warnings =>
    s!"compiled module header={header} source={src} decls={decls} warnings={warnings}"
  | .loadingImport importer imported path =>
    s!"loading import from={importer} import={imported} path={path}"
  | .declared name => "declared name=" ++ name.text
  | .generated header className headerBytes sourceBytes =>
    s!"generated module header={header} class={className} header_bytes={headerBytes} " ++
      s!"source_bytes={sourceBytes}"
  | .wrote header src => s!"wrote artifacts header={header} source={src}"

def placePath (place : Location) : String :=
  match place with
  | "/" :: rest => "/" ++ "/".intercalate rest
  | _ => "/".intercalate place

def carryOver (before after : Tree) : IO Unit := do
  for (place, entry) in after.entries do
    if before.entry? place != some entry then
      if let .file content := entry then
        let path := placePath place
        let temporary := path ++ ".new"
        IO.FS.writeBinFile temporary ⟨content.toArray⟩
        IO.FS.rename temporary path

/-- Runs the command with ever more depth, until that is enough. -/
partial def outcomeWithin (depth : Nat) (names : Naming) (tree : Tree) (arguments : List String) :
    IO Command.Outcome :=
  match Command.execute { depth, names } tree arguments with
  | some outcome => return outcome
  | none => outcomeWithin (2 * depth) names tree arguments

def run (arguments : List String) : IO UInt32 := do
  let (verb, rest) := Command.Verb.select arguments
  let (settings, operands) :=
    ((Command.readFlags verb.flags rest).toOption).getD ({}, [])
  let tree ← (operands ++ operands.map Path.dir).foldlM enter {}
  let inputs := match verb with
    | .generate => operands.take 1
    | .check => operands
    | .help => []
  let tree ← enterImports { sysroot := settings.sysroot } tree [] inputs
  let names := Naming.counting (← IO.rand 0 (4294967295))
  let outcome ← outcomeWithin 64 names tree arguments
  let stderr ← IO.getStderr
  for event in outcome.log do
    stderr.putStrLn ("DEBUG\t" ++ describe event)
  stderr.putStr outcome.stderr
  try
    carryOver tree outcome.tree
    return outcome.exit.toUInt32
  catch e =>
    stderr.putStrLn ("error: " ++ toString e)
    return 1

end CodecGen.Main

def main (arguments : List String) : IO UInt32 := CodecGen.Main.run arguments
