import CodecGen.Command.Notice
import CodecGen.Command.Verb
import CodecGen.Files.Replace
import CodecGen.Text.Utf8
set_option autoImplicit false
/-!
The commands as functions of their settings and operands and of the file tree: an exit code, the text
for the standard error, and the tree afterwards. A run that goes deeper than the machine it runs on
allows has no outcome.
-/
namespace CodecGen.Command
open Files

/-- What a run takes from the machine it runs on: how deep it may go, the numbers of temporary files,
and how these appear in messages. -/
structure Host where
  depth : Nat
  names : Naming
  serial : Nat → String := toString

structure Outcome where
  exit : Nat
  stderr : String
  tree : Tree
  log : List LogEvent := []

/-- The path that the include guard is made from: the one that is asked for, or the path of the
header without the slashes in front. -/
def guardPath (settings : Settings) (header : String) : String :=
  if settings.headerPath != "" then settings.headerPath
  else String.ofList ((Path.clean header).toList.dropWhile (· == '/'))

def writeNotice (serial : Nat → String) (fault : WriteFault) : Notice :=
  ⟨"", .error, fault.message serial⟩

def outputs (header source : String) (artifacts : Emit.Artifacts) : List Output :=
  [⟨header, Text.Utf8.encode artifacts.header⟩, ⟨source, Text.Utf8.encode artifacts.source⟩]

def generateFiles (host : Host) (tree : Tree) (settings : Settings)
    (path header source : String) : Option Outcome :=
  (prepare host.depth tree settings.sysroot (guardPath settings header) path).map fun p =>
    match p.artifacts? with
    | none => ⟨1, lines p.notices, tree, p.log⟩
    | some artifacts =>
      match tree.replace host.names (outputs header source artifacts) with
      | (tree, .error fault) =>
        ⟨1, lines (p.notices ++ [writeNotice host.serial fault]), tree, p.log⟩
      | (tree, .ok ()) => ⟨0, lines p.notices, tree, p.log ++ [.wrote header source]⟩

def usageError (verb : Verb) (tree : Tree) : Outcome := ⟨1, "usage: " ++ verb.usage ++ "\n", tree, []⟩

def runGenerate (host : Host) (tree : Tree) (settings : Settings) : List String → Option Outcome
  | [path, header, source] => generateFiles host tree settings path header source
  | _ => some (usageError .generate tree)

def fails (settings : Settings) (notices : List Notice) : Bool :=
  notices.any fun n => n.isError || settings.werror

def runCheck (depth : Nat) (tree : Tree) (settings : Settings) : List String → Option Outcome
  | [] => some (usageError .check tree)
  | paths =>
    (paths.mapM (prepare depth tree settings.sysroot "")).map fun prepared =>
      let notices := prepared.flatMap (·.notices)
      ⟨if fails settings notices then 1 else 0, lines notices, tree, prepared.flatMap (·.log)⟩

def runVerb (host : Host) (tree : Tree) (settings : Settings) (operands : List String) :
    Verb → Option Outcome
  | .generate => runGenerate host tree settings operands
  | .check => runCheck host.depth tree settings operands
  | .help => some ⟨0, (Verb.select operands).1.helpText, tree, []⟩

def execute (host : Host) (tree : Tree) (arguments : List String) : Option Outcome :=
  let (verb, rest) := Verb.select arguments
  match readFlags verb.flags rest with
  | .error fault => some ⟨1, fault.message ++ "\n", tree, []⟩
  | .ok (settings, operands) =>
    if settings.help then some ⟨0, verb.helpText, tree, []⟩
    else
      (runVerb host tree settings operands verb).map fun outcome =>
        if settings.verbose then outcome else { outcome with log := [] }

end CodecGen.Command
