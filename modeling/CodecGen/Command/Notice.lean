import CodecGen.Emit.Artifact
import CodecGen.Load
set_option autoImplicit false
/-!
What the commands tell about the files they are given: a line for each error and each warning, with
the place it is about.
-/
namespace CodecGen.Command

inductive Severity where
  | error
  | warning
deriving DecidableEq, Repr

def Severity.text : Severity → String
  | error => "error"
  | warning => "warning"

structure Notice where
  location : String
  severity : Severity
  text : String
deriving DecidableEq, Repr

namespace Notice

def line (n : Notice) : String :=
  (if n.location == "" then "" else n.location ++ ": ") ++ n.severity.text ++ ": " ++ n.text ++ "\n"

def isError (n : Notice) : Bool := n.severity == .error

end Notice

def lines (notices : List Notice) : String := String.join (notices.map Notice.line)

def placeText (path : String) (src : Bytes) (span : Span) : String :=
  let p := Position.ofOffset src span.start
  path ++ ":" ++ toString p.line ++ ":" ++ toString p.column

def failureNotices (path : String) : Load.Failure → List Notice
  | .malformed file src e => [⟨placeText file src e.span, .error, e.text⟩]
  | .unresolved file src errors => errors.map fun e => ⟨placeText file src e.span, .error, e.text⟩
  | .unreadable fault => [⟨path, .error, fault.message⟩]

def warningNotice (w : Load.FileWarning) : Notice :=
  ⟨placeText w.path w.src w.warning.span, .warning, w.warning.text⟩

/-- Both artifacts of the module that a path leads to, and the notices about them. There are no
artifacts exactly if there is an error among the notices. -/
structure Prepared where
  artifacts? : Option Emit.Artifacts
  notices : List Notice
  log : List LogEvent

/-- Loads a module and generates its artifacts without writing them. There is no result where that goes
deeper than `depth`, be it into files or into messages that contain themselves. -/
def prepare (depth : Nat) (tree : Files.Tree) (sysroot headerPath path : String) : Option Prepared :=
  match Load.load depth tree { sysroot, unrolling := depth } {} path with
  | none => none
  | some (.error failure, log) => some ⟨none, failureNotices path failure, log⟩
  | some (.ok loaded, log) =>
    let warnings := loaded.warnings.map warningNotice
    let log := log ++ Emit.generateLog loaded.module headerPath
    match Emit.generate loaded.module headerPath with
    | .error fault =>
      fault.message?.map fun text => ⟨none, warnings ++ [⟨path, .error, text⟩], log⟩
    | .ok artifacts => some ⟨some artifacts, warnings, log⟩

end CodecGen.Command
