import CodecGen.Text.Quoted
import CodecGen.Text.Utf8
set_option autoImplicit false
/-!
The flags of the command line. Flags and operands may be mixed; `--` ends the flags. A flag with a
text takes it after `=` or as the next argument, a switch takes a value after `=` only. Letters
after a single dash are short flags in a row.
-/
namespace CodecGen.Command
open Text.Quoted

inductive Flag where
  | headerPath
  | sysroot
  | verbose
  | werror
  | help
deriving DecidableEq, Repr

namespace Flag

def name : Flag → String
  | headerPath => "header-path"
  | sysroot => "sysroot"
  | verbose => "verbose"
  | werror => "werror"
  | help => "help"

def short? : Flag → Option Char
  | verbose => some 'v'
  | help => some 'h'
  | headerPath | sysroot | werror => none

def isSwitch : Flag → Bool
  | verbose | werror | help => true
  | headerPath | sysroot => false

def title (f : Flag) : String :=
  match f.short? with
  | some c => "-" ++ String.singleton c ++ ", --" ++ f.name
  | none => "--" ++ f.name

end Flag

structure Settings where
  headerPath : String := ""
  sysroot : String := ""
  verbose : Bool := false
  werror : Bool := false
  help : Bool := false
deriving DecidableEq, Repr

inductive FlagFault where
  | badForm (argument : String)
  | unknown (name : String)
  | unknownShort (letters : List Char)
  | withoutText (flag : Flag)
  | badValue (flag : Flag) (value : String)
deriving DecidableEq, Repr

def firstByteChar (letters : List Char) : Char :=
  Char.ofNat (((Text.Utf8.encode (String.ofList letters)).head?.map (·.toNat)).getD 0)

def FlagFault.message : FlagFault → String
  | .badForm argument => "bad flag syntax: " ++ argument
  | .unknown name => "unknown flag: --" ++ name
  | .unknownShort letters =>
    "unknown shorthand flag: " ++ quoteChar (firstByteChar letters) ++ " in -" ++
      String.ofList letters
  | .withoutText flag => "flag needs an argument: --" ++ flag.name
  | .badValue flag value =>
    "invalid argument " ++ quote value ++ " for " ++ quote flag.title ++
      " flag: strconv.ParseBool: parsing " ++ quote value ++ ": invalid syntax"

def readSwitch? (value : String) : Option Bool :=
  if ["1", "t", "T", "TRUE", "true", "True"].contains value then some true
  else if ["0", "f", "F", "FALSE", "false", "False"].contains value then some false
  else none

namespace Settings

def setSwitch (s : Settings) (on : Bool) : Flag → Settings
  | .verbose => { s with verbose := on }
  | .werror => { s with werror := on }
  | .help => { s with help := on }
  | .headerPath | .sysroot => s

def assign (s : Settings) (flag : Flag) (value : String) : Except FlagFault Settings :=
  match flag with
  | .headerPath => .ok { s with headerPath := value }
  | .sysroot => .ok { s with sysroot := value }
  | .verbose | .werror | .help =>
    match readSwitch? value with
    | some on => .ok (s.setSwitch on flag)
    | none => .error (.badValue flag value)

end Settings

/-- The arguments read so far: the flag whose text comes next, and whether `--` has been seen. -/
structure Reading where
  settings : Settings := {}
  operands : List String := []
  awaiting : Option Flag := none
  ended : Bool := false
deriving DecidableEq, Repr

namespace Reading

def operand (r : Reading) (argument : String) : Reading :=
  { r with operands := r.operands ++ [argument] }

def long (flags : List Flag) (r : Reading) (text : List Char) : Except FlagFault Reading :=
  if text.head? == some '-' || text.head? == some '=' then
    .error (.badForm ("--" ++ String.ofList text))
  else
    let name := String.ofList (text.takeWhile (· != '='))
    match flags.find? (·.name == name) with
    | none => .error (.unknown name)
    | some flag =>
      match text.dropWhile (· != '=') with
      | _ :: value => do
        return { r with settings := ← r.settings.assign flag (String.ofList value) }
      | [] =>
        if flag.isSwitch then .ok { r with settings := r.settings.setSwitch true flag }
        else .ok { r with awaiting := some flag }

/-- Letters with which a test runner marks its own arguments; they are passed over. -/
def isTestMark (letters : List Char) : Bool := "test.".toList.isPrefixOf letters

/-- Short flags in a row. All of them are switches; a value may follow the last one. -/
def short (flags : List Flag) (s : Settings) : List Char → Except FlagFault Settings
  | [] => .ok s
  | c :: rest =>
    if isTestMark (c :: rest) then .ok s
    else match flags.find? (·.short? == some c) with
    | none => .error (.unknownShort (c :: rest))
    | some flag =>
      match rest with
      | '=' :: v :: value => s.assign flag (String.ofList (v :: value))
      | _ => short flags (s.setSwitch true flag) rest

def next (flags : List Flag) (r : Reading) (argument : String) : Except FlagFault Reading :=
  if r.ended then .ok (r.operand argument)
  else match r.awaiting with
    | some flag => do
      return { r with settings := ← r.settings.assign flag argument, awaiting := none }
    | none =>
      -- a single dash is an operand
      match argument.toList with
      | ['-', '-'] => .ok { r with ended := true }
      | '-' :: '-' :: text => long flags r text
      | '-' :: c :: rest => do return { r with settings := ← short flags r.settings (c :: rest) }
      | _ => .ok (r.operand argument)

end Reading

def readFlags (flags : List Flag) (arguments : List String) :
    Except FlagFault (Settings × List String) := do
  let r ← arguments.foldlM (Reading.next flags) {}
  match r.awaiting with
  | some flag => .error (.withoutText flag)
  | none => return (r.settings, r.operands)

end CodecGen.Command
