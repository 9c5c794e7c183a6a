import CodecGen.Command.Flags
set_option autoImplicit false
/-!
The commands, the flags each of them knows, and which one an argument list asks for.
-/
namespace CodecGen.Command

inductive Verb where
  | generate
  | check
  | help
deriving DecidableEq, Repr

namespace Verb

def flags : Verb → List Flag
  | generate => [.headerPath, .sysroot, .verbose, .help]
  | check => [.werror, .sysroot, .verbose, .help]
  | help => [.sysroot, .verbose, .help]

def usage : Verb → String
  | generate => "xprotogen [options] XML HEADER SOURCE"
  | check => "xprotogen check XML..."
  | help => "xprotogen help [command]"

def summary : Verb → String
  | generate => "Generate the C++ header and source for an X11 protocol module"
  | check => "Report diagnostics for protocol modules without writing output"
  | help => "Help about any command"

def searchFlags : List Flag := [.headerPath, .sysroot, .verbose]

/-- Whether the argument is a flag that has its value in the next argument. Flags that nobody knows
are taken to have one. -/
def takesNext (argument : String) : Bool :=
  !argument.toList.contains '=' &&
    match argument.toList with
    | '-' :: '-' :: name =>
      !searchFlags.any fun f => f.name == String.ofList name && f.isSwitch
    | ['-', c] => c.utf8Size == 1 && !searchFlags.any fun f => f.short? == some c && f.isSwitch
    | _ => false

/-- The first argument that is neither a flag nor the value of one, and the arguments without it. -/
def firstOperand? : List String → Option (String × List String)
  | [] => none
  | argument :: rest =>
    if argument == "--" then none
    else if takesNext argument then
      match rest with
      | [] => none
      | value :: rest => (firstOperand? rest).map fun (x, others) => (x, argument :: value :: others)
    else if argument == "" || argument.toList.head? == some '-' then
      (firstOperand? rest).map fun (x, others) => (x, argument :: others)
    else some (argument, rest)

def select (arguments : List String) : Verb × List String :=
  match firstOperand? arguments with
  | some ("check", rest) => (check, rest)
  | some ("help", rest) => (help, rest)
  | _ => (generate, arguments)

def helpText : Verb → String
  | generate =>
    generate.summary ++ "\n\n" ++
    "Usage:\n" ++
    "  " ++ generate.usage ++ " [flags]\n" ++
    "  xprotogen [command]\n\n" ++
    "Available Commands:\n" ++
    "  check       " ++ check.summary ++ "\n" ++
    "  help        " ++ help.summary ++ "\n\n" ++
    "Flags:\n" ++
    "      --header-path string   header path used for the include guard (default: HEADER)\n" ++
    "  -h, --help                 help for xprotogen\n" ++
    "      --sysroot string       alternate root for imported modules (<sysroot>/usr/share/xcb)\n" ++
    "  -v, --verbose              log resolver and generator progress to stderr\n\n" ++
    "Use \"xprotogen [command] --help\" for more information about a command.\n"
  | check =>
    check.summary ++ "\n\n" ++
    "Usage:\n" ++
    "  " ++ check.usage ++ " [flags]\n\n" ++
    "Flags:\n" ++
    "  -h, --help     help for check\n" ++
    "      --werror   treat warnings as errors\n\n" ++ globalFlags
  | help =>
    "Help provides help for any command in the application.\n" ++
    "Simply type xprotogen help [path to command] for full details.\n\n" ++
    "Usage:\n" ++
    "  " ++ help.usage ++ " [flags]\n\n" ++
    "Flags:\n" ++
    "  -h, --help   help for help\n\n" ++ globalFlags
where
  globalFlags : String :=
    "Global Flags:\n" ++
    "      --sysroot string   alternate root for imported modules (<sysroot>/usr/share/xcb)\n" ++
    "  -v, --verbose          log resolver and generator progress to stderr\n"

end Verb
end CodecGen.Command
