import CodecGen.Emit.Declaration
import CodecGen.Text.UpperCase
set_option autoImplicit false
/-!
The two artifacts of a module: a header with its declarations, and a source file with the encoder
of each request and the decoder of each reply. Either both come about or neither does.
-/
namespace CodecGen.Emit
open Schema

structure RequestCode where
  request : Request
  encoder : List Stmt
  decoder : Option (List Stmt)

def encodeRequest (className : String) (r : Request) : Emission (List Stmt) := do
  freshScope
  copyContainer ⟨.encode, ["x11", className], [r.name.last]⟩ (.request r.opcode) r.fields "request"

def decodeReply (r : Request) (reply : Reply) : Emission (List Stmt) := do
  freshScope
  copyContainer ⟨.decode, ["x11"], [r.name.last, "reply"]⟩ .reply reply.fields "(*reply)"

def compileRequest (className : String) (r : Request) : Emission RequestCode := do
  let encoder ← encodeRequest className r
  match r.reply with
  | none => return ⟨r, encoder, none⟩
  | some reply => return ⟨r, encoder, some (← decodeReply r reply)⟩

def compileRequests (className : String) : List Request → Emission (List RequestCode)
  | [] => return []
  | r :: rest => do
    let one ← compileRequest className r
    let more ← compileRequests className rest
    return one :: more

def includeGuard (headerPath : String) : String :=
  Text.UpperCase.upper (headerPath.map fun c => if c == '/' || c == '.' then '_' else c) ++ "_"

def headerLines (m : Module) (headerPath : String) (body : List DeclLine) : List Line :=
  let guard := includeGuard headerPath
  let className := m.className
  [Line.flat ("#ifndef " ++ guard), .flat ("#define " ++ guard), .flat "",
    .flat "#include <array>", .flat "#include <cstddef>", .flat "#include <cstdint>",
    .flat "#include <cstring>", .flat "#include <vector>", .flat "",
    .flat "#include \"base/component_export.h\"", .flat "#include \"ui/gfx/x/xproto_types.h\""] ++
  m.imports.map (fun i => Line.flat ("#include \"" ++ i.header ++ ".h\"")) ++
  [Line.flat "", .flat "typedef struct _XDisplay XDisplay;", .flat "", .flat "namespace x11 \x7b",
    .flat ""] ++
  (undefLines className).map DeclLine.line ++
  [Line.opens ("class COMPONENT_EXPORT(X11) " ++ className ++ " \x7b"), .flat "public:",
    .flat ("explicit " ++ className ++ "(XDisplay* display);"), .flat "",
    .flat "XDisplay* display() \x7b return display_; \x7d", .flat ""] ++
  body.map DeclLine.line ++
  [Line.flat "private:", .flat "XDisplay* const display_;", .closes "\x7d;", .flat "",
    .flat "\x7d  // namespace x11", .flat "", .flat ("#endif  // " ++ guard)]

def encoderLines (className : String) (code : RequestCode) : List Line :=
  let method := className ++ "::" ++ code.request.name.last
  let reply := if code.request.reply.isSome then method ++ "Reply" else "void"
  [Line.flat ("Future<" ++ reply ++ ">"), .flat (method ++ "("),
    .opens ("    const " ++ method ++ "Request& request) \x7b"), .flat "WriteBuffer buf;", .flat ""] ++
  code.encoder.map Stmt.line ++
  [Line.flat ("return x11::SendRequest<" ++ reply ++ ">(display_, &buf);"), .closes "\x7d", .flat ""]

def decoderLines (className : String) (code : RequestCode) (decoder : List Stmt) : List Line :=
  let reply := className ++ "::" ++ code.request.name.last ++ "Reply"
  [Line.flat "template<> COMPONENT_EXPORT(X11)", .flat ("std::unique_ptr<" ++ reply ++ ">"),
    .opens ("detail::ReadReply<" ++ reply ++ ">(const uint8_t* buffer) \x7b"),
    .flat "ReadBuffer buf\x7bbuffer, 0UL\x7d;",
    .flat ("auto reply = std::make_unique<" ++ reply ++ ">();"), .flat ""] ++
  decoder.map Stmt.line ++
  [Line.flat "Align(&buf, 4);", .flat "DCHECK_EQ(buf.offset < 32 ? 0 : buf.offset - 32, 4 * length);",
    .flat "", .flat "return reply;", .closes "\x7d", .flat ""]

def RequestCode.lines (className : String) (code : RequestCode) : List Line :=
  encoderLines className code ++
    match code.decoder with
    | some decoder => decoderLines className code decoder
    | none => []

def sourceLines (m : Module) (codes : List RequestCode) : List Line :=
  let className := m.className
  [Line.flat ("#include \"" ++ m.header ++ ".h\""), .flat "", .flat "#include <xcb/xcb.h>",
    .flat "#include <xcb/xcbext.h>", .flat "", .flat "#include \"base/logging.h\"",
    .flat "#include \"ui/gfx/x/xproto_internal.h\"", .flat "", .flat "namespace x11 \x7b", .flat "",
    .flat (className ++ "::" ++ className ++ "(XDisplay* display) : display_(display) \x7b\x7d"),
    .flat ""] ++
  codes.flatMap (·.lines className) ++ [Line.flat "\x7d  // namespace x11"]

structure Artifacts where
  header : String
  source : String
deriving DecidableEq, Repr

def defaultHeaderPath (m : Module) (headerPath : String) : String :=
  if headerPath == "" then m.header ++ ".h" else headerPath

def emitHeader (m : Module) (headerPath : String) : Emission String := do
  let body ← emitDecls m.className m.decls
  return render (headerLines m (defaultHeaderPath m headerPath) body)

def emitSource (m : Module) : Emission String := do
  let codes ← compileRequests m.className m.requests
  return render (sourceLines m codes)

/-- Both artifacts of a module, written in one run that numbers all temporaries. The header path
decides the include guard; without one it is made from the name of the module. -/
def generate (m : Module) (headerPath : String) : Except Fault Artifacts :=
  alone do
    let header ← emitHeader m headerPath
    let source ← emitSource m
    return ⟨header, source⟩

def generateLog (m : Module) (headerPath : String) : List LogEvent :=
  (declareAll m.className m.decls).1.map .declared ++
    match generate m headerPath with
    | .ok a =>
      [.generated m.header m.className a.header.utf8ByteSize a.source.utf8ByteSize]
    | .error _ => []

end CodecGen.Emit
