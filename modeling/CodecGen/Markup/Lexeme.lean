import CodecGen.Markup.Fault
import CodecGen.Markup.Name
set_option autoImplicit false
/-!
The tags and texts of a document, read byte by byte. The reader is a machine with one step for
each byte: `Mode` says what construct the byte continues, and `step` says what becomes of it.
Comments, processing instructions and directives are read to their end and leave nothing behind.
-/
namespace CodecGen.Markup
open Text

structure TagAttribute where
  name : QName
  value : String
deriving DecidableEq, Repr, Inhabited

inductive Lexeme where
  | openTag (start : Nat) (name : QName) (attrs : List TagAttribute) (closed : Bool)
  | closeTag (name : QName)
  | text (cs : List Char)
deriving DecidableEq, Repr

structure Placed where
  lexeme : Lexeme
  stop : Nat
  line : Nat
deriving DecidableEq, Repr

structure Tag where
  start : Nat
  name : QName
  attrs : List TagAttribute := []
deriving DecidableEq, Repr

def Tag.lexeme (t : Tag) (closed : Bool) : Lexeme := .openTag t.start t.name t.attrs.reverse closed

inductive Place where
  | content
  | cdata
  | value (quote : UInt8) (tag : Tag) (attr : QName)
deriving DecidableEq, Repr

/-- Character data read so far, newest byte first, and the last two source bytes since the
beginning or the last reference. -/
structure Run where
  bytes : Bytes := []
  before : UInt8 := 0
  last : UInt8 := 0
deriving DecidableEq, Repr

inductive Form where
  | unknown
  | hash
  | number (base : Nat) (value : Option Nat)
  | name
deriving DecidableEq, Repr

inductive Mode where
  | text (place : Place) (run : Run)
  | reference (place : Place) (run : Run) (raw : Bytes) (form : Form)
  | less (start : Nat)
  | closeName (seen : Bytes)
  | closeEnd (name : QName)
  | targetName (seen : Bytes)
  | targetSpace (target : List Char)
  | instruction (target : List Char) (body : Bytes) (last : UInt8)
  | bang
  | bangDash
  | comment (before last : UInt8)
  | cdataMark (todo : Bytes)
  | directive (quote : Option UInt8) (depth : Nat)
  | directiveMark (depth : Nat) (todo : Bytes)
  | directiveComment (depth : Nat) (before last : UInt8)
  | openName (start : Nat) (seen : Bytes)
  | tagBody (tag : Tag)
  | tagSlash (tag : Tag)
  | attrName (tag : Tag) (seen : Bytes)
  | attrEquals (tag : Tag) (attr : QName)
  | attrQuote (tag : Tag) (attr : QName)
deriving DecidableEq, Repr

def Mode.content : Mode := .text .content {}

/-- What becomes of one byte. A byte that was given back does not count for the place of the
fault. -/
inductive Step where
  | next (mode : Mode)
  | out (lexeme : Lexeme) (mode : Mode)
  | fail (givenBack : Bool) (cause : Cause)
deriving DecidableEq, Repr

def isSpace (b : UInt8) : Bool :=
  b == ' '.toUInt8 || b == '\r'.toUInt8 || b == '\n'.toUInt8 || b == '\t'.toUInt8

def isQuote (b : UInt8) : Bool := b == '"'.toUInt8 || b == '\''.toUInt8

def isLegal (c : Char) : Bool :=
  (0x20 ≤ c.val && c.val ≤ 0xd7ff) || c.val == 0x09 || c.val == 0x0a || c.val == 0x0d ||
    (0xe000 ≤ c.val && c.val ≤ 0xfffd) || 0x10000 ≤ c.val

def characters (bytes : Bytes) : Except Cause (List Char) :=
  let cs := Utf8.decode bytes.reverse
  match cs.find? fun c => !isLegal c with
  | some c => .error (.illegalCharacter c)
  | none => .ok cs

namespace Run

def push (r : Run) (b : UInt8) : Run where
  -- CR, LF and both in a row end a line, which is always written as LF
  bytes :=
    if b == '\r'.toUInt8 then '\n'.toUInt8 :: r.bytes
    else if r.last == '\r'.toUInt8 && b == '\n'.toUInt8 then r.bytes
    else b :: r.bytes
  before := r.last
  last := b

def pushChar (r : Run) (c : Char) : Run where
  bytes := (Utf8.encodeChar c).reverse ++ r.bytes

def endsCData (r : Run) (b : UInt8) : Bool :=
  r.before == ']'.toUInt8 && r.last == ']'.toUInt8 && b == '>'.toUInt8

end Run

def name? (absent : Cause) (seen : Bytes) : Except Cause (List Char) :=
  if seen.isEmpty then .error absent
  else
    let cs := Utf8.decode seen.reverse
    if isName cs then .ok cs else .error (.invalidName (String.ofList cs))

def qname? (absent : Cause) (seen : Bytes) : Except Cause QName :=
  match name? absent seen with
  | .error c => .error c
  | .ok cs =>
    match QName.ofChars? cs with
    | some q => .ok q
    | none => .error absent

def entity? (name : String) : Option Char :=
  [("lt", '<'), ("gt", '>'), ("amp", '&'), ("apos", '\''), ("quot", '"')].lookup name

def numbered? (value : Nat) : Option Char :=
  if 0x10ffff < value then none
  else if 0xd800 ≤ value && value ≤ 0xdfff then some Utf8.replacement
  else some (Char.ofNat value)

def digitIn? (base : Nat) (b : UInt8) : Option Nat :=
  if 48 ≤ b && b ≤ 57 then some (b.toNat - 48)
  else if base == 16 && 97 ≤ b && b ≤ 102 then some (b.toNat - 87)
  else if base == 16 && 65 ≤ b && b ≤ 70 then some (b.toNat - 55)
  else none

def addDigit (base : Nat) (value : Option Nat) (d : Nat) : Nat :=
  -- beyond the last code point the exact value does not matter
  min (value.getD 0 * base + d) 0x110000

def rawText (raw : Bytes) : String := String.ofList (Utf8.decode raw.reverse)

def endReference (place : Place) (run : Run) (raw : Bytes) (char? : Option Char) : Step :=
  match char? with
  | some c => .next (.text place (run.pushChar c))
  | none => .fail false (.invalidEntity (rawText (';'.toUInt8 :: raw)))

def referenceName (place : Place) (run : Run) (raw : Bytes) (b : UInt8) : Step :=
  if isNameByte b then .next (.reference place run (b :: raw) .name)
  else if b == ';'.toUInt8 then
    endReference place run raw (entity? (String.ofList ((Utf8.decode raw.reverse).drop 1)))
  else .fail true (.invalidEntity (rawText raw))

def referenceNumber (place : Place) (run : Run) (raw : Bytes) (base : Nat) (value : Option Nat)
    (b : UInt8) : Step :=
  match digitIn? base b with
  | some d => .next (.reference place run (b :: raw) (.number base (some (addDigit base value d))))
  | none =>
    if b == ';'.toUInt8 then endReference place run raw (value.bind numbered?)
    else .fail true (.invalidEntity (rawText raw))

def referenceStep (place : Place) (run : Run) (raw : Bytes) (form : Form) (b : UInt8) : Step :=
  match form with
  | .unknown =>
    if b == '#'.toUInt8 then .next (.reference place run (b :: raw) .hash)
    else referenceName place run raw b
  | .hash =>
    if b == 'x'.toUInt8 then .next (.reference place run (b :: raw) (.number 16 none))
    else referenceNumber place run raw 10 none b
  | .number base value => referenceNumber place run raw base value b
  | .name => referenceName place run raw b

def startReference (place : Place) (run : Run) : Step :=
  .next (.reference place run ['&'.toUInt8] .unknown)

def contentStep (offset : Nat) (run : Run) (b : UInt8) : Step :=
  if run.endsCData b then .fail false .unescapedCDataEnd
  else if b == '<'.toUInt8 then
    match characters run.bytes with
    | .error c => .fail true c
    | .ok [] => .next (.less offset)
    | .ok cs => .out (.text cs) (.less offset)
  else if b == '&'.toUInt8 then startReference .content run
  else .next (.text .content (run.push b))

def cdataStep (run : Run) (b : UInt8) : Step :=
  if run.endsCData b then
    match characters (run.bytes.drop 2) with
    | .error c => .fail false c
    | .ok cs => .out (.text cs) .content
  else .next (.text .cdata (run.push b))

def valueStep (quote : UInt8) (tag : Tag) (attr : QName) (run : Run) (b : UInt8) : Step :=
  if b == '<'.toUInt8 then .fail false .unescapedLess
  else if b == quote then
    match characters run.bytes with
    | .error c => .fail false c
    | .ok cs => .next (.tagBody { tag with attrs := ⟨attr, String.ofList cs⟩ :: tag.attrs })
  else if b == '&'.toUInt8 then startReference (.value quote tag attr) run
  else .next (.text (.value quote tag attr) (run.push b))

def textStep (offset : Nat) (place : Place) (run : Run) (b : UInt8) : Step :=
  match place with
  | .content => contentStep offset run b
  | .cdata => cdataStep run b
  | .value quote tag attr => valueStep quote tag attr run b

def attrQuoteStep (tag : Tag) (attr : QName) (b : UInt8) : Step :=
  if isSpace b then .next (.attrQuote tag attr)
  else if isQuote b then .next (.text (.value b tag attr) {})
  else .fail false .unquotedValue

def attrEqualsStep (tag : Tag) (attr : QName) (b : UInt8) : Step :=
  if isSpace b then .next (.attrEquals tag attr)
  else if b == '='.toUInt8 then .next (.attrQuote tag attr)
  else .fail false .attributeWithoutValue

def attrNameStep (tag : Tag) (seen : Bytes) (b : UInt8) : Step :=
  if isNameByte b then .next (.attrName tag (b :: seen))
  else match qname? .expectedAttributeName seen with
    | .error c => .fail true c
    | .ok attr => attrEqualsStep tag attr b

def tagBodyStep (tag : Tag) (b : UInt8) : Step :=
  if isSpace b then .next (.tagBody tag)
  else if b == '/'.toUInt8 then .next (.tagSlash tag)
  else if b == '>'.toUInt8 then .out (tag.lexeme false) .content
  else attrNameStep tag [] b

def tagSlashStep (tag : Tag) (b : UInt8) : Step :=
  if b == '>'.toUInt8 then .out (tag.lexeme true) .content
  else .fail false .expectedSlashClose

def openNameStep (start : Nat) (seen : Bytes) (b : UInt8) : Step :=
  if isNameByte b then .next (.openName start (b :: seen))
  else match qname? .expectedElementName seen with
    | .error c => .fail true c
    | .ok name => tagBodyStep ⟨start, name, []⟩ b

def closeEndStep (name : QName) (b : UInt8) : Step :=
  if isSpace b then .next (.closeEnd name)
  else if b == '>'.toUInt8 then .out (.closeTag name) .content
  else .fail false (.strayInClose name.tag)

def closeNameStep (seen : Bytes) (b : UInt8) : Step :=
  if isNameByte b then .next (.closeName (b :: seen))
  else match qname? .expectedCloseName seen with
    | .error c => .fail true c
    | .ok name => closeEndStep name b

/-- The value of a setting `key="value"` in a declaration. An occurrence of the key that no quote
follows is passed over together with the byte after it. -/
def settingFrom (key : Bytes) : (skip : Nat) → Bytes → Bytes
  | _, [] => []
  | skip + 1, _ :: r => settingFrom key skip r
  | 0, b :: r =>
    if key.isPrefixOf (b :: r) then
      match (b :: r).drop key.length with
      | [] => []
      | q :: rest =>
        if isQuote q then (if rest.contains q then rest.takeWhile (· != q) else [])
        else settingFrom key key.length r
    else settingFrom key 0 r

def setting (key : String) (body : Bytes) : String :=
  String.ofList (Utf8.decode (settingFrom (Utf8.encode key) 0 body))

def declarationFault? (body : Bytes) : Option Cause :=
  let version := setting "version=" body
  let encoding := setting "encoding=" body
  if version != "" && version != "1.0" then some (.unsupportedVersion version)
  else if encoding != "" && encoding.map Char.toLower != "utf-8" then
    some (.unsupportedEncoding encoding)
  else none

def instructionStep (target : List Char) (body : Bytes) (last b : UInt8) : Step :=
  if last == '?'.toUInt8 && b == '>'.toUInt8 then
    match if target == "xml".toList then declarationFault? (body.drop 1).reverse else none with
    | some c => .fail false c
    | none => .next .content
  else .next (.instruction target (b :: body) b)

def targetSpaceStep (target : List Char) (b : UInt8) : Step :=
  if isSpace b then .next (.targetSpace target) else instructionStep target [] 0 b

def targetNameStep (seen : Bytes) (b : UInt8) : Step :=
  if isNameByte b then .next (.targetName (b :: seen))
  else match name? .expectedTarget seen with
    | .error c => .fail true c
    | .ok target => targetSpaceStep target b

def bangStep (b : UInt8) : Step :=
  if b == '-'.toUInt8 then .next .bangDash
  else if b == '['.toUInt8 then .next (.cdataMark (Utf8.encode "CDATA["))
  else .next (.directive none 0)

def bangDashStep (b : UInt8) : Step :=
  if b == '-'.toUInt8 then .next (.comment 0 0) else .fail false .brokenComment

def commentStep (before last b : UInt8) : Step :=
  if before == '-'.toUInt8 && last == '-'.toUInt8 then
    if b == '>'.toUInt8 then .next .content else .fail false .dashesInComment
  else .next (.comment last b)

def cdataMarkStep (todo : Bytes) (b : UInt8) : Step :=
  match todo with
  | [] => .fail false .brokenCData
  | c :: rest =>
    if b != c then .fail false .brokenCData
    else if rest.isEmpty then .next (.text .cdata {})
    else .next (.cdataMark rest)

def directiveByte (depth : Nat) (b : UInt8) : Step :=
  if isQuote b then .next (.directive (some b) depth)
  else if b == '>'.toUInt8 then .next (.directive none (depth - 1))
  else if b == '<'.toUInt8 then .next (.directiveMark depth (Utf8.encode "!--"))
  else .next (.directive none depth)

def directiveStep (quote : Option UInt8) (depth : Nat) (b : UInt8) : Step :=
  match quote with
  | some q => .next (.directive (if b == q then none else some q) depth)
  | none => if b == '>'.toUInt8 && depth == 0 then .next .content else directiveByte depth b

def directiveMarkStep (depth : Nat) (todo : Bytes) (b : UInt8) : Step :=
  match todo with
  | [] => directiveByte (depth + 1) b
  | c :: rest =>
    if b != c then directiveByte (depth + 1) b
    else if rest.isEmpty then .next (.directiveComment depth 0 0)
    else .next (.directiveMark depth rest)

def directiveCommentStep (depth : Nat) (before last b : UInt8) : Step :=
  if before == '-'.toUInt8 && last == '-'.toUInt8 && b == '>'.toUInt8 then
    .next (.directive none depth)
  else .next (.directiveComment depth last b)

def lessStep (start : Nat) (b : UInt8) : Step :=
  if b == '/'.toUInt8 then .next (.closeName [])
  else if b == '?'.toUInt8 then .next (.targetName [])
  else if b == '!'.toUInt8 then .next .bang
  else openNameStep start [] b

def step (offset : Nat) (mode : Mode) (b : UInt8) : Step :=
  match mode with
  | .text place run => textStep offset place run b
  | .reference place run raw form => referenceStep place run raw form b
  | .less start => lessStep start b
  | .closeName seen => closeNameStep seen b
  | .closeEnd name => closeEndStep name b
  | .targetName seen => targetNameStep seen b
  | .targetSpace target => targetSpaceStep target b
  | .instruction target body last => instructionStep target body last b
  | .bang => bangStep b
  | .bangDash => bangDashStep b
  | .comment before last => commentStep before last b
  | .cdataMark todo => cdataMarkStep todo b
  | .directive quote depth => directiveStep quote depth b
  | .directiveMark depth todo => directiveMarkStep depth todo b
  | .directiveComment depth before last => directiveCommentStep depth before last b
  | .openName start seen => openNameStep start seen b
  | .tagBody tag => tagBodyStep tag b
  | .tagSlash tag => tagSlashStep tag b
  | .attrName tag seen => attrNameStep tag seen b
  | .attrEquals tag attr => attrEqualsStep tag attr b
  | .attrQuote tag attr => attrQuoteStep tag attr b

/-- What the end of the document makes of the construct it falls into: text that was being read,
or a fault. -/
def Mode.finish : Mode → Except Cause (List Char)
  | .text .content run => characters run.bytes
  | .text .cdata _ => .error .endInCData
  | .text (.value ..) run =>
    match characters run.bytes with
    | .error c => .error c
    | .ok _ => .error .unexpectedEnd
  | _ => .error .unexpectedEnd

structure Reading where
  lexemes : List Placed
  offset : Nat
  line : Nat
  cause? : Option Cause
deriving DecidableEq, Repr

def nextLine (line : Nat) (b : UInt8) : Nat := if b == '\n'.toUInt8 then line + 1 else line

def readFrom (mode : Mode) (offset line : Nat) (out : List Placed) : Bytes → Reading
  | [] =>
    match mode.finish with
    | .error c => ⟨out.reverse, offset, line, some c⟩
    | .ok [] => ⟨out.reverse, offset, line, none⟩
    | .ok cs => ⟨(⟨.text cs, offset, line⟩ :: out).reverse, offset, line, none⟩
  | b :: rest =>
    match step offset mode b with
    | .next mode => readFrom mode (offset + 1) (nextLine line b) out rest
    | .out lexeme mode =>
      readFrom mode (offset + 1) (nextLine line b) (⟨lexeme, offset + 1, nextLine line b⟩ :: out) rest
    | .fail true c => ⟨out.reverse, offset, line, some c⟩
    | .fail false c => ⟨out.reverse, offset + 1, nextLine line b, some c⟩

def read (src : Bytes) : Reading := readFrom .content 0 1 [] src

end CodecGen.Markup
