import CodecGen.Text.Quoted
set_option autoImplicit false
/-!
What can be wrong with the markup of a document, and where.
-/
namespace CodecGen.Markup

inductive Cause where
  | unexpectedEnd
  | endInCData
  | expectedElementName
  | expectedSlashClose
  | expectedAttributeName
  | attributeWithoutValue
  | unquotedValue
  | expectedCloseName
  | strayInClose (tag : String)
  | expectedTarget
  | unsupportedVersion (version : String)
  | unsupportedEncoding (encoding : String)
  | brokenComment
  | dashesInComment
  | brokenCData
  | invalidName (name : String)
  | unescapedCDataEnd
  | unescapedLess
  | invalidEntity (raw : String)
  | illegalCharacter (c : Char)
  | unexpectedClose (tag : String)
  | mismatchedClose (opened closed : String)
  | mismatchedSpace (tag openedIn closedIn : String)
deriving DecidableEq, Repr

structure Fault where
  offset : Nat
  line : Nat
  cause : Cause
deriving DecidableEq, Repr

def codePoint (c : Char) : String :=
  let digits := (Nat.toDigits 16 c.toNat).map Char.toUpper
  "U+" ++ String.ofList (List.replicate (4 - digits.length) '0' ++ digits)

namespace Cause

def isDeclaration : Cause → Bool
  | unsupportedVersion _ | unsupportedEncoding _ => true
  | _ => false

def text : Cause → String
  | unexpectedEnd => "unexpected EOF"
  | endInCData => "unexpected EOF in CDATA section"
  | expectedElementName => "expected element name after <"
  | expectedSlashClose => "expected /> in element"
  | expectedAttributeName => "expected attribute name in element"
  | attributeWithoutValue => "attribute name without = in element"
  | unquotedValue => "unquoted or missing attribute value in element"
  | expectedCloseName => "expected element name after </"
  | strayInClose tag => "invalid characters between </" ++ tag ++ " and >"
  | expectedTarget => "expected target name after <?"
  | unsupportedVersion version =>
    "xml: unsupported version " ++ Text.Quoted.quote version ++ "; only version 1.0 is supported"
  | unsupportedEncoding encoding =>
    "xml: encoding " ++ Text.Quoted.quote encoding ++ " declared but Decoder.CharsetReader is nil"
  | brokenComment => "invalid sequence <!- not part of <!--"
  | dashesInComment => "invalid sequence \"--\" not allowed in comments"
  | brokenCData => "invalid <![ sequence"
  | invalidName name => "invalid XML name: " ++ name
  | unescapedCDataEnd => "unescaped ]]> not in CDATA section"
  | unescapedLess => "unescaped < inside quoted string"
  | invalidEntity raw =>
    "invalid character entity " ++ raw ++
      (if raw.toList.getLast? == some ';' then "" else " (no semicolon)")
  | illegalCharacter c => "illegal character code " ++ codePoint c
  | unexpectedClose tag => "unexpected end element </" ++ tag ++ ">"
  | mismatchedClose opened closed => "element <" ++ opened ++ "> closed by </" ++ closed ++ ">"
  | mismatchedSpace tag openedIn closedIn =>
    "element <" ++ tag ++ "> in space " ++ openedIn ++ " closed by </" ++ tag ++ "> in space " ++
      (if closedIn == "" then "\"\"" else closedIn)

end Cause

def Fault.message (f : Fault) : String :=
  if f.cause.isDeclaration then f.cause.text
  else "XML syntax error on line " ++ toString f.line ++ ": " ++ f.cause.text

end CodecGen.Markup
