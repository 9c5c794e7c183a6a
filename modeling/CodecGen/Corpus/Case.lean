import CodecGen.Corpus.Block
import CodecGen.Files.Tree
import CodecGen.Text.Quoted
set_option autoImplicit false
/-!
Test cases written as Markdown. A heading that starts with `Test: ` opens a case; the fenced blocks
after it are its protocol description and what is expected of it.
-/
namespace CodecGen.Corpus
open Files

/-- A protocol description with parts of the header and the source it leads to, or with an error. -/
structure Case where
  name : String
  line : Nat
  input : String := ""
  header : List String := []
  source : List String := []
  error : String := ""
deriving DecidableEq, Repr

inductive CaseFault where
  | noInput (line : Nat) (name : String)
  | noExpectations (line : Nat) (name : String)
  | outside (line : Nat) (language : String)
  | secondInput (line : Nat) (name : String)
  | unknownLanguage (line : Nat) (language name : String)
deriving DecidableEq, Repr

namespace CaseFault

def line : CaseFault → Nat
  | noInput n _ | noExpectations n _ | outside n _ | secondInput n _ | unknownLanguage n _ _ => n

def text : CaseFault → String
  | noInput _ name => "test " ++ Text.Quoted.quote name ++ " has no xml fence"
  | noExpectations _ name => "test " ++ Text.Quoted.quote name ++ " has no expectations"
  | outside _ language => language ++ " fence outside of a test"
  | secondInput _ name => "test " ++ Text.Quoted.quote name ++ " has more than one xml fence"
  | unknownLanguage _ language name =>
    "unknown fence language " ++ Text.Quoted.quote language ++ " in test " ++ Text.Quoted.quote name

def message (file : String) (f : CaseFault) : String :=
  file ++ ":" ++ toString f.line ++ ": " ++ f.text

end CaseFault

def testName? (heading : String) : Option String :=
  if "Test: ".toList.isPrefixOf heading.toList then
    some (Text.Blank.trim (String.ofList (heading.toList.drop 6)))
  else none

namespace Case

/-- A case is complete when it has an input and expects something. -/
def finish (c : Case) : Except CaseFault Case :=
  if c.input == "" then .error (.noInput c.line c.name)
  else if c.header.isEmpty && c.source.isEmpty && c.error == "" then
    .error (.noExpectations c.line c.name)
  else .ok c

def addFence (c : Case) (language content : String) (line : Nat) : Except CaseFault Case :=
  match language with
  | "xml" =>
    -- an empty description does not count as one
    if c.input == "" then .ok { c with input := content } else .error (.secondInput line c.name)
  | "h" => .ok { c with header := c.header ++ [content] }
  | "cc" => .ok { c with source := c.source ++ [content] }
  | "error" => .ok { c with error := Text.Blank.trim content }
  | _ => .error (.unknownLanguage line language c.name)

end Case

def casesFrom : Option Case → List Block → Except CaseFault (List Case)
  | none, [] => .ok []
  | some c, [] => do return [← c.finish]
  | current, .heading text line :: rest =>
    match testName? text, current with
    | none, _ => casesFrom current rest
    | some name, none => casesFrom (some { name, line }) rest
    | some name, some c => do
      let done ← c.finish
      return done :: (← casesFrom (some { name, line }) rest)
  | none, .fence language _ line :: rest =>
    -- before the first test only blocks without a language may stand
    if language == "" then casesFrom none rest else .error (.outside line language)
  | some c, .fence language content line :: rest => do
    casesFrom (some (← c.addFence language content line)) rest

def cases (src : Bytes) : Except CaseFault (List Case) := casesFrom none (blocks src)

inductive CorpusFault where
  | unreadable (fault : ReadFault)
  | badCase (file : String) (fault : CaseFault)
deriving DecidableEq, Repr

def CorpusFault.message : CorpusFault → String
  | .unreadable fault => fault.message
  | .badCase file fault => fault.message file

def fileNames (tree : Tree) : List String :=
  (tree.entries.filterMap fun (place, _) =>
    match place with
    | [name] => if ".md".toList.isSuffixOf name.toList then some name else none
    | _ => none).mergeSort

def casesOf (tree : Tree) (file : String) : Except CorpusFault (List (String × Case)) :=
  match tree.read file with
  | .error fault => .error (.unreadable fault)
  | .ok src =>
    match cases src with
    | .error fault => .error (.badCase file fault)
    | .ok found => .ok (found.map (file, ·))

def loadCases (tree : Tree) : Except CorpusFault (List (String × Case)) := do
  return (← (fileNames tree).mapM (casesOf tree)).flatten

end CodecGen.Corpus
