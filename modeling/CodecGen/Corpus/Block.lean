import CodecGen.Text.Utf8
set_option autoImplicit false
/-!
The headings and fenced blocks of a Markdown text. All other lines are passed over.
-/
namespace CodecGen.Corpus

/-- A heading and its line, or a fenced block and the line of its first content line; a block
without content counts as being on line one. -/
inductive Block where
  | heading (text : String) (line : Nat)
  | fence (language content : String) (line : Nat)
deriving DecidableEq, Repr

def splitLines : List Char → List (List Char)
  | [] => []
  | c :: rest =>
    if c == '\n' then [] :: splitLines rest
    else match splitLines rest with
      | [] => [[c]]
      | line :: lines => (c :: line) :: lines

def trimSpaces (cs : List Char) : List Char :=
  ((cs.dropWhile (· == ' ')).reverse.dropWhile (· == ' ')).reverse

def indentation (line : List Char) : Nat := (line.takeWhile (· == ' ')).length

def unindent? (line : List Char) : Option (List Char) :=
  if indentation line ≤ 3 then some (line.dropWhile (· == ' ')) else none

def dropClosing (cs : List Char) : List Char :=
  let before := cs.reverse.dropWhile (· == '#')
  if before.isEmpty || before.head? == some ' ' then before.reverse else cs

def headingText? (line : List Char) : Option String := do
  let rest ← unindent? line
  let marks := (rest.takeWhile (· == '#')).length
  let text := rest.drop marks
  if 1 ≤ marks && marks ≤ 6 && (text.isEmpty || text.head? == some ' ') then
    some (String.ofList (trimSpaces (dropClosing (trimSpaces text))))
  else none

structure Fence where
  mark : Char
  size : Nat
  indent : Nat
  language : String
deriving DecidableEq, Repr

/-- The fence that a line opens: three or more of one mark, then the words about its content. After
backticks these hold no backtick. -/
def openFence? (line : List Char) : Option Fence := do
  let rest ← unindent? line
  let mark ← rest.head?
  let size := (rest.takeWhile (· == mark)).length
  let info := trimSpaces (rest.drop size)
  if (mark == '`' || mark == '~') && 3 ≤ size && !(mark == '`' && info.contains '`') then
    some ⟨mark, size, indentation line, String.ofList (info.takeWhile (· != ' '))⟩
  else none

namespace Fence

def closes (f : Fence) (line : List Char) : Bool :=
  match unindent? line with
  | none => false
  | some rest =>
    -- at least as many marks as the opening had, and nothing but spaces behind them
    f.size ≤ (rest.takeWhile (· == f.mark)).length &&
      (rest.dropWhile (· == f.mark)).all (· == ' ')

/-- A content line without as much indentation as the opening had, and with its end. A line of
nothing but spaces that has fewer than the opening keeps them. -/
def contentLine (f : Fence) (line : List Char) : List Char :=
  if line.all (· == ' ') && line.length < f.indent then line ++ ['\n']
  else line.drop (min f.indent (indentation line)) ++ ['\n']

end Fence

structure OpenBlock where
  fence : Fence
  firstLine : Nat
  content : List Char := []

def OpenBlock.close (b : OpenBlock) : Block :=
  .fence b.fence.language (String.ofList b.content) (if b.content.isEmpty then 1 else b.firstLine)

def blocksFrom : Nat → Option OpenBlock → List (List Char) → List Block
  | _, none, [] => []
  | _, some b, [] => [b.close]
  | n, some b, line :: rest =>
    if b.fence.closes line then b.close :: blocksFrom (n + 1) none rest
    else blocksFrom (n + 1) (some { b with content := b.content ++ b.fence.contentLine line }) rest
  | n, none, line :: rest =>
    match openFence? line with
    | some fence => blocksFrom (n + 1) (some ⟨fence, n + 1, []⟩) rest
    | none =>
      match headingText? line with
      | some text => .heading text n :: blocksFrom (n + 1) none rest
      | none => blocksFrom (n + 1) none rest

def blocks (src : Bytes) : List Block := blocksFrom 1 none (splitLines (Text.Utf8.decode src))

end CodecGen.Corpus
