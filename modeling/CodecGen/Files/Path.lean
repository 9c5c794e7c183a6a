set_option autoImplicit false
/-!
File paths as text: their parts, their shortest spelling, and how they are put together. Nothing
here looks at the files.
-/
namespace CodecGen.Files.Path

def splitChars : List Char → List (List Char)
  | [] => [[]]
  | c :: r =>
    if c == '/' then [] :: splitChars r
    else match splitChars r with
      | [] => [[c]]
      | part :: parts => (c :: part) :: parts

def parts (path : String) : List String := (splitChars path.toList).map String.ofList

def isRooted (path : String) : Bool := path.toList.head? == some '/'

def takePart (rooted : Bool) (taken : List String) (part : String) : List String :=
  if part == "" || part == "." then taken
  else if part == ".." then
    -- a `..` takes back the part before it; above the root there is nothing
    match taken with
    | [] => if rooted then [] else [".."]
    | last :: before => if last == ".." then ".." :: taken else before
  else part :: taken

/-- The shortest spelling of a path: no empty part, no `.`, and `..` only at the front. -/
def clean (path : String) : String :=
  let text := "/".intercalate ((parts path).foldl (takePart (isRooted path)) []).reverse
  if isRooted path then "/" ++ text else if text == "" then "." else text

def join (elements : List String) : String :=
  match elements.filter (· != "") with
  | [] => ""
  | present => clean ("/".intercalate present)

def dir (path : String) : String :=
  clean (String.ofList (path.toList.reverse.dropWhile (· != '/')).reverse)

def base (path : String) : String :=
  if path == "" then "."
  else match path.toList.reverse.dropWhile (· == '/') with
    | [] => "/"
    | rest => String.ofList (rest.takeWhile (· != '/')).reverse

end CodecGen.Files.Path
