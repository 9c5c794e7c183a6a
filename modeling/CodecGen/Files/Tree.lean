import CodecGen.Files.Path
import CodecGen.Source
set_option autoImplicit false
/-!
A file tree seen from a working directory, and what a path leads to in it. A path is followed part
by part: every part before the last has to be a directory that exists.
-/
namespace CodecGen.Files

inductive Entry where
  | file (content : Bytes)
  | directory
deriving DecidableEq, Repr

/-- A place in the tree: the parts that lead to it from the working directory. A place above starts
with `..` parts and a place under the root with `/`. -/
abbrev Location := List String

inductive PathFault where
  | missing
  | notDirectory
deriving DecidableEq, Repr

def PathFault.text : PathFault → String
  | .missing => "no such file or directory"
  | .notDirectory => "not a directory"

/-- The entries of the tree below the working directory. The working directory itself, the
directories above it and the root are always there. -/
structure Tree where
  entries : List (Location × Entry) := []
deriving DecidableEq, Repr

namespace Location

def parent (place : Location) : Location :=
  if place == ["/"] then place
  else match place.getLast? with
    | none => [".."]
    | some last => if last == ".." then place ++ [".."] else place.dropLast

def isGiven (place : Location) : Bool := place == ["/"] || place.all (· == "..")

def isInside (place : Location) : Bool :=
  match place with
  | [] => true
  | first :: _ => first != "/" && first != ".."

end Location

namespace Tree

def entry? (tree : Tree) (place : Location) : Option Entry :=
  if Location.isGiven place then some .directory else tree.entries.lookup place

def isDirectory (tree : Tree) (place : Location) : Bool := tree.entry? place == some .directory

def put (tree : Tree) (place : Location) (entry : Entry) : Tree :=
  ⟨tree.entries.filter (·.1 != place) ++ [(place, entry)]⟩

def erase (tree : Tree) (place : Location) : Tree := ⟨tree.entries.filter (·.1 != place)⟩

def follow (tree : Tree) (place : Location) (part : String) : Except PathFault Location :=
  match tree.entry? place with
  | none => .error .missing
  | some (.file _) => .error .notDirectory
  | some .directory =>
    if part == "" || part == "." then .ok place
    else if part == ".." then .ok place.parent
    else .ok (place ++ [part])

/-- The place that a path leads to. All of its parts but the last have been checked to exist; there
may be nothing at the place itself. -/
def reach (tree : Tree) (path : String) : Except PathFault Location :=
  if path == "" then .error .missing
  else (Path.parts path).foldlM tree.follow (if Path.isRooted path then ["/"] else [])

def find (tree : Tree) (path : String) : Except PathFault (Location × Entry) := do
  let place ← tree.reach path
  match tree.entry? place with
  | none => .error .missing
  | some entry => .ok (place, entry)

def holds (tree : Tree) (path : String) : Bool := (tree.find path).toBool

def addEntry (entry : Entry) : Tree → Location → List String → Tree
  | tree, _, [] => tree
  | tree, place, [last] => tree.put (place ++ [last]) entry
  | tree, place, part :: rest =>
    let next := place ++ [part]
    -- directories on the way are added with the entry
    addEntry entry (if (tree.entry? next).isSome then tree else tree.put next .directory) next rest

def ofEntries (entries : List (String × Entry)) : Tree :=
  entries.foldl (fun t e => addEntry e.2 t [] ((Path.parts e.1).filter (· != ""))) {}

def files (tree : Tree) : List (Location × Bytes) :=
  tree.entries.filterMap fun (place, entry) =>
    match entry with
    | .file content => if Location.isInside place then some (place, content) else none
    | .directory => none

end Tree

inductive ReadFault where
  | opening (path : String) (fault : PathFault)
  | directory (path : String)
deriving DecidableEq, Repr

def ReadFault.message : ReadFault → String
  | .opening path fault => "open " ++ path ++ ": " ++ fault.text
  | .directory path => "read " ++ path ++ ": is a directory"

def Tree.read (tree : Tree) (path : String) : Except ReadFault Bytes :=
  match tree.find path with
  | .error fault => .error (.opening path fault)
  | .ok (_, .directory) => .error (.directory path)
  | .ok (_, .file content) => .ok content

end CodecGen.Files
