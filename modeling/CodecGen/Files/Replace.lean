import CodecGen.Files.Tree
set_option autoImplicit false
/-!
Replacing several files together. Every content is first written to a temporary file beside its
target; only when all of them are written are they renamed onto their targets, the last one first.
When something fails, the temporary files are taken away again. The numbers in the names of temporary
files are drawn by the system, which gives none that is taken already.
-/
namespace CodecGen.Files

structure Output where
  path : String
  content : Bytes
deriving DecidableEq, Repr

/-- The name of a temporary file: hidden, made from the name of its target, and numbered. -/
structure Temporary where
  dir : String
  base : String
  serial : Nat
deriving DecidableEq, Repr

namespace Temporary

def nameWith (base serial : String) : String := "." ++ base ++ "." ++ serial

def place (around : Location) (base : String) (serial : Nat) : Location :=
  around ++ [nameWith base (toString serial)]

def pathIn (dir name : String) : String :=
  (if dir.toList.getLast? == some '/' then dir else dir ++ "/") ++ name

def pathWith (t : Temporary) (serial : Nat → String) : String :=
  pathIn t.dir (nameWith t.base (serial t.serial))

end Temporary

inductive RenameFault where
  | path (fault : PathFault)
  | ontoDirectory
deriving DecidableEq, Repr

def RenameFault.text : RenameFault → String
  | .path fault => fault.text
  | .ontoDirectory => "file exists"

inductive WriteFault where
  | unnamable (base : String)
  | noNumber (dir base : String)
  | creating (temporary : Temporary) (fault : PathFault)
  | renaming (temporary : Temporary) (target : String) (fault : RenameFault)
deriving DecidableEq, Repr

def WriteFault.message (serial : Nat → String) : WriteFault → String
  | .unnamable base =>
    "createtemp " ++ Temporary.nameWith base "*" ++ ": pattern contains path separator"
  | .noNumber dir base =>
    "createtemp " ++ Temporary.pathIn dir (Temporary.nameWith base "*") ++ ": file already exists"
  | .creating t fault => "open " ++ t.pathWith serial ++ ": " ++ fault.text
  | .renaming t target fault =>
    "rename " ++ t.pathWith serial ++ " " ++ target ++ ": " ++ fault.text

structure Staged where
  temporary : Temporary
  place : Location
  target : String
deriving DecidableEq, Repr

/-- How the system draws the number of a temporary file for a base name in a directory, if it finds
one. -/
structure Naming where
  draw : Tree → (around : Location) → (base : String) → Option Nat
  fresh : ∀ {tree around base n}, draw tree around base = some n →
    Tree.entry? tree (Temporary.place around base n) = none

def firstFree? (free : Nat → Bool) : (tries n : Nat) → Option Nat
  | 0, _ => none
  | tries + 1, n => if free n then some n else firstFree? free tries (n + 1)

theorem free_of_firstFree? {free : Nat → Bool} {tries n found : Nat}
    (h : firstFree? free tries n = some found) : free found = true := by
  induction tries generalizing n with
  | zero => cases h
  | succ tries ih =>
    unfold firstFree? at h
    split at h
    · next hfree =>
      obtain rfl := Option.some.inj h
      exact hfree
    · exact ih h

def Naming.counting (start : Nat) : Naming where
  draw tree around base :=
    firstFree? (fun n => (Tree.entry? tree (Temporary.place around base n)).isNone) 10000 start
  fresh h := Option.isNone_iff_eq_none.mp (free_of_firstFree? h)

namespace Tree

def stage (names : Naming) (tree : Tree) (output : Output) : Except WriteFault (Tree × Staged) :=
  let dir := Path.dir output.path
  let base := Path.base output.path
  if base.toList.contains '/' then .error (.unnamable base)
  else match tree.reach (dir ++ "/.") with
    | .error fault => .error (.creating ⟨dir, base, 0⟩ fault)
    | .ok around =>
      match names.draw tree around base with
      | none => .error (.noNumber dir base)
      | some n =>
        let place := Temporary.place around base n
        .ok (tree.put place (.file output.content), ⟨⟨dir, base, n⟩, place, output.path⟩)

def discard (tree : Tree) (staged : List Staged) : Tree :=
  staged.foldl (fun t s => t.erase s.place) tree

def stageAll (names : Naming) : Tree → List Staged → List Output →
    Tree × Except WriteFault (List Staged)
  | tree, staged, [] => (tree, .ok staged)
  | tree, staged, output :: rest =>
    match tree.stage names output with
    -- nothing is left of the outputs that were staged before
    | .error fault => (tree.discard staged, .error fault)
    | .ok (tree, s) => stageAll names tree (staged ++ [s]) rest

def rename (tree : Tree) (s : Staged) : Except RenameFault Tree :=
  match tree.reach s.target with
  | .error fault => .error (.path fault)
  | .ok target =>
    -- a file at the target is replaced, a directory is not
    if tree.isDirectory target then .error .ontoDirectory
    else match tree.entry? s.place with
      | none => .error (.path .missing)
      | some entry => .ok ((tree.erase s.place).put target entry)

def renameAll : Tree → List Staged → Tree × Except WriteFault Unit
  | tree, [] => (tree, .ok ())
  | tree, s :: rest =>
    match tree.rename s with
    -- what was renamed before stays where it is
    | .error fault => (tree, .error (.renaming s.temporary s.target fault))
    | .ok tree => renameAll tree rest

/-- Replaces the outputs' targets. Files renamed before a failure stay where they are. -/
def replace (names : Naming) (tree : Tree) (outputs : List Output) : Tree × Except WriteFault Unit :=
  match stageAll names tree [] outputs with
  | (tree, .error fault) => (tree, .error fault)
  | (tree, .ok staged) =>
    match renameAll tree staged.reverse with
    | (tree, .ok ()) => (tree, .ok ())
    | (tree, .error fault) => (tree.discard staged, .error fault)

end Tree
end CodecGen.Files
