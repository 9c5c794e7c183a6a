import CodecGen.Load
import Mathlib.Logic.Relation
set_option autoImplicit false
/-!
Which files import which. The file in a place has a header and imports, and an import is found at a path;
so there is a graph of paths, and the paths that can be reached in it from a first one.
-/
namespace CodecGen.Load
open Files Markup Schema

def Opened.imported (file : Opened) : List String := (file.root.elements "import").map (·.text)

def headerAt? (tree : Tree) (path : String) : Option String :=
  (openFile tree [] path).toOption.map Opened.header

def importsAt (tree : Tree) (path : String) : List String :=
  ((openFile tree [] path).toOption.map Opened.imported).getD []

/-- The file at a path has an import that is found at the other path. -/
def ImportsFrom (tree : Tree) (options : Options) (path next : String) : Prop :=
  ∃ header ∈ importsAt tree path, findImport? tree options path header = some next

instance (tree : Tree) (options : Options) (path next : String) :
    Decidable (ImportsFrom tree options path next) :=
  inferInstanceAs (Decidable
    (∃ header ∈ importsAt tree path, findImport? tree options path header = some next))

def LedTo (tree : Tree) (options : Options) (start : String) : String → Prop :=
  Relation.ReflTransGen (ImportsFrom tree options) start

/-- Files declare the headers by which they are imported. -/
def NamedByHeader (tree : Tree) (options : Options) (start : String) : Prop :=
  ∀ path, LedTo tree options start path → ∀ header ∈ importsAt tree path,
    ∀ next ∈ findImport? tree options path header, ∀ own ∈ headerAt? tree next, own = header

/-- A header is found in the same place whichever file imports it. -/
def Unambiguous (tree : Tree) (options : Options) (start : String) : Prop :=
  ∀ path other, LedTo tree options start path → LedTo tree options start other →
    ∀ header ∈ importsAt tree path, header ∈ importsAt tree other →
      (findImport? tree options path header).map tree.reach =
        (findImport? tree options other header).map tree.reach

structure Finds (tree : Tree) (options : Options) (file other : Opened) : Prop where
  imported : other.header ∈ file.imported
  found : findImport? tree options file.path other.header = some other.path

section
variable {tree : Tree} {options : Options} {start path other : String} {active : List String}
  {file : Opened}

theorem openFile_eq_ok_iff :
    openFile tree active path = .ok file ↔
      ∃ src root, tree.read path = .ok src ∧ parse src = .ok root ∧
        file = ⟨path, src, root, active ++ [root.attrD "header" ""]⟩ := by
  unfold openFile
  constructor
  · intro h
    split at h
    · cases h
    · next src hread =>
      split at h
      · cases h
      · next root hparse => exact ⟨src, root, hread, hparse, (Except.ok.inj h).symm⟩
  · rintro ⟨src, root, hread, hparse, rfl⟩
    simp only [hread, hparse]

theorem path_of_openFile (h : openFile tree active path = .ok file) : file.path = path := by
  obtain ⟨src, root, -, -, rfl⟩ := openFile_eq_ok_iff.mp h
  rfl

/-- What is read does not depend on the path by which a place is reached. -/
theorem openFile_congr (h : tree.reach other = tree.reach path)
    (hopen : openFile tree active path = .ok file) (around : List String) :
    ∃ opened, openFile tree around other = .ok opened ∧ opened.root = file.root ∧
      opened.active = around ++ [file.header] := by
  obtain ⟨src, root, hread, hparse, rfl⟩ := openFile_eq_ok_iff.mp hopen
  refine ⟨_, openFile_eq_ok_iff.mpr ⟨src, root, ?_, hparse, rfl⟩, rfl, rfl⟩
  have hfind : tree.find other = tree.find path := by
    unfold Tree.find
    rw [h]
  unfold Tree.read at hread ⊢
  rw [hfind]
  split at hread
  · cases hread
  · cases hread
  · exact hread

theorem headerAt?_of_same_place (h : tree.reach other = tree.reach path)
    (hopen : openFile tree active path = .ok file) : headerAt? tree other = some file.header := by
  obtain ⟨opened, hopened, hroot, -⟩ := openFile_congr h hopen []
  simp only [headerAt?, hopened, Except.toOption, Option.map_some, Opened.header, hroot]

theorem importsAt_of_same_place (h : tree.reach other = tree.reach path)
    (hopen : openFile tree active path = .ok file) : importsAt tree other = file.imported := by
  obtain ⟨opened, hopened, hroot, -⟩ := openFile_congr h hopen []
  simp only [importsAt, hopened, Except.toOption, Option.map_some, Option.getD_some, Opened.imported, hroot]

theorem headerAt?_of_openFile (h : openFile tree active path = .ok file) :
    headerAt? tree path = some file.header := headerAt?_of_same_place rfl h

theorem importsAt_of_openFile (h : openFile tree active path = .ok file) :
    importsAt tree path = file.imported := importsAt_of_same_place rfl h

theorem LedTo.import (h : LedTo tree options start path) (hopen : openFile tree active path = .ok file)
    {header next : String} (hmem : header ∈ file.imported)
    (hfound : findImport? tree options path header = some next) : LedTo tree options start next :=
  h.tail ⟨header, importsAt_of_openFile hopen ▸ hmem, hfound⟩

theorem LedTo.mem_of_closed {paths : List String} (hled : LedTo tree options start path)
    (hstart : start ∈ paths)
    (h : ∀ path ∈ paths, ∀ header ∈ importsAt tree path, ∀ next ∈ findImport? tree options path header,
      next ∈ paths) : path ∈ paths := by
  induction hled with
  | refl => exact hstart
  | tail _ hstep ih =>
    obtain ⟨header, himported, hfound⟩ := hstep
    exact h _ ih header himported _ hfound

theorem namedByHeader_of_closed (paths : List String) (hstart : start ∈ paths)
    (h : ∀ path ∈ paths, ∀ header ∈ importsAt tree path, ∀ next ∈ findImport? tree options path header,
      next ∈ paths ∧ headerAt? tree next = some header) : NamedByHeader tree options start := by
  intro path hled header himported next hfound own hown
  have hpath : path ∈ paths :=
    hled.mem_of_closed hstart fun path hpath header himported next hfound =>
      (h path hpath header himported next hfound).1
  exact Option.some.inj (hown.symm.trans (h path hpath header himported next hfound).2)

theorem unambiguous_of_closed (paths : List String) (hstart : start ∈ paths)
    (hclosed : ∀ path ∈ paths, ∀ header ∈ importsAt tree path,
      ∀ next ∈ findImport? tree options path header, next ∈ paths)
    (h : ∀ path ∈ paths, ∀ other ∈ paths, ∀ header ∈ importsAt tree path, header ∈ importsAt tree other →
      (findImport? tree options path header).map tree.reach =
        (findImport? tree options other header).map tree.reach) :
    Unambiguous tree options start :=
  fun path other hled hled' => h path (hled.mem_of_closed hstart hclosed) other
    (hled'.mem_of_closed hstart hclosed)

theorem NamedByHeader.header_eq (h : NamedByHeader tree options start)
    (hled : LedTo tree options start path) (hopen : openFile tree active path = .ok file)
    {header next : String} (hmem : header ∈ file.imported)
    (hfound : findImport? tree options path header = some next) {inner : List String} {found : Opened}
    (hnext : openFile tree inner next = .ok found) : found.header = header :=
  h path hled header (importsAt_of_openFile hopen ▸ hmem) next hfound _ (headerAt?_of_openFile hnext)

end

end CodecGen.Load
