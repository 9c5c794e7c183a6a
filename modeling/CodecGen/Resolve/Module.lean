import CodecGen.Resolve.Declaration
import CodecGen.Resolve.Spelling
set_option autoImplicit false
/-!
From the element tree of a description to the module it describes.
-/
namespace CodecGen.Resolve
open Schema Markup

def finalDecl (decls : List Decl) (path : Name) (entry : String × Target) : Decl :=
  match entry.2 with
  | .known type reply => ⟨path ++ [entry.1], type, reply⟩
  | .own kind name =>
    match decls.find? (·.name == name) with
    -- an alias has the contents of what it stands for
    | some d => { d with name := path ++ [entry.1] }
    | none => ⟨path ++ [entry.1], .mention kind name, none⟩

def resolveImports (set : ModuleSet) : List Element → Noted (List Import)
  | [] => return []
  | e :: rest =>
    match set.get? e.text with
    | some m => do return ⟨m, e.span⟩ :: (← resolveImports set rest)
    | none => do
      noteError (.importNotFound e.text []) e.span
      resolveImports set rest

def resolveHead (header : String) (root : Element) : Noted Module :=
  match root.attr? "extension-name" with
  | none => return { header }
  | some extName => do
    let major ← intAttr root "major-version" 0
    let minor ← intAttr root "minor-version" 0
    return { header, isExt := true, extName, extXName := root.attrD "extension-xname" "", major, minor }

def declPath (m : Module) : Name := if m.isExt then ["xcb", m.extName] else ["xcb"]

structure Registered where
  head : Module
  imports : List Import
  registry : Registry
  unrolling : Nat

def registerModule (set : ModuleSet) (header : String) (root : Element) : Noted Registered := do
  let head ← resolveHead header root
  let imports ← resolveImports set (root.elements "import")
  let registry ← registerAll { header, imports } (declPath head) {} root.children
  return ⟨head, imports, registry, set.unrolling⟩

def Registered.env (r : Registered) : Env where
  header := r.head.header
  own := r.registry.names
  imports := r.imports

def resolveDrafts (r : Registered) : Noted (List Decl) := do
  let drafts ← resolveAllContents r.env r.head.isExt (r.registry.pending.filter (!isCopy ·.element))
  -- copies come last, so that their sources are there unless they are copies themselves
  resolveCopies r.env drafts (r.registry.pending.filter (isCopy ·.element))

def unusedImports (used : List Note) : (index : Nat) → List Import → List Warning
  | _, [] => []
  | index, i :: rest =>
    if used.contains (.used index) then unusedImports used (index + 1) rest
    else ⟨.unusedImport i.module.header, i.span⟩ :: unusedImports used (index + 1) rest

/-- What became of a description: a module exactly when there are no errors. -/
structure Resolution where
  module? : Option Module
  errors : List Error
  warnings : List Warning

/-- Resolves a description against the modules that it may import. When names cannot be registered,
no contents are looked at. -/
def resolve (set : ModuleSet) (root : Element) : Resolution :=
  match root.attr? "header" with
  | none => ⟨none, [⟨.missingAttr root.tag "header", root.span⟩], []⟩
  | some header =>
    let registered := registerModule set header root
    if !registered.errors.isEmpty then ⟨none, registered.errors, registered.warnings⟩
    else
      let r := registered.value
      let drafts := resolveDrafts r
      let warnings := registered.warnings ++ drafts.warnings ++
        unusedImports (registered.notes ++ drafts.notes) 0 r.imports
      if !drafts.errors.isEmpty then ⟨none, drafts.errors, warnings⟩
      else
        let decls := spelled r.unrolling drafts.value
        let m := { r.head with
          imports := r.imports.map (·.module)
          decls := r.registry.names.map (finalDecl decls (declPath r.head)) }
        ⟨some m, [], warnings⟩

def Resolution.log (r : Resolution) (source : String) : List LogEvent :=
  match r.module? with
  | some m => [.compiled m.header source m.decls.length r.warnings.length]
  | none => []

end CodecGen.Resolve
