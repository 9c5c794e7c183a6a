import CodecGen.Proofs.ComparedModules
set_option autoImplicit false
/-!
Lookups without an import. Where no lookup was answered by an import, every lookup goes the same way
without it, and so do registration and the resolution of the contents.
-/
namespace CodecGen.Resolve
open Schema Markup

/-- Where the import at an index stands once the one at a position is taken out. -/
def moved (position index : Nat) : Nat := if position < index then index - 1 else index

theorem moved_of_lt {position index : Nat} (h : index < position) : moved position index = index :=
  if_neg (by omega)

theorem moved_succ {position index : Nat} (h : position ≤ index) :
    moved position (index + 1) = index := if_pos (by omega)

section
variable {accepts : Module → Bool} {name : String}

theorem findImported?_succ (index : Nat) (imports : List Import) :
    Env.findImported? accepts name (index + 1) imports =
      (Env.findImported? accepts name index imports).map (Prod.map id (· + 1)) := by
  induction imports generalizing index with
  | nil => rfl
  | cons i rest ih =>
    rw [Env.findImported?, Env.findImported?]
    split
    · rfl
    · exact ih (index + 1)

theorem le_of_findImported? {index found : Nat} {imports : List Import} {t : Target}
    (h : Env.findImported? accepts name index imports = some (t, found)) : index ≤ found := by
  induction imports generalizing index with
  | nil => cases h
  | cons i rest ih =>
    rw [Env.findImported?] at h
    split at h
    · cases h
      exact Nat.le_refl _
    · have hle := ih h
      omega

theorem findImported?_without {i : Import} {before after : List Import} {index : Nat}
    (h : ∀ t, Env.findImported? accepts name index (before ++ i :: after) ≠
      some (t, index + before.length)) :
    Env.findImported? accepts name index (before ++ after) =
      (Env.findImported? accepts name index (before ++ i :: after)).map
        (Prod.map id (moved (index + before.length))) := by
  induction before generalizing index with
  | nil =>
    simp only [List.nil_append, List.length_nil, Nat.add_zero] at h ⊢
    rw [Env.findImported?] at h ⊢
    split
    · next d hd =>
      rw [hd] at h
      exact absurd rfl (h _)
    · -- the imports behind it are found one place further to the front
      rw [findImported?_succ]
      cases hrest : Env.findImported? accepts name index after with
      | none => rfl
      | some answer =>
        obtain ⟨t, found⟩ := answer
        have hle := le_of_findImported? hrest
        exact congrArg some (Prod.ext rfl (moved_succ hle).symm)
  | cons b rest ih =>
    rw [List.cons_append, Env.findImported?] at h ⊢
    rw [List.cons_append, Env.findImported?]
    split
    · have hlt : index < index + (b :: rest).length := by simp
      exact congrArg some (Prod.ext rfl (moved_of_lt hlt).symm)
    · next hnone =>
      have hlength : index + (b :: rest).length = index + 1 + rest.length := by
        rw [List.length_cons]
        omega
      rw [hnone, hlength] at h
      rw [hlength]
      exact ih h

end

section
variable {i : Import} {before after : List Import}

theorem answer_without {accepts : Module → Bool} {name : String}
    (h : ∀ t, (Env.findImported? accepts name 0 (before ++ i :: after)).map (Prod.map id some) ≠
      some (t, some before.length)) :
    (Env.findImported? accepts name 0 (before ++ after)).map (Prod.map id some) =
      ((Env.findImported? accepts name 0 (before ++ i :: after)).map (Prod.map id some)).map
        (Prod.map id (Option.map (moved before.length))) := by
  have hother : ∀ t, Env.findImported? accepts name 0 (before ++ i :: after) ≠
      some (t, 0 + before.length) := by
    intro t ht
    rw [Nat.zero_add] at ht
    exact h t (by rw [ht]; rfl)
  have hfind := findImported?_without hother
  rw [Nat.zero_add] at hfind
  rw [hfind, Option.map_map, Option.map_map]
  rfl

theorem lookup?_without (env : Env) (himports : env.imports = before ++ i :: after) {name : String}
    (h : ∀ t, env.lookup? name ≠ some (t, some before.length)) :
    ({ env with imports := before ++ after } : Env).lookup? name =
      (env.lookup? name).map (Prod.map id (Option.map (moved before.length))) := by
  unfold Env.lookup? at h ⊢
  rw [himports] at h
  rw [himports]
  cases hname : splitQualified? name with
  | some parts =>
    rw [hname] at h
    dsimp only at h ⊢
    cases hown : if parts.1 == env.header then env.own.lookup parts.2 else none with
    | some t => rfl
    | none =>
      rw [hown] at h
      exact answer_without h
  | none =>
    rw [hname] at h
    dsimp only at h ⊢
    cases hscalar : scalar? name with
    | some scalar => rfl
    | none =>
      rw [hscalar] at h
      dsimp only at h ⊢
      cases hown : env.own.lookup name with
      | some t => rfl
      | none =>
        rw [hown] at h
        exact answer_without h

def Note.without (position : Nat) : Note → Note
  | .used index => .used (moved position index)
  | note => note

theorem error?_without (position : Nat) (n : Note) : (n.without position).error? = n.error? := by
  cases n <;> rfl

theorem warning?_without (position : Nat) (n : Note) :
    (n.without position).warning? = n.warning? := by
  cases n <;> rfl

/-- Compares a resolution in which the import at a position is not used with the one without it. -/
def dropping (position : Nat) : Comparison where
  admits n := n ≠ .used position
  alike n n' := n' = n.without position
  same n _ huse := by
    cases n with
    | used => cases huse
    | error | warning => rfl

theorem notes_of_alike {position : Nat} {notes notes' : List Note}
    (h : List.Forall₂ (dropping position).alike notes notes') :
    notes' = notes.map (Note.without position) := by
  induction h with
  | nil => rfl
  | cons hhead _ ih => rw [List.map_cons, hhead, ih]

theorem looksUp_dropping (env : Env) (himports : env.imports = before ++ i :: after) :
    LooksUpAlways (dropping before.length) env { env with imports := before ++ after } := by
  intro own name span hnotes
  have hunused : ∀ t, ({ env with own } : Env).lookup? name ≠ some (t, some before.length) := by
    intro t ht
    unfold lookupType at hnotes
    rw [ht] at hnotes
    exact hnotes _ (List.mem_singleton.mpr rfl) rfl
  have hlookup := lookup?_without { env with own } himports hunused
  unfold lookupType
  rw [hlookup]
  cases ({ env with own } : Env).lookup? name with
  | none => exact ⟨rfl, .cons rfl .nil⟩
  | some answer =>
    obtain ⟨t, index⟩ := answer
    cases index with
    | none => exact ⟨rfl, .nil⟩
    | some index => exact ⟨rfl, .cons rfl .nil⟩

end

theorem registerAll_import (env : Env) (path : Name) (r : Registry) {i : Element}
    (htag : i.tag = "import") (before after : List Element) :
    registerAll env path r (before ++ i :: after) = registerAll env path r (before ++ after) := by
  induction before generalizing r with
  | nil =>
    have hnothing : register env path r i = pure r := by
      unfold register
      rw [htag]
      rfl
    rw [List.nil_append, registerAll, hnothing, pure_bind]
    rfl
  | cons e rest ih =>
    simp only [List.cons_append, registerAll, ih]

theorem forall₂_split {α β : Type} {R : α → β → Prop} {before after : List α} {a : α} {bs : List β}
    (h : List.Forall₂ R (before ++ a :: after) bs) :
    ∃ earlier b later, bs = earlier ++ b :: later ∧ List.Forall₂ R before earlier ∧ R a b ∧
      List.Forall₂ R after later := by
  induction before generalizing bs with
  | nil =>
    cases h with
    | cons ha hafter => exact ⟨[], _, _, rfl, .nil, ha, hafter⟩
  | cons x rest ih =>
    cases h with
    | cons hx hrest =>
      obtain ⟨earlier, b, later, rfl, hbefore, ha, hafter⟩ := ih hrest
      exact ⟨_ :: earlier, b, later, rfl, .cons hx hbefore, ha, hafter⟩

def Registered.importing (r : Registered) (imports : List Import) : Registered := { r with imports }

def importsIn (children : List Element) : Nat := (children.filter isImport).length

section
variable {set : ModuleSet} {header : String} {root i : Element} {before after : List Element}

theorem elements_split (hchildren : root.children = before ++ i :: after) (htag : i.tag = "import") :
    root.elements "import" = before.filter isImport ++ i :: after.filter isImport := by
  have hi : isImport i = true := by simp [isImport, htag]
  change root.children.filter isImport = _
  rw [hchildren, List.filter_append, List.filter_cons_of_pos hi]

theorem registerNames_import (hchildren : root.children = before ++ i :: after)
    (htag : i.tag = "import") (imports : List Import) :
    registerNames header { root with children := before ++ after } imports =
      registerNames header root imports := by
  unfold registerNames
  rw [hchildren]
  simp only [registerAll_import _ _ _ htag]
  rfl

theorem registerModule_without (hchildren : root.children = before ++ i :: after)
    (htag : i.tag = "import") (herrors : (registerModule set header root).errors = [])
    (hunused : .used (importsIn before) ∉ (registerModule set header root).notes) :
    ∃ earlier unused later, (registerModule set header root).value.imports = earlier ++ unused :: later ∧
      earlier.length = importsIn before ∧ ImportOf set i unused ∧
      registerModule set header { root with children := before ++ after } =
        ⟨(registerModule set header root).value.importing (earlier ++ later),
          (registerModule set header root).notes.map (Note.without (importsIn before))⟩ := by
  have hfound := resolveImports_without_errors (errors_of_registerModule herrors)
  have himports := resolveImports_of_found hfound
  rw [elements_split hchildren htag] at hfound
  obtain ⟨earlier, unused, later, hvalue, hbefore, hof, hafter⟩ := forall₂_split hfound
  have hlength : importsIn before = earlier.length := hbefore.length_eq
  rw [← elements_split hchildren htag] at hvalue
  rw [hvalue] at himports
  rw [registerModule_of_imports himports] at hunused ⊢
  rw [hlength] at hunused ⊢
  -- The kept imports are found as before.
  have hkept : resolveImports set
      (({ root with children := before ++ after } : Element).elements "import") =
        ⟨earlier ++ later, []⟩ := by
    refine resolveImports_of_found ?_
    change List.Forall₂ _ ((before ++ after).filter isImport) _
    rw [List.filter_append]
    exact List.rel_append hbefore hafter
  have hagree := registerNames_agree root
    (looksUp_dropping { header, imports := earlier ++ unused :: later } rfl)
  obtain ⟨hsame, hnotes⟩ := hagree fun n hn heq => hunused (heq ▸ hn)
  refine ⟨earlier, unused, later, rfl, rfl, hof, ?_⟩
  rw [registerModule_of_imports hkept, registerNames_import hchildren htag, hsame, notes_of_alike hnotes]
  rfl

theorem resolveDrafts_without {r : Registered} {unused : Import} {earlier later : List Import}
    (himports : r.imports = earlier ++ unused :: later)
    (hunused : .used earlier.length ∉ (resolveDrafts r).notes) :
    resolveDrafts (r.importing (earlier ++ later)) =
      ⟨(resolveDrafts r).value, (resolveDrafts r).notes.map (Note.without earlier.length)⟩ := by
  have hlooks : LooksUp (dropping earlier.length) r.env
      (r.importing (earlier ++ later)).env :=
    looksUp_dropping r.env himports r.registry.names
  obtain ⟨hvalue, hnotes⟩ := resolveDrafts_agree hlooks rfl rfl fun n hn heq => hunused (heq ▸ hn)
  have hmap := notes_of_alike hnotes
  cases hkept : resolveDrafts (r.importing (earlier ++ later)) with
  | mk value notes =>
    rw [hkept] at hvalue hmap
    exact Noted.mk.injEq .. ▸ ⟨hvalue, hmap⟩

end

end CodecGen.Resolve
