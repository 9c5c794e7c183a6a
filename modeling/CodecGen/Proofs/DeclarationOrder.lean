import CodecGen.Proofs.Origin
import CodecGen.Proofs.ReorderedContents
set_option autoImplicit false
/-!
The order of declarations. All names of a module are registered before anything is looked up, so the
order of its declarations decides only the order in which things are noted and declared. Two kinds of
declarations are excepted: an alias sees only the names before it, and a copy of a copy only finds
fields when the other copy comes first.
-/
namespace CodecGen.Resolve
open Schema Markup

def ownName? (header ref : String) : Option String :=
  match splitQualified? ref with
  | some (qualifier, name) => if qualifier == header then some name else none
  | none => if (scalar? ref).isSome then none else some ref

/-- There is no alias, no name is declared twice, and no copy refers to another copy. -/
structure OrderFree (root : Element) : Prop where
  aliases : ∀ e ∈ root.children, e.tag ≠ "typedef"
  distinct : (root.children.filterMap declaredName?).Nodup
  copies : ∀ c ∈ root.children, ∀ d ∈ root.children, isCopy c = true → isCopy d = true →
    ∀ ref ∈ c.attr? "ref", ∀ name ∈ ownName? (root.attrD "header" "") ref,
      declaredName? d = some name → declaredName? c = some name

theorem OrderFree.perm {root : Element} (h : OrderFree root) {children : List Element}
    (hperm : children.Perm root.children) : OrderFree { root with children } where
  aliases e he := h.aliases e (hperm.mem_iff.mp he)
  distinct := (hperm.filterMap _).nodup_iff.mpr h.distinct
  copies c hc d hd := h.copies c (hperm.mem_iff.mp hc) d (hperm.mem_iff.mp hd)

theorem known_of_findImported? {accepts : Module → Bool} {name : String} {index : Nat}
    {imports : List Import} {answer : Target × Nat}
    (h : Env.findImported? accepts name index imports = some answer) :
    ∃ type reply, answer.1 = .known type reply := by
  induction imports generalizing index with
  | nil => cases h
  | cons i rest ih =>
    rw [Env.findImported?] at h
    split at h
    · cases h
      exact ⟨_, _, rfl⟩
    · exact ih h

theorem own_of_lookup? {env : Env} {ref : String} {kind : Kind} {name : Name} {index : Option Nat}
    (h : env.lookup? ref = some (.own kind name, index)) :
    ∃ id, ownName? env.header ref = some id ∧ env.own.lookup id = some (.own kind name) := by
  -- imports only offer types that are complete
  have himported : ∀ {accepts : Module → Bool} {id : String},
      (Env.findImported? accepts id 0 env.imports).map (fun x => (x.1, some x.2)) ≠
        some (.own kind name, index) := by
    intro accepts id hmap
    obtain ⟨answer, hanswer, heq⟩ := Option.map_eq_some_iff.mp hmap
    obtain ⟨type, reply, hknown⟩ := known_of_findImported? hanswer
    rw [Prod.mk.injEq, hknown] at heq
    cases heq.1
  unfold Env.lookup? at h
  unfold ownName?
  cases hname : splitQualified? ref with
  | some parts =>
    rw [hname] at h
    dsimp only at h ⊢
    split at h
    · next t hown =>
      cases h
      split at hown
      · next hheader => exact ⟨parts.2, if_pos hheader, hown⟩
      · cases hown
    · exact absurd h himported
  | none =>
    rw [hname] at h
    dsimp only at h ⊢
    split at h
    · cases h
    · next hscalar =>
      split at h
      · next t hown =>
        cases h
        exact ⟨ref, by simp [hscalar], hown⟩
      · exact absurd h himported

theorem own_of_mem_namesAdded {env : Env} {path : Name} {es : List Element}
    (halias : ∀ e ∈ es, e.tag ≠ "typedef") {id : String} {kind : Kind} {name : Name}
    (h : (id, .own kind name) ∈ namesAdded env path es) : name = path ++ [id] := by
  obtain ⟨e, he, hmem⟩ := List.mem_flatMap.mp h
  have hadds := register_adds env path (halias e he)
  generalize (register env path {} e).value = x at hadds hmem
  cases hadds with
  | nothing => cases hmem
  | resource => cases hmem with | tail _ h => cases h
  | own head hname =>
    cases List.mem_singleton.mp hmem
    rfl

theorem of_mem_pendingAdded {env : Env} {path : Name} {es : List Element}
    (halias : ∀ e ∈ es, e.tag ≠ "typedef") {p : Pending} (h : p ∈ pendingAdded env path es) :
    p.element ∈ es ∧ ∃ id, declaredName? p.element = some id ∧ p.name = path ++ [id] := by
  obtain ⟨e, he, hmem⟩ := List.mem_flatMap.mp h
  have hadds := register_adds env path (halias e he)
  generalize (register env path {} e).value = x at hadds hmem
  cases hadds with
  | nothing => cases hmem
  | resource => cases hmem
  | own head hname =>
    cases List.mem_singleton.mp hmem
    exact ⟨he, _, hname, rfl⟩

section
variable {set : ModuleSet} {header : String} {root : Element}

theorem registerAll_of_orderFree (h : OrderFree root) (env : Env) (path : Name) :
    registerAll env path {} root.children =
      ⟨⟨namesAdded env path root.children, pendingAdded env path root.children⟩,
        root.children.flatMap fun e => (register env path {} e).notes⟩ :=
  registerAll_eq h.aliases h.distinct fun _ _ => rfl

theorem registry_registerModule (set : ModuleSet) (header : String) (root : Element) :
    (registerModule set header root).value.registry =
      (registerAll { header, imports := (resolveImports set (root.elements "import")).value }
        (declPath (resolveHead header root).value) {} root.children).value := rfl

theorem notes_registerModule (set : ModuleSet) (header : String) (root : Element) :
    (registerModule set header root).notes =
      (resolveHead header root).notes ++ ((resolveImports set (root.elements "import")).notes ++
        (registerAll { header, imports := (resolveImports set (root.elements "import")).value }
          (declPath (resolveHead header root).value) {} root.children).notes) := by
  simp only [registerModule, Noted.notes_bind, Noted.notes_pure, List.append_nil]

theorem apart_of_orderFree (h : OrderFree root) (hheader : root.attr? "header" = some header) :
    Apart (registerModule set header root).value where
  distinct := (registers_of_registerModule set header root).pending
  copies p hp q hq hcopy hcopy' := by
    rintro ⟨ref, kind, index, href, hlookup⟩
    obtain ⟨id, hown, hid⟩ := own_of_lookup? hlookup
    change (registerModule set header root).value.registry.names.lookup id = _ at hid
    rw [registry_registerModule, registerAll_of_orderFree h] at hp hq hid
    obtain ⟨hmem, n, hn, hname⟩ := of_mem_pendingAdded h.aliases hp
    obtain ⟨hmem', n', hn', hname'⟩ := of_mem_pendingAdded h.aliases hq
    have hsame := own_of_mem_namesAdded h.aliases (mem_of_lookup hid)
    obtain rfl : n' = id := by simpa [hname'] using hsame
    have hownName : ownName? (root.attrD "header" "") ref = some n' := by
      rw [Element.attrD, hheader, Option.getD_some, ← header_resolveHead header root]
      exact hown
    have hdeclared := h.copies p.element hmem q.element hmem' hcopy hcopy' ref href n' hownName hn'
    rw [hname, hname', Option.some.inj (hn.symm.trans hdeclared)]

theorem registerModule_reordered (set : ModuleSet) (header : String) (h : OrderFree root)
    {children : List Element} (hperm : children.Perm root.children)
    (himports : children.filter isImport = root.children.filter isImport) :
    Reordered (registerModule set header root).value
        (registerModule set header { root with children }).value ∧
      (registerModule set header { root with children }).notes.Perm
        (registerModule set header root).notes := by
  have hfound : resolveImports set (({ root with children } : Element).elements "import") =
      resolveImports set (root.elements "import") := congrArg (resolveImports set) himports
  have hroot := registerAll_of_orderFree h
  have hother : ∀ env path, registerAll env path {} children =
      ⟨⟨namesAdded env path children, pendingAdded env path children⟩,
        children.flatMap fun e => (register env path {} e).notes⟩ :=
    registerAll_of_orderFree (h.perm hperm)
  have hkeys := (registers_of_registerModule set header root).names
  refine ⟨⟨rfl, congrArg Noted.value hfound, rfl, ?_, hkeys, ?_⟩, ?_⟩
  · rw [registry_registerModule, registry_registerModule, hfound, hroot, hother]
    exact hperm.flatMap_right _
  · rw [registry_registerModule, registry_registerModule, hfound, hroot, hother]
    exact hperm.flatMap_right _
  · rw [notes_registerModule, notes_registerModule, hfound, hroot, hother]
    exact ((hperm.flatMap_right _).append_left _).append_left _

theorem unusedImports_perm {used used' : List Note} (h : used'.Perm used) (index : Nat)
    (imports : List Import) : unusedImports used' index imports = unusedImports used index imports :=
  unusedImports_congr fun _ _ => h.mem_iff

theorem errors_perm {α β : Type} {x : Noted α} {y : Noted β} (h : x.notes.Perm y.notes) :
    x.errors.Perm y.errors :=
  h.filterMap _

theorem warnings_perm {α β : Type} {x : Noted α} {y : Noted β} (h : x.notes.Perm y.notes) :
    x.warnings.Perm y.warnings :=
  h.filterMap _

/-- Descriptions without aliases, without names declared twice and without copies of copies mean the
same in every order of their declarations, as long as the imports keep theirs. -/
theorem declaration_order_irrelevant (set : ModuleSet) (h : OrderFree root) {children : List Element}
    (hperm : children.Perm root.children)
    (himports : children.filter isImport = root.children.filter isImport) :
    ((resolve set { root with children }).module?.isSome = (resolve set root).module?.isSome) ∧
    (∀ m m', (resolve set root).module? = some m →
      (resolve set { root with children }).module? = some m' →
        m'.decls.Perm m.decls ∧ m' = { m with decls := m'.decls }) ∧
    (resolve set { root with children }).errors.Perm (resolve set root).errors ∧
    (resolve set { root with children }).warnings.Perm (resolve set root).warnings := by
  cases hheader : root.attr? "header" with
  | none =>
    have hmoved : ({ root with children } : Element).attr? "header" = none := hheader
    have hnone : resolve set root = ⟨none, [⟨.missingAttr root.tag "header", root.span⟩], []⟩ := by
      rw [resolve, hheader]
    have hsame : resolve set { root with children } = resolve set root := by
      rw [resolve, hmoved, hnone]
    rw [hsame, hnone]
    exact ⟨rfl, by simp, .refl _, .refl _⟩
  | some header =>
    have hmoved : ({ root with children } : Element).attr? "header" = some header := hheader
    obtain ⟨hreordered, hnotes⟩ := registerModule_reordered set header h hperm himports
    by_cases hregistered : (registerModule set header root).errors = []
    · have hapart : Apart (registerModule set header root).value := apart_of_orderFree h hheader
      obtain ⟨-, hdrafts⟩ := hreordered.drafts hapart
      have herrors := errors_perm hdrafts
      -- the same errors in another order, so that both orders have a module or none has
      have hempty :
          (resolveDrafts (registerModule set header { root with children }).value).errors.isEmpty =
            (resolveDrafts (registerModule set header root).value).errors.isEmpty := herrors.isEmpty_eq
      rw [resolve_of_registered hheader rfl hregistered,
        resolve_of_registered hmoved rfl ((errors_perm hnotes).trans (.of_eq hregistered)).eq_nil,
        hempty, hreordered.imports,
        unusedImports_perm (hnotes.append hdrafts)]
      refine ⟨?_, ?_, herrors, ((warnings_perm hnotes).append (warnings_perm hdrafts)).append_right _⟩
      · dsimp only
        split <;> rfl
      · dsimp only
        split
        · rintro _ _ ⟨⟩ ⟨⟩
          exact hreordered.module hapart
        · simp
    · -- not all names can be registered, in either order, and nothing more is looked at
      have hother : (registerModule set header { root with children }).errors ≠ [] :=
        fun hnil => hregistered ((errors_perm hnotes).symm.trans (.of_eq hnil)).eq_nil
      rw [resolve_of_unregistered hheader hregistered, resolve_of_unregistered hmoved hother]
      exact ⟨rfl, by simp, errors_perm hnotes, warnings_perm hnotes⟩

end

def unitsAndColors : ModuleSet where
  modules :=
    [{ header := "units", decls := [⟨["xcb", "WIDTH"], .simple ["uint16_t"], none⟩] },
      { header := "colors" }]

def pointerImports : List Element :=
  [⟨"import", [], "units", [], ⟨24, 23⟩⟩, ⟨"import", [], "colors", [], ⟨47, 24⟩⟩]

def pointerDecls : List Element :=
  [described "eventcopy" [("name", "Leave"), ("number", "8"), ("ref", "Enter")] [],
    described "event" [("name", "Enter"), ("number", "7")]
      [described "field" [("type", "BOX"), ("name", "area")] []],
    described "struct" [("name", "BOX")] [described "field" [("type", "WIDTH"), ("name", "width")] []]]

def pointer : Element := described "xcb" [("header", "pointer")] (pointerImports ++ pointerDecls)

theorem declaration_order_irrelevant_pointer :
    OrderFree pointer ∧
    ∃ m m', (resolve unitsAndColors pointer).module? = some m ∧
      (resolve unitsAndColors { pointer with children := pointerDecls.reverse ++ pointerImports }).module? =
        some m' ∧
      m.decls.map (·.name) = [["xcb", "Leave"], ["xcb", "Enter"], ["xcb", "BOX"]] ∧
      m'.decls.Perm m.decls := by
  have hfree : OrderFree pointer := ⟨by decide +kernel, by decide +kernel, by decide +kernel⟩
  have hperm : (pointerDecls.reverse ++ pointerImports).Perm pointer.children :=
    List.perm_append_comm.trans (pointerDecls.reverse_perm.append_left _)
  obtain ⟨hsome, hmodules, -, -⟩ := declaration_order_irrelevant unitsAndColors hfree hperm rfl
  have hresolved : (resolve unitsAndColors pointer).module?.isSome = true := by decide +kernel
  obtain ⟨m, hm⟩ := Option.isSome_iff_exists.mp hresolved
  obtain ⟨m', hm'⟩ := Option.isSome_iff_exists.mp (hsome.trans hresolved)
  have hnames : (resolve unitsAndColors pointer).module?.map (fun m => m.decls.map (·.name)) =
      some [["xcb", "Leave"], ["xcb", "Enter"], ["xcb", "BOX"]] := by decide +kernel
  rw [hm] at hnames
  exact ⟨hfree, m, m', hm, hm', Option.some.inj hnames, (hmodules m m' hm hm').1⟩

end CodecGen.Resolve
