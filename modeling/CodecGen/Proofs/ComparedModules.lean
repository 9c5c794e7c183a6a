import CodecGen.Proofs.Comparison
set_option autoImplicit false
/-!
Two resolutions of the same module. What agrees for the members of declarations agrees for the
declarations, for their registration and for the module, and in equal surroundings two resolutions are
equal.
-/
namespace CodecGen.Resolve
open Schema Markup

section
variable {c : Comparison} {env env' : Env}

theorem resolveItem_agree (name : String) (e : Element) :
    Agree c (resolveItem name e) (resolveItem name e) := by
  unfold resolveItem
  split
  · exact (natural_agree e).handOn
  · exact (bitPosition_agree e).handOn
  · exact .bind (noteWarning_agree (by simp)) fun _ => .pure _

theorem resolveItems_agree (enum : String) (seen : List String) (next : Int) (es : List Element) :
    Agree c (resolveItems enum seen next es) (resolveItems enum seen next es) := by
  induction es generalizing seen next with
  | nil => exact .pure _
  | cons e rest ih =>
    unfold resolveItems
    refine (requireAttr_agree e "name").bind fun name => ?_
    cases name with
    | none => exact ih seen next
    | some name =>
      dsimp only
      split
      · exact .bind (noteWarning_agree (by simp)) fun _ => ih seen next
      · split
        · exact (ih _ _).handOn
        · refine (resolveItem_agree name _).bind fun item => ?_
          cases item with
          | none => exact ih _ next
          | some item => exact (ih _ _).handOn

theorem resolveFields_agree (h : LooksUp c env env') (place : Place) (e : Element) :
    Agree c (resolveFields env place e) (resolveFields env' place e) :=
  (resolveMembers_agree h place 0 e.children).handOn

theorem resolveContents_agree (h : LooksUp c env env') (isExt : Bool) (p : Pending) :
    Agree c (resolveContents env isExt p) (resolveContents env' isExt p) := by
  have hfields := resolveFields_agree h { parent := p.name } p.element
  unfold resolveContents
  dsimp only
  split
  · exact (resolveItems_agree _ _ _ _).handOn.map
  · exact hfields.map
  · exact (resolveMembers_agree h _ 0 p.element.children).handOn
  · exact hfields.map
  · exact hfields.map
  · exact hfields.map

theorem resolveAllContents_agree (h : LooksUp c env env') (isExt : Bool) (ps : List Pending) :
    Agree c (resolveAllContents env isExt ps) (resolveAllContents env' isExt ps) := by
  induction ps with
  | nil => exact .pure _
  | cons p rest ih => exact (resolveContents_agree h isExt p).bind fun _ => ih.handOn

theorem resolveCopy_agree (h : LooksUp c env env') (drafts : List Decl) (p : Pending) :
    Agree c (resolveCopy env drafts p) (resolveCopy env' drafts p) := by
  unfold resolveCopy
  refine (requireAttr_agree p.element "ref").bind fun ref => ?_
  cases ref with
  | none => exact (Agree.pure none).handOn
  | some ref => exact (h ref p.element.span).handOn

theorem resolveCopies_agree (h : LooksUp c env env') (drafts : List Decl) (ps : List Pending) :
    Agree c (resolveCopies env drafts ps) (resolveCopies env' drafts ps) := by
  induction ps generalizing drafts with
  | nil => exact .pure _
  | cons p rest ih => exact (resolveCopy_agree h drafts p).bind fun _ => ih _

theorem resolveDrafts_agree {r r' : Registered} (h : LooksUp c r.env r'.env)
    (hext : r'.head.isExt = r.head.isExt) (hpending : r'.registry.pending = r.registry.pending) :
    Agree c (resolveDrafts r) (resolveDrafts r') := by
  unfold resolveDrafts
  rw [hext, hpending]
  exact (resolveAllContents_agree h _ _).bind fun drafts => resolveCopies_agree h drafts _

theorem declare_agree (r : Registry) (e : Element) (name : String) (target : Target)
    (pending : List Pending) :
    Agree c (declare r e name target pending) (declare r e name target pending) := by
  unfold declare
  split
  · exact .bind (noteError_agree (by simp)) fun _ => .pure _
  · exact .pure _

theorem head?_agree {e : Element} {head : Noted Head} (h : head? e = some head) :
    Agree c head head := by
  unfold head? at h
  split at h
  all_goals first
    | exact Option.some.inj h ▸ .pure _
    | exact Option.some.inj h ▸ (intAttr_agree e _ _).map
    | cases h

def LooksUpAlways (c : Comparison) (env env' : Env) : Prop :=
  ∀ own, LooksUp c { env with own } { env' with own }

theorem registerTypedef_agree (h : LooksUpAlways c env env') (r : Registry) (e : Element) :
    Agree c (registerTypedef env r e) (registerTypedef env' r e) := by
  unfold registerTypedef
  refine (requireAttr_agree e "oldname").bind fun oldName =>
    (requireAttr_agree e "newname").bind fun newName => ?_
  cases oldName with
  | none => exact .pure _
  | some oldName =>
    cases newName with
    | none => exact .pure _
    | some newName =>
      refine (h r.names oldName e.span).bind fun target => ?_
      cases target with
      | none => exact .pure _
      | some target => exact declare_agree r e newName target []

theorem register_agree (h : LooksUpAlways c env env') (path : Name) (r : Registry) (e : Element) :
    Agree c (register env path r e) (register env' path r e) := by
  unfold register
  split
  · exact .pure _
  · refine (requireAttr_agree e "name").bind fun name => ?_
    cases name with
    | none => exact .pure _
    | some name => exact declare_agree r e name _ _
  · refine (requireAttr_agree e "name").bind fun name => ?_
    cases name with
    | none => exact .pure _
    | some name => exact declare_agree r e name _ _
  · exact registerTypedef_agree h r e
  · split
    · next head hhead =>
      refine (requireAttr_agree e "name").bind fun name => ?_
      cases name with
      | none => exact .pure _
      | some name => exact (head?_agree hhead).bind fun head => declare_agree r e name _ _
    · exact .bind (noteWarning_agree (by simp)) fun _ => .pure _

theorem registerAll_agree (h : LooksUpAlways c env env') (path : Name) (r : Registry)
    (es : List Element) :
    Agree c (registerAll env path r es) (registerAll env' path r es) := by
  induction es generalizing r with
  | nil => exact .pure _
  | cons e rest ih => exact (register_agree h path r e).bind fun _ => ih _

theorem resolveHead_agree (header : String) (root : Element) :
    Agree c (resolveHead header root) (resolveHead header root) := by
  unfold resolveHead
  split
  · exact .pure _
  · exact (intAttr_agree root _ _).bind fun _ => (intAttr_agree root _ _).handOn

theorem resolveImports_agree (set : ModuleSet) (es : List Element) :
    Agree c (resolveImports set es) (resolveImports set es) := by
  induction es with
  | nil => exact .pure _
  | cons e rest ih =>
    unfold resolveImports
    split
    · exact ih.handOn
    · exact .bind (noteError_agree (by simp)) fun _ => ih

end

def ordinary : Comparison where
  admits _ := True
  alike n _ := n.isOrdinary
  same _ h _ := h

theorem lookupType_ordinary (env : Env) : LooksUp ordinary env env := by
  intro name span
  unfold lookupType
  split
  · exact fun _ => ⟨rfl, .cons trivial .nil⟩
  · exact fun _ => ⟨rfl, .nil⟩
  · exact .refuse (by simp)

theorem isOrdinary_of_agree {α : Type} {x : Noted α} (h : Agree ordinary x x) :
    ∀ n ∈ x.notes, n.isOrdinary := by
  have hall := List.forall₂_same.mp (h fun _ _ => trivial).2
  exact hall

theorem isOrdinary_of_registerModule (set : ModuleSet) (header : String) (root : Element) :
    ∀ n ∈ (registerModule set header root).notes, n.isOrdinary := by
  refine isOrdinary_of_agree (.bind (resolveHead_agree header root) fun head => ?_)
  refine .bind (resolveImports_agree set _) fun imports => ?_
  exact (registerAll_agree (fun own => lookupType_ordinary _) _ _ _).handOn

theorem isOrdinary_of_resolveDrafts (r : Registered) :
    ∀ n ∈ (resolveDrafts r).notes, n.isOrdinary :=
  isOrdinary_of_agree (resolveDrafts_agree (lookupType_ordinary _) rfl rfl)

theorem error_of_mem_errors {α : Type} {x : Noted α} {e : Error} (h : e ∈ x.errors) :
    .error e ∈ x.notes := by
  obtain ⟨n, hn, heq⟩ := List.mem_filterMap.mp h
  cases n with
  | error e' => exact Option.some.inj heq ▸ hn
  | warning | used => cases heq

theorem warning_of_mem_warnings {α : Type} {x : Noted α} {w : Warning} (h : w ∈ x.warnings) :
    .warning w ∈ x.notes := by
  obtain ⟨n, hn, heq⟩ := List.mem_filterMap.mp h
  cases n with
  | warning w' => exact Option.some.inj heq ▸ hn
  | error | used => cases heq

def isImport (e : Element) : Bool := e.tag == "import"

def ImportOf (set : ModuleSet) (e : Element) (i : Import) : Prop :=
  set.get? e.text = some i.module ∧ i.span = e.span

theorem resolveImports_without_errors {set : ModuleSet} {es : List Element}
    (h : (resolveImports set es).errors = []) :
    List.Forall₂ (ImportOf set) es (resolveImports set es).value := by
  induction es with
  | nil => exact .nil
  | cons e rest ih =>
    unfold resolveImports at h ⊢
    split
    · next m hm =>
      rw [hm] at h
      exact .cons ⟨hm, rfl⟩ (ih (Noted.errors_bind_eq_nil.mp h).1)
    · next hnone =>
      rw [hnone] at h
      cases (Noted.errors_bind_eq_nil.mp h).1

theorem modules_of_importOf {set : ModuleSet} {es : List Element} {imports : List Import}
    (h : List.Forall₂ (ImportOf set) es imports) :
    (imports.map (·.module)).map some = es.map fun e => set.get? e.text := by
  induction h with
  | nil => rfl
  | cons hof _ ih => rw [List.map_cons, List.map_cons, List.map_cons, hof.1, ih]

theorem resolveImports_of_found {set : ModuleSet} {es : List Element} {imports : List Import}
    (h : List.Forall₂ (ImportOf set) es imports) : resolveImports set es = ⟨imports, []⟩ := by
  induction h with
  | nil => rfl
  | @cons e i rest imports hfound _ ih =>
    rw [resolveImports, hfound.1]
    dsimp only
    rw [ih, ← hfound.2]
    rfl

section
variable {set : ModuleSet} {header : String} {root : Element}

theorem header_resolveHead (header : String) (root : Element) :
    (resolveHead header root).value.header = header := by
  unfold resolveHead
  split <;> rfl

theorem resolve_of_unregistered (hheader : root.attr? "header" = some header)
    (h : (registerModule set header root).errors ≠ []) :
    resolve set root =
      ⟨none, (registerModule set header root).errors, (registerModule set header root).warnings⟩ := by
  unfold resolve
  rw [hheader]
  exact if_pos (by simpa using h)

/-- Once all names are registered, what becomes of a description is decided by its contents. -/
theorem resolve_of_registered {x : Noted Registered} (hheader : root.attr? "header" = some header)
    (hregister : registerModule set header root = x) (h : x.errors = []) :
    resolve set root =
      ⟨if (resolveDrafts x.value).errors.isEmpty then some x.value.module else none,
        (resolveDrafts x.value).errors,
        x.warnings ++ (resolveDrafts x.value).warnings ++
          unusedImports (x.notes ++ (resolveDrafts x.value).notes) 0 x.value.imports⟩ := by
  unfold resolve
  rw [hheader]
  dsimp only
  rw [hregister, if_neg (by simp [h])]
  cases herrors : (resolveDrafts x.value).errors with
  | nil => rfl
  | cons e rest => rfl

theorem unusedImports_congr {used used' : List Note} {index index' : Nat} {imports : List Import}
    (h : ∀ k < imports.length, .used (index + k) ∈ used ↔ .used (index' + k) ∈ used') :
    unusedImports used index imports = unusedImports used' index' imports := by
  induction imports generalizing index index' with
  | nil => rfl
  | cons i rest ih =>
    have hhead : used.contains (.used index) = used'.contains (.used index') := by
      have hzero := h 0 (by simp)
      rw [Bool.eq_iff_iff, List.contains_iff_mem, List.contains_iff_mem]
      exact hzero
    have htail : unusedImports used (index + 1) rest = unusedImports used' (index' + 1) rest := by
      refine ih fun k hk => ?_
      have hnext := h (k + 1) (by simpa using hk)
      rw [Nat.add_right_comm, Nat.add_right_comm index']
      exact hnext
    rw [unusedImports, unusedImports, hhead, htail]

def registerNames (header : String) (root : Element) (imports : List Import) :
    Noted (Module × Registry) := do
  let head ← resolveHead header root
  let registry ← registerAll { header, imports } (declPath head) {} root.children
  return (head, registry)

theorem registerModule_of_imports {imports : List Import}
    (h : resolveImports set (root.elements "import") = ⟨imports, []⟩) :
    registerModule set header root =
      ⟨⟨(registerNames header root imports).value.1, imports,
          (registerNames header root imports).value.2, set.unrolling⟩,
        (registerNames header root imports).notes⟩ := by
  unfold registerModule
  rw [h]
  rfl

theorem registerNames_agree {c : Comparison} (root : Element) {imports imports' : List Import}
    (h : LooksUpAlways c { header, imports } { header, imports := imports' }) :
    Agree c (registerNames header root imports) (registerNames header root imports') :=
  (resolveHead_agree header root).bind fun _ => (registerAll_agree h _ _ _).handOn

theorem errors_of_registerModule (h : (registerModule set header root).errors = []) :
    (resolveImports set (root.elements "import")).errors = [] :=
  (Noted.errors_bind_eq_nil.mp (Noted.errors_bind_eq_nil.mp h).2).1

theorem resolveImports_congr {set' : ModuleSet} {es : List Element}
    (h : ∀ e ∈ es, set'.get? e.text = set.get? e.text) : resolveImports set' es = resolveImports set es := by
  induction es with
  | nil => rfl
  | cons e rest ih =>
    rw [List.forall_mem_cons] at h
    rw [resolveImports, resolveImports, h.1, ih h.2]

/-- A description sees nothing of the modules but those that it imports. -/
theorem resolve_congr {set' : ModuleSet} (hunrolling : set'.unrolling = set.unrolling)
    (h : ∀ e ∈ root.elements "import", set'.get? e.text = set.get? e.text) :
    resolve set' root = resolve set root := by
  have himports := resolveImports_congr h
  unfold resolve registerModule
  rw [himports, hunrolling]

theorem module_of_resolve {m : Module} (h : (resolve set root).module? = some m) :
    m.header = root.attrD "header" "" ∧
      m.imports.map some = (root.elements "import").map fun e => set.get? e.text := by
  cases hheader : root.attr? "header" with
  | none =>
    rw [resolve, hheader] at h
    cases h
  | some header =>
    by_cases herrors : (registerModule set header root).errors = []
    · rw [resolve_of_registered hheader rfl herrors] at h
      dsimp only at h
      split at h
      · cases h
        have hfound := resolveImports_without_errors (errors_of_registerModule herrors)
        refine ⟨?_, ?_⟩
        · rw [Element.attrD, hheader]
          exact header_resolveHead header root
        · exact modules_of_importOf hfound
      · cases h
    · rw [resolve_of_unregistered hheader herrors] at h
      cases h

end

theorem not_importCycle_of_resolve {set : ModuleSet} {root : Element} {e : Error}
    (h : e ∈ (resolve set root).errors) (chain : List String) : e.cause ≠ .importCycle chain := by
  unfold resolve at h
  split at h
  · rw [List.mem_singleton.mp h]
    simp
  · dsimp only at h
    split at h
    · exact isOrdinary_of_registerModule set _ root _ (error_of_mem_errors h) chain
    · split at h
      · exact isOrdinary_of_resolveDrafts _ _ (error_of_mem_errors h) chain
      · cases h

def identical : Comparison where
  admits _ := True
  alike n n' := n = n'
  same _ _ _ := rfl

theorem looksUp_identical {env env' : Env} (h : ∀ name, env'.lookup? name = env.lookup? name) :
    LooksUp identical env env' := by
  intro name span _
  have heq : lookupType env' name span = lookupType env name span := by
    unfold lookupType
    rw [h]
  rw [heq]
  exact ⟨rfl, List.forall₂_same.mpr fun _ _ => rfl⟩

theorem eq_of_agree {α : Type} {x y : Noted α} (h : Agree identical x y) : y = x := by
  obtain ⟨hvalue, hnotes⟩ := h fun _ _ => trivial
  have heq : x.notes = y.notes := List.forall₂_eq_eq_eq ▸ hnotes
  cases x
  cases y
  cases hvalue
  cases heq
  rfl

end CodecGen.Resolve
