import CodecGen.Proofs.Origin
import CodecGen.Proofs.UnusedLookups
set_option autoImplicit false
/-!
Imports that nothing uses. A lookup notes which import answered it. Where no lookup was answered by an
import, every lookup goes the same way without it, and so does the whole resolution; the imports after
it only move up by one.
-/
namespace CodecGen.Resolve
open Schema Markup

theorem unusedImports_append (used : List Note) (index : Nat) (imports more : List Import) :
    unusedImports used index (imports ++ more) =
      unusedImports used index imports ++ unusedImports used (index + imports.length) more := by
  induction imports generalizing index with
  | nil => rfl
  | cons i rest ih =>
    have hlength : index + (i :: rest).length = index + 1 + rest.length := by
      rw [List.length_cons]
      omega
    rw [List.cons_append, unusedImports, unusedImports, ih, hlength]
    split <;> rfl

section
variable {notes : List Note} {position index : Nat}

theorem used_mem_without_iff :
    .used index ∈ notes.map (Note.without position) ↔
      ∃ found, .used found ∈ notes ∧ moved position found = index := by
  rw [List.mem_map]
  constructor
  · rintro ⟨n, hn, heq⟩
    cases n with
    | used found => exact ⟨found, hn, Note.used.inj heq⟩
    | error | warning => cases heq
  · rintro ⟨found, hfound, rfl⟩
    exact ⟨.used found, hfound, rfl⟩

theorem used_without_of_lt (h : index < position) (hunused : .used position ∉ notes) :
    .used index ∈ notes.map (Note.without position) ↔ .used index ∈ notes := by
  rw [used_mem_without_iff]
  constructor
  · rintro ⟨found, hfound, hmoved⟩
    have hne : found ≠ position := fun heq => hunused (heq ▸ hfound)
    have heq : found = index := by
      unfold moved at hmoved
      split at hmoved <;> omega
    exact heq ▸ hfound
  · intro hmem
    exact ⟨index, hmem, moved_of_lt h⟩

theorem used_without_of_le (h : position ≤ index) (hunused : .used position ∉ notes) :
    .used index ∈ notes.map (Note.without position) ↔ .used (index + 1) ∈ notes := by
  rw [used_mem_without_iff]
  constructor
  · rintro ⟨found, hfound, hmoved⟩
    have hne : found ≠ position := fun heq => hunused (heq ▸ hfound)
    have heq : found = index + 1 := by
      unfold moved at hmoved
      split at hmoved <;> omega
    exact heq ▸ hfound
  · intro hmem
    exact ⟨index + 1, hmem, moved_succ h⟩

theorem unusedImports_without (unused : Import) {earlier : List Import} (later : List Import)
    (hunused : .used earlier.length ∉ notes) :
    ∃ before after,
      unusedImports notes 0 (earlier ++ unused :: later) =
        before ++ ⟨.unusedImport unused.module.header, unused.span⟩ :: after ∧
      unusedImports (notes.map (Note.without earlier.length)) 0 (earlier ++ later) = before ++ after := by
  have hnot : notes.contains (.used earlier.length) = false := by simpa using hunused
  refine ⟨unusedImports notes 0 earlier, unusedImports notes (earlier.length + 1) later, ?_, ?_⟩
  · rw [unusedImports_append, Nat.zero_add, unusedImports, hnot]
    rfl
  · rw [unusedImports_append, Nat.zero_add]
    congr 1
    · refine unusedImports_congr fun k hk => ?_
      rw [Nat.zero_add]
      exact used_without_of_lt hk hunused
    · refine unusedImports_congr fun k hk => ?_
      rw [used_without_of_le (Nat.le_add_right _ _) hunused, Nat.add_right_comm]

theorem span_of_unusedImports {imports : List Import} {w : Warning}
    (h : w ∈ unusedImports notes index imports) : ∃ i ∈ imports, i.span = w.span := by
  induction imports generalizing index with
  | nil => cases h
  | cons i rest ih =>
    rw [unusedImports] at h
    have hrest : w ∈ unusedImports notes (index + 1) rest → ∃ j ∈ i :: rest, j.span = w.span := by
      intro hw
      obtain ⟨j, hj, hspan⟩ := ih hw
      exact ⟨j, List.mem_cons_of_mem i hj, hspan⟩
    split at h
    · exact hrest h
    · rcases List.mem_cons.mp h with rfl | hw
      · exact ⟨i, List.mem_cons_self, rfl⟩
      · exact hrest hw

theorem mem_unusedImports_iff {unused : Import} {earlier later : List Import}
    (hspans : ∀ j ∈ earlier ++ later, j.span ≠ unused.span) :
    ⟨.unusedImport unused.module.header, unused.span⟩ ∈
        unusedImports notes 0 (earlier ++ unused :: later) ↔ .used earlier.length ∉ notes := by
  have hother : ∀ (index : Nat) (imports : List Import), imports ⊆ earlier ++ later →
      ⟨.unusedImport unused.module.header, unused.span⟩ ∉ unusedImports notes index imports := by
    intro index imports hsub hmem
    obtain ⟨j, hj, hspan⟩ := span_of_unusedImports hmem
    exact hspans j (hsub hj) hspan
  have hearlier := hother 0 earlier (List.subset_append_left earlier later)
  have hlater := hother (earlier.length + 1) later (List.subset_append_right earlier later)
  rw [unusedImports_append, Nat.zero_add, unusedImports, List.mem_append, or_iff_right hearlier]
  split
  · next hused => simpa [hlater] using hused
  · next hused => simpa using hused

end

section
variable {set : ModuleSet} {root i : Element} {before after : List Element}

/-- An import is reported as unused: the names of the module could be registered, and no lookup was
answered by the import. -/
def ReportsUnused (set : ModuleSet) (root : Element) (position : Nat) : Prop :=
  ∃ header, root.attr? "header" = some header ∧ (registerModule set header root).errors = [] ∧
    .used position ∉ (registerModule set header root).notes ++
      (resolveDrafts (registerModule set header root).value).notes

theorem header_of_importOf {e : Element} {imported : Import} (h : ImportOf set e imported) :
    imported.module.header = e.text := by
  simpa using List.find?_some h.1

theorem spans_of_importOf {es : List Element} {imports : List Import}
    (h : List.Forall₂ (ImportOf set) es imports) : imports.map (·.span) = es.map (·.span) := by
  induction h with
  | nil => rfl
  | cons hof _ ih => rw [List.map_cons, List.map_cons, hof.2, ih]

theorem not_unusedImport_of_notes {α : Type} {x : Noted α} (h : ∀ n ∈ x.notes, n.isOrdinary)
    (header : String) (span : Span) : ⟨.unusedImport header, span⟩ ∉ x.warnings :=
  fun hmem => h _ (warning_of_mem_warnings hmem) header rfl

/-- Where no other import has its span, an import is reported as unused exactly when there is a
warning about it. -/
theorem reportsUnused_iff (hchildren : root.children = before ++ i :: after) (htag : i.tag = "import")
    (hspans : ∀ j ∈ before ++ after, j.tag = "import" → j.span ≠ i.span) :
    ReportsUnused set root (importsIn before) ↔
      ⟨.unusedImport i.text, i.span⟩ ∈ (resolve set root).warnings := by
  cases hheader : root.attr? "header" with
  | none =>
    have hnone : (resolve set root).warnings = [] := by
      unfold resolve
      rw [hheader]
    simp [hnone, ReportsUnused, hheader]
  | some header =>
    have hregister := not_unusedImport_of_notes (isOrdinary_of_registerModule set header root) i.text
      i.span
    by_cases herrors : (registerModule set header root).errors = []
    · have hdrafts := not_unusedImport_of_notes
        (isOrdinary_of_resolveDrafts (registerModule set header root).value) i.text i.span
      have hfound := resolveImports_without_errors (errors_of_registerModule herrors)
      rw [elements_split hchildren htag] at hfound
      obtain ⟨earlier, unused, later, hvalue, hbefore, hof, hafter⟩ := forall₂_split hfound
      rw [← elements_split hchildren htag] at hvalue
      -- no other import has the span, so that the warning tells which import it is about
      have hother : ∀ j ∈ earlier ++ later, j.span ≠ unused.span := by
        intro j hj
        have hmem : j.span ∈ (before.filter isImport ++ after.filter isImport).map (·.span) := by
          rw [← spans_of_importOf (List.rel_append hbefore hafter)]
          exact List.mem_map_of_mem hj
        obtain ⟨e, he, hspan⟩ := List.mem_map.mp hmem
        rw [← List.filter_append, List.mem_filter] at he
        rw [← hspan, hof.2]
        exact hspans e he.1 (by simpa [isImport] using he.2)
      have himports : (registerModule set header root).value.imports = earlier ++ unused :: later := hvalue
      have hlength : importsIn before = earlier.length := hbefore.length_eq
      have hreports : ReportsUnused set root (importsIn before) ↔
          .used earlier.length ∉ (registerModule set header root).notes ++
            (resolveDrafts (registerModule set header root).value).notes := by
        simp [ReportsUnused, hheader, herrors, hlength]
      rw [hreports, resolve_of_registered hheader rfl herrors, himports,
        ← mem_unusedImports_iff hother, header_of_importOf hof, hof.2]
      simp only [List.mem_append]
      -- notes made on the way never are warnings about imports
      exact ⟨.inr, fun h => h.resolve_left (not_or.mpr ⟨hregister, hdrafts⟩)⟩
    · rw [resolve_of_unregistered hheader herrors]
      simp [ReportsUnused, hheader, herrors, hregister]

theorem errors_without {α : Type} (a : α) (notes : List Note) (position : Nat) :
    Noted.errors ⟨a, notes.map (Note.without position)⟩ = notes.filterMap Note.error? := by
  unfold Noted.errors
  rw [List.filterMap_map]
  exact congrArg (List.filterMap · notes) (funext (error?_without position))

theorem warnings_without {α : Type} (a : α) (notes : List Note) (position : Nat) :
    Noted.warnings ⟨a, notes.map (Note.without position)⟩ = notes.filterMap Note.warning? := by
  unfold Noted.warnings
  rw [List.filterMap_map]
  exact congrArg (List.filterMap · notes) (funext (warning?_without position))

/-- An import that is reported as unused can be taken out: without it there are the same errors, the
same warnings but the one about it, and the same module but for its place among the imports. -/
theorem unused_import_removable (set : ModuleSet) (hchildren : root.children = before ++ i :: after)
    (htag : i.tag = "import") :
    ((∀ j ∈ before ++ after, j.tag = "import" → j.span ≠ i.span) →
      (ReportsUnused set root (importsIn before) ↔
        ⟨.unusedImport i.text, i.span⟩ ∈ (resolve set root).warnings)) ∧
    (ReportsUnused set root (importsIn before) →
      (resolve set { root with children := before ++ after }).errors = (resolve set root).errors ∧
      (∃ earlier later,
        (resolve set root).warnings = earlier ++ ⟨.unusedImport i.text, i.span⟩ :: later ∧
        (resolve set { root with children := before ++ after }).warnings = earlier ++ later) ∧
      ((resolve set root).errors = [] → ∃ m earlier imported later,
        (resolve set root).module? = some m ∧ m.imports = earlier ++ imported :: later ∧
        earlier.length = importsIn before ∧ set.get? i.text = some imported ∧
        (resolve set { root with children := before ++ after }).module? =
          some { m with imports := earlier ++ later })) := by
  refine ⟨reportsUnused_iff hchildren htag, ?_⟩
  rintro ⟨header, hheader, herrors, hunused⟩
  obtain ⟨hregister, hcontents⟩ := not_or.mp fun h => hunused (List.mem_append.mpr h)
  obtain ⟨earlier, unused, later, himports, hlength, hof, hkept⟩ :=
    registerModule_without hchildren htag herrors hregister
  rw [← hlength] at hunused hcontents hkept ⊢
  have hdrafts := resolveDrafts_without himports hcontents
  have hroot := resolve_of_registered hheader rfl herrors
  generalize registerModule set header root = x at *
  have hattr : ({ root with children := before ++ after } : Element).attr? "header" = some header :=
    hheader
  have hwithout := resolve_of_registered hattr hkept ((errors_without _ _ _).trans herrors)
  rw [hdrafts, errors_without, warnings_without, warnings_without] at hwithout
  -- the two resolutions differ only in the warnings about unused imports
  obtain ⟨first, last, hreported, hremaining⟩ := unusedImports_without unused later hunused
  rw [header_of_importOf hof, hof.2, ← himports] at hreported
  rw [List.map_append] at hremaining
  rw [hroot, hwithout]
  refine ⟨rfl, ⟨x.warnings ++ (resolveDrafts x.value).warnings ++ first, last, ?_, ?_⟩, fun hnone => ?_⟩
  · dsimp only
    rw [hreported, List.append_assoc _ first]
  · rw [List.append_assoc _ first, ← hremaining]
    rfl
  · have hempty : (resolveDrafts x.value).errors.isEmpty = true := List.isEmpty_iff.mpr hnone
    refine ⟨x.value.module, earlier.map (·.module), unused.module, later.map (·.module), ?_, ?_, ?_, hof.1, ?_⟩
    · exact if_pos hempty
    · change x.value.imports.map (·.module) = _
      rw [himports, List.map_append, List.map_cons]
    · rw [List.length_map]
    · refine (if_pos hempty).trans (congrArg some ?_)
      unfold Registered.module
      rw [hdrafts, ← List.map_append]
      rfl

end

def shapesAndColors : ModuleSet where
  modules :=
    [{ header := "shapes", decls := [⟨["xcb", "WIDTH"], .simple ["uint16_t"], none⟩] },
      { header := "colors", decls := [⟨["xcb", "PIXEL"], .simple ["uint32_t"], none⟩] }]

def importColors : Element := ⟨"import", [], "colors", [], ⟨24, 23⟩⟩

def sketchParts : List Element :=
  [⟨"import", [], "shapes", [], ⟨47, 23⟩⟩,
    described "typedef" [("oldname", "shapes:WIDTH"), ("newname", "HEIGHT")] [],
    described "struct" [("name", "BOX")]
      [described "field" [("type", "WIDTH"), ("name", "width")] [],
        described "field" [("type", "HEIGHT"), ("name", "height")] []]]

def sketch : Element := described "xcb" [("header", "sketch")] (importColors :: sketchParts)

theorem unused_import_removable_sketch :
    ⟨.unusedImport "colors", ⟨24, 23⟩⟩ ∈ (resolve shapesAndColors sketch).warnings ∧
    (resolve shapesAndColors { sketch with children := sketchParts }).errors =
      (resolve shapesAndColors sketch).errors ∧
    ∃ m earlier imported later, (resolve shapesAndColors sketch).module? = some m ∧
      m.imports = earlier ++ imported :: later ∧ earlier.length = 0 ∧
      shapesAndColors.get? "colors" = some imported ∧
      (resolve shapesAndColors { sketch with children := sketchParts }).module? =
        some { m with imports := earlier ++ later } := by
  have hreported : ⟨.unusedImport "colors", ⟨24, 23⟩⟩ ∈ (resolve shapesAndColors sketch).warnings := by
    decide +kernel
  have hchildren : sketch.children = [] ++ importColors :: sketchParts := rfl
  obtain ⟨hiff, hremovable⟩ := unused_import_removable shapesAndColors hchildren rfl
  have hspans : ∀ j ∈ [] ++ sketchParts, j.tag = "import" → j.span ≠ importColors.span := by
    decide +kernel
  obtain ⟨herrors, -, hmodule⟩ := hremovable ((hiff hspans).mpr hreported)
  exact ⟨hreported, herrors, hmodule (by decide +kernel)⟩

end CodecGen.Resolve
