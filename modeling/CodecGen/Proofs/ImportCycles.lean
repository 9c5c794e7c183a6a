import CodecGen.Proofs.ComparedModules
import CodecGen.Proofs.FileImports
import CodecGen.Proofs.ImportChains
set_option autoImplicit false
/-!
Imports that return. A cycle is reported only where a chain of files, each found by the one before it,
ends with an import of the header of a file on it.
-/
namespace CodecGen.Load
open Files Markup Schema

/-- Files of which each finds the next, the first at a path; the last imports a header. -/
structure ImportChain (tree : Tree) (options : Options) (path : String) (files : List Opened)
    (header : String) : Prop where
  opened : ∀ file ∈ files, ∃ active, openFile tree active file.path = .ok file
  first : files.head?.map Opened.path = some path
  linked : files.IsChain (Finds tree options)
  imported : ∃ last ∈ files.getLast?, header ∈ last.imported

section
variable {tree : Tree} {options : Options} {start path header : String} {active : List String}
  {file : Opened} {files : List Opened}

theorem importChain_single (hopen : openFile tree active path = .ok file)
    (himported : header ∈ file.imported) : ImportChain tree options path [file] header := by
  obtain rfl := path_of_openFile hopen
  refine ⟨?_, rfl, .singleton file, file, rfl, himported⟩
  intro other hother
  obtain rfl := List.mem_singleton.mp hother
  exact ⟨active, hopen⟩

theorem ImportChain.cons (hnamed : NamedByHeader tree options start)
    (hled : LedTo tree options start path) (hopen : openFile tree active path = .ok file)
    {imported next : String} (himported : imported ∈ file.imported)
    (hfound : findImport? tree options path imported = some next)
    (h : ImportChain tree options next files header) :
    ImportChain tree options path (file :: files) header := by
  cases files with
  | nil => cases h.first
  | cons g rest =>
    obtain rfl := path_of_openFile hopen
    obtain ⟨around, hg⟩ := h.opened g List.mem_cons_self
    have hnext : g.path = next := Option.some.inj h.first
    have hheader : g.header = imported := hnamed.header_eq hled hopen himported hfound (hnext ▸ hg)
    have hfinds : Finds tree options file g := by
      constructor
      · exact hheader ▸ himported
      · rw [hheader, hfound, hnext]
    constructor
    · exact List.forall_mem_cons.mpr ⟨⟨active, hopen⟩, h.opened⟩
    · rfl
    · exact .cons_cons hfinds h.linked
    · rw [List.getLast?_cons_cons]
      exact h.imported

theorem openFile_ne_unresolved {src : Bytes} {errors : List Resolve.Error} {blamed : String} :
    openFile tree active path ≠ .error (.unresolved blamed src errors) := by
  unfold openFile
  split
  · simp
  · split
    · simp
    · simp

theorem loadImports_eq_error {enter : String → Loading Module} {nodes : List Element} {p q : Progress}
    {e : Failure} (h : (loadImports tree options enter file nodes).run p = some (.error e, q)) :
    ∃ node ∈ nodes, ∃ now, (loadImport tree options enter file node).run now = some (.error e, q) := by
  induction nodes generalizing p with
  | nil => cases h
  | cons node rest ih =>
    rcases run_bind_eq_error h with h | ⟨_, now, -, h⟩
    · exact ⟨node, List.mem_cons_self, p, h⟩
    · obtain ⟨other, hother, hrun⟩ := ih h
      exact ⟨other, List.mem_cons_of_mem _ hother, hrun⟩

section
variable {p q : Progress} {blamed : String} {src : Bytes} {errors : List Resolve.Error}
  {e : Resolve.Error} {chain : List String}

theorem cycle_of_loadImport {enter : String → Loading Module} {node : Element}
    (hrun : (loadImport tree options enter file node).run p =
      some (.error (.unresolved blamed src errors), q))
    (he : e ∈ errors) (hcause : e.cause = .importCycle chain) :
    (node.text ∈ file.active ∧ blamed = file.path ∧ chain = file.active ++ [node.text]) ∨
      ∃ next now, findImport? tree options file.path node.text = some next ∧
        (enter next).run now = some (.error (.unresolved blamed src errors), q) := by
  rw [run_loadImport] at hrun
  split at hrun
  · next hactive =>
    cases hrun
    obtain rfl := List.mem_singleton.mp he
    cases hcause
    exact .inl ⟨List.contains_iff_mem.mp hactive, rfl, rfl⟩
  split at hrun
  · cases hrun
  split at hrun
  · cases hrun
    obtain rfl := List.mem_singleton.mp he
    cases hcause
  · next next hfound =>
    rcases run_bind_eq_error hrun with hrun | ⟨_, _, -, hrun⟩
    · exact .inr ⟨next, _, hfound, hrun⟩
    · cases hrun

theorem cycle_of_loadWithin {depth : Nat}
    (hrun : (loadWithin tree options (depth + 1) active path).run p =
      some (.error (.unresolved blamed src errors), q))
    (he : e ∈ errors) (hcause : e.cause = .importCycle chain) :
    ∃ file, openFile tree active path = .ok file ∧ ∃ node, node.text ∈ file.imported ∧ ∃ now,
      (loadImport tree options (loadWithin tree options depth file.active) file node).run now =
        some (.error (.unresolved blamed src errors), q) := by
  rw [run_loadWithin_succ] at hrun
  split at hrun
  · next hopen =>
    rw [(Except.error.inj (Prod.mk.inj (Option.some.inj hrun)).1)] at hopen
    exact absurd hopen openFile_ne_unresolved
  · next file hopen =>
    rcases run_bind_eq_error hrun with hrun | ⟨_, now, -, hrun⟩
    · obtain ⟨node, hnode, now, hrun⟩ := loadImports_eq_error hrun
      exact ⟨file, hopen, node, List.mem_map_of_mem hnode, now, hrun⟩
    · -- all imports are there, and resolution knows nothing of cycles
      rw [run_finishFile] at hrun
      split at hrun
      · cases hrun
        exact absurd hcause (Resolve.not_importCycle_of_resolve he chain)
      · cases hrun

theorem importChain_of_run (hnamed : NamedByHeader tree options start) {depth : Nat}
    (hled : LedTo tree options start path)
    (hrun : (loadWithin tree options depth active path).run p =
      some (.error (.unresolved blamed src errors), q))
    (he : e ∈ errors) (hcause : e.cause = .importCycle chain) :
    ∃ files header, ImportChain tree options path files header ∧
      files.getLast?.map Opened.path = some blamed ∧
      chain = active ++ (files.map Opened.header ++ [header]) ∧
      header ∈ active ++ files.map Opened.header := by
  induction depth generalizing active path p with
  | zero => cases hrun
  | succ depth ih =>
    obtain ⟨file, hopen, node, himported, now, hfails⟩ := cycle_of_loadWithin hrun he hcause
    obtain rfl := path_of_openFile hopen
    have hactive := (of_openFile hopen).1
    rcases cycle_of_loadImport hfails he hcause with ⟨hmem, rfl, rfl⟩ | ⟨next, now, hfound, hinside⟩
    · -- the import returns to a file that is being loaded
      rw [hactive] at hmem ⊢
      exact ⟨[file], node.text, importChain_single hopen himported, rfl, by simp, hmem⟩
    · -- the cycle is reported inside the file found, whose chain this file begins
      obtain ⟨files, header, hchain, hlast, rfl, hmem⟩ := ih (hled.import hopen himported hfound) hinside
      refine ⟨file :: files, header, hchain.cons hnamed hled hopen himported hfound, ?_, ?_, ?_⟩
      · cases files with
        | nil => cases hlast
        | cons => rwa [List.getLast?_cons_cons]
      · simp [hactive]
      · simpa [hactive] using hmem

end

end

end CodecGen.Load
