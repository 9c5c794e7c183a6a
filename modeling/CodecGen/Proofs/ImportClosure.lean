import CodecGen.Proofs.FinishedFiles
import CodecGen.Proofs.ImportCycles
set_option autoImplicit false
/-!
What loading leaves behind. Every file that was loaded can be reached by imports from the first, and
comes after the files it imports. A header stands for the first file that was found for it, so all files
that can be reached are loaded, and no imports lead back, if every importer of a header finds it in the
same place; a header that is found in two places hides what the second file imports.
-/
namespace CodecGen.Load
open Files Markup Schema
open Resolve (resolve)

def HeaderImports (files : List Opened) (header imported : String) : Prop :=
  ∃ file ∈ files, file.header = header ∧ imported ∈ file.imported

section
variable {files : List Opened} {header imported : String}

theorem idxOf_lt_of_headerImports (hordered : Ordered files)
    (hdistinct : (files.map Opened.header).Nodup) (h : HeaderImports files header imported) :
    (files.map Opened.header).idxOf imported < (files.map Opened.header).idxOf header := by
  obtain ⟨file, hfile, rfl, himported⟩ := h
  obtain ⟨before, after, rfl⟩ := List.append_of_mem hfile
  have hbefore := hordered before file after rfl imported himported
  rw [List.map_append, List.map_cons] at hdistinct ⊢
  have hnot : file.header ∉ before.map Opened.header := fun hmem =>
    (List.nodup_append.mp hdistinct).2.2 _ hmem _ List.mem_cons_self rfl
  rw [List.idxOf_append_of_mem hbefore, List.idxOf_append_of_notMem hnot, List.idxOf_cons_self]
  exact Nat.lt_of_lt_of_le (List.idxOf_lt_length_of_mem hbefore) (Nat.le_add_right _ _)

theorem headerImports_acyclic (hordered : Ordered files) (hdistinct : (files.map Opened.header).Nodup)
    (header : String) : ¬ Relation.TransGen (HeaderImports files) header header := by
  have hlt : ∀ {imported}, Relation.TransGen (HeaderImports files) header imported →
      (files.map Opened.header).idxOf imported < (files.map Opened.header).idxOf header := by
    intro imported h
    induction h with
    | single hedge => exact idxOf_lt_of_headerImports hordered hdistinct hedge
    | tail _ hedge ih => exact Nat.lt_trans (idxOf_lt_of_headerImports hordered hdistinct hedge) ih
  exact fun h => absurd (hlt h) (Nat.lt_irrefl _)

end

/-- Loading has come to an end with the files below the first one and then this one itself. Each of them
was found by one of them. Their modules and their warnings stand in the order of the files, which is one
in which imports come first. -/
structure Closure (tree : Tree) (options : Options) (start : String) (r : Loaded)
    (below : List Opened) (root : Opened) : Prop where
  first : openFile tree [] start = .ok root
  opened : ∀ file ∈ below ++ [root], ∃ active, openFile tree active file.path = .ok file
  found : ∀ file ∈ below, ∃ g ∈ below ++ [root], Finds tree options g file
  unrolling : r.set.unrolling = options.unrolling
  modules : List.Forall₂ (ModuleOf r.set) (below ++ [root]) r.set.modules
  module : ModuleOf r.set root r.module
  headers : r.set.headers = (below ++ [root]).map Opened.header
  distinct : r.set.headers.Nodup
  ordered : Ordered (below ++ [root])
  warnings : r.warnings = (below ++ [root]).flatMap fun file =>
    (resolve r.set file.root).warnings.map (FileWarning.mk file.path file.src)

section
variable {tree : Tree} {options : Options} {start : String} {r : Loaded}
  {below : List Opened} {root : Opened}

theorem closure_of_load (hnamed : NamedByHeader tree options start) {depth : Nat} {log : List LogEvent}
    (h : load depth tree options {} start = some (.ok r, log)) :
    ∃ below root, Closure tree options start r below root := by
  have hrun := load_eq_ok_iff.mp h
  have hnothing : Done tree [] { set := initialSet options {} } :=
    ⟨by simp, .nil, by simp, by simp [Ordered], rfl⟩
  obtain ⟨below, root, hopen, hdone, hmodule, hbehalf⟩ :=
    loadWithin_finishes hnamed depth [] .refl hnothing (by simp) hrun
  rw [List.nil_append] at hdone
  exact ⟨below, root, {
    first := hopen
    opened := hdone.opened
    found := fun file hfile => (hbehalf file hfile).2
    unrolling := (kept_unrolling options.unrolling).loadWithin hrun rfl
    modules := hdone.modules
    module := hmodule
    headers := hdone.headers
    distinct := hdone.headers ▸ hdone.distinct
    ordered := hdone.ordered
    warnings := hdone.warnings }⟩

/-- What is handed on from importers to the files found for them holds of every file if it holds of the
first. The importer of a file stands after it, so the induction is on the files after a file. -/
theorem Closure.forall_mem (h : Closure tree options start r below root) {P : Opened → Prop}
    (hroot : P root)
    (hfound : ∀ g ∈ below ++ [root], ∀ file ∈ below, Finds tree options g file → P g → P file) :
    ∀ file ∈ below ++ [root], P file := by
  intro file hfile
  generalize hrank :
    (below ++ [root]).length - ((below ++ [root]).map Opened.header).idxOf file.header = rank
  induction rank using Nat.strongRecOn generalizing file with
  | ind rank ih =>
    rcases List.mem_append.mp hfile with hbelow | hlast
    · obtain ⟨g, hg, hfinds⟩ := h.found file hbelow
      have hlt := idxOf_lt_of_headerImports h.ordered (h.headers ▸ h.distinct) ⟨g, hg, rfl, hfinds.imported⟩
      have hbound := List.idxOf_lt_length_of_mem (List.mem_map_of_mem (f := Opened.header) hg)
      rw [List.length_map] at hbound
      exact hfound g hg file hbelow hfinds (ih _ (by omega) g hg rfl)
    · rw [List.mem_singleton.mp hlast]
      exact hroot

theorem Closure.acyclic (h : Closure tree options start r below root) (header : String) :
    ¬ Relation.TransGen (HeaderImports (below ++ [root])) header header :=
  headerImports_acyclic h.ordered (h.headers ▸ h.distinct) header

theorem Closure.ledTo (h : Closure tree options start r below root) :
    ∀ file ∈ below ++ [root], LedTo tree options start file.path := by
  refine h.forall_mem ?_ ?_
  · rw [path_of_openFile h.first]
    exact .refl
  · intro g hg file _ hfinds hled
    obtain ⟨active, hopen⟩ := h.opened g hg
    exact hled.import hopen hfinds.imported hfinds.found

end

section
variable {tree : Tree} {options : Options} {start path : String} {r : Loaded}
  {below before after : List Opened} {root file : Opened}

theorem Closure.finds (h : Closure tree options start r below root)
    (hone : Unambiguous tree options start) (hsplit : below ++ [root] = before ++ file :: after)
    (hled : LedTo tree options start path) (hplace : tree.reach path = tree.reach file.path)
    {header : String} (himported : header ∈ file.imported) :
    ∃ g ∈ before, g.header = header ∧ ∃ next, findImport? tree options path header = some next ∧
      tree.reach next = tree.reach g.path := by
  obtain ⟨g, hg, rfl⟩ := List.mem_map.mp (h.ordered before file after hsplit header himported)
  have hbelow : g ∈ below := by
    have hdrop := congrArg List.dropLast hsplit
    rw [List.dropLast_concat, List.dropLast_append_of_ne_nil (List.cons_ne_nil _ _)] at hdrop
    rw [hdrop]
    exact List.mem_append_left _ hg
  -- some file found the one before, and whichever file imports its header finds the same place
  obtain ⟨importer, himporter, hfinds⟩ := h.found g hbelow
  obtain ⟨active, hopen⟩ := h.opened importer himporter
  obtain ⟨around, hfile⟩ := h.opened file (by rw [hsplit]; simp)
  have hsame := hone path importer.path hled (h.ledTo importer himporter) g.header
    (importsAt_of_same_place hplace hfile ▸ himported) (importsAt_of_openFile hopen ▸ hfinds.imported)
  rw [hfinds.found, Option.map_some] at hsame
  obtain ⟨next, hnext, hreach⟩ := Option.map_eq_some_iff.mp hsame
  exact ⟨g, hg, rfl, next, hnext, hreach⟩

theorem Closure.header_eq_of_same_place (h : Closure tree options start r below root) {file other : Opened}
    (hfile : file ∈ below ++ [root]) (hother : other ∈ below ++ [root])
    (hplace : tree.reach other.path = tree.reach file.path) : other.header = file.header := by
  obtain ⟨active, hopen⟩ := h.opened file hfile
  obtain ⟨around, hopen'⟩ := h.opened other hother
  exact Option.some.inj ((headerAt?_of_openFile hopen').symm.trans (headerAt?_of_same_place hplace hopen))

theorem Closure.importsFrom (h : Closure tree options start r below root)
    (hone : Unambiguous tree options start) (hled : LedTo tree options start path)
    {file : Opened} (hfile : file ∈ below ++ [root]) (hplace : tree.reach path = tree.reach file.path)
    {next : String} (hstep : ImportsFrom tree options path next) :
    ∃ g ∈ below ++ [root], tree.reach next = tree.reach g.path ∧
      HeaderImports (below ++ [root]) file.header g.header := by
  obtain ⟨header, himported, hfound⟩ := hstep
  obtain ⟨active, hopen⟩ := h.opened file hfile
  rw [importsAt_of_same_place hplace hopen] at himported
  obtain ⟨before, after, hsplit⟩ := List.append_of_mem hfile
  obtain ⟨g, hg, rfl, next', hnext, hreach⟩ := h.finds hone hsplit hled hplace himported
  obtain rfl := Option.some.inj (hfound.symm.trans hnext)
  refine ⟨g, ?_, hreach, file, hfile, rfl, himported⟩
  rw [hsplit]
  exact List.mem_append_left _ hg

theorem Closure.place_of_ledTo (h : Closure tree options start r below root)
    (hone : Unambiguous tree options start) (hled : LedTo tree options start path) :
    ∃ file ∈ below ++ [root], tree.reach path = tree.reach file.path := by
  induction hled with
  | refl => exact ⟨root, by simp, by rw [path_of_openFile h.first]⟩
  | tail hled hstep ih =>
    obtain ⟨file, hfile, hplace⟩ := ih
    obtain ⟨g, hg, hreach, -⟩ := h.importsFrom hone hled hfile hplace hstep
    exact ⟨g, hg, hreach⟩

theorem Closure.header_ledTo (h : Closure tree options start r below root) {header : String}
    (hmem : header ∈ r.set.headers) :
    ∃ path, LedTo tree options start path ∧ headerAt? tree path = some header := by
  rw [h.headers] at hmem
  obtain ⟨file, hfile, rfl⟩ := List.mem_map.mp hmem
  obtain ⟨active, hopen⟩ := h.opened file hfile
  exact ⟨file.path, h.ledTo file hfile, headerAt?_of_openFile hopen⟩

theorem Closure.header_of_ledTo (h : Closure tree options start r below root)
    (hone : Unambiguous tree options start) (hled : LedTo tree options start path) {header : String}
    (hheader : headerAt? tree path = some header) : header ∈ r.set.headers := by
  obtain ⟨file, hfile, hplace⟩ := h.place_of_ledTo hone hled
  obtain ⟨active, hopen⟩ := h.opened file hfile
  obtain rfl := Option.some.inj (hheader.symm.trans (headerAt?_of_same_place hplace hopen))
  rw [h.headers]
  exact List.mem_map_of_mem hfile

theorem Closure.paths_acyclic (h : Closure tree options start r below root)
    (hone : Unambiguous tree options start) (hled : LedTo tree options start path) :
    ¬ Relation.TransGen (ImportsFrom tree options) path path := by
  obtain ⟨file, hfile, hplace⟩ := h.place_of_ledTo hone hled
  have hheaders : ∀ {next}, Relation.TransGen (ImportsFrom tree options) path next →
      ∃ g ∈ below ++ [root], tree.reach next = tree.reach g.path ∧
        Relation.TransGen (HeaderImports (below ++ [root])) file.header g.header := by
    intro next hsteps
    induction hsteps with
    | single hstep =>
      obtain ⟨g, hg, hreach, hedge⟩ := h.importsFrom hone hled hfile hplace hstep
      exact ⟨g, hg, hreach, .single hedge⟩
    | tail hsteps hstep ih =>
      obtain ⟨g, hg, hreach, hedges⟩ := ih
      have hled' := hled.trans hsteps.to_reflTransGen
      obtain ⟨g', hg', hreach', hedge⟩ := h.importsFrom hone hled' hg hreach hstep
      exact ⟨g', hg', hreach', hedges.tail hedge⟩
  intro hcycle
  obtain ⟨g, hg, hreach, hedges⟩ := hheaders hcycle
  rw [h.header_eq_of_same_place hfile hg (hreach.symm.trans hplace)] at hedges
  exact h.acyclic file.header hedges

end

/-- Where files declare the headers by which they are imported, loading leaves the modules of files that
imports lead to from the first one, each header once and after the headers that its file imports; the
warnings stand in the order of the files. These are all headers that imports lead to, and no imports
lead from a file back to it, if a header is found in the same place by all its importers. A cycle is
reported only for a chain of imports that returns to a file on it. -/
theorem loaded_in_import_order (tree : Tree) (options : Options) (start : String)
    (hnamed : NamedByHeader tree options start) :
    (∀ depth r log, load depth tree options {} start = some (.ok r, log) →
      ∃ below root, Closure tree options start r below root ∧
        (∀ header ∈ r.set.headers, ∃ path, LedTo tree options start path ∧
          headerAt? tree path = some header) ∧
        (Unambiguous tree options start →
          (∀ header path, LedTo tree options start path → headerAt? tree path = some header →
            header ∈ r.set.headers) ∧
          ∀ path, LedTo tree options start path →
            ¬ Relation.TransGen (ImportsFrom tree options) path path)) ∧
    (∀ depth known path src errors log e,
      load depth tree options known start = some (.error (.unresolved path src errors), log) →
      e ∈ errors → e.cause.code = 3003 →
        ∃ files header, e.cause = .importCycle (files.map Opened.header ++ [header]) ∧
          ImportChain tree options start files header ∧ header ∈ files.map Opened.header ∧
          files.getLast?.map Opened.path = some path) := by
  constructor
  · intro depth r log hload
    obtain ⟨below, root, hclosure⟩ := closure_of_load hnamed hload
    exact ⟨below, root, hclosure, fun _ => hclosure.header_ledTo, fun hone =>
      ⟨fun _ _ hled => hclosure.header_of_ledTo hone hled, fun _ => hclosure.paths_acyclic hone⟩⟩
  · intro depth known path src errors log e hload he hcode
    obtain ⟨q, hrun, -⟩ := load_eq_error_iff.mp hload
    obtain ⟨chain, hcause⟩ : ∃ chain, e.cause = .importCycle chain := by
      cases hcause : e.cause <;> simp_all [Resolve.ErrorCause.code]
    obtain ⟨files, header, hchain, hlast, rfl, hmem⟩ := importChain_of_run hnamed .refl hrun he hcause
    exact ⟨files, header, hcause, hchain, hmem, hlast⟩

def importing (header : String) (imports : List String) : Entry :=
  .file (Text.Utf8.encode ("<xcb header=\"" ++ header ++ "\">" ++
    String.join (imports.map fun i => "<import>" ++ i ++ "</import>") ++ "</xcb>"))

def diamond : Tree := .ofEntries [("top.xml", importing "top" ["left", "right"]),
  ("left.xml", importing "left" ["bottom"]), ("right.xml", importing "right" ["bottom"]),
  ("bottom.xml", importing "bottom" [])]

def lasso : Tree := .ofEntries [("top.xml", importing "top" ["left"]),
  ("left.xml", importing "left" ["right"]), ("right.xml", importing "right" ["left"])]

def causes : Except Failure Loaded → List Resolve.ErrorCause
  | .error (.unresolved _ _ errors) => errors.map (·.cause)
  | _ => []

theorem loaded_in_import_order_diamond :
    (NamedByHeader diamond {} "top.xml" ∧ Unambiguous diamond {} "top.xml" ∧
      ∃ r log below root, load 3 diamond {} {} "top.xml" = some (.ok r, log) ∧
        r.set.headers = ["bottom", "left", "right", "top"] ∧
        Closure diamond {} "top.xml" r below root ∧
        ¬ Relation.TransGen (ImportsFrom diamond {}) "top.xml" "top.xml") ∧
    (NamedByHeader lasso {} "top.xml" ∧ ∃ files header,
      (load 4 lasso {} {} "top.xml").map (fun answer => causes answer.1) =
        some [.importCycle ["top", "left", "right", "left"]] ∧
      files.map Opened.header ++ [header] = ["top", "left", "right", "left"] ∧
      ImportChain lasso {} "top.xml" files header) := by
  have hdiamond : NamedByHeader diamond {} "top.xml" :=
    namedByHeader_of_closed ["top.xml", "left.xml", "right.xml", "bottom.xml"]
      (by decide) (by decide +kernel)
  have hone : Unambiguous diamond {} "top.xml" :=
    unambiguous_of_closed ["top.xml", "left.xml", "right.xml", "bottom.xml"]
      (by decide) (by decide +kernel) (by decide +kernel)
  have hlasso : NamedByHeader lasso {} "top.xml" :=
    namedByHeader_of_closed ["top.xml", "left.xml", "right.xml"] (by decide) (by decide +kernel)
  have hheaders : (load 3 diamond {} {} "top.xml").map (fun answer =>
      answer.1.toOption.map (·.set.headers)) = some (some ["bottom", "left", "right", "top"]) := by
    decide +kernel
  have hcauses : (load 4 lasso {} {} "top.xml").map (fun answer => causes answer.1) =
      some [.importCycle ["top", "left", "right", "left"]] := by decide +kernel
  refine ⟨⟨hdiamond, hone, ?_⟩, hlasso, ?_⟩
  · obtain ⟨⟨_ | r, log⟩, hload, hsome⟩ := Option.map_eq_some_iff.mp hheaders
    · cases hsome
    · obtain ⟨below, root, hclosure, -, hall⟩ :=
        (loaded_in_import_order diamond {} "top.xml" hdiamond).1 3 r log hload
      exact ⟨r, log, below, root, hload, Option.some.inj hsome, hclosure, (hall hone).2 _ .refl⟩
  · obtain ⟨⟨result, log⟩, hload, hone⟩ := Option.map_eq_some_iff.mp hcauses
    cases result with
    | ok r => cases hone
    | error failure =>
      cases failure with
      | unresolved path src errors =>
        obtain ⟨e, rfl, hcause⟩ := List.map_eq_singleton_iff.mp hone
        obtain ⟨files, header, hcycle, hchain, -, -⟩ :=
          (loaded_in_import_order lasso {} "top.xml" hlasso).2 4 {} path src [e] log e hload
            List.mem_cons_self (by rw [hcause]; rfl)
        rw [hcause] at hcycle
        exact ⟨files, header, hcauses, (Resolve.ErrorCause.importCycle.inj hcycle).symm, hchain⟩
      | unreadable | malformed => cases hone

/-- A header that is found in two places. The file `d/x.xml`, with the imports given, is never loaded,
since `x.xml` was loaded before it. -/
def shadowed (imports : List String) : Tree := .ofEntries [("top.xml", importing "top" ["x", "d/y"]),
  ("x.xml", importing "x" []), ("d/y.xml", importing "d/y" ["x"]), ("d/x.xml", importing "x" imports),
  ("d/z.xml", importing "z" [])]

/-- Loading may succeed without a header that imports lead to, and where imports lead back to the first
file. -/
theorem hidden_imports_not_loaded :
    (NamedByHeader (shadowed ["z"]) {} "top.xml" ∧
      (load 3 (shadowed ["z"]) {} {} "top.xml").map (fun answer =>
        answer.1.toOption.map (·.set.headers)) = some (some ["x", "d/y", "top"]) ∧
      LedTo (shadowed ["z"]) {} "top.xml" "d/z.xml" ∧
      headerAt? (shadowed ["z"]) "d/z.xml" = some "z") ∧
    (NamedByHeader (shadowed ["z", "top"]) { searchPath := ["."] } "top.xml" ∧
      (load 3 (shadowed ["z", "top"]) { searchPath := ["."] } {} "top.xml").map (·.1.isOk) =
        some true ∧
      Relation.TransGen (ImportsFrom (shadowed ["z", "top"]) { searchPath := ["."] })
        "top.xml" "top.xml") := by
  have hnamed : NamedByHeader (shadowed ["z"]) {} "top.xml" :=
    namedByHeader_of_closed ["top.xml", "x.xml", "d/y.xml", "d/x.xml", "d/z.xml"]
      (by decide) (by decide +kernel)
  have hback : NamedByHeader (shadowed ["z", "top"]) { searchPath := ["."] } "top.xml" :=
    namedByHeader_of_closed ["top.xml", "x.xml", "d/y.xml", "d/x.xml", "d/z.xml"]
      (by decide) (by decide +kernel)
  refine ⟨⟨hnamed, by decide +kernel, ?_, by decide +kernel⟩, hback, by decide +kernel, ?_⟩
  · have hsteps : ImportsFrom (shadowed ["z"]) {} "top.xml" "d/y.xml" ∧
        ImportsFrom (shadowed ["z"]) {} "d/y.xml" "d/x.xml" ∧
        ImportsFrom (shadowed ["z"]) {} "d/x.xml" "d/z.xml" := by decide +kernel
    exact ((Relation.ReflTransGen.single hsteps.1).tail hsteps.2.1).tail hsteps.2.2
  · have hsteps : ImportsFrom (shadowed ["z", "top"]) { searchPath := ["."] } "top.xml" "d/y.xml" ∧
        ImportsFrom (shadowed ["z", "top"]) { searchPath := ["."] } "d/y.xml" "d/x.xml" ∧
        ImportsFrom (shadowed ["z", "top"]) { searchPath := ["."] } "d/x.xml" "top.xml" := by
      decide +kernel
    exact ((Relation.TransGen.single hsteps.1).tail hsteps.2.1).tail hsteps.2.2

end CodecGen.Load
