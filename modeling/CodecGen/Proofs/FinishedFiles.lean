import CodecGen.Proofs.ComparedModules
import CodecGen.Proofs.FileImports
import CodecGen.Proofs.ImportChains
import Mathlib.Data.List.Forall2
import Mathlib.Data.List.Nodup
set_option autoImplicit false
/-!
What files that are finished leave behind. A file is finished when the files of its imports are, so the
modules come in an order in which every import stands before its importer, and the warnings come file
by file.
-/
namespace CodecGen
open Files Markup Schema

namespace ModuleSet
variable {set : ModuleSet} {m : Module} {header : String}

theorem modules_add (h : m.header ∉ set.headers) : (set.add m).modules = set.modules ++ [m] := by
  obtain ⟨modules, unrolling⟩ := set
  change addTo m modules = modules ++ [m]
  change m.header ∉ modules.map (·.header) at h
  induction modules with
  | nil => rfl
  | cons n rest ih =>
    rw [List.map_cons, List.mem_cons, not_or] at h
    have hne : (n.header == m.header) = false := by simpa using Ne.symm h.1
    rw [addTo, hne, ih h.2]
    rfl

theorem get?_isSome_iff : (set.get? header).isSome = true ↔ header ∈ set.headers := by
  simp [get?, headers]

theorem get?_add_of_mem (h : m.header ∉ set.headers) (hmem : header ∈ set.headers) :
    (set.add m).get? header = set.get? header := by
  unfold get?
  rw [modules_add h, List.find?_append]
  exact Option.or_of_isSome (get?_isSome_iff.mpr hmem)

theorem get?_of_mem (h : set.headers.Nodup) (hm : m ∈ set.modules) : set.get? m.header = some m := by
  have hsome : (set.get? m.header).isSome = true := get?_isSome_iff.mpr (List.mem_map_of_mem hm)
  obtain ⟨n, hn⟩ := Option.isSome_iff_exists.mp hsome
  have hheader : n.header = m.header := by simpa using List.find?_some hn
  rw [hn, List.inj_on_of_nodup_map h (List.mem_of_find?_eq_some hn) hm hheader]

end ModuleSet

namespace Load
open Resolve (resolve)

/-- A module is what becomes of a file among the modules of a set: it has the file's header and the
modules that the file imports. -/
structure ModuleOf (set : ModuleSet) (file : Opened) (m : Module) : Prop where
  resolved : (resolve set file.root).module? = some m
  header : m.header = file.header
  imports : m.imports.map some = file.imported.map set.get?

theorem moduleOf_of_resolve {set : ModuleSet} {file : Opened} {m : Module}
    (h : (resolve set file.root).module? = some m) : ModuleOf set file m where
  resolved := h
  header := (Resolve.module_of_resolve h).1
  imports := by rw [(Resolve.module_of_resolve h).2, Opened.imported, List.map_map, Function.comp_def]

def Ordered (files : List Opened) : Prop :=
  ∀ before file after, files = before ++ file :: after →
    ∀ header ∈ file.imported, header ∈ before.map Opened.header

theorem Ordered.concat {files : List Opened} {file : Opened} (h : Ordered files)
    (himports : ∀ header ∈ file.imported, header ∈ files.map Opened.header) :
    Ordered (files ++ [file]) := by
  intro before other after hsplit
  obtain rfl | ⟨after, last, rfl⟩ := after.eq_nil_or_concat
  · obtain ⟨rfl, hlast⟩ := List.append_inj' hsplit rfl
    obtain rfl := List.singleton_inj.mp hlast
    exact himports
  · have hsplit' : files ++ [file] = (before ++ other :: after) ++ [last] := by
      rw [hsplit, List.concat_eq_append, List.append_assoc, List.cons_append]
    exact h before other after (List.append_inj' hsplit' rfl).1

theorem Ordered.mem {files : List Opened} (h : Ordered files) {file : Opened} (hmem : file ∈ files)
    {header : String} (himported : header ∈ file.imported) : header ∈ files.map Opened.header := by
  obtain ⟨before, after, rfl⟩ := List.append_of_mem hmem
  rw [List.map_append]
  exact List.mem_append_left _ (h before file after rfl header himported)

/-- What files that are finished have left behind: their modules and their warnings, file by file. -/
structure Done (tree : Tree) (files : List Opened) (p : Progress) : Prop where
  opened : ∀ file ∈ files, ∃ active, openFile tree active file.path = .ok file
  modules : List.Forall₂ (ModuleOf p.set) files p.set.modules
  distinct : (files.map Opened.header).Nodup
  ordered : Ordered files
  warnings : p.warnings = files.flatMap fun file =>
    (resolve p.set file.root).warnings.map (FileWarning.mk file.path file.src)

section
variable {tree : Tree} {files : List Opened} {p q : Progress} {file : Opened} {m : Module}

theorem Done.headers (h : Done tree files p) : p.set.headers = files.map Opened.header := by
  have hmodules := h.modules
  clear h
  unfold ModuleSet.headers
  generalize p.set.modules = modules at hmodules
  induction hmodules with
  | nil => rfl
  | cons hof _ ih => rw [List.map_cons, List.map_cons, hof.header, ih]

theorem Done.log (h : Done tree files p) (log : List LogEvent) : Done tree files { p with log } :=
  ⟨h.opened, h.modules, h.distinct, h.ordered, h.warnings⟩

theorem resolve_add {set : ModuleSet} (hfresh : m.header ∉ set.headers)
    (himported : ∀ header ∈ file.imported, header ∈ set.headers) :
    resolve (set.add m) file.root = resolve set file.root :=
  Resolve.resolve_congr rfl fun _ he =>
    ModuleSet.get?_add_of_mem hfresh (himported _ (List.mem_map_of_mem he))

theorem ModuleOf.add {set : ModuleSet} {n : Module} (h : ModuleOf set file n)
    (hfresh : m.header ∉ set.headers) (himported : ∀ header ∈ file.imported, header ∈ set.headers) :
    ModuleOf (set.add m) file n := by
  apply moduleOf_of_resolve
  rw [resolve_add hfresh himported, h.resolved]

theorem Done.finish (h : Done tree files p) {active : List String}
    (hopen : openFile tree active file.path = .ok file) (hfresh : file.header ∉ files.map Opened.header)
    (himports : ∀ header ∈ file.imported, header ∈ files.map Opened.header)
    (hresolved : (resolve p.set file.root).module? = some m) (hset : q.set = p.set.add m)
    (hwarnings : q.warnings = p.warnings ++
      (resolve p.set file.root).warnings.map (FileWarning.mk file.path file.src)) :
    Done tree (files ++ [file]) q ∧ ModuleOf q.set file m := by
  have hof := moduleOf_of_resolve hresolved
  have hnew : m.header ∉ p.set.headers := by
    rw [hof.header, h.headers]
    exact hfresh
  -- files only see the modules that they import, which were there before this one
  have hthere : ∀ other ∈ files ++ [file], ∀ header ∈ other.imported, header ∈ p.set.headers := by
    intro other hmem header himported
    rw [h.headers]
    rcases List.mem_append.mp hmem with hmem | hmem
    · exact h.ordered.mem hmem himported
    · rw [List.mem_singleton.mp hmem] at himported
      exact himports header himported
  have hkept : List.Forall₂ (ModuleOf (p.set.add m)) files p.set.modules := by
    have hfiles : ∀ other ∈ files, ∀ header ∈ other.imported, header ∈ p.set.headers :=
      fun other hmem => hthere other (List.mem_append_left _ hmem)
    have hboth := (List.forall₂_and_left _ _).mpr ⟨hfiles, h.modules⟩
    exact hboth.imp fun _ _ hmodule => hmodule.2.add hnew hmodule.1
  have hlast : ModuleOf (p.set.add m) file m := hof.add hnew (hthere file (by simp))
  refine ⟨⟨?_, ?_, ?_, h.ordered.concat himports, ?_⟩, hset ▸ hlast⟩
  · intro other hmem
    rcases List.mem_append.mp hmem with hmem | hmem
    · exact h.opened other hmem
    · obtain rfl := List.mem_singleton.mp hmem
      exact ⟨active, hopen⟩
  · rw [hset, ModuleSet.modules_add hnew]
    exact List.rel_append hkept (.cons hlast .nil)
  · rw [List.map_append, List.nodup_append]
    refine ⟨h.distinct, List.nodup_singleton _, ?_⟩
    intro a ha b hb heq
    rw [heq, List.mem_singleton.mp hb] at ha
    exact hfresh ha
  · have hsame : ∀ other ∈ files ++ [file], resolve q.set other.root = resolve p.set other.root := by
      intro other hmem
      rw [hset]
      exact resolve_add hnew (hthere other hmem)
    rw [List.flatMap_congr fun other hmem => by rw [hsame other hmem], List.flatMap_append,
      ← h.warnings, hwarnings, List.flatMap_singleton]

end

/-- Files that loading finished on behalf of a file: each was found by that file or by another of them,
and none has the header of a file that was being loaded. -/
def OnBehalf (tree : Tree) (options : Options) (file : Opened) (below : List Opened) : Prop :=
  ∀ other ∈ below, other.header ∉ file.active ∧ ∃ g ∈ below ++ [file], Finds tree options g other

section
variable {tree : Tree} {options : Options} {start path : String} {active : List String} {file : Opened}
  {done : List Opened} {p q : Progress}

theorem OnBehalf.append {first second : List Opened} (h : OnBehalf tree options file first)
    (h' : OnBehalf tree options file second) : OnBehalf tree options file (first ++ second) := by
  intro other hmem
  rcases List.mem_append.mp hmem with hmem | hmem
  · obtain ⟨hnot, g, hg, hfinds⟩ := h other hmem
    refine ⟨hnot, g, ?_, hfinds⟩
    rw [List.append_assoc]
    rcases List.mem_append.mp hg with hg | hg
    · exact List.mem_append_left _ hg
    · exact List.mem_append_right _ (List.mem_append_right _ hg)
  · obtain ⟨hnot, g, hg, hfinds⟩ := h' other hmem
    refine ⟨hnot, g, ?_, hfinds⟩
    rw [List.append_assoc]
    exact List.mem_append_right _ hg

theorem OnBehalf.import {below : List Opened} {found : Opened} (h : OnBehalf tree options found below)
    (hactive : found.active = file.active ++ [found.header]) (hnot : found.header ∉ file.active)
    (hfinds : Finds tree options file found) : OnBehalf tree options file (below ++ [found]) := by
  intro other hmem
  rcases List.mem_append.mp hmem with hmem | hmem
  · obtain ⟨hother, g, hg, hfound⟩ := h other hmem
    rw [hactive, List.mem_append, not_or] at hother
    exact ⟨hother.1, g, List.mem_append_left _ hg, hfound⟩
  · obtain rfl := List.mem_singleton.mp hmem
    exact ⟨hnot, file, by simp, hfinds⟩

/-- Loading a file finishes the files of its imports that are not finished yet, and then the file. -/
def Finishes (tree : Tree) (options : Options) (start : String) (active : List String)
    (enter : String → Loading Module) : Prop :=
  ∀ {path done p m q}, LedTo tree options start path → Done tree done p →
    (∀ header ∈ headerAt? tree path, header ∉ done.map Opened.header) →
    (enter path).run p = some (.ok m, q) →
    ∃ below file, openFile tree active path = .ok file ∧ Done tree (done ++ (below ++ [file])) q ∧
      ModuleOf q.set file m ∧ OnBehalf tree options file below

theorem loadImport_finishes (hnamed : NamedByHeader tree options start)
    {enter : String → Loading Module} (henter : Finishes tree options start file.active enter)
    (hled : LedTo tree options start file.path) (hopen : openFile tree active file.path = .ok file)
    {node : Element} (hnode : node.text ∈ file.imported) (hdone : Done tree done p)
    (hrun : (loadImport tree options enter file node).run p = some (.ok (), q)) :
    ∃ below, Done tree (done ++ below) q ∧ node.text ∈ (done ++ below).map Opened.header ∧
      OnBehalf tree options file below := by
  rw [run_loadImport] at hrun
  split at hrun
  · cases hrun
  · next hactive =>
    split at hrun
    · next hthere =>
      obtain rfl := (Prod.mk.inj (Option.some.inj hrun)).2
      refine ⟨[], by rwa [List.append_nil], ?_, by simp [OnBehalf]⟩
      rw [List.append_nil, ← hdone.headers]
      exact ModuleSet.get?_isSome_iff.mp hthere
    · next hmissing =>
      split at hrun
      · cases hrun
      · next next hfound =>
        obtain ⟨m, now, henters, hpure⟩ := run_bind_eq_ok hrun
        obtain rfl := (Prod.mk.inj (Option.some.inj hpure)).2
        -- the file found declares the header of the import, whose module is not there
        have hnew : ∀ header ∈ headerAt? tree next, header ∉ done.map Opened.header := by
          intro header hheader
          rw [hnamed _ hled node.text (importsAt_of_openFile hopen ▸ hnode) next hfound header hheader,
            ← hdone.headers, ← ModuleSet.get?_isSome_iff]
          exact hmissing
        obtain ⟨below, found, hnext, hfinished, -, hbehalf⟩ :=
          henter (hled.import hopen hnode hfound) (hdone.log _) hnew henters
        have hheader : found.header = node.text := hnamed.header_eq hled hopen hnode hfound hnext
        have hnot : found.header ∉ file.active := by
          rw [hheader]
          simpa using hactive
        have hfinds : Finds tree options file found := by
          constructor
          · exact hheader ▸ hnode
          · rw [hheader, path_of_openFile hnext, hfound]
        refine ⟨below ++ [found], hfinished, ?_, hbehalf.import (of_openFile hnext).1 hnot hfinds⟩
        simp [hheader]

theorem loadImports_finishes (hnamed : NamedByHeader tree options start)
    {enter : String → Loading Module} (henter : Finishes tree options start file.active enter)
    (hled : LedTo tree options start file.path) (hopen : openFile tree active file.path = .ok file)
    {nodes : List Element} (hnodes : ∀ node ∈ nodes, node.text ∈ file.imported) (hdone : Done tree done p)
    (hrun : (loadImports tree options enter file nodes).run p = some (.ok (), q)) :
    ∃ below, Done tree (done ++ below) q ∧
      (∀ node ∈ nodes, node.text ∈ (done ++ below).map Opened.header) ∧
      OnBehalf tree options file below := by
  induction nodes generalizing done p with
  | nil =>
    obtain rfl := (Prod.mk.inj (Option.some.inj hrun)).2
    exact ⟨[], by rwa [List.append_nil], by simp, by simp [OnBehalf]⟩
  | cons node rest ih =>
    rw [List.forall_mem_cons] at hnodes
    obtain ⟨⟨⟩, now, hfirst, hrest⟩ := run_bind_eq_ok hrun
    obtain ⟨first, hnow, hthere, hbehalf⟩ :=
      loadImport_finishes hnamed henter hled hopen hnodes.1 hdone hfirst
    obtain ⟨second, hfinished, hall, hbehalf'⟩ := ih hnodes.2 hnow hrest
    rw [List.append_assoc] at hfinished hall
    refine ⟨first ++ second, hfinished, List.forall_mem_cons.mpr ⟨?_, hall⟩, hbehalf.append hbehalf'⟩
    rw [← List.append_assoc, List.map_append]
    exact List.mem_append_left _ hthere

theorem loadWithin_finishes (hnamed : NamedByHeader tree options start) (depth : Nat)
    (active : List String) :
    Finishes tree options start active (loadWithin tree options depth active) := by
  induction depth generalizing active with
  | zero =>
    intro _ _ _ _ _ _ _ _ hrun
    cases hrun
  | succ depth ih =>
    intro path done p m q hled hdone hfresh hrun
    rw [run_loadWithin_succ] at hrun
    split at hrun
    · cases hrun
    · next file hopen =>
      obtain rfl := path_of_openFile hopen
      obtain ⟨⟨⟩, now, himports, hfinish⟩ := run_bind_eq_ok hrun
      obtain ⟨below, hnow, hthere, hbehalf⟩ := loadImports_finishes hnamed (ih file.active) hled hopen
        (fun node hnode => List.mem_map_of_mem hnode) hdone himports
      -- no file finished on its behalf has its header, since the header was being loaded
      have hnew : file.header ∉ (done ++ below).map Opened.header := by
        rw [List.map_append, List.mem_append, not_or]
        refine ⟨hfresh _ (headerAt?_of_openFile hopen), fun hmem => ?_⟩
        obtain ⟨other, hother, heq⟩ := List.mem_map.mp hmem
        apply (hbehalf other hother).1
        rw [heq, (of_openFile hopen).1]
        simp
      have hready : ∀ header ∈ file.imported, header ∈ (done ++ below).map Opened.header := by
        intro header himported
        obtain ⟨node, hnode, rfl⟩ := List.mem_map.mp himported
        exact hthere node hnode
      rw [run_finishFile] at hfinish
      split at hfinish
      · cases hfinish
      · next hresolved =>
        cases hfinish
        obtain ⟨hfinished, hmodule⟩ := hnow.finish (q := finished now file m)
          hopen hnew hready hresolved rfl rfl
        rw [List.append_assoc] at hfinished
        exact ⟨below, file, hopen, hfinished, hmodule, hbehalf⟩

end

end Load
end CodecGen
