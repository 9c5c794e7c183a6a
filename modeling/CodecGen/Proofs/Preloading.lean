import CodecGen.Proofs.ImportClosure
set_option autoImplicit false
/-!
Modules known beforehand. A file sees nothing of the modules that are there but those that it imports,
so it does not matter whether these were loaded for it or known before, as long as they are the same
ones.
-/
namespace CodecGen
open Files Markup Schema

namespace ModuleSet
variable {set other all : ModuleSet} {m : Module} {header : String}

/-- Every module of one set is the module of its header in another. -/
def Within (set all : ModuleSet) : Prop := ∀ m ∈ set.modules, all.get? m.header = some m

theorem Within.add (h : set.Within all) (hm : all.get? m.header = some m) : (set.add m).Within all :=
  Resolve.forall_mem_addTo hm h

theorem Within.merge (h : set.Within all) (hother : other.Within all) : (set.merge other).Within all :=
  Resolve.forall_mem_merge h hother

theorem Within.get?_eq (h : set.Within all) (hmem : header ∈ set.headers) :
    set.get? header = all.get? header := by
  obtain ⟨m, hm⟩ := Option.isSome_iff_exists.mp (get?_isSome_iff.mpr hmem)
  have hheader : m.header = header := by simpa using List.find?_some hm
  rw [hm, ← hheader]
  exact (h m (List.mem_of_find?_eq_some hm)).symm

theorem mem_headers_add : header ∈ (set.add m).headers ↔ header = m.header ∨ header ∈ set.headers := by
  obtain ⟨modules, unrolling⟩ := set
  change header ∈ (addTo m modules).map (·.header) ↔ header = m.header ∨ header ∈ modules.map (·.header)
  induction modules with
  | nil => simp [addTo]
  | cons n rest ih =>
    unfold addTo
    split
    · next hsame =>
      have hheader : n.header = m.header := by simpa using hsame
      rw [List.map_cons, List.map_cons, hheader, List.mem_cons, ← or_assoc, or_self]
    · rw [List.map_cons, List.map_cons, List.mem_cons, List.mem_cons, ih, or_left_comm]

end ModuleSet

namespace Load
open Resolve (resolve)

theorem exists_of_forall₂ {α β : Type} {R : α → β → Prop} {as : List α} {bs : List β} {a : α}
    (h : List.Forall₂ R as bs) (ha : a ∈ as) : ∃ b ∈ bs, R a b := by
  induction h with
  | nil => cases ha
  | cons hab _ ih =>
    rcases List.mem_cons.mp ha with rfl | ha
    · exact ⟨_, List.mem_cons_self, hab⟩
    · obtain ⟨b, hb, hrel⟩ := ih ha
      exact ⟨b, List.mem_cons_of_mem _ hb, hrel⟩

section
variable {tree : Tree} {options : Options} {start : String} {r : Loaded}
  {below before after : List Opened} {root file : Opened}

theorem Closure.exists_module (h : Closure tree options start r below root)
    (hfile : file ∈ below ++ [root]) : ∃ m, ModuleOf r.set file m ∧ r.set.get? m.header = some m := by
  obtain ⟨m, hm, hmodule⟩ := exists_of_forall₂ h.modules hfile
  exact ⟨m, hmodule, ModuleSet.get?_of_mem h.distinct hm⟩

theorem Closure.length_le (h : Closure tree options start r below root) :
    (below ++ [root]).length ≤ tree.entries.length := by
  have hdistinct := h.headers ▸ h.distinct
  rw [List.Nodup, List.pairwise_map] at hdistinct
  have hplaces : (((below ++ [root]).map Opened.path).map tree.reach).Nodup := by
    rw [List.map_map, List.Nodup, List.pairwise_map]
    refine hdistinct.imp_of_mem fun hfile hother hne hplace => hne ?_
    exact h.header_eq_of_same_place hother hfile hplace
  have hread : ∀ path ∈ (below ++ [root]).map Opened.path, (tree.read path).isOk = true := by
    intro path hpath
    obtain ⟨file, hfile, rfl⟩ := List.mem_map.mp hpath
    obtain ⟨active, hopen⟩ := h.opened file hfile
    exact (of_openFile hopen).2
  have hle := length_le_entries hplaces hread
  rwa [List.length_map] at hle

/-- Only modules of a set are there, and they are spelled out as deep as in that set. -/
structure Among (all set : ModuleSet) : Prop where
  within : set.Within all
  unrolling : set.unrolling = all.unrolling

/-- Among modules of a set, loading a file gives its module of the set and adds only such modules. -/
def Reloads (tree : Tree) (options : Options) (start : String) (all : ModuleSet)
    (enter : String → Loading Module) (file : Opened) : Prop :=
  ∀ {path p}, LedTo tree options start path → tree.reach path = tree.reach file.path → Among all p.set →
    ∃ m q, (enter path).run p = some (.ok m, q) ∧ ModuleOf all file m ∧ Among all q.set ∧
      file.header ∈ q.set.headers ∧ p.set.headers ⊆ q.set.headers

section
variable {active : List String} {opened : Opened} {enter : String → Loading Module} {p : Progress}
  (h : Closure tree options start r below root) (hone : Unambiguous tree options start)
  (hsplit : below ++ [root] = before ++ file :: after) (hled : LedTo tree options start opened.path)
  (hopen : openFile tree active opened.path = .ok opened)
  (hplace : tree.reach opened.path = tree.reach file.path) (himported : opened.imported = file.imported)
  (hactive : ∀ g ∈ before, g.header ∉ opened.active)
  (henter : ∀ g ∈ before, Reloads tree options start r.set enter g)
include h hone hsplit hled hopen hplace himported hactive henter

theorem loadImport_reloads {node : Element} (hnode : node.text ∈ opened.imported)
    (hp : Among r.set p.set) :
    ∃ q, (loadImport tree options enter opened node).run p = some (.ok (), q) ∧ Among r.set q.set ∧
      node.text ∈ q.set.headers ∧ p.set.headers ⊆ q.set.headers := by
  obtain ⟨g, hg, hheader, next, hfound, hreach⟩ := h.finds hone hsplit hled hplace (himported ▸ hnode)
  have hnot : ¬ opened.active.contains node.text = true := by
    rw [List.contains_iff_mem, ← hheader]
    exact hactive g hg
  rw [run_loadImport, if_neg hnot]
  by_cases hthere : (p.set.get? node.text).isSome = true
  · rw [if_pos hthere]
    exact ⟨p, rfl, hp, ModuleSet.get?_isSome_iff.mp hthere, List.Subset.refl _⟩
  · rw [if_neg hthere, hfound]
    dsimp only
    obtain ⟨m, q, hrun, -, hq, hmem, hkept⟩ :=
      henter g hg (p := entering p opened node next) (hled.import hopen hnode hfound) hreach hp
    rw [run_bind_ok _ hrun]
    exact ⟨q, rfl, hq, hheader ▸ hmem, hkept⟩

theorem loadImports_reloads {nodes : List Element} (hnodes : ∀ node ∈ nodes, node.text ∈ opened.imported)
    (hp : Among r.set p.set) :
    ∃ q, (loadImports tree options enter opened nodes).run p = some (.ok (), q) ∧ Among r.set q.set ∧
      (∀ node ∈ nodes, node.text ∈ q.set.headers) ∧ p.set.headers ⊆ q.set.headers := by
  induction nodes generalizing p with
  | nil => exact ⟨p, rfl, hp, by simp, List.Subset.refl _⟩
  | cons node rest ih =>
    rw [List.forall_mem_cons] at hnodes
    obtain ⟨now, hfirst, hnow, hmem, hkept⟩ :=
      loadImport_reloads h hone hsplit hled hopen hplace himported hactive henter hnodes.1 hp
    obtain ⟨q, hrest, hq, hall, hkept'⟩ := ih hnodes.2 hnow
    refine ⟨q, ?_, hq, List.forall_mem_cons.mpr ⟨hkept' hmem, hall⟩, List.Subset.trans hkept hkept'⟩
    rw [loadImports, run_bind_ok _ hfirst, hrest]

end

/-- Loading a file comes only to the files before it, so their number bounds the depth it needs. -/
theorem loadWithin_reloads (h : Closure tree options start r below root)
    (hone : Unambiguous tree options start) {depth : Nat} {active : List String}
    (hsplit : below ++ [root] = before ++ file :: after) (hdepth : before.length < depth)
    (hactive : ∀ g ∈ before, g.header ∉ active) :
    Reloads tree options start r.set (loadWithin tree options depth active) file := by
  induction depth generalizing before file after active with
  | zero => exact absurd hdepth (Nat.not_lt_zero _)
  | succ depth ih =>
    intro path p hled hplace hp
    have hfile : file ∈ below ++ [root] := by simp [hsplit]
    obtain ⟨around, hopened⟩ := h.opened file hfile
    obtain ⟨opened, hopen, hroot, hheaders⟩ := openFile_congr hplace hopened active
    obtain rfl := path_of_openFile hopen
    have hfresh : ∀ g ∈ before, g.header ≠ file.header := by
      have hdistinct := h.headers ▸ h.distinct
      rw [hsplit, List.map_append, List.nodup_append] at hdistinct
      exact fun g hg => hdistinct.2.2 _ (List.mem_map_of_mem hg) _ List.mem_cons_self
    have haround : ∀ g ∈ before, g.header ∉ opened.active := by
      intro g hg hmem
      rw [hheaders] at hmem
      rcases List.mem_append.mp hmem with hmem | hmem
      · exact hactive g hg hmem
      · exact hfresh g hg (List.mem_singleton.mp hmem)
    -- a file before this one has fewer files before it, so less depth will do
    have henter : ∀ g ∈ before,
        Reloads tree options start r.set (loadWithin tree options depth opened.active) g := by
      intro g hg
      obtain ⟨first, second, rfl⟩ := List.append_of_mem hg
      rw [List.append_assoc, List.cons_append] at hsplit
      rw [List.length_append, List.length_cons] at hdepth
      exact ih hsplit (by omega) fun g' hg' => haround g' (List.mem_append_left _ hg')
    have himported : opened.imported = file.imported := by rw [Opened.imported, Opened.imported, hroot]
    obtain ⟨now, himports, hnow, hall, hkept⟩ := loadImports_reloads h hone hsplit hled hopen hplace
      himported haround henter (fun node hnode => List.mem_map_of_mem hnode) hp
    obtain ⟨m, hmodule, hget⟩ := h.exists_module hfile
    have hresolve : resolve now.set opened.root = resolve r.set file.root := by
      rw [Resolve.resolve_congr hnow.unrolling fun e he => hnow.within.get?_eq (hall e he), hroot]
    refine ⟨m, finished now opened m, ?_, hmodule, ⟨hnow.within.add hget, hnow.unrolling⟩, ?_, ?_⟩
    · rw [run_loadWithin_succ, hopen]
      dsimp only
      rw [run_bind_ok _ himports, run_finishFile, hresolve, hmodule.resolved]
    · exact ModuleSet.mem_headers_add.mpr (.inl hmodule.header.symm)
    · exact fun header hmem => ModuleSet.mem_headers_add.mpr (.inr (hkept hmem))

end

theorem unrolling_merge (set other : ModuleSet) : (set.merge other).unrolling = set.unrolling := by
  unfold ModuleSet.merge
  induction other.modules generalizing set with
  | nil => rfl
  | cons m rest ih => exact ih (set.add m)

/-- Where a header is found in one place by all its importers, in a file that declares it, modules known
beforehand make no difference to what is loaded, provided they are those that would be loaded. A depth
of as many files as there are in the tree is enough. -/
theorem preloading_transparent {tree : Tree} {options : Options} {start : String} {r : Loaded}
    (hnamed : NamedByHeader tree options start) (hone : Unambiguous tree options start) {depth : Nat}
    {log : List LogEvent} (hload : load depth tree options {} start = some (.ok r, log))
    {known : ModuleSet} (hknown : known.Within r.set) :
    ∃ r' log', (∀ more, tree.entries.length ≤ more →
        load more tree options known start = some (.ok r', log')) ∧
      r'.module = r.module ∧ r'.set.Within r.set := by
  obtain ⟨below, root, h⟩ := closure_of_load hnamed hload
  have hdepth : below.length < tree.entries.length := by
    have hle := h.length_le
    rw [List.length_append, List.length_singleton] at hle
    omega
  have hreloads : Reloads tree options start r.set
      (loadWithin tree options tree.entries.length []) root :=
    loadWithin_reloads h hone rfl hdepth (by simp)
  have hplace : tree.reach start = tree.reach root.path := by rw [path_of_openFile h.first]
  have hfirst : Among r.set (initialSet options known) := by
    refine ⟨ModuleSet.Within.merge ?_ hknown, (unrolling_merge _ known).trans h.unrolling.symm⟩
    intro m hm
    cases hm
  obtain ⟨m, q, hrun, hmodule, hq, -, -⟩ :=
    hreloads (p := { set := initialSet options known }) .refl hplace hfirst
  have hsame : m = r.module := Option.some.inj (hmodule.resolved.symm.trans h.module.resolved)
  refine ⟨⟨m, q.set, q.warnings⟩, q.log, fun more hmore => ?_, hsame, hq.within⟩
  exact load_eq_ok_iff.mpr (loadWithin_extends hmore [] start _ _ hrun)

def drawing : Tree := .ofEntries [
  ("drawing.xml", .file (Text.Utf8.encode
    ("<xcb header=\"drawing\"><import>box</import><import>line</import><struct name=\"SHAPE\">" ++
      "<field type=\"BOX\" name=\"box\"/><field type=\"LINE\" name=\"line\"/></struct></xcb>"))),
  ("box.xml", .file (Text.Utf8.encode
    ("<xcb header=\"box\"><import>point</import><struct name=\"BOX\">" ++
      "<field type=\"POINT\" name=\"corner\"/></struct></xcb>"))),
  ("line.xml", .file (Text.Utf8.encode
    ("<xcb header=\"line\"><import>point</import><struct name=\"LINE\">" ++
      "<field type=\"POINT\" name=\"end\"/></struct></xcb>"))),
  ("lib/point.xml", .file (Text.Utf8.encode
    ("<xcb header=\"point\"><struct name=\"POINT\">" ++
      "<field type=\"INT16\" name=\"x\"/></struct></xcb>")))]

theorem preloading_transparent_drawing :
    NamedByHeader drawing { searchPath := ["lib"] } "drawing.xml" ∧
    Unambiguous drawing { searchPath := ["lib"] } "drawing.xml" ∧
    ∃ r log, load 3 drawing { searchPath := ["lib"] } {} "drawing.xml" = some (.ok r, log) ∧
      r.set.headers = ["point", "box", "line", "drawing"] ∧
      ∃ r' log', load 5 drawing { searchPath := ["lib"] }
        { modules := r.set.modules.filter (·.header == "box") } "drawing.xml" = some (.ok r', log') ∧
        r'.module = r.module := by
  have hnamed : NamedByHeader drawing { searchPath := ["lib"] } "drawing.xml" :=
    namedByHeader_of_closed ["drawing.xml", "box.xml", "line.xml", "lib/point.xml"]
      (by decide) (by decide +kernel)
  have hone : Unambiguous drawing { searchPath := ["lib"] } "drawing.xml" :=
    unambiguous_of_closed ["drawing.xml", "box.xml", "line.xml", "lib/point.xml"]
      (by decide) (by decide +kernel) (by decide +kernel)
  have hheaders : (load 3 drawing { searchPath := ["lib"] } {} "drawing.xml").map (fun answer =>
      answer.1.toOption.map (·.set.headers)) = some (some ["point", "box", "line", "drawing"]) := by
    decide +kernel
  refine ⟨hnamed, hone, ?_⟩
  obtain ⟨⟨_ | r, log⟩, hload, hsome⟩ := Option.map_eq_some_iff.mp hheaders
  · cases hsome
  · replace hsome : r.set.headers = _ := Option.some.inj hsome
    have hknown : ModuleSet.Within { modules := r.set.modules.filter (·.header == "box") } r.set := by
      intro m hm
      exact ModuleSet.get?_of_mem (by rw [hsome]; decide) (List.mem_of_mem_filter hm)
    obtain ⟨r', log', hload', hmodule, -⟩ := preloading_transparent hnamed hone hload hknown
    exact ⟨r, log, hload, hsome, r', log', hload' 5 (by decide), hmodule⟩

end Load
end CodecGen
