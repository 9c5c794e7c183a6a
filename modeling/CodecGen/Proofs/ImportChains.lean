import CodecGen.Proofs.FileTree
import CodecGen.Proofs.LoadingRuns
import Mathlib.Data.List.Perm.Subperm
set_option autoImplicit false
/-!
How deep loading goes. A file is loaded inside the file that imports it, so the files being loaded form
a chain. Loading within a depth has no result exactly when there is a longer chain. An import that names
the header of a file on the chain is refused; a chain on which no file comes twice is no longer than
the tree has entries. What is left is a file that comes back under a name that is not its header.
-/
namespace CodecGen.Load
open Files Markup Schema

section
variable {tree : Tree} {options : Options}

theorem run_loadImports_unique {depth other : Nat} {file : Opened} {nodes : List Element}
    {p : Progress} {r r' : Except Failure Unit × Progress}
    (h : (loadImports tree options (loadWithin tree options depth file.active) file nodes).run p =
      some r)
    (h' : (loadImports tree options (loadWithin tree options other file.active) file nodes).run p =
      some r') : r = r' := by
  rcases Nat.le_total depth other with hle | hle
  · have hmore := loadImports_extends (loadWithin_extends hle file.active) file nodes p r h
    exact Option.some.inj (hmore.symm.trans h')
  · have hmore := loadImports_extends (loadWithin_extends hle file.active) file nodes p r' h'
    exact Option.some.inj (h.symm.trans hmore)

/-- An import that is neither refused nor passed over leads to the file found for it. -/
def LeadsTo (tree : Tree) (options : Options) (file : Opened) (now : Progress) (node : Element)
    (path : String) : Prop :=
  file.active.contains node.text = false ∧ now.set.get? node.text = none ∧
    findImport? tree options file.path node.text = some path

theorem loadImport_eq_none_iff {enter : String → Loading Module} {file : Opened} {node : Element}
    {p : Progress} :
    (loadImport tree options enter file node).run p = none ↔
      ∃ path, LeadsTo tree options file p node path ∧
        (enter path).run (entering p file node path) = none := by
  rw [run_loadImport]
  unfold LeadsTo
  split
  case isTrue hactive => simp only [hactive, Bool.true_eq_false, false_and, exists_false, reduceCtorEq]
  case isFalse hactive =>
    split
    case isTrue hset => simp [Option.isSome_iff_ne_none.mp hset]
    case isFalse hset =>
      split
      · simp [*]
      · rename_i path hfind
        rw [run_bind_eq_none_iff]
        constructor
        · rintro (h | ⟨_, _, _, h⟩)
          · exact ⟨path, ⟨by simpa using hactive, by simpa using hset, hfind⟩, h⟩
          · cases h
        · rintro ⟨_, ⟨-, -, hfound⟩, h⟩
          obtain rfl := Option.some.inj (hfind.symm.trans hfound)
          exact .inl h

theorem loadImports_eq_none_iff {enter : String → Loading Module} {file : Opened}
    {nodes : List Element} {p : Progress} :
    (loadImports tree options enter file nodes).run p = none ↔
      ∃ seen node rest now path, nodes = seen ++ node :: rest ∧
        (loadImports tree options enter file seen).run p = some (.ok (), now) ∧
        LeadsTo tree options file now node path ∧
        (enter path).run (entering now file node path) = none := by
  constructor
  · intro h
    induction nodes generalizing p with
    | nil => cases h
    | cons node rest ih =>
      rw [loadImports, run_bind_eq_none_iff] at h
      rcases h with h | ⟨⟨⟩, q, hnode, h⟩
      · obtain ⟨path, hleads, hnone⟩ := loadImport_eq_none_iff.mp h
        exact ⟨[], node, rest, p, path, rfl, rfl, hleads, hnone⟩
      · obtain ⟨seen, next, rest, now, path, rfl, hseen, hleads, hnone⟩ := ih h
        refine ⟨node :: seen, next, rest, now, path, rfl, ?_, hleads, hnone⟩
        rw [loadImports, run_bind_ok _ hnode, hseen]
  · rintro ⟨seen, node, rest, now, path, rfl, hseen, hleads, hnone⟩
    rw [loadImports_append, run_bind_ok _ hseen, loadImports]
    exact run_bind_none _ (loadImport_eq_none_iff.mpr ⟨path, hleads, hnone⟩)

theorem finishFile_ne_none (file : Opened) (p : Progress) : (finishFile file).run p ≠ none := by
  rw [run_finishFile]
  split <;> simp

/-- The loading of one file: the headers of the files around it, its path, and what was loaded when it
began. -/
structure Call where
  active : List String
  path : String
  progress : Progress

def Call.run (tree : Tree) (options : Options) (depth : Nat) (c : Call) :
    Option (Except Failure Module × Progress) :=
  (loadWithin tree options depth c.active c.path).run c.progress

def Call.header? (tree : Tree) (c : Call) : Option String :=
  (openFile tree c.active c.path).toOption.map Opened.header

/-- A call has opened its file and has come to an import, having seen to those before it. -/
structure Reaches (tree : Tree) (options : Options) (c : Call) (file : Opened) (node : Element)
    (now : Progress) : Prop where
  opened : openFile tree c.active c.path = .ok file
  passed : ∃ depth seen rest, file.root.elements "import" = seen ++ node :: rest ∧
    (loadImports tree options (loadWithin tree options depth file.active) file seen).run c.progress =
      some (.ok (), now)

inductive Enters (tree : Tree) (options : Options) (c : Call) (file : Opened) (node : Element) :
    Call → Prop where
  | intro {now : Progress} {path : String} : Reaches tree options c file node now →
    LeadsTo tree options file now node path →
    Enters tree options c file node ⟨file.active, path, entering now file node path⟩

theorem run_succ_eq_none_iff {depth : Nat} {c : Call} :
    c.run tree options (depth + 1) = none ↔
      ∃ file node next, Enters tree options c file node next ∧ next.run tree options depth = none := by
  unfold Call.run
  rw [run_loadWithin_succ]
  constructor
  · intro h
    split at h
    · cases h
    · rename_i file hopen
      rcases (run_bind_eq_none_iff _).mp h with h | ⟨_, q, -, h⟩
      · obtain ⟨seen, node, rest, now, path, hsplit, hseen, hleads, hnone⟩ :=
          loadImports_eq_none_iff.mp h
        exact ⟨file, node, _, .intro ⟨hopen, depth, seen, rest, hsplit, hseen⟩ hleads, hnone⟩
      · exact absurd h (finishFile_ne_none file q)
  · rintro ⟨file, node, _, @⟨now, path, ⟨hopen, other, seen, rest, hsplit, hseen⟩, hleads⟩, hnone⟩
    rw [hopen]
    refine run_bind_none _ ?_
    -- within this depth the imports before may come to nothing already; else they come to the same
    cases hdone : (loadImports tree options (loadWithin tree options depth file.active) file
        seen).run c.progress with
    | none =>
      rw [hsplit, loadImports_append]
      exact run_bind_none _ hdone
    | some r =>
      obtain rfl := run_loadImports_unique hdone hseen
      exact loadImports_eq_none_iff.mpr
        ⟨seen, node, rest, now, path, hsplit, hdone, hleads, hnone⟩

/-- The calls that are under way at some moment after a first one, the innermost first. -/
inductive Chain (tree : Tree) (options : Options) (start : Call) : List Call → Prop where
  | start : Chain tree options start [start]
  | enter {c next : Call} {outer : List Call} {file : Opened} {node : Element} :
    Chain tree options start (c :: outer) → Enters tree options c file node next →
    Chain tree options start (next :: c :: outer)

variable {start c : Call} {outer more stack : List Call}

theorem Chain.suffix (h : Chain tree options start (more ++ c :: outer)) :
    Chain tree options start (c :: outer) := by
  induction more with
  | nil => exact h
  | cons next more ih =>
    rw [List.cons_append] at h
    generalize hrest : more ++ c :: outer = rest at h ih
    cases h with
    | start => exact absurd hrest (by simp)
    | enter hchain _ => exact ih hchain

theorem Chain.eq_append (h : Chain tree options start stack) : ∃ more, stack = more ++ [start] := by
  induction h with
  | start => exact ⟨[], rfl⟩
  | enter _ _ ih =>
    obtain ⟨more, hmore⟩ := ih
    exact ⟨_ :: more, by rw [hmore, List.cons_append]⟩

/-- A call has no result within a depth exactly when as many calls can come inside one another in it. -/
theorem run_eq_none_iff {depth : Nat} (h : Chain tree options start (c :: outer)) :
    c.run tree options depth = none ↔
      ∃ more, more.length = depth ∧ Chain tree options start (more ++ c :: outer) := by
  induction depth generalizing c outer with
  | zero =>
    constructor
    · exact fun _ => ⟨[], rfl, h⟩
    · exact fun _ => rfl
  | succ depth ih =>
    rw [run_succ_eq_none_iff]
    constructor
    · rintro ⟨file, node, next, henters, hnone⟩
      obtain ⟨more, hlength, hchain⟩ := (ih (h.enter henters)).mp hnone
      exact ⟨more ++ [next], by simp [hlength], by simpa using hchain⟩
    · rintro ⟨more, hlength, hchain⟩
      obtain rfl | ⟨more, next, rfl⟩ := more.eq_nil_or_concat
      · simp at hlength
      · have hmore : more.length = depth := by simpa using hlength
        replace hchain : Chain tree options start (more ++ next :: c :: outer) := by
          simpa using hchain
        cases hchain.suffix with
        | enter hc henters =>
          exact ⟨_, _, next, henters, (ih (hc.enter henters)).mpr ⟨more, hmore, hchain⟩⟩

theorem of_openFile {active : List String} {path : String} {file : Opened}
    (h : openFile tree active path = .ok file) :
    file.active = active ++ [file.header] ∧ (tree.read path).isOk = true := by
  unfold openFile at h
  split at h
  · simp at h
  · rename_i src hread
    split at h
    · simp at h
    · obtain rfl := Except.ok.inj h
      exact ⟨rfl, by rw [hread]; rfl⟩

theorem listed_of_read {path : String} (h : (tree.read path).isOk = true) :
    ∃ place ∈ tree.entries.map (·.1), tree.reach path = .ok place := by
  unfold Tree.read Tree.find at h
  cases hreach : tree.reach path with
  | error fault => simp [hreach, bind, Except.bind, Except.isOk, Except.toBool] at h
  | ok place =>
    refine ⟨place, ?_, rfl⟩
    by_contra hmem
    cases hgiven : place.isGiven with
    | true =>
      have hentry : tree.entry? place = some .directory := by simp [Tree.entry?, hgiven]
      simp [hreach, hentry, bind, Except.bind, Except.isOk, Except.toBool] at h
    | false =>
      have hentry := Tree.entryAt_of_not_mem hgiven hmem
      simp [hreach, hentry, bind, Except.bind, Except.isOk, Except.toBool] at h

theorem length_le_entries {paths : List String} (hplaces : (paths.map tree.reach).Nodup)
    (hread : ∀ path ∈ paths, (tree.read path).isOk = true) : paths.length ≤ tree.entries.length := by
  have hsub : paths.map tree.reach ⊆ tree.entries.map fun e => .ok e.1 := by
    intro r hr
    obtain ⟨path, hpath, rfl⟩ := List.mem_map.mp hr
    obtain ⟨place, hplace, hreach⟩ := listed_of_read (hread path hpath)
    obtain ⟨e, he, rfl⟩ := List.mem_map.mp hplace
    exact List.mem_map.mpr ⟨e, he, hreach.symm⟩
  have hle := (List.subperm_of_subset hplaces hsub).length_le
  simpa using hle

theorem Chain.opened (h : Chain tree options start (c :: outer)) :
    ∀ d ∈ outer, ∃ file, openFile tree d.active d.path = .ok file := by
  generalize hstack : c :: outer = stack at h
  induction h generalizing c outer with
  | start =>
    obtain ⟨-, rfl⟩ := List.cons.inj hstack
    simp
  | enter hchain henters ih =>
    obtain ⟨-, rfl⟩ := List.cons.inj hstack
    rintro d (_ | ⟨_, hd⟩)
    · cases henters with
      | intro hreaches _ => exact ⟨_, hreaches.opened⟩
    · exact ih rfl d hd

theorem Chain.active_eq (h : Chain tree options start (c :: outer)) :
    c.active = start.active ++ outer.reverse.filterMap (Call.header? tree) := by
  generalize hstack : c :: outer = stack at h
  induction h generalizing c outer with
  | start =>
    obtain ⟨rfl, rfl⟩ := List.cons.inj hstack
    simp
  | @enter d next outer file node hchain henters ih =>
    obtain ⟨rfl, rfl⟩ := List.cons.inj hstack
    cases henters with
    | intro hreaches _ =>
      have hopen := hreaches.opened
      have hheader : d.header? tree = some file.header := by
        simp [Call.header?, hopen, Except.toOption]
      simp [(of_openFile hopen).1, ih rfl, hheader]

theorem Chain.mem_active_iff (h : Chain tree options start (c :: outer)) (hstart : start.active = [])
    {file : Opened} (hopen : openFile tree c.active c.path = .ok file) {header : String} :
    header ∈ file.active ↔ ∃ d ∈ c :: outer, d.header? tree = some header := by
  have hheader : c.header? tree = some file.header := by
    simp [Call.header?, hopen, Except.toOption]
  rw [(of_openFile hopen).1, h.active_eq, hstart]
  simp [hheader, or_comm, eq_comm]

theorem run_of_mem_active {file : Opened} {node : Element} {now : Progress}
    (h : Reaches tree options c file node now) (hmem : node.text ∈ file.active) :
    ∃ least, ∀ depth, least ≤ depth → c.run tree options depth =
      some (.error (file.failure (.importCycle (file.active ++ [node.text])) node), now) := by
  obtain ⟨hopen, reached, seen, rest, hsplit, hseen⟩ := h
  refine ⟨reached + 1, fun depth hdepth => ?_⟩
  obtain ⟨depth, rfl⟩ : ∃ n, depth = n + 1 := ⟨depth - 1, by omega⟩
  have hseen' := loadImports_extends (loadWithin_extends (Nat.le_of_succ_le_succ hdepth) file.active)
    file seen c.progress _ hseen
  have hnode : (loadImport tree options (loadWithin tree options depth file.active) file node).run now =
      some (.error (file.failure (.importCycle (file.active ++ [node.text])) node), now) := by
    rw [run_loadImport, if_pos (List.contains_iff_mem.mpr hmem)]
  unfold Call.run
  rw [run_loadWithin_succ, hopen]
  dsimp only
  rw [hsplit, loadImports_append]
  refine run_bind_error _ ?_
  rw [run_bind_ok _ hseen', loadImports]
  exact run_bind_error _ hnode

theorem Chain.length_le
    (hnone : ∀ {c outer file node next}, Chain tree options start (c :: outer) →
      Enters tree options c file node next → ∀ d ∈ c :: outer, tree.reach d.path ≠ tree.reach next.path)
    (h : Chain tree options start stack) : stack.length ≤ tree.entries.length + 1 := by
  have hnodup : (stack.map fun d => tree.reach d.path).Nodup := by
    induction h with
    | start => simp
    | enter hchain henters ih =>
      rw [List.map_cons, List.nodup_cons]
      refine ⟨fun hmem => ?_, ih⟩
      obtain ⟨d, hd, heq⟩ := List.mem_map.mp hmem
      exact hnone hchain henters d hd heq
  cases stack with
  | nil => simp
  | cons c outer =>
    -- All calls but the innermost have read their files, so these are in the tree.
    have hread : ∀ path ∈ outer.map Call.path, (tree.read path).isOk = true := by
      intro path hpath
      obtain ⟨d, hd, rfl⟩ := List.mem_map.mp hpath
      obtain ⟨file, hopen⟩ := h.opened d hd
      exact (of_openFile hopen).2
    have hplaces : ((outer.map Call.path).map tree.reach).Nodup := by
      rw [List.map_map]
      exact (List.nodup_cons.mp hnodup).2
    have hle := length_le_entries hplaces hread
    simpa using hle

def firstCall (options : Options) (known : ModuleSet) (path : String) : Call :=
  ⟨[], path, { set := initialSet options known }⟩

theorem run_firstCall_eq_none_iff {known : ModuleSet} {path : String} {depth : Nat} :
    load depth tree options known path = none ↔
      ∃ stack, Chain tree options (firstCall options known path) stack ∧ stack.length = depth + 1 := by
  have hrun : load depth tree options known path = none ↔
      (firstCall options known path).run tree options depth = none := load_eq_none_iff
  rw [hrun, run_eq_none_iff .start]
  constructor
  · rintro ⟨more, hlength, hchain⟩
    exact ⟨_, hchain, by simp [hlength]⟩
  · rintro ⟨stack, hchain, hlength⟩
    obtain ⟨more, rfl⟩ := hchain.eq_append
    exact ⟨more, by simpa using hlength, hchain⟩

end

/-- Loading has no result within a depth exactly when more files than that can be under way inside one
another, and a result that it has is the same at all greater depths. An import that names the header of
a file under way is refused as a cycle. So loading ends, with no more files inside one another than the
tree has entries and one, unless a file that is under way is entered again by an import that names no
header of a file under way. -/
theorem loading_ends_unless_reentered (tree : Tree) (options : Options) (known : ModuleSet)
    (path : String) :
    (∀ depth, load depth tree options known path = none ↔
      ∃ stack, Chain tree options (firstCall options known path) stack ∧ stack.length = depth + 1) ∧
    (∀ depth more result, load depth tree options known path = some result → depth ≤ more →
      load more tree options known path = some result) ∧
    (∀ c outer file node now, Chain tree options (firstCall options known path) (c :: outer) →
      Reaches tree options c file node now → (∃ d ∈ c :: outer, d.header? tree = some node.text) →
      ∃ least, ∀ depth, least ≤ depth → c.run tree options depth =
        some (.error (file.failure (.importCycle (file.active ++ [node.text])) node), now)) ∧
    (((∀ depth, tree.entries.length < depth → (load depth tree options known path).isSome = true) ∧
        ∀ stack, Chain tree options (firstCall options known path) stack →
          stack.length ≤ tree.entries.length + 1) ∨
      ∃ c outer file node next, Chain tree options (firstCall options known path) (c :: outer) ∧
        Enters tree options c file node next ∧
        (∃ d ∈ c :: outer, tree.reach d.path = tree.reach next.path) ∧
        ∀ d ∈ c :: outer, d.header? tree ≠ some node.text) := by
  refine ⟨fun _ => run_firstCall_eq_none_iff, ?_, fun c outer file node now hchain hreaches hnamed => ?_, ?_⟩
  · intro depth more result hload hle
    obtain ⟨r, hrun, rfl⟩ := Option.map_eq_some_iff.mp hload
    exact Option.map_eq_some_iff.mpr ⟨r, loadWithin_extends hle [] path _ r hrun, rfl⟩
  · exact run_of_mem_active hreaches ((hchain.mem_active_iff rfl hreaches.opened).mpr hnamed)
  · -- either some file is entered again while it is under way, or chains cannot grow beyond the tree
    by_cases hagain : ∃ c outer file node next,
        Chain tree options (firstCall options known path) (c :: outer) ∧
        Enters tree options c file node next ∧ ∃ d ∈ c :: outer, tree.reach d.path = tree.reach next.path
    · obtain ⟨c, outer, file, node, next, hchain, henters, hsame⟩ := hagain
      refine .inr ⟨c, outer, file, node, next, hchain, henters, hsame, fun d hd hheader => ?_⟩
      -- an import that names the header of a file under way would have been refused
      cases henters with
      | intro hreaches hleads =>
        have hmem := (hchain.mem_active_iff rfl hreaches.opened).mpr ⟨d, hd, hheader⟩
        exact Bool.false_ne_true (hleads.1.symm.trans (List.contains_iff_mem.mpr hmem))
    · have hbound : ∀ stack, Chain tree options (firstCall options known path) stack →
          stack.length ≤ tree.entries.length + 1 := fun stack =>
        Chain.length_le fun hchain henters d hd heq =>
          hagain ⟨_, _, _, _, _, hchain, henters, d, hd, heq⟩
      refine .inl ⟨fun depth hdepth => ?_, hbound⟩
      rw [Option.isSome_iff_ne_none, Ne, run_firstCall_eq_none_iff]
      rintro ⟨stack, hchain, hlength⟩
      have hle := hbound stack hchain
      omega

def selfImporting : Tree :=
  .ofEntries [("a.xml", .file (Text.Utf8.encode "<xcb header=\"b\"><import>a</import></xcb>"))]

theorem openFile_selfImporting (active : List String) : ∃ file node,
    openFile selfImporting active "a.xml" = .ok file ∧ file.path = "a.xml" ∧
      file.active = active ++ ["b"] ∧ file.root.elements "import" = [node] ∧ node.text = "a" := by
  have hread : selfImporting.read "a.xml" =
      .ok (Text.Utf8.encode "<xcb header=\"b\"><import>a</import></xcb>") := by decide +kernel
  have hroot : (parse (Text.Utf8.encode "<xcb header=\"b\"><import>a</import></xcb>")).toOption.map
      (fun root => (root.attrD "header" "", (root.elements "import").map (·.text))) =
        some ("b", ["a"]) := by decide +kernel
  unfold openFile
  rw [hread]
  dsimp only
  split
  · rename_i hparse
    simp [hparse, Except.toOption] at hroot
  · rename_i root hparse
    simp only [hparse, Except.toOption, Option.map_some, Option.some.injEq, Prod.mk.injEq] at hroot
    obtain ⟨node, hnode, htext⟩ := List.map_eq_singleton_iff.mp hroot.2
    exact ⟨_, node, rfl, rfl, by rw [hroot.1], hnode, htext⟩

theorem run_selfImporting (depth : Nat) {c : Call} (hpath : c.path = "a.xml")
    (hactive : "a" ∉ c.active) (hset : c.progress.set.get? "a" = none) :
    c.run selfImporting {} depth = none := by
  induction depth generalizing c with
  | zero => rfl
  | succ depth ih =>
    obtain ⟨file, node, hopen, hfile, hheaders, hnodes, htext⟩ := openFile_selfImporting c.active
    have hnot : "a" ∉ file.active := by simp [hheaders, hactive]
    have hfind : findImport? selfImporting {} "a.xml" "a" = some "a.xml" := by decide +kernel
    have hreaches : Reaches selfImporting {} c file node c.progress :=
      ⟨by rw [hpath, hopen], 0, [], [], hnodes, rfl⟩
    have hleads : LeadsTo selfImporting {} file c.progress node "a.xml" :=
      ⟨by simpa [htext] using hnot, by rw [htext, hset], by rw [hfile, htext, hfind]⟩
    exact run_succ_eq_none_iff.mpr ⟨file, node, _, .intro hreaches hleads, ih rfl hnot hset⟩

/-- Six files, of which `t.xml` is loaded inside `a.xml` and enters it again. -/
def returning : Tree := .ofEntries [
  ("a.xml", .file (Text.Utf8.encode "<xcb header=\"m\"><import>t</import></xcb>")),
  ("t.xml", .file (Text.Utf8.encode
    "<xcb header=\"h\"><import>s/u</import><import>a</import><import>s/v</import></xcb>")),
  ("s/u.xml", .file (Text.Utf8.encode "<xcb header=\"s/u\"><import>t</import></xcb>")),
  ("s/t.xml", .file (Text.Utf8.encode "<xcb header=\"t\"/>")),
  ("s/v.xml", .file (Text.Utf8.encode "<xcb header=\"s/v\"><import>a</import></xcb>")),
  ("s/a.xml", .file (Text.Utf8.encode "<xcb header=\"a\"/>"))]

/-- A file may import itself without end, and a file that is under way may be entered again. -/
theorem file_reentered_under_other_name :
    (∀ depth, load depth selfImporting {} {} "a.xml" = none) ∧
    ∃ result log, load 6 returning {} {} "a.xml" = some (result, log) ∧ result.isOk = true ∧
      LogEvent.loadingImport "m" "t" "t.xml" ∈ log ∧ LogEvent.loadingImport "h" "a" "a.xml" ∈ log := by
  constructor
  · intro depth
    exact load_eq_none_iff.mpr (run_selfImporting depth (c := firstCall {} {} "a.xml") rfl
      (by simp [firstCall]) rfl)
  · have hload : (load 6 returning {} {} "a.xml").map (fun answer => answer.1.isOk &&
        answer.2.contains (.loadingImport "m" "t" "t.xml") &&
        answer.2.contains (.loadingImport "h" "a" "a.xml")) = some true := by decide +kernel
    obtain ⟨⟨result, log⟩, hsome, hall⟩ := Option.map_eq_some_iff.mp hload
    simp only [Bool.and_eq_true, List.contains_iff_mem] at hall
    exact ⟨result, log, hsome, hall.1.1, hall.1.2, hall.2⟩

end CodecGen.Load
