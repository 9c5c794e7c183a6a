import CodecGen.Proofs.Declarations
import CodecGen.Proofs.ImportClosure
import CodecGen.Proofs.MessageLayout
import CodecGen.Proofs.OutputFiles
set_option autoImplicit false
/-!
The check command. A check of several descriptions says what the checks of each of them say, one after
another, and fails where one of these does. What it says of a description is what generation says of it
before anything is written, and generation goes on to write exactly where a check finds no error.
-/
namespace CodecGen

namespace Load
open Files

/-- A failure to resolve a file comes with the errors that caused it. -/
def Failure.Explained (e : Failure) : Prop :=
  ∀ path src errors, e = .unresolved path src errors → errors ≠ []

theorem explained_failure (file : Opened) (cause : Resolve.ErrorCause) (node : Markup.Element) :
    (file.failure cause node).Explained := by
  intro path src errors h
  cases h
  exact List.cons_ne_nil _ _

variable {tree : Tree} {options : Options}

theorem loadImport_explained {enter : String → Loading Schema.Module}
    (henter : ∀ path p q e, (enter path).run p = some (.error e, q) → e.Explained) {file : Opened}
    {node : Markup.Element} {p q : Progress} {e : Failure}
    (h : (loadImport tree options enter file node).run p = some (.error e, q)) : e.Explained := by
  rw [run_loadImport] at h
  split at h
  · cases h
    exact explained_failure _ _ _
  · split at h
    · cases h
    · split at h
      · cases h
        exact explained_failure _ _ _
      · rcases run_bind_eq_error h with h | ⟨_, _, -, h⟩
        · exact henter _ _ _ _ h
        · cases h

theorem finishFile_explained {file : Opened} {p q : Progress} {e : Failure}
    (h : (finishFile file).run p = some (.error e, q)) : e.Explained := by
  rw [run_finishFile] at h
  split at h
  · next hnone =>
    cases h
    intro path src errors heq hempty
    cases heq
    obtain ⟨header, -, -, -, hmodule⟩ := Resolve.resolve_without_errors hempty
    rw [hnone] at hmodule
    cases hmodule
  · cases h

theorem loadWithin_explained (depth : Nat) {active : List String} {path : String} {p q : Progress}
    {e : Failure} (h : (loadWithin tree options depth active path).run p = some (.error e, q)) :
    e.Explained := by
  induction depth generalizing active path p q e with
  | zero => cases h
  | succ depth ih =>
    rw [run_loadWithin_succ] at h
    split at h
    · next hopen =>
      intro blamed src errors heq
      cases h
      exact absurd (heq ▸ hopen) openFile_ne_unresolved
    · rcases run_bind_eq_error h with h | ⟨_, _, -, h⟩
      · obtain ⟨node, -, now, hrun⟩ := loadImports_eq_error h
        apply loadImport_explained _ hrun
        intro path p q e henter
        exact ih henter
      · exact finishFile_explained h

theorem load_explained {depth : Nat} {known : ModuleSet} {path : String} {e : Failure}
    {log : List LogEvent} (h : load depth tree options known path = some (.error e, log)) :
    e.Explained := by
  obtain ⟨q, hrun, -⟩ := load_eq_error_iff.mp h
  exact loadWithin_explained depth hrun

end Load

theorem Emit.generate_guard (m : Schema.Module) (guard other : String) :
    (generate m guard).map (fun _ => ()) = (generate m other).map fun _ => () := by
  have hmap : ∀ guard, (generate m guard).map (fun _ => ()) =
      (declareAll m.className m.decls).2.bind fun _ => (generateSource m).map fun _ => () := by
    intro guard
    rw [generate_eq]
    unfold generateHeader
    generalize (declareAll m.className m.decls).2 = body
    generalize generateSource m = source
    cases body <;> cases source <;> rfl
  rw [hmap, hmap]

namespace Command
open Files

theorem lines_append (first second : List Notice) :
    lines (first ++ second) = lines first ++ lines second := by
  rw [lines, List.map_append, String.join_append]
  rfl

theorem lines_flatMap {α : Type} (f : α → List Notice) (as : List α) :
    lines (as.flatMap f) = String.join (as.map fun a => lines (f a)) := by
  induction as with
  | nil => rfl
  | cons a rest ih => rw [List.flatMap_cons, lines_append, ih, List.map_cons, String.join_cons]

theorem any_isError_warnings (warnings : List Load.FileWarning) :
    (warnings.map warningNotice).any Notice.isError = false := by
  rw [List.any_map, List.any_eq_false]
  intro w _
  simp [warningNotice, Notice.isError]

theorem any_isError_failureNotices {e : Load.Failure} (h : e.Explained) (path : String) :
    (failureNotices path e).any Notice.isError = true := by
  cases e with
  | unresolved file src errors =>
    have herrors := h file src errors rfl
    cases errors with
    | nil => exact absurd rfl herrors
    | cons error rest => rfl
  | unreadable => rfl
  | malformed => rfl

section
variable {depth : Nat} {tree : Tree} {settings : Settings}

/-- There are no artifacts exactly if there is an error among the notices. -/
theorem any_isError_prepare {sysroot guard path : String} {p : Prepared}
    (h : prepare depth tree sysroot guard path = some p) :
    p.notices.any Notice.isError = p.artifacts?.isNone := by
  unfold prepare at h
  rcases hload : Load.load depth tree { sysroot, unrolling := depth } {} path with
    _ | ⟨failure | loaded, log⟩
  · rw [hload] at h
    cases h
  · rw [hload] at h
    cases h
    exact any_isError_failureNotices (Load.load_explained hload) path
  · rw [hload] at h
    dsimp only at h
    cases hgenerate : Emit.generate loaded.module guard with
    | error fault =>
      rw [hgenerate] at h
      obtain ⟨text, -, rfl⟩ := Option.map_eq_some_iff.mp h
      simp [Notice.isError]
    | ok artifacts =>
      rw [hgenerate] at h
      cases h
      exact any_isError_warnings loaded.warnings

theorem notices_prepare_guard (depth : Nat) (tree : Tree) (sysroot guard other path : String) :
    (prepare depth tree sysroot guard path).map (·.notices) =
      (prepare depth tree sysroot other path).map (·.notices) := by
  unfold prepare
  rcases Load.load depth tree { sysroot, unrolling := depth } {} path with
    _ | ⟨failure | loaded, log⟩
  · rfl
  · rfl
  · have hguard := Emit.generate_guard loaded.module guard other
    dsimp only
    generalize Emit.generate loaded.module guard = first at hguard
    generalize Emit.generate loaded.module other = second at hguard
    cases first with
    | error fault =>
      cases second with
      | error fault' =>
        obtain rfl : fault = fault' := Except.error.inj hguard
        simp only [Option.map_map, Function.comp_def]
      | ok artifacts' => cases hguard
    | ok artifacts =>
      cases second with
      | error fault' => cases hguard
      | ok artifacts' => simp only [Option.map_some]

theorem prepare_guard {sysroot guard path : String} {p : Prepared}
    (h : prepare depth tree sysroot guard path = some p) (other : String) :
    ∃ q, prepare depth tree sysroot other path = some q ∧ q.notices = p.notices := by
  have hnotices := notices_prepare_guard depth tree sysroot guard other path
  rw [h] at hnotices
  exact Option.map_eq_some_iff.mp hnotices.symm

theorem isSome_prepare_guard (depth : Nat) (tree : Tree) (sysroot guard other path : String) :
    (prepare depth tree sysroot guard path).isSome = (prepare depth tree sysroot other path).isSome := by
  have hnotices := congrArg Option.isSome (notices_prepare_guard depth tree sysroot guard other path)
  rwa [Option.isSome_map, Option.isSome_map] at hnotices

theorem mapM_eq_some_iff {α β : Type} {f : α → Option β} {as : List α} {bs : List β} :
    as.mapM f = some bs ↔ List.Forall₂ (fun a b => f a = some b) as bs := by
  induction as generalizing bs with
  | nil =>
    rw [List.forall₂_nil_left_iff]
    exact ⟨fun h => (Option.some.inj h).symm, fun h => congrArg some h.symm⟩
  | cons a rest ih =>
    rw [List.mapM_cons, List.forall₂_cons_left_iff]
    cases hfirst : f a with
    | none => simp
    | some b =>
      rw [Option.bind_eq_bind, Option.bind_some, Option.bind_eq_bind, Option.bind_eq_some_iff]
      constructor
      · rintro ⟨more, hrest, hcons⟩
        exact ⟨b, more, rfl, ih.mp hrest, (Option.some.inj hcons).symm⟩
      · rintro ⟨c, more, hhead, htail, rfl⟩
        obtain rfl := Option.some.inj hhead
        exact ⟨more, ih.mpr htail, rfl⟩

theorem isSome_mapM_iff {α β : Type} {f : α → Option β} {as : List α} :
    (as.mapM f).isSome = true ↔ ∀ a ∈ as, (f a).isSome = true := by
  induction as with
  | nil => simp
  | cons a rest ih =>
    rw [List.mapM_cons, List.forall_mem_cons, ← ih]
    cases f a with
    | none => simp
    | some b => cases rest.mapM f <;> simp

def checked (settings : Settings) (tree : Tree) (prepared : List Prepared) : Outcome :=
  ⟨if prepared.any fun p => fails settings p.notices then 1 else 0,
    String.join (prepared.map fun p => lines p.notices), tree, prepared.flatMap (·.log)⟩

theorem checked_singleton (settings : Settings) (tree : Tree) (p : Prepared) :
    checked settings tree [p] =
      ⟨if fails settings p.notices then 1 else 0, lines p.notices, tree, p.log⟩ := by
  simp only [checked, List.any_cons, List.any_nil, Bool.or_false, List.map_cons, List.map_nil,
    String.join_cons, String.join_nil, String.append_empty, List.flatMap_cons, List.flatMap_nil,
    List.append_nil]

theorem runCheck_eq_some_iff {paths : List String} (hpaths : paths ≠ []) {run : Outcome} :
    runCheck depth tree settings paths = some run ↔
      ∃ prepared, List.Forall₂ (fun path p => prepare depth tree settings.sysroot "" path = some p)
        paths prepared ∧ run = checked settings tree prepared := by
  have hchecked (prepared : List Prepared) :
      ⟨if fails settings (prepared.flatMap (·.notices)) then 1 else 0,
        lines (prepared.flatMap (·.notices)), tree, prepared.flatMap (·.log)⟩ =
        checked settings tree prepared := by
    unfold checked fails
    rw [lines_flatMap, List.any_flatMap]
  unfold runCheck
  split
  · exact absurd rfl hpaths
  · rw [Option.map_eq_some_iff]
    simp only [mapM_eq_some_iff, hchecked]
    exact exists_congr fun prepared => and_congr_right fun _ => eq_comm

theorem runCheck_singleton {path : String} {run : Outcome} :
    runCheck depth tree settings [path] = some run ↔
      ∃ p, prepare depth tree settings.sysroot "" path = some p ∧ run = checked settings tree [p] := by
  rw [runCheck_eq_some_iff (List.cons_ne_nil _ _)]
  constructor
  · rintro ⟨prepared, hall, hrun⟩
    obtain ⟨p, more, hp, hmore, rfl⟩ := List.forall₂_cons_left_iff.mp hall
    obtain rfl := List.forall₂_nil_left_iff.mp hmore
    exact ⟨p, hp, hrun⟩
  · rintro ⟨p, hp, hrun⟩
    exact ⟨[p], .cons hp .nil, hrun⟩

theorem isSome_runCheck_iff {paths : List String} (hpaths : paths ≠ []) :
    (runCheck depth tree settings paths).isSome = true ↔
      ∀ path ∈ paths, (prepare depth tree settings.sysroot "" path).isSome = true := by
  rw [← isSome_mapM_iff]
  unfold runCheck
  split
  · exact absurd rfl hpaths
  · rw [Option.isSome_map]

theorem isSome_runCheck_singleton_iff {path : String} :
    (runCheck depth tree settings [path]).isSome = true ↔
      (prepare depth tree settings.sysroot "" path).isSome = true := by
  rw [isSome_runCheck_iff (List.cons_ne_nil _ _), List.forall_mem_singleton]

theorem runCheck_joins {paths : List String} (hpaths : paths ≠ []) {run : Outcome}
    (hrun : runCheck depth tree settings paths = some run) :
    ∃ singles, List.Forall₂ (fun path single => runCheck depth tree settings [path] = some single)
        paths singles ∧
      run.stderr = String.join (singles.map (·.stderr)) ∧ (run.exit = 0 ∨ run.exit = 1) ∧
      (run.exit = 1 ↔ ∃ single ∈ singles, single.exit = 1) ∧ run.tree = tree := by
  obtain ⟨prepared, hall, rfl⟩ := (runCheck_eq_some_iff hpaths).mp hrun
  refine ⟨prepared.map fun p => checked settings tree [p], ?_, ?_, ?_, ?_, rfl⟩
  · rw [List.forall₂_map_right_iff]
    exact hall.imp fun path p hp => runCheck_singleton.mpr ⟨p, hp, rfl⟩
  · simp only [checked_singleton, List.map_map, Function.comp_def]
    rfl
  · unfold checked
    dsimp only
    split
    · exact .inr rfl
    · exact .inl rfl
  · simp [checked]

end

def writeText (serial : Nat → String) : Except WriteFault Unit → String
  | .ok () => ""
  | .error fault => (writeNotice serial fault).line

/-- A run that generates says `diagnostics` first. It ends there without artifacts, and otherwise
writes them. -/
structure GoesOn (host : Host) (tree : Tree) (settings : Settings) (xml header source : String)
    (diagnostics : String) (run : Outcome) : Prop where
  stopped : (¬ ∃ artifacts, Generated host.depth tree settings xml header artifacts) →
    run.exit = 1 ∧ run.stderr = diagnostics ∧ run.tree = tree
  written : ∀ artifacts, Generated host.depth tree settings xml header artifacts →
    (run.exit = 0 ↔ (tree.replace host.names (outputs header source artifacts)).2 = .ok ()) ∧
    run.stderr = diagnostics ++
      writeText host.serial (tree.replace host.names (outputs header source artifacts)).2 ∧
    run.tree = (tree.replace host.names (outputs header source artifacts)).1

section
variable {host : Host} {tree : Tree} {settings generating : Settings} {xml header source : String}

theorem goesOn_generateFiles {p : Prepared} {run : Outcome}
    (hp : prepare host.depth tree settings.sysroot (guardPath settings header) xml = some p)
    (hrun : generateFiles host tree settings xml header source = some run) :
    GoesOn host tree settings xml header source (lines p.notices) run := by
  obtain ⟨q, hq, rfl⟩ := Option.map_eq_some_iff.mp hrun
  obtain rfl : p = q := Option.some.inj (hp.symm.trans hq)
  cases hprepared : p.artifacts? with
  | none =>
    refine ⟨fun _ => ⟨rfl, rfl, rfl⟩, ?_⟩
    intro artifacts hgenerated
    obtain ⟨q, hq, hsome⟩ := artifacts_of_prepare.mpr hgenerated
    obtain rfl : p = q := Option.some.inj (hp.symm.trans hq)
    cases hprepared.symm.trans hsome
  | some found =>
    have hfound := artifacts_of_prepare.mp ⟨p, hp, hprepared⟩
    refine ⟨fun hnone => absurd ⟨found, hfound⟩ hnone, ?_⟩
    intro artifacts hgenerated
    obtain rfl := hfound.unique hgenerated
    dsimp only
    rcases tree.replace host.names (outputs header source found) with ⟨after, fault | _⟩
    · refine ⟨by simp, ?_, rfl⟩
      dsimp only [writeText]
      rw [lines_append]
      simp [lines, String.join]
    · exact ⟨by simp, (String.append_empty).symm, rfl⟩

theorem fails_prepare_iff (hwerror : settings.werror = false) {p : Prepared}
    (hp : prepare host.depth tree generating.sysroot (guardPath generating header) xml = some p) :
    fails settings p.notices = false ↔
      ∃ artifacts, Generated host.depth tree generating xml header artifacts := by
  have hfails : fails settings p.notices = p.artifacts?.isNone := by
    rw [← any_isError_prepare hp]
    simp only [fails, hwerror, Bool.or_false]
  rw [hfails, Option.isNone_eq_false_iff, Option.isSome_iff_exists]
  constructor
  · rintro ⟨artifacts, hsome⟩
    exact ⟨artifacts, artifacts_of_prepare.mp ⟨p, hp, hsome⟩⟩
  · rintro ⟨artifacts, hgenerated⟩
    obtain ⟨q, hq, hsome⟩ := artifacts_of_prepare.mpr hgenerated
    obtain rfl : p = q := Option.some.inj (hp.symm.trans hq)
    exact ⟨artifacts, hsome⟩

theorem generateFiles_isSome_iff (hsysroot : generating.sysroot = settings.sysroot) :
    (generateFiles host tree generating xml header source).isSome = true ↔
      (runCheck host.depth tree settings [xml]).isSome = true := by
  unfold generateFiles
  rw [Option.isSome_map, hsysroot, isSome_runCheck_singleton_iff, ← isSome_prepare_guard]

end

/-- A check of several descriptions ends if the checks of each of them end. It says what these say, one
after another, fails where one of them fails, and changes nothing. Generation ends if the check of its
description does. It says what the check says before it writes, and it comes to write exactly where the
check succeeds, warnings not being errors. -/
theorem check_joins_and_foretells (host : Host) (tree : Tree) (settings : Settings)
    {paths : List String} (hpaths : paths ≠ []) :
    ((runCheck host.depth tree settings paths).isSome = true ↔
      ∀ path ∈ paths, (runCheck host.depth tree settings [path]).isSome = true) ∧
    (∀ run, runCheck host.depth tree settings paths = some run →
      ∃ singles, List.Forall₂ (fun path single => runCheck host.depth tree settings [path] = some single)
          paths singles ∧
        run.stderr = String.join (singles.map (·.stderr)) ∧ (run.exit = 0 ∨ run.exit = 1) ∧
        (run.exit = 1 ↔ ∃ single ∈ singles, single.exit = 1) ∧ run.tree = tree) ∧
    ∀ (generating : Settings) (xml header source : String), generating.sysroot = settings.sysroot →
      ((generateFiles host tree generating xml header source).isSome = true ↔
        (runCheck host.depth tree settings [xml]).isSome = true) ∧
      ∀ single run, runCheck host.depth tree settings [xml] = some single →
        generateFiles host tree generating xml header source = some run →
          GoesOn host tree generating xml header source single.stderr run ∧
          (settings.werror = false → (single.exit = 0 ↔
            ∃ artifacts, Generated host.depth tree generating xml header artifacts)) := by
  refine ⟨?_, fun run => runCheck_joins hpaths, ?_⟩
  · simp only [isSome_runCheck_singleton_iff]
    exact isSome_runCheck_iff hpaths
  intro generating xml header source hsysroot
  refine ⟨generateFiles_isSome_iff hsysroot, fun single run hsingle hrun => ?_⟩
  obtain ⟨p, hp, rfl⟩ := runCheck_singleton.mp hsingle
  rw [← hsysroot] at hp
  obtain ⟨q, hq, hnotices⟩ := prepare_guard hp (guardPath generating header)
  rw [checked_singleton, ← hnotices]
  refine ⟨goesOn_generateFiles hq hrun, fun hwerror => ?_⟩
  rw [← fails_prepare_iff hwerror hq]
  simp

def unevenTree : Tree :=
  .ofEntries [("x.xml", .file (Text.Utf8.encode "<xcb header=\"x\"/>")),
    ("y.xml", .file (Text.Utf8.encode "<xcb header=\"y\"><import>z</import></xcb>"))]

theorem check_joins_and_foretells_uneven :
    ∃ run first second, runCheck smallHost.depth unevenTree {} ["x.xml", "y.xml"] = some run ∧
      runCheck smallHost.depth unevenTree {} ["x.xml"] = some first ∧
      runCheck smallHost.depth unevenTree {} ["y.xml"] = some second ∧
      run.stderr = String.join [first.stderr, second.stderr] ∧ run.exit = 1 ∧
      ∃ artifacts, Generated smallHost.depth unevenTree {} "x.xml" "x.h" artifacts := by
  have hends : (runCheck smallHost.depth unevenTree {} ["x.xml", "y.xml"]).map (·.exit) = some 1 := by
    decide +kernel
  have hfirst : (runCheck smallHost.depth unevenTree {} ["x.xml"]).map (·.exit) = some 0 := by
    decide +kernel
  obtain ⟨run, hrun, hexit⟩ := Option.map_eq_some_iff.mp hends
  obtain ⟨-, hjoins, hforetells⟩ :=
    check_joins_and_foretells smallHost unevenTree {} (List.cons_ne_nil "x.xml" ["y.xml"])
  obtain ⟨singles, hall, hstderr, -⟩ := hjoins run hrun
  obtain ⟨first, more, hsingle, hmore, rfl⟩ := List.forall₂_cons_left_iff.mp hall
  obtain ⟨second, rest, hsecond, hrest, rfl⟩ := List.forall₂_cons_left_iff.mp hmore
  obtain rfl := List.forall₂_nil_left_iff.mp hrest
  refine ⟨run, first, second, hrun, hsingle, hsecond, hstderr, hexit, ?_⟩
  obtain ⟨hiff, hgoes⟩ := hforetells {} "x.xml" "x.h" "x.cc" rfl
  obtain ⟨generated, hgenerated⟩ := Option.isSome_iff_exists.mp (hiff.mpr (by rw [hsingle]; rfl))
  rw [hsingle] at hfirst
  exact ((hgoes first generated hsingle hgenerated).2 rfl).mp (Option.some.inj hfirst)

end Command
end CodecGen
