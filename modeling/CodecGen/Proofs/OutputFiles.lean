import CodecGen.Command.Execute
import CodecGen.Proofs.Replacement
set_option autoImplicit false
/-!
The files that a run of the generating command leaves behind. The header is put in place after the
source file, so a run that fails because of the header has already replaced the source file; all other
runs replace both files or none, as long as no temporary file stands where one of them has to go.
-/
namespace CodecGen.Command
open Files

def Generated (depth : Nat) (tree : Tree) (settings : Settings) (xml header : String)
    (artifacts : Emit.Artifacts) : Prop :=
  ∃ loaded log,
    Load.load depth tree { sysroot := settings.sysroot, unrolling := depth } {} xml =
      some (.ok loaded, log) ∧
    Emit.generate loaded.module (guardPath settings header) = .ok artifacts

section
variable {depth : Nat} {names : Naming} {tree : Tree} {settings : Settings}
variable {xml header source : String}

theorem artifacts_of_prepare {artifacts : Emit.Artifacts} :
    (∃ p, prepare depth tree settings.sysroot (guardPath settings header) xml = some p ∧
      p.artifacts? = some artifacts) ↔ Generated depth tree settings xml header artifacts := by
  unfold prepare Generated
  cases hload :
      Load.load depth tree { sysroot := settings.sysroot, unrolling := depth } {} xml with
  | none => simp
  | some answer =>
    obtain ⟨result, log⟩ := answer
    cases result with
    | error failure => simp
    | ok loaded =>
      cases hgenerate : Emit.generate loaded.module (guardPath settings header) with
      | error fault => simp [hgenerate]
      | ok generated => simp [hgenerate]

theorem read_of_target {after : Tree} {path : String} {place : Location} {content : Bytes}
    (htarget : tree.target? path = some place) (hdirs : Tree.SameDirs tree after)
    (hentry : after.entry? place = some (.file content)) : after.read path = .ok content := by
  have hreach : after.reach path = .ok place := by
    rw [Tree.target?_congr hdirs] at htarget
    exact (Tree.target?_eq_some.mp htarget).1
  simp [Tree.read, Tree.find, hreach, hentry, bind, Except.bind]

/-- What replacing two files leaves: nothing changed, the second one changed, or both. -/
inductive Replaces (names : Naming) (tree : Tree) (first second : Output) :
    Tree × Except WriteFault Unit → Prop where
  | neither (fault : WriteFault)
      (h : (∃ fault, tree.stageAll names [] [first, second] = (tree, .error fault)) ∨
        tree.target? second.path = none) :
      Replaces names tree first second (tree, .error fault)
  | second (fault : WriteFault) {after : Tree} {staged : List Staged} {place : Location}
      (hstaged : tree.stageAll names [] [first, second] = (after, .ok staged))
      (hfirst : tree.target? first.path = none) (hsecond : tree.target? second.path = some place) :
      Replaces names tree first second (tree.put place (.file second.content), .error fault)
  | both {place other : Location} (hfirst : tree.target? first.path = some place)
      (hsecond : tree.target? second.path = some other) :
      Replaces names tree first second
        ((tree.put other (.file second.content)).put place (.file first.content), .ok ())

theorem replace_two {first second : Output}
    (havoids : names.Avoids ([first.path, second.path].filterMap tree.target?)) :
    Replaces names tree first second (tree.replace names [first, second]) := by
  have hboth : names.Avoids ([first, second].filterMap fun o => tree.target? o.path) := havoids
  rcases Tree.replace_cases hboth with
    ⟨fault, hstage, hrun⟩ | ⟨after, staged, result, hstage, hrun, hresult⟩
  · rw [hrun]
    exact .neither fault (.inl ⟨fault, hstage⟩)
  · rw [hrun]
    change (_ ∧ Tree.readyIn tree [second, first] = [second, first]) ∨
      (_ ∧ Tree.readyIn tree [second, first] ≠ [second, first]) at hresult
    change Replaces names tree first second
      (Tree.settle tree tree (Tree.readyIn tree [second, first]), result)
    -- the second output is put in place first; if it cannot be, the first one is not tried
    cases hsecond : tree.target? second.path with
    | none =>
      rw [Tree.readyIn_cons_of_none hsecond] at hresult ⊢
      obtain ⟨⟨fault, rfl⟩, -⟩ := hresult.resolve_left (by simp)
      exact .neither fault (.inr hsecond)
    | some other =>
      rw [Tree.readyIn_cons_of_some (by simp [hsecond])] at hresult ⊢
      cases hfirst : tree.target? first.path with
      | none =>
        rw [Tree.readyIn_cons_of_none hfirst] at hresult ⊢
        obtain ⟨⟨fault, rfl⟩, -⟩ := hresult.resolve_left (by simp)
        have hsettle : Tree.settle tree tree [second] = tree.put other (.file second.content) := by
          simp [Tree.settle, Tree.settleOne, hsecond]
        rw [hsettle]
        exact .second fault hstage hfirst hsecond
      | some place =>
        rw [Tree.readyIn_cons_of_some (by simp [hfirst])] at hresult ⊢
        obtain ⟨rfl, -⟩ := hresult.resolve_right fun h => h.2 rfl
        have hsettle : Tree.settle tree tree (second :: first :: Tree.readyIn tree []) =
            (tree.put other (.file second.content)).put place (.file first.content) := by
          simp [Tree.settle, Tree.settleOne, Tree.readyIn, hfirst, hsecond]
        rw [hsettle]
        exact .both hfirst hsecond

/-- Both contents wait in temporary files, the source file can be put in place where it is not what was
there before, and the header cannot be. -/
def Stranded (host : Host) (tree : Tree) (settings : Settings) (xml header source : String) : Prop :=
  ∃ artifacts after staged place,
    Generated host.depth tree settings xml header artifacts ∧
    tree.stageAll host.names [] (outputs header source artifacts) = (after, .ok staged) ∧
    tree.target? header = none ∧ tree.target? source = some place ∧
    tree.entry? place ≠ some (.file (Text.Utf8.encode artifacts.source))

def ReplacedBoth (depth : Nat) (tree : Tree) (settings : Settings) (xml header source : String)
    (after : Tree) : Prop :=
  ∃ artifacts, Generated depth tree settings xml header artifacts ∧
    after.read header = .ok (Text.Utf8.encode artifacts.header) ∧
    (tree.target? source ≠ tree.target? header →
      after.read source = .ok (Text.Utf8.encode artifacts.source)) ∧
    ∀ place, tree.target? header ≠ some place → tree.target? source ≠ some place →
      after.entry? place = tree.entry? place

theorem replacedBoth_of_targets {artifacts : Emit.Artifacts} {place other : Location}
    (hgenerated : Generated depth tree settings xml header artifacts)
    (hheader : tree.target? header = some place) (hsource : tree.target? source = some other) :
    ReplacedBoth depth tree settings xml header source
      ((tree.put other (.file (Text.Utf8.encode artifacts.source))).put place
        (.file (Text.Utf8.encode artifacts.header))) := by
  have hplace := (Tree.target?_eq_some.mp hheader).2
  have hother := (Tree.target?_eq_some.mp hsource).2
  have hgiven := Tree.isGiven_of_isDirectory_eq_false hplace
  have hotherGiven := Tree.isGiven_of_isDirectory_eq_false hother
  have hdirs : Tree.SameDirs tree (tree.put other (.file (Text.Utf8.encode artifacts.source))) :=
    Tree.sameDirs_put_file hother _
  have hafter := hdirs.trans
    (Tree.sameDirs_put_file ((hdirs place).symm.trans hplace) (Text.Utf8.encode artifacts.header))
  refine ⟨artifacts, hgenerated, ?_, ?_, ?_⟩
  · exact read_of_target hheader hafter (by rw [Tree.entryAt_put hgiven, if_pos rfl])
  · intro hne
    have hdiffer : other ≠ place := fun heq => hne (by rw [hsource, hheader, heq])
    refine read_of_target hsource hafter ?_
    rw [Tree.entryAt_put hgiven, if_neg hdiffer, Tree.entryAt_put hotherGiven, if_pos rfl]
  · intro spot hspot hspot'
    have hne : spot ≠ place := fun heq => hspot (by rw [hheader, heq])
    have hne' : spot ≠ other := fun heq => hspot' (by rw [hsource, heq])
    rw [Tree.entryAt_put hgiven, if_neg hne, Tree.entryAt_put hotherGiven, if_neg hne']

theorem Generated.unique {first second : Emit.Artifacts}
    (h : Generated depth tree settings xml header first)
    (h' : Generated depth tree settings xml header second) : first = second := by
  obtain ⟨p, hp, hfirst⟩ := artifacts_of_prepare.mpr h
  obtain ⟨q, hq, hsecond⟩ := artifacts_of_prepare.mpr h'
  obtain rfl : p = q := Option.some.inj (hp.symm.trans hq)
  exact Option.some.inj (hfirst.symm.trans hsecond)

/-- What a run of the generating command comes to: nothing is generated, or the two files are replaced
as far as they can be. -/
theorem generateFiles_cases {host : Host} {run : Outcome}
    (hrun : generateFiles host tree settings xml header source = some run)
    (havoids : host.names.Avoids ([header, source].filterMap tree.target?)) :
    (run.exit = 1 ∧ run.tree = tree ∧
      ∀ artifacts, ¬ Generated host.depth tree settings xml header artifacts) ∨
    ∃ artifacts result, Generated host.depth tree settings xml header artifacts ∧
      Replaces host.names tree ⟨header, Text.Utf8.encode artifacts.header⟩
        ⟨source, Text.Utf8.encode artifacts.source⟩ (run.tree, result) ∧
      ((result = .ok () ∧ run.exit = 0) ∨ ∃ fault, result = .error fault ∧ run.exit = 1) := by
  obtain ⟨p, hprepare, rfl⟩ := Option.map_eq_some_iff.mp hrun
  cases hartifacts : p.artifacts? with
  | none =>
    refine .inl ⟨rfl, rfl, fun artifacts hgenerated => ?_⟩
    obtain ⟨q, hq, hsome⟩ := artifacts_of_prepare.mpr hgenerated
    obtain rfl : p = q := Option.some.inj (hprepare.symm.trans hq)
    cases hartifacts.symm.trans hsome
  | some artifacts =>
    have hgenerated := artifacts_of_prepare.mp ⟨p, hprepare, hartifacts⟩
    have hreplace : Replaces host.names tree ⟨header, Text.Utf8.encode artifacts.header⟩
        ⟨source, Text.Utf8.encode artifacts.source⟩
        (tree.replace host.names (outputs header source artifacts)) := replace_two havoids
    refine .inr ⟨artifacts, (tree.replace host.names (outputs header source artifacts)).2,
      hgenerated, ?_⟩
    dsimp only
    cases hresult : tree.replace host.names (outputs header source artifacts) with
    | mk after result =>
      rw [hresult] at hreplace
      cases result with
      | ok done => exact ⟨hreplace, .inl ⟨rfl, rfl⟩⟩
      | error fault => exact ⟨hreplace, .inr ⟨fault, rfl, rfl⟩⟩

/-- A run that succeeds has replaced both files and nothing else. A run that fails has left everything
as it was exactly if it was not the header that failed, with the source file already in place and
different from what was there; and even then nothing else has changed. -/
theorem outputs_replaced_together_iff (host : Host) (tree : Tree) (settings : Settings)
    (xml header source : String)
    (havoids : host.names.Avoids ([header, source].filterMap tree.target?)) (run : Outcome)
    (hrun : generateFiles host tree settings xml header source = some run) :
    (run.exit = 0 ∧ ReplacedBoth host.depth tree settings xml header source run.tree) ∨
    (run.exit = 1 ∧
      ((∀ place, run.tree.entry? place = tree.entry? place) ↔
        ¬ Stranded host tree settings xml header source) ∧
      ∀ place, tree.target? source ≠ some place → run.tree.entry? place = tree.entry? place) := by
  obtain ⟨exit, stderr, next, log⟩ := run
  rcases generateFiles_cases hrun havoids with
    ⟨rfl, rfl, hnone⟩ | ⟨artifacts, result, hgenerated, hreplaces, hexit⟩
  · refine .inr ⟨rfl, iff_of_true (fun _ => rfl) ?_, fun _ _ => rfl⟩
    rintro ⟨artifacts, _, _, _, hgenerated, -⟩
    exact hnone artifacts hgenerated
  · cases hreplaces with
    | neither fault h =>
      refine .inr ⟨by simpa using hexit, iff_of_true (fun _ => rfl) ?_, fun _ _ => rfl⟩
      rintro ⟨others, after, staged, place, hother, hstaged, -, htarget, -⟩
      obtain rfl := hgenerated.unique hother
      rcases h with ⟨fault, hfault⟩ | hnone
      · cases hfault.symm.trans hstaged
      · cases hnone.symm.trans htarget
    | @second fault after staged place hstaged hfirst hsecond =>
      have hgiven := Tree.isGiven_of_isDirectory_eq_false (Tree.target?_eq_some.mp hsecond).2
      refine .inr ⟨by simpa using hexit, ⟨?_, ?_⟩, ?_⟩
      · -- The source file was put in place, so the tree is the same only if it was there already.
        rintro hsame ⟨others, _, _, spot, hother, -, -, htarget, hne⟩
        obtain rfl := hgenerated.unique hother
        obtain rfl : place = spot := Option.some.inj (hsecond.symm.trans htarget)
        refine hne ((hsame place).symm.trans ?_)
        exact (Tree.entryAt_put hgiven _ _ _).trans (if_pos rfl)
      · intro hnot spot
        refine (Tree.entryAt_put hgiven _ _ _).trans ?_
        split
        · next heq =>
          subst heq
          refine Decidable.byContradiction fun hne => hnot ?_
          exact ⟨artifacts, after, staged, spot, hgenerated, hstaged, hfirst, hsecond, Ne.symm hne⟩
        · rfl
      · intro spot hspot
        have hne : spot ≠ place := fun heq => hspot (heq ▸ hsecond)
        exact (Tree.entryAt_put hgiven _ _ _).trans (if_neg hne)
    | both hfirst hsecond =>
      exact .inl ⟨by simpa using hexit, replacedBoth_of_targets hgenerated hfirst hsecond⟩

end

def plainTree : Tree := .ofEntries [("x.xml", .file (Text.Utf8.encode "<xcb header=\"x\"/>"))]

def blockedTree : Tree :=
  .ofEntries [("x.xml", .file (Text.Utf8.encode "<xcb header=\"x\"/>")), ("x.h", .directory)]

def smallHost : Host := { depth := 2, names := .counting 7 }

theorem smallHost_avoids {places : List Location}
    (h : places.all (fun place => place.getLast?.any (·.toList.head? != some '.')) = true) :
    smallHost.names.Avoids places := by
  rintro _ ⟨tree, around, base, n, -, rfl⟩ hmem
  have hhidden := List.all_eq_true.mp h _ hmem
  simp [Temporary.place, Temporary.nameWith] at hhidden

theorem outputs_replaced_together_iff_plain_blocked :
    (∃ run, generateFiles smallHost plainTree {} "x.xml" "x.h" "x.cc" = some run ∧
      ReplacedBoth smallHost.depth plainTree {} "x.xml" "x.h" "x.cc" run.tree) ∧
    (∃ run, generateFiles smallHost blockedTree {} "x.xml" "x.h" "x.cc" = some run ∧
      Stranded smallHost blockedTree {} "x.xml" "x.h" "x.cc") := by
  constructor
  · have hzero : (generateFiles smallHost plainTree {} "x.xml" "x.h" "x.cc").map (·.exit) =
        some 0 := by decide +kernel
    obtain ⟨run, hrun, hexit⟩ := Option.map_eq_some_iff.mp hzero
    have havoids : smallHost.names.Avoids (["x.h", "x.cc"].filterMap plainTree.target?) :=
      smallHost_avoids (by decide +kernel)
    rcases outputs_replaced_together_iff smallHost plainTree {} _ _ _ havoids run hrun with h | h
    · exact ⟨run, hrun, h.2⟩
    · cases hexit.symm.trans h.1
  · have hone : (generateFiles smallHost blockedTree {} "x.xml" "x.h" "x.cc").map (fun run =>
        (run.exit, (run.tree.entry? ["x.cc"]).isSome)) = some (1, true) := by decide +kernel
    obtain ⟨run, hrun, hexit⟩ := Option.map_eq_some_iff.mp hone
    have havoids : smallHost.names.Avoids (["x.h", "x.cc"].filterMap blockedTree.target?) :=
      smallHost_avoids (by decide +kernel)
    rcases outputs_replaced_together_iff smallHost blockedTree {} _ _ _ havoids run hrun with h | h
    · cases (congrArg Prod.fst hexit).symm.trans h.1
    · refine ⟨run, hrun, Classical.byContradiction fun hnot => ?_⟩
      have hsame := h.2.1.mpr hnot ["x.cc"]
      have hwritten := congrArg Prod.snd hexit
      dsimp only at hwritten
      rw [hsame] at hwritten
      exact absurd hwritten (by decide +kernel)

/-- A failed run replaces the source file when a directory stands where the header has to go. And a run
that succeeds leaves no source file when the temporary file of the header stood in its place. -/
theorem source_replaced_by_failed_run :
    (generateFiles smallHost blockedTree {} "x.xml" "x.h" "x.cc").map (fun run =>
      (run.exit, blockedTree.entry? ["x.cc"], (run.tree.entry? ["x.cc"]).isSome)) =
      some (1, none, true) ∧
    (generateFiles smallHost plainTree {} "x.xml" "x.h" ".x.h.7").map (fun run =>
      (run.exit, (run.tree.entry? [".x.h.7"]).isSome)) = some (0, false) := by
  decide +kernel

end CodecGen.Command
