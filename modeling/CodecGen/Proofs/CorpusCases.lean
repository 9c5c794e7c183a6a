import CodecGen.Corpus.Case
import Mathlib.Data.List.Forall2
set_option autoImplicit false
/-!
What a corpus file says and what is read of it. The headings of tests cut a file into stretches, and
the reader goes through them one after the other. A case keeps what the fenced blocks of its stretch
say, except where a text that is empty stands for one that has not come yet: an empty description
gives way to the next one, and of several errors only the last is kept.
-/
namespace CodecGen.Corpus

structure Snippet where
  language : String
  content : String
  line : Nat
deriving DecidableEq, Repr

/-- The heading of a test and the fenced blocks up to the next such heading. -/
structure Stretch where
  name : String
  line : Nat
  snippets : List Snippet
deriving DecidableEq, Repr

def stretches : List Block → List Snippet × List Stretch
  | [] => ([], [])
  | .fence language content line :: rest =>
    (⟨language, content, line⟩ :: (stretches rest).1, (stretches rest).2)
  | .heading text line :: rest =>
    match testName? text with
    | none => stretches rest
    | some name => ([], ⟨name, line, (stretches rest).1⟩ :: (stretches rest).2)

def Block.test? : Block → Option (String × Nat)
  | .heading text line => (testName? text).map fun name => (name, line)
  | .fence .. => none

theorem tests_of_stretches (bs : List Block) :
    (stretches bs).2.map (fun s => (s.name, s.line)) = bs.filterMap Block.test? := by
  induction bs with
  | nil => rfl
  | cons b rest ih =>
    cases b with
    | fence language content line => exact ih
    | heading text line =>
      rw [stretches, List.filterMap_cons, Block.test?]
      cases testName? text with
      | none => exact ih
      | some name => exact congrArg ((name, line) :: ·) ih

def Case.addAll (c : Case) (snippets : List Snippet) : Except CaseFault Case :=
  snippets.foldlM (fun c f => c.addFence f.language f.content f.line) c

theorem Case.addAll_cons (c : Case) (f : Snippet) (rest : List Snippet) :
    c.addAll (f :: rest) = (c.addFence f.language f.content f.line >>= fun d => d.addAll rest) :=
  List.foldlM_cons

def Stretch.read (s : Stretch) : Except CaseFault Case := do
  let c ← Case.addAll { name := s.name, line := s.line } s.snippets
  c.finish

def Snippet.unlabelled (f : Snippet) : Except CaseFault Unit :=
  if f.language == "" then .ok () else .error (.outside f.line f.language)

section
variable {text name : String}

theorem casesFrom_heading (current : Option Case) (line : Nat) (rest : List Block)
    (h : testName? text = none) :
    casesFrom current (.heading text line :: rest) = casesFrom current rest := by
  cases current <;> simp only [casesFrom, h]

theorem casesFrom_first_test (line : Nat) (rest : List Block) (h : testName? text = some name) :
    casesFrom none (.heading text line :: rest) = casesFrom (some { name, line }) rest := by
  simp only [casesFrom, h]

theorem casesFrom_next_test (c : Case) (line : Nat) (rest : List Block)
    (h : testName? text = some name) :
    casesFrom (some c) (.heading text line :: rest) = (do
      let done ← c.finish
      return done :: (← casesFrom (some { name, line }) rest)) := by
  simp only [casesFrom, h]

end

theorem casesFrom_some (c : Case) (bs : List Block) :
    casesFrom (some c) bs = (do
      let done ← (← c.addAll (stretches bs).1).finish
      return done :: (← (stretches bs).2.mapM Stretch.read)) := by
  -- the reader meets the blocks from the front, and only the open case goes with it
  induction bs generalizing c with
  | nil => rfl
  | cons b rest ih =>
    cases b with
    | fence language content line =>
      rw [casesFrom, stretches, Case.addAll_cons, bind_assoc]
      exact bind_congr fun d => ih d
    | heading text line =>
      rw [stretches]
      cases htest : testName? text with
      | none =>
        rw [casesFrom_heading _ line rest htest]
        exact ih c
      | some name =>
        rw [casesFrom_next_test c line rest htest, ih]
        simp only [List.mapM_cons, Stretch.read, bind_assoc, pure_bind]
        rfl

/-- A file is what comes before its first test and then its stretches, each read from the beginning. -/
theorem casesFrom_none (bs : List Block) :
    casesFrom none bs = (do
      forM (stretches bs).1 Snippet.unlabelled
      (stretches bs).2.mapM Stretch.read) := by
  induction bs with
  | nil => rfl
  | cons b rest ih =>
    cases b with
    | fence language content line =>
      rw [casesFrom, stretches, List.forM_cons, bind_assoc, ih, Snippet.unlabelled]
      cases language == "" <;> rfl
    | heading text line =>
      rw [stretches]
      cases htest : testName? text with
      | none =>
        rw [casesFrom_heading _ line rest htest]
        exact ih
      | some name =>
        rw [casesFrom_first_test line rest htest, casesFrom_some]
        simp only [List.mapM_cons, Stretch.read, bind_assoc]
        rfl

def contents (language : String) (snippets : List Snippet) : List String :=
  (snippets.filter (·.language == language)).map (·.content)

theorem contents_cons (language : String) (f : Snippet) (rest : List Snippet) :
    contents language (f :: rest) =
      if f.language = language then f.content :: contents language rest else contents language rest := by
  by_cases h : f.language = language <;> simp [contents, h]

def knownLanguages : List String := ["xml", "h", "cc", "error"]

/-- How a case changes as it takes up fenced blocks. Each description but the last, that of the
case itself included, is empty. -/
@[mk_iff takes_iff]
structure Case.Takes (c : Case) (snippets : List Snippet) (d : Case) : Prop where
  name : d.name = c.name
  line : d.line = c.line
  known : ∀ f ∈ snippets, f.language ∈ knownLanguages
  input : c.input :: contents "xml" snippets =
    List.replicate (contents "xml" snippets).length "" ++ [d.input]
  header : d.header = c.header ++ contents "h" snippets
  source : d.source = c.source ++ contents "cc" snippets
  error : d.error = ((contents "error" snippets).map Text.Blank.trim).getLastD c.error

theorem Case.takes_nil (c d : Case) : c.Takes [] d ↔ c = d := by
  constructor
  · intro h
    cases c
    cases d
    obtain ⟨hname, hline, -, hinput, hheader, hsource, herror⟩ := h
    simp_all [contents]
  · rintro rfl
    exact ⟨rfl, rfl, by simp, rfl, by simp [contents], by simp [contents], rfl⟩

section
variable (c d : Case) (content : String) (line : Nat) (rest : List Snippet)

theorem Case.takes_xml :
    c.Takes (⟨"xml", content, line⟩ :: rest) d ↔
      c.input = "" ∧ { c with input := content }.Takes rest d := by
  simp [takes_iff, contents_cons, knownLanguages, List.replicate_succ, and_left_comm, and_assoc]

theorem Case.takes_h :
    c.Takes (⟨"h", content, line⟩ :: rest) d ↔
      { c with header := c.header ++ [content] }.Takes rest d := by
  simp [takes_iff, contents_cons, knownLanguages]

theorem Case.takes_cc :
    c.Takes (⟨"cc", content, line⟩ :: rest) d ↔
      { c with source := c.source ++ [content] }.Takes rest d := by
  simp [takes_iff, contents_cons, knownLanguages]

theorem Case.takes_error :
    c.Takes (⟨"error", content, line⟩ :: rest) d ↔
      { c with error := Text.Blank.trim content }.Takes rest d := by
  simp [takes_iff, contents_cons, knownLanguages, List.getLastD_cons, -List.getLastD_eq_getLast?]

theorem Case.addFence_of_not_known {language : String} (h : language ∉ knownLanguages) :
    c.addFence language content line = .error (.unknownLanguage line language c.name) := by
  unfold addFence
  split
  iterate 4 exact absurd (by decide) h
  rfl

end

theorem Case.takes_cons (c d : Case) (f : Snippet) (rest : List Snippet) :
    c.Takes (f :: rest) d ↔
      ∃ e, c.addFence f.language f.content f.line = .ok e ∧ e.Takes rest d := by
  obtain ⟨language, content, line⟩ := f
  by_cases hknown : language ∈ knownLanguages
  · simp only [knownLanguages, List.mem_cons, List.not_mem_nil, or_false] at hknown
    rcases hknown with rfl | rfl | rfl | rfl
    -- only a description can be refused: when the case has one that is not empty
    · rw [takes_xml]
      by_cases hinput : c.input = "" <;> simp [addFence, hinput]
    · rw [takes_h]
      simp [addFence]
    · rw [takes_cc]
      simp [addFence]
    · rw [takes_error]
      simp [addFence]
  · constructor
    · intro h
      exact absurd (h.known _ List.mem_cons_self) hknown
    · rintro ⟨e, hadd, -⟩
      rw [addFence_of_not_known c content line hknown] at hadd
      cases hadd

theorem except_bind_eq_ok {ε α β : Type} {x : Except ε α} {f : α → Except ε β} {b : β} :
    (x >>= f) = .ok b ↔ ∃ a, x = .ok a ∧ f a = .ok b := by
  cases x with
  | error fault => simp [bind, Except.bind]
  | ok a => simp [bind, Except.bind]

theorem Case.addAll_ok_iff (c d : Case) (snippets : List Snippet) :
    c.addAll snippets = .ok d ↔ c.Takes snippets d := by
  induction snippets generalizing c with
  | nil =>
    rw [takes_nil]
    exact ⟨Except.ok.inj, congrArg _⟩
  | cons f rest ih => simp only [takes_cons, addAll_cons, except_bind_eq_ok, ih]

theorem Case.finish_ok_iff (c d : Case) :
    c.finish = .ok d ↔
      c.input ≠ "" ∧ (c.header ≠ [] ∨ c.source ≠ [] ∨ c.error ≠ "") ∧ c = d := by
  unfold finish
  by_cases hinput : c.input = ""
  · simp [hinput]
  · by_cases hheader : c.header = [] <;> by_cases hsource : c.source = [] <;>
      by_cases herror : c.error = "" <;> simp [hinput, hheader, hsource, herror]

/-- What a stretch has to say, and the case that is read from it. The description is the last of its
kind, and the ones before it are empty. -/
structure Stretch.Reads (s : Stretch) (c : Case) : Prop where
  name : c.name = s.name
  line : c.line = s.line
  known : ∀ f ∈ s.snippets, f.language ∈ knownLanguages
  input : ∃ skipped, contents "xml" s.snippets = List.replicate skipped "" ++ [c.input]
  described : c.input ≠ ""
  header : c.header = contents "h" s.snippets
  source : c.source = contents "cc" s.snippets
  error : c.error = ((contents "error" s.snippets).map Text.Blank.trim).getLastD ""
  expects : c.header ≠ [] ∨ c.source ≠ [] ∨ c.error ≠ ""

theorem Stretch.read_ok_iff (s : Stretch) (c : Case) : s.read = .ok c ↔ s.Reads c := by
  simp only [read, except_bind_eq_ok, Case.addAll_ok_iff, Case.finish_ok_iff]
  constructor
  · rintro ⟨_, htakes, hdescribed, hexpects, rfl⟩
    refine ⟨htakes.name, htakes.line, htakes.known, ?_, hdescribed, htakes.header, htakes.source,
      htakes.error, hexpects⟩
    have hinput := htakes.input
    cases hlength : (contents "xml" s.snippets).length with
    | zero =>
      rw [hlength] at hinput
      exact absurd (List.cons.inj hinput).1.symm hdescribed
    | succ skipped =>
      rw [hlength] at hinput
      exact ⟨skipped, (List.cons.inj hinput).2⟩
  · intro h
    refine ⟨c, ⟨h.name, h.line, h.known, ?_, h.header, h.source, h.error⟩, h.described, h.expects, rfl⟩
    obtain ⟨skipped, hinput⟩ := h.input
    rw [hinput]
    simp [List.replicate_succ]

/-- The case shows every fenced block of the stretch: its one description, the parts of the header and
of the source in order, and the error if there is one. -/
structure Stretch.Kept (s : Stretch) (c : Case) : Prop where
  input : contents "xml" s.snippets = [c.input]
  header : contents "h" s.snippets = c.header
  source : contents "cc" s.snippets = c.source
  error : (contents "error" s.snippets).map Text.Blank.trim = if c.error = "" then [] else [c.error]

structure Stretch.Plain (s : Stretch) : Prop where
  described : "" ∉ contents "xml" s.snippets
  single : (contents "error" s.snippets).length ≤ 1
  worded : ∀ text ∈ contents "error" s.snippets, Text.Blank.trim text ≠ ""

theorem Stretch.Reads.kept_iff {s : Stretch} {c : Case} (h : s.Reads c) : s.Kept c ↔ s.Plain := by
  constructor
  · intro hkept
    have herror := hkept.error
    refine ⟨?_, ?_, ?_⟩
    · rw [hkept.input, List.mem_singleton]
      exact h.described.symm
    · rw [← List.length_map Text.Blank.trim, herror]
      split <;> simp
    · intro text htext hblank
      have hmem := List.mem_map_of_mem (f := Text.Blank.trim) htext
      rw [herror, hblank] at hmem
      split at hmem
      · cases hmem
      · next hne => exact hne (List.mem_singleton.mp hmem).symm
  · intro hplain
    refine ⟨?_, h.header.symm, h.source.symm, ?_⟩
    · obtain ⟨skipped, hinput⟩ := h.input
      -- only empty descriptions are passed over on the way to the one that counts
      cases skipped with
      | zero => exact hinput
      | succ skipped =>
        have hempty : "" ∈ contents "xml" s.snippets := by
          rw [hinput, List.replicate_succ]
          exact List.mem_cons_self
        exact absurd hempty hplain.described
    · have herror := h.error
      have hsingle := hplain.single
      have hworded := hplain.worded
      rcases hcontents : contents "error" s.snippets with _ | ⟨text, _ | ⟨more, rest⟩⟩
      · rw [hcontents] at herror
        have herror : c.error = "" := herror
        rw [if_pos herror]
        rfl
      · rw [hcontents] at herror hworded
        have herror : c.error = Text.Blank.trim text := herror
        rw [if_neg (herror ▸ hworded text List.mem_cons_self), herror]
        rfl
      · rw [hcontents] at hsingle
        simp at hsingle

theorem mapM_read_ok_iff (ss : List Stretch) (cs : List Case) :
    ss.mapM Stretch.read = .ok cs ↔ List.Forall₂ Stretch.Reads ss cs := by
  induction ss generalizing cs with
  | nil =>
    rw [List.forall₂_nil_left_iff]
    exact ⟨fun h => (Except.ok.inj h).symm, fun h => h ▸ rfl⟩
  | cons s rest ih =>
    simp only [List.mapM_cons, except_bind_eq_ok, Stretch.read_ok_iff, ih, List.forall₂_cons_left_iff]
    constructor
    · rintro ⟨c, hc, more, hmore, h⟩
      exact ⟨c, more, hc, hmore, (Except.ok.inj h).symm⟩
    · rintro ⟨c, more, hc, hmore, rfl⟩
      exact ⟨c, hc, more, hmore, rfl⟩

theorem forM_unlabelled_ok_iff (snippets : List Snippet) :
    forM snippets Snippet.unlabelled = .ok () ↔ ∀ f ∈ snippets, f.language = "" := by
  induction snippets with
  | nil => simp [pure, Except.pure]
  | cons f rest ih =>
    rw [List.forM_cons, except_bind_eq_ok, List.forall_mem_cons, ← ih]
    by_cases hlanguage : f.language = "" <;> simp [Snippet.unlabelled, hlanguage]

theorem casesFrom_ok_iff (bs : List Block) (cs : List Case) :
    casesFrom none bs = .ok cs ↔
      (∀ f ∈ (stretches bs).1, f.language = "") ∧
        List.Forall₂ Stretch.Reads (stretches bs).2 cs := by
  rw [casesFrom_none, except_bind_eq_ok, ← forM_unlabelled_ok_iff, ← mapM_read_ok_iff]
  exact ⟨fun ⟨_, hloose, hcases⟩ => ⟨hloose, hcases⟩, fun ⟨hloose, hcases⟩ => ⟨(), hloose, hcases⟩⟩

theorem tests_of_reads {ss : List Stretch} {cs : List Case} (h : List.Forall₂ Stretch.Reads ss cs) :
    cs.map (fun c => (c.name, c.line)) = ss.map fun s => (s.name, s.line) := by
  induction h with
  | nil => rfl
  | cons hone _ ih => rw [List.map_cons, List.map_cons, hone.name, hone.line, ih]

theorem exists_forall₂_iff {α β : Type} {R : α → β → Prop} {as : List α} :
    (∃ bs, List.Forall₂ R as bs) ↔ ∀ a ∈ as, ∃ b, R a b := by
  induction as with
  | nil => simp
  | cons a rest ih =>
    rw [List.forall_mem_cons, ← ih]
    constructor
    · rintro ⟨_, hall⟩
      cases hall with
      | cons hone hmany => exact ⟨⟨_, hone⟩, ⟨_, hmany⟩⟩
    · rintro ⟨⟨b, hone⟩, more, hmany⟩
      exact ⟨b :: more, .cons hone hmany⟩

/-- A file is read as a whole or not at all: it is refused exactly when a fenced block before the
first test is labelled or some stretch has no case. Otherwise there is one case for each test, in
order. It shows all that its stretch says exactly when no description there is empty and there is at
most one error, which is not blank. -/
theorem cases_kept_iff (bs : List Block) :
    ((∃ fault, casesFrom none bs = .error fault) ↔
      ¬ ((∀ f ∈ (stretches bs).1, f.language = "") ∧ ∀ s ∈ (stretches bs).2, ∃ c, s.Reads c)) ∧
    ∀ cs, casesFrom none bs = .ok cs →
      cs.map (fun c => (c.name, c.line)) = bs.filterMap Block.test? ∧
        List.Forall₂ (fun s c => s.Reads c ∧ (s.Kept c ↔ s.Plain)) (stretches bs).2 cs := by
  constructor
  · have hread : (∃ cs, casesFrom none bs = .ok cs) ↔
        (∀ f ∈ (stretches bs).1, f.language = "") ∧ ∀ s ∈ (stretches bs).2, ∃ c, s.Reads c := by
      simp only [casesFrom_ok_iff, exists_and_left, exists_forall₂_iff]
    rw [← hread]
    cases casesFrom none bs with
    | ok cs => simp
    | error fault => simp
  · intro cs hcs
    obtain ⟨-, hall⟩ := (casesFrom_ok_iff bs cs).mp hcs
    refine ⟨?_, hall.imp fun s c hreads => ⟨hreads, hreads.kept_iff⟩⟩
    rw [tests_of_reads hall, tests_of_stretches]

def sampleBlocks : List Block :=
  [.heading "Generator cases" 1, .fence "" "not a test\n" 6,
    .heading "Test: first" 9, .fence "xml" "<xcb header=\"a\"/>\n" 12, .fence "h" "struct A;\n" 16,
    .fence "cc" "// x\n" 20, .heading "Test: second" 23, .fence "xml" "<xcb header=\"b\"/>\n" 26,
    .fence "error" "E5000: boom\n" 30]

theorem cases_kept_iff_sample :
    ∃ cs, casesFrom none sampleBlocks = .ok cs ∧
      cs.map (fun c => (c.name, c.line)) = [("first", 9), ("second", 23)] ∧
      List.Forall₂ (fun s c => s.Reads c ∧ (s.Kept c ↔ s.Plain)) (stretches sampleBlocks).2 cs := by
  refine ⟨_, rfl, ?_⟩
  exact (cases_kept_iff sampleBlocks).2 _ rfl

def emptyDescription : List Block :=
  [.heading "Test: x" 1, .fence "xml" "" 1, .fence "xml" "<xcb/>\n" 7, .fence "h" "foo\n" 11]

def twoErrors : List Block :=
  [.heading "Test: x" 1, .fence "xml" "<xcb/>\n" 4, .fence "error" "E1003: a\n" 8,
    .fence "error" "E3000: b\n" 12]

/-- Reading drops the empty description and the first of the two errors. -/
theorem empty_description_and_first_error_lost :
    (∃ s c, stretches emptyDescription = ([], [s]) ∧ casesFrom none emptyDescription = .ok [c] ∧
      contents "xml" s.snippets = ["", "<xcb/>\n"] ∧ c.input = "<xcb/>\n" ∧ ¬ s.Kept c) ∧
    ∃ s c, stretches twoErrors = ([], [s]) ∧ casesFrom none twoErrors = .ok [c] ∧
      contents "error" s.snippets = ["E1003: a\n", "E3000: b\n"] ∧ c.error = "E3000: b" ∧
      ¬ s.Kept c := by
  constructor
  · refine ⟨⟨"x", 1, [⟨"xml", "", 1⟩, ⟨"xml", "<xcb/>\n", 7⟩, ⟨"h", "foo\n", 11⟩]⟩,
      ⟨"x", 1, "<xcb/>\n", ["foo\n"], [], ""⟩, by decide +kernel, by decide +kernel, rfl, rfl, ?_⟩
    intro hkept
    exact absurd hkept.input (by decide)
  · refine ⟨⟨"x", 1, [⟨"xml", "<xcb/>\n", 4⟩, ⟨"error", "E1003: a\n", 8⟩, ⟨"error", "E3000: b\n", 12⟩]⟩,
      ⟨"x", 1, "<xcb/>\n", [], [], "E3000: b"⟩, by decide +kernel, by decide +kernel, rfl, rfl, ?_⟩
    intro hkept
    exact absurd (congrArg List.length hkept.error) (by decide)

end CodecGen.Corpus
