import CodecGen.Proofs.Placeless
set_option autoImplicit false
/-!
Where tags begin. The reader is outside all tags, at the `<` of what may become one, or inside a tag,
and leaves a tag only at its end. So every tag that it puts out begins at a `<` before which it was
outside all markup, and the source falls into two parts there.
-/
namespace CodecGen.Markup

def Lexeme.isTag : Lexeme → Bool
  | .text _ => false
  | _ => true

def Step.Keeps (stage : Stage) : Step → Prop
  | .next mode => mode.stage = stage
  | .out lexeme mode => mode = .content ∧ (lexeme.isTag = true ↔ stage = .inside)
  | .fail .. => True

theorem Moves.keeps {offset : Nat} {b : UInt8} {mode : Mode} {r alone : Step}
    (h : Moves offset b mode r alone) (hcontent : ∀ run, mode = .text .content run → b ≠ '<'.toUInt8) :
    r.Keeps mode.stage := by
  cases h with
  | fail => trivial
  | next _ hstage => exact hstage
  | less hmode hb => exact absurd hb (hcontent _ hmode)
  | textLess cs hmode hb => exact absurd hb (hcontent _ hmode)
  | text cs hstage => exact ⟨rfl, by simp [Lexeme.isTag, hstage]⟩
  | openTag closed _ hstage _ => exact ⟨rfl, by simp [Tag.lexeme, Lexeme.isTag, hstage]⟩
  | closeTag name hstage _ => exact ⟨rfl, by simp [Lexeme.isTag, hstage]⟩

def StartsTag (bytes : Bytes) : Prop :=
  ∃ c rest, bytes = '<'.toUInt8 :: c :: rest ∧ c ≠ '!'.toUInt8 ∧ c ≠ '?'.toUInt8

/-- The bytes fall into a part that is read from the mode to its end and gives `ls`, and a part that
begins with the tag. -/
def Splits (mode : Mode) (bytes : Bytes) (ls : List Lexeme) (tag : Lexeme) (rs : List Lexeme) : Prop :=
  ∃ before after, bytes = before ++ after ∧ scan mode before = (ls, none) ∧ StartsTag after ∧
    (scan .content after).1 = tag :: rs

section
variable {mode mode' : Mode} {b : UInt8} {bytes : Bytes} {ls rs : List Lexeme} {tag : Lexeme}

theorem Splits.next (h : Splits mode' bytes ls tag rs) (hstep : step 0 mode b = .next mode') :
    Splits mode (b :: bytes) ls tag rs := by
  obtain ⟨before, after, rfl, hbefore, hafter⟩ := h
  exact ⟨b :: before, after, rfl, (scan_next hstep before).trans hbefore, hafter⟩

theorem Splits.out {lexeme : Lexeme} (h : Splits mode' bytes ls tag rs)
    (hstep : step 0 mode b = .out lexeme mode') : Splits mode (b :: bytes) (lexeme :: ls) tag rs := by
  obtain ⟨before, after, rfl, hbefore, hafter⟩ := h
  refine ⟨b :: before, after, rfl, ?_, hafter⟩
  rw [scan, hstep]
  simp only [hbefore]

/-- The place of a tag that is put out: it is the one being read, the one that the next byte decides
on, or one that begins later. -/
def Located (mode : Mode) (bytes : Bytes) (ls : List Lexeme) (tag : Lexeme) (rs : List Lexeme) : Prop :=
  ls = [] ∧ mode.stage = .inside ∨
    ls = [] ∧ mode.stage = .begun ∧ StartsTag ('<'.toUInt8 :: bytes) ∨ Splits mode bytes ls tag rs

theorem splits_of_keeps {stage : Stage} (hkeeps : (step 0 mode b).Keeps stage) (hbegun : stage ≠ .begun)
    (hfirst : stage = .inside → ls ≠ []) (htag : tag.isTag = true)
    (h : (scan mode (b :: bytes)).1 = ls ++ tag :: rs)
    (ih : ∀ mode ls, (scan mode bytes).1 = ls ++ tag :: rs → Located mode bytes ls tag rs) :
    Splits mode (b :: bytes) ls tag rs := by
  rw [scan] at h
  cases hstep : step 0 mode b with
  | fail givenBack c =>
    rw [hstep] at h
    simp at h
  | next mode' =>
    rw [hstep] at h hkeeps
    rcases ih mode' ls h with ⟨hnil, hinside⟩ | ⟨-, hless, -⟩ | hsplits
    · exact absurd hnil (hfirst (hkeeps.symm.trans hinside))
    · exact absurd (hkeeps.symm.trans hless) hbegun
    · exact hsplits.next hstep
  | out lexeme mode' =>
    rw [hstep] at h hkeeps
    obtain ⟨rfl, hkind⟩ := hkeeps
    have hne : ls ≠ [] := by
      by_cases hinside : stage = .inside
      · exact hfirst hinside
      · rintro rfl
        have hsame : lexeme = tag := (List.cons.inj h).1
        exact hinside (hkind.mp (hsame ▸ htag))
    obtain ⟨l, others, rfl⟩ := List.exists_cons_of_ne_nil hne
    obtain ⟨rfl, hrest⟩ := List.cons.inj h
    rcases ih .content others hrest with ⟨-, hinside⟩ | ⟨-, hless, -⟩ | hsplits
    · cases hinside
    · cases hless
    · exact hsplits.out hstep

theorem scan_text_nil {run : Run} {cs : List Char} (h : characters run.bytes = .ok cs) :
    ∃ texts : List Lexeme, scan (.text .content run) [] = (texts, none) ∧
      ∀ lexeme ∈ texts, lexeme.isTag = false := by
  cases cs with
  | nil => exact ⟨[], by simp [scan, Mode.finish, h], by simp⟩
  | cons c cs => exact ⟨[.text (c :: cs)], by simp [scan, Mode.finish, h], by simp [Lexeme.isTag]⟩

theorem splits_of_less {run : Run} (htag : tag.isTag = true)
    (h : (scan (.text .content run) ('<'.toUInt8 :: bytes)).1 = ls ++ tag :: rs)
    (ih : ∀ mode ls, (scan mode bytes).1 = ls ++ tag :: rs → Located mode bytes ls tag rs) :
    Splits (.text .content run) ('<'.toUInt8 :: bytes) ls tag rs := by
  cases hcharacters : characters run.bytes with
  | error c =>
    have hne : ('<'.toUInt8 == '>'.toUInt8) = false := by decide
    simp [scan, step, textStep, contentStep, Run.endsCData, hcharacters, hne] at h
  | ok cs =>
    obtain ⟨texts, htexts, hkind⟩ := scan_text_nil hcharacters
    have hless : ∀ rest, scan (.text .content run) ('<'.toUInt8 :: rest) =
        (texts ++ (scan (.less 0) rest).1, (scan (.less 0) rest).2) := by
      intro rest
      rw [scan_text_less hcharacters, htexts, scan_content_less]
    rw [hless] at h
    obtain ⟨others, rfl, hrest⟩ : ∃ others, ls = texts ++ others ∧
        (scan (.less 0) bytes).1 = others ++ tag :: rs := by
      rcases List.append_eq_append_iff.mp h with ⟨others, hls, hrest⟩ | ⟨more, htexts, hrest⟩
      · exact ⟨others, hls, hrest⟩
      · -- the tag would be among the text
        cases more with
        | nil => exact ⟨[], by simpa using htexts.symm, by simpa using hrest.symm⟩
        | cons l more =>
          obtain ⟨rfl, -⟩ := List.cons.inj hrest
          have htext := hkind tag (htexts ▸ List.mem_append_right _ List.mem_cons_self)
          rw [htag] at htext
          cases htext
    -- the `<` either begins the tag or belongs to what is read before it
    rcases ih (.less 0) others hrest with ⟨-, hinside⟩ | ⟨rfl, -, hstarts⟩ | hsplits
    · cases hinside
    · exact ⟨[], '<'.toUInt8 :: bytes, rfl, by rw [htexts, List.append_nil], hstarts, hrest⟩
    · obtain ⟨before, after, rfl, hbefore, hafter⟩ := hsplits
      refine ⟨'<'.toUInt8 :: before, after, rfl, ?_, hafter⟩
      rw [hless, hbefore]

theorem located (htag : tag.isTag = true) (h : (scan mode bytes).1 = ls ++ tag :: rs) :
    Located mode bytes ls tag rs := by
  induction bytes generalizing mode ls with
  | nil =>
    -- the end of the source puts out text only
    exfalso
    have hmem : tag ∈ (scan mode []).1 := h ▸ List.mem_append_right _ List.mem_cons_self
    rw [scan] at hmem
    split at hmem
    · cases hmem
    · cases hmem
    · rw [List.mem_singleton.mp hmem] at htag
      cases htag
  | cons b bytes ih =>
    have ih : ∀ mode ls, (scan mode bytes).1 = ls ++ tag :: rs → Located mode bytes ls tag rs :=
      fun _ _ => ih
    cases hstage : mode.stage with
    | inside =>
      by_cases hls : ls = []
      · exact .inl ⟨hls, hstage⟩
      · have hcontent : ∀ run, mode = .text .content run → b ≠ '<'.toUInt8 := by
          rintro run rfl
          cases hstage
        have hkeeps := (step_moves 0 b mode (by simp [hstage])).keeps hcontent
        rw [hstage] at hkeeps
        exact .inr (.inr (splits_of_keeps hkeeps (by simp) (fun _ => hls) htag h ih))
    | begun =>
      obtain ⟨start, rfl⟩ := less_of_begun hstage
      have hmoves := lessStep_moves 0 b start
      by_cases hmark : b = '!'.toUInt8 ∨ b = '?'.toUInt8
      · rw [if_pos hmark] at hmoves
        have hkeeps : (step 0 (.less start) b).Keeps .outside := hmoves.keeps (by simp)
        exact .inr (.inr (splits_of_keeps hkeeps (by simp) (by simp) htag h ih))
      · rw [if_neg hmark] at hmoves
        have hkeeps : (step 0 (.less start) b).Keeps .inside := hmoves.keeps (by simp)
        by_cases hls : ls = []
        · rw [not_or] at hmark
          exact .inr (.inl ⟨hls, rfl, b, bytes, rfl, hmark.1, hmark.2⟩)
        · exact .inr (.inr (splits_of_keeps hkeeps (by simp) (fun _ => hls) htag h ih))
    | outside =>
      by_cases hless : b = '<'.toUInt8 ∧ ∃ run, mode = .text .content run
      · obtain ⟨rfl, run, rfl⟩ := hless
        exact .inr (.inr (splits_of_less htag h ih))
      · have hcontent : ∀ run, mode = .text .content run → b ≠ '<'.toUInt8 :=
          fun run hmode hb => hless ⟨hb, run, hmode⟩
        have hkeeps := (step_moves 0 b mode (by simp [hstage])).keeps hcontent
        rw [hstage] at hkeeps
        exact .inr (.inr (splits_of_keeps hkeeps (by simp) (by simp) htag h ih))

end

/-- Every tag of a source begins where the source falls into two parts that are read by themselves. -/
theorem splits_of_tag {src : Bytes} {ls rs : List Lexeme} {tag : Lexeme}
    (h : (scan .content src).1 = ls ++ tag :: rs) (htag : tag.isTag = true) :
    Splits .content src ls tag rs := by
  rcases located htag h with ⟨-, hinside⟩ | ⟨-, hless, -⟩ | hsplits
  · cases hinside
  · cases hless
  · exact hsplits

end CodecGen.Markup
