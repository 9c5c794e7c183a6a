import CodecGen.Proofs.Spans
set_option autoImplicit false
/-!
Documents without their places. What the reader makes of a byte does not depend on where the byte
stands, so the tags and texts of a source, their nesting and its tree can be read with all places
left out. Read so, a source falls into parts wherever markup begins: the lexemes of the whole are those
of the parts, one after another.
-/
namespace CodecGen.Markup

def Lexeme.unplaced : Lexeme → Lexeme
  | .openTag _ name attrs closed => .openTag 0 name attrs closed
  | lexeme => lexeme

def Step.unplaced : Step → Step
  | .next mode => .next mode.unplaced
  | .out lexeme mode => .out lexeme.unplaced mode.unplaced
  | .fail givenBack cause => .fail givenBack cause

theorem Moves.unplaced {offset : Nat} {b : UInt8} {mode : Mode} {r alone : Step}
    (h : Moves offset b mode r alone) : r.unplaced = alone := by
  cases h <;> rfl

theorem step_unplaced (offset : Nat) (b : UInt8) (mode : Mode) :
    (step offset mode b).unplaced = step 0 mode.unplaced b := by
  by_cases hbegun : mode.stage = .begun
  · obtain ⟨start, rfl⟩ := less_of_begun hbegun
    exact (lessStep_moves offset b start).unplaced
  · exact (step_moves offset b mode hbegun).unplaced

theorem Mode.finish_unplaced (mode : Mode) : mode.unplaced.finish = mode.finish := by
  cases mode with
  | text place run => cases place <;> rfl
  | _ => rfl

/-- The lexemes that are read on from a mode, without their places, and why reading stops if that
is before the end. -/
def scan : Mode → Bytes → List Lexeme × Option Cause
  | mode, [] =>
    match mode.finish with
    | .error c => ([], some c)
    | .ok [] => ([], none)
    | .ok cs => ([.text cs], none)
  | mode, b :: rest =>
    match step 0 mode b with
    | .next mode => scan mode rest
    | .out lexeme mode => (lexeme :: (scan mode rest).1, (scan mode rest).2)
    | .fail _ c => ([], some c)

theorem scan_next {mode mode' : Mode} {b : UInt8} (h : step 0 mode b = .next mode') (rest : Bytes) :
    scan mode (b :: rest) = scan mode' rest := by
  rw [scan, h]

theorem scan_congr {mode mode' : Mode} {b : UInt8} (h : step 0 mode b = step 0 mode' b)
    (rest : Bytes) : scan mode (b :: rest) = scan mode' (b :: rest) := by
  rw [scan, h, scan]

theorem readFrom_unplaced (mode : Mode) (offset line : Nat) (out : List Placed) (bytes : Bytes) :
    (readFrom mode offset line out bytes).lexemes.map (·.lexeme.unplaced) =
        (out.map (·.lexeme.unplaced)).reverse ++ (scan mode.unplaced bytes).1 ∧
      (readFrom mode offset line out bytes).cause? = (scan mode.unplaced bytes).2 := by
  induction bytes generalizing mode offset line out with
  | nil =>
    rw [readFrom, scan, mode.finish_unplaced]
    cases mode.finish with
    | error c => simp
    | ok cs => cases cs <;> simp [Lexeme.unplaced]
  | cons b rest ih =>
    have hstep := step_unplaced offset b mode
    rw [readFrom, scan, ← hstep]
    cases step offset mode b with
    | next mode => exact ih mode _ _ _
    | out lexeme mode =>
      obtain ⟨hlexemes, hcause⟩ := ih mode (offset + 1) (nextLine line b)
        (⟨lexeme, offset + 1, nextLine line b⟩ :: out)
      simp only [Step.unplaced, hlexemes, hcause]
      simp
    | fail givenBack c => cases givenBack <;> simp [Step.unplaced]

theorem read_unplaced (src : Bytes) :
    (read src).lexemes.map (·.lexeme.unplaced) = (scan .content src).1 ∧
      (read src).cause? = (scan .content src).2 :=
  readFrom_unplaced .content 0 1 [] src

theorem scan_content_less (rest : Bytes) :
    scan .content ('<'.toUInt8 :: rest) = scan (.less 0) rest := rfl

theorem scan_text_less {run : Run} {cs : List Char} (h : characters run.bytes = .ok cs)
    (rest : Bytes) :
    scan (.text .content run) ('<'.toUInt8 :: rest) =
      ((scan (.text .content run) []).1 ++ (scan .content ('<'.toUInt8 :: rest)).1,
        (scan .content ('<'.toUInt8 :: rest)).2) := by
  have hends : run.endsCData '<'.toUInt8 = false := by
    have hne : ('<'.toUInt8 == '>'.toUInt8) = false := by decide
    simp [Run.endsCData, hne]
  rw [scan_content_less]
  cases cs with
  | nil => simp [scan, step, textStep, contentStep, Mode.finish, hends, h]
  | cons c cs => simp [scan, step, textStep, contentStep, Mode.finish, hends, h]

theorem content_of_finish {mode : Mode} {cs : List Char} (h : mode.finish = .ok cs) :
    ∃ run, mode = .text .content run ∧ characters run.bytes = .ok cs := by
  cases mode with
  | text place run =>
    cases place with
    | content => exact ⟨run, rfl, h⟩
    | cdata => cases h
    | value quote tag attr =>
      simp only [Mode.finish] at h
      split at h <;> cases h
  | _ => cases h

/-- What is read without a fault ends outside all markup, so that markup after it is read as it
would be by itself. -/
theorem scan_append {mode : Mode} {before after : Bytes} (h : (scan mode before).2 = none)
    (hafter : after.head? = some '<'.toUInt8) :
    scan mode (before ++ after) =
      ((scan mode before).1 ++ (scan .content after).1, (scan .content after).2) := by
  obtain ⟨rest, rfl⟩ := List.head?_eq_some_iff.1 hafter
  induction before generalizing mode with
  | nil =>
    cases hfinish : mode.finish with
    | error c => simp [scan, hfinish] at h
    | ok cs =>
      obtain ⟨run, rfl, hcs⟩ := content_of_finish hfinish
      exact scan_text_less hcs rest
  | cons b before ih =>
    rw [List.cons_append, scan]
    rw [scan] at h
    cases hstep : step 0 mode b with
    | next mode =>
      simp only [hstep] at h
      simp only [scan, hstep, ih h]
    | out lexeme mode =>
      simp only [hstep] at h
      simp only [scan, hstep, ih h, List.cons_append]
    | fail givenBack c => simp [hstep] at h

def Event.unplaced : Event → Event
  | .enter _ name attrs => .enter 0 name attrs
  | .leave _ => .leave 0
  | .text cs => .text cs

def Lexeme.events : Lexeme → List Event
  | .text cs => [.text cs]
  | .openTag _ name attrs false => [.enter 0 name attrs]
  | .openTag _ name attrs true => [.enter 0 name attrs, .leave 0]
  | .closeTag _ => [.leave 0]

theorem Placed.events_unplaced (p : Placed) :
    p.events.map Event.unplaced = p.lexeme.unplaced.events := by
  obtain ⟨lexeme, stop, line⟩ := p
  cases lexeme with
  | text cs => rfl
  | closeTag name => rfl
  | openTag start name attrs closed => cases closed <;> rfl

/-- The elements open after some lexemes, innermost first; nothing if an end tag does not match. -/
def openTags : (opened : List QName) → List Lexeme → Option (List QName)
  | opened, [] => some opened
  | opened, .text _ :: rest => openTags opened rest
  | opened, .openTag _ name _ false :: rest => openTags (name :: opened) rest
  | opened, .openTag _ _ _ true :: rest => openTags opened rest
  | opened, .closeTag name :: rest =>
    match closeFault? opened name with
    | some _ => none
    | none => openTags opened.tail rest

theorem openTags_append (opened : List QName) (before after : List Lexeme) :
    openTags opened (before ++ after) = (openTags opened before).bind (openTags · after) := by
  fun_induction openTags opened before <;> simp_all [openTags]

theorem openTags_inside {opened left : List QName} {lexemes : List Lexeme}
    (h : openTags opened lexemes = some left) (outer : List QName) :
    openTags (opened ++ outer) lexemes = some (left ++ outer) := by
  fun_induction openTags opened lexemes with
  | case1 opened =>
    cases h
    rfl
  | case2 opened cs rest ih => exact ih h
  | case3 opened start name attrs rest ih => exact ih h
  | case4 opened start name attrs rest ih => exact ih h
  | case5 opened name rest cause hclose => cases h
  | case6 opened name rest hclose ih =>
    cases opened with
    | nil => cases hclose
    | cons top opened =>
      have hsame : closeFault? (top :: opened ++ outer) name = closeFault? (top :: opened) name := rfl
      simp only [openTags, hsame, hclose]
      exact ih h

theorem matchTags_ok_iff {opened left : List QName} {out : List Event} {lexemes : List Placed} :
    (matchTags opened out lexemes).2 = .ok left ↔
      openTags opened (lexemes.map (·.lexeme.unplaced)) = some left := by
  induction lexemes generalizing opened out with
  | nil => simp [matchTags, openTags]
  | cons p rest ih =>
    obtain ⟨lexeme, stop, line⟩ := p
    cases lexeme with
    | text cs => exact ih
    | openTag start name attrs closed =>
      cases closed
      · exact ih
      · exact ih
    | closeTag name =>
      rw [List.map_cons]
      change _ ↔ openTags opened (.closeTag name :: _) = _
      cases hclose : closeFault? opened name with
      | some c => simp [matchTags, openTags, hclose]
      | none =>
        simp only [matchTags, openTags, hclose]
        exact ih

/-- A source can be read to its end exactly if its lexemes can and its tags match. -/
theorem events_snd_eq_none_iff (src : Bytes) :
    (events src).2 = none ↔
      (scan .content src).2 = none ∧ openTags [] (scan .content src).1 = some [] := by
  obtain ⟨hlexemes, hcause⟩ := read_unplaced src
  rw [← hlexemes, ← hcause, ← @matchTags_ok_iff [] [] []]
  simp only [events]
  rcases matchTags [] [] (read src).lexemes with ⟨out, fault | opened⟩
  · simp
  · cases (read src).cause? with
    | some c => simp
    | none => cases opened <;> simp

theorem events_fst_unplaced {src : Bytes} (h : (events src).2 = none) :
    (events src).1.map Event.unplaced = (scan .content src).1.flatMap Lexeme.events := by
  rw [events_fst, matchTags_fst (matchTags_of_events h), ← (read_unplaced src).1]
  simp [List.map_flatMap, List.flatMap_map, Placed.events_unplaced]

mutual
def Element.unplaced : Element → Element
  | ⟨tag, attrs, text, children, _⟩ => ⟨tag, attrs, text, unplacedAll children, ⟨0, 0⟩⟩

def unplacedAll : List Element → List Element
  | [] => []
  | e :: rest => e.unplaced :: unplacedAll rest
end

theorem unplacedAll_eq_map (es : List Element) : unplacedAll es = es.map Element.unplaced := by
  induction es with
  | nil => rfl
  | cons e rest ih => rw [unplacedAll, ih, List.map_cons]

theorem Element.tag_unplaced (e : Element) : e.unplaced.tag = e.tag := by
  cases e
  rfl

def Content.unplaced : Content → Content
  | nil => nil
  | text cs rest => text cs rest.unplaced
  | element _ _ name attrs inner rest => element 0 0 name attrs inner.unplaced rest.unplaced

namespace Content

theorem events_unplaced (content : Content) :
    content.unplaced.events = content.events.map Event.unplaced := by
  induction content with
  | nil => rfl
  | text cs rest ih => simp [unplaced, events, Event.unplaced, ih]
  | element start stop name attrs inner rest hinner hrest =>
    simp [unplaced, events, Event.unplaced, hinner, hrest]

theorem ownText_unplaced (content : Content) : content.unplaced.ownText = content.ownText := by
  induction content with
  | nil => rfl
  | text cs rest ih => rw [unplaced, ownText, ownText, ih]
  | element start stop name attrs inner rest hinner hrest => exact hrest

theorem elements_unplaced (content : Content) :
    content.unplaced.elements = content.elements.map Element.unplaced := by
  induction content with
  | nil => rfl
  | text cs rest ih => exact ih
  | element start stop name attrs inner rest hinner hrest =>
    rw [unplaced, elements, elements]
    split
    · exact hrest
    · rw [List.map_cons, hrest, hinner, inner.ownText_unplaced]
      simp [elementFor, Element.unplaced, unplacedAll_eq_map]

end Content
end CodecGen.Markup
