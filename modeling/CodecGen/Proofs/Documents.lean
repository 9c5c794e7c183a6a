import CodecGen.Markup.Element
import CodecGen.Proofs.Encoding
set_option autoImplicit false
/-!
Documents and their element trees. The events of a source nest: each end closes the element opened
last, so that a stream without a fault is that of a content, a sequence of texts and elements. The
element tree can be read off the content, and `parse` finds it exactly if there is one element at
the top.
-/
namespace CodecGen.Markup

/-- Character data and elements in their order, an element between the offsets where its start tag
begins and where its end tag ends. -/
inductive Content where
  | nil
  | text (cs : List Char) (rest : Content)
  | element (start stop : Nat) (name : QName) (attrs : List TagAttribute) (inner rest : Content)

def elementFor (start stop : Nat) (name : QName) (attrs : List TagAttribute) (text : List Char)
    (children : List Element) : Element where
  tag := name.tag
  attrs := attrs.map fun a => ⟨a.name.tag, a.value⟩
  text := String.ofList (Text.Blank.trimChars text)
  children := children
  span := ⟨start, stop - start⟩

namespace Content

def events : Content → List Event
  | nil => []
  | text cs rest => .text cs :: rest.events
  | element start stop name attrs inner rest =>
    .enter start name attrs :: (inner.events ++ .leave stop :: rest.events)

def ownText : Content → List Char
  | nil => []
  | text cs rest => cs ++ rest.ownText
  | element _ _ _ _ _ rest => rest.ownText

/-- The elements without documentation, and the elements in them likewise. -/
def elements : Content → List Element
  | nil => []
  | text _ rest => rest.elements
  | element start stop name attrs inner rest =>
    if name.tag = "doc" then rest.elements
    else elementFor start stop name attrs inner.ownText inner.elements :: rest.elements

end Content

/-- How many elements are open after the events if `n` were before them; nothing if an element is
left that was not open. -/
def openAfter : (n : Nat) → List Event → Option Nat
  | n, [] => some n
  | n, .text _ :: rest => openAfter n rest
  | n, .enter .. :: rest => openAfter (n + 1) rest
  | 0, .leave _ :: _ => none
  | n + 1, .leave _ :: rest => openAfter n rest

theorem openAfter_append (n : Nat) (before after : List Event) :
    openAfter n (before ++ after) = (openAfter n before).bind (openAfter · after) := by
  fun_induction openAfter n before <;> simp_all [openAfter]

theorem openAfter_snoc {out : List Event} {n : Nat} (h : openAfter 0 out = some n)
    (after : List Event) : openAfter 0 (out ++ after) = openAfter n after := by
  rw [openAfter_append, h, Option.bind_some]

theorem openAfter_matchTags (opened : List QName) (out : List Event) (lexemes : List Placed)
    (h : openAfter 0 out.reverse = some opened.length) :
    (openAfter 0 (matchTags opened out lexemes).1).isSome ∧
      ∀ left, (matchTags opened out lexemes).2 = .ok left →
        openAfter 0 (matchTags opened out lexemes).1 = some left.length := by
  induction lexemes generalizing opened out with
  | nil =>
    refine ⟨by rw [matchTags, h]; rfl, fun left hleft => ?_⟩
    cases hleft
    exact h
  | cons p rest ih =>
    rw [matchTags]
    split
    · apply ih
      rw [List.reverse_cons, openAfter_snoc h]
      rfl
    · apply ih
      rw [List.reverse_cons, openAfter_snoc h]
      rfl
    · apply ih
      rw [List.reverse_cons, List.reverse_cons, List.append_assoc, openAfter_snoc h]
      rfl
    · split
      · exact ⟨by rw [h]; rfl, fun _ hleft => by cases hleft⟩
      · rename_i hclose
        apply ih
        rw [List.reverse_cons, openAfter_snoc h]
        cases opened with
        | nil => cases hclose
        | cons top rest => rfl

theorem events_fst (src : Bytes) : (events src).1 = (matchTags [] [] (read src).lexemes).1 := by
  simp only [events]
  split
  · rename_i h
    rw [h]
  · rename_i h
    rw [h]
    split
    · rfl
    · split <;> rfl

theorem matchTags_of_events {src : Bytes} (h : (events src).2 = none) :
    (matchTags [] [] (read src).lexemes).2 = .ok [] := by
  simp only [events] at h
  split at h
  · cases h
  · rename_i out opened hm
    rw [hm]
    split at h
    · cases h
    · split at h
      · rename_i hopened
        rw [List.isEmpty_iff.1 hopened]
      · cases h

theorem openAfter_events (src : Bytes) :
    (openAfter 0 (events src).1).isSome ∧
      ((events src).2 = none → openAfter 0 (events src).1 = some 0) := by
  obtain ⟨hsome, hok⟩ := openAfter_matchTags [] [] (read src).lexemes rfl
  rw [events_fst]
  exact ⟨hsome, fun h => hok [] (matchTags_of_events h)⟩

/-- Events that leave nothing open are those of a content, followed by the rest of the elements
that were open before them. -/
theorem exists_content {n : Nat} {events : List Event} (h : openAfter n events = some 0) :
    ∃ content : Content, ∃ outer : List (Nat × Content), outer.length = n ∧
      events = content.events ++ outer.flatMap fun o => .leave o.1 :: o.2.events := by
  fun_induction openAfter n events with
  | case1 n =>
    cases h
    exact ⟨.nil, [], rfl, rfl⟩
  | case2 n cs rest ih =>
    obtain ⟨content, outer, hn, rfl⟩ := ih h
    exact ⟨.text cs content, outer, hn, rfl⟩
  | case3 n start name attrs rest ih =>
    -- the innermost of the open elements is the one entered here
    obtain ⟨inner, _ | ⟨⟨stop, content⟩, outer⟩, hn, rfl⟩ := ih h
    · cases hn
    · refine ⟨.element start stop name attrs inner content, outer, Nat.succ.inj hn, ?_⟩
      simp [Content.events]
  | case4 => cases h
  | case5 n stop rest ih =>
    obtain ⟨content, outer, hn, rfl⟩ := ih h
    exact ⟨.nil, (stop, content) :: outer, congrArg _ hn, rfl⟩

theorem exists_content_of_events {src : Bytes} (h : (events src).2 = none) :
    ∃ content : Content, (events src).1 = content.events := by
  obtain ⟨content, outer, hlen, heq⟩ := exists_content ((openAfter_events src).2 h)
  rw [List.length_eq_zero_iff] at hlen
  subst hlen
  exact ⟨content, by rw [heq, List.flatMap_nil, List.append_nil]⟩

namespace Assembly

def depth (a : Assembly) : Nat := a.frames.length + a.skipped

theorem openAfter_step {a a' : Assembly} {e : Event} {rest : List Event}
    (hstep : a.step e = .ok a') (h : (openAfter a.depth (e :: rest)).isSome) :
    (openAfter a'.depth rest).isSome := by
  cases e with
  | text cs =>
    cases hstep
    have : (a.addText cs).depth = a.depth := by
      unfold addText depth
      split
      · rfl
      · split <;> simp_all
    rwa [this]
  | enter start name attrs =>
    have : a'.depth = a.depth + 1 := by
      simp only [step, enter] at hstep
      split at hstep
      · cases hstep; rfl
      split at hstep
      · cases hstep; simp_all [depth]
      split at hstep
      · cases hstep
      split at hstep
      · cases hstep
      · cases hstep; simp [depth]; omega
    rwa [this]
  | leave stop =>
    cases hstep
    cases hd : a.depth with
    | zero => rw [hd] at h; cases h
    | succ n =>
      have : (a.leave stop).depth = n := by
        unfold leave
        split
        · simp only [depth] at hd ⊢; omega
        · split <;> simp_all [depth]
      rw [hd] at h
      rwa [this]

theorem openAfter_run {a a' : Assembly} {before after : List Event}
    (hrun : a.run before = .ok a') (h : (openAfter a.depth (before ++ after)).isSome) :
    (openAfter a'.depth after).isSome := by
  induction before generalizing a with
  | nil => cases hrun; exact h
  | cons e before ih =>
    rw [run] at hrun
    split at hrun
    · cases hrun
    · exact ih hrun (openAfter_step ‹_› h)

theorem frames_ne_nil_of_leave {src : Bytes} {before after : List Event} {stop : Nat}
    {a : Assembly} (hevents : (events src).1 = before ++ .leave stop :: after)
    (hrun : run {} before = .ok a) (hskipped : a.skipped = 0) : a.frames ≠ [] := by
  intro hframes
  have hopen := (openAfter_events src).1
  rw [hevents] at hopen
  have h := openAfter_run hrun hopen
  have hdepth : a.depth = 0 := by rw [depth, hframes, hskipped]; rfl
  rw [hdepth] at h
  cases h

theorem run_skipping (content : Content) {a : Assembly} (h : 0 < a.skipped)
    (after : List Event) : a.run (content.events ++ after) = a.run after := by
  induction content generalizing a after with
  | nil => rfl
  | text cs rest ih =>
    rw [Content.events, List.cons_append, run]
    simp only [step, addText, if_pos h]
    exact ih h after
  | element start stop name attrs inner rest hinner hrest =>
    rw [Content.events, List.cons_append, run]
    simp only [step, enter, if_pos h]
    rw [List.append_assoc, hinner (Nat.succ_pos _), List.cons_append, run]
    simp only [step, leave, if_pos (Nat.succ_pos _)]
    exact hrest h after

end Assembly

def Frame.fill (f : Frame) (content : Content) : Frame :=
  { f with
    text := content.ownText.reverse ++ f.text
    children := content.elements.reverse ++ f.children }

theorem Frame.close_fill (start stop : Nat) (name : QName) (attrs : List TagAttribute)
    (inner : Content) :
    ((⟨name.tag, attrs.map TagAttribute.plain, start, [], []⟩ : Frame).fill inner).close stop =
      elementFor start stop name attrs inner.ownText inner.elements := by
  simp [Frame.fill, Frame.close, elementFor, TagAttribute.plain]

namespace Assembly

theorem run_inside (content : Content) (root? : Option Element) (f : Frame) (frames : List Frame)
    (after : List Event) :
    run ⟨root?, f :: frames, 0⟩ (content.events ++ after) =
      run ⟨root?, f.fill content :: frames, 0⟩ after := by
  induction content generalizing f frames after with
  | nil => rfl
  | text cs rest ih =>
    rw [Content.events, List.cons_append, run]
    simp only [step, addText, Nat.lt_irrefl, if_false]
    rw [ih]
    simp [Frame.fill, Content.ownText, Content.elements]
  | element start stop name attrs inner rest hinner hrest =>
    rw [Content.events, List.cons_append, run]
    by_cases hdoc : name.tag = "doc"
    · simp only [step, enter, Nat.lt_irrefl, if_false, hdoc, beq_self_eq_true, if_true]
      rw [List.append_assoc, run_skipping inner (Nat.zero_lt_one), List.cons_append, run]
      simp only [step, leave, Nat.zero_lt_one, if_true]
      rw [hrest]
      simp [Frame.fill, Content.ownText, Content.elements, hdoc]
    · simp only [step, enter, Nat.lt_irrefl, if_false, beq_iff_eq, hdoc, List.isEmpty_cons,
        Bool.false_and, Bool.false_eq_true]
      rw [List.append_assoc, hinner, List.cons_append, run]
      simp only [step, leave, Nat.lt_irrefl, if_false]
      rw [Frame.close_fill, hrest]
      simp [Frame.fill, Content.ownText, Content.elements, hdoc]

theorem run_top_doc {start stop : Nat} {name : QName} {attrs : List TagAttribute}
    (hdoc : name.tag = "doc") (root? : Option Element) (inner rest : Content) :
    run ⟨root?, [], 0⟩ (Content.element start stop name attrs inner rest).events =
      run ⟨root?, [], 0⟩ rest.events := by
  rw [Content.events, run]
  simp only [step, enter, Nat.lt_irrefl, if_false, hdoc, beq_self_eq_true, if_true]
  rw [run_skipping inner Nat.zero_lt_one, run]
  simp only [step, leave, Nat.zero_lt_one, if_true]

theorem run_top_root {start stop : Nat} {name : QName} {attrs : List TagAttribute}
    (hroot : name.tag = "xcb") (inner rest : Content) :
    run ⟨none, [], 0⟩ (Content.element start stop name attrs inner rest).events =
      run ⟨some (elementFor start stop name attrs inner.ownText inner.elements), [], 0⟩
        rest.events := by
  rw [Content.events, run]
  simp [step, enter, hroot]
  rw [run_inside, run]
  simp only [step, leave, Nat.lt_irrefl, if_false]
  rw [← hroot, Frame.close_fill]

theorem run_top_refused {start stop : Nat} {name : QName} {attrs : List TagAttribute}
    (hdoc : name.tag ≠ "doc") {root? : Option Element} (h : root?.isSome ∨ name.tag ≠ "xcb")
    (inner rest : Content) (a : Assembly) :
    run ⟨root?, [], 0⟩ (Content.element start stop name attrs inner rest).events ≠ .ok a := by
  rw [Content.events, run]
  cases root? <;> simp_all [step, enter]

theorem run_top (content : Content) (root? : Option Element) (a : Assembly) :
    run ⟨root?, [], 0⟩ content.events = .ok a ↔
      a = ⟨a.root?, [], 0⟩ ∧ a.root?.toList = root?.toList ++ content.elements ∧
        ∀ e ∈ content.elements, e.tag = "xcb" := by
  induction content generalizing root? with
  | nil =>
    constructor
    · intro h
      cases h
      exact ⟨rfl, (List.append_nil _).symm, fun e he => by cases he⟩
    · rintro ⟨ha, hroot, -⟩
      rw [Content.elements, List.append_nil] at hroot
      have hroot : a.root? = root? := by
        cases h : a.root? <;> cases root? <;> simp_all
      rw [ha, hroot]
      rfl
  | text cs rest ih => exact ih root?
  | element start stop name attrs inner rest hinner hrest =>
    by_cases hdoc : name.tag = "doc"
    · rw [run_top_doc hdoc, hrest, Content.elements, if_pos hdoc]
    · rw [Content.elements, if_neg hdoc]
      by_cases hroot : name.tag = "xcb"
      · -- the first root is taken, a second one is refused
        cases root? with
        | none => 
          rw [run_top_root hroot, hrest]
          simp [elementFor, hroot]
        | some root =>
          refine iff_of_false (run_top_refused hdoc (.inl rfl) inner rest a) ?_
          intro h
          have := congrArg List.length h.2.1
          cases h : a.root? <;> simp [h] at this
      · refine iff_of_false (run_top_refused hdoc (.inr hroot) inner rest a) ?_
        intro h
        exact hroot (h.2.2 _ List.mem_cons_self)

end Assembly

theorem parse_eq_ok {src : Bytes} {root : Element} :
    parse src = .ok root ↔ src.length ≤ maxSourceSize ∧ Text.Utf8.valid src = true ∧
      (events src).2 = none ∧
        ∃ a, Assembly.run {} (events src).1 = .ok a ∧ a.root? = some root := by
  unfold parse
  split
  · rename_i h
    simp [Nat.not_le.2 h]
  split
  · rename_i h
    simp_all
  · rename_i hsize hvalid
    have hsize := Nat.not_lt.1 hsize
    simp at hvalid
    simp only
    split
    · simp_all
    · split <;> simp_all

theorem parse_content {src : Bytes} {root : Element} (h : parse src = .ok root) :
    src.length ≤ maxSourceSize ∧ Text.Utf8.IsEncoding src ∧
      ∃ content : Content, events src = (content.events, none) ∧ content.elements = [root] ∧
        root.tag = "xcb" := by
  obtain ⟨hsize, hvalid, hfault, a, hrun, hroot⟩ := parse_eq_ok.1 h
  obtain ⟨content, hcontent⟩ := exists_content_of_events hfault
  rw [hcontent] at hrun
  obtain ⟨-, helements, htag⟩ := (Assembly.run_top content none a).1 hrun
  rw [hroot] at helements
  have helements : content.elements = [root] := helements.symm
  exact ⟨hsize, (Text.Utf8.valid_iff src).1 hvalid, content, Prod.ext hcontent hfault, helements,
    htag root (by rw [helements]; exact List.mem_cons_self)⟩

theorem parse_of_content {src : Bytes} {root : Element} {content : Content}
    (hsize : src.length ≤ maxSourceSize) (hvalid : Text.Utf8.IsEncoding src)
    (hevents : events src = (content.events, none)) (helements : content.elements = [root])
    (htag : root.tag = "xcb") : parse src = .ok root := by
  have hrun : Assembly.run {} content.events = .ok ⟨some root, [], 0⟩ := by
    refine (Assembly.run_top content none _).2 ⟨rfl, helements.symm, fun e he => ?_⟩
    rw [helements, List.mem_singleton] at he
    rw [he, htag]
  refine parse_eq_ok.2 ⟨hsize, (Text.Utf8.valid_iff src).2 hvalid, ?_, ⟨some root, [], 0⟩, ?_, rfl⟩
  · rw [hevents]
  · rw [hevents, hrun]

/-- A source is accepted exactly if it is short enough, is UTF-8, can be read to its end, and has
one element besides documentation at the top, named `xcb`; the result is that element. What can be
read nests, and wherever an element is left outside documentation, one is open. -/
theorem parse_ok_iff_one_root (src : Bytes) :
    (∀ root, parse src = .ok root ↔
      src.length ≤ maxSourceSize ∧ Text.Utf8.IsEncoding src ∧
        ∃ content : Content, events src = (content.events, none) ∧ content.elements = [root] ∧
          root.tag = "xcb") ∧
    ((events src).2 = none → ∃ content : Content, (events src).1 = content.events) ∧
    ∀ before stop after a, (events src).1 = before ++ .leave stop :: after →
      Assembly.run {} before = .ok a → a.skipped = 0 → a.frames ≠ [] := by
  refine ⟨fun root => ⟨parse_content, ?_⟩, exists_content_of_events, ?_⟩
  · rintro ⟨hsize, hvalid, content, hevents, helements, htag⟩
    exact parse_of_content hsize hvalid hevents helements htag
  · intro before stop after a hevents hrun hskipped
    exact Assembly.frames_ne_nil_of_leave hevents hrun hskipped

def memo : String := "<doc>x</doc><xcb b:a=\"1\"> y<doc><p/></doc>z <q/></xcb>"

def memoContent : Content :=
  .element 0 12 ⟨"", "doc"⟩ [] (.text ['x'] .nil)
    (.element 12 54 ⟨"", "xcb"⟩ [⟨⟨"b", "a"⟩, "1"⟩]
      (.text [' ', 'y'] (.element 27 42 ⟨"", "doc"⟩ [] (.element 32 36 ⟨"", "p"⟩ [] .nil .nil)
        (.text ['z', ' '] (.element 44 48 ⟨"", "q"⟩ [] .nil .nil)))) .nil)

theorem parse_ok_iff_one_root_memo :
    parse (Text.Utf8.encode memo) =
        .ok ⟨"xcb", [⟨"a", "1"⟩], "yz", [⟨"q", [], "", [], ⟨44, 4⟩⟩], ⟨12, 42⟩⟩ ∧
      ∃ a, Assembly.run {} memoContent.events.dropLast = .ok a ∧ a.skipped = 0 ∧ a.frames ≠ [] :=
  ⟨((parse_ok_iff_one_root (Text.Utf8.encode memo)).1 _).2
    ⟨by decide +kernel, ⟨memo.toList, by decide +kernel⟩, memoContent, by decide +kernel, rfl, rfl⟩,
    _, rfl, rfl,
    (parse_ok_iff_one_root (Text.Utf8.encode memo)).2.2 memoContent.events.dropLast 54 [] _
      (by decide +kernel) rfl rfl⟩

end CodecGen.Markup
