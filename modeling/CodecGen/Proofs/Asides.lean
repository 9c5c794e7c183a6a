import CodecGen.Proofs.TagPlaces
set_option autoImplicit false
/-!
Asides: comments, processing instructions and documentation. They can be put before any tag of a source
without a change to its tree. A comment or an instruction is read to its end and leaves no lexeme;
documentation leaves lexemes that match among themselves, and the tree is assembled without them.
-/
namespace CodecGen.Markup
open Text

theorem neighbours_of_not_infix {x y first second : UInt8} {rest : Bytes}
    (h : ¬ [x, y] <:+: first :: second :: rest) : (first == x && second == y) = false := by
  rw [Bool.eq_false_iff, Ne, Bool.and_eq_true, beq_iff_eq, beq_iff_eq]
  intro hpair
  apply h
  rw [hpair.1, hpair.2]
  exact ⟨[], rest, rfl⟩

theorem not_infix_of_cons {pattern rest : Bytes} {b : UInt8} (h : ¬ pattern <:+: b :: rest) :
    ¬ pattern <:+: rest :=
  fun hinfix => h (List.infix_cons hinfix)

theorem not_infix_cons_of_ne {x y b : UInt8} {rest : Bytes} (hne : b ≠ x)
    (h : ¬ [x, y] <:+: rest) : ¬ [x, y] <:+: b :: rest := by
  rw [List.infix_cons_iff, List.cons_prefix_cons, not_or]
  exact ⟨fun hprefix => hne hprefix.1.symm, h⟩

theorem step_comment {before last : UInt8} {rest : Bytes}
    (h : ¬ Utf8.encode "--" <:+: before :: last :: rest) (b : UInt8) :
    step 0 (.comment before last) b = .next (.comment last b) := by
  have hdashes : (before == '-'.toUInt8 && last == '-'.toUInt8) = false :=
    neighbours_of_not_infix h
  simp only [step, commentStep, hdashes, Bool.false_eq_true, if_false]

theorem scan_comment {before last : UInt8} {body : Bytes}
    (h : ¬ Utf8.encode "--" <:+: before :: last :: (body ++ Utf8.encode "-")) :
    scan (.comment before last) (body ++ Utf8.encode "-->") = ([], none) := by
  induction body generalizing before last with
  | nil =>
    have hfirst := scan_next (step_comment h '-'.toUInt8) ['-'.toUInt8, '>'.toUInt8]
    have hsecond := scan_next (step_comment (not_infix_of_cons h) '-'.toUInt8) ['>'.toUInt8]
    exact hfirst.trans hsecond
  | cons b body ih =>
    rw [List.cons_append, scan_next (step_comment h b)]
    exact ih (not_infix_of_cons h)

theorem scan_whole_comment {body : Bytes}
    (h : ¬ Utf8.encode "--" <:+: body ++ Utf8.encode "-") :
    scan .content (Utf8.encode "<!--" ++ body ++ Utf8.encode "-->") = ([], none) := by
  have hzero : (0 : UInt8) ≠ '-'.toUInt8 := by decide
  rw [List.append_assoc]
  change scan (.comment 0 0) (body ++ Utf8.encode "-->") = _
  exact scan_comment (not_infix_cons_of_ne hzero (not_infix_cons_of_ne hzero h))

theorem step_instruction {last b : UInt8} {rest : Bytes}
    (h : ¬ Utf8.encode "?>" <:+: last :: b :: rest) (target : List Char) (seen : Bytes) :
    step 0 (.instruction target seen last) b = .next (.instruction target (b :: seen) b) := by
  have hends : (last == '?'.toUInt8 && b == '>'.toUInt8) = false := neighbours_of_not_infix h
  simp only [step, instructionStep, hends, Bool.false_eq_true, if_false]

section
variable {target : List Char} (hxml : target ≠ "xml".toList)
include hxml

theorem scan_instruction {seen body : Bytes} {last : UInt8}
    (h : ¬ Utf8.encode "?>" <:+: last :: (body ++ Utf8.encode "?")) :
    scan (.instruction target seen last) (body ++ Utf8.encode "?>") = ([], none) := by
  induction body generalizing seen last with
  | nil =>
    have hother : (target == "xml".toList) = false := by simpa using hxml
    have hclose : ∀ seen, step 0 (.instruction target seen '?'.toUInt8) '>'.toUInt8 =
        .next .content := by
      intro seen
      simp only [step, instructionStep, hother, Bool.false_eq_true, if_false]
      rfl
    have hmark := scan_next (step_instruction h target seen) ['>'.toUInt8]
    exact hmark.trans (scan_next (hclose _) [])
  | cons b body ih =>
    rw [List.cons_append, scan_next (step_instruction h target seen)]
    exact ih (not_infix_of_cons h)

theorem scan_targetSpace {body : Bytes} (h : ¬ Utf8.encode "?>" <:+: body ++ Utf8.encode "?") :
    scan (.targetSpace target) (body ++ Utf8.encode "?>") = ([], none) := by
  have hzero : (0 : UInt8) ≠ '?'.toUInt8 := by decide
  have hbody : scan (.instruction target [] 0) (body ++ Utf8.encode "?>") = ([], none) :=
    scan_instruction hxml (not_infix_cons_of_ne hzero h)
  induction body with
  | nil => exact hbody
  | cons b body ih =>
    rw [List.cons_append] at hbody ⊢
    by_cases hspace : isSpace b = true
    · have hskip : step 0 (.targetSpace target) b = .next (.targetSpace target) := if_pos hspace
      have htail := not_infix_of_cons h
      rw [scan_next hskip]
      exact ih htail (scan_instruction hxml (not_infix_cons_of_ne hzero htail))
    · have hfirst : step 0 (.targetSpace target) b = step 0 (.instruction target [] 0) b :=
        if_neg hspace
      rw [scan_congr hfirst, hbody]

end

theorem mem_ranges_of_lt {n bound : Nat} (h : n < bound) (rs : List (Nat × Nat)) :
    Ranges.mem rs n = Ranges.mem (rs.filter (·.1 < bound)) n := by
  rw [Ranges.mem, Ranges.mem, List.any_filter]
  congr 1
  funext r
  by_cases hr : r.1 ≤ n
  · have hlt : r.1 < bound := by omega
    simp [hlt]
  · simp [hr]

theorem isNameByte_of_ascii {c : Char} (h : c.toNat < 128) (hname : isNameChar c = true) :
    isNameByte (UInt8.ofNat c.toNat) = true := by
  have hletters : letterRanges.filter (·.1 < 128) = [(65, 90), (97, 122)] := by decide +kernel
  have hdigits : digitRanges.filter (·.1 < 128) = [(48, 57)] := by decide +kernel
  have hcombining : combiningRanges.filter (·.1 < 128) = [] := by decide +kernel
  have hextenders : extenderRanges.filter (·.1 < 128) = [] := by decide +kernel
  have hbyte : (UInt8.ofNat c.toNat).toNat = c.toNat := Utf8.byte_toNat (by omega)
  have hmarks : '_'.toNat = 95 ∧ ':'.toNat = 58 ∧ '.'.toNat = 46 ∧ '-'.toNat = 45 := by decide
  have hchar : ∀ d : Char, (c == d) = decide (c.toNat = d.toNat) := by
    intro d
    rw [Bool.eq_iff_iff, beq_iff_eq, decide_eq_true_iff]
    exact ⟨congrArg Char.toNat, Char.toNat_inj.mp⟩
  rw [isNameChar, isNameStart, mem_ranges_of_lt h letterRanges, mem_ranges_of_lt h digitRanges,
    mem_ranges_of_lt h combiningRanges, mem_ranges_of_lt h extenderRanges, hletters, hdigits,
    hcombining, hextenders] at hname
  simp only [Ranges.mem, List.any_cons, List.any_nil, hchar, Bool.or_eq_true, Bool.and_eq_true,
    Bool.or_false, decide_eq_true_iff] at hname
  simp only [isNameByte, Bool.or_eq_true, Bool.and_eq_true, decide_eq_true_iff, beq_iff_eq,
    UInt8.le_iff_toNat_le, ← UInt8.toNat_inj, hbyte, UInt8.reduceToNat]
  omega

theorem isNameByte_of_ge {n : Nat} (h : 128 ≤ n) (hlt : n < 256) :
    isNameByte (UInt8.ofNat n) = true := by
  have hge : (0x80 : UInt8) ≤ UInt8.ofNat n := by
    rw [UInt8.le_iff_toNat_le, Utf8.byte_toNat hlt]
    exact h
  simp [isNameByte, hge]

theorem isNameByte_of_mem_encodeChar {c : Char} (h : isNameChar c = true) {b : UInt8}
    (hb : b ∈ Utf8.encodeChar c) : isNameByte b = true := by
  rw [Utf8.encodeChar_eq] at hb
  split at hb
  · rw [List.mem_singleton.1 hb]
    exact isNameByte_of_ascii (by omega) h
  · -- beyond ASCII all bytes of an encoding are above it
    have hsome : ∃ n, b = UInt8.ofNat n ∧ 128 ≤ n ∧ n < 256 := by
      split at hb
      · simp only [List.mem_cons, List.not_mem_nil, or_false] at hb
        rcases hb with hb | hb <;> exact ⟨_, hb, by omega, by omega⟩
      split at hb
      · simp only [List.mem_cons, List.not_mem_nil, or_false] at hb
        rcases hb with hb | hb | hb <;> exact ⟨_, hb, by omega, by omega⟩
      · simp only [List.mem_cons, List.not_mem_nil, or_false] at hb
        rcases hb with hb | hb | hb | hb <;> exact ⟨_, hb, by omega, by omega⟩
    obtain ⟨n, rfl, hge, hlt⟩ := hsome
    exact isNameByte_of_ge hge hlt

theorem isNameChar_of_isName {cs : List Char} (h : isName cs = true) {c : Char} (hc : c ∈ cs) :
    isNameChar c = true := by
  cases cs with
  | nil => cases h
  | cons first rest =>
    rw [isName, Bool.and_eq_true, List.all_eq_true] at h
    cases hc with
    | head => simp [isNameChar, h.1]
    | tail _ hc => exact h.2 c hc

theorem scan_targetName {seen name rest : Bytes} (h : ∀ b ∈ name, isNameByte b = true) :
    scan (.targetName seen) (name ++ rest) = scan (.targetName (name.reverse ++ seen)) rest := by
  induction name generalizing seen with
  | nil => rfl
  | cons b name ih =>
    have hstep : step 0 (.targetName seen) b = .next (.targetName (b :: seen)) :=
      if_pos (h b List.mem_cons_self)
    rw [List.cons_append, scan_next hstep, ih fun b hb => h b (List.mem_cons_of_mem _ hb)]
    simp

theorem scan_whole_instruction {target : List Char} {body : Bytes} (hname : isName target = true)
    (hxml : target ≠ "xml".toList) (hspace : ∀ b ∈ body.head?, isSpace b = true)
    (h : ¬ Utf8.encode "?>" <:+: body ++ Utf8.encode "?") :
    scan .content (Utf8.encode "<?" ++ target.flatMap Utf8.encodeChar ++ body ++ Utf8.encode "?>") =
      ([], none) := by
  have hbytes : ∀ b ∈ target.flatMap Utf8.encodeChar, isNameByte b = true := by
    intro b hb
    obtain ⟨c, hc, hb⟩ := List.mem_flatMap.1 hb
    exact isNameByte_of_mem_encodeChar (isNameChar_of_isName hname hc) hb
  -- the byte after the target ends it
  obtain ⟨next, rest, hnext, hother⟩ : ∃ next rest, body ++ Utf8.encode "?>" = next :: rest ∧
      isNameByte next = false := by
    cases body with
    | nil => exact ⟨'?'.toUInt8, ['>'.toUInt8], rfl, by decide⟩
    | cons b body =>
      refine ⟨b, _, rfl, ?_⟩
      have hb := hspace b rfl
      simp only [isSpace, Bool.or_eq_true, beq_iff_eq] at hb
      rcases hb with ((rfl | rfl) | rfl) | rfl <;> decide
  have hstep : step 0 (.targetName ((target.flatMap Utf8.encodeChar).reverse ++ [])) next =
      step 0 (.targetSpace target) next := by
    have hnonempty : (target.flatMap Utf8.encodeChar).reverse.isEmpty = false := by
      cases target with
      | nil => cases hname
      | cons c cs =>
        have hne : Utf8.encodeChar c ≠ [] := String.utf8EncodeChar_ne_nil
        simp [hne]
    have hread : name? .expectedTarget (target.flatMap Utf8.encodeChar).reverse = .ok target := by
      simp only [name?, hnonempty, List.reverse_reverse, Utf8.decode_flatMap_encodeChar, hname,
        Bool.false_eq_true, if_false, if_true]
    rw [List.append_nil]
    simp only [step, targetNameStep, hother, hread, Bool.false_eq_true, if_false]
  rw [List.append_assoc, List.append_assoc]
  change scan (.targetName []) (target.flatMap Utf8.encodeChar ++ (body ++ Utf8.encode "?>")) = _
  rw [scan_targetName hbytes, hnext, scan_congr hstep, ← hnext]
  exact scan_targetSpace hxml h

/-- Markup that is no part of a description. A comment has no two dashes in it and none before its
end; after the target of an instruction comes white space, if anything; documentation is whatever
reads, on its own, as one element `doc`. -/
inductive Aside : Bytes → Prop where
  | comment {body : Bytes} (h : ¬ Utf8.encode "--" <:+: body ++ Utf8.encode "-") :
    Aside (Utf8.encode "<!--" ++ body ++ Utf8.encode "-->")
  | instruction {target : List Char} {body : Bytes} (hname : isName target = true)
    (hxml : target ≠ "xml".toList) (hspace : ∀ b ∈ body.head?, isSpace b = true)
    (h : ¬ Utf8.encode "?>" <:+: body ++ Utf8.encode "?") :
    Aside (Utf8.encode "<?" ++ target.flatMap Utf8.encodeChar ++ body ++ Utf8.encode "?>")
  | documentation {bytes : Bytes} {start stop : Nat} {name : QName} {attrs : List TagAttribute}
    {inner : Content} (hless : bytes.head? = some '<'.toUInt8) (hname : name.tag = "doc")
    (h : events bytes = ((Content.element start stop name attrs inner .nil).events, none)) :
    Aside bytes

structure Content.Passed (content : Content) : Prop where
  ownText : content.ownText = []
  elements : content.elements = []

theorem passed_of_aside {bytes : Bytes} (h : Aside bytes) :
    bytes.head? = some '<'.toUInt8 ∧
      ∃ content : Content, content.Passed ∧ events bytes = (content.events, none) := by
  have hquiet : ∀ {bytes : Bytes}, scan .content bytes = ([], none) →
      events bytes = (Content.nil.events, none) := by
    intro bytes hscan
    have hnone : (events bytes).2 = none := by
      rw [events_snd_eq_none_iff, hscan]
      exact ⟨rfl, rfl⟩
    have hevents := events_fst_unplaced hnone
    rw [hscan, List.flatMap_nil, List.map_eq_nil_iff] at hevents
    exact Prod.ext hevents hnone
  cases h with
  | comment h => exact ⟨rfl, .nil, ⟨rfl, rfl⟩, hquiet (scan_whole_comment h)⟩
  | instruction hname hxml hspace h =>
    exact ⟨rfl, .nil, ⟨rfl, rfl⟩, hquiet (scan_whole_instruction hname hxml hspace h)⟩
  | documentation hless hname h =>
    refine ⟨hless, _, ⟨rfl, ?_⟩, h⟩
    rw [Content.elements, if_pos hname]
    rfl

theorem Content.Passed.unplaced {content : Content} (h : content.Passed) :
    content.unplaced.Passed where
  ownText := by rw [content.ownText_unplaced, h.ownText]
  elements := by rw [content.elements_unplaced, h.elements, List.map_nil]

namespace Assembly

theorem run_append (a : Assembly) (before after : List Event) :
    a.run (before ++ after) = (a.run before).bind (run · after) := by
  induction before generalizing a with
  | nil => rfl
  | cons e before ih =>
    rw [List.cons_append, run, run]
    cases a.step e with
    | error err => rfl
    | ok a => exact ih a

/-- The tree is assembled as if the content were not there, whatever elements are open around it. -/
theorem run_passed {content : Content} (h : content.Passed) (a : Assembly) (after : List Event) :
    a.run (content.events ++ after) = a.run after := by
  obtain ⟨htext, helements⟩ := h
  induction content generalizing a with
  | nil => rfl
  | text cs rest ih =>
    rw [Content.ownText, List.append_eq_nil_iff] at htext
    obtain ⟨rfl, htext⟩ := htext
    have hadd : a.addText [] = a := by
      obtain ⟨root?, frames, skipped⟩ := a
      cases frames <;> simp [addText]
    rw [Content.events, List.cons_append, run]
    simp only [step, hadd]
    exact ih a htext helements
  | element start stop name attrs inner rest hinner hrest =>
    by_cases hdoc : name.tag = "doc"
    · rw [Content.elements, if_pos hdoc] at helements
      -- inside documentation or not, an element `doc` only counts how deep documentation is nested
      have henter : a.enter start name attrs = .ok { a with skipped := a.skipped + 1 } := by
        unfold enter
        by_cases hskipped : 0 < a.skipped
        · rw [if_pos hskipped]
        · have hzero : a.skipped = 0 := by omega
          rw [if_neg hskipped, if_pos (by simp [hdoc]), hzero]
      have hleave : leave { a with skipped := a.skipped + 1 } stop = a := by
        unfold leave
        rw [if_pos (Nat.succ_pos _)]
        rfl
      rw [Content.events, List.cons_append, run]
      simp only [step, henter]
      rw [List.append_assoc, run_skipping inner (Nat.succ_pos _), List.cons_append, run]
      simp only [step, hleave]
      exact hrest a htext helements
    · rw [Content.elements, if_neg hdoc] at helements
      cases helements

end Assembly

/-- Markup begins between the two parts of a source: the first can be read to its end by itself, so
that it ends outside all markup, and the second begins with `<`. -/
def MarkupBetween (before after : Bytes) : Prop :=
  (read before).cause? = none ∧ after.head? = some '<'.toUInt8

section
variable {before aside after : Bytes}

theorem scan_between (h : MarkupBetween before after) :
    scan .content (before ++ after) =
      ((scan .content before).1 ++ (scan .content after).1, (scan .content after).2) := by
  have hbefore : (scan .content before).2 = none := by
    rw [← (read_unplaced before).2]
    exact h.1
  exact scan_append hbefore h.2

theorem scan_aside (h : MarkupBetween before after) (hless : aside.head? = some '<'.toUInt8)
    (haside : (scan .content aside).2 = none) :
    scan .content (before ++ aside ++ after) =
      ((scan .content before).1 ++ (scan .content aside).1 ++ (scan .content after).1,
        (scan .content after).2) := by
  have hbefore : scan .content (before ++ aside) = _ := scan_between ⟨h.1, hless⟩
  have hnone : (scan .content (before ++ aside)).2 = none := by rw [hbefore, haside]
  rw [scan_append hnone h.2, hbefore]

theorem events_aside {content inserted : Content} (h : MarkupBetween before after)
    (hless : aside.head? = some '<'.toUInt8) (hinserted : events aside = (inserted.events, none))
    (hcontent : events (before ++ after) = (content.events, none)) :
    ∃ earlier later found, content.unplaced.events = earlier ++ later ∧
      events (before ++ aside ++ after) = (Content.events found, none) ∧
      found.unplaced.events = earlier ++ (inserted.unplaced.events ++ later) := by
  have haside : (events aside).2 = none := by rw [hinserted]
  have hnone : (events (before ++ after)).2 = none := by rw [hcontent]
  obtain ⟨hread, hmatch⟩ := (events_snd_eq_none_iff aside).1 haside
  obtain ⟨hreadAll, hmatchAll⟩ := (events_snd_eq_none_iff (before ++ after)).1 hnone
  have hwhole := scan_aside h hless hread
  -- inside the elements that are open there, the tags of the aside match as they do by themselves
  have hnew : (events (before ++ aside ++ after)).2 = none := by
    rw [scan_between h] at hreadAll hmatchAll
    rw [events_snd_eq_none_iff, hwhole]
    refine ⟨hreadAll, ?_⟩
    rw [List.append_assoc, openTags_append]
    rw [openTags_append] at hmatchAll
    cases hopen : openTags [] (scan .content before).1 with
    | none => simp [hopen] at hmatchAll
    | some opened =>
      rw [hopen, Option.bind_some] at hmatchAll
      have hinside := openTags_inside hmatch opened
      rw [List.nil_append] at hinside
      rw [Option.bind_some, openTags_append, hinside, Option.bind_some, hmatchAll]
  obtain ⟨found, hfound⟩ := exists_content_of_events hnew
  refine ⟨(scan .content before).1.flatMap Lexeme.events,
    (scan .content after).1.flatMap Lexeme.events, found, ?_, Prod.ext hfound hnew, ?_⟩
  · have hevents := events_fst_unplaced hnone
    rw [hcontent, scan_between h, List.flatMap_append] at hevents
    rw [content.events_unplaced, hevents]
  · have hevents := events_fst_unplaced hnew
    have hinsertedEvents := events_fst_unplaced haside
    rw [hfound, hwhole, List.flatMap_append, List.flatMap_append, List.append_assoc] at hevents
    rw [hinserted] at hinsertedEvents
    rw [found.events_unplaced, hevents, inserted.events_unplaced, hinsertedEvents]

theorem parse_aside {root : Element} (hroot : parse (before ++ after) = .ok root)
    (hplace : MarkupBetween before after) (haside : Aside aside)
    (hsize : (before ++ aside ++ after).length ≤ maxSourceSize)
    (hvalid : Utf8.valid (before ++ aside ++ after) = true) :
    ∃ found, parse (before ++ aside ++ after) = .ok found ∧ found.unplaced = root.unplaced := by
  obtain ⟨-, -, content, hcontent, helements, htag⟩ := parse_content hroot
  obtain ⟨hless, inserted, hpassed, hinserted⟩ := passed_of_aside haside
  obtain ⟨earlier, later, found, hsplit, hfound, hevents⟩ :=
    events_aside hplace hless hinserted hcontent
  -- both event streams are assembled to the same tree
  have hrun : Assembly.run {} content.unplaced.events = .ok ⟨some root.unplaced, [], 0⟩ := by
    apply (Assembly.run_top _ none _).2
    rw [content.elements_unplaced, helements]
    simp [Element.tag_unplaced, htag]
  have hrunFound : Assembly.run {} found.unplaced.events = .ok ⟨some root.unplaced, [], 0⟩ := by
    rw [hsplit, Assembly.run_append] at hrun
    rw [hevents, Assembly.run_append, ← hrun]
    congr 1
    funext a
    exact Assembly.run_passed hpassed.unplaced a later
  obtain ⟨-, hsame, -⟩ := (Assembly.run_top _ none _).1 hrunFound
  have hone : found.elements.map Element.unplaced = [root.unplaced] := by
    rw [← found.elements_unplaced]
    exact hsame.symm
  obtain ⟨e, he, hshape⟩ := List.map_eq_singleton_iff.1 hone
  refine ⟨e, parse_of_content hsize ((Utf8.valid_iff _).1 hvalid) hfound he ?_, hshape⟩
  rw [← e.tag_unplaced, hshape, root.tag_unplaced, htag]

end

/-- Before every tag of a source a comment, a processing instruction or documentation can be put, and
nothing of the tree changes but the places of its elements. -/
theorem asides_leave_no_trace {src : Bytes} {root : Element} (hroot : parse src = .ok root)
    {ls rs : List Lexeme} {tag : Lexeme} (htag : tag.isTag = true)
    (hlexemes : (read src).lexemes.map (·.lexeme.unplaced) = ls ++ tag :: rs) :
    ∃ before after, src = before ++ after ∧ StartsTag after ∧ (read before).cause? = none ∧
      (read before).lexemes.map (·.lexeme.unplaced) = ls ∧
      (read after).lexemes.map (·.lexeme.unplaced) = tag :: rs ∧
      ∀ aside, Aside aside → (before ++ aside ++ after).length ≤ maxSourceSize →
        Utf8.valid (before ++ aside ++ after) = true →
        ∃ found, parse (before ++ aside ++ after) = .ok found ∧ found.unplaced = root.unplaced := by
  rw [(read_unplaced src).1] at hlexemes
  obtain ⟨before, after, rfl, hbefore, hstarts, hafter⟩ := splits_of_tag hlexemes htag
  have hnone : (read before).cause? = none := by rw [(read_unplaced before).2, hbefore]
  have hless : after.head? = some '<'.toUInt8 := by
    obtain ⟨c, rest, rfl, -⟩ := hstarts
    rfl
  refine ⟨before, after, rfl, hstarts, hnone, ?_, ?_, ?_⟩
  · rw [(read_unplaced before).1, hbefore]
  · rw [(read_unplaced after).1, hafter]
  · intro aside haside hsize hvalid
    exact parse_aside hroot ⟨hnone, hless⟩ haside hsize hvalid

def remark : String := "<doc a=\"1\">t<p><doc/>u</p><!--c--></doc >"

def remarkContent : Content :=
  .element 0 41 ⟨"", "doc"⟩ [⟨⟨"", "a"⟩, "1"⟩]
    (.text ['t'] (.element 12 26 ⟨"", "p"⟩ []
      (.element 15 21 ⟨"", "doc"⟩ [] .nil (.text ['u'] .nil)) .nil)) .nil

def marked : Bytes := Utf8.encode "<xcb> y<q>z</q> w</xcb>"

def markedBefore : List Lexeme :=
  [.openTag 0 ⟨"", "xcb"⟩ [] false, .text " y".toList, .openTag 0 ⟨"", "q"⟩ [] false, .text "z".toList]

theorem asides_leave_no_trace_remark :
    ∃ root found, parse marked = .ok root ∧
      (read marked).lexemes.map (·.lexeme.unplaced) =
        markedBefore ++ .closeTag ⟨"", "q"⟩ :: [.text " w".toList, .closeTag ⟨"", "xcb"⟩] ∧
      parse (Utf8.encode "<xcb> y<q>z" ++ Utf8.encode remark ++ Utf8.encode "</q> w</xcb>") =
        .ok found ∧ found.unplaced = root.unplaced := by
  have haside : Aside (Utf8.encode remark) :=
    .documentation (by decide +kernel) rfl
      (show events (Utf8.encode remark) = (remarkContent.events, none) by decide +kernel)
  have hlexemes : (read marked).lexemes.map (·.lexeme.unplaced) =
      markedBefore ++ .closeTag ⟨"", "q"⟩ :: [.text " w".toList, .closeTag ⟨"", "xcb"⟩] := by
    decide +kernel
  have hok : (parse marked).isOk = true := by decide +kernel
  obtain ⟨root, hroot⟩ : ∃ root, parse marked = .ok root := by
    cases hroot : parse marked with
    | error err =>
      rw [hroot] at hok
      cases hok
    | ok root => exact ⟨root, rfl⟩
  obtain ⟨before, after, hsplit, -, hcause, hbefore, -, hinsert⟩ :=
    asides_leave_no_trace hroot rfl hlexemes
  -- only one beginning of the source ends right before the tag
  have hplace : (List.range 24).all (fun k => (read (marked.take k)).cause? != none ||
      (read (marked.take k)).lexemes.map (·.lexeme.unplaced) != markedBefore || k == 11) = true := by
    decide +kernel
  have htake : marked.take before.length = before := by rw [hsplit, List.take_left]
  have hdrop : marked.drop before.length = after := by rw [hsplit, List.drop_left]
  have hlength : before.length = 11 := by
    have hlt : before.length < 24 := by
      have hmarked : marked.length = 23 := by decide +kernel
      rw [hsplit, List.length_append] at hmarked
      omega
    have hk := List.all_eq_true.mp hplace before.length (List.mem_range.mpr hlt)
    simpa [htake, hcause, hbefore] using hk
  have hfirst : before = Utf8.encode "<xcb> y<q>z" := by
    rw [← htake, hlength]
    decide +kernel
  have hsecond : after = Utf8.encode "</q> w</xcb>" := by
    rw [← hdrop, hlength]
    decide +kernel
  subst hfirst hsecond
  obtain ⟨found, hfound, hsame⟩ := hinsert _ haside (by decide +kernel) (by decide +kernel)
  exact ⟨root, found, hroot, hlexemes, hfound, hsame⟩

end CodecGen.Markup
