import CodecGen.Emit.Artifact
set_option autoImplicit false
/-!
Generated text read line by line: the lines that rendering writes one after another, and the names
in those of them that are comments on a field.
-/
namespace CodecGen.Emit

def renderLines (depth : Int) : List Line → List String
  | [] => []
  | l :: rest => l.render depth :: renderLines (l.depthAfter depth) rest

theorem renderOnto_eq (text : String) (depth : Int) (lines : List Line) :
    renderOnto text depth lines = text ++ String.join (renderLines depth lines) := by
  induction lines generalizing text depth with
  | nil => simp [renderOnto, renderLines]
  | cons l rest ih => simp [renderOnto, renderLines, ih, String.append_assoc]

theorem render_eq_join (lines : List Line) : render lines = String.join (renderLines 0 lines) := by
  simp [render, renderOnto_eq]

def depthThrough (depth : Int) (lines : List Line) : Int :=
  lines.foldl (fun depth l => l.depthAfter depth) depth

theorem renderLines_append (depth : Int) (xs ys : List Line) :
    renderLines depth (xs ++ ys) =
      renderLines depth xs ++ renderLines (depthThrough depth xs) ys := by
  induction xs generalizing depth with
  | nil => rfl
  | cons l rest ih => simp [renderLines, depthThrough, ih]

def isNameChar (c : Char) : Bool := c.isAlphanum || c == '_'

def isIdentifierLike (name : String) : Bool := !name.toList.isEmpty && name.toList.all isNameChar

/-- The name that a line holds as a comment and nothing else besides indentation. -/
def commentName? (line : String) : Option String :=
  match line.toList.dropWhile (· == ' ') with
  | '/' :: '/' :: ' ' :: rest =>
    let name := String.ofList rest.dropLast
    if rest.getLast? == some '\n' && isIdentifierLike name then some name else none
  | _ => none

theorem isIdentifierLike_safeName {name : String} (h : isIdentifierLike name = true) :
    isIdentifierLike (safeName name) = true := by
  unfold safeName
  split
  · simp_all [isIdentifierLike, isNameChar]
  · exact h

theorem toList_render (l : Line) (depth : Int) :
    ∃ width, (l.render depth).toList = List.replicate width ' ' ++ l.text.toList ++ ['\n'] := by
  unfold Line.render
  split
  · exact ⟨2 * (l.depthAt depth).toNat, by simp [indentation]⟩
  · exact ⟨0, by simp⟩

theorem dropWhile_indentation (width : Nat) (rest : List Char) :
    (List.replicate width ' ' ++ rest).dropWhile (· == ' ') = rest.dropWhile (· == ' ') := by
  induction width with
  | zero => rfl
  | succ width ih => simp [List.replicate_succ, ih]

theorem commentName?_comment {name : String} (h : isIdentifierLike name = true) (depth : Int) :
    commentName? ((Line.flat ("// " ++ name)).render depth) = some name := by
  obtain ⟨width, hw⟩ := toList_render (.flat ("// " ++ name)) depth
  have hd : ((Line.flat ("// " ++ name)).render depth).toList.dropWhile (· == ' ') =
      '/' :: '/' :: ' ' :: (name.toList ++ ['\n']) := by
    rw [hw, List.append_assoc, dropWhile_indentation]
    simp [Line.flat]
  simp [commentName?, hd, h]

theorem commentName?_of_dropWhile {line : String} {c : Char} {rest : List Char}
    (h : line.toList.dropWhile (· == ' ') = c :: rest) (hc : c ≠ '/') : commentName? line = none := by
  unfold commentName?
  split
  · next heq =>
    rw [h] at heq
    exact absurd (List.cons.inj heq).1 hc
  · rfl

theorem commentName?_empty (nesting : Nesting) (depth : Int) :
    commentName? ((⟨nesting, ""⟩ : Line).render depth) = none := by
  obtain ⟨width, hw⟩ := toList_render ⟨nesting, ""⟩ depth
  have hd : ((⟨nesting, ""⟩ : Line).render depth).toList.dropWhile (· == ' ') = ['\n'] := by
    rw [hw, List.append_assoc, dropWhile_indentation]
    simp
  exact commentName?_of_dropWhile hd (by decide)

theorem commentName?_of_getLast {l : Line} {c : Char} (hl : l.text.toList.getLast? = some c)
    (hc : isNameChar c = false) (depth : Int) : commentName? (l.render depth) = none := by
  obtain ⟨width, hw⟩ := toList_render l depth
  unfold commentName?
  split
  · next rest hd =>
    simp only [ite_eq_right_iff, reduceCtorEq, Bool.and_eq_true, beq_iff_eq]
    rintro ⟨hend, hname⟩
    obtain ⟨name, rfl⟩ := List.getLast?_eq_some_iff.1 hend
    obtain ⟨before, hbefore⟩ := List.dropWhile_suffix (l := (l.render depth).toList) (· == ' ')
    rw [hd, hw] at hbefore
    simp only [isIdentifierLike, List.dropLast_concat, String.toList_ofList, Bool.and_eq_true,
      Bool.not_eq_true', List.isEmpty_eq_false_iff, List.all_eq_true] at hname
    obtain rfl | ⟨init, d, rfl⟩ := List.eq_nil_or_concat name
    · exact hname.1 rfl
    -- The last character of the name and that of the text stand in the same place.
    have hsame : before ++ '/' :: '/' :: ' ' :: init ++ [d] =
        List.replicate width ' ' ++ l.text.toList :=
      (List.append_left_inj ['\n']).1 (by simpa using hbefore)
    have hlast := congrArg List.getLast? hsame
    rw [List.getLast?_concat, List.getLast?_append, hl] at hlast
    obtain rfl : d = c := by simpa using hlast
    rw [hname.2 d (by simp)] at hc
    exact absurd hc (by decide)
  · rfl

def endsOutside (text : String) : Bool := text.toList.getLast?.all fun c => !isNameChar c

theorem endsOutside_append (before : String) {ending : String} (h : ending ≠ "") :
    endsOutside (before ++ ending) = endsOutside ending := by
  have hl : ending.toList ≠ [] := by simpa using h
  simp [endsOutside, List.getLast?_append, List.getLast?_eq_some_getLast hl]

theorem commentName?_of_endsOutside {l : Line} (h : endsOutside l.text = true) (depth : Int) :
    commentName? (l.render depth) = none := by
  cases hl : l.text.toList.getLast? with
  | none =>
    obtain ⟨nesting, text⟩ := l
    obtain rfl : text = "" := by simpa using hl
    exact commentName?_empty nesting depth
  | some c => exact commentName?_of_getLast hl (by simpa [endsOutside, hl] using h) depth

theorem commentNames_of_endsOutside {lines : List Line} (h : ∀ l ∈ lines, endsOutside l.text = true)
    (depth : Int) : (renderLines depth lines).filterMap commentName? = [] := by
  induction lines generalizing depth with
  | nil => rfl
  | cons l rest ih =>
    rw [renderLines, List.filterMap_cons_none (commentName?_of_endsOutside (h l (by simp)) depth)]
    exact ih (fun x hx => h x (by simp [hx])) _

end CodecGen.Emit
