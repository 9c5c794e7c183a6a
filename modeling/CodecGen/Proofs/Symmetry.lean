import CodecGen.Proofs.WireOrder
set_option autoImplicit false
/-!
Encoding and decoding mirror each other. The direction decides how a value is copied, how a list is
sized, what the body of a sum may do to an element and what becomes of the header; the order of the
statements, the temporaries and the faults are the same in both directions.
-/
namespace CodecGen.Emit
open Schema

def oneWayNames : List String :=
  ["major_opcode", "minor_opcode", "response_type", "sequence", "extension"]

def isPad : Ty → Bool
  | .pad .. => true
  | _ => false

/-- The field is hidden, no pad, and can be copied in one direction only. -/
def isOneWay (f : Field) : Bool := !f.visible && !isPad f.type && oneWayNames.contains f.name

/-- Line by line the same code, but for the lines in which the directions differ. -/
inductive MirroredLines : List Line → List Line → Prop where
  | nil : MirroredLines [] []
  | same (line : Line) {enc dec : List Line} (rest : MirroredLines enc dec) :
      MirroredLines (line :: enc) (line :: dec)
  | copy (name : String) {enc dec : List Line} (rest : MirroredLines enc dec) :
      MirroredLines (.flat ("Write(&" ++ name ++ ", &buf);") :: enc)
        (.flat ("Read(&" ++ name ++ ", &buf);") :: dec)
  | openSum (id : Nat) {enc dec : List Line} (rest : MirroredLines enc dec) :
      MirroredLines
        (.opens ("auto " ++ sumName id ++ " = SumOf([](const auto& listelem_ref) \x7b") :: enc)
        (.opens ("auto " ++ sumName id ++ " = SumOf([](auto& listelem_ref) \x7b") :: dec)
  | size (list size : String) {enc dec : List Line} (rest : MirroredLines enc dec) :
      MirroredLines
        (.flat ("DCHECK_EQ(static_cast<size_t>(" ++ size ++ "), " ++ list ++ ".size());") :: enc)
        (.flat (list ++ ".resize(" ++ size ++ ");") :: dec)
  | length (type : String) {enc dec : List Line} (rest : MirroredLines enc dec) :
      MirroredLines
        (.flat "// Caller fills in length for writes." ::
          .flat ("Pad(&buf, sizeof(" ++ type ++ "));") :: enc)
        (.flat (type ++ " length;") :: .flat "Read(&length, &buf);" :: dec)

theorem MirroredLines.refl (lines : List Line) : MirroredLines lines lines := by
  induction lines with
  | nil => exact .nil
  | cons line rest ih => exact .same line ih

theorem MirroredLines.append {enc dec enc' dec' : List Line} (h : MirroredLines enc dec)
    (h' : MirroredLines enc' dec') : MirroredLines (enc ++ enc') (dec ++ dec') := by
  induction h with
  | nil => exact h'
  | same line _ ih => exact .same line ih
  | copy name _ ih => exact .copy name ih
  | openSum id _ ih => exact .openSum id ih
  | size list size _ ih => exact .size list size ih
  | length type _ ih => exact .length type ih

theorem MirroredLines.length_eq {enc dec : List Line} (h : MirroredLines enc dec) :
    enc.length = dec.length := by
  induction h with
  | nil => rfl
  | same | copy | openSum | size | length => simpa

def Mirrored (enc dec : List Stmt) : Prop := MirroredLines (enc.map Stmt.line) (dec.map Stmt.line)

namespace Mirrored

theorem refl (stmts : List Stmt) : Mirrored stmts stmts := MirroredLines.refl _

theorem append {enc dec enc' dec' : List Stmt} (h : Mirrored enc dec) (h' : Mirrored enc' dec') :
    Mirrored (enc ++ enc') (dec ++ dec') := by
  simpa [Mirrored] using MirroredLines.append h h'

theorem copy (name : String) : Mirrored [.copy .encode name] [.copy .decode name] :=
  MirroredLines.copy name .nil

theorem openSum (id : Nat) : Mirrored [.openSum id .encode] [.openSum id .decode] := by
  have henc : (Stmt.openSum id .encode).text =
      "auto " ++ sumName id ++ " = SumOf([](const auto& listelem_ref) \x7b" := by
    -- Only the end of the line is closed text that can be compared.
    have hlit : " = SumOf([](" ++ ("const " ++ ("auto& " ++ ("listelem_ref" ++ ") \x7b"))) =
        " = SumOf([](const auto& listelem_ref) \x7b" := by decide +kernel
    rw [← hlit]
    change "auto " ++ sumName id ++ " = SumOf([](" ++ "const " ++ "auto& " ++ "listelem_ref" ++
      ") \x7b" = _
    simp only [String.append_assoc]
  have hdec : (Stmt.openSum id .decode).text =
      "auto " ++ sumName id ++ " = SumOf([](auto& listelem_ref) \x7b" := by
    have hlit : " = SumOf([](" ++ ("" ++ ("auto& " ++ ("listelem_ref" ++ ") \x7b"))) =
        " = SumOf([](auto& listelem_ref) \x7b" := by decide +kernel
    rw [← hlit]
    change "auto " ++ sumName id ++ " = SumOf([](" ++ "" ++ "auto& " ++ "listelem_ref" ++
      ") \x7b" = _
    simp only [String.append_assoc]
  simp only [Mirrored, List.map_cons, List.map_nil, Stmt.line, henc, hdec]
  exact MirroredLines.openSum id .nil

theorem size (list size : String) : Mirrored [.checkSize list size] [.resize list size] :=
  MirroredLines.size list size .nil

theorem length (type : String) :
    Mirrored [.lengthNote, .reserve type] [.declare type "length", .copy .decode "length"] := by
  have hdeclare : (Stmt.declare type "length").text = type ++ " length;" := by
    have hlit : " " ++ ("length" ++ ";") = " length;" := by decide +kernel
    rw [← hlit]
    change type ++ " " ++ "length" ++ ";" = _
    simp only [String.append_assoc]
  have hcopy : (Stmt.copy .decode "length").text = "Read(&length, &buf);" := by decide +kernel
  simp only [Mirrored, List.map_cons, List.map_nil, Stmt.line, hdeclare, hcopy]
  exact MirroredLines.length type .nil

end Mirrored

def MirroredBefore {α : Type} (p q : List Stmt × α) : Prop := Mirrored p.1 q.1 ∧ p.2 = q.2

section
variable {ns path : List String} {s : Scope}

theorem sumOver_mirrored {list : String} {enc dec : Emission (List Stmt × String)}
    (h : ∀ s, Alike s s MirroredBefore enc dec) :
    Alike s s MirroredBefore (sumOver ⟨.encode, ns, path⟩ list enc)
      (sumOver ⟨.decode, ns, path⟩ list dec) := by
  unfold sumOver
  refine .get fun n => ?_
  split
  · exact .fail rfl
  · split
    · refine .bind (.lift (.self (elementFields ⟨.encode, ns, path⟩ _))) ?_
      rintro fields _ ⟨rfl, -⟩
      refine .bind .freshId ?_
      rintro id _ rfl
      refine .bind (.withFields (B := Eq) (fun _ => rfl) (h _)) ?_
      rintro ⟨bindings, before, value⟩ ⟨_, before', _⟩ ⟨rfl, hbefore, rfl⟩
      refine .pure ⟨?_, rfl⟩
      exact (((Mirrored.openSum id).append (.refl bindings)).append hbefore).append (.refl _)
    · exact .fail rfl

theorem compileExpr_mirrored (e : Expr) (s : Scope) :
    Alike s s MirroredBefore (compileExpr ⟨.encode, ns, path⟩ e)
      (compileExpr ⟨.decode, ns, path⟩ e) := by
  induction e generalizing s with
  | absent => exact .fail rfl
  | binary op lhs rhs ihl ihr =>
    refine .bind (ihl s) ?_
    rintro ⟨before, l⟩ ⟨before', _⟩ ⟨hbefore, rfl⟩
    refine .bind (ihr s) ?_
    rintro ⟨between, r⟩ ⟨between', _⟩ ⟨hbetween, rfl⟩
    exact .pure ⟨hbefore.append hbetween, rfl⟩
  | complement operand ih | popCount operand ih =>
    refine .bind (ih s) ?_
    rintro ⟨before, x⟩ ⟨before', _⟩ ⟨hbefore, rfl⟩
    exact .pure ⟨hbefore, rfl⟩
  | fieldLen name =>
    refine .get fun n => ?_
    split
    · exact .fail rfl
    · exact .pure ⟨.refl _, rfl⟩
  | fieldRef | enumRef | listElement | value => exact .pure ⟨.refl _, rfl⟩
  | sumOf list summand ih =>
    cases summand with
    | absent => exact sumOver_mirrored fun s => .pure ⟨.refl _, rfl⟩
    | _ => exact sumOver_mirrored ih

theorem compileConditions_mirrored (test selector : String) (es : List Expr) :
    Alike s s MirroredBefore (compileConditions ⟨.encode, ns, path⟩ test selector es)
      (compileConditions ⟨.decode, ns, path⟩ test selector es) := by
  induction es with
  | nil => exact .pure ⟨.refl _, rfl⟩
  | cons e rest ih =>
    refine .bind (compileExpr_mirrored e s) ?_
    rintro ⟨before, value⟩ ⟨before', _⟩ ⟨hbefore, rfl⟩
    refine .bind ih ?_
    rintro ⟨between, conditions⟩ ⟨between', _⟩ ⟨hbetween, rfl⟩
    exact .pure ⟨hbefore.append hbetween, rfl⟩

theorem copyPad_mirrored (bytes align : Int) :
    Alike s s Mirrored (copyPad ⟨.encode, ns, path⟩ bytes align)
      (copyPad ⟨.decode, ns, path⟩ bytes align) := by
  unfold copyPad
  split
  · exact .pure (.refl _)
  · split
    · exact .fail rfl
    · exact .pure (.refl _)

theorem safeName_eq_of_not_c {name text : String} (h : safeName name = text)
    (hc : text.toList.head? ≠ some 'c') : name = text := by
  unfold safeName at h
  split at h
  · subst h
    exact absurd (by simp) hc
  · exact h

theorem copyHidden_mirrored {head? : Option RequestHead} {name : String} {type : Ty}
    (h : oneWayNames.contains name = false) :
    Alike s s Mirrored (copyHidden ⟨.encode, ns, path⟩ head? (safeName name) type)
      (copyHidden ⟨.decode, ns, path⟩ head? (safeName name) type) := by
  have hone : ∀ text ∈ oneWayNames, safeName name ≠ text := by
    intro text htext heq
    -- A name that is changed starts with a c, so these are the safe names of nothing else.
    have hc : ∀ text ∈ oneWayNames, text.toList.head? ≠ some 'c' := by decide +kernel
    obtain rfl := safeName_eq_of_not_c heq (hc text htext)
    simp [htext] at h
  simp only [oneWayNames, List.forall_mem_cons, List.not_mem_nil, false_implies, implies_true,
    and_true] at hone
  obtain ⟨hmajor, hminor, hresponse, hsequence, hextension⟩ := hone
  unfold copyHidden
  simp only [hmajor, hminor, hresponse, hsequence, hextension, beq_iff_eq, Bool.or_eq_true, or_self,
    ↓reduceIte]
  split
  · next hlength =>
    rw [hlength]
    exact .pure (.length _)
  · split
    · refine .bind (compileExpr_mirrored _ s) ?_
      rintro ⟨before, value⟩ ⟨before', _⟩ ⟨hbefore, rfl⟩
      exact .pure (hbefore.append ((Mirrored.refl [_]).append (.copy _)))
    · exact .fail rfl

theorem copyLength_mirrored (name : String) (count : Int) (length : Option Expr) :
    Alike s s Mirrored (copyLength ⟨.encode, ns, path⟩ name count length)
      (copyLength ⟨.decode, ns, path⟩ name count length) := by
  unfold copyLength
  refine .bind (.lift (.self (checkList ⟨.encode, ns, path⟩ count length))) fun _ _ _ => ?_
  split
  · split
    · refine .bind (compileExpr_mirrored _ s) ?_
      rintro ⟨before, size⟩ ⟨before', _⟩ ⟨hbefore, rfl⟩
      exact .pure (hbefore.append (.size name size))
    · exact .pure (.refl _)
  · exact .pure (.refl _)

theorem switchMembers_mirrored (branches : List Field) :
    switchMembers ⟨.encode, ns, path⟩ branches = switchMembers ⟨.decode, ns, path⟩ branches := by
  induction branches with
  | nil => rfl
  | cons branch rest ih =>
    unfold switchMembers
    rw [ih]
    rfl

mutual

theorem copyField_mirrored (f : Field) (path : List String) (head? : Option RequestHead) (s : Scope)
    (h : ∀ g ∈ walkField f, isOneWay g = false) :
    Alike s s Mirrored (copyField ⟨.encode, ns, path⟩ head? f)
      (copyField ⟨.decode, ns, path⟩ head? f) := by
  match f with
  | ⟨name, type, wire, visible⟩ =>
    rw [copyField_eq, copyField_eq]
    refine .map (R := Mirrored) ?_ fun enc dec hbody => (Mirrored.refl [_]).append hbody
    cases visible with
    | true =>
      have hwalk : ∀ g ∈ walkValue type, isOneWay g = false :=
        fun g hg => h g (by simp [walkField, hg])
      cases type with
      | pad bytes align => exact copyPad_mirrored bytes align
      | _ => exact copyValue_mirrored _ _ (safeName name) s hwalk
    | false =>
      have hself := h ⟨name, type, wire, false⟩ (by simp [walkField])
      cases type with
      | pad bytes align => exact copyPad_mirrored bytes align
      | _ => exact copyHidden_mirrored (by simpa [isOneWay, isPad] using hself)
termination_by structural f

theorem copyValue_mirrored (type : Ty) (path : List String) (name : String) (s : Scope)
    (h : ∀ g ∈ walkValue type, isOneWay g = false) :
    Alike s s Mirrored (copyValue ⟨.encode, ns, path⟩ name type)
      (copyValue ⟨.decode, ns, path⟩ name type) := by
  cases type with
  | container shape n fields =>
    refine .bind (.withFields (B := Eq) (fun _ => rfl)
      (copyFields_mirrored fields path (requestHead? shape fields) _ h)) ?_
    rintro ⟨bindings, body⟩ ⟨_, body'⟩ ⟨rfl, hbody⟩
    exact .pure ((Mirrored.refl _).append hbody |>.append (.refl _))
  | list member count length =>
    refine .bind (copyLength_mirrored name count length) fun before before' hbefore => ?_
    refine .bind (copyElement_mirrored member path _ s h) fun body body' hbody => .pure ?_
    exact (hbefore.append (.refl [_])).append hbody |>.append (.refl [_])
  | switch n selector cases =>
    simp only [copyValue, switchMembers_mirrored]
    refine .bind (.lift (.self _)) ?_
    rintro members _ ⟨rfl, -⟩
    refine .bind (.withFields (B := Eq) (R := Mirrored) (fun _ => rfl) ?_) ?_
    · refine .bind (compileExpr_mirrored selector _) ?_
      rintro ⟨before, value⟩ ⟨before', _⟩ ⟨hbefore, rfl⟩
      refine .bind (copyBranches_mirrored cases path _ _ h) fun branches branches' hbranches => ?_
      exact .pure ((hbefore.append (.refl [_])).append hbranches)
    · rintro ⟨bindings, body⟩ ⟨_, body'⟩ ⟨rfl, hbody⟩
      exact .pure ((Mirrored.refl _).append hbody |>.append (.refl _))
  | simple n | union n fields => exact .pure (.copy name)
  | mention kind n =>
    cases kind with
    | union => exact .pure (.copy name)
    | _ => exact .fail rfl
  | _ => exact .fail rfl
termination_by structural type

theorem copyElement_mirrored (type : Ty) (path : List String) (name : String) (s : Scope)
    (h : ∀ g ∈ walkElement type, isOneWay g = false) :
    Alike s s Mirrored (copyElement ⟨.encode, ns, path⟩ name type)
      (copyElement ⟨.decode, ns, path⟩ name type) := by
  cases type with
  | container shape n fields =>
    refine .bind (.withFields (B := Eq) (fun _ => rfl)
      (copyFields_mirrored fields path (requestHead? shape fields) _ h)) ?_
    rintro ⟨bindings, body⟩ ⟨_, body'⟩ ⟨rfl, hbody⟩
    exact .pure ((Mirrored.refl _).append hbody)
  | simple n | union n fields => exact .pure (.copy name)
  | mention kind n =>
    cases kind with
    | union => exact .pure (.copy name)
    | _ => exact .fail rfl
  | _ => exact .fail rfl
termination_by structural type

theorem copyFields_mirrored (fields : List Field) (path : List String) (head? : Option RequestHead)
    (s : Scope) (h : ∀ g ∈ walkFields fields, isOneWay g = false) :
    Alike s s Mirrored (copyFields ⟨.encode, ns, path⟩ head? fields)
      (copyFields ⟨.decode, ns, path⟩ head? fields) := by
  cases fields with
  | nil => exact .pure (.refl _)
  | cons f rest =>
    rw [copyFields, copyFields]
    rw [walkFields] at h
    split at h
    · next hwire =>
      simp only [hwire, ↓reduceIte]
      refine .bind (copyField_mirrored f path head? s fun g hg => h g (by simp [hg])) ?_
      intro body body' hbody
      refine .bind (copyFields_mirrored rest path head? s fun g hg => h g (by simp [hg])) ?_
      intro more more' hmore
      exact .pure ((hbody.append (.refl [_])).append hmore)
    · next hwire =>
      simp only [hwire]
      exact copyFields_mirrored rest path head? s h
termination_by structural fields

theorem copyBranches_mirrored (branches : List Field) (path : List String) (selector : String)
    (s : Scope) (h : ∀ g ∈ walkBranches branches, isOneWay g = false) :
    Alike s s Mirrored (copyBranches ⟨.encode, ns, path⟩ selector branches)
      (copyBranches ⟨.decode, ns, path⟩ selector branches) := by
  cases branches with
  | nil => exact .pure (.refl _)
  | cons branch rest =>
    rw [walkBranches] at h
    refine .bind (copyBranch_mirrored branch path selector s fun g hg => h g (by simp [hg])) ?_
    intro body body' hbody
    refine .bind (copyBranches_mirrored rest path selector s fun g hg => h g (by simp [hg])) ?_
    intro more more' hmore
    exact .pure (hbody.append hmore)
termination_by structural branches

theorem copyBranch_mirrored (branch : Field) (path : List String) (selector : String) (s : Scope)
    (h : ∀ g ∈ walkBranch branch, isOneWay g = false) :
    Alike s s Mirrored (copyBranch ⟨.encode, ns, path⟩ selector branch)
      (copyBranch ⟨.decode, ns, path⟩ selector branch) := by
  match branch with
  | ⟨name, type, wire, visible⟩ =>
    cases type with
    | case n byValue byMask selectors fields =>
      rw [copyBranch, copyBranch]
      refine .bind (.lift (.self (checkCase ⟨.encode, ns, path ++ [name]⟩ _ _))) ?_
      intro _ _ _
      dsimp only
      split
      -- Without selectors both directions stop here.
      · exact .bind (.fail rfl) fun _ _ (h : False) => h.elim
      refine .bind (compileConditions_mirrored _ selector selectors) ?_
      rintro ⟨before, conditions⟩ ⟨before', _⟩ ⟨hbefore, rfl⟩
      refine .bind (.withBranch (B := Eq) rfl (fun _ => rfl)
        (copyBranchFields_mirrored fields (path ++ [name]) _ h)) ?_
      rintro ⟨bindings, body⟩ ⟨_, body'⟩ ⟨rfl, hbody⟩
      exact .pure ((hbefore.append (.refl [_])).append (.refl _) |>.append hbody |>.append (.refl [_]))
    | _ => exact .fail rfl
termination_by structural branch

theorem copyBranchFields_mirrored (fields : List Field) (path : List String) (s : Scope)
    (h : ∀ g ∈ walkFields fields, isOneWay g = false) :
    Alike s s Mirrored (copyBranchFields ⟨.encode, ns, path⟩ fields)
      (copyBranchFields ⟨.decode, ns, path⟩ fields) := by
  cases fields with
  | nil => exact .pure (.refl _)
  | cons f rest =>
    rw [copyBranchFields, copyBranchFields]
    rw [walkFields] at h
    split at h
    · next hwire =>
      simp only [hwire, ↓reduceIte]
      refine .bind (copyField_mirrored f path none s fun g hg => h g (by simp [hg])) ?_
      intro body body' hbody
      refine .bind (copyBranchFields_mirrored rest path s fun g hg => h g (by simp [hg])) ?_
      intro more more' hmore
      exact .pure (hbody.append hmore)
    · next hwire =>
      simp only [hwire]
      exact .fail rfl
termination_by structural fields

end

end

/-- The two directions mirror each other. Where no header field is met that only one of them can
copy, they fail with the same fault, or both succeed, with the same temporaries and mirrored
lines. -/
theorem encode_decode_symmetric (ns path : List String) (shape : Shape) (fields : List Field)
    (object : String) (frame : Frame) (h : ∀ f ∈ walkFields fields, isOneWay f = false) :
    match (copyContainer ⟨.encode, ns, path⟩ shape fields object).run frame,
      (copyContainer ⟨.decode, ns, path⟩ shape fields object).run frame with
    | (.ok enc, next), (.ok dec, next') =>
      next = next' ∧ enc.length = dec.length ∧
        MirroredLines (enc.map Stmt.line) (dec.map Stmt.line)
    | (.error fault, next), (.error fault', next') => fault = fault' ∧ next = next'
    | _, _ => False := by
  have halike : Alike frame.scope frame.scope Mirrored
      (copyContainer ⟨.encode, ns, path⟩ shape fields object)
      (copyContainer ⟨.decode, ns, path⟩ shape fields object) := by
    refine .bind (.withFields (B := Eq) (fun _ => rfl)
      (copyFields_mirrored fields path (requestHead? shape fields) _ h)) ?_
    rintro ⟨bindings, body⟩ ⟨_, body'⟩ ⟨rfl, hbody⟩
    exact .pure ((Mirrored.refl bindings).append hbody)
  obtain ⟨result, other, m, henc, hdec, hsame⟩ := halike frame.nextId
  rw [henc, hdec]
  cases hsame with
  | ok hmirrored => exact ⟨rfl, by simpa using hmirrored.length_eq, hmirrored⟩
  | error fault => exact ⟨rfl, rfl⟩

theorem encode_decode_symmetric_sample :
    (∀ f ∈ walkFields sampleFields, isOneWay f = false) ∧
    ∃ enc dec next, (copyContainer ⟨.encode, ["x11"], []⟩ .struct sampleFields "item").run {} =
        (.ok enc, next) ∧
      (copyContainer ⟨.decode, ["x11"], []⟩ .struct sampleFields "item").run {} = (.ok dec, next) ∧
      MirroredLines (enc.map Stmt.line) (dec.map Stmt.line) := by
  have hwalk : ∀ f ∈ walkFields sampleFields, isOneWay f = false := by decide +kernel
  have henc : ((copyContainer ⟨.encode, ["x11"], []⟩ .struct sampleFields "item").run {}).1.isOk =
      true := by decide +kernel
  have hdec : ((copyContainer ⟨.decode, ["x11"], []⟩ .struct sampleFields "item").run {}).1.isOk =
      true := by decide +kernel
  obtain ⟨enc, next, hencode⟩ := run_of_isOk henc
  obtain ⟨dec, next', hdecode⟩ := run_of_isOk hdec
  have h := encode_decode_symmetric ["x11"] [] .struct sampleFields "item" {} hwalk
  rw [hencode, hdecode] at h
  obtain ⟨rfl, -, hlines⟩ := h
  exact ⟨hwalk, enc, dec, next, hencode, hdecode, hlines⟩

end CodecGen.Emit
