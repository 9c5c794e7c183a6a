import CodecGen.Markup.Lexeme
set_option autoImplicit false
/-!
What one byte can do to the reader. A mode has a stage, outside all tags, at the `<` of what may become
one, or inside a tag, and it may know where that tag begins; `Moves` lists what the next step does to
both. Next to each step stands the step that the reader would take if it knew no places.
-/
namespace CodecGen.Markup

inductive Stage where
  | outside
  | begun
  | inside
deriving DecidableEq, Repr

def Place.stage : Place → Stage
  | .content | .cdata => .outside
  | .value .. => .inside

def Mode.stage : Mode → Stage
  | .text place _ | .reference place _ _ _ => place.stage
  | .less _ => .begun
  | .closeName _ | .closeEnd _ | .openName .. | .tagBody _ | .tagSlash _ | .attrName .. |
    .attrEquals .. | .attrQuote .. => .inside
  | _ => .outside

def Place.start? : Place → Option Nat
  | .content | .cdata => none
  | .value _ tag _ => some tag.start

/-- Where the start tag begins that is being read, or what may yet become one. -/
def Mode.start? : Mode → Option Nat
  | .text place _ | .reference place _ _ _ => place.start?
  | .less start | .openName start _ => some start
  | .tagBody tag | .tagSlash tag | .attrName tag _ | .attrEquals tag _ | .attrQuote tag _ =>
    some tag.start
  | _ => none

def Tag.unplaced (t : Tag) : Tag := { t with start := 0 }

def Place.unplaced : Place → Place
  | .value quote tag attr => .value quote tag.unplaced attr
  | place => place

def Mode.unplaced : Mode → Mode
  | .text place run => .text place.unplaced run
  | .reference place run raw form => .reference place.unplaced run raw form
  | .less _ => .less 0
  | .openName _ seen => .openName 0 seen
  | .tagBody tag => .tagBody tag.unplaced
  | .tagSlash tag => .tagSlash tag.unplaced
  | .attrName tag seen => .attrName tag.unplaced seen
  | .attrEquals tag attr => .attrEquals tag.unplaced attr
  | .attrQuote tag attr => .attrQuote tag.unplaced attr
  | mode => mode

/-- The byte at `offset` takes the reader from the mode by the first step, and by the second without
places. Only a `<` outside all markup begins a tag, and only a `>` ends one. -/
inductive Moves (offset : Nat) (b : UInt8) (mode : Mode) : Step → Step → Prop where
  | fail (givenBack : Bool) (cause : Cause) :
      Moves offset b mode (.fail givenBack cause) (.fail givenBack cause)
  | next {next : Mode} (hstart : next.start? = mode.start? ∨ next.start? = none)
      (hstage : next.stage = mode.stage) : Moves offset b mode (.next next) (.next next.unplaced)
  | less {run : Run} (hmode : mode = .text .content run) (hb : b = '<'.toUInt8) :
      Moves offset b mode (.next (.less offset)) (.next (.less 0))
  | textLess {run : Run} (cs : List Char) (hmode : mode = .text .content run) (hb : b = '<'.toUInt8) :
      Moves offset b mode (.out (.text cs) (.less offset)) (.out (.text cs) (.less 0))
  | text (cs : List Char) (hstage : mode.stage = .outside) :
      Moves offset b mode (.out (.text cs) .content) (.out (.text cs) .content)
  | openTag {tag : Tag} (closed : Bool) (hstart : mode.start? = some tag.start)
      (hstage : mode.stage = .inside) (hb : b = '>'.toUInt8) :
      Moves offset b mode (.out (tag.lexeme closed) .content) (.out (tag.unplaced.lexeme closed) .content)
  | closeTag (name : QName) (hstage : mode.stage = .inside) (hb : b = '>'.toUInt8) :
      Moves offset b mode (.out (.closeTag name) .content) (.out (.closeTag name) .content)

section
variable (offset : Nat) (b : UInt8) {mode : Mode}

theorem referenceStep_moves (place : Place) (run : Run) (raw : Bytes) (form : Form) :
    Moves offset b (.reference place run raw form) (referenceStep place run raw form b)
      (referenceStep place.unplaced run raw form b) := by
  -- a reference goes on reading where it stands, or returns there with its character
  have hend : ∀ char?, Moves offset b (.reference place run raw form)
      (endReference place run raw char?) (endReference place.unplaced run raw char?) := by
    intro char?
    cases char? with
    | none => exact .fail ..
    | some c => exact .next (.inl rfl) rfl
  have hname : Moves offset b (.reference place run raw form) (referenceName place run raw b)
      (referenceName place.unplaced run raw b) := by
    unfold referenceName
    split
    · exact .next (.inl rfl) rfl
    split
    · exact hend _
    · exact .fail ..
  have hnumber : ∀ base value, Moves offset b (.reference place run raw form)
      (referenceNumber place run raw base value b)
      (referenceNumber place.unplaced run raw base value b) := by
    intro base value
    unfold referenceNumber
    split
    · exact .next (.inl rfl) rfl
    split
    · exact hend _
    · exact .fail ..
  cases form with
  | unknown =>
    simp only [referenceStep]
    split
    · exact .next (.inl rfl) rfl
    · exact hname
  | hash =>
    simp only [referenceStep]
    split
    · exact .next (.inl rfl) rfl
    · exact hnumber _ _
  | number base value => exact hnumber _ _
  | name => exact hname

theorem contentStep_moves (run : Run) :
    Moves offset b (.text .content run) (contentStep offset run b) (contentStep 0 run b) := by
  unfold contentStep
  split
  · exact .fail ..
  split
  · rename_i hb
    split
    · exact .fail ..
    · exact .less rfl (eq_of_beq hb)
    · exact .textLess _ rfl (eq_of_beq hb)
  split
  · exact .next (.inl rfl) rfl
  · exact .next (.inl rfl) rfl

theorem cdataStep_moves (run : Run) :
    Moves offset b (.text .cdata run) (cdataStep run b) (cdataStep run b) := by
  unfold cdataStep
  split
  · split
    · exact .fail ..
    · exact .text _ rfl
  · exact .next (.inl rfl) rfl

section
variable {tag : Tag} (hstart : mode.start? = some tag.start) (hstage : mode.stage = .inside)
include hstart hstage

theorem valueStep_moves (quote : UInt8) (attr : QName) (run : Run) :
    Moves offset b mode (valueStep quote tag attr run b) (valueStep quote tag.unplaced attr run b) := by
  unfold valueStep
  split
  · exact .fail ..
  split
  · split
    · exact .fail ..
    · exact .next (.inl hstart.symm) hstage.symm
  split
  · exact .next (.inl hstart.symm) hstage.symm
  · exact .next (.inl hstart.symm) hstage.symm

theorem attrQuoteStep_moves (attr : QName) :
    Moves offset b mode (attrQuoteStep tag attr b) (attrQuoteStep tag.unplaced attr b) := by
  unfold attrQuoteStep
  split
  · exact .next (.inl hstart.symm) hstage.symm
  split
  · exact .next (.inl hstart.symm) hstage.symm
  · exact .fail ..

theorem attrEqualsStep_moves (attr : QName) :
    Moves offset b mode (attrEqualsStep tag attr b) (attrEqualsStep tag.unplaced attr b) := by
  unfold attrEqualsStep
  split
  · exact .next (.inl hstart.symm) hstage.symm
  split
  · exact .next (.inl hstart.symm) hstage.symm
  · exact .fail ..

theorem attrNameStep_moves (seen : Bytes) :
    Moves offset b mode (attrNameStep tag seen b) (attrNameStep tag.unplaced seen b) := by
  unfold attrNameStep
  split
  · exact .next (.inl hstart.symm) hstage.symm
  split
  · exact .fail ..
  · exact attrEqualsStep_moves offset b hstart hstage _

theorem tagBodyStep_moves :
    Moves offset b mode (tagBodyStep tag b) (tagBodyStep tag.unplaced b) := by
  unfold tagBodyStep
  split
  · exact .next (.inl hstart.symm) hstage.symm
  split
  · exact .next (.inl hstart.symm) hstage.symm
  split
  · rename_i hb
    exact .openTag false hstart hstage (eq_of_beq hb)
  · exact attrNameStep_moves offset b hstart hstage []

theorem tagSlashStep_moves :
    Moves offset b mode (tagSlashStep tag b) (tagSlashStep tag.unplaced b) := by
  unfold tagSlashStep
  split
  · rename_i hb
    exact .openTag true hstart hstage (eq_of_beq hb)
  · exact .fail ..

end

theorem openNameStep_moves (start : Nat) (seen : Bytes) :
    Moves offset b (.openName start seen) (openNameStep start seen b) (openNameStep 0 seen b) := by
  unfold openNameStep
  split
  · exact .next (.inl rfl) rfl
  split
  · exact .fail ..
  · exact @tagBodyStep_moves offset b _ ⟨start, _, []⟩ rfl rfl

section
variable (hstage : mode.stage = .inside)
include hstage

theorem closeEndStep_moves (name : QName) :
    Moves offset b mode (closeEndStep name b) (closeEndStep name b) := by
  unfold closeEndStep
  split
  · exact .next (.inr rfl) hstage.symm
  split
  · rename_i hb
    exact .closeTag name hstage (eq_of_beq hb)
  · exact .fail ..

theorem closeNameStep_moves (seen : Bytes) :
    Moves offset b mode (closeNameStep seen b) (closeNameStep seen b) := by
  unfold closeNameStep
  split
  · exact .next (.inr rfl) hstage.symm
  split
  · exact .fail ..
  · exact closeEndStep_moves offset b hstage _

end

section
variable (hstage : mode.stage = .outside)
include hstage

theorem instructionStep_moves (target : List Char) (body : Bytes) (last : UInt8) :
    Moves offset b mode (instructionStep target body last b) (instructionStep target body last b) := by
  unfold instructionStep
  split
  · split
    · exact .fail ..
    · exact .next (.inr rfl) hstage.symm
  · exact .next (.inr rfl) hstage.symm

theorem targetSpaceStep_moves (target : List Char) :
    Moves offset b mode (targetSpaceStep target b) (targetSpaceStep target b) := by
  unfold targetSpaceStep
  split
  · exact .next (.inr rfl) hstage.symm
  · exact instructionStep_moves offset b hstage target [] 0

theorem targetNameStep_moves (seen : Bytes) :
    Moves offset b mode (targetNameStep seen b) (targetNameStep seen b) := by
  unfold targetNameStep
  split
  · exact .next (.inr rfl) hstage.symm
  split
  · exact .fail ..
  · exact targetSpaceStep_moves offset b hstage _

theorem bangStep_moves : Moves offset b mode (bangStep b) (bangStep b) := by
  unfold bangStep
  split
  · exact .next (.inr rfl) hstage.symm
  split
  · exact .next (.inr rfl) hstage.symm
  · exact .next (.inr rfl) hstage.symm

theorem bangDashStep_moves : Moves offset b mode (bangDashStep b) (bangDashStep b) := by
  unfold bangDashStep
  split
  · exact .next (.inr rfl) hstage.symm
  · exact .fail ..

theorem commentStep_moves (before last : UInt8) :
    Moves offset b mode (commentStep before last b) (commentStep before last b) := by
  unfold commentStep
  split
  · split
    · exact .next (.inr rfl) hstage.symm
    · exact .fail ..
  · exact .next (.inr rfl) hstage.symm

theorem cdataMarkStep_moves (todo : Bytes) :
    Moves offset b mode (cdataMarkStep todo b) (cdataMarkStep todo b) := by
  unfold cdataMarkStep
  split
  · exact .fail ..
  split
  · exact .fail ..
  split
  · exact .next (.inr rfl) hstage.symm
  · exact .next (.inr rfl) hstage.symm

theorem directiveByte_moves (depth : Nat) :
    Moves offset b mode (directiveByte depth b) (directiveByte depth b) := by
  unfold directiveByte
  split
  · exact .next (.inr rfl) hstage.symm
  split
  · exact .next (.inr rfl) hstage.symm
  split
  · exact .next (.inr rfl) hstage.symm
  · exact .next (.inr rfl) hstage.symm

theorem directiveStep_moves (quote : Option UInt8) (depth : Nat) :
    Moves offset b mode (directiveStep quote depth b) (directiveStep quote depth b) := by
  unfold directiveStep
  split
  · exact .next (.inr rfl) hstage.symm
  split
  · exact .next (.inr rfl) hstage.symm
  · exact directiveByte_moves offset b hstage depth

theorem directiveMarkStep_moves (depth : Nat) (todo : Bytes) :
    Moves offset b mode (directiveMarkStep depth todo b) (directiveMarkStep depth todo b) := by
  unfold directiveMarkStep
  split
  · exact directiveByte_moves offset b hstage (depth + 1)
  split
  · exact directiveByte_moves offset b hstage (depth + 1)
  split
  · exact .next (.inr rfl) hstage.symm
  · exact .next (.inr rfl) hstage.symm

theorem directiveCommentStep_moves (depth : Nat) (before last : UInt8) :
    Moves offset b mode (directiveCommentStep depth before last b)
      (directiveCommentStep depth before last b) := by
  unfold directiveCommentStep
  split
  · exact .next (.inr rfl) hstage.symm
  · exact .next (.inr rfl) hstage.symm

end

theorem lessStep_moves (start : Nat) :
    Moves offset b (if b = '!'.toUInt8 ∨ b = '?'.toUInt8 then .bang else .openName start [])
      (lessStep start b) (lessStep 0 b) := by
  by_cases hslash : b = '/'.toUInt8
  · subst hslash
    exact .next (.inr rfl) rfl
  by_cases hquestion : b = '?'.toUInt8
  · subst hquestion
    exact .next (.inr rfl) rfl
  by_cases hbang : b = '!'.toUInt8
  · subst hbang
    exact .next (.inr rfl) rfl
  have hname : ∀ start, lessStep start b = openNameStep start [] b := by
    simp [lessStep, hslash, hquestion, hbang]
  rw [hname, hname, if_neg (by simp [hbang, hquestion])]
  exact openNameStep_moves offset b start []

theorem step_moves (mode : Mode) (h : mode.stage ≠ .begun) :
    Moves offset b mode (step offset mode b) (step 0 mode.unplaced b) := by
  cases mode with
  | text place run =>
    cases place with
    | content => exact contentStep_moves offset b run
    | cdata => exact cdataStep_moves offset b run
    | value quote tag attr => exact valueStep_moves offset b rfl rfl quote attr run
  | reference place run raw form => exact referenceStep_moves offset b place run raw form
  | less start => exact absurd rfl h
  | closeName seen => exact closeNameStep_moves offset b rfl seen
  | closeEnd name => exact closeEndStep_moves offset b rfl name
  | targetName seen => exact targetNameStep_moves offset b rfl seen
  | targetSpace target => exact targetSpaceStep_moves offset b rfl target
  | instruction target body last => exact instructionStep_moves offset b rfl target body last
  | bang => exact bangStep_moves offset b rfl
  | bangDash => exact bangDashStep_moves offset b rfl
  | comment before last => exact commentStep_moves offset b rfl before last
  | cdataMark todo => exact cdataMarkStep_moves offset b rfl todo
  | directive quote depth => exact directiveStep_moves offset b rfl quote depth
  | directiveMark depth todo => exact directiveMarkStep_moves offset b rfl depth todo
  | directiveComment depth before last =>
    exact directiveCommentStep_moves offset b rfl depth before last
  | openName start seen => exact openNameStep_moves offset b start seen
  | tagBody tag => exact tagBodyStep_moves offset b rfl rfl
  | tagSlash tag => exact tagSlashStep_moves offset b rfl rfl
  | attrName tag seen => exact attrNameStep_moves offset b rfl rfl seen
  | attrEquals tag attr => exact attrEqualsStep_moves offset b rfl rfl attr
  | attrQuote tag attr => exact attrQuoteStep_moves offset b rfl rfl attr

theorem less_of_begun (h : mode.stage = .begun) : ∃ start, mode = .less start := by
  cases mode with
  | less start => exact ⟨start, rfl⟩
  | text place run => cases place <;> cases h
  | reference place run raw form => cases place <;> cases h
  | _ => cases h

end
end CodecGen.Markup
