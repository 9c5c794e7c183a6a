import CodecGen.Proofs.Containment
import CodecGen.Resolve.Spelling
set_option autoImplicit false
/-!
What the layouts of messages are built from. Lists, computed fields, switches and their branches are
built around leaves: scalars, pads, declared types and mentions of such. Spelling out replaces leaves
and keeps what is built around them.
-/
namespace CodecGen.Schema

def Expr.sound : Expr → Bool
  | .absent | .fieldLen _ => false
  | .binary _ lhs rhs => lhs.sound && rhs.sound
  | .complement operand | .popCount operand => operand.sound
  | .sumOf _ .absent => true
  | .sumOf _ summand => summand.sound
  | _ => true

def lengthFits (name : String) : Ty → Bool
  | .list _ _ (some (.fieldLen list)) => list == name
  | .list _ _ (some length) => length.sound
  | _ => true

mutual

/-- No type is missing, all expressions are sound, and every branch selects in one way. -/
def wellFormed : Ty → Bool
  | .absent => false
  | .union _ fields | .container _ _ fields => wellFormedIn fields
  | .list member _ _ => wellFormed member
  | .exprField base value => wellFormed base && value.sound
  | .switch _ selector cases => selector.sound && wellFormedIn cases
  | .case _ byValue byMask selectors fields =>
    (byValue != byMask) && selectors.all Expr.sound && wellFormedIn fields
  | _ => true

def wellFormedIn : List Field → Bool
  | [] => true
  | ⟨name, type, _, _⟩ :: rest => lengthFits name type && wellFormed type && wellFormedIn rest

end

mutual

/-- The type is well-formed as far as it is built around leaves, and these satisfy `A`. -/
def Built (A : Ty → Prop) : Ty → Prop
  | .list member _ _ => Built A member
  | .exprField base value => Built A base ∧ value.sound = true
  | .switch _ selector cases => selector.sound = true ∧ BuiltIn A cases
  | .case _ byValue byMask selectors fields =>
    (byValue != byMask) = true ∧ selectors.all Expr.sound = true ∧ BuiltIn A fields
  | leaf => A leaf

def BuiltIn (A : Ty → Prop) : List Field → Prop
  | [] => True
  | ⟨name, type, _, _⟩ :: rest => lengthFits name type = true ∧ Built A type ∧ BuiltIn A rest

end

/-- A leaf of a resolved layout. Messages of other modules are spelled out as far as they can be, and
`Own` says what may be mentioned. -/
def Leaf (Own : Kind → Name → Prop) : Ty → Prop
  | .simple _ | .enum .. | .pad .. => True
  | .union _ fields => wellFormedIn fields = true
  | .mention kind name => Own kind name
  | .container shape name fields =>
    Settled (.container shape name fields) ∧ wellFormedIn fields = true
  | _ => False

def isLeaf : Ty → Bool
  | .list .. | .exprField .. | .switch .. | .case .. => false
  | _ => true

theorem isLeaf_of_leaf {Own : Kind → Name → Prop} {u : Ty} (h : Leaf Own u) : isLeaf u = true := by
  cases u with
  | list | exprField | switch | case => exact h.elim
  | _ => rfl

theorem lengthFits_of_isLeaf {t : Ty} (h : isLeaf t = true) (name : String) :
    lengthFits name t = true := by
  cases t with
  | list => cases h
  | _ => rfl

theorem eq_of_mem_messagesOf {t u : Ty} (h : isLeaf t = true) (hu : u ∈ messagesOf t) : u = t := by
  cases t with
  | container | mention => exact List.mem_singleton.mp hu
  | list | exprField | switch | case => cases h
  | _ => cases hu

section
variable {A B : Ty → Prop}

theorem built_of_isLeaf {t : Ty} (h : isLeaf t = true) (hA : A t) : Built A t := by
  cases t with
  | list | exprField | switch | case => cases h
  | _ => exact hA

theorem builtIn_iff {fields : List Field} :
    BuiltIn A fields ↔ ∀ f ∈ fields, lengthFits f.name f.type = true ∧ Built A f.type := by
  induction fields with
  | nil => simp [BuiltIn]
  | cons f rest ih =>
    obtain ⟨name, type, wire, visible⟩ := f
    simp [BuiltIn, ih, and_assoc]

theorem builtIn_append {fields more : List Field} :
    BuiltIn A (fields ++ more) ↔ BuiltIn A fields ∧ BuiltIn A more := by
  simp only [builtIn_iff, List.forall_mem_append]

mutual

theorem wellFormed_of_built (t : Ty) (h : Built A t) (hA : ∀ u, A u → wellFormed u = true) :
    wellFormed t = true := by
  cases t with
  | list member count length => exact wellFormed_of_built member h hA
  | exprField base value =>
    rw [wellFormed, Bool.and_eq_true]
    exact ⟨wellFormed_of_built base h.1 hA, h.2⟩
  | switch name selector cases =>
    rw [wellFormed, Bool.and_eq_true]
    exact ⟨h.1, wellFormedIn_of_built cases h.2 hA⟩
  | case name byValue byMask selectors fields =>
    rw [wellFormed, Bool.and_eq_true, Bool.and_eq_true]
    exact ⟨⟨h.1, h.2.1⟩, wellFormedIn_of_built fields h.2.2 hA⟩
  | _ => exact hA _ h

theorem wellFormedIn_of_built (fields : List Field) (h : BuiltIn A fields)
    (hA : ∀ u, A u → wellFormed u = true) : wellFormedIn fields = true := by
  match fields with
  | [] => rfl
  | ⟨name, type, wire, visible⟩ :: rest =>
    rw [wellFormedIn, Bool.and_eq_true, Bool.and_eq_true]
    exact ⟨⟨h.1, wellFormed_of_built type h.2.1 hA⟩, wellFormedIn_of_built rest h.2.2 hA⟩

end

mutual

theorem built_message (t : Ty) {u : Ty} (h : Built A t) (hu : u ∈ messagesOf t) : A u := by
  cases t with
  | container shape name fields | mention kind name =>
    obtain rfl : u = _ := by simpa [messagesOf] using hu
    exact h
  | list member count length => exact built_message member h hu
  | switch name selector cases => exact builtIn_message cases h.2 hu
  | case name byValue byMask selectors fields => exact builtIn_message fields h.2.2 hu
  | _ => simp [messagesOf] at hu

theorem builtIn_message (fields : List Field) {u : Ty} (h : BuiltIn A fields)
    (hu : u ∈ messagesIn fields) : A u := by
  match fields with
  | [] => simp [messagesIn] at hu
  | ⟨name, type, wire, visible⟩ :: rest =>
    rw [messagesIn, List.mem_append] at hu
    rcases hu with hu | hu
    · exact built_message type h.2.1 hu
    · exact builtIn_message rest h.2.2 hu

end

end
end CodecGen.Schema

namespace CodecGen.Resolve
open Schema

mutual

theorem replaceMentions_mention (t : Ty) : replaceMentions .mention t = t := by
  cases t with
  | list member count length => rw [replaceMentions, replaceMentions_mention member]
  | exprField base value => rw [replaceMentions, replaceMentions_mention base]
  | switch name selector cases => rw [replaceMentions, replaceInFields_mention cases]
  | case name byValue byMask selectors fields =>
    rw [replaceMentions, replaceInFields_mention fields]
  | _ => rfl

theorem replaceInFields_mention (fields : List Field) : replaceInFields .mention fields = fields := by
  match fields with
  | [] => rfl
  | ⟨name, type, wire, visible⟩ :: rest =>
    rw [replaceInFields, replaceMentions_mention type, replaceInFields_mention rest]

end

section
variable {A B : Ty → Prop} {P : Name → Prop} {f g : Kind → Name → Ty}

mutual

theorem mem_messagesOf_replace (t : Ty) {u : Ty} (h : u ∈ messagesOf (replaceMentions f t)) :
    ∃ v ∈ messagesOf t, u ∈ messagesOf (replaceMentions f v) := by
  cases t with
  | container shape name fields | mention kind name => exact ⟨_, by simp [messagesOf], h⟩
  | list member count length => exact mem_messagesOf_replace member h
  | switch name selector cases => exact mem_messagesIn_replace cases h
  | case name byValue byMask selectors fields => exact mem_messagesIn_replace fields h
  | _ => simp [replaceMentions, messagesOf] at h

theorem mem_messagesIn_replace (fields : List Field) {u : Ty}
    (h : u ∈ messagesIn (replaceInFields f fields)) :
    ∃ v ∈ messagesIn fields, u ∈ messagesOf (replaceMentions f v) := by
  match fields with
  | [] => simp [replaceInFields, messagesIn] at h
  | ⟨name, type, wire, visible⟩ :: rest =>
    rw [replaceInFields, messagesIn, List.mem_append] at h
    rcases h with h | h
    · obtain ⟨v, hv, hu⟩ := mem_messagesOf_replace type h
      exact ⟨v, by simp [messagesIn, hv], hu⟩
    · obtain ⟨v, hv, hu⟩ := mem_messagesIn_replace rest h
      exact ⟨v, by simp [messagesIn, hv], hu⟩

end

mutual

theorem mentioned_of_message (t : Ty) {kind : Kind} {name : Name}
    (h : .mention kind name ∈ messagesOf t) : name ∈ mentionedBy t := by
  cases t with
  | mention kind' name' =>
    obtain ⟨rfl, rfl⟩ : kind = kind' ∧ name = name' := by simpa [messagesOf] using h
    simp [mentionedBy]
  | list member count length => exact mentioned_of_message member h
  | switch n selector cases => exact mentioned_of_messageIn cases h
  | case n byValue byMask selectors fields => exact mentioned_of_messageIn fields h
  | _ => simp [messagesOf] at h

theorem mentioned_of_messageIn (fields : List Field) {kind : Kind} {name : Name}
    (h : .mention kind name ∈ messagesIn fields) : name ∈ mentionedIn fields := by
  match fields with
  | [] => simp [messagesIn] at h
  | ⟨n, type, wire, visible⟩ :: rest =>
    rw [messagesIn, List.mem_append] at h
    rw [mentionedIn, List.mem_append]
    exact h.imp (mentioned_of_message type) (mentioned_of_messageIn rest)

end

mutual

theorem cut_replace (t : Ty) (h : Built A t)
    (hA : ∀ u, A u → Cut (replaceMentions f u) (replaceMentions g u)) :
    Cut (replaceMentions f t) (replaceMentions g t) := by
  cases t with
  | list member count length => exact .list (cut_replace member h hA)
  | exprField base value => exact .exprField (cut_replace base h.1 hA)
  | switch name selector cases => exact .switch (cutFields_replace cases h.2 hA)
  | case name byValue byMask selectors fields => exact .case (cutFields_replace fields h.2.2 hA)
  | _ => exact hA _ h

theorem cutFields_replace (fields : List Field) (h : BuiltIn A fields)
    (hA : ∀ u, A u → Cut (replaceMentions f u) (replaceMentions g u)) :
    CutFields (replaceInFields f fields) (replaceInFields g fields) := by
  match fields with
  | [] => exact .nil
  | ⟨name, type, wire, visible⟩ :: rest =>
    exact .cons (cut_replace type h.2.1 hA) (cutFields_replace rest h.2.2 hA)

end

theorem lengthFits_replace {name : String} {t : Ty} (h : Built A t) (hfits : lengthFits name t = true)
    (hleaf : ∀ u, A u → isLeaf (replaceMentions f u) = true) :
    lengthFits name (replaceMentions f t) = true := by
  cases t with
  | list member count length =>
    cases length with
    | none => rfl
    | some length => cases length <;> exact hfits
  | exprField | switch | case => rfl
  | _ => exact lengthFits_of_isLeaf (hleaf _ h) name

mutual

/-- Leaves may be replaced by other leaves. Only those have to be looked at that mention names with the
property `P`, if all mentioned names have it. -/
theorem built_replace (t : Ty) (h : Built A t) (hP : ∀ n ∈ mentionedBy t, P n)
    (hA : ∀ u, A u → (∀ n ∈ mentionedBy u, P n) → B (replaceMentions f u))
    (hleaf : ∀ u, A u → isLeaf (replaceMentions f u) = true) :
    Built B (replaceMentions f t) := by
  cases t with
  | list member count length => exact built_replace member h hP hA hleaf
  | exprField base value => exact ⟨built_replace base h.1 hP hA hleaf, h.2⟩
  | switch name selector cases => exact ⟨h.1, builtIn_replace cases h.2 hP hA hleaf⟩
  | case name byValue byMask selectors fields =>
    exact ⟨h.1, h.2.1, builtIn_replace fields h.2.2 hP hA hleaf⟩
  | _ => exact built_of_isLeaf (hleaf _ h) (hA _ h hP)

theorem builtIn_replace (fields : List Field) (h : BuiltIn A fields)
    (hP : ∀ n ∈ mentionedIn fields, P n)
    (hA : ∀ u, A u → (∀ n ∈ mentionedBy u, P n) → B (replaceMentions f u))
    (hleaf : ∀ u, A u → isLeaf (replaceMentions f u) = true) :
    BuiltIn B (replaceInFields f fields) := by
  match fields with
  | [] => exact trivial
  | ⟨name, type, wire, visible⟩ :: rest =>
    rw [mentionedIn, List.forall_mem_append] at hP
    exact ⟨lengthFits_replace h.2.1 h.1 hleaf,
      built_replace type h.2.1 hP.1 hA hleaf, builtIn_replace rest h.2.2 hP.2 hA hleaf⟩

end

theorem builtIn_mono (fields : List Field) (h : BuiltIn A fields) (hA : ∀ u, A u → B u)
    (hleaf : ∀ u, A u → isLeaf u = true) : BuiltIn B fields := by
  rw [← replaceInFields_mention fields]
  refine builtIn_replace (P := fun _ => True) fields h (fun _ _ => trivial) ?_ ?_
  · intro u hu _
    rw [replaceMentions_mention]
    exact hA u hu
  · intro u hu
    rw [replaceMentions_mention]
    exact hleaf u hu

end

end CodecGen.Resolve
