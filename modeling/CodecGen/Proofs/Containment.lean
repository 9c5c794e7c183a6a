import CodecGen.Schema.Module
import Mathlib.Logic.Relation
set_option autoImplicit false
/-!
Messages that contain one another. A message contains those of its fields, of the lists among them
and of the branches of its switches. Types are trees, so a message that contains itself has below it
the same message spelled out less deep, a cut of it. A type is complete when it has no end at which a
message is only mentioned; complete types never contain themselves.
-/
namespace CodecGen.Schema

def Kind.isMessage : Kind → Bool
  | .struct | .request | .reply | .event | .error => true
  | _ => false

@[simp] theorem isMessage_kind (shape : Shape) : shape.kind.isMessage = true := by
  cases shape <;> rfl

mutual

/-- The messages that a type holds, through lists and the branches of switches, and what it only
mentions. The messages inside those are not among them. -/
def messagesOf : Ty → List Ty
  | .container shape name fields => [.container shape name fields]
  | .mention kind name => [.mention kind name]
  | .list member _ _ => messagesOf member
  | .switch _ _ cases => messagesIn cases
  | .case _ _ _ _ fields => messagesIn fields
  | _ => []

def messagesIn : List Field → List Ty
  | [] => []
  | ⟨_, type, _, _⟩ :: rest => messagesOf type ++ messagesIn rest

end

def Contains (t u : Ty) : Prop :=
  ∃ shape name fields, t = .container shape name fields ∧ u ∈ messagesIn fields

theorem contains_container {shape : Shape} {name : Name} {fields : List Field} {u : Ty}
    (h : u ∈ messagesIn fields) : Contains (.container shape name fields) u :=
  ⟨shape, name, fields, rfl, h⟩

mutual

/-- The first type is the second, or the second spelled out less deep. -/
inductive Cut : Ty → Ty → Prop where
  | refl (t : Ty) : Cut t t
  | message (shape : Shape) (name : Name) (fields : List Field) :
      Cut (.mention shape.kind name) (.container shape name fields)
  | unionName (name : Name) (fields : List Field) : Cut (.mention .union name) (.union name fields)
  | enumName (name : Name) (values bits : List EnumItem) :
      Cut (.mention .enum name) (.enum name values bits)
  | container {shape : Shape} {name : Name} {cut fields : List Field} (h : CutFields cut fields) :
      Cut (.container shape name cut) (.container shape name fields)
  | union {name : Name} {cut fields : List Field} (h : CutFields cut fields) :
      Cut (.union name cut) (.union name fields)
  | list {count : Int} {length : Option Expr} {cut member : Ty} (h : Cut cut member) :
      Cut (.list cut count length) (.list member count length)
  | exprField {value : Expr} {cut base : Ty} (h : Cut cut base) :
      Cut (.exprField cut value) (.exprField base value)
  | switch {name : Name} {selector : Expr} {cut cases : List Field} (h : CutFields cut cases) :
      Cut (.switch name selector cut) (.switch name selector cases)
  | case {name : Name} {byValue byMask : Bool} {selectors : List Expr} {cut fields : List Field}
      (h : CutFields cut fields) :
      Cut (.case name byValue byMask selectors cut) (.case name byValue byMask selectors fields)

inductive CutFields : List Field → List Field → Prop where
  | nil : CutFields [] []
  | cons {name : String} {wire visible : Bool} {cut type : Ty} {cuts fields : List Field}
      (h : Cut cut type) (rest : CutFields cuts fields) :
      CutFields (⟨name, cut, wire, visible⟩ :: cuts) (⟨name, type, wire, visible⟩ :: fields)

end

/-- The message stands again below itself, as deep as it is spelled out there. -/
def ContainsItself (t : Ty) : Prop := ∃ u, Relation.TransGen Contains t u ∧ Cut u t

def Endless (t : Ty) : Prop := ∃ u, Relation.ReflTransGen Contains t u ∧ ContainsItself u

theorem not_endless_of_contains {t u : Ty} (h : ¬ Endless t) (hu : Contains t u) : ¬ Endless u := by
  rintro ⟨c, hc, hself⟩
  exact h ⟨c, .head hu hc, hself⟩

theorem not_containsItself {t : Ty} (h : ¬ Endless t) : ¬ ContainsItself t :=
  fun hself => h ⟨t, .refl, hself⟩

mutual

def complete : Ty → Bool
  | .container _ _ fields => completeIn fields
  | .mention kind _ => !kind.isMessage
  | .list member _ _ => complete member
  | .switch _ _ cases => completeIn cases
  | .case _ _ _ _ fields => completeIn fields
  | _ => true

def completeIn : List Field → Bool
  | [] => true
  | ⟨_, type, _, _⟩ :: rest => complete type && completeIn rest

end

mutual

theorem complete_of_messages (t : Ty) (h : ∀ u ∈ messagesOf t, complete u = true) :
    complete t = true := by
  cases t with
  | container shape name fields | mention kind name => exact h _ (by simp [messagesOf])
  | list member count length => exact complete_of_messages member h
  | switch name selector cases => exact completeIn_of_messages cases h
  | case name byValue byMask selectors fields => exact completeIn_of_messages fields h
  | _ => rfl

theorem completeIn_of_messages (fields : List Field)
    (h : ∀ u ∈ messagesIn fields, complete u = true) : completeIn fields = true := by
  match fields with
  | [] => rfl
  | ⟨name, type, wire, visible⟩ :: rest =>
    rw [completeIn, Bool.and_eq_true]
    exact ⟨complete_of_messages type fun u hu => h u (by simp [messagesIn, hu]),
      completeIn_of_messages rest fun u hu => h u (by simp [messagesIn, hu])⟩

end

mutual

theorem complete_message (t : Ty) {u : Ty} (h : complete t = true) (hu : u ∈ messagesOf t) :
    complete u = true := by
  cases t with
  | container shape name fields | mention kind name =>
    obtain rfl : u = _ := by simpa [messagesOf] using hu
    exact h
  | list member count length => exact complete_message member h hu
  | switch name selector cases => exact completeIn_message cases h hu
  | case name byValue byMask selectors fields => exact completeIn_message fields h hu
  | _ => simp [messagesOf] at hu

theorem completeIn_message (fields : List Field) {u : Ty} (h : completeIn fields = true)
    (hu : u ∈ messagesIn fields) : complete u = true := by
  match fields with
  | [] => simp [messagesIn] at hu
  | ⟨name, type, wire, visible⟩ :: rest =>
    rw [completeIn, Bool.and_eq_true] at h
    rw [messagesIn, List.mem_append] at hu
    rcases hu with hu | hu
    · exact complete_message type h.1 hu
    · exact completeIn_message rest h.2 hu

end

mutual

def nesting : Ty → Nat
  | .container _ _ fields => nestingIn fields + 1
  | .list member _ _ => nesting member
  | .switch _ _ cases => nestingIn cases
  | .case _ _ _ _ fields => nestingIn fields
  | _ => 0

def nestingIn : List Field → Nat
  | [] => 0
  | ⟨_, type, _, _⟩ :: rest => max (nesting type) (nestingIn rest)

end

mutual

theorem nesting_message (t : Ty) {u : Ty} (h : u ∈ messagesOf t) : nesting u ≤ nesting t := by
  cases t with
  | container shape name fields | mention kind name =>
    obtain rfl : u = _ := by simpa [messagesOf] using h
    exact Nat.le_refl _
  | list member count length => exact nesting_message member h
  | switch name selector cases => exact nestingIn_message cases h
  | case name byValue byMask selectors fields => exact nestingIn_message fields h
  | _ => simp [messagesOf] at h

theorem nestingIn_message (fields : List Field) {u : Ty} (h : u ∈ messagesIn fields) :
    nesting u ≤ nestingIn fields := by
  match fields with
  | [] => simp [messagesIn] at h
  | ⟨name, type, wire, visible⟩ :: rest =>
    rw [messagesIn, List.mem_append] at h
    rw [nestingIn]
    rcases h with h | h
    · have := nesting_message type h
      omega
    · have := nestingIn_message rest h
      omega

end

theorem nesting_lt_of_contains {t u : Ty} (h : Contains t u) : nesting u < nesting t := by
  obtain ⟨shape, name, fields, rfl, hu⟩ := h
  exact Nat.lt_succ_of_le (nestingIn_message fields hu)

theorem nesting_lt_of_transGen {t u : Ty} (h : Relation.TransGen Contains t u) :
    nesting u < nesting t := by
  induction h with
  | single h => exact nesting_lt_of_contains h
  | tail _ h ih => exact Nat.lt_trans (nesting_lt_of_contains h) ih

mutual

theorem nesting_le_of_cut {u t : Ty} (h : Cut u t) (hu : complete u = true) :
    nesting t ≤ nesting u := by
  match h with
  | .refl _ => exact Nat.le_refl _
  | .message shape name fields => simp [complete] at hu
  | .unionName .. | .enumName .. | .union _ | .exprField _ => exact Nat.le_refl _
  | .container h => exact Nat.succ_le_succ (nestingIn_le_of_cut h hu)
  | @Cut.list _ _ cut member h =>
    change nesting member ≤ nesting cut
    exact nesting_le_of_cut h hu
  | .switch h => exact nestingIn_le_of_cut h hu
  | .case h => exact nestingIn_le_of_cut h hu

theorem nestingIn_le_of_cut {cut fields : List Field} (h : CutFields cut fields)
    (hcut : completeIn cut = true) : nestingIn fields ≤ nestingIn cut := by
  match h with
  | .nil => exact Nat.le_refl _
  | .cons h rest =>
    rw [completeIn, Bool.and_eq_true] at hcut
    rw [nestingIn, nestingIn]
    have := nesting_le_of_cut h hcut.1
    have := nestingIn_le_of_cut rest hcut.2
    omega

end

theorem complete_of_contains {t u : Ty} (h : complete t = true) (hu : Contains t u) :
    complete u = true := by
  obtain ⟨shape, name, fields, rfl, hu⟩ := hu
  exact completeIn_message fields h hu

theorem complete_of_reached {t u : Ty} (h : complete t = true)
    (hu : Relation.ReflTransGen Contains t u) : complete u = true := by
  induction hu with
  | refl => exact h
  | tail _ hu ih => exact complete_of_contains ih hu

theorem not_endless_of_complete {t : Ty} (h : complete t = true) : ¬ Endless t := by
  -- A complete cut is as deep as what it is a cut of, and yet stands below it.
  rintro ⟨c, hc, u, hu, hcut⟩
  have hcomplete : complete u = true :=
    complete_of_reached h (hc.trans hu.to_reflTransGen)
  have hlt := nesting_lt_of_transGen hu
  have hle := nesting_le_of_cut hcut hcomplete
  omega

/-- Only a type that contains itself somewhere is not spelled out to the end. -/
def Settled (t : Ty) : Prop := ¬ Endless t → complete t = true

end CodecGen.Schema
