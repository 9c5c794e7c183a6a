import CodecGen.Resolve.Diagnostic
set_option autoImplicit false
/-!
Results with the notes made on the way to them: errors, warnings, and which imports were used.
-/
namespace CodecGen.Resolve

inductive Note where
  | error (e : Error)
  | warning (w : Warning)
  | used (index : Nat)
deriving DecidableEq, Repr

def Note.error? : Note → Option Error
  | error e => some e
  | _ => none

def Note.warning? : Note → Option Warning
  | warning w => some w
  | _ => none

structure Noted (α : Type) where
  value : α
  notes : List Note

namespace Noted

def ofValue {α : Type} (a : α) : Noted α := ⟨a, []⟩

def andThen {α β : Type} (x : Noted α) (f : α → Noted β) : Noted β :=
  let y := f x.value
  ⟨y.value, x.notes ++ y.notes⟩

instance : Monad Noted where
  pure := ofValue
  bind := andThen

@[simp] theorem value_pure {α : Type} (a : α) : (pure a : Noted α).value = a := rfl

@[simp] theorem notes_pure {α : Type} (a : α) : (pure a : Noted α).notes = [] := rfl

@[simp] theorem value_bind {α β : Type} (x : Noted α) (f : α → Noted β) :
    (x >>= f).value = (f x.value).value := rfl

@[simp] theorem notes_bind {α β : Type} (x : Noted α) (f : α → Noted β) :
    (x >>= f).notes = x.notes ++ (f x.value).notes := rfl

instance : LawfulMonad Noted := LawfulMonad.mk' Noted
  (by intro α x; cases x; simp [Functor.map, andThen, ofValue])
  (by intro α β a f; simp [Bind.bind, Pure.pure, andThen, ofValue])
  (by intro α β γ x f g; simp [Bind.bind, andThen])

def errors {α : Type} (x : Noted α) : List Error := x.notes.filterMap Note.error?

def warnings {α : Type} (x : Noted α) : List Warning := x.notes.filterMap Note.warning?

end Noted

def noteError (cause : ErrorCause) (span : Span) : Noted Unit := ⟨(), [.error ⟨cause, span⟩]⟩

def noteWarning (cause : WarningCause) (span : Span) : Noted Unit := ⟨(), [.warning ⟨cause, span⟩]⟩

def refuse {α : Type} (cause : ErrorCause) (span : Span) : Noted (Option α) :=
  ⟨none, [.error ⟨cause, span⟩]⟩

end CodecGen.Resolve
