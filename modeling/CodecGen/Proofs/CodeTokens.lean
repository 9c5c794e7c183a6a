import Mathlib.Data.List.SplitBy
import CodecGen.Emit.Naming
import CodecGen.Emit.Stmt
set_option autoImplicit false
/-!
Generated code as a C++ compiler takes it apart: words, runs of operator characters, and marks that
stand for themselves. Texts are put together from pieces, and where no token reaches across the seam
the tokens of the whole are those of its pieces.
-/
namespace CodecGen.Emit
open Schema

def isWordChar (c : Char) : Bool := c.isAlphanum || c == '_' || decide (128 ≤ c.toNat)

def isOperatorChar (c : Char) : Bool :=
  ['+', '-', '*', '/', '%', '&', '|', '^', '~', '!', '<', '>', '=', ':', ','].contains c

def isLoose (c : Char) : Bool := !isWordChar c && !isOperatorChar c

def joins (a b : Char) : Bool := isWordChar a && isWordChar b || isOperatorChar a && isOperatorChar b

inductive Token where
  | word (text : String)
  | operator (text : String)
  | mark (c : Char)
deriving DecidableEq, Repr

def Token.ofRun (run : List Char) : List Token :=
  match run with
  | [] => []
  | c :: _ =>
    if isWordChar c then [.word (String.ofList run)]
    else if isOperatorChar c then [.operator (String.ofList run)]
    else if c == ' ' then []
    else [.mark c]

/-- The tokens of a text, each as long as it can be. -/
def tokens (text : String) : List Token := (text.toList.splitBy joins).flatMap Token.ofRun

def isIdentifier (w : String) : Bool :=
  !w.toList.isEmpty && w.toList.all isWordChar && !startsWithDigit w

theorem isOperatorChar_of_isWordChar {c : Char} (h : isWordChar c = true) :
    isOperatorChar c = false := by
  cases hop : isOperatorChar c with
  | false => rfl
  | true =>
    have hmem := List.contains_iff_mem.mp hop
    simp only [List.mem_cons, List.not_mem_nil, or_false] at hmem
    rcases hmem with rfl | rfl | rfl | rfl | rfl | rfl | rfl | rfl | rfl | rfl | rfl | rfl | rfl | rfl |
      rfl <;> exact absurd h (by decide)

theorem joins_of_isLoose_left {a b : Char} (h : isLoose a = true) : joins a b = false := by
  simp only [isLoose, Bool.and_eq_true, Bool.not_eq_true'] at h
  simp [joins, h.1, h.2]

theorem joins_of_isLoose_right {a b : Char} (h : isLoose b = true) : joins a b = false := by
  simp only [isLoose, Bool.and_eq_true, Bool.not_eq_true'] at h
  simp [joins, h.1, h.2]

theorem joins_word_operator {a b : Char} (ha : isWordChar a = true) (hb : isOperatorChar b = true) :
    joins a b = false := by
  have hword : isWordChar b = false := by
    cases h : isWordChar b with
    | false => rfl
    | true =>
      rw [isOperatorChar_of_isWordChar h] at hb
      cases hb
  simp [joins, hword, isOperatorChar_of_isWordChar ha]

theorem joins_operator_word {a b : Char} (ha : isOperatorChar a = true) (hb : isWordChar b = true) :
    joins a b = false := by
  have h := joins_word_operator hb ha
  simp only [joins, Bool.or_eq_false_iff, Bool.and_comm] at h ⊢
  exact h

theorem tokens_append {x y : String}
    (h : ∀ a ∈ x.toList.getLast?, ∀ b ∈ y.toList.head?, joins a b = false) :
    tokens (x ++ y) = tokens x ++ tokens y := by
  unfold tokens
  rw [String.toList_append, List.splitBy_append h, List.flatMap_append]

/-- A text that no token reaches into from outside. -/
def isSeam (text : String) : Bool :=
  text.toList.head?.any isLoose && text.toList.getLast?.any isLoose

theorem tokens_append_seam (x : String) {y : String} (h : isSeam y = true) :
    tokens (x ++ y) = tokens x ++ tokens y := by
  rw [isSeam, Bool.and_eq_true] at h
  apply tokens_append
  intro a _ b hb
  rw [Option.mem_def.mp hb] at h
  exact joins_of_isLoose_right h.1

theorem tokens_seam_append {x : String} (y : String) (h : isSeam x = true) :
    tokens (x ++ y) = tokens x ++ tokens y := by
  rw [isSeam, Bool.and_eq_true] at h
  apply tokens_append
  intro a ha b _
  rw [Option.mem_def.mp ha] at h
  exact joins_of_isLoose_left h.2

theorem tokens_between (x y : String) {seam : String} (h : isSeam seam = true) :
    tokens (x ++ seam ++ y) = tokens x ++ tokens seam ++ tokens y := by
  rw [String.append_assoc, tokens_append, tokens_seam_append y h, List.append_assoc]
  intro a _ b hb
  rw [isSeam, Bool.and_eq_true] at h
  have hhead : seam.toList.head? = some b := by
    cases hseam : seam.toList with
    | nil =>
      rw [hseam] at h
      cases h.1
    | cons c cs =>
      rw [String.toList_append, hseam] at hb
      exact hb
  rw [hhead] at h
  exact joins_of_isLoose_right h.1

theorem isChain_joins {cs : List Char} (h : cs.all isWordChar = true) :
    cs.IsChain fun a b => joins a b = true := by
  induction cs with
  | nil => exact .nil
  | cons c cs ih =>
    cases cs with
    | nil => exact .singleton c
    | cons d cs =>
      simp only [List.all_cons, Bool.and_eq_true] at h ih
      exact .cons_cons (by simp [joins, h.1, h.2.1]) (ih h.2)

theorem tokens_word {w : String} (hne : w.toList ≠ []) (h : w.toList.all isWordChar = true) :
    tokens w = [.word w] := by
  unfold tokens
  rw [List.splitBy_of_isChain hne (isChain_joins h)]
  cases hw : w.toList with
  | nil => exact absurd hw hne
  | cons c cs =>
    rw [hw, List.all_cons, Bool.and_eq_true] at h
    have hback : String.ofList (c :: cs) = w := by rw [← hw, String.ofList_toList]
    simp [Token.ofRun, h.1, hback]

theorem tokens_identifier {w : String} (h : isIdentifier w = true) : tokens w = [.word w] := by
  simp only [isIdentifier, Bool.and_eq_true, Bool.not_eq_true', List.isEmpty_eq_false_iff] at h
  exact tokens_word h.1.1 h.1.2

theorem isWordChar_of_isIdentifier {w : String} (h : isIdentifier w = true) :
    w.toList.all isWordChar = true := by
  simp only [isIdentifier, Bool.and_eq_true] at h
  exact h.1.2

theorem startsWithDigit_append {w x : String} (h : w.toList ≠ []) :
    startsWithDigit (w ++ x) = startsWithDigit w := by
  unfold startsWithDigit
  rw [String.toList_append]
  cases hw : w.toList with
  | nil => exact absurd hw h
  | cons c cs => rfl

theorem isIdentifier_append {w x : String} (hw : isIdentifier w = true)
    (hx : x.toList.all isWordChar = true) : isIdentifier (w ++ x) = true := by
  simp only [isIdentifier, Bool.and_eq_true, Bool.not_eq_true', List.isEmpty_eq_false_iff] at hw ⊢
  rw [startsWithDigit_append hw.1.1, String.toList_append, List.all_append, hw.1.2, hx]
  exact ⟨⟨List.append_ne_nil_of_left_ne_nil hw.1.1 _, rfl⟩, hw.2⟩

theorem isIdentifier_safeName {w : String} (h : isIdentifier w = true) :
    isIdentifier (safeName w) = true := by
  unfold safeName
  split
  · exact isIdentifier_append (by decide) (isWordChar_of_isIdentifier h)
  · exact h

theorem isWordChar_toString (n : Nat) : (toString n).toList.all isWordChar = true := by
  rw [Nat.toString_eq_ofList_toDigits, String.toList_ofList, List.all_eq_true]
  intro c hc
  have hdigit := Nat.isDigit_of_mem_toDigits (by decide) (by decide) hc
  simp [isWordChar, Char.isAlphanum, hdigit]

theorem toList_toString_ne_nil (n : Nat) : (toString n).toList ≠ [] := by
  rw [Nat.toString_eq_ofList_toDigits, String.toList_ofList]
  exact Nat.toDigits_ne_nil

theorem tokens_toString (n : Nat) : tokens (toString n) = [.word (toString n)] :=
  tokens_word (toList_toString_ne_nil n) (isWordChar_toString n)

theorem startsWithDigit_toString (n : Nat) : startsWithDigit (toString n) = true := by
  unfold startsWithDigit
  cases hn : (toString n).toList with
  | nil => exact absurd hn (toList_toString_ne_nil n)
  | cons c cs =>
    rw [Nat.toString_eq_ofList_toDigits, String.toList_ofList] at hn
    exact Nat.isDigit_of_mem_toDigits (b := 10) (n := n) (by decide) (by decide) (by simp [hn])

theorem toString_nat_inj {n m : Nat} (h : toString n = toString m) : n = m := by
  have hread := congrArg (fun w => Nat.ofDigitChars 10 w.toList 0) h
  simpa only [Nat.toString_eq_ofList_toDigits, String.toList_ofList,
    Nat.ofDigitChars_ten_toDigits] using hread

theorem isIdentifier_sumName (n : Nat) : isIdentifier (sumName n) = true :=
  isIdentifier_append (isIdentifier_append (by decide) (isWordChar_toString n)) (by decide)

theorem mem_qualifiedPath {x : String} {t : Ty} (h : x ∈ qualifiedPath t) :
    x = "x11" ∨ x = "XProto" ∨ x ∈ t.typeName ∨ ∃ y ∈ t.typeName, x = y ++ typeSuffix t := by
  unfold qualifiedPath at h
  split at h
  · cases h
  rename_i hname
  have happended : ∀ y ∈ appendLast t.typeName (typeSuffix t),
      y ∈ t.typeName ∨ ∃ z ∈ t.typeName, y = z ++ typeSuffix t := by
    intro y hy
    rw [appendLast, List.mem_append, List.mem_singleton] at hy
    rcases hy with hy | rfl
    · exact .inl (List.dropLast_subset _ hy)
    · cases hlast : t.typeName.getLast? with
      | none => simp [List.getLast?_eq_none_iff.mp hlast] at hname
      | some z => exact .inr ⟨z, List.mem_of_getLast? hlast, rfl⟩
  generalize appendLast t.typeName (typeSuffix t) = path at h happended
  split at h
  · simp only [List.mem_cons, List.not_mem_nil, or_false] at h
    rcases h with rfl | rfl | rfl
    · exact .inl rfl
    · exact .inr (.inl rfl)
    · exact .inr (.inr (happended x (by simp)))
  · rcases List.mem_cons.mp h with rfl | h
    · exact .inl rfl
    · exact .inr (.inr (happended x (List.mem_cons_of_mem _ h)))
  · exact .inr (.inr (happended x h))

end CodecGen.Emit
