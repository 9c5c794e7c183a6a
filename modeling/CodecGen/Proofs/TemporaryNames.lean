import Mathlib.Data.List.DropRight
import CodecGen.Proofs.Brackets
import CodecGen.Proofs.CodeTokens
set_option autoImplicit false
/-!
The names of temporaries in generated text. A text falls into words and the characters between them; a
temporary occurs where a word is its name. Texts are put together from names of the description and
fixed pieces. No name that is no temporary becomes one on the way: what is put before or behind a name
leaves its words alone, or makes a longer word that is none.
-/
namespace CodecGen.Emit
open Schema

/-- The words of a text, as long as they can be, and its other characters one by one. -/
def pieces (text : String) : List String :=
  (text.toList.splitBy fun a b => isWordChar a && isWordChar b).map String.ofList

def isWord (w : String) : Bool := w.toList.all isWordChar

def endsApart (text : String) : Bool := text.toList.getLast?.all fun c => !isWordChar c

def startsApart (text : String) : Bool := text.toList.head?.all fun c => !isWordChar c

@[simp] theorem pieces_empty : pieces "" = [] := rfl

theorem pieces_append {x y : String} (h : endsApart x = true ∨ startsApart y = true) :
    pieces (x ++ y) = pieces x ++ pieces y := by
  unfold pieces
  rw [String.toList_append, List.splitBy_append, List.map_append]
  intro a ha b hb
  rcases h with h | h
  · rw [endsApart, Option.mem_def.mp ha, Option.all_some, Bool.not_eq_true'] at h
    rw [h, Bool.false_and]
  · rw [startsApart, Option.mem_def.mp hb, Option.all_some, Bool.not_eq_true'] at h
    rw [h, Bool.and_false]

theorem endsApart_append {x y : String} (hy : y ≠ "") (h : endsApart y = true) :
    endsApart (x ++ y) = true := by
  have hne : y.toList ≠ [] := by simpa using hy
  rw [endsApart, List.getLast?_eq_some_getLast hne] at h
  rw [endsApart, String.toList_append, List.getLast?_append, List.getLast?_eq_some_getLast hne]
  exact h

theorem pieces_word {w : String} (hne : w ≠ "") (h : isWord w = true) : pieces w = [w] := by
  have hchain : w.toList.IsChain fun a b => (isWordChar a && isWordChar b) = true := by
    refine (isChain_joins h).imp_of_mem_imp ?_
    intro a b ha hb _
    rw [List.all_eq_true.mp h a ha, List.all_eq_true.mp h b hb, Bool.and_self]
  unfold pieces
  rw [List.splitBy_of_isChain (by simpa using hne) hchain]
  simp

theorem exists_last_word (x : String) : ∃ p u, x = p ++ u ∧ isWord u = true ∧ endsApart p = true := by
  refine ⟨.ofList (x.toList.rdropWhile isWordChar), .ofList (x.toList.rtakeWhile isWordChar), ?_, ?_, ?_⟩
  · rw [← String.ofList_append, List.rdropWhile_append_rtakeWhile, String.ofList_toList]
  · rw [isWord, String.toList_ofList, List.all_eq_true]
    exact fun c hc => List.mem_rtakeWhile_imp hc
  · rw [endsApart, String.toList_ofList]
    by_cases hne : x.toList.rdropWhile isWordChar = []
    · rw [hne]
      rfl
    · rw [List.getLast?_eq_some_getLast hne]
      simpa using List.rdropWhile_last_not isWordChar x.toList hne

theorem exists_first_word (x : String) :
    ∃ u p, x = u ++ p ∧ isWord u = true ∧ startsApart p = true := by
  refine ⟨.ofList (x.toList.takeWhile isWordChar), .ofList (x.toList.dropWhile isWordChar), ?_, ?_, ?_⟩
  · rw [← String.ofList_append, List.takeWhile_append_dropWhile, String.ofList_toList]
  · rw [isWord, String.toList_ofList, List.all_eq_true]
    exact fun c hc => List.mem_takeWhile_imp hc
  · rw [startsApart, String.toList_ofList]
    cases hrest : x.toList.dropWhile isWordChar with
    | nil => rfl
    | cons c cs =>
      have hne : x.toList.dropWhile isWordChar ≠ [] := by simp [hrest]
      simpa [hrest] using List.head_dropWhile_not isWordChar hne

/-- The pieces of two texts in a row are those of the two, unless the last word of the one and the first
of the other make up one. -/
theorem mem_pieces_append {w x y : String} (h : w ∈ pieces (x ++ y)) :
    w ∈ pieces x ∨ w ∈ pieces y ∨ ∃ u v, (pieces x).getLast? = some u ∧ (pieces y).head? = some v ∧
      isWord u = true ∧ isWord v = true ∧ w = u ++ v := by
  obtain ⟨p, u, rfl, hu, hp⟩ := exists_last_word x
  obtain ⟨v, q, rfl, hv, hq⟩ := exists_first_word y
  have hassoc : p ++ u ++ (v ++ q) = p ++ (u ++ v ++ q) := by simp only [String.append_assoc]
  rw [hassoc, pieces_append (.inl hp), pieces_append (.inr hq)] at h
  rw [pieces_append (.inl hp), pieces_append (.inr hq)]
  by_cases hune : u = ""
  · subst hune
    simp only [String.empty_append, List.mem_append] at h ⊢
    tauto
  by_cases hvne : v = ""
  · subst hvne
    simp only [String.append_empty, List.mem_append] at h ⊢
    tauto
  have hword : isWord (u ++ v) = true := by
    rw [isWord, String.toList_append, List.all_append, Bool.and_eq_true]
    exact ⟨hu, hv⟩
  rw [pieces_word (by simp [hune]) hword] at h
  rw [pieces_word hune hu, pieces_word hvne hv]
  simp only [List.mem_append, List.mem_singleton] at h ⊢
  rcases h with h | rfl | h
  · exact .inl (.inl h)
  · exact .inr (.inr ⟨u, v, by simp, by simp, hu, hv, rfl⟩)
  · exact .inr (.inl (.inr h))

theorem mem_toList_of_mem_pieces {w x : String} (h : w ∈ pieces x) {c : Char} (hc : c ∈ w.toList) :
    c ∈ x.toList := by
  obtain ⟨run, hrun, rfl⟩ := List.mem_map.mp h
  rw [String.toList_ofList] at hc
  rw [← List.flatten_splitBy (fun a b => isWordChar a && isWordChar b) x.toList]
  exact List.mem_flatten.mpr ⟨run, hrun, hc⟩

theorem toList_ne_nil_of_mem_pieces {w x : String} (h : w ∈ pieces x) : w.toList ≠ [] := by
  obtain ⟨run, hrun, rfl⟩ := List.mem_map.mp h
  rw [String.toList_ofList]
  exact List.ne_nil_of_mem_splitBy hrun

inductive Temporary where
  | sum (id : Nat)
  | aside (id : Nat)
deriving DecidableEq, Repr

namespace Temporary

def id : Temporary → Nat
  | sum id | aside id => id

def name : Temporary → String
  | sum id => sumName id
  | aside id => asideName id

end Temporary

def numberIn (w : String) : Nat := Nat.ofDigitChars 10 (w.toList.filter Char.isDigit) 0

def temporary? (w : String) : Option Temporary :=
  match w.toList.head? with
  | some 's' => if sumName (numberIn w) = w then some (.sum (numberIn w)) else none
  | some 't' => if asideName (numberIn w) = w then some (.aside (numberIn w)) else none
  | _ => none

theorem isDigit_toString {n : Nat} {c : Char} (hc : c ∈ (toString n).toList) : c.isDigit = true := by
  rw [Nat.toString_eq_ofList_toDigits, String.toList_ofList] at hc
  exact Nat.isDigit_of_mem_toDigits (by decide) (by decide) hc

theorem toList_sumName (n : Nat) :
    (sumName n).toList = ['s', 'u', 'm'] ++ (toString n).toList ++ ['_'] := by
  simp only [sumName, String.toList_append]
  rfl

theorem toList_asideName (n : Nat) : (asideName n).toList = ['t', 'm', 'p'] ++ (toString n).toList := by
  rw [asideName, String.toList_append]
  rfl

theorem numberIn_name (t : Temporary) : numberIn t.name = t.id := by
  have hdigits : ∀ n : Nat, (toString n).toList.filter Char.isDigit = (toString n).toList :=
    fun n => List.filter_eq_self.mpr fun c hc => isDigit_toString hc
  have hread : ∀ n : Nat, Nat.ofDigitChars 10 (toString n).toList 0 = n := by
    intro n
    rw [Nat.toString_eq_ofList_toDigits, String.toList_ofList, Nat.ofDigitChars_ten_toDigits]
  have hsum : ['s', 'u', 'm'].filter Char.isDigit = [] := by decide
  have haside : ['t', 'm', 'p'].filter Char.isDigit = [] := by decide
  have hend : ['_'].filter Char.isDigit = [] := by decide
  unfold numberIn
  cases t with
  | sum n =>
    rw [Temporary.name, toList_sumName, List.filter_append, List.filter_append, hdigits, hsum, hend,
      List.nil_append, List.append_nil, hread, Temporary.id]
  | aside n =>
    rw [Temporary.name, toList_asideName, List.filter_append, hdigits, haside, List.nil_append, hread,
      Temporary.id]

theorem head?_name (t : Temporary) : t.name.toList.head? = some 's' ∨ t.name.toList.head? = some 't' := by
  cases t with
  | sum n => exact .inl (by rw [Temporary.name, toList_sumName]; rfl)
  | aside n => exact .inr (by rw [Temporary.name, toList_asideName]; rfl)

theorem getLast?_name (t : Temporary) :
    ∃ c, t.name.toList.getLast? = some c ∧ (c.isDigit = true ∨ c = '_') := by
  cases t with
  | sum n => exact ⟨'_', by rw [Temporary.name, toList_sumName, List.getLast?_concat], .inr rfl⟩
  | aside n =>
    have hlast := List.getLast?_eq_some_getLast (toList_toString_ne_nil n)
    refine ⟨_, ?_, .inl (isDigit_toString (List.mem_of_getLast? hlast))⟩
    rw [Temporary.name, toList_asideName, List.getLast?_append, hlast, Option.some_or]

theorem mem_toList_name (t : Temporary) : 'm' ∈ t.name.toList := by
  cases t with
  | sum n => simp [Temporary.name, toList_sumName]
  | aside n => simp [Temporary.name, toList_asideName]

theorem isWord_name (t : Temporary) : isWord t.name = true := by
  cases t with
  | sum n => exact isWordChar_of_isIdentifier (isIdentifier_sumName n)
  | aside n =>
    have hname := isIdentifier_append (w := "tmp") (by decide) (isWordChar_toString n)
    exact isWordChar_of_isIdentifier hname

theorem pieces_name (t : Temporary) : pieces t.name = [t.name] := by
  refine pieces_word (fun h => ?_) (isWord_name t)
  have hmem := mem_toList_name t
  rw [h] at hmem
  cases hmem

theorem temporary?_eq_some {w : String} {t : Temporary} : temporary? w = some t ↔ t.name = w := by
  constructor
  · intro h
    unfold temporary? at h
    split at h
    · obtain ⟨hname, ht⟩ := Option.ite_none_right_eq_some.mp h
      obtain rfl := Option.some.inj ht
      exact hname
    · obtain ⟨hname, ht⟩ := Option.ite_none_right_eq_some.mp h
      obtain rfl := Option.some.inj ht
      exact hname
    · cases h
  · rintro rfl
    unfold temporary?
    rw [numberIn_name]
    cases t with
    | sum n =>
      rw [Temporary.name, toList_sumName]
      exact if_pos rfl
    | aside n =>
      rw [Temporary.name, toList_asideName]
      exact if_pos rfl

theorem temporary?_name (t : Temporary) : temporary? t.name = some t := temporary?_eq_some.mpr rfl

theorem temporary?_of_getLast {w : String} {c : Char} (hlast : w.toList.getLast? = some c)
    (hc : (c.isDigit || c == '_') = false) : temporary? w = none := by
  cases h : temporary? w with
  | none => rfl
  | some t =>
    obtain ⟨d, hd, hdigit⟩ := getLast?_name t
    rw [temporary?_eq_some.mp h, hlast] at hd
    obtain rfl := Option.some.inj hd
    simp only [Bool.or_eq_false_iff, beq_eq_false_iff_ne] at hc
    rcases hdigit with hdigit | hdigit
    · rw [hc.1] at hdigit
      cases hdigit
    · exact absurd hdigit hc.2

theorem temporary?_of_head {w : String} {c : Char} (hhead : w.toList.head? = some c)
    (hc : (c == 's' || c == 't') = false) : temporary? w = none := by
  cases h : temporary? w with
  | none => rfl
  | some t =>
    have ht := head?_name t
    rw [temporary?_eq_some.mp h, hhead] at ht
    simp only [Bool.or_eq_false_iff, beq_eq_false_iff_ne] at hc
    rcases ht with ht | ht
    · exact absurd (Option.some.inj ht) hc.1
    · exact absurd (Option.some.inj ht) hc.2

/-- The temporaries that the text mentions are among the given ones. -/
def Mentions (known : List Temporary) (text : String) : Prop :=
  ∀ w ∈ pieces text, ∀ t, temporary? w = some t → t ∈ known

abbrev Clean (text : String) : Prop := Mentions [] text

def isClean (text : String) : Bool := (pieces text).all fun w => (temporary? w).isNone

/-- Behind this text no word of another one grows into a temporary. -/
def isOpening (text : String) : Bool :=
  isClean text && (pieces text).getLast?.all fun w =>
    !isWord w || w.toList.head?.all fun c => !(c == 's' || c == 't')

def isEnding (text : String) : Bool :=
  isClean text && (pieces text).head?.all fun w =>
    !isWord w || w.toList.getLast?.all fun c => !(c.isDigit || c == '_')

def isLink (text : String) : Bool := isEnding text && endsApart text && !text.isEmpty

section
variable {known more : List Temporary} {x y : String}

namespace Mentions

theorem mono (h : Mentions known x) (hsub : ∀ t ∈ known, t ∈ more) : Mentions more x :=
  fun w hw t ht => hsub t (h w hw t ht)

theorem eq_none (h : Clean x) {w : String} (hw : w ∈ pieces x) : temporary? w = none := by
  cases ht : temporary? w with
  | none => rfl
  | some t => cases h w hw t ht

theorem of_clean (h : Clean x) : Mentions known x := h.mono fun _ ht => by cases ht

theorem of_text (text : String) (h : isClean text = true) :
    Mentions known text := by
  intro w hw t ht
  have hnone := List.all_eq_true.mp h w hw
  rw [ht] at hnone
  cases hnone

theorem append (hx : Mentions known x) (hy : Mentions known y)
    (h : endsApart x = true ∨ startsApart y = true) : Mentions known (x ++ y) := by
  intro w hw
  rw [pieces_append h, List.mem_append] at hw
  exact hw.elim (hx w) (hy w)

theorem after (text : String) (h : isOpening text = true) (hx : Mentions known x) :
    Mentions known (text ++ x) := by
  rw [isOpening, Bool.and_eq_true] at h
  intro w hw t ht
  rcases mem_pieces_append hw with hw | hw | ⟨u, v, hu, -, huword, -, rfl⟩
  · exact of_text text h.1 w hw t ht
  · exact hx w hw t ht
  · have hfirst := h.2
    rw [hu, Option.all_some, huword, Bool.not_true, Bool.false_or] at hfirst
    cases hchars : u.toList with
    | nil => exact absurd hchars (toList_ne_nil_of_mem_pieces (List.mem_of_getLast? hu))
    | cons c cs =>
      rw [hchars, List.head?_cons, Option.all_some, Bool.not_eq_true'] at hfirst
      have hhead : (u ++ v).toList.head? = some c := by rw [String.toList_append, hchars]; rfl
      rw [temporary?_of_head hhead hfirst] at ht
      cases ht

theorem ending (hx : Mentions known x) (text : String) (h : isEnding text = true) :
    Mentions known (x ++ text) := by
  rw [isEnding, Bool.and_eq_true] at h
  intro w hw t ht
  rcases mem_pieces_append hw with hw | hw | ⟨u, v, -, hv, -, hvword, rfl⟩
  · exact hx w hw t ht
  · exact of_text text h.1 w hw t ht
  · have hlast := h.2
    rw [hv, Option.all_some, hvword, Bool.not_true, Bool.false_or] at hlast
    have hne := toList_ne_nil_of_mem_pieces (List.mem_of_head? hv)
    rw [List.getLast?_eq_some_getLast hne, Option.all_some, Bool.not_eq_true'] at hlast
    have hend : (u ++ v).toList.getLast? = some (v.toList.getLast hne) := by
      rw [String.toList_append, List.getLast?_append, List.getLast?_eq_some_getLast hne,
        Option.some_or]
    rw [temporary?_of_getLast hend hlast] at ht
    cases ht

theorem between (hx : Mentions known x) (text : String) (h : isLink text = true)
    (hy : Mentions known y) : Mentions known (x ++ text ++ y) := by
  simp only [isLink, Bool.and_eq_true, Bool.not_eq_true'] at h
  refine (hx.ending text h.1.1).append hy (.inl (endsApart_append ?_ h.1.2))
  rintro rfl
  exact absurd h.2 (by decide)

end Mentions
end

theorem mentions_name (t : Temporary) : Mentions [t] t.name := by
  intro w hw u hu
  rw [pieces_name, List.mem_singleton] at hw
  rw [hw, temporary?_name] at hu
  exact List.mem_singleton.mpr (Option.some.inj hu).symm

theorem mentions_intercalate {known : List Temporary} {separator : String}
    (hs : isLink separator = true) {parts : List String} (h : ∀ x ∈ parts, Mentions known x) :
    Mentions known (String.intercalate separator parts) := by
  induction parts with
  | nil => exact .of_text "" rfl
  | cons x rest ih =>
    obtain ⟨hx, hrest⟩ := List.forall_mem_cons.mp h
    cases rest with
    | nil => simpa using hx
    | cons y rest =>
      rw [String.intercalate_cons_cons]
      exact hx.between separator hs (ih hrest)

theorem clean_safeName {name : String} (h : Clean name) : Clean (safeName name) := by
  unfold safeName
  split
  · exact .after "c_" rfl h
  · exact h

theorem clean_nat (n : Nat) : Clean (toString n) := by
  intro w hw t ht
  have hne := toList_toString_ne_nil n
  rw [pieces_word (fun h => hne (by rw [h]; rfl)) (isWordChar_toString n), List.mem_singleton] at hw
  cases hchars : (toString n).toList with
  | nil => exact absurd hchars hne
  | cons c cs =>
    have hdigit := isDigit_toString (n := n) (c := c) (by rw [hchars]; exact List.mem_cons_self)
    have hfirst : (c == 's' || c == 't') = false := by
      simp only [Bool.or_eq_false_iff, beq_eq_false_iff_ne]
      constructor <;> rintro rfl <;> exact absurd hdigit (by decide)
    rw [hw, temporary?_of_head (by rw [hchars]; rfl) hfirst] at ht
    cases ht

theorem clean_int (i : Int) : Clean (toString i) := by
  cases i with
  | ofNat n => exact clean_nat n
  | negSucc n => exact .after "-" rfl (clean_nat (n + 1))

theorem clean_suffix {x : String} (h : Clean x) (kind : Kind) : Clean (x ++ suffix kind) := by
  cases kind <;> exact h.ending _ rfl

theorem clean_last {name : Name} (h : ∀ x ∈ name, Clean x) : Clean name.last := by
  unfold Name.last
  cases hlast : name.getLast? with
  | none => exact .of_text _ rfl
  | some x => exact h x (List.mem_of_getLast? hlast)

theorem clean_qualify {type : Ty} (h : ∀ x ∈ type.typeName, Clean x) (ns : List String) :
    Clean (qualify type ns) := by
  refine mentions_intercalate (by decide) fun x hx => ?_
  rcases mem_qualifiedPath (mem_of_mem_chop hx) with rfl | rfl | hx | ⟨y, hy, rfl⟩
  · exact .of_text _ rfl
  · exact .of_text _ rfl
  · exact h x hx
  · exact clean_suffix (h y hy) type.kind

theorem clean_of_not_mem {x : String} (h : 'm' ∉ x.toList) : Clean x := by
  intro w hw t ht
  have hletter := mem_toList_name t
  rw [temporary?_eq_some.mp ht] at hletter
  exact absurd (mem_toList_of_mem_pieces hw hletter) h

theorem clean_includeGuard (headerPath : String) : Clean (includeGuard headerPath) := by
  apply clean_of_not_mem
  rw [includeGuard, String.toList_append, Text.UpperCase.upper, String.toList_map, List.mem_append]
  rintro (h | h)
  · obtain ⟨c, -, hc⟩ := List.mem_map.mp h
    obtain rfl := eq_of_upperChar_eq (by decide +kernel) hc
    exact absurd hc (by decide +kernel)
  · exact absurd h (by decide)

end CodecGen.Emit
