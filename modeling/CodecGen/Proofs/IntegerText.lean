import Mathlib.Data.Nat.Init
import CodecGen.Text.Integer
set_option autoImplicit false
/-!
Numbers and their texts. The decimal text of an integer is a literal that denotes it, and a word of 64
bits counts up by one until it has reached its largest number.
-/
namespace CodecGen.Text.Integer

theorem digit?_digitChar {d : Nat} (h : d < 10) : digit? d.digitChar = some d ∧ d.digitChar ≠ '_' := by
  have hall : ∀ d < 10, digit? (Nat.digitChar d) = some d ∧ Nat.digitChar d ≠ '_' := by decide
  exact hall d h

theorem digits?_concat {base value v d : Nat} {cs : List Char} (h : digits? base value cs = some v)
    {c : Char} (hc : digit? c = some d) (hplain : c ≠ '_') (hd : d < base) :
    digits? base value (cs ++ [c]) = some (v * base + d) := by
  fun_induction digits? base value cs with
  | case1 value =>
    obtain rfl := Option.some.inj h
    simp [digits?, hc, hplain, hd]
  | case2 value c' cs hskip ih => simpa [digits?, hskip] using ih h
  | case3 value c' cs hskip d' hdigit hlt ih => simpa [digits?, hskip, hdigit, hlt] using ih h
  | case4 => cases h
  | case5 => cases h

theorem digits?_toDigits (n : Nat) : digits? 10 0 (Nat.toDigits 10 n) = some n := by
  induction n using Nat.strong_induction_on with
  | _ n ih =>
    rw [Nat.toDigits_eq_if (by decide)]
    split
    · next hlt =>
      obtain ⟨hdigit, hplain⟩ := digit?_digitChar hlt
      simp [digits?, hdigit, hplain, hlt]
    · next hge =>
      have hlast : n % 10 < 10 := Nat.mod_lt _ (by decide)
      obtain ⟨hdigit, hplain⟩ := digit?_digitChar hlast
      rw [digits?_concat (ih (n / 10) (by omega)) hdigit hplain hlast]
      congr 1
      omega

theorem underscoresSeparate_of_plain {cs : List Char} (h : ∀ c ∈ cs, c ≠ '_') (afterDigit : Bool) :
    underscoresSeparate afterDigit cs = true := by
  induction cs generalizing afterDigit with
  | nil => rfl
  | cons c cs ih =>
    rw [List.forall_mem_cons] at h
    simp [underscoresSeparate, h.1, ih h.2]

theorem isDigit_of_mem_toDigits {n : Nat} {c : Char} (h : c ∈ Nat.toDigits 10 n) : c.isDigit = true :=
  Nat.isDigit_of_mem_toDigits (by decide) (by decide) h

theorem toDigits_leading {n : Nat} (h : 0 < n) :
    ∃ c cs, Nat.toDigits 10 n = c :: cs ∧ c ≠ '0' := by
  induction n using Nat.strong_induction_on with
  | _ n ih =>
    rw [Nat.toDigits_eq_if (by decide)]
    split
    · next hlt =>
      have hall : ∀ d < 10, 0 < d → Nat.digitChar d ≠ '0' := by decide
      exact ⟨_, [], rfl, hall n hlt h⟩
    · next hge =>
      obtain ⟨c, cs, hcs, hc⟩ := ih (n / 10) (by omega) (by omega)
      exact ⟨c, _, by rw [hcs, List.cons_append], hc⟩

theorem base_of_leading {c : Char} {cs : List Char} (h : c ≠ '0') :
    base (c :: cs) = (10, false, c :: cs) := by
  unfold base
  split
  · next heq => exact absurd (List.cons.inj heq).1 h
  · next heq => exact absurd (List.cons.inj heq).1 h
  · rfl

theorem natural?_toDigits (n : Nat) : natural? (Nat.toDigits 10 n) = some n := by
  rcases Nat.eq_zero_or_pos n with rfl | hpos
  · rfl
  · have hread := digits?_toDigits n
    have hplain : ∀ c ∈ Nat.toDigits 10 n, c ≠ '_' := by
      rintro c hc rfl
      exact absurd (isDigit_of_mem_toDigits hc) (by decide)
    obtain ⟨c, cs, hcs, hc⟩ := toDigits_leading hpos
    rw [hcs] at hread hplain ⊢
    simp [natural?, base_of_leading hc, underscoresSeparate_of_plain hplain, hread]

theorem toList_toString_natCast (n : Nat) : (toString (n : Int)).toList = Nat.toDigits 10 n := by
  rw [← Nat.toList_repr]
  rfl

theorem literal?_toString (v : Int) : literal? (toString v) = some v := by
  cases v with
  | ofNat n =>
    have htext := toList_toString_natCast n
    have hread := natural?_toDigits n
    unfold literal?
    split
    · next heq =>
      rw [Int.ofNat_eq_natCast, htext] at heq
      exact absurd (isDigit_of_mem_toDigits (heq ▸ List.mem_cons_self)) (by decide)
    · next heq =>
      rw [Int.ofNat_eq_natCast, htext] at heq
      exact absurd (isDigit_of_mem_toDigits (heq ▸ List.mem_cons_self)) (by decide)
    · rw [Int.ofNat_eq_natCast, htext, hread]
      rfl
  | negSucc n =>
    have htext : (toString (Int.negSucc n)).toList = '-' :: Nat.toDigits 10 (n + 1) := by
      rw [← Nat.toList_repr]
      exact String.toList_append
    unfold literal?
    rw [htext]
    simp only [natural?_toDigits]
    rfl

theorem literal?_toString_nat (n : Nat) : literal? (toString n) = some (n : Int) := by
  have htext : toString n = toString (n : Int) := rfl
  rw [htext, literal?_toString]

def InWord (v : Int) : Prop := -9223372036854775808 ≤ v ∧ v ≤ 9223372036854775807

theorem inWord_wrap (v : Int) : InWord (wrap 64 v) := by
  unfold InWord wrap Int.bmod
  rw [show twoTo 64 = 18446744073709551616 from rfl]
  dsimp only
  split <;> omega

theorem wrap_of_inWord {v : Int} (h : InWord v) : wrap 64 v = v := by
  obtain ⟨hlow, hhigh⟩ := h
  unfold wrap Int.bmod
  rw [show twoTo 64 = 18446744073709551616 from rfl]
  dsimp only
  split <;> omega

/-- Counting up by one fails only at the largest number of a word. -/
theorem wrap_succ_eq_iff {v : Int} (h : InWord v) :
    wrap 64 (v + 1) = v + 1 ↔ v ≠ 9223372036854775807 := by
  obtain ⟨hlow, hhigh⟩ := h
  unfold wrap Int.bmod
  rw [show twoTo 64 = 18446744073709551616 from rfl]
  dsimp only
  split <;> omega

theorem of_word? {text : String} {v : Int} (h : word? 64 text = some v) :
    literal? text = some v ∧ InWord v := by
  unfold word? at h
  split at h
  · next w hw =>
    split at h
    · next hrange =>
      obtain rfl := Option.some.inj h
      rw [show twoTo (64 - 1) = 9223372036854775808 from rfl] at hrange
      exact ⟨hw, by unfold InWord; omega⟩
    · cases h
  · cases h

end CodecGen.Text.Integer
