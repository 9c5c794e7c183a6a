import CodecGen.Proofs.CodeTokens
set_option autoImplicit false
/-!
The grammar of C++ value expressions: operators with their precedence and associativity, prefix
operators, calls, qualified names and numbers. `Means ts t` says that the tokens have the reading `t`
and no other. Operands in parentheses keep their reading wherever they stand.
-/
namespace CodecGen.Emit

/-- How an expression is grouped. A path that starts at the global namespace starts with an empty
segment, and the arguments of a call are grouped like operands of a comma. -/
inductive ExprTree where
  | name (path : List String)
  | number (v : Nat)
  | unary (op : String) (operand : ExprTree)
  | binary (op : String) (lhs rhs : ExprTree)
  | call (function argument : ExprTree)
deriving DecidableEq, Repr

def binaryOperators : List (List String) :=
  [[","], ["||"], ["&&"], ["|"], ["^"], ["&"], ["==", "!="], ["<", ">", "<=", ">="], ["<<", ">>"],
    ["+", "-"], ["*", "/", "%"]]

def precedence? (op : String) : Option Nat := binaryOperators.findIdx? (·.contains op)

def unaryOperators : List String := ["~", "-", "+", "!", "*", "&"]

def unaryLevel : Nat := binaryOperators.length

def callLevel : Nat := unaryLevel + 1

def primaryLevel : Nat := callLevel + 1

inductive Segments : List Token → List String → Prop where
  | last {w : String} (h : isIdentifier w = true) : Segments [.word w] [w]
  | cons {w : String} {ts : List Token} {path : List String} (h : isIdentifier w = true)
      (hrest : Segments ts path) : Segments (.word w :: .operator "::" :: ts) (w :: path)

def group (ts : List Token) : List Token := .mark '(' :: (ts ++ [.mark ')'])

/-- The tokens can be grouped as the tree says, with no operator outside parentheses that binds looser
than the level. All operators between operands group from the left. -/
inductive Derives : Nat → List Token → ExprTree → Prop where
  | binary {k : Nat} {l r : List Token} {op : String} {a b : ExprTree} (h : precedence? op = some k)
      (hl : Derives k l a) (hr : Derives (k + 1) r b) :
      Derives k (l ++ .operator op :: r) (.binary op a b)
  | tighter {k : Nat} {ts : List Token} {t : ExprTree} (h : Derives (k + 1) ts t) : Derives k ts t
  | unary {ts : List Token} {op : String} {t : ExprTree} (h : op ∈ unaryOperators)
      (ht : Derives unaryLevel ts t) : Derives unaryLevel (.operator op :: ts) (.unary op t)
  | call {f arg : List Token} {a b : ExprTree} (hf : Derives callLevel f a) (harg : Derives 0 arg b) :
      Derives callLevel (f ++ group arg) (.call a b)
  | paren {ts : List Token} {t : ExprTree} (h : Derives 0 ts t) : Derives primaryLevel (group ts) t
  | number (v : Nat) : Derives primaryLevel [.word (toString v)] (.number v)
  | name {ts : List Token} {path : List String} (h : Segments ts path) :
      Derives primaryLevel ts (.name path)
  | globalName {ts : List Token} {path : List String} (h : Segments ts path) :
      Derives primaryLevel (.operator "::" :: ts) (.name ("" :: path))

/-- The tokens read as this tree, and as no other. -/
def Means (ts : List Token) (t : ExprTree) : Prop := ∀ u, Derives 0 ts u ↔ u = t

section
variable {k : Nat} {l r ts : List Token} {t u : ExprTree}

theorem Derives.loosen (j : Nat) (h : Derives (k + j) ts t) : Derives k ts t := by
  induction j with
  | zero => exact h
  | succ j ih => exact ih h.tighter

theorem Derives.of_primary (h : Derives primaryLevel ts t) (hk : k ≤ primaryLevel) : Derives k ts t :=
  Derives.loosen (primaryLevel - k) (by rwa [Nat.add_sub_cancel' hk])

inductive Paired : List Token → Prop where
  | nil : Paired []
  | cons {t : Token} {ts : List Token} (hopen : t ≠ .mark '(') (hclose : t ≠ .mark ')')
      (h : Paired ts) : Paired (t :: ts)
  | group {ts rest : List Token} (h : Paired ts) (hrest : Paired rest) :
      Paired (.mark '(' :: (ts ++ .mark ')' :: rest))

namespace Paired

theorem append (hl : Paired l) (hr : Paired r) : Paired (l ++ r) := by
  induction hl with
  | nil => exact hr
  | cons hopen hclose _ ih => exact .cons hopen hclose ih
  | group h _ _ ih =>
    rw [List.cons_append, List.append_assoc, List.cons_append]
    exact .group h ih

theorem of_group (h : Paired ts) : Paired (Emit.group ts) := .group h .nil

/-- The first parenthesis that closes none inside ends the same tokens, however they go on. -/
theorem close_unique (hl : Paired l) : ∀ {r : List Token} {x y : List Token}, Paired r →
    l ++ .mark ')' :: x = r ++ .mark ')' :: y → l = r ∧ x = y := by
  induction hl with
  | nil =>
    intro r x y hr heq
    cases hr with
    | nil => exact ⟨rfl, (List.cons.inj heq).2⟩
    | cons _ hclose _ => exact absurd (List.cons.inj heq).1.symm hclose
    | group _ _ => exact absurd (List.cons.inj heq).1 (by decide)
  | cons hopen hclose _ ih =>
    intro r x y hr heq
    cases hr with
    | nil => exact absurd (List.cons.inj heq).1 hclose
    | cons _ _ hr =>
      obtain ⟨rfl, htail⟩ := List.cons.inj heq
      obtain ⟨rfl, rfl⟩ := ih hr htail
      exact ⟨rfl, rfl⟩
    | group _ _ => exact absurd (List.cons.inj heq).1 hopen
  | group _ _ ih ihrest =>
    intro r x y hr heq
    cases hr with
    | nil => exact absurd (List.cons.inj heq).1 (by decide)
    | cons hopen _ _ => exact absurd (List.cons.inj heq).1.symm hopen
    | group h hrest =>
      simp only [List.cons_append, List.append_assoc, List.cons.injEq, true_and] at heq
      obtain ⟨rfl, hafter⟩ := ih h heq
      obtain ⟨rfl, rfl⟩ := ihrest hrest hafter
      exact ⟨rfl, rfl⟩

/-- What starts with a group and pairs its parentheses takes in the whole group. -/
theorem group_of_append {L rest : List Token} (hl : Paired l) (hne : l ≠ []) (hL : Paired L)
    (heq : l ++ r = Emit.group L ++ rest) :
    ∃ after, Paired after ∧ l = Emit.group L ++ after ∧ after ++ r = rest := by
  simp only [Emit.group, List.cons_append, List.append_assoc, List.nil_append] at heq ⊢
  cases hl with
  | nil => exact absurd rfl hne
  | cons hopen _ _ => exact absurd (List.cons.inj heq).1 hopen
  | @group inner after h hafter =>
    simp only [List.cons_append, List.append_assoc, List.cons.injEq, true_and] at heq
    obtain ⟨rfl, hrest⟩ := close_unique h hL heq
    exact ⟨after, hafter, rfl, hrest⟩

theorem eq_nil_of_group {L : List Token} (hl : Paired l) (hL : Paired L)
    (heq : l ++ r = Emit.group L) : l = [] ∨ r = [] := by
  by_cases hne : l = []
  · exact .inl hne
  rw [← List.append_nil (Emit.group L)] at heq
  obtain ⟨after, -, -, hrest⟩ := group_of_append hl hne hL heq
  exact .inr (List.append_eq_nil_iff.mp hrest).2

theorem of_cons {t : Token} (h : Paired (t :: ts)) (hopen : t ≠ .mark '(') : Paired ts := by
  cases h with
  | cons _ _ h => exact h
  | group _ _ => exact absurd rfl hopen

end Paired

theorem Segments.paired {path : List String} (h : Segments ts path) : Paired ts := by
  induction h with
  | last _ => exact .cons (by simp) (by simp) .nil
  | cons _ _ ih => exact .cons (by simp) (by simp) (.cons (by simp) (by simp) ih)

theorem Segments.last_word {path : List String} (h : Segments ts path) :
    ∃ w, ts.getLast? = some (.word w) := by
  induction h with
  | @last w _ => exact ⟨w, rfl⟩
  | cons _ _ ih =>
    obtain ⟨w, hw⟩ := ih
    exact ⟨w, by simp [List.getLast?_cons, hw]⟩

namespace Derives

theorem paired (h : Derives k ts t) : Paired ts := by
  induction h with
  | binary _ _ _ ihl ihr => exact ihl.append (.cons (by simp) (by simp) ihr)
  | tighter _ ih => exact ih
  | unary _ _ ih => exact .cons (by simp) (by simp) ih
  | call _ _ ihf iharg => exact ihf.append iharg.of_group
  | paren _ ih => exact ih.of_group
  | number v => exact .cons (by simp) (by simp) .nil
  | name h => exact h.paired
  | globalName h => exact .cons (by simp) (by simp) h.paired

theorem last_operand (h : Derives k ts t) :
    ∃ x, ts.getLast? = some x ∧ ∀ op, x ≠ .operator op := by
  induction h with
  | @binary _ l r op _ _ _ _ _ _ ihr =>
    obtain ⟨x, hx, hop⟩ := ihr
    exact ⟨x, by simp [List.getLast?_cons, hx], hop⟩
  | tighter _ ih => exact ih
  | unary _ _ ih =>
    obtain ⟨x, hx, hop⟩ := ih
    exact ⟨x, by simp [List.getLast?_cons, hx], hop⟩
  | call _ _ _ _ => exact ⟨.mark ')', by simp [group, List.getLast?_cons], by simp⟩
  | paren _ _ => exact ⟨.mark ')', by simp [group, List.getLast?_cons], by simp⟩
  | number v => exact ⟨_, rfl, by simp⟩
  | name h =>
    obtain ⟨w, hw⟩ := h.last_word
    exact ⟨_, hw, by simp⟩
  | globalName h =>
    obtain ⟨w, hw⟩ := h.last_word
    exact ⟨.word w, by simp [List.getLast?_cons, hw], by simp⟩

theorem ne_nil (h : Derives k ts t) : ts ≠ [] := by
  rintro rfl
  obtain ⟨x, hx, -⟩ := h.last_operand
  cases hx

theorem not_ends_operator {op : String} (h : Derives k (l ++ [.operator op]) t) : False := by
  obtain ⟨x, hx, hop⟩ := h.last_operand
  rw [List.getLast?_concat, Option.some.injEq] at hx
  exact hop op hx.symm

theorem of_group {L : List Token} (h : Derives k ts t) (hL : Paired L) (heq : ts = group L) :
    Derives 0 L t := by
  induction h with
  | binary _ hl _ _ _ =>
    rcases hl.paired.eq_nil_of_group hL heq with hnil | hnil
    · exact absurd hnil hl.ne_nil
    · cases hnil
  | tighter _ ih => exact ih heq
  | unary _ _ _ => exact absurd (List.cons.inj heq).1 (by simp)
  | call hf _ _ _ =>
    rcases hf.paired.eq_nil_of_group hL heq with hnil | hnil
    · exact absurd hnil hf.ne_nil
    · cases hnil
  | paren h _ =>
    simp only [group, List.cons.injEq, true_and] at heq
    rwa [← List.append_cancel_right heq]
  | number v => cases heq
  | name h => cases h <;> cases heq
  | globalName h => cases heq

theorem of_groups {L R : List Token} {op : String} (h : Derives k ts t) (hL : Paired L)
    (hR : Paired R) (heq : ts = group L ++ .operator op :: group R) :
    ∃ a b, t = .binary op a b ∧ Derives 0 L a ∧ Derives 0 R b := by
  induction h with
  | @binary _ l r op' a b _ hl hr _ _ =>
    obtain ⟨after, hafter, rfl, hrest⟩ := hl.paired.group_of_append hl.ne_nil hL heq
    cases after with
    | nil =>
      obtain ⟨hop, rfl⟩ := List.cons.inj hrest
      cases hop
      exact ⟨a, b, rfl, hl.of_group hL (List.append_nil _), hr.of_group hR rfl⟩
    | cons x after =>
      -- the operator cannot stand inside the group on the right
      obtain ⟨rfl, hinside⟩ := List.cons.inj hrest
      rcases (hafter.of_cons (by simp)).eq_nil_of_group hR hinside with rfl | hnil
      · exact absurd (List.cons.inj hinside).1 (by simp)
      · cases hnil
  | tighter _ ih => exact ih heq
  | unary _ _ _ => exact absurd (List.cons.inj heq).1 (by simp)
  | @call f arg a b hf _ _ _ =>
    obtain ⟨after, hafter, rfl, hrest⟩ := hf.paired.group_of_append hf.ne_nil hL heq
    cases after with
    | nil => exact absurd (List.cons.inj hrest).1 (by simp)
    | cons x after =>
      obtain ⟨rfl, hinside⟩ := List.cons.inj hrest
      rcases (hafter.of_cons (by simp)).eq_nil_of_group hR hinside with rfl | hnil
      · exact hf.not_ends_operator.elim
      · cases hnil
  | @paren ts t h _ =>
    rcases hL.of_group.eq_nil_of_group h.paired heq.symm with hnil | hnil
    · cases hnil
    · cases hnil
  | number v => cases heq
  | name h => cases h <;> cases heq
  | globalName h => cases heq

theorem of_unary_group {L : List Token} {op : String} (h : Derives k ts t) (hL : Paired L)
    (hop : op ≠ "::") (heq : ts = .operator op :: group L) :
    ∃ a, t = .unary op a ∧ Derives 0 L a := by
  induction h with
  | @binary _ l r op' a b _ hl _ _ _ =>
    obtain ⟨x, l', rfl⟩ := List.exists_cons_of_ne_nil hl.ne_nil
    obtain ⟨rfl, hinside⟩ := List.cons.inj heq
    rcases (hl.paired.of_cons (by simp)).eq_nil_of_group hL hinside with rfl | hnil
    · exact absurd (List.cons.inj hinside).1 (by simp)
    · cases hnil
  | tighter _ ih => exact ih heq
  | @unary ts' op' t' _ ht _ =>
    obtain ⟨hsame, rfl⟩ := List.cons.inj heq
    cases hsame
    exact ⟨t', rfl, ht.of_group hL rfl⟩
  | @call f arg a b hf _ _ _ =>
    obtain ⟨x, f', rfl⟩ := List.exists_cons_of_ne_nil hf.ne_nil
    obtain ⟨rfl, hinside⟩ := List.cons.inj heq
    rcases (hf.paired.of_cons (by simp)).eq_nil_of_group hL hinside with rfl | hnil
    · exact (hf.not_ends_operator (l := [])).elim
    · cases hnil
  | paren _ _ => cases heq
  | number v => cases heq
  | name h => cases h <;> cases heq
  | globalName h => exact absurd (Token.operator.inj (List.cons.inj heq).1).symm hop

end Derives

def IsAtom (ts : List Token) : Prop := ∀ x ∈ ts, (∃ w, x = .word w) ∨ x = .operator "::"

theorem Segments.isAtom {path : List String} (h : Segments ts path) : IsAtom ts := by
  induction h with
  | @last w _ => simp [IsAtom]
  | cons _ _ ih =>
    intro x hx
    simp only [List.mem_cons] at hx
    rcases hx with rfl | rfl | hx
    · exact .inl ⟨_, rfl⟩
    · exact .inr rfl
    · exact ih x hx

theorem Segments.unique {path path' : List String} (h : Segments ts path) (h' : Segments ts path') :
    path = path' := by
  induction h generalizing path' with
  | last _ => cases h'; rfl
  | cons _ _ ih =>
    cases h' with
    | cons _ h' => rw [ih h']

theorem IsAtom.precedence (h : IsAtom ts) (op : String) (hop : .operator op ∈ ts) :
    precedence? op = none ∧ op ∉ unaryOperators := by
  rcases h _ hop with ⟨w, hw⟩ | hcolons
  · cases hw
  · cases hcolons
    decide

theorem IsAtom.not_mark {c : Char} (h : IsAtom ts) (hc : .mark c ∈ ts) : False := by
  rcases h _ hc with ⟨w, hw⟩ | hcolons
  · cases hw
  · cases hcolons

theorem Derives.of_isAtom (h : Derives k ts t) (hatom : IsAtom ts) :
    (∃ v, ts = [.word (toString v)] ∧ t = .number v) ∨
      (∃ path, Segments ts path ∧ t = .name path) ∨
      ∃ after path, ts = .operator "::" :: after ∧ Segments after path ∧ t = .name ("" :: path) := by
  induction h with
  | @binary _ l r op _ _ hop _ _ _ _ =>
    rw [(hatom.precedence op (by simp)).1] at hop
    cases hop
  | tighter _ ih => exact ih hatom
  | unary hop _ _ => exact absurd hop (hatom.precedence _ (by simp)).2
  | call _ _ _ _ => exact (hatom.not_mark (c := '(') (by simp [group])).elim
  | paren _ _ => exact (hatom.not_mark (c := '(') (by simp [group])).elim
  | number v => exact .inl ⟨v, rfl, rfl⟩
  | name h => exact .inr (.inl ⟨_, h, rfl⟩)
  | globalName h => exact .inr (.inr ⟨_, _, rfl, h, rfl⟩)

theorem not_isIdentifier_toString (v : Nat) : ¬ isIdentifier (toString v) = true := by
  unfold isIdentifier
  rw [startsWithDigit_toString, Bool.not_true, Bool.and_false]
  exact Bool.false_ne_true

theorem Segments.not_number {path : List String} {v : Nat}
    (h : Segments [.word (toString v)] path) : False := by
  cases h with
  | last h => exact not_isIdentifier_toString v h

theorem Derives.eq_name {path : List String} (h : Derives k ts t) (hpath : Segments ts path) :
    t = .name path := by
  rcases h.of_isAtom hpath.isAtom with ⟨v, rfl, -⟩ | ⟨other, hother, rfl⟩ | ⟨after, other, rfl, -, -⟩
  · exact hpath.not_number.elim
  · rw [hother.unique hpath]
  · cases hpath

theorem Derives.eq_globalName {path : List String} (h : Derives k (.operator "::" :: ts) t)
    (hpath : Segments ts path) : t = .name ("" :: path) := by
  have hatom : IsAtom (.operator "::" :: ts) := by
    intro x hx
    rcases List.mem_cons.mp hx with rfl | hx
    · exact .inr rfl
    · exact hpath.isAtom x hx
  rcases h.of_isAtom hatom with ⟨v, heq, -⟩ | ⟨other, h, -⟩ | ⟨after, other, heq, h, rfl⟩
  · cases heq
  · cases h
  · obtain rfl := (List.cons.inj heq).2
    rw [h.unique hpath]

theorem Derives.eq_number {v : Nat} (h : Derives k [.word (toString v)] t) : t = .number v := by
  have hatom : IsAtom [.word (toString v)] := by
    intro x hx
    exact .inl ⟨_, List.mem_singleton.mp hx⟩
  rcases h.of_isAtom hatom with ⟨w, heq, rfl⟩ | ⟨other, h, -⟩ | ⟨after, other, heq, -, -⟩
  · simp only [List.cons.injEq, Token.word.injEq, and_true] at heq
    rw [toString_nat_inj heq]
  · exact h.not_number.elim
  · cases heq

theorem Derives.of_call_group {L : List Token} {w : String} (h : Derives k ts t) (hL : Paired L)
    (hw : isIdentifier w = true) (heq : ts = .word w :: group L) :
    ∃ a, t = .call (.name [w]) a ∧ Derives 0 L a := by
  induction h with
  | @binary _ l r op' a b _ hl _ _ _ =>
    obtain ⟨x, l', rfl⟩ := List.exists_cons_of_ne_nil hl.ne_nil
    obtain ⟨rfl, hinside⟩ := List.cons.inj heq
    rcases (hl.paired.of_cons (by simp)).eq_nil_of_group hL hinside with rfl | hnil
    · exact absurd (List.cons.inj hinside).1 (by simp)
    · cases hnil
  | tighter _ ih => exact ih heq
  | unary _ _ _ => cases heq
  | @call f arg a b hf harg _ _ =>
    obtain ⟨x, f', rfl⟩ := List.exists_cons_of_ne_nil hf.ne_nil
    obtain ⟨rfl, hinside⟩ := List.cons.inj heq
    rcases (hf.paired.of_cons (by simp)).eq_nil_of_group hL hinside with rfl | hnil
    · obtain rfl := hf.eq_name (.last hw)
      have hsame : arg = L := List.append_cancel_right (List.cons.inj hinside).2
      exact ⟨b, rfl, hsame ▸ harg⟩
    · cases hnil
  | paren _ _ => cases heq
  | number v => cases heq
  | name h => cases h <;> cases heq
  | globalName h => cases heq

namespace Means
variable {L R : List Token} {a b : ExprTree} {op : String}

theorem derives (h : Means ts t) : Derives 0 ts t := (h t).mpr rfl

theorem binary {k : Nat} (hop : precedence? op = some k) (hl : Means L a) (hr : Means R b) :
    Means (group L ++ .operator op :: group R) (.binary op a b) := by
  intro u
  constructor
  · intro h
    obtain ⟨a', b', rfl, ha, hb⟩ := h.of_groups hl.derives.paired hr.derives.paired rfl
    rw [(hl a').mp ha, (hr b').mp hb]
  · rintro rfl
    have hk : k < unaryLevel := by
      unfold precedence? at hop
      exact (List.findIdx?_eq_some_iff_findIdx_eq.mp hop).1
    have hprimary : primaryLevel = unaryLevel + 2 := rfl
    have hbinary := Derives.binary hop (hl.derives.paren.of_primary (by omega))
      (hr.derives.paren.of_primary (by omega))
    exact .loosen k (by rwa [Nat.zero_add])

theorem unary (hop : op ∈ unaryOperators) (h : Means L a) :
    Means (.operator op :: group L) (.unary op a) := by
  intro u
  constructor
  · intro hu
    have hcolons : op ≠ "::" := by
      rintro rfl
      exact absurd hop (by decide)
    obtain ⟨a', rfl, ha⟩ := hu.of_unary_group h.derives.paired hcolons rfl
    rw [(h a').mp ha]
  · rintro rfl
    exact .loosen unaryLevel (by
      rw [Nat.zero_add]
      exact .unary hop (h.derives.paren.of_primary (by decide)))

theorem call {w : String} (hw : isIdentifier w = true) (h : Means L a) :
    Means (.word w :: group L) (.call (.name [w]) a) := by
  intro u
  constructor
  · intro hu
    obtain ⟨a', rfl, ha⟩ := hu.of_call_group h.derives.paired hw rfl
    rw [(h a').mp ha]
  · rintro rfl
    have hname : Derives callLevel [.word w] (.name [w]) := (Derives.name (.last hw)).tighter
    exact .loosen callLevel (by
      rw [Nat.zero_add]
      exact hname.call h.derives)

theorem name {path : List String} (h : Segments ts path) : Means ts (.name path) := by
  intro u
  constructor
  · intro hu
    exact hu.eq_name h
  · rintro rfl
    exact (Derives.name h).of_primary (by decide)

theorem globalName {path : List String} (h : Segments ts path) :
    Means (.operator "::" :: ts) (.name ("" :: path)) := by
  intro u
  constructor
  · intro hu
    exact hu.eq_globalName h
  · rintro rfl
    exact (Derives.globalName h).of_primary (by decide)

theorem number (v : Nat) : Means [.word (toString v)] (.number v) := by
  intro u
  constructor
  · intro hu
    exact hu.eq_number
  · rintro rfl
    exact (Derives.number v).of_primary (by decide)

end Means
end
end CodecGen.Emit
