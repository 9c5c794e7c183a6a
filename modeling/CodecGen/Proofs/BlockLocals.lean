import CodecGen.Proofs.CompiledExpressions
import CodecGen.Proofs.DeclaredNames
set_option autoImplicit false
/-!
The locals of generated code, block by block. A statement reads names, declares one, and opens or
closes a block; `AllDeclared` says that every name which is read has been declared before, in the
same or an enclosing block.
-/
namespace CodecGen.Emit
open Schema

/-- The local that a token stands for between its neighbours. What is called is a function, and what a
double colon joins is a path. -/
def Token.local? (before after : Option Token) : Token → Option String
  | .word w =>
    if isIdentifier w && before != some (.operator "::") && after != some (.operator "::") &&
      after != some (.mark '(') then some w else none
  | _ => none

def localsIn (before : Option Token) : List Token → List String
  | [] => []
  | t :: rest => (t.local? before rest.head?).toList ++ localsIn (some t) rest

def operandNames (text : String) : List String := localsIn none (tokens text)

def Token.isBreak : Token → Bool
  | .word _ => false
  | .operator op => op != "::"
  | .mark c => c != '('

section
variable {before : Option Token} {t : Token} {l r ts : List Token}

theorem localsIn_some (ht : t ≠ .operator "::") : localsIn (some t) ts = localsIn none ts := by
  cases ts with
  | nil => rfl
  | cons x rest => cases x <;> simp [localsIn, Token.local?, ht]

theorem local?_of_isBreak (ht : t.isBreak = true) (x : Token) :
    x.local? before (some t) = x.local? before none := by
  cases x with
  | word w => cases t <;> simp_all [Token.local?, Token.isBreak]
  | operator op => rfl
  | mark c => rfl

theorem localsIn_cons_break (ht : t.isBreak = true) : localsIn before (t :: ts) = localsIn none ts := by
  have hnone : t.local? before ts.head? = none := by
    cases t with
    | word w => cases ht
    | _ => rfl
  rw [localsIn, hnone, Option.toList_none, List.nil_append, localsIn_some]
  rintro rfl
  cases ht

theorem localsIn_append_break (ht : t.isBreak = true) :
    localsIn before (l ++ t :: r) = localsIn before l ++ localsIn none r := by
  induction l generalizing before with
  | nil => exact localsIn_cons_break ht
  | cons x l ih =>
    have hhead : x.local? before (l ++ t :: r).head? = x.local? before l.head? := by
      cases l with
      | nil => exact local?_of_isBreak ht x
      | cons y l => rfl
    rw [List.cons_append, localsIn, localsIn, ih, hhead, List.append_assoc]

theorem localsIn_group : localsIn before (group ts) = localsIn none ts := by
  have hopen : localsIn before (group ts) = localsIn (some (.mark '(')) (ts ++ [.mark ')']) := rfl
  rw [hopen, localsIn_some (by simp), localsIn_append_break rfl]
  exact List.append_nil _

theorem localsIn_call {w : String} : localsIn none (.word w :: group ts) = localsIn none ts := by
  have hcall : Token.local? none (group ts).head? (.word w) = none := by simp [Token.local?, group]
  rw [localsIn, hcall, Option.toList_none, List.nil_append, localsIn_group]

theorem localsIn_word (w : String) : localsIn none [.word w] = if isIdentifier w then [w] else [] := by
  cases h : isIdentifier w <;> simp [localsIn, Token.local?, h]

theorem localsIn_behind_colons {path : List String} (h : Segments ts path) :
    localsIn (some (.operator "::")) ts = [] := by
  induction h with
  | last _ => simp [localsIn, Token.local?]
  | @cons w ts path _ _ ih =>
    have hjoin : localsIn (some (.word w)) (.operator "::" :: ts) = [] := ih
    rw [localsIn, hjoin]
    simp [Token.local?]

theorem localsIn_path {path : List String} (h : Segments ts path) (hlong : 2 ≤ path.length) :
    localsIn none ts = [] := by
  cases h with
  | last _ =>
    rw [List.length_singleton] at hlong
    omega
  | @cons w ts path _ hrest =>
    have hjoin : localsIn (some (.word w)) (.operator "::" :: ts) = [] := localsIn_behind_colons hrest
    rw [localsIn, hjoin]
    simp [Token.local?]

end

theorem operandNames_identifier {w : String} (h : isIdentifier w = true) : operandNames w = [w] := by
  rw [operandNames, tokens_identifier h, localsIn_word, if_pos h]

theorem operandNames_nat (v : Nat) : operandNames (toString v) = [] := by
  rw [operandNames, tokens_toString, localsIn_word, if_neg (not_isIdentifier_toString v)]

theorem operandNames_int (v : Int) : operandNames (toString v) = [] := by
  cases v with
  | ofNat v => exact operandNames_nat v
  | negSucc v =>
    have hminus : toString (Int.negSucc v) = "-" ++ toString (v + 1) := rfl
    have htokens : tokens ("-" ++ toString (v + 1)) = [.operator "-", .word (toString (v + 1))] := by
      rw [tokens_append, tokens_toString]
      · rfl
      · intro a ha b hb
        cases ha
        have hword := List.all_eq_true.mp (isWordChar_toString (v + 1)) b (List.mem_of_head? hb)
        exact joins_operator_word (by decide) hword
    rw [operandNames, hminus, htokens, localsIn_cons_break rfl, localsIn_word,
      if_neg (not_isIdentifier_toString (v + 1))]

theorem operandNames_binary {op : String} (hop : op ∈ binaryOps) (x y : String) :
    operandNames ("(" ++ x ++ ") " ++ op ++ " (" ++ y ++ ")") = operandNames x ++ operandNames y := by
  have hbreak : Token.isBreak (.operator op) = true := by
    simp only [binaryOps, List.mem_cons, List.not_mem_nil, or_false] at hop
    rcases hop with rfl | rfl | rfl | rfl | rfl | rfl <;> decide
  rw [operandNames, tokens_binary, (tokens_operator hop).1, List.append_assoc, List.singleton_append,
    localsIn_append_break hbreak, localsIn_group, localsIn_group]
  rfl

theorem operandNames_complement (x : String) : operandNames ("~(" ++ x ++ ")") = operandNames x := by
  rw [operandNames, tokens_complement, localsIn_cons_break rfl, localsIn_group]
  rfl

theorem operandNames_popCount (x : String) : operandNames ("PopCount(" ++ x ++ ")") = operandNames x := by
  rw [operandNames, tokens_popCount, localsIn_call]
  rfl

theorem operandNames_enumRef {ns : List String} {enum : Name} {item : String}
    (henum : enum.all isIdentifier = true) (hitem : isIdentifier item = true) :
    operandNames (qualify (.mention .enum enum) ns ++ "::" ++ safeName item) = [] := by
  rw [operandNames]
  rcases tokens_enumRef henum hitem with ⟨-, htokens⟩ | ⟨hne, hsegments⟩
  · rw [htokens]
    exact localsIn_behind_colons (.last (isIdentifier_safeName hitem))
  · apply localsIn_path hsegments
    have hlength := List.length_pos_iff.mpr hne
    rw [List.length_append, List.length_singleton]
    omega

theorem operandNames_test {test selector : String} (htest : test = "CaseEq" ∨ test = "CaseAnd")
    (hselector : isIdentifier selector = true) (x : String) :
    operandNames (test ++ "(" ++ selector ++ ", " ++ x ++ ")") = selector :: operandNames x := by
  have hidentifier : isIdentifier test = true := by
    rcases htest with rfl | rfl <;> decide
  have htokens : tokens (test ++ "(" ++ selector ++ ", " ++ x ++ ")") =
      .word test :: group (.word selector :: .operator "," :: tokens x) := by
    have hcomma : tokens (selector ++ ", ") = [.word selector, .operator ","] := by
      rw [tokens_append, tokens_identifier hselector]
      · rfl
      · intro a ha b hb
        have hword := List.all_eq_true.mp (isWordChar_of_isIdentifier hselector) a
          (List.mem_of_getLast? ha)
        cases hb
        exact joins_word_operator hword (by decide)
    have hvalue : tokens (selector ++ ", " ++ x) = .word selector :: .operator "," :: tokens x := by
      rw [tokens_append, hcomma]
      · rfl
      · intro a ha b _
        rw [String.toList_append, List.getLast?_append] at ha
        cases ha
        exact joins_of_isLoose_left (by decide)
    have hsplit : test ++ "(" ++ selector ++ ", " ++ x ++ ")" =
        test ++ "(" ++ (selector ++ ", " ++ x) ++ ")" := by simp [String.append_assoc]
    rw [hsplit, tokens_append_seam _ (by decide), tokens_between _ _ (by decide), hvalue,
      tokens_identifier hidentifier]
    rfl
  -- the comma separates the selector from the value, and no name reaches over it
  have hbreak : localsIn none ([.word selector] ++ .operator "," :: tokens x) =
      selector :: localsIn none (tokens x) := by
    rw [localsIn_append_break rfl, localsIn_word, if_pos hselector]
    rfl
  rw [operandNames, htokens, localsIn_call]
  exact hbreak

abbrev Blocks := List (List String)

namespace Blocks

def Has (env : Blocks) (x : String) : Prop := ∃ b ∈ env, x ∈ b

instance (env : Blocks) (x : String) : Decidable (env.Has x) :=
  inferInstanceAs (Decidable (∃ b ∈ env, x ∈ b))

def extend (names : List String) : Blocks → Blocks
  | [] => [names]
  | b :: env => (names ++ b) :: env

variable {env : Blocks} {names : List String} {x : String}

@[simp] theorem has_cons {b : List String} : Has (b :: env) x ↔ x ∈ b ∨ env.Has x := by simp [Has]

@[simp] theorem has_extend : (env.extend names).Has x ↔ x ∈ names ∨ env.Has x := by
  cases env <;> simp [extend, Has, or_assoc]

end Blocks

namespace Stmt

def reads : Stmt → List String
  | copy _ name => [name]
  | resize list size | checkSize list size => list :: operandNames size
  | openLoop _ list | closeSum list | bindLength _ list => [list]
  | openBranch conditions => conditions.flatMap operandNames
  | define _ _ value | bindSelector _ value | summand value => operandNames value
  | bindMember _ object | bindMemberAside _ _ object => [object]
  | bindFromAside _ id => [asideName id]
  | _ => []

def enter (env : Blocks) : Stmt → Blocks
  | openBlock | openBranch _ => [] :: env
  | openLoop element _ => [element] :: env
  | openSum id _ => [listElementName] :: env.extend [sumName id]
  | closeBlock | closeSum _ => env.tail
  | x => env.extend x.declared?.toList

/-- The blocks in which a statement looks for its names: what a sum runs over is named behind its
body. -/
def sees (env : Blocks) : Stmt → Blocks
  | closeSum _ => env.tail
  | _ => env

end Stmt

def enterAll (env : Blocks) (stmts : List Stmt) : Blocks := stmts.foldl Stmt.enter env

/-- Every name is declared, in the same block or in one around it, before it is read. -/
def AllDeclared (env : Blocks) : List Stmt → Prop
  | [] => True
  | x :: rest => (∀ y ∈ x.reads, (x.sees env).Has y) ∧ AllDeclared (x.enter env) rest

instance AllDeclared.decidable (env : Blocks) : (stmts : List Stmt) → Decidable (AllDeclared env stmts)
  | [] => .isTrue trivial
  | x :: rest =>
    have := AllDeclared.decidable (x.enter env) rest
    inferInstanceAs (Decidable ((∀ y ∈ x.reads, (x.sees env).Has y) ∧ AllDeclared (x.enter env) rest))

section
variable {env : Blocks} {xs ys : List Stmt}

theorem enterAll_append : enterAll env (xs ++ ys) = enterAll (enterAll env xs) ys := List.foldl_append

theorem allDeclared_append :
    AllDeclared env (xs ++ ys) ↔ AllDeclared env xs ∧ AllDeclared (enterAll env xs) ys := by
  induction xs generalizing env with
  | nil => simp [AllDeclared, enterAll]
  | cons x xs ih =>
    rw [List.cons_append, AllDeclared, ih, AllDeclared, and_assoc]
    rfl

end

theorem safeName_eq_self {w : String} :
    safeName w = w ↔ startsWithDigit w = false ∧ w ∉ reservedNames := by
  unfold safeName
  split
  · next h =>
    have hlonger : "c_" ++ w ≠ w := by
      intro heq
      have hlength := congrArg String.length heq
      simp at hlength
    constructor
    · intro heq
      exact absurd heq hlonger
    · rintro ⟨hdigit, hreserved⟩
      simp [hdigit, hreserved] at h
  · next h => simpa using h

theorem not_reserved {w : String} (h : '_' ∈ w.toList) : w ∉ reservedNames := by
  have hplain : ∀ r ∈ reservedNames, '_' ∉ r.toList := by decide
  intro hmem
  exact hplain w hmem h

theorem safeName_idem (w : String) : safeName (safeName w) = safeName w := by
  by_cases h : safeName w = w
  · rw [h, h]
  · have haltered : safeName w = "c_" ++ w := by
      unfold safeName at h ⊢
      split at h
      · next hc => rw [if_pos hc]
      · exact absurd rfl h
    rw [haltered, safeName_eq_self, startsWithDigit_append (by decide)]
    exact ⟨by decide, not_reserved (by simp)⟩

theorem safeName_suffix {x y : String} (hx : safeName x = x) (hy : y.toList.head? = some '_') :
    safeName (x ++ y) = x ++ y := by
  rw [safeName_eq_self] at hx ⊢
  constructor
  · by_cases hempty : x.toList = []
    · have hstart : (x ++ y).toList = y.toList := by simp [hempty]
      cases hcs : y.toList with
      | nil =>
        rw [hcs] at hy
        cases hy
      | cons c cs =>
        rw [hcs] at hy
        cases hy
        unfold startsWithDigit
        rw [hstart, hcs]
        rfl
    · rw [startsWithDigit_append hempty]
      exact hx.1
  · apply not_reserved
    rw [String.toList_append, List.mem_append]
    exact .inr (List.mem_of_head? hy)

structure Incidental (x : String) : Prop where
  safe : safeName x = x
  not_size : ¬ "_len".toList <:+ x.toList
  not_element : x ≠ listElementName

instance (x : String) : Decidable (Incidental x) :=
  decidable_of_iff (safeName x = x ∧ ¬ "_len".toList <:+ x.toList ∧ x ≠ listElementName)
    ⟨fun h => ⟨h.1, h.2.1, h.2.2⟩, fun h => ⟨h.safe, h.not_size, h.not_element⟩⟩

theorem getLast?_append_some {y : String} {c : Char} (x : String) (h : y.toList.getLast? = some c) :
    (x ++ y).toList.getLast? = some c := by
  rw [String.toList_append, List.getLast?_append, h]
  rfl

theorem Incidental.of_last {x : String} {c : Char} (hsafe : safeName x = x)
    (hlast : x.toList.getLast? = some c) (hn : c ≠ 'n') (hf : c ≠ 'f') : Incidental x := by
  refine ⟨hsafe, ?_, ?_⟩
  · rintro ⟨base, hbase⟩
    rw [← hbase, List.getLast?_append] at hlast
    exact hn (Option.some.inj hlast).symm
  · rintro rfl
    exact hf (Option.some.inj hlast).symm

theorem incidental_sumName (n : Nat) : Incidental (sumName n) := by
  have hsafe : safeName (sumName n) = sumName n := by
    unfold sumName
    rw [safeName_eq_self, String.append_assoc, startsWithDigit_append (by decide)]
    exact ⟨by decide, not_reserved (by simp)⟩
  exact .of_last (c := '_') hsafe (getLast?_append_some _ rfl) (by decide) (by decide)

theorem incidental_asideName (n : Nat) : Incidental (asideName n) := by
  have hsafe : safeName (asideName n) = asideName n := by
    unfold asideName
    rw [safeName_eq_self, startsWithDigit_append (by decide)]
    refine ⟨by decide, ?_⟩
    have hheads : ∀ r ∈ reservedNames, r.toList.head? ≠ some 't' := by decide
    intro hmem
    exact hheads _ hmem (by simp)
  cases hlast : (toString n).toList.getLast? with
  | none => exact absurd (List.getLast?_eq_none_iff.mp hlast) (toList_toString_ne_nil n)
  | some c =>
    have hdigit : c.isDigit = true := by
      rw [Nat.toString_eq_ofList_toDigits, String.toList_ofList] at hlast
      exact Nat.isDigit_of_mem_toDigits (by decide) (by decide) (List.mem_of_getLast? hlast)
    refine .of_last (c := c) hsafe (getLast?_append_some _ hlast) ?_ ?_
    · rintro rfl
      exact absurd hdigit (by decide)
    · rintro rfl
      exact absurd hdigit (by decide)

theorem incidental_elem {x : String} (hx : safeName x = x) : Incidental (x ++ "_elem") :=
  .of_last (c := 'm') (safeName_suffix hx rfl) (getLast?_append_some _ rfl) (by decide) (by decide)

theorem incidental_expr {x : String} (hx : safeName x = x) : Incidental (x ++ "_expr") :=
  .of_last (c := 'r') (safeName_suffix hx rfl) (getLast?_append_some _ rfl) (by decide) (by decide)

/-- The local of a field in scope, or of the size of a list in scope. -/
def LocalOf (s : Scope) (x : String) : Prop :=
  (∃ f ∈ s, safeName f.name = x) ∨ ∃ f ∈ s, isListField f = true ∧ safeName f.name ++ "_len" = x

instance (s : Scope) (x : String) : Decidable (LocalOf s x) :=
  inferInstanceAs (Decidable ((∃ f ∈ s, safeName f.name = x) ∨
    ∃ f ∈ s, isListField f = true ∧ safeName f.name ++ "_len" = x))

theorem LocalOf.mono {s t : Scope} {x : String} (h : LocalOf s x) (hst : ∀ f ∈ s, f ∈ t) :
    LocalOf t x := by
  rcases h with ⟨f, hf, hx⟩ | ⟨f, hf, hlist, hx⟩
  · exact .inl ⟨f, hst f hf, hx⟩
  · exact .inr ⟨f, hst f hf, hlist, hx⟩

theorem LocalOf.safe {s : Scope} {x : String} (h : LocalOf s x) : safeName x = x := by
  rcases h with ⟨f, -, rfl⟩ | ⟨f, -, -, rfl⟩
  · exact safeName_idem f.name
  · exact safeName_suffix (safeName_idem f.name) rfl

def Supplies (env : Blocks) (s : Scope) : Prop := ∀ x, LocalOf s x → env.Has x

section
variable {object : String} {s : Scope} {n : Nat} {b : List String} {env : Blocks}

theorem size_declared {f : Field} {names : List String} (hs : Supplies (b :: env) s)
    (hname : safeName f.name ∈ names) (hsize : ∀ x ∈ sizeName s f, x ∈ names) :
    Supplies ((names ++ b) :: env) (f :: s) := by
  have hfield : ∀ g ∈ f :: s, Blocks.Has ((names ++ b) :: env) (safeName g.name) := by
    intro g hg
    rcases List.mem_cons.mp hg with rfl | hg
    · exact Blocks.has_cons.mpr (.inl (List.mem_append_left _ hname))
    · have hold := hs _ (.inl ⟨g, hg, rfl⟩)
      simp only [Blocks.has_cons, List.mem_append] at hold ⊢
      tauto
  rintro x (⟨g, hg, rfl⟩ | ⟨g, hg, hlist, rfl⟩)
  · exact hfield g hg
  · rcases List.mem_cons.mp hg with rfl | hg
    · cases hresolve : Scope.resolve? (g :: s) (safeName g.name ++ "_len") with
      | none =>
        have hnew := hsize _ (mem_sizeName.mpr ⟨hlist, rfl, hresolve⟩)
        exact Blocks.has_cons.mpr (.inl (List.mem_append_left _ hnew))
      | some taken =>
        have hmem := List.mem_of_find?_eq_some hresolve
        have htaken : taken.name = safeName g.name ++ "_len" := by
          simpa using List.find?_some hresolve
        have hlocal := hfield taken hmem
        rwa [htaken, safeName_suffix (safeName_idem g.name) rfl] at hlocal
    · have hold := hs _ (.inr ⟨g, hg, hlist, rfl⟩)
      simp only [Blocks.has_cons, List.mem_append] at hold ⊢
      tauto

/-- Statements without blocks of their own that find all they name, after which the locals of all fields
in scope are declared. -/
def Prepares (b : List String) (env : Blocks) (t : Scope) (stmts : List Stmt) : Prop :=
  ∃ names, enterAll (b :: env) stmts = (names ++ b) :: env ∧ AllDeclared (b :: env) stmts ∧
    Supplies ((names ++ b) :: env) t ∧ ∀ x ∈ names, LocalOf t x ∨ Incidental x

theorem memberStmts_prepares {f : Field} (hobject : Blocks.Has (b :: env) object)
    (hs : Supplies (b :: env) s) : Prepares b env (f :: s) (memberStmts object s n f) := by
  let names := sizeName s f ++ safeName f.name :: if safeName f.name = object then [asideName n] else []
  have hsize : lengthStmts (f :: s) f = (sizeName s f).map (.bindLength · (safeName f.name)) := by
    unfold lengthStmts sizeName
    split <;> rfl
  have hone : sizeName s f = [] ∨ ∃ x, sizeName s f = [x] := by
    unfold sizeName
    split
    · exact .inr ⟨_, rfl⟩
    · exact .inl rfl
  have hrun : enterAll (b :: env) (memberStmts object s n f) = (names ++ b) :: env ∧
      AllDeclared (b :: env) (memberStmts object s n f) := by
    rw [Blocks.has_cons] at hobject
    -- with or without a temporary, and with or without a size
    by_cases ho : safeName f.name = object <;> rcases hone with hx | ⟨x, hx⟩ <;>
      simp [names, memberStmts, hsize, ho, hx, enterAll, Stmt.enter, Stmt.declared?, Blocks.extend,
        AllDeclared, Stmt.reads, Stmt.sees, hobject]
  refine ⟨names, hrun.1, hrun.2, ?_, ?_⟩
  · apply size_declared hs
    · exact List.mem_append_right _ List.mem_cons_self
    · intro x hx
      exact List.mem_append_left _ hx
  · intro x hx
    rcases List.mem_append.mp hx with hx | hx
    · obtain ⟨hlist, rfl, -⟩ := mem_sizeName.mp hx
      exact .inl (.inr ⟨f, List.mem_cons_self, hlist, rfl⟩)
    · rcases List.mem_cons.mp hx with rfl | hx
      · exact .inl (.inl ⟨f, List.mem_cons_self, rfl⟩)
      · split at hx
        · rw [List.mem_singleton.mp hx]
          exact .inr (incidental_asideName n)
        · cases hx

theorem bindMembers_prepares (fields : List Field) (hobject : Blocks.Has (b :: env) object)
    (hs : Supplies (b :: env) s) :
    Prepares b env (boundBy fields ++ s) (bindMembers object fields ⟨s, n⟩).1 := by
  induction fields generalizing b s n with
  | nil => exact ⟨[], rfl, trivial, hs, by simp⟩
  | cons f rest ih =>
    by_cases hf : Scope.binds f = true
    · obtain ⟨names, hrun, hdeclared, hsupplies, hnames⟩ := memberStmts_prepares (n := n) hobject hs
      have hobject' : Blocks.Has ((names ++ b) :: env) object := by
        simp only [Blocks.has_cons, List.mem_append] at hobject ⊢
        tauto
      obtain ⟨more, hmore, hrest, hall, hmorenames⟩ :=
        ih (n := n + if safeName f.name = object then 1 else 0) hobject' hsupplies
      rw [bindMembers_cons_of_binds object rest s n hf, boundBy_cons_of_binds rest hf,
        List.append_assoc, List.singleton_append]
      refine ⟨more ++ names, ?_, allDeclared_append.mpr ⟨hdeclared, ?_⟩, ?_, ?_⟩
      · rw [enterAll_append, hrun, hmore, List.append_assoc]
      · rw [hrun]
        exact hrest
      · rwa [List.append_assoc]
      · intro x hx
        rcases List.mem_append.mp hx with hx | hx
        · exact hmorenames x hx
        · refine (hnames x hx).imp_left fun hlocal => hlocal.mono ?_
          intro g hg
          exact List.mem_append_right _ hg
    · rw [bindMembers_cons_of_not_binds object rest _ hf, boundBy_cons_of_not_binds rest hf]
      exact ih hobject hs

theorem bindFields_prepares (fields : List Field) (hobject : Blocks.Has (b :: env) object)
    (hs : Supplies (b :: env) s) :
    Prepares b env (boundBy fields ++ s) (bindFields object fields ⟨s, n⟩).1 := by
  obtain ⟨names, hrun, hdeclared, hsupplies, hnames⟩ :=
    bindMembers_prepares (n := n) fields hobject hs
  rw [bindFields_stmts]
  refine ⟨names, ?_, allDeclared_append.mpr ⟨hdeclared, ?_⟩, hsupplies, hnames⟩
  · rw [enterAll_append, hrun]
    split <;> rfl
  · rw [hrun]
    split
    · trivial
    · exact ⟨by simp [Stmt.reads], trivial⟩

end
end CodecGen.Emit
