import CodecGen.Proofs.Brackets
import CodecGen.Proofs.EmittedExpressions
import CodecGen.Proofs.ExpressionGrammar
set_option autoImplicit false
/-!
Expressions keep their meaning. The text that an expression compiles to has one reading under the
precedence and associativity of C++, and that reading is the expression itself, with a sum replaced by
the temporary that holds it.
-/
namespace CodecGen.Emit
open Schema

def isWellNamed : Expr → Bool
  | .binary op lhs rhs => binaryOps.contains op && isWellNamed lhs && isWellNamed rhs
  | .complement operand | .popCount operand => isWellNamed operand
  | .fieldLen name | .fieldRef name => isIdentifier name
  | .sumOf list summand => isIdentifier list && isWellNamed summand
  | .enumRef enum item => enum.all isIdentifier && isIdentifier item
  | .absent | .listElement | .value _ => true

/-- The path to an item as seen from inside a namespace. Where the enumeration is the namespace
itself, the item is looked up from outside all namespaces. -/
def itemPath (ns : List String) (enum : Name) (item : String) : List String :=
  match chop (qualifiedPath (.mention .enum enum)) ns with
  | [] => ["", safeName item]
  | path => path ++ [safeName item]

/-- The tree is that of the expression, where the outermost sums are, from left to right, the
temporaries with these numbers. -/
inductive Mirrors (ns : List String) : Expr → List Nat → ExprTree → Prop where
  | binary {op : String} {lhs rhs : Expr} {is js : List Nat} {a b : ExprTree}
      (hl : Mirrors ns lhs is a) (hr : Mirrors ns rhs js b) :
      Mirrors ns (.binary op lhs rhs) (is ++ js) (.binary op a b)
  | complement {operand : Expr} {is : List Nat} {a : ExprTree} (h : Mirrors ns operand is a) :
      Mirrors ns (.complement operand) is (.unary "~" a)
  | popCount {operand : Expr} {is : List Nat} {a : ExprTree} (h : Mirrors ns operand is a) :
      Mirrors ns (.popCount operand) is (.call (.name ["PopCount"]) a)
  | fieldLen (name : String) : Mirrors ns (.fieldLen name) [] (.name [safeName name ++ "_len"])
  | fieldRef (name : String) : Mirrors ns (.fieldRef name) [] (.name [name])
  | enumRef (enum : Name) (item : String) :
      Mirrors ns (.enumRef enum item) [] (.name (itemPath ns enum item))
  | listElement : Mirrors ns .listElement [] (.name [listElementName])
  | value (v : Nat) : Mirrors ns (.value v) [] (.number v)
  | sumOf (list : String) (summand : Expr) (id : Nat) :
      Mirrors ns (.sumOf list summand) [id] (.name [sumName id])

theorem tokens_binary (x y op : String) :
    tokens ("(" ++ x ++ ") " ++ op ++ " (" ++ y ++ ")") =
      group (tokens x) ++ tokens op ++ group (tokens y) := by
  rw [tokens_append_seam _ (by decide), tokens_between _ y (by decide), tokens_between _ op (by decide),
    tokens_seam_append x (by decide)]
  have hopen : tokens "(" = [.mark '('] := by decide
  have hleft : tokens ") " = [.mark ')'] := by decide
  have hright : tokens " (" = [.mark '('] := by decide
  have hclose : tokens ")" = [.mark ')'] := by decide
  simp [hopen, hleft, hright, hclose, group]

theorem tokens_complement (x : String) :
    tokens ("~(" ++ x ++ ")") = .operator "~" :: group (tokens x) := by
  have hsplit : "~(" ++ x ++ ")" = "~" ++ "(" ++ x ++ ")" := rfl
  rw [hsplit, tokens_append_seam _ (by decide), tokens_between _ x (by decide)]
  rfl

theorem tokens_popCount (x : String) :
    tokens ("PopCount(" ++ x ++ ")") = .word "PopCount" :: group (tokens x) := by
  have hsplit : "PopCount(" ++ x ++ ")" = "PopCount" ++ "(" ++ x ++ ")" := rfl
  rw [hsplit, tokens_append_seam _ (by decide), tokens_between _ x (by decide)]
  rfl

theorem head_isWordChar {w : String} (h : isIdentifier w = true) (x : String) :
    ∀ c ∈ (w ++ x).toList.head?, isWordChar c = true := by
  intro c hc
  simp only [isIdentifier, Bool.and_eq_true, Bool.not_eq_true', List.isEmpty_eq_false_iff] at h
  rw [String.toList_append, List.head?_append_of_ne_nil _ h.1.1] at hc
  exact List.all_eq_true.mp h.1.2 c (List.mem_of_head? hc)

theorem tokens_qualified {w x : String} (hw : isIdentifier w = true)
    (hx : ∀ c ∈ x.toList.head?, isWordChar c = true) :
    tokens (w ++ "::" ++ x) = .word w :: .operator "::" :: tokens x := by
  rw [tokens_append, tokens_append, tokens_identifier hw]
  · rfl
  · intro a ha b hb
    have hword := List.all_eq_true.mp (isWordChar_of_isIdentifier hw) a (List.mem_of_getLast? ha)
    cases hb
    exact joins_word_operator hword (by decide)
  · intro a ha b hb
    rw [String.toList_append, List.getLast?_append] at ha
    cases ha
    exact joins_operator_word (by decide) (hx b hb)

theorem segments_intercalate {path : List String} (hpath : ∀ w ∈ path, isIdentifier w = true)
    (hne : path ≠ []) : Segments (tokens (String.intercalate "::" path)) path := by
  induction path with
  | nil => exact absurd rfl hne
  | cons w rest ih =>
    obtain ⟨hw, hrest⟩ := List.forall_mem_cons.mp hpath
    cases rest with
    | nil =>
      rw [String.intercalate_singleton, tokens_identifier hw]
      exact .last hw
    | cons v rest =>
      have hhead : ∀ c ∈ (String.intercalate "::" (v :: rest)).toList.head?, isWordChar c = true := by
        have hv := hrest v List.mem_cons_self
        cases rest with
        | nil =>
          rw [String.intercalate_singleton, ← String.append_empty (s := v)]
          exact head_isWordChar hv ""
        | cons u rest =>
          rw [String.intercalate_cons_cons, String.append_assoc]
          exact head_isWordChar hv _
      rw [String.intercalate_cons_cons, tokens_qualified hw hhead]
      exact .cons hw (ih hrest (List.cons_ne_nil v rest))

theorem tokens_enumRef {ns : List String} {enum : Name} {item : String}
    (henum : enum.all isIdentifier = true) (hitem : isIdentifier item = true) :
    let text := qualify (.mention .enum enum) ns ++ "::" ++ safeName item
    let path := chop (qualifiedPath (.mention .enum enum)) ns
    (path = [] ∧ tokens text = [.operator "::", .word (safeName item)]) ∨
      path ≠ [] ∧ Segments (tokens text) (path ++ [safeName item]) := by
  intro text path
  have hsafe := isIdentifier_safeName hitem
  have htext : text = String.intercalate "::" path ++ "::" ++ safeName item := rfl
  rw [htext]
  have hpath : ∀ w ∈ path, isIdentifier w = true := by
    intro w hw
    have hown := List.all_eq_true.mp henum
    rcases mem_qualifiedPath (mem_of_mem_chop hw) with rfl | rfl | hw | ⟨v, hv, rfl⟩
    · decide
    · decide
    · exact hown w hw
    · exact isIdentifier_append (hown v hv) rfl
  -- the path is empty where the enumeration is the namespace itself
  by_cases hnil : path = []
  · refine .inl ⟨hnil, ?_⟩
    rw [hnil, String.intercalate_nil, String.empty_append, tokens_append, tokens_identifier hsafe]
    · rfl
    · intro a ha b hb
      cases ha
      rw [← String.append_empty (s := safeName item)] at hb
      exact joins_operator_word (by decide) (head_isWordChar hsafe "" b hb)
  · refine .inr ⟨hnil, ?_⟩
    have hall : ∀ w ∈ path ++ [safeName item], isIdentifier w = true := by
      intro w hw
      rcases List.mem_append.mp hw with hw | hw
      · exact hpath w hw
      · rwa [List.mem_singleton.mp hw]
    have hsegments := segments_intercalate hall (by simp)
    rwa [String.intercalate_append_of_ne_nil hnil (by simp), String.intercalate_singleton]
      at hsegments

theorem means_enumRef {ns : List String} {enum : Name} {item : String}
    (henum : enum.all isIdentifier = true) (hitem : isIdentifier item = true) :
    Means (tokens (qualify (.mention .enum enum) ns ++ "::" ++ safeName item))
      (.name (itemPath ns enum item)) := by
  unfold itemPath
  rcases tokens_enumRef henum hitem with ⟨hnil, htokens⟩ | ⟨hne, hsegments⟩
  · rw [hnil, htokens]
    exact .globalName (.last (isIdentifier_safeName hitem))
  · split
    · exact absurd ‹_› hne
    · exact .name hsegments

theorem tokens_operator {op : String} (h : op ∈ binaryOps) :
    tokens op = [.operator op] ∧ ∃ k, precedence? op = some k := by
  simp only [binaryOps, List.mem_cons, List.not_mem_nil, or_false] at h
  rcases h with rfl | rfl | rfl | rfl | rfl | rfl
  · exact ⟨by decide, 9, by decide⟩
  · exact ⟨by decide, 9, by decide⟩
  · exact ⟨by decide, 10, by decide⟩
  · exact ⟨by decide, 10, by decide⟩
  · exact ⟨by decide, 5, by decide⟩
  · exact ⟨by decide, 3, by decide⟩

theorem means_identifier {w : String} (h : isIdentifier w = true) : Means (tokens w) (.name [w]) := by
  rw [tokens_identifier h]
  exact .name (.last h)

section
variable {dir : Direction} {ns : List String} {s : Scope} {n m : Nat} {e : Expr} {stmts : List Stmt}
  {text : String}

theorem Expressed.le (h : Expressed dir ns s n e stmts text m) : n ≤ m := by
  induction h with
  | binary _ _ ihl ihr => omega
  | complement _ ih => exact ih
  | popCount _ ih => exact ih
  | sumOf _ _ _ ih => omega
  | fieldLen _ => omega
  | fieldRef _ => omega
  | enumRef _ _ => omega
  | listElement => omega
  | value _ => omega

theorem Expressed.sum_free (h : Expressed dir ns s n e stmts text m) (hfree : e.sumDepth = 0) :
    stmts = [] ∧ m = n := by
  induction h with
  | binary _ _ ihl ihr =>
    simp only [Expr.sumDepth] at hfree
    obtain ⟨rfl, rfl⟩ := ihl (by omega)
    obtain ⟨rfl, rfl⟩ := ihr (by omega)
    exact ⟨rfl, rfl⟩
  | complement _ ih => exact ih hfree
  | popCount _ ih => exact ih hfree
  | sumOf _ _ _ _ => cases hfree
  | fieldLen _ => exact ⟨rfl, rfl⟩
  | fieldRef _ => exact ⟨rfl, rfl⟩
  | enumRef _ _ => exact ⟨rfl, rfl⟩
  | listElement => exact ⟨rfl, rfl⟩
  | value _ => exact ⟨rfl, rfl⟩

theorem Expressed.mirrors (h : Expressed dir ns s n e stmts text m) (hnames : isWellNamed e = true) :
    ∃ ids tree, Mirrors ns e ids tree ∧ ids.Pairwise (· < ·) ∧ (∀ id ∈ ids, n ≤ id ∧ id < m) ∧
      Means (tokens text) tree := by
  induction h with
  | @binary s n k m op lhs rhs before between x y hl hr ihl ihr =>
    simp only [isWellNamed, Bool.and_eq_true] at hnames
    obtain ⟨⟨hop, hlhs⟩, hrhs⟩ := hnames
    obtain ⟨is, a, ha, his, hisle, hmeansa⟩ := ihl hlhs
    obtain ⟨js, b, hb, hjs, hjsle, hmeansb⟩ := ihr hrhs
    obtain ⟨htokens, level, hlevel⟩ := tokens_operator (List.contains_iff_mem.mp hop)
    have hnk := hl.le
    have hkm := hr.le
    -- the right operand takes its numbers after the left one
    have hsorted : (is ++ js).Pairwise (· < ·) := by
      refine List.pairwise_append.mpr ⟨his, hjs, ?_⟩
      intro i hi j hj
      have hik := hisle i hi
      have hkj := hjsle j hj
      omega
    refine ⟨is ++ js, .binary op a b, ha.binary hb, hsorted, ?_, ?_⟩
    · intro id hid
      rcases List.mem_append.mp hid with hid | hid
      · have hik := hisle id hid
        omega
      · have hkj := hjsle id hid
        omega
    · rw [tokens_binary, htokens, List.append_assoc]
      exact hmeansa.binary hlevel hmeansb
  | complement _ ih =>
    obtain ⟨ids, a, ha, hids, hle, hmeans⟩ := ih hnames
    refine ⟨ids, _, ha.complement, hids, hle, ?_⟩
    rw [tokens_complement]
    exact hmeans.unary (by decide)
  | popCount _ ih =>
    obtain ⟨ids, a, ha, hids, hle, hmeans⟩ := ih hnames
    refine ⟨ids, _, ha.popCount, hids, hle, ?_⟩
    rw [tokens_popCount]
    exact hmeans.call (by decide)
  | @sumOf s n m list summand f member count length before x _ _ h _ =>
    have hle := h.le
    -- sums inside the summand have temporaries of their own, but the text only names the outer one
    refine ⟨[n], _, .sumOf list summand n, List.pairwise_singleton _ n, ?_,
      means_identifier (isIdentifier_sumName n)⟩
    intro id hid
    have hid := List.mem_singleton.mp hid
    omega
  | @fieldLen s n name f _ =>
    have hlen : isIdentifier (safeName name ++ "_len") = true :=
      isIdentifier_append (isIdentifier_safeName hnames) (by decide)
    exact ⟨[], _, .fieldLen name, .nil, by simp, means_identifier hlen⟩
  | fieldRef name => exact ⟨[], _, .fieldRef name, .nil, by simp, means_identifier hnames⟩
  | enumRef enum item =>
    rw [isWellNamed, Bool.and_eq_true] at hnames
    exact ⟨[], _, .enumRef enum item, .nil, by simp, means_enumRef hnames.1 hnames.2⟩
  | listElement => exact ⟨[], _, .listElement, .nil, by simp, means_identifier (by decide)⟩
  | value v =>
    refine ⟨[], _, .value v, .nil, by simp, ?_⟩
    rw [tokens_toString]
    exact .number v

end

/-- The text of a compiled expression has one reading, which is the expression with its outermost sums
replaced by temporaries of increasing numbers. Without a sum there are no statements, and no number is
taken. -/
theorem compileExpr_keeps_meaning (site : Site) (e : Expr) (frame next : Frame) (stmts : List Stmt)
    (text : String) (hnames : isWellNamed e = true)
    (hrun : (compileExpr site e).run frame = (.ok (stmts, text), next)) :
    ∃ ids tree, Mirrors site.ns e ids tree ∧ ids.Pairwise (· < ·) ∧ Means (tokens text) tree ∧
      (e.sumDepth = 0 → stmts = [] ∧ next = frame) := by
  obtain ⟨m, rfl, hexpressed⟩ := (compileExpr_expressed site e frame.scope frame.nextId).result hrun
  obtain ⟨ids, tree, hmirrors, hsorted, -, hmeans⟩ := hexpressed.mirrors hnames
  refine ⟨ids, tree, hmirrors, hsorted, hmeans, ?_⟩
  intro hfree
  obtain ⟨rfl, rfl⟩ := hexpressed.sum_free hfree
  exact ⟨rfl, rfl⟩

def maskedDifference : Expr :=
  .binary "-" (.binary "&" (.fieldRef "mask") (.sumOf "masks" .absent))
    (.popCount (.complement (.binary "*" (.sumOf "masks" .listElement) (.fieldLen "class"))))

theorem maskedDifference_keeps_meaning :
    let masks : Field := ⟨"masks", .list (.simple ["uint8_t"]) 0 none, true, true⟩
    let classes : Field := ⟨"class", .list (.simple ["uint8_t"]) 0 none, true, true⟩
    let text := "((mask) & (sum5_)) - (PopCount(~((sum6_) * (c_class_len))))"
    ∃ stmts next, (compileExpr ⟨.decode, ["x11"], []⟩ maskedDifference).run ⟨[masks, classes], 5⟩ =
        (.ok (stmts, text), next) ∧
      ∃ ids tree, Mirrors ["x11"] maskedDifference ids tree ∧ ids.Pairwise (· < ·) ∧
        Means (tokens text) tree ∧ (maskedDifference.sumDepth = 0 → stmts = [] ∧
          next = ⟨[masks, classes], 5⟩) :=
  ⟨_, _, rfl, compileExpr_keeps_meaning ⟨.decode, ["x11"], []⟩ maskedDifference _ _ _ _ (by decide) rfl⟩

end CodecGen.Emit
