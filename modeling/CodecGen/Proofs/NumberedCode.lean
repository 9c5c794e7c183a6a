import CodecGen.Proofs.ModuleTexts
import CodecGen.Proofs.NumberedLines
set_option autoImplicit false
/-!
The temporaries of statements, bindings and expressions. Where no string of the description is a
temporary, the only ones that the code mentions are those it declares, and what an expression leaves
behind is used in the block around it.
-/
namespace CodecGen.Emit
open Schema

/-- The statement declares no temporary, and those that it mentions are known: values mention what
their expressions left behind, and names none. -/
def Stmt.Reads (known : List Temporary) : Stmt → Prop
  | .fieldComment name | .copy _ name | .reserve name | .closeSum name => Clean name
  | .declare x y | .openLoop x y | .bindMember x y | .bindLength x y => Clean x ∧ Clean y
  | .define type name value => Clean type ∧ Clean name ∧ Mentions known value
  | .resize name value | .checkSize name value | .bindSelector name value =>
    Clean name ∧ Mentions known value
  | .summand value => Mentions known value
  | .openBranch conditions => ∀ x ∈ conditions, Mentions known x
  | .bindFromAside name id => Clean name ∧ .aside id ∈ known
  | .openSum .. | .bindMemberAside .. => False
  | _ => True

theorem Stmt.Reads.mentions {known : List Temporary} {x : Stmt} (h : x.Reads known) :
    Mentions known x.text := by
  cases x with
  | blank | majorOpcodeNote | lengthNote | openBlock | closeBlock => exact .of_text _ rfl
  | fieldComment name => exact .after "// " rfl (.of_clean h)
  | align n => exact (Mentions.after "Align(&buf, " rfl (.of_clean (clean_int n))).ending ");" rfl
  | pad n => exact (Mentions.after "Pad(&buf, " rfl (.of_clean (clean_int n))).ending ");" rfl
  | reserve type => exact (Mentions.after "Pad(&buf, sizeof(" rfl (.of_clean h)).ending "));" rfl
  | define type name value =>
    exact ((Mentions.of_clean (h.1.between " " rfl h.2.1)).between " = " rfl h.2.2).ending ";" rfl
  | declare type name => exact .of_clean ((h.1.between " " rfl h.2).ending ";" rfl)
  | copy dir name =>
    cases dir with
    | encode => exact (Mentions.after "Write(&" rfl (.of_clean h)).ending ", &buf);" rfl
    | decode => exact (Mentions.after "Read(&" rfl (.of_clean h)).ending ", &buf);" rfl
  | resize list size => exact ((Mentions.of_clean h.1).between ".resize(" rfl h.2).ending ");" rfl
  | checkSize list size =>
    exact ((Mentions.after "DCHECK_EQ(static_cast<size_t>(" rfl h.2).between "), " rfl
      (.of_clean h.1)).ending ".size());" rfl
  | openLoop element list =>
    exact .of_clean (((h.1.after "for (auto& " rfl).between " : " rfl h.2).ending ") \x7b" rfl)
  | openBranch conditions =>
    exact (Mentions.after "if (" rfl (mentions_intercalate (by decide) h)).ending ") \x7b" rfl
  | bindSelector name value =>
    exact ((Mentions.after "auto " rfl (.of_clean h.1)).between " = " rfl h.2).ending ";" rfl
  | summand value => exact (Mentions.after "return " rfl h).ending ";" rfl
  | closeSum list => exact (Mentions.after "\x7d, " rfl (.of_clean h)).ending ");" rfl
  | bindMember name object =>
    have hmember := ((Mentions.after "auto& " rfl h.1).between " = " rfl h.2).between "." rfl h.1
    exact .of_clean (hmember.ending ";" rfl)
  | bindFromAside name id =>
    have haside : Mentions known (asideName id) :=
      (mentions_name (.aside id)).mono fun t ht => List.mem_singleton.mp ht ▸ h.2
    exact ((Mentions.after "auto& " rfl (.of_clean h.1)).between " = " rfl haside).ending ";" rfl
  | bindLength name list =>
    exact .of_clean (((h.1.after "size_t " rfl).between " = " rfl h.2).ending ".size();" rfl)
  | openSum | bindMemberAside => exact False.elim h

theorem Stmt.Reads.declares_nothing {known : List Temporary} {x : Stmt} (h : x.Reads known) :
    x.line.declares? = none := by
  cases x with
  | define type name value =>
    have htext : (Stmt.define type name value).text = type ++ " " ++ name ++ " = " ++ (value ++ ";") :=
      String.append_assoc
    exact Line.declares?_of_separator htext (h.1.between " " rfl h.2.1) rfl
  | resize list size =>
    have htext : (Stmt.resize list size).text = list ++ ".resize(" ++ (size ++ ");") :=
      String.append_assoc
    exact Line.declares?_of_separator htext h.1 rfl
  | bindSelector name value =>
    have htext : (Stmt.bindSelector name value).text = "auto " ++ name ++ " = " ++ (value ++ ";") :=
      String.append_assoc
    exact Line.declares?_of_separator htext (h.1.after "auto " rfl) rfl
  | bindFromAside name id =>
    have htext : (Stmt.bindFromAside name id).text = "auto& " ++ name ++ " = " ++ (asideName id ++ ";") :=
      String.append_assoc
    exact Line.declares?_of_separator htext (h.1.after "auto& " rfl) rfl
  | checkSize list size =>
    have htext : (Stmt.checkSize list size).text =
        "DCHECK_EQ(static_cast<size_t>(" ++ (size ++ ("), " ++ (list ++ ".size());"))) := by
      change "DCHECK_EQ(static_cast<size_t>(" ++ size ++ "), " ++ list ++ ".size());" = _
      rw [String.append_assoc, String.append_assoc, String.append_assoc]
    exact Line.declares?_of_start htext rfl
  | openBranch conditions =>
    have htext : (Stmt.openBranch conditions).text =
        "if (" ++ (String.intercalate " || " conditions ++ ") \x7b") := String.append_assoc
    exact Line.declares?_of_start htext rfl
  | summand value =>
    have htext : (Stmt.summand value).text = "return " ++ (value ++ ";") := String.append_assoc
    exact Line.declares?_of_start htext rfl
  | openSum | bindMemberAside => exact False.elim h
  | _ => exact Line.declares?_of_clean (@Stmt.Reads.mentions [] _ h)

abbrev NumberedCode (known : List Temporary) (n : Nat) (code : List Stmt) (known' : List Temporary)
    (m : Nat) : Prop := Numbered known n (code.map Stmt.line) known' m

namespace NumberedCode
variable {known known' known'' inside : List Temporary} {n k m : Nat} {x first last : Stmt}
  {xs ys inner : List Stmt}

theorem append (hx : NumberedCode known n xs known' k) (hy : NumberedCode known' k ys known'' m) :
    NumberedCode known n (xs ++ ys) known'' m := by
  rw [NumberedCode, List.map_append]
  exact Numbered.append hx hy

theorem one (hflat : x.nesting = .flat) (h : x.Reads known) : NumberedCode known n [x] known n :=
  Numbered.reading hflat h.declares_nothing h.mentions

theorem two {y : Stmt} (hx : x.nesting = .flat ∧ x.Reads known) (hy : y.nesting = .flat ∧ y.Reads known) :
    NumberedCode known n [x, y] known n := append (one hx.1 hx.2) (one hy.1 hy.2)

theorem block (hopens : first.nesting = .opens) (hfirst : first.Reads known)
    (h : NumberedCode [] n inner inside m) (hcloses : last.nesting = .closes) (hlast : last.Reads []) :
    NumberedCode known n ([first] ++ inner ++ [last]) known m := by
  rw [NumberedCode, List.map_append, List.map_append]
  exact Numbered.enclosed hopens hfirst.declares_nothing hfirst.mentions h hcloses hlast.mentions

/-- The body of a sum is a block of its own; the sum belongs to the block around it. -/
theorem sum {dir : Direction} {list : String} (known : List Temporary) (hlist : Clean list)
    (h : NumberedCode [] (n + 1) inner inside m) :
    NumberedCode known n ([Stmt.openSum n dir] ++ inner ++ [Stmt.closeSum list]) (.sum n :: known) m := by
  have hlast : Stmt.Reads [] (.closeSum list) := hlist
  have htext : (Stmt.openSum n dir).text = Temporary.declaration (.sum n) ++ " = SumOf([](" ++
      (dir.qualifier ++ "auto& " ++ listElementName ++ ") \x7b") := by
    change "auto " ++ sumName n ++ " = SumOf([](" ++ dir.qualifier ++ "auto& " ++ listElementName ++
      ") \x7b" = _
    simp only [Temporary.declaration, String.append_assoc]
  have hrest : Clean (dir.qualifier ++ "auto& " ++ listElementName ++ ") \x7b") := by
    cases dir <;> exact .of_text _ rfl
  rw [NumberedCode, List.map_append, List.map_append]
  exact Numbered.announced rfl htext hrest rfl h rfl hlast.mentions rfl

theorem bindAside {name object : String} (hname : Clean name) (hobject : Clean object) :
    NumberedCode known n [.bindMemberAside n name object, .bindFromAside name n]
      (.aside n :: known) (n + 1) := by
  have htext : (Stmt.bindMemberAside n name object).text =
      Temporary.declaration (.aside n) ++ " = " ++ (object ++ "." ++ name ++ ";") := by
    change "auto& " ++ asideName n ++ " = " ++ object ++ "." ++ name ++ ";" = _
    simp only [Temporary.declaration, String.append_assoc]
  have hrest : Clean (object ++ "." ++ name ++ ";") := (hobject.between "." rfl hname).ending ";" rfl
  have haside : NumberedCode known n [.bindMemberAside n name object] (.aside n :: known) (n + 1) :=
    Numbered.declaring rfl htext hrest rfl rfl
  exact haside.append (one rfl ⟨hname, List.mem_cons_self⟩)

end NumberedCode

section
variable {object : String}

theorem memberStmts_numbered {f : Field} (hobject : Clean object) (hf : Clean f.name) (s : Scope) (n : Nat)
    (known : List Temporary) :
    ∃ known', NumberedCode known n (memberStmts object s n f) known'
      (n + if safeName f.name = object then 1 else 0) := by
  have hname := clean_safeName hf
  have hlength : ∀ {known : List Temporary} {n : Nat},
      NumberedCode known n (lengthStmts (f :: s) f) known n := by
    intro known n
    unfold lengthStmts
    split
    · refine .one rfl ⟨?_, hname⟩
      unfold Scope.lengthBinding
      split
      · exact hname.ending "_len" rfl
      · exact .of_text _ rfl
    · exact .nil
  unfold memberStmts
  split
  · exact ⟨_, (NumberedCode.bindAside hname hobject).append hlength⟩
  · exact ⟨_, (NumberedCode.one (x := .bindMember (safeName f.name) object) rfl ⟨hname, hobject⟩).append
      hlength⟩

theorem bindFields_numbered {fields : List Field} (hobject : Clean object)
    (h : ∀ f ∈ fields, FieldHolds Clean f) (s : Scope) (n : Nat) (known : List Temporary) :
    ∃ known', NumberedCode known n (bindFields object fields ⟨s, n⟩).1 known'
      (n + asideCount object fields) := by
  have hmembers : ∃ known', NumberedCode known n (bindMembers object fields ⟨s, n⟩).1 known'
      (n + asideCount object fields) := by
    induction fields generalizing known s n with
    | nil => exact ⟨known, .nil⟩
    | cons f rest ih =>
      obtain ⟨hf, hrest⟩ := List.forall_mem_cons.mp h
      by_cases hb : Scope.binds f = true
      · obtain ⟨_, hone⟩ := memberStmts_numbered hobject hf.1 s n known
        obtain ⟨known', hmore⟩ := ih hrest _ _ _
        rw [bindMembers_cons_of_binds object rest s n hb, asideCount_cons_of_binds object rest hb,
          ← Nat.add_assoc]
        exact ⟨known', hone.append hmore⟩
      · rw [bindMembers_cons_of_not_binds object rest _ hb, asideCount_cons_of_not_binds object rest hb]
        exact ih hrest s n known
  obtain ⟨known', hmembers⟩ := hmembers
  refine ⟨known', ?_⟩
  rw [bindFields_stmts]
  refine hmembers.append ?_
  split
  · exact .nil
  · exact .one rfl trivial

end

theorem clean_typeText {type : Ty} (h : ∀ x ∈ typeTexts type, Clean x) (ns : List String) :
    Clean (qualify type ns) := clean_qualify (typeName_holds type (.of_text _ rfl) h) ns

section
variable {dir : Direction} {ns : List String} {s : Scope} {n m : Nat}

theorem Expressed.numbered {e : Expr} {stmts : List Stmt} {text : String}
    (h : Expressed dir ns s n e stmts text m) (he : ∀ x ∈ exprTexts e, Clean x)
    (hs : ∀ f ∈ s, FieldHolds Clean f) :
    ∃ ts, (∀ known, NumberedCode known n stmts (ts ++ known) m) ∧ Mentions ts text := by
  induction h with
  | @binary s n k m op lhs rhs before between x y _ _ ihl ihr =>
    rw [exprTexts, List.forall_mem_cons, List.forall_mem_append] at he
    obtain ⟨ls, hbefore, hx⟩ := ihl he.2.1 hs
    obtain ⟨rs, hbetween, hy⟩ := ihr he.2.2 hs
    have hx : Mentions (rs ++ ls) x := hx.mono fun t ht => List.mem_append_right _ ht
    have hy : Mentions (rs ++ ls) y := hy.mono fun t ht => List.mem_append_left _ ht
    refine ⟨rs ++ ls, fun known => ?_, ?_⟩
    · rw [List.append_assoc]
      exact (hbefore known).append (hbetween _)
    · exact (((hx.after "(" rfl).between ") " rfl (.of_clean he.1)).between " (" rfl hy).ending ")" rfl
  | complement _ ih =>
    obtain ⟨ts, hbefore, hx⟩ := ih he hs
    exact ⟨ts, hbefore, (hx.after "~(" rfl).ending ")" rfl⟩
  | popCount _ ih =>
    obtain ⟨ts, hbefore, hx⟩ := ih he hs
    exact ⟨ts, hbefore, (hx.after "PopCount(" rfl).ending ")" rfl⟩
  | @sumOf s n m list summand f member count length before x hlist htype _ ih =>
    rw [exprTexts, List.forall_mem_cons] at he
    have hmembers := summedMembers_hold hs hlist htype
    obtain ⟨ts, hbefore, hx⟩ := ih (by rw [exprTexts_summandOf]; exact he.2) (scope_holds hmembers hs)
    have hobject : Clean listElementName := .of_text _ rfl
    obtain ⟨bound, hbindings⟩ := bindFields_numbered hobject hmembers s (n + 1) []
    have hvalue : Stmt.Reads (ts ++ bound) (.summand x) := hx.mono fun t ht => List.mem_append_left _ ht
    have hbody := (hbindings.append (hbefore bound)).append (.one rfl hvalue)
    refine ⟨[.sum n], fun known => ?_, mentions_name (.sum n)⟩
    simpa using NumberedCode.sum known he.1 hbody
  | @fieldLen s n name f _ =>
    have hname := clean_safeName (he name List.mem_cons_self)
    exact ⟨[], fun _ => .nil, hname.ending "_len" rfl⟩
  | fieldRef name => exact ⟨[], fun _ => .nil, he name List.mem_cons_self⟩
  | enumRef enum item =>
    rw [exprTexts, List.forall_mem_cons] at he
    have henum : ∀ x ∈ Ty.typeName (.mention .enum enum), Clean x := he.2
    have hpath := clean_qualify henum ns
    exact ⟨[], fun _ => .nil, hpath.between "::" rfl (clean_safeName he.1)⟩
  | listElement => exact ⟨[], fun _ => .nil, .of_text _ rfl⟩
  | value v => exact ⟨[], fun _ => .nil, clean_nat v⟩

theorem Tested.numbered {es : List Expr} {test selector : String} {before : List Stmt}
    {conditions : List String} (h : Tested dir ns test selector s n es before conditions m)
    (htest : test = "CaseEq" ∨ test = "CaseAnd") (hselector : Clean selector)
    (hes : ∀ e ∈ es, ∀ x ∈ exprTexts e, Clean x) (hs : ∀ f ∈ s, FieldHolds Clean f) :
    ∃ ts, (∀ known, NumberedCode known n before (ts ++ known) m) ∧ ∀ c ∈ conditions, Mentions ts c := by
  have hname : Clean test := by rcases htest with rfl | rfl <;> exact .of_text _ rfl
  induction h with
  | nil => exact ⟨[], fun _ => .nil, by simp⟩
  | @cons n k m e es first between x conditions h _ ih =>
    rw [List.forall_mem_cons] at hes
    obtain ⟨ts, hfirst, hx⟩ := h.numbered hes.1 hs
    obtain ⟨us, hbetween, hconditions⟩ := ih hes.2
    refine ⟨us ++ ts, fun known => ?_, List.forall_mem_cons.mpr ⟨?_, fun c hc => ?_⟩⟩
    · rw [List.append_assoc]
      exact (hfirst known).append (hbetween _)
    · have hcall : Clean (test ++ "(" ++ selector) := hname.between "(" rfl hselector
      have hx : Mentions (us ++ ts) x := hx.mono fun t ht => List.mem_append_right _ ht
      exact ((Mentions.of_clean hcall).between ", " rfl hx).ending ")" rfl
    · exact (hconditions c hc).mono fun t ht => List.mem_append_left _ ht

end

end CodecGen.Emit
