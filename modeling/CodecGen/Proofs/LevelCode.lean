import CodecGen.Proofs.Brackets
import CodecGen.Proofs.ModuleTexts
set_option autoImplicit false
/-!
Encoders and decoders close what they open. A statement of their code is neutral, or it is one of a
pair that encloses a level stretch of code; so all code that emission writes is level, as long as the
strings it is made from leave no bracket open.
-/
namespace CodecGen.Emit
open Schema

abbrev AllNeutral (texts : List String) : Prop := ∀ x ∈ texts, Neutral x

theorem allNeutral_append {xs ys : List String} :
    AllNeutral (xs ++ ys) ↔ AllNeutral xs ∧ AllNeutral ys := List.forall_mem_append

theorem allNeutral_cons {x : String} {ys : List String} :
    AllNeutral (x :: ys) ↔ Neutral x ∧ AllNeutral ys := List.forall_mem_cons

abbrev NeutralField (f : Field) : Prop := FieldHolds Neutral f

abbrev NeutralIn (fields : List Field) : Prop := ∀ f ∈ fields, NeutralField f

theorem neutralIn_iff {fields : List Field} :
    AllNeutral (fieldTexts fields) ↔ NeutralIn fields := fieldTexts_hold_iff

theorem neutral_typeText {type : Ty} (h : AllNeutral (typeTexts type)) (ns : List String) :
    Neutral (qualify type ns) :=
  neutral_qualify type (typeName_holds type (.of_scan _ rfl) h) ns

theorem neutral_sumName (id : Nat) : Neutral (sumName id) :=
  (Turns.of_scan "sum" rfl).insert (neutral_nat id) "_" rfl

theorem neutral_asideName (id : Nat) : Neutral (asideName id) :=
  (Turns.of_scan "tmp" rfl).append (neutral_nat id)

/-- The texts that a statement is made of leave no bracket open. -/
def Stmt.Sound : Stmt → Prop
  | .fieldComment name => Neutral name
  | .reserve type => Neutral type
  | .define type name value => Neutral type ∧ Neutral name ∧ Neutral value
  | .declare type name => Neutral type ∧ Neutral name
  | .copy _ name => Neutral name
  | .resize list size | .checkSize list size => Neutral list ∧ Neutral size
  | .bindSelector name value => Neutral name ∧ Neutral value
  | .summand value => Neutral value
  | .bindMember name object | .bindMemberAside _ name object => Neutral name ∧ Neutral object
  | .bindFromAside name _ => Neutral name
  | .bindLength name list => Neutral name ∧ Neutral list
  | _ => True

theorem Stmt.neutral {x : Stmt} (h : x.Sound) (hflat : x.nesting = .flat) : Neutral x.text := by
  cases x with
  | blank => exact .of_scan _ rfl
  | fieldComment name => exact (Turns.of_scan "// " rfl).append h
  | majorOpcodeNote => exact .of_scan _ rfl
  | lengthNote => exact .of_scan _ rfl
  | align boundary =>
    exact (Turns.of_scan "Align(&buf, " rfl).insert (neutral_int boundary) ");" rfl
  | pad bytes => exact (Turns.of_scan "Pad(&buf, " rfl).insert (neutral_int bytes) ");" rfl
  | reserve type => exact (Turns.of_scan "Pad(&buf, sizeof(" rfl).insert h "));" rfl
  | define type name value =>
    exact ((h.1.append (.of_scan " " rfl)).insert h.2.1 " = " rfl).insert h.2.2 ";" rfl
  | declare type name => exact (h.1.append (.of_scan " " rfl)).insert h.2 ";" rfl
  | copy dir name =>
    cases dir with
    | encode => exact (Turns.of_scan "Write(&" rfl).insert h ", &buf);" rfl
    | decode => exact (Turns.of_scan "Read(&" rfl).insert h ", &buf);" rfl
  | resize list size => exact (h.1.append (.of_scan ".resize(" rfl)).insert h.2 ");" rfl
  | checkSize list size =>
    exact ((Turns.of_scan "DCHECK_EQ(static_cast<size_t>(" rfl).insert h.2 "), " rfl).insert h.1
      ".size());" rfl
  | bindSelector name value =>
    exact ((Turns.of_scan "auto " rfl).insert h.1 " = " rfl).insert h.2 ";" rfl
  | summand value => exact (Turns.of_scan "return " rfl).insert h ";" rfl
  | bindMember name object =>
    exact (((Turns.of_scan "auto& " rfl).insert h.1 " = " rfl).insert h.2 "." rfl).insert h.1
      ";" rfl
  | bindMemberAside id name object =>
    exact (((Turns.of_scan "auto& " rfl).insert (neutral_asideName id) " = " rfl).insert h.2 "."
      rfl).insert h.1 ";" rfl
  | bindFromAside name id =>
    exact ((Turns.of_scan "auto& " rfl).insert h " = " rfl).insert (neutral_asideName id) ";" rfl
  | bindLength name list =>
    exact ((Turns.of_scan "size_t " rfl).insert h.1 " = " rfl).insert h.2 ".size();" rfl
  | openLoop | openBlock | closeBlock | openBranch | openSum | closeSum => cases hflat

abbrev LevelCode (code : List Stmt) : Prop := Level (code.map Stmt.line)

theorem LevelCode.nil : LevelCode [] := Leads.nil

theorem LevelCode.append {xs ys : List Stmt} (hx : LevelCode xs) (hy : LevelCode ys) :
    LevelCode (xs ++ ys) := by
  rw [LevelCode, List.map_append]
  exact Leads.append hx hy

theorem Stmt.level {x : Stmt} (h : x.Sound) (hflat : x.nesting = .flat) : LevelCode [x] :=
  Leads.single hflat (x.neutral h hflat)

theorem LevelCode.blank : LevelCode [.blank] := Stmt.level trivial rfl

theorem LevelCode.cons {x : Stmt} {ys : List Stmt} (h : x.Sound) (hflat : x.nesting = .flat)
    (hy : LevelCode ys) : LevelCode (x :: ys) := (Stmt.level h hflat).append hy

theorem LevelCode.of_forall {code : List Stmt} (h : ∀ x ∈ code, x.Sound ∧ x.nesting = .flat) :
    LevelCode code := by
  induction code with
  | nil => exact .nil
  | cons x rest ih =>
    obtain ⟨hx, hrest⟩ := List.forall_mem_cons.1 h
    exact .cons hx.1 hx.2 (ih hrest)

theorem LevelCode.enclosed {first last : Stmt} {inner : List Stmt} {due : List Char}
    (hopens : first.nesting = .opens) (hfirst : Turns [] due first.text)
    (hcloses : last.nesting = .closes) (hlast : Turns due [] last.text) (h : LevelCode inner) :
    LevelCode ([first] ++ inner ++ [last]) := by
  rw [LevelCode, List.map_append, List.map_append]
  exact Leads.enclosed hopens hfirst hcloses hlast h

theorem LevelCode.block {inner : List Stmt} (h : LevelCode inner) :
    LevelCode ([Stmt.openBlock] ++ inner ++ [Stmt.closeBlock]) :=
  .enclosed rfl (.of_scan _ rfl) rfl (.of_scan _ rfl) h

theorem LevelCode.loop {element list : String} {inner : List Stmt} (helement : Neutral element)
    (hlist : Neutral list) (h : LevelCode inner) :
    LevelCode ([Stmt.openLoop element list] ++ inner ++ [Stmt.closeBlock]) := by
  have hfirst : Turns [] ['\x7d'] (Stmt.openLoop element list).text :=
    ((Turns.of_scan "for (auto& " rfl).insert helement " : " rfl).insert hlist ") \x7b" rfl
  exact .enclosed rfl hfirst rfl (.of_scan _ rfl) h

theorem LevelCode.branch {conditions : List String} {inner : List Stmt}
    (hconditions : AllNeutral conditions) (h : LevelCode inner) :
    LevelCode ([Stmt.openBranch conditions] ++ inner ++ [Stmt.closeBlock]) := by
  have hall := neutral_intercalate (.of_scan " || " rfl) hconditions
  have hfirst : Turns [] ['\x7d'] (Stmt.openBranch conditions).text :=
    (Turns.of_scan "if (" rfl).insert hall ") \x7b" rfl
  exact .enclosed rfl hfirst rfl (.of_scan _ rfl) h

theorem LevelCode.sum {id : Nat} {dir : Direction} {list : String} {inner : List Stmt}
    (hlist : Neutral list) (h : LevelCode inner) :
    LevelCode ([Stmt.openSum id dir] ++ inner ++ [Stmt.closeSum list]) := by
  have hqualifier : Neutral dir.qualifier := by cases dir <;> exact .of_scan _ rfl
  have hfirst : Turns [] ['\x7d', ')'] (Stmt.openSum id dir).text :=
    (((Turns.of_scan "auto " rfl).insert (neutral_sumName id) " = SumOf([](" rfl).insert hqualifier
      "auto& " rfl).insert (.of_scan listElementName rfl) ") \x7b" rfl
  have hlast : Turns ['\x7d', ')'] [] (Stmt.closeSum list).text :=
    (Turns.of_scan "\x7d, " rfl).insert hlist ");" rfl
  exact .enclosed rfl hfirst rfl hlast h

theorem sound_lengthStmts {f : Field} (hf : NeutralField f) (s : Scope) :
    ∀ x ∈ lengthStmts s f, x.Sound ∧ x.nesting = .flat := by
  have hname := neutral_safeName hf.1
  unfold lengthStmts
  split
  · refine List.forall_mem_singleton.2 ⟨⟨?_, hname⟩, rfl⟩
    unfold Scope.lengthBinding
    split
    · exact hname.append (.of_scan "_len" rfl)
    · exact .of_scan _ rfl
  · exact fun x hx => by cases hx

theorem sound_memberStmts {object : String} {f : Field} (hobject : Neutral object)
    (hf : NeutralField f) (s : Scope) (n : Nat) :
    ∀ x ∈ memberStmts object s n f, x.Sound ∧ x.nesting = .flat := by
  have hname := neutral_safeName hf.1
  unfold memberStmts
  refine List.forall_mem_append.2 ⟨?_, sound_lengthStmts hf _⟩
  split
  · exact List.forall_mem_cons.2
      ⟨⟨⟨hname, hobject⟩, rfl⟩, List.forall_mem_singleton.2 ⟨hname, rfl⟩⟩
  · exact List.forall_mem_singleton.2 ⟨⟨hname, hobject⟩, rfl⟩

theorem sound_bindMembers {object : String} {fields : List Field} (hobject : Neutral object)
    (h : NeutralIn fields) (s : Scope) (n : Nat) :
    ∀ x ∈ (bindMembers object fields ⟨s, n⟩).1, x.Sound ∧ x.nesting = .flat := by
  induction fields generalizing s n with
  | nil => exact fun x hx => by cases hx
  | cons f rest ih =>
    obtain ⟨hf, hrest⟩ := List.forall_mem_cons.1 h
    by_cases hb : Scope.binds f = true
    · rw [bindMembers_cons_of_binds object rest s n hb]
      exact List.forall_mem_append.2 ⟨sound_memberStmts hobject hf s n, ih hrest _ _⟩
    · rw [bindMembers_cons_of_not_binds object rest _ hb]
      exact ih hrest s n

theorem bindFields_level {object : String} {fields : List Field} (hobject : Neutral object)
    (h : NeutralIn fields) (s : Scope) (n : Nat) :
    LevelCode (bindFields object fields ⟨s, n⟩).1 := by
  rw [bindFields_stmts]
  refine .append (.of_forall (sound_bindMembers hobject h s n)) ?_
  split
  · exact .nil
  · exact .blank

section
variable {dir : Direction} {ns locals : List String} {s t : Scope} {n k m : Nat}
  {is : List Ingredient} {out : List Stmt}

theorem Expressed.level {e : Expr} {text : String} (h : Expressed dir ns s n e out text m)
    (he : AllNeutral (exprTexts e)) (hs : NeutralIn s) : LevelCode out ∧ Neutral text := by
  induction h with
  | binary _ _ ihl ihr =>
    obtain ⟨hop, he⟩ := allNeutral_cons.1 he
    obtain ⟨hl, hr⟩ := allNeutral_append.1 he
    obtain ⟨hbefore, hx⟩ := ihl hl hs
    obtain ⟨hbetween, hy⟩ := ihr hr hs
    refine ⟨hbefore.append hbetween, ?_⟩
    exact (((Turns.of_scan "(" rfl).insert hx ") " rfl).insert hop " (" rfl).insert hy ")" rfl
  | complement _ ih =>
    obtain ⟨hbefore, hx⟩ := ih he hs
    exact ⟨hbefore, (Turns.of_scan "~(" rfl).insert hx ")" rfl⟩
  | popCount _ ih =>
    obtain ⟨hbefore, hx⟩ := ih he hs
    exact ⟨hbefore, (Turns.of_scan "PopCount(" rfl).insert hx ")" rfl⟩
  | @fieldLen s n name f _ =>
    have hname := neutral_safeName (he name List.mem_cons_self)
    exact ⟨.nil, hname.append (.of_scan "_len" rfl)⟩
  | fieldRef name => exact ⟨.nil, he name List.mem_cons_self⟩
  | enumRef enum item =>
    obtain ⟨hitem, henum⟩ := allNeutral_cons.1 he
    have hpath := neutral_qualify (.mention .enum enum) henum ns
    exact ⟨.nil, (hpath.append (.of_scan "::" rfl)).append (neutral_safeName hitem)⟩
  | listElement => exact ⟨.nil, .of_scan _ rfl⟩
  | value v => exact ⟨.nil, neutral_nat v⟩
  | @sumOf s n m list summand f member count length before x hlist htype _ ih =>
    obtain ⟨hname, hsummand⟩ := allNeutral_cons.1 he
    have hmembers := summedMembers_hold hs hlist htype
    obtain ⟨hbefore, hx⟩ := ih (by rwa [exprTexts_summandOf]) (scope_holds hmembers hs)
    -- the members of an element are bound in the body of the sum, before the summand
    have hbindings := bindFields_level (.of_scan listElementName rfl) hmembers s (n + 1)
    have hinner := (hbindings.append hbefore).append (Stmt.level (x := .summand x) hx rfl)
    have hsum : LevelCode ([Stmt.openSum n dir] ++ _ ++ [Stmt.closeSum list]) := .sum hname hinner
    exact ⟨by simpa using hsum, neutral_sumName n⟩

theorem Tested.level {test selector : String} {es : List Expr} {conditions : List String}
    (h : Tested dir ns test selector s n es out conditions m)
    (htest : test = "CaseEq" ∨ test = "CaseAnd") (hselector : Neutral selector)
    (hes : ∀ e ∈ es, AllNeutral (exprTexts e)) (hs : NeutralIn s) :
    LevelCode out ∧ AllNeutral conditions := by
  have hname : Neutral test := by rcases htest with rfl | rfl <;> exact .of_scan _ rfl
  induction h with
  | nil => exact ⟨.nil, fun x hx => by cases hx⟩
  | cons h _ ih =>
    obtain ⟨he, hrest⟩ := List.forall_mem_cons.1 hes
    obtain ⟨hbefore, hx⟩ := h.level he hs
    obtain ⟨hbetween, hconditions⟩ := ih hrest
    refine ⟨hbefore.append hbetween, allNeutral_cons.2 ⟨?_, hconditions⟩⟩
    exact ((hname.append (.of_scan "(" rfl)).insert hselector ", " rfl).insert hx ")" rfl

theorem AtHand.neutral {name : String} (h : AtHand locals s name) (hlocals : AllNeutral locals)
    (hs : NeutralIn s) : Neutral name :=
  h.holds hlocals fun f hf => neutral_safeName (hs f hf).1

theorem Entered.level (h : Entered locals s n is out t k) (hlocals : AllNeutral locals)
    (hs : NeutralIn s) (his : ∀ i ∈ is, i.Holds Neutral) : LevelCode out ∧ NeutralIn t := by
  cases h with
  | plain => exact ⟨.nil, hs⟩
  | members hobject =>
    rw [List.forall_mem_singleton] at his
    exact ⟨bindFields_level (hobject.neutral hlocals hs) his s n, scope_holds his hs⟩
  | branch _ =>
    simp only [List.forall_mem_cons] at his
    exact ⟨bindFields_level (neutral_safeName his.1) his.2.1 s n, scope_holds his.2.1 hs⟩

/-- Code closes what it opens. -/
theorem Written.level (h : Written dir ns locals s n is out m) (hlocals : AllNeutral locals)
    (hs : NeutralIn s) (his : ∀ i ∈ is, i.Holds Neutral) : LevelCode out := by
  induction h with
  | nil => exact .nil
  | append _ _ ihx ihy =>
    rw [List.forall_mem_append] at his
    exact (ihx hlocals hs his.1).append (ihy hlocals hs his.2)
  | @note locals s n x h =>
    cases x with
    | blank | majorOpcodeNote | lengthNote | align | pad => exact Stmt.level trivial rfl
    | _ => cases h
  | comment name =>
    rw [List.forall_mem_singleton] at his
    exact Stmt.level (neutral_safeName his) rfl
  | copy hname => exact Stmt.level (hname.neutral hlocals hs) rfl
  | reserve name type =>
    rw [List.forall_mem_singleton] at his
    exact Stmt.level (neutral_typeText his.2 ns) rfl
  | opcode name type number =>
    rw [List.forall_mem_singleton] at his
    have hname := neutral_safeName his.1
    exact .cons ⟨neutral_typeText his.2 ns, hname, neutral_int number⟩ rfl (Stmt.level hname rfl)
  | read name type =>
    rw [List.forall_mem_singleton] at his
    have hname := neutral_safeName his.1
    exact .cons ⟨neutral_typeText his.2 ns, hname⟩ rfl (Stmt.level hname rfl)
  | computed h =>
    simp only [List.forall_mem_cons] at his
    obtain ⟨hbefore, hx⟩ := h.level his.1 hs
    have hname := neutral_safeName his.2.1.1
    exact hbefore.append
      (.cons ⟨neutral_typeText his.2.1.2 ns, hname, hx⟩ rfl (Stmt.level hname rfl))
  | size hname h =>
    rw [List.forall_mem_singleton] at his
    obtain ⟨hbefore, hx⟩ := h.level his hs
    have hlist := hname.neutral hlocals hs
    refine hbefore.append ?_
    cases dir with
    | encode => exact Stmt.level ⟨hlist, hx⟩ rfl
    | decode => exact Stmt.level ⟨hlist, hx⟩ rfl
  | loop hname henter _ ih =>
    rw [List.forall_mem_append] at his
    have hlist := hname.neutral hlocals hs
    have helement : Neutral (_ ++ "_elem") := hlist.append (.of_scan _ rfl)
    -- inside the loop its element is one of the locals at hand
    have hinner := allNeutral_cons.2 ⟨helement, hlocals⟩
    obtain ⟨hbindings, ht⟩ := henter.level hinner hs his.1
    have hloop := LevelCode.loop helement hlist (hbindings.append (ih hinner ht his.2))
    simpa using hloop
  | block henter _ ih =>
    rw [List.forall_mem_append] at his
    obtain ⟨hbindings, ht⟩ := henter.level hlocals hs his.1
    have hblock := LevelCode.block (hbindings.append (ih hlocals ht his.2))
    simpa using hblock
  | selected hname h _ ih =>
    rw [List.forall_mem_cons] at his
    obtain ⟨hbefore, hx⟩ := h.level his.1 hs
    -- the branches name the selector, which is a local from here on
    have hselector : Neutral (_ ++ "_expr") := (hname.neutral hlocals hs).append (.of_scan _ rfl)
    have hrest := ih (allNeutral_cons.2 ⟨hselector, hlocals⟩) hs his.2
    have hbind : LevelCode [Stmt.bindSelector _ _] := Stmt.level ⟨hselector, hx⟩ rfl
    exact (hbefore.append hbind).append hrest
  | branch htest hselector h henter _ ih =>
    simp only [List.forall_mem_append, List.forall_mem_map] at his
    obtain ⟨hbefore, hconditions⟩ := h.level htest (hlocals _ hselector) his.1.1 hs
    obtain ⟨hbindings, ht⟩ := henter.level hlocals hs his.1.2
    have hbranch := hbefore.append (.branch hconditions (hbindings.append (ih hlocals ht his.2)))
    simpa using hbranch

theorem Copies.level {object : String} {fields : List Field} (h : Copies dir ns object fields n out m)
    (hobject : Neutral object) (hfields : NeutralIn fields) : LevelCode out := by
  obtain ⟨body, rfl, hbody⟩ := h
  have hscope : NeutralIn (boundBy fields) := fun f hf => hfields f (mem_boundBy.1 hf).1
  have hlocals : AllNeutral [] := fun x hx => by cases hx
  exact (bindFields_level hobject hfields [] n).append
    (hbody.level hlocals hscope (ingredientsIn_hold _ fields hfields))

end

abbrev NeutralRequest (r : Request) : Prop := RequestHolds Neutral r

structure LevelRequest (code : RequestCode) : Prop where
  name : AllNeutral code.request.name
  encoder : LevelCode code.encoder
  decoder : ∀ decoder, code.decoder = some decoder → LevelCode decoder

theorem CodeOf.level {className : String} {n m : Nat} {code : RequestCode}
    (h : CodeOf className n code m) (hcode : NeutralRequest code.request) : LevelRequest code := by
  cases h with
  | request _ h =>
    exact ⟨hcode.name, h.level (.of_scan _ rfl) hcode.fields, fun _ hnone => by cases hnone⟩
  | reply hreply h hd =>
    refine ⟨hcode.name, h.level (.of_scan _ rfl) hcode.fields, fun _ hsome => ?_⟩
    cases hsome
    exact hd.level (.of_scan _ rfl) (hcode.reply _ hreply)

theorem compileRequests_level {className : String} {requests : List Request}
    (h : ∀ r ∈ requests, NeutralRequest r) :
    Ensures [] (fun codes => ∀ code ∈ codes, LevelRequest code) (fun _ => True)
      (compileRequests className requests) := by
  refine .of_emits fun n => (compileRequests_codesOf className requests n).mono ?_
  rintro codes m ⟨rfl, hcodes⟩ code hmem
  obtain ⟨n, m, hcode⟩ := hcodes.of_mem hmem
  exact hcode.level (h _ (List.mem_map_of_mem hmem))

end CodecGen.Emit
