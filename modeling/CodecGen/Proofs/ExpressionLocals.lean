import CodecGen.Proofs.BlockLocals
set_option autoImplicit false
/-!
The locals of expressions. An expression refers to fields, to the sizes of lists, to the lists that it
sums over and to the element at hand. Its code finds all that it names declared exactly when each of
these references is, as it stands, the local of a field in scope or of the size of a list in scope.
-/
namespace CodecGen.Emit
open Schema

inductive Reference where
  | field (name : String)
  | length (name : String)
  | list (name : String)
  | element
deriving DecidableEq, Repr

def Reference.text : Reference → String
  | field name | list name => name
  | length name => safeName name ++ "_len"
  | element => listElementName

def sumScope (s : Scope) (list : String) : Scope :=
  match s.resolve? list with
  | some f =>
    match f.type with
    | .list member _ _ => boundBy (elementMembers member) ++ s
    | _ => s
  | none => s

/-- The references of an expression, each with the scope in which it is made. The body of a sum has its
element at hand. -/
def references (inside : Bool) (s : Scope) : Expr → List (Scope × Reference)
  | .binary _ lhs rhs => references inside s lhs ++ references inside s rhs
  | .complement operand | .popCount operand => references inside s operand
  | .fieldLen name => [(s, .length name)]
  | .fieldRef name => [(s, .field name)]
  | .sumOf list summand => (s, .list list) :: references true (sumScope s list) summand
  | .listElement => if inside then [] else [(s, .element)]
  | .absent | .enumRef _ _ | .value _ => []

/-- The reference has a local as it stands. -/
def Answered (r : Scope × Reference) : Prop := LocalOf r.1 r.2.text

instance (r : Scope × Reference) : Decidable (Answered r) := inferInstanceAs (Decidable (LocalOf _ _))

def Meant : Scope × Reference → Prop
  | (s, .field name) => ∃ f ∈ s, f.name = name ∨ isListField f = true ∧ name = f.name ++ "_len"
  | _ => True

instance : (r : Scope × Reference) → Decidable (Meant r)
  | (s, .field name) => inferInstanceAs
      (Decidable (∃ f ∈ s, f.name = name ∨ isListField f = true ∧ name = f.name ++ "_len"))
  | (_, .length _) | (_, .list _) | (_, .element) => .isTrue trivial

theorem references_summandOf (s : Scope) (summand : Expr) :
    references true s (summandOf summand) = references true s summand := by
  cases summand <;> rfl

theorem isWellNamed_summandOf {summand : Expr} (h : isWellNamed summand = true) :
    isWellNamed (summandOf summand) = true := by
  cases summand with
  | absent => rfl
  | _ => exact h

theorem sumScope_eq {s : Scope} {list : String} {f : Field} {member : Ty} {count : Int}
    {length : Option Expr} (hlist : s.resolve? list = some f) (htype : f.type = .list member count length) :
    sumScope s list = boundBy (elementMembers member) ++ s := by
  simp [sumScope, hlist, htype]

section
variable {b : List String} {env : Blocks} {s : Scope} {x : String}

theorem Blocks.Has.extended (h : Blocks.Has (b :: env) x) (names : List String) :
    Blocks.Has ((names ++ b) :: env) x := by
  simp only [Blocks.has_cons, List.mem_append] at h ⊢
  tauto

theorem Supplies.extended (h : Supplies (b :: env) s) (names : List String) :
    Supplies ((names ++ b) :: env) s := fun x hx => (h x hx).extended names

theorem Supplies.entered (h : Supplies (b :: env) s) (inner : List String) :
    Supplies (inner :: b :: env) s := fun x hx => Blocks.has_cons.mpr (.inr (h x hx))

theorem enterAll_bindings {stmts : List Stmt} (h : ∀ x ∈ stmts, x.isBinding = true) (b : List String)
    (env : Blocks) :
    ∃ names, enterAll (b :: env) stmts = (names ++ b) :: env := by
  induction stmts generalizing b with
  | nil => exact ⟨[], rfl⟩
  | cons x rest ih =>
    obtain ⟨hx, hrest⟩ := List.forall_mem_cons.mp h
    have hone : x.enter (b :: env) = (x.declared?.toList ++ b) :: env := by
      cases x <;> first | rfl | cases hx
    obtain ⟨names, hnames⟩ := ih hrest (x.declared?.toList ++ b)
    refine ⟨names ++ x.declared?.toList, ?_⟩
    change enterAll (x.enter (b :: env)) rest = _
    rw [hone, hnames, List.append_assoc]

end

section
variable {dir : Direction} {ns : List String} {s : Scope} {n m : Nat} {e : Expr} {stmts : List Stmt}
  {text : String} {b : List String} {env : Blocks} {inside : Bool}

theorem enterAll_sum {before : List Stmt} {x list : String} (members : List Field)
    (hbefore : ∀ b env, ∃ names, enterAll (b :: env) before = (names ++ b) :: env) :
    enterAll (b :: env) ([.openSum n dir] ++ (bindFields listElementName members ⟨s, m⟩).1 ++ before ++
      [.summand x, .closeSum list]) = (sumName n :: b) :: env := by
  have hbinding : ∀ x ∈ (bindFields listElementName members ⟨s, m⟩).1, x.isBinding = true :=
    fun _ => isBinding_of_mem_bindFields
  obtain ⟨names, hbindings⟩ := enterAll_bindings hbinding [listElementName] ((sumName n :: b) :: env)
  obtain ⟨inner, hrun⟩ := hbefore (names ++ [listElementName]) ((sumName n :: b) :: env)
  have hopen : enterAll (b :: env) [.openSum n dir] =
      [listElementName] :: (sumName n :: b) :: env := rfl
  rw [enterAll_append, enterAll_append, enterAll_append, hopen, hbindings, hrun]
  rfl

theorem Expressed.enters (h : Expressed dir ns s n e stmts text m) (b : List String) (env : Blocks) :
    ∃ names, (∀ x ∈ names, Incidental x) ∧ enterAll (b :: env) stmts = (names ++ b) :: env := by
  induction h generalizing b env with
  | binary _ _ ihl ihr =>
    obtain ⟨names, hnames, hl⟩ := ihl b env
    obtain ⟨more, hmore, hr⟩ := ihr (names ++ b) env
    refine ⟨more ++ names, List.forall_mem_append.mpr ⟨hmore, hnames⟩, ?_⟩
    rw [enterAll_append, hl, hr, List.append_assoc]
  | complement _ ih => exact ih b env
  | popCount _ ih => exact ih b env
  | @sumOf s n m list summand f member count length before x _ _ _ ih =>
    exact ⟨[sumName n], by simp [incidental_sumName],
      enterAll_sum (elementMembers member) fun b env => (ih b env).imp fun _ h => h.2⟩
  | fieldLen _ => exact ⟨[], by simp, rfl⟩
  | fieldRef _ => exact ⟨[], by simp, rfl⟩
  | enumRef _ _ => exact ⟨[], by simp, rfl⟩
  | listElement => exact ⟨[], by simp, rfl⟩
  | value _ => exact ⟨[], by simp, rfl⟩

/-- Every declared name is the local of a field in scope, or else incidental; inside a sum there is the
element too. -/
def Accounted (inside : Bool) (env : Blocks) (s : Scope) : Prop :=
  ∀ x, env.Has x → LocalOf s x ∨ Incidental x ∨ inside = true ∧ x = listElementName

theorem Accounted.extended (h : Accounted inside (b :: env) s) {names : List String}
    (hnames : ∀ x ∈ names, Incidental x) : Accounted inside ((names ++ b) :: env) s := by
  intro x hx
  simp only [Blocks.has_cons, List.mem_append] at hx
  rcases hx with (hx | hx) | hx
  · exact .inr (.inl (hnames x hx))
  · exact h x (Blocks.has_cons.mpr (.inl hx))
  · exact h x (Blocks.has_cons.mpr (.inr hx))

theorem Accounted.entered {inner names : List String} {t : Scope} {into : Bool}
    (h : Accounted inside (b :: env) s) (hst : ∀ f ∈ s, f ∈ t) (hinto : inside = true → into = true)
    (hinner : ∀ x ∈ inner, LocalOf t x ∨ Incidental x ∨ into = true ∧ x = listElementName)
    (hnames : ∀ x ∈ names, LocalOf t x ∨ Incidental x) :
    Accounted into ((names ++ inner) :: b :: env) t := by
  intro x hx
  rw [Blocks.has_cons, List.mem_append] at hx
  rcases hx with (hx | hx) | hx
  · exact (hnames x hx).imp_right .inl
  · exact hinner x hx
  · rcases h x hx with hlocal | hx | hx
    · exact .inl (hlocal.mono hst)
    · exact .inr (.inl hx)
    · exact .inr (.inr ⟨hinto hx.1, hx.2⟩)

theorem size_ne_element (base : String) : base ++ "_len" ≠ listElementName := by
  intro heq
  have hlast := getLast?_append_some base (y := "_len") (c := 'n') rfl
  rw [heq] at hlast
  exact absurd hlast (by decide)

theorem Accounted.of_field (h : Accounted inside env s) {f : Field} (hf : f ∈ s)
    (hx : env.Has f.name) : LocalOf s f.name := by
  have hsafe : safeName f.name = f.name := by
    rcases h _ hx with hlocal | hincidental | ⟨-, helement⟩
    · exact hlocal.safe
    · exact hincidental.safe
    · rw [helement]
      decide
  exact .inl ⟨f, hf, hsafe⟩

theorem Accounted.of_size (h : Accounted inside env s) {base : String}
    (hx : env.Has (base ++ "_len")) : LocalOf s (base ++ "_len") := by
  rcases h _ hx with hlocal | hincidental | ⟨-, helement⟩
  · exact hlocal
  · exact absurd ⟨base.toList, by simp⟩ hincidental.not_size
  · exact absurd helement (size_ne_element base)

/-- In the body of a sum the members of an element are declared, and it is the names of the summand and
of the list that have to be. -/
theorem sum_inside (dir : Direction) (n : Nat) (members : List Field) (hs : Supplies (b :: env) s) :
    ∃ inner, Supplies (inner :: (sumName n :: b) :: env) (boundBy members ++ s) ∧
      Blocks.Has (inner :: (sumName n :: b) :: env) listElementName ∧
      (∀ {inside : Bool}, Accounted inside (b :: env) s →
        Accounted true (inner :: (sumName n :: b) :: env) (boundBy members ++ s)) ∧
      ∀ {before : List Stmt} {all : List String} {x list : String},
        enterAll (inner :: (sumName n :: b) :: env) before = all :: (sumName n :: b) :: env →
        (AllDeclared (b :: env) ([.openSum n dir] ++
            (bindFields listElementName members ⟨s, n + 1⟩).1 ++ before ++ [.summand x, .closeSum list]) ↔
          AllDeclared (inner :: (sumName n :: b) :: env) before ∧
            (∀ y ∈ operandNames x, Blocks.Has (all :: (sumName n :: b) :: env) y) ∧
            Blocks.Has ((sumName n :: b) :: env) list) := by
  have hhas : Blocks.Has ([listElementName] :: (sumName n :: b) :: env) listElementName :=
    Blocks.has_cons.mpr (.inl List.mem_cons_self)
  obtain ⟨names, hrun, hbindings, hinner, hbound⟩ := bindFields_prepares (n := n + 1) members hhas
    ((hs.extended [sumName n]).entered [listElementName])
  refine ⟨names ++ [listElementName], hinner, hhas.extended names, fun haccounted => ?_, ?_⟩
  · have hsumName : ∀ x ∈ [sumName n], Incidental x := by simp [incidental_sumName]
    exact (haccounted.extended hsumName).entered (fun g hg => List.mem_append_right _ hg)
      (fun _ => rfl) (by simp) hbound
  · intro before all x list hbefore
    have hopen : enterAll (b :: env) [.openSum n dir] =
        [listElementName] :: (sumName n :: b) :: env := rfl
    have hfirst : AllDeclared (b :: env) [.openSum n dir] := ⟨by simp [Stmt.reads], trivial⟩
    have hlast : AllDeclared (all :: (sumName n :: b) :: env) [.summand x, .closeSum list] ↔
        (∀ y ∈ operandNames x, Blocks.Has (all :: (sumName n :: b) :: env) y) ∧
          Blocks.Has ((sumName n :: b) :: env) list := by
      simp [AllDeclared, Stmt.reads, Stmt.sees, Stmt.enter, Stmt.declared?, Blocks.extend]
    simp only [allDeclared_append, enterAll_append, hopen, hrun, hbefore, hlast]
    exact ⟨fun h => ⟨h.1.2, h.2⟩, fun h => ⟨⟨⟨hfirst, hbindings⟩, h.1⟩, h.2⟩⟩

theorem Expressed.declares (h : Expressed dir ns s n e stmts text m) (hnames : isWellNamed e = true)
    (hs : Supplies (b :: env) s)
    (helement : inside = true → Blocks.Has (b :: env) listElementName)
    (hrefs : ∀ r ∈ references inside s e, Answered r) :
    AllDeclared (b :: env) stmts ∧
      ∀ x ∈ operandNames text, (enterAll (b :: env) stmts).Has x := by
  induction h generalizing b env inside with
  | @binary s n k m op lhs rhs before between x y hl hr ihl ihr =>
    simp only [isWellNamed, Bool.and_eq_true] at hnames
    obtain ⟨⟨hop, hlhs⟩, hrhs⟩ := hnames
    rw [references, List.forall_mem_append] at hrefs
    -- the sums of the left operand are declared by the time the right one is read
    obtain ⟨names, -, hleft⟩ := hl.enters b env
    obtain ⟨more, -, hright⟩ := hr.enters (names ++ b) env
    obtain ⟨hbefore, hx⟩ := ihl hlhs hs helement hrefs.1
    obtain ⟨hbetween, hy⟩ := ihr hrhs (hs.extended names) (fun hin => (helement hin).extended names)
      hrefs.2
    rw [allDeclared_append, enterAll_append, operandNames_binary (List.contains_iff_mem.mp hop),
      List.forall_mem_append, hleft]
    refine ⟨⟨hbefore, hbetween⟩, fun z hz => ?_, hy⟩
    rw [hright]
    exact (hleft ▸ hx z hz).extended more
  | complement _ ih =>
    rw [operandNames_complement]
    exact ih hnames hs helement hrefs
  | popCount _ ih =>
    rw [operandNames_popCount]
    exact ih hnames hs helement hrefs
  | @sumOf s n m list summand f member count length before x hlist htype h ih =>
    rw [isWellNamed, Bool.and_eq_true] at hnames
    rw [references, List.forall_mem_cons, sumScope_eq hlist htype, ← references_summandOf] at hrefs
    -- the summand is read among the members of an element, the list outside of them
    obtain ⟨inner, hinner, helement, -, hiff⟩ := sum_inside dir n (elementMembers member) hs
    obtain ⟨hbefore, hx⟩ := ih (isWellNamed_summandOf hnames.2) hinner (fun _ => helement) hrefs.2
    obtain ⟨more, -, hrun⟩ := h.enters inner ((sumName n :: b) :: env)
    have hlocal : Blocks.Has ((sumName n :: b) :: env) list := hs.extended [sumName n] list hrefs.1
    refine ⟨(hiff hrun).mpr ⟨hbefore, hrun ▸ hx, hlocal⟩, fun z hz => ?_⟩
    rw [operandNames_identifier (isIdentifier_sumName n), List.mem_singleton] at hz
    rw [hz, enterAll_sum (elementMembers member) fun b env => (h.enters b env).imp fun _ h => h.2]
    exact Blocks.has_cons.mpr (.inl List.mem_cons_self)
  | @fieldLen s n name f _ =>
    have hlen : isIdentifier (safeName name ++ "_len") = true :=
      isIdentifier_append (isIdentifier_safeName hnames) (by decide)
    refine ⟨trivial, fun z hz => ?_⟩
    rw [operandNames_identifier hlen, List.mem_singleton] at hz
    rw [hz]
    exact hs _ (hrefs (s, .length name) List.mem_cons_self)
  | @fieldRef s n name =>
    refine ⟨trivial, fun z hz => ?_⟩
    rw [operandNames_identifier hnames, List.mem_singleton] at hz
    rw [hz]
    exact hs _ (hrefs (s, .field name) List.mem_cons_self)
  | enumRef enum item =>
    rw [isWellNamed, Bool.and_eq_true] at hnames
    refine ⟨trivial, fun z hz => ?_⟩
    rw [operandNames_enumRef hnames.1 hnames.2] at hz
    cases hz
  | @listElement s n =>
    refine ⟨trivial, fun z hz => ?_⟩
    rw [operandNames_identifier (by decide), List.mem_singleton] at hz
    rw [hz]
    cases inside with
    | true => exact helement rfl
    | false => exact hs _ (hrefs (s, .element) List.mem_cons_self)
  | value v =>
    refine ⟨trivial, fun z hz => ?_⟩
    rw [operandNames_nat] at hz
    cases hz

theorem Expressed.answers (h : Expressed dir ns s n e stmts text m) (hnames : isWellNamed e = true)
    (hs : Supplies (b :: env) s) (haccounted : Accounted inside (b :: env) s)
    (hmeant : ∀ r ∈ references inside s e, Meant r) (hdeclared : AllDeclared (b :: env) stmts)
    {final : Blocks} (hfinal : Accounted inside final s) (htext : ∀ x ∈ operandNames text, final.Has x) :
    ∀ r ∈ references inside s e, Answered r := by
  induction h generalizing b env inside final with
  | @binary s n k m op lhs rhs before between x y hl hr ihl ihr =>
    simp only [isWellNamed, Bool.and_eq_true] at hnames
    obtain ⟨⟨hop, hlhs⟩, hrhs⟩ := hnames
    rw [references, List.forall_mem_append] at hmeant ⊢
    obtain ⟨names, hincidental, hleft⟩ := hl.enters b env
    rw [allDeclared_append, hleft] at hdeclared
    rw [operandNames_binary (List.contains_iff_mem.mp hop), List.forall_mem_append] at htext
    exact ⟨ihl hlhs hs haccounted hmeant.1 hdeclared.1 hfinal htext.1,
      ihr hrhs (hs.extended names) (haccounted.extended hincidental) hmeant.2 hdeclared.2 hfinal
        htext.2⟩
  | complement _ ih =>
    rw [operandNames_complement] at htext
    exact ih hnames hs haccounted hmeant hdeclared hfinal htext
  | popCount _ ih =>
    rw [operandNames_popCount] at htext
    exact ih hnames hs haccounted hmeant hdeclared hfinal htext
  | @sumOf s n m list summand f member count length before x hlist htype h ih =>
    rw [isWellNamed, Bool.and_eq_true] at hnames
    rw [references, List.forall_mem_cons, sumScope_eq hlist htype, ← references_summandOf]
      at hmeant ⊢
    obtain ⟨inner, hinner, -, haccount, hiff⟩ := sum_inside dir n (elementMembers member) hs
    have hbody := haccount haccounted
    obtain ⟨more, hmore, hrun⟩ := h.enters inner ((sumName n :: b) :: env)
    obtain ⟨hbefore, hvalue, hlocal⟩ := (hiff hrun).mp hdeclared
    -- the name of the list is looked for outside the body, where only the sum has been added
    constructor
    · have hfield : f.name = list := by simpa using List.find?_some hlist
      have hsumName : ∀ x ∈ [sumName n], Incidental x := by simp [incidental_sumName]
      rw [← hfield] at hlocal ⊢
      exact (haccounted.extended hsumName).of_field (List.mem_of_find?_eq_some hlist) hlocal
    · exact ih (isWellNamed_summandOf hnames.2) hinner hbody hmeant.2 hbefore (hbody.extended hmore)
        hvalue
  | @fieldLen s n name f _ =>
    have hlen : isIdentifier (safeName name ++ "_len") = true :=
      isIdentifier_append (isIdentifier_safeName hnames) (by decide)
    rw [operandNames_identifier hlen] at htext
    rw [references, List.forall_mem_singleton]
    exact hfinal.of_size (htext _ List.mem_cons_self)
  | @fieldRef s n name =>
    rw [operandNames_identifier hnames] at htext
    rw [references, List.forall_mem_singleton] at hmeant ⊢
    have hlocal := htext _ List.mem_cons_self
    obtain ⟨f, hf, rfl | ⟨-, rfl⟩⟩ := hmeant
    · exact hfinal.of_field hf hlocal
    · exact hfinal.of_size hlocal
  | enumRef enum item => simp [references]
  | @listElement s n =>
    rw [operandNames_identifier (by decide)] at htext
    cases inside with
    | true => simp [references]
    | false =>
      rw [references, if_neg (by decide), List.forall_mem_singleton]
      rcases hfinal _ (htext _ List.mem_cons_self) with hlocal | hincidental | ⟨hin, -⟩
      · exact hlocal
      · exact absurd rfl hincidental.not_element
      · cases hin
  | value v => simp [references]

end

section
variable {dir : Direction} {ns : List String} {s : Scope} {n m : Nat} {es : List Expr}
  {test selector : String} {before : List Stmt} {conditions : List String} {b : List String}
  {env : Blocks}

theorem Tested.enters (h : Tested dir ns test selector s n es before conditions m) (b : List String)
    (env : Blocks) :
    ∃ names, (∀ x ∈ names, Incidental x) ∧ enterAll (b :: env) before = (names ++ b) :: env := by
  induction h generalizing b with
  | nil => exact ⟨[], by simp, rfl⟩
  | cons h _ ih =>
    obtain ⟨names, hnames, hone⟩ := h.enters b env
    obtain ⟨more, hmore, hrest⟩ := ih (names ++ b)
    refine ⟨more ++ names, List.forall_mem_append.mpr ⟨hmore, hnames⟩, ?_⟩
    rw [enterAll_append, hone, hrest, List.append_assoc]

theorem Tested.declares (h : Tested dir ns test selector s n es before conditions m)
    (htest : test = "CaseEq" ∨ test = "CaseAnd") (hselector : isIdentifier selector = true)
    (hhas : Blocks.Has (b :: env) selector) (hnames : ∀ e ∈ es, isWellNamed e = true)
    (hs : Supplies (b :: env) s) (hrefs : ∀ e ∈ es, ∀ r ∈ references false s e, Answered r) :
    AllDeclared (b :: env) before ∧
      ∀ c ∈ conditions, ∀ x ∈ operandNames c, (enterAll (b :: env) before).Has x := by
  induction h generalizing b with
  | nil => exact ⟨trivial, by simp⟩
  | @cons n k m e es first between x conditions h hrest ih =>
    rw [List.forall_mem_cons] at hnames hrefs
    obtain ⟨names, -, hone⟩ := h.enters b env
    obtain ⟨more, -, htail⟩ := hrest.enters (names ++ b) env
    obtain ⟨hfirst, hx⟩ := h.declares hnames.1 hs (by simp) hrefs.1
    obtain ⟨hbetween, hconditions⟩ := ih (hhas.extended names) hnames.2 (hs.extended names) hrefs.2
    rw [allDeclared_append, enterAll_append, hone, List.forall_mem_cons,
      operandNames_test htest hselector, List.forall_mem_cons]
    refine ⟨⟨hfirst, hbetween⟩, ⟨?_, fun y hy => ?_⟩, hconditions⟩
    · rw [htail]
      exact (hhas.extended names).extended more
    · rw [htail]
      exact (hone ▸ hx y hy).extended more

theorem Tested.answers (h : Tested dir ns test selector s n es before conditions m)
    (htest : test = "CaseEq" ∨ test = "CaseAnd") (hselector : isIdentifier selector = true)
    (hnames : ∀ e ∈ es, isWellNamed e = true) (hs : Supplies (b :: env) s)
    (haccounted : Accounted false (b :: env) s)
    (hmeant : ∀ e ∈ es, ∀ r ∈ references false s e, Meant r)
    (hdeclared : AllDeclared (b :: env) before) {final : Blocks} (hfinal : Accounted false final s)
    (hconditions : ∀ c ∈ conditions, ∀ x ∈ operandNames c, final.Has x) :
    ∀ e ∈ es, ∀ r ∈ references false s e, Answered r := by
  induction h generalizing b with
  | nil => simp
  | cons h _ ih =>
    rw [List.forall_mem_cons] at hnames hmeant hconditions ⊢
    obtain ⟨names, hincidental, hone⟩ := h.enters b env
    rw [allDeclared_append, hone] at hdeclared
    rw [operandNames_test htest hselector, List.forall_mem_cons] at hconditions
    exact ⟨h.answers hnames.1 hs haccounted hmeant.1 hdeclared.1 hfinal hconditions.1.2,
      ih hnames.2 (hs.extended names) (haccounted.extended hincidental) hmeant.2 hdeclared.2
        hconditions.2⟩

end

end CodecGen.Emit
