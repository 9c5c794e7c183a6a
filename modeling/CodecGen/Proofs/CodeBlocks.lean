import CodecGen.Proofs.ExpressionLocals
import CodecGen.Proofs.EmittedCode
set_option autoImplicit false
/-!
The blocks of the code for ingredients. The code closes the blocks that it opens; for each of its pieces
one lemma says what it takes for all the names there to be declared, and which locals are ready for what
is inside.
-/
namespace CodecGen.Emit
open Schema

namespace Ingredient

def references : Ingredient → List (Scope × Reference)
  | expr s e => Emit.references false s e
  | _ => []

def WellNamed : Ingredient → Prop
  | expr _ e => isWellNamed e = true
  | members fields => ∀ f ∈ fields, Scope.binds f = true → isIdentifier (safeName f.name) = true
  | _ => True

instance : (i : Ingredient) → Decidable i.WellNamed
  | expr _ e => inferInstanceAs (Decidable (isWellNamed e = true))
  | members fields => inferInstanceAs (Decidable
      (∀ f ∈ fields, Scope.binds f = true → isIdentifier (safeName f.name) = true))
  | label _ | hidden .. | branch _ => .isTrue trivial

def Bound : Ingredient → Prop
  | branch b => Scope.binds b = true
  | _ => True

def Apart : Ingredient → Prop
  | hidden name _ => Incidental (safeName name)
  | _ => True

instance : (i : Ingredient) → Decidable i.Apart
  | hidden name _ => inferInstanceAs (Decidable (Incidental (safeName name)))
  | label _ | branch _ | members _ | expr .. => .isTrue trivial

end Ingredient

/-- What the code for the ingredients can rely on: the locals around it and those of the scope are
declared, under names that C++ accepts. -/
structure Ready (locals : List String) (s : Scope) (env : Blocks) : Prop where
  supplies : Supplies env s
  has : ∀ x ∈ locals, env.Has x
  locals_named : ∀ x ∈ locals, isIdentifier x = true ∧ safeName x = x
  fields_named : ∀ f ∈ s, isIdentifier (safeName f.name) = true

section
variable {dir : Direction} {ns locals : List String} {s t : Scope} {n k m : Nat}
  {is : List Ingredient} {out bindings : List Stmt} {b inner : List String} {env : Blocks}
  {name : String}

theorem AtHand.safe (h : AtHand locals s name) (hlocals : ∀ x ∈ locals, safeName x = x) :
    safeName name = name := by
  rcases h with h | ⟨f, -, rfl⟩
  · exact hlocals name h
  · exact safeName_idem f.name

namespace Ready

theorem extended (h : Ready locals s (b :: env)) (names : List String) :
    Ready locals s ((names ++ b) :: env) :=
  ⟨h.supplies.extended names, fun x hx => (h.has x hx).extended names, h.locals_named,
    h.fields_named⟩

theorem entered (h : Ready locals s (b :: env)) (inner : List String) :
    Ready locals s (inner :: b :: env) :=
  ⟨h.supplies.entered inner, fun x hx => Blocks.has_cons.mpr (.inr (h.has x hx)), h.locals_named,
    h.fields_named⟩

theorem of_atHand (h : Ready locals s env) (hname : AtHand locals s name) :
    env.Has name ∧ isIdentifier name = true ∧ safeName name = name := by
  rcases hname with hname | ⟨f, hf, rfl⟩
  · exact ⟨h.has name hname, h.locals_named name hname⟩
  · exact ⟨h.supplies _ (.inl ⟨f, hf, rfl⟩), h.fields_named f hf, safeName_idem f.name⟩

theorem with_local (h : Ready locals s env) {x : String} (hx : env.Has x)
    (hnamed : isIdentifier x = true) (hsafe : safeName x = x) : Ready (x :: locals) s env :=
  ⟨h.supplies, List.forall_mem_cons.mpr ⟨hx, h.has⟩,
    List.forall_mem_cons.mpr ⟨⟨hnamed, hsafe⟩, h.locals_named⟩, h.fields_named⟩

end Ready

theorem Entered.isBinding (h : Entered locals s n is bindings t k) :
    ∀ x ∈ bindings, x.isBinding = true := by
  cases h with
  | plain => simp
  | members _ => exact fun _ => isBinding_of_mem_bindFields
  | branch _ => exact fun _ => isBinding_of_mem_bindFields

theorem Entered.no_references (h : Entered locals s n is bindings t k) {P : Scope × Reference → Prop} :
    ∀ i ∈ is, ∀ r ∈ i.references, P r := by
  cases h <;> simp [Ingredient.references]

theorem Entered.prepares (h : Entered locals s n is bindings t k)
    (hready : Ready locals s (inner :: env)) (hnamed : ∀ i ∈ is, i.WellNamed ∧ i.Bound) :
    ∃ names, enterAll (inner :: env) bindings = (names ++ inner) :: env ∧
      AllDeclared (inner :: env) bindings ∧ Ready locals t ((names ++ inner) :: env) ∧
      (∀ x ∈ names, LocalOf t x ∨ Incidental x) ∧ ∀ f ∈ s, f ∈ t := by
  have hbound : ∀ {object : String} {fields : List Field}, Blocks.Has (inner :: env) object →
      (∀ f ∈ fields, Scope.binds f = true → isIdentifier (safeName f.name) = true) →
      ∃ names, enterAll (inner :: env) (bindFields object fields ⟨s, n⟩).1 = (names ++ inner) :: env ∧
        AllDeclared (inner :: env) (bindFields object fields ⟨s, n⟩).1 ∧
        Ready locals (boundBy fields ++ s) ((names ++ inner) :: env) ∧
        (∀ x ∈ names, LocalOf (boundBy fields ++ s) x ∨ Incidental x) ∧
        ∀ f ∈ s, f ∈ boundBy fields ++ s := by
    intro object fields hobject hfields
    obtain ⟨names, hrun, hdeclared, hsupplies, hnames⟩ :=
      bindFields_prepares (n := n) fields hobject hready.supplies
    have hold := hready.extended names
    refine ⟨names, hrun, hdeclared, ⟨hsupplies, hold.has, hold.locals_named, ?_⟩, hnames,
      fun f hf => List.mem_append_right _ hf⟩
    intro f hf
    rcases List.mem_append.mp hf with hf | hf
    · obtain ⟨hf, hbinds⟩ := mem_boundBy.mp hf
      exact hfields f hf hbinds
    · exact hready.fields_named f hf
  cases h with
  | plain => exact ⟨[], rfl, trivial, hready, by simp, fun _ hf => hf⟩
  | members hobject =>
    rw [List.forall_mem_singleton] at hnamed
    exact hbound (hready.of_atHand hobject).1 hnamed.1
  | branch hb =>
    simp only [List.forall_mem_cons] at hnamed
    exact hbound (hready.of_atHand (.inr ⟨_, hb hnamed.1.2, rfl⟩)).1 hnamed.2.1.1

section
variable {blocks : Blocks} {bindings body before rest : List Stmt} {x name value : String}

/-- The locals of a block from its start, for the statements that open one for the code of ingredients. -/
def Stmt.opens? : Stmt → Option (List String)
  | openBlock | openBranch _ => some []
  | openLoop element _ => some [element]
  | _ => none

theorem Stmt.enter_of_opens {opening : Stmt} {first : List String} (h : opening.opens? = some first)
    (blocks : Blocks) : opening.enter blocks = first :: blocks ∧ opening.sees blocks = blocks := by
  cases opening <;> first | (obtain rfl := Option.some.inj h; exact ⟨rfl, rfl⟩) | cases h

theorem allDeclared_block {opening : Stmt} {first : List String} (h : opening.opens? = some first) :
    AllDeclared blocks ([opening] ++ bindings ++ body ++ [.closeBlock]) ↔
      (∀ y ∈ opening.reads, blocks.Has y) ∧ AllDeclared (first :: blocks) bindings ∧
        AllDeclared (enterAll (first :: blocks) bindings) body := by
  obtain ⟨henter, hsees⟩ := Stmt.enter_of_opens h blocks
  have hclose : ∀ env, AllDeclared env [.closeBlock] := fun env => ⟨by simp [Stmt.reads], trivial⟩
  have hopen : enterAll blocks [opening] = first :: blocks := henter
  rw [allDeclared_append, allDeclared_append, allDeclared_append, enterAll_append, hopen,
    and_iff_left (hclose _), and_assoc, AllDeclared, hsees, AllDeclared, and_true]

theorem enterAll_block {opening : Stmt} {first all : List String} (h : opening.opens? = some first)
    (hbody : enterAll (enterAll (first :: blocks) bindings) body = all :: blocks) :
    enterAll blocks ([opening] ++ bindings ++ body ++ [.closeBlock]) = blocks := by
  have hopen : enterAll blocks [opening] = first :: blocks := (Stmt.enter_of_opens h blocks).1
  rw [enterAll_append, enterAll_append, enterAll_append, hopen, hbody]
  rfl

theorem allDeclared_define {type : String} (dir : Direction) :
    AllDeclared (b :: env) [.define type x value, .copy dir x] ↔
      ∀ y ∈ operandNames value, Blocks.Has (b :: env) y := by
  refine ⟨fun h => h.1, fun h => ⟨h, List.forall_mem_singleton.mpr ?_, trivial⟩⟩
  exact Blocks.has_cons.mpr (.inl List.mem_cons_self)

theorem allDeclared_size (dir : Direction) :
    AllDeclared blocks [sizeStmt dir name value] ↔
      blocks.Has name ∧ ∀ y ∈ operandNames value, blocks.Has y := by
  rw [← List.forall_mem_cons]
  cases dir <;> exact and_iff_left trivial

theorem allDeclared_selected :
    AllDeclared blocks (before ++ [.bindSelector x value] ++ rest) ↔
      AllDeclared blocks before ∧ (∀ y ∈ operandNames value, (enterAll blocks before).Has y) ∧
        AllDeclared ((enterAll blocks before).extend [x]) rest := by
  rw [allDeclared_append, allDeclared_append, enterAll_append, and_assoc]
  exact and_congr_right fun _ => and_congr_left fun _ => and_iff_left trivial

theorem allDeclared_branch {conditions : List String} :
    AllDeclared blocks (before ++ [.openBranch conditions] ++ bindings ++ body ++ [.closeBlock]) ↔
      AllDeclared blocks before ∧
        AllDeclared (enterAll blocks before)
          ([.openBranch conditions] ++ bindings ++ body ++ [.closeBlock]) := by
  rw [← allDeclared_append]
  simp only [List.append_assoc]

end

namespace Ready

theorem loop (h : Ready locals s (b :: env)) (hname : AtHand locals s name) :
    Ready ((name ++ "_elem") :: locals) s ([name ++ "_elem"] :: b :: env) := by
  obtain ⟨-, hidentifier, hsafe⟩ := h.of_atHand hname
  exact (h.entered _).with_local (Blocks.has_cons.mpr (.inl List.mem_cons_self))
    (isIdentifier_append hidentifier (by decide)) (safeName_suffix hsafe rfl)

theorem selector (h : Ready locals s (b :: env)) (hname : AtHand locals s name) :
    Ready ((name ++ "_expr") :: locals) s (((name ++ "_expr") :: b) :: env) := by
  obtain ⟨-, hidentifier, hsafe⟩ := h.of_atHand hname
  exact (h.extended [name ++ "_expr"]).with_local (Blocks.has_cons.mpr (.inl List.mem_cons_self))
    (isIdentifier_append hidentifier (by decide)) (safeName_suffix hsafe rfl)

theorem safe (h : Ready locals s env) : ∀ x ∈ locals, safeName x = x :=
  fun x hx => (h.locals_named x hx).2

end Ready

/-- In the block that a statement opens, the surroundings are ready for the code behind the bindings, and
it is the names of that code that have to be declared. -/
theorem Entered.inside (h : Entered locals s n is bindings t k) (opening : Stmt) {first : List String}
    (hopens : opening.opens? = some first) (hready : Ready locals s (first :: b :: env))
    (hnamed : ∀ i ∈ is, i.WellNamed ∧ i.Bound) :
    ∃ inner, Ready locals t (inner :: b :: env) ∧
      ((∀ x ∈ first, Incidental x) → Accounted false (b :: env) s →
        Accounted false (inner :: b :: env) t) ∧
      ∀ body, AllDeclared (b :: env) ([opening] ++ bindings ++ body ++ [.closeBlock]) ↔
        (∀ y ∈ opening.reads, Blocks.Has (b :: env) y) ∧ AllDeclared (inner :: b :: env) body := by
  obtain ⟨names, hrun, hbindings, hbody, hnames, hst⟩ := h.prepares hready hnamed
  refine ⟨names ++ first, hbody, fun hfirst haccounted => ?_, fun body => ?_⟩
  · exact haccounted.entered hst id (fun x hx => .inr (.inl (hfirst x hx))) hnames
  · rw [allDeclared_block hopens, hrun, and_iff_right hbindings]

theorem Written.enters (h : Written dir ns locals s n is out m)
    (hlocals : ∀ x ∈ locals, safeName x = x) (b : List String) (env : Blocks) :
    ∃ names, ((∀ i ∈ is, i.Apart) → ∀ x ∈ names, Incidental x) ∧
      enterAll (b :: env) out = (names ++ b) :: env := by
  induction h generalizing b env with
  | nil => exact ⟨[], by simp, rfl⟩
  | append _ _ ihx ihy =>
    obtain ⟨names, hnames, hxs⟩ := ihx hlocals b env
    obtain ⟨more, hmore, hys⟩ := ihy hlocals (names ++ b) env
    refine ⟨more ++ names, fun hapart => ?_, ?_⟩
    · rw [List.forall_mem_append] at hapart ⊢
      exact ⟨hmore hapart.2, hnames hapart.1⟩
    · rw [enterAll_append, hxs, hys, List.append_assoc]
  | @note locals s n x h =>
    refine ⟨[], by simp, ?_⟩
    cases x <;> first | rfl | cases h
  | comment name => exact ⟨[], by simp, rfl⟩
  | copy _ => exact ⟨[], by simp, rfl⟩
  | reserve name type => exact ⟨[], by simp, rfl⟩
  | opcode name type number => exact ⟨[safeName name], by simp [Ingredient.Apart], rfl⟩
  | read name type => exact ⟨[safeName name], by simp [Ingredient.Apart], rfl⟩
  | @computed locals s n m name type e before x h =>
    obtain ⟨names, hnames, hbefore⟩ := h.enters b env
    refine ⟨safeName name :: names, fun hapart => ?_, ?_⟩
    · exact List.forall_mem_cons.mpr ⟨hapart (.hidden name type) (by simp), hnames⟩
    · rw [enterAll_append, hbefore]
      rfl
  | size _ h =>
    obtain ⟨names, hnames, hbefore⟩ := h.enters b env
    refine ⟨names, fun _ => hnames, ?_⟩
    rw [enterAll_append, hbefore]
    cases dir <;> rfl
  -- what the body declares is local to its block; only what stands before a block remains
  | @loop locals s t n k m name is js bindings body hname henter _ ih =>
    have hsafe := safeName_suffix (y := "_elem") (hname.safe hlocals) rfl
    obtain ⟨names, hbindings⟩ := enterAll_bindings henter.isBinding [name ++ "_elem"] (b :: env)
    obtain ⟨more, -, hbody⟩ := ih (List.forall_mem_cons.mpr ⟨hsafe, hlocals⟩)
      (names ++ [name ++ "_elem"]) (b :: env)
    rw [← hbindings] at hbody
    exact ⟨[], by simp, enterAll_block rfl hbody⟩
  | block henter _ ih =>
    obtain ⟨names, hbindings⟩ := enterAll_bindings henter.isBinding [] (b :: env)
    obtain ⟨more, -, hbody⟩ := ih hlocals (names ++ []) (b :: env)
    rw [← hbindings] at hbody
    exact ⟨[], by simp, enterAll_block rfl hbody⟩
  | @selected locals s n k m name e before x is rest hname h _ ih =>
    have hexpr := incidental_expr (hname.safe hlocals)
    obtain ⟨names, hnames, hbefore⟩ := h.enters b env
    obtain ⟨more, hmore, hrest⟩ := ih (List.forall_mem_cons.mpr ⟨hexpr.safe, hlocals⟩)
      ((name ++ "_expr") :: (names ++ b)) env
    refine ⟨more ++ (name ++ "_expr") :: names, fun hapart => ?_, ?_⟩
    · rw [List.forall_mem_append, List.forall_mem_cons]
      exact ⟨hmore fun i hi => hapart i (List.mem_cons_of_mem _ hi), hexpr, hnames⟩
    · rw [enterAll_append, enterAll_append, hbefore, List.append_assoc, List.cons_append]
      exact hrest
  | @branch locals s t n k j m test selector es before conditions is js bindings body _ _ htested henter _
      ih =>
    obtain ⟨names, hnames, hbefore⟩ := htested.enters b env
    obtain ⟨inner, hbindings⟩ := enterAll_bindings henter.isBinding [] ((names ++ b) :: env)
    obtain ⟨more, -, hbody⟩ := ih hlocals (inner ++ []) ((names ++ b) :: env)
    rw [← hbindings] at hbody
    have hblock : enterAll ((names ++ b) :: env)
        ([.openBranch conditions] ++ bindings ++ body ++ [.closeBlock]) = (names ++ b) :: env :=
      enterAll_block rfl hbody
    refine ⟨names, fun _ => hnames, ?_⟩
    rw [← hbefore, ← enterAll_append] at hblock
    simpa only [List.append_assoc, hbefore] using hblock

end
end CodecGen.Emit
