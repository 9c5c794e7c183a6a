import CodecGen.Proofs.CodeBlocks
set_option autoImplicit false
/-!
The locals of the code for ingredients. Where its surroundings are ready for it, all that the code names
is declared if the references of its expressions have locals (`Declares`), and only then if nothing else
accounts for a name (`Answers`). Each has a rule for every way in which code is put together.
-/
namespace CodecGen.Emit
open Schema

section
variable {dir : Direction} {ns locals : List String} {s t : Scope} {n k m : Nat}
  {is js : List Ingredient} {out bindings xs ys before body : List Stmt} {e : Expr} {x name : String}

/-- Wherever the surroundings are ready for it, the code declares all that it names if the references of
its ingredients have locals. -/
def Declares (locals : List String) (s : Scope) (is : List Ingredient) (out : List Stmt) : Prop :=
  ∀ ⦃b : List String⦄ ⦃env : Blocks⦄, Ready locals s (b :: env) →
    (∀ i ∈ is, i.WellNamed ∧ i.Bound) → (∀ i ∈ is, ∀ r ∈ i.references, Answered r) →
    AllDeclared (b :: env) out

namespace Declares

theorem append (hx : Written dir ns locals s n is xs k) (hxs : Declares locals s is xs)
    (hys : Declares locals s js ys) : Declares locals s (is ++ js) (xs ++ ys) := by
  intro b env hready hnamed hrefs
  rw [List.forall_mem_append] at hnamed hrefs
  obtain ⟨names, -, hrun⟩ := hx.enters hready.safe b env
  rw [allDeclared_append, hrun]
  exact ⟨hxs hready hnamed.1 hrefs.1, hys (hready.extended names) hnamed.2 hrefs.2⟩

theorem of_no_reads {y : Stmt} (h : y.reads = []) : Declares locals s is [y] := by
  intro b env _ _ _
  refine ⟨?_, trivial⟩
  rw [h]
  simp

theorem read {type : String} (dir : Direction) :
    Declares locals s is [.declare type x, .copy dir x] := by
  intro b env _ _ _
  refine ⟨by simp [Stmt.reads], List.forall_mem_singleton.mpr ?_, trivial⟩
  exact Blocks.has_cons.mpr (.inl List.mem_cons_self)

theorem computed {name : String} {type : Ty} (h : Expressed dir ns s n e before x m) :
    Declares locals s [.expr s e, .hidden name type]
      (before ++ [.define (qualify type ns) (safeName name) x, .copy dir (safeName name)]) := by
  intro b env hready hnamed hrefs
  rw [List.forall_mem_cons] at hnamed hrefs
  obtain ⟨names, -, hrun⟩ := h.enters b env
  obtain ⟨hbefore, hx⟩ := h.declares hnamed.1.1 hready.supplies (by simp) hrefs.1
  rw [allDeclared_append, hrun, allDeclared_define, ← hrun]
  exact ⟨hbefore, hx⟩

theorem size (hname : AtHand locals s name) (h : Expressed dir ns s n e before x m) :
    Declares locals s [.expr s e] (before ++ [sizeStmt dir name x]) := by
  intro b env hready hnamed hrefs
  rw [List.forall_mem_singleton] at hnamed hrefs
  obtain ⟨names, -, hrun⟩ := h.enters b env
  obtain ⟨hbefore, hx⟩ := h.declares hnamed.1 hready.supplies (by simp) hrefs
  have hlist := (hready.of_atHand hname).1.extended names
  rw [allDeclared_append, allDeclared_size]
  exact ⟨hbefore, hrun ▸ hlist, hx⟩

theorem loop (hname : AtHand locals s name)
    (henter : Entered ((name ++ "_elem") :: locals) s n is bindings t k)
    (h : Declares ((name ++ "_elem") :: locals) t js body) :
    Declares locals s (is ++ js)
      ([.openLoop (name ++ "_elem") name] ++ bindings ++ body ++ [.closeBlock]) := by
  intro b env hready hnamed hrefs
  rw [List.forall_mem_append] at hnamed hrefs
  obtain ⟨inner, hinner, -, hdeclared⟩ :=
    henter.inside (.openLoop (name ++ "_elem") name) rfl (hready.loop hname) hnamed.1
  have hhas := (hready.of_atHand hname).1
  exact (hdeclared body).mpr ⟨List.forall_mem_singleton.mpr hhas, h hinner hnamed.2 hrefs.2⟩

theorem block (henter : Entered locals s n is bindings t k) (h : Declares locals t js body) :
    Declares locals s (is ++ js) ([.openBlock] ++ bindings ++ body ++ [.closeBlock]) := by
  intro b env hready hnamed hrefs
  rw [List.forall_mem_append] at hnamed hrefs
  obtain ⟨inner, hinner, -, hdeclared⟩ := henter.inside .openBlock rfl (hready.entered []) hnamed.1
  exact (hdeclared body).mpr ⟨by simp [Stmt.reads], h hinner hnamed.2 hrefs.2⟩

theorem selected (hname : AtHand locals s name) (h : Expressed dir ns s n e before x m)
    (hrest : Declares ((name ++ "_expr") :: locals) s is ys) :
    Declares locals s (.expr s e :: is) (before ++ [.bindSelector (name ++ "_expr") x] ++ ys) := by
  intro b env hready hnamed hrefs
  rw [List.forall_mem_cons] at hnamed hrefs
  obtain ⟨names, -, hrun⟩ := h.enters b env
  obtain ⟨hbefore, hx⟩ := h.declares hnamed.1.1 hready.supplies (by simp) hrefs.1
  rw [allDeclared_selected, hrun]
  exact ⟨hbefore, hrun ▸ hx, hrest ((hready.extended names).selector hname) hnamed.2 hrefs.2⟩

theorem branch {test selector : String} {es : List Expr} {conditions : List String}
    (htest : test = "CaseEq" ∨ test = "CaseAnd") (hselector : selector ∈ locals)
    (h : Tested dir ns test selector s n es before conditions k)
    (henter : Entered locals s k is bindings t m) (hbody : Declares locals t js body) :
    Declares locals s (es.map (.expr s) ++ is ++ js)
      (before ++ [.openBranch conditions] ++ bindings ++ body ++ [.closeBlock]) := by
  intro b env hready hnamed hrefs
  simp only [List.forall_mem_append, List.forall_mem_map] at hnamed hrefs
  obtain ⟨names, -, hrun⟩ := h.enters b env
  obtain ⟨hbefore, hconditions⟩ := h.declares htest (hready.locals_named _ hselector).1
    (hready.has _ hselector) (fun e he => (hnamed.1.1 e he).1) hready.supplies hrefs.1.1
  obtain ⟨inner, hinner, -, hdeclared⟩ :=
    henter.inside (.openBranch conditions) rfl ((hready.extended names).entered []) hnamed.1.2
  rw [hrun] at hconditions
  rw [allDeclared_branch, hrun, hdeclared]
  refine ⟨hbefore, fun x hx => ?_, hbody hinner hnamed.2 hrefs.2⟩
  obtain ⟨c, hc, hx⟩ := List.mem_flatMap.mp hx
  exact hconditions c hc x hx

end Declares

theorem Written.declares (h : Written dir ns locals s n is out m) : Declares locals s is out := by
  induction h with
  | nil => exact fun _ _ _ _ _ => trivial
  | append hx _ ihx ihy => exact .append hx ihx ihy
  | @note locals s n x h =>
    apply Declares.of_no_reads
    cases x <;> first | rfl | cases h
  | comment name => exact .of_no_reads rfl
  | copy hname =>
    intro b env hready _ _
    exact ⟨List.forall_mem_singleton.mpr (hready.of_atHand hname).1, trivial⟩
  | reserve name type => exact .of_no_reads rfl
  | opcode name type number =>
    intro b env _ _ _
    rw [allDeclared_define, operandNames_int]
    simp
  | read name type => exact .read dir
  | computed h => exact .computed h
  | size hname h => exact .size hname h
  | loop hname henter _ ih => exact .loop hname henter ih
  | block henter _ ih => exact .block henter ih
  | selected hname h _ ih => exact .selected hname h ih
  | branch htest hselector h henter _ ih => exact .branch htest hselector h henter ih

/-- Wherever the surroundings are ready for the code and account for all that they declare, the
references of its ingredients have locals if the code declares all that it names. -/
def Answers (locals : List String) (s : Scope) (is : List Ingredient) (out : List Stmt) : Prop :=
  ∀ ⦃b : List String⦄ ⦃env : Blocks⦄, Ready locals s (b :: env) → Accounted false (b :: env) s →
    (∀ i ∈ is, i.WellNamed ∧ i.Bound) → (∀ i ∈ is, i.Apart) →
    (∀ i ∈ is, ∀ r ∈ i.references, Meant r) → AllDeclared (b :: env) out →
    ∀ i ∈ is, ∀ r ∈ i.references, Answered r

namespace Answers

theorem of_no_references (h : ∀ i ∈ is, i.references = []) : Answers locals s is out := by
  intro b env _ _ _ _ _ _ i hi r hr
  rw [h i hi] at hr
  cases hr

theorem append (hx : Written dir ns locals s n is xs k) (hxs : Answers locals s is xs)
    (hys : Answers locals s js ys) : Answers locals s (is ++ js) (xs ++ ys) := by
  intro b env hready haccounted hnamed hapart hmeant hdeclared
  rw [List.forall_mem_append] at hnamed hapart hmeant ⊢
  obtain ⟨names, hincidental, hrun⟩ := hx.enters hready.safe b env
  rw [allDeclared_append, hrun] at hdeclared
  exact ⟨hxs hready haccounted hnamed.1 hapart.1 hmeant.1 hdeclared.1,
    hys (hready.extended names) (haccounted.extended (hincidental hapart.1)) hnamed.2 hapart.2
      hmeant.2 hdeclared.2⟩

theorem computed {name : String} {type : Ty} (h : Expressed dir ns s n e before x m) :
    Answers locals s [.expr s e, .hidden name type]
      (before ++ [.define (qualify type ns) (safeName name) x, .copy dir (safeName name)]) := by
  intro b env hready haccounted hnamed _ hmeant hdeclared
  rw [List.forall_mem_cons] at hnamed hmeant ⊢
  obtain ⟨names, hincidental, hrun⟩ := h.enters b env
  rw [allDeclared_append, hrun, allDeclared_define] at hdeclared
  exact ⟨h.answers hnamed.1.1 hready.supplies haccounted hmeant.1 hdeclared.1
    (haccounted.extended hincidental) hdeclared.2, by simp [Ingredient.references]⟩

theorem size (h : Expressed dir ns s n e before x m) :
    Answers locals s [.expr s e] (before ++ [sizeStmt dir name x]) := by
  intro b env hready haccounted hnamed _ hmeant hdeclared
  rw [List.forall_mem_singleton] at hnamed hmeant ⊢
  obtain ⟨names, hincidental, hrun⟩ := h.enters b env
  rw [allDeclared_append, hrun, allDeclared_size] at hdeclared
  exact h.answers hnamed.1 hready.supplies haccounted hmeant hdeclared.1
    (haccounted.extended hincidental) hdeclared.2.2

theorem loop (hname : AtHand locals s name)
    (henter : Entered ((name ++ "_elem") :: locals) s n is bindings t k)
    (h : Answers ((name ++ "_elem") :: locals) t js body) :
    Answers locals s (is ++ js)
      ([.openLoop (name ++ "_elem") name] ++ bindings ++ body ++ [.closeBlock]) := by
  intro b env hready haccounted hnamed hapart hmeant hdeclared
  rw [List.forall_mem_append] at hnamed hapart hmeant ⊢
  obtain ⟨inner, hinner, hbody, hiff⟩ :=
    henter.inside (.openLoop (name ++ "_elem") name) rfl (hready.loop hname) hnamed.1
  have helement := incidental_elem (hready.of_atHand hname).2.2
  refine ⟨henter.no_references, ?_⟩
  exact h hinner (hbody (List.forall_mem_singleton.mpr helement) haccounted) hnamed.2 hapart.2
    hmeant.2 ((hiff body).mp hdeclared).2

theorem block (henter : Entered locals s n is bindings t k) (h : Answers locals t js body) :
    Answers locals s (is ++ js) ([.openBlock] ++ bindings ++ body ++ [.closeBlock]) := by
  intro b env hready haccounted hnamed hapart hmeant hdeclared
  rw [List.forall_mem_append] at hnamed hapart hmeant ⊢
  obtain ⟨inner, hinner, hbody, hiff⟩ := henter.inside .openBlock rfl (hready.entered []) hnamed.1
  exact ⟨henter.no_references, h hinner (hbody (by simp) haccounted) hnamed.2 hapart.2 hmeant.2
    ((hiff body).mp hdeclared).2⟩

theorem selected (hname : AtHand locals s name) (h : Expressed dir ns s n e before x m)
    (hrest : Answers ((name ++ "_expr") :: locals) s is ys) :
    Answers locals s (.expr s e :: is) (before ++ [.bindSelector (name ++ "_expr") x] ++ ys) := by
  intro b env hready haccounted hnamed hapart hmeant hdeclared
  rw [List.forall_mem_cons] at hnamed hapart hmeant ⊢
  obtain ⟨names, hincidental, hrun⟩ := h.enters b env
  have hselector : ∀ x ∈ [name ++ "_expr"], Incidental x :=
    List.forall_mem_singleton.mpr (incidental_expr (hready.of_atHand hname).2.2)
  have hbefore := haccounted.extended hincidental
  rw [allDeclared_selected, hrun] at hdeclared
  exact ⟨h.answers hnamed.1.1 hready.supplies haccounted hmeant.1 hdeclared.1 hbefore hdeclared.2.1,
    hrest ((hready.extended names).selector hname) (hbefore.extended hselector) hnamed.2 hapart.2
      hmeant.2 hdeclared.2.2⟩

theorem branch {test selector : String} {es : List Expr} {conditions : List String}
    (htest : test = "CaseEq" ∨ test = "CaseAnd") (hselector : selector ∈ locals)
    (h : Tested dir ns test selector s n es before conditions k)
    (henter : Entered locals s k is bindings t m) (hbody : Answers locals t js body) :
    Answers locals s (es.map (.expr s) ++ is ++ js)
      (before ++ [.openBranch conditions] ++ bindings ++ body ++ [.closeBlock]) := by
  intro b env hready haccounted hnamed hapart hmeant hdeclared
  simp only [List.forall_mem_append, List.forall_mem_map] at hnamed hapart hmeant ⊢
  obtain ⟨names, hincidental, hrun⟩ := h.enters b env
  obtain ⟨inner, hinner, haccount, hiff⟩ :=
    henter.inside (.openBranch conditions) rfl ((hready.extended names).entered []) hnamed.1.2
  have hbefore := haccounted.extended hincidental
  rw [allDeclared_branch, hrun, hiff] at hdeclared
  have hanswers := h.answers htest (hready.locals_named _ hselector).1
    (fun e he => (hnamed.1.1 e he).1) hready.supplies haccounted hmeant.1.1 hdeclared.1 hbefore
    fun c hc x hx => hdeclared.2.1 x (List.mem_flatMap.mpr ⟨c, hc, hx⟩)
  exact ⟨⟨hanswers, henter.no_references⟩,
    hbody hinner (haccount (by simp) hbefore) hnamed.2 hapart.2 hmeant.2 hdeclared.2.2⟩

end Answers

theorem Written.answers (h : Written dir ns locals s n is out m) : Answers locals s is out := by
  induction h with
  | nil | note _ | comment _ | copy _ | reserve _ _ | opcode _ _ _ | read _ _ =>
    exact .of_no_references (by simp [Ingredient.references])
  | append hx _ ihx ihy => exact .append hx ihx ihy
  | computed h => exact .computed h
  | size _ h => exact .size h
  | loop hname henter _ ih => exact .loop hname henter ih
  | block henter _ ih => exact .block henter ih
  | selected hname h _ ih => exact .selected hname h ih
  | branch htest hselector h henter _ ih => exact .branch htest hselector h henter ih

end
end CodecGen.Emit
