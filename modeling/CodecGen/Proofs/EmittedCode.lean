import CodecGen.Proofs.EmittedExpressions
set_option autoImplicit false
/-!
The code that emission writes, as a relation. `Written` says once what a message can turn into: which
statements, in which scope, with which numbers for the temporaries, and from which parts of the
description. Every successful run of the emitters stands in this relation, so that a property of the
generated code is an induction over its rules.
-/
namespace CodecGen.Emit
open Schema

/-- What a piece of code is made from: the names of fields in comments, the names and types of hidden
fields, named branches, the fields whose members are bound, and expressions with their scopes. -/
inductive Ingredient where
  | label (name : String)
  | hidden (name : String) (type : Ty)
  | branch (b : Field)
  | members (fields : List Field)
  | expr (s : Scope) (e : Expr)

def headerNames : List String :=
  ["major_opcode", "minor_opcode", "response_type", "sequence", "extension", "length"]

def hiddenIngredients (s : Scope) (name : String) : Ty → List Ingredient
  | .pad .. => []
  | .exprField base value =>
    (if headerNames.contains (safeName name) then [] else [.expr s value]) ++
      [.hidden name (.exprField base value)]
  | type => [.hidden name type]

def lengthIngredients (s : Scope) (count : Int) : Option Expr → List Ingredient
  | some e => if count = 0 then [.expr s e] else []
  | none => []

def branchIngredient (b : Field) (fields : List Field) : List Ingredient :=
  if b.name = "" then [] else [.branch b, .members fields]

mutual

def ingredientsIn (s : Scope) : List Field → List Ingredient
  | [] => []
  | ⟨name, type, wire, visible⟩ :: rest =>
    (if wire then
      .label name :: if visible then ingredientsOf s type else hiddenIngredients s name type
    else []) ++ ingredientsIn s rest
termination_by structural fields => fields

def ingredientsOf (s : Scope) : Ty → List Ingredient
  | .container _ _ fields => .members fields :: ingredientsIn (boundBy fields ++ s) fields
  | .list member count length => lengthIngredients s count length ++ elementIngredients s member
  | .switch _ selector cases =>
    .members (branchMembers cases) :: .expr (boundBy (branchMembers cases) ++ s) selector ::
      branchIngredients (boundBy (branchMembers cases) ++ s) cases
  | _ => []

def elementIngredients (s : Scope) : Ty → List Ingredient
  | .container _ _ fields => .members fields :: ingredientsIn (boundBy fields ++ s) fields
  | _ => []

def branchIngredients (s : Scope) : List Field → List Ingredient
  | [] => []
  | ⟨name, .case n byValue byMask selectors fields, wire, visible⟩ :: rest =>
    selectors.map (.expr s) ++
      branchIngredient ⟨name, .case n byValue byMask selectors fields, wire, visible⟩ fields ++
      ingredientsIn (branchScope name fields s) fields ++ branchIngredients s rest
  | _ :: rest => branchIngredients s rest

end

inductive Tested (dir : Direction) (ns : List String) (test selector : String) :
    Scope → Nat → List Expr → List Stmt → List String → Nat → Prop where
  | nil {s : Scope} {n : Nat} : Tested dir ns test selector s n [] [] [] n
  | cons {s : Scope} {n k m : Nat} {e : Expr} {es : List Expr} {before between : List Stmt}
      {x : String} {conditions : List String} (h : Expressed dir ns s n e before x k)
      (hrest : Tested dir ns test selector s k es between conditions m) :
      Tested dir ns test selector s n (e :: es) (before ++ between)
        ((test ++ "(" ++ selector ++ ", " ++ x ++ ")") :: conditions) m

def Stmt.isNote : Stmt → Bool
  | .blank | .majorOpcodeNote | .lengthNote | .align _ | .pad _ => true
  | _ => false

def AtHand (locals : List String) (s : Scope) (name : String) : Prop :=
  name ∈ locals ∨ ∃ f ∈ s, safeName f.name = name

def sizeStmt (dir : Direction) (list size : String) : Stmt :=
  match dir with
  | .encode => .checkSize list size
  | .decode => .resize list size

/-- How a block starts: with nothing, with the members of an object at hand, or with those of a named
branch. The scope and the next number are those for the rest of the block. -/
inductive Entered (locals : List String) :
    Scope → Nat → List Ingredient → List Stmt → Scope → Nat → Prop where
  | plain {s : Scope} {n : Nat} : Entered locals s n [] [] s n
  | members {s : Scope} {n : Nat} {object : String} {fields : List Field}
      (hobject : AtHand locals s object) :
      Entered locals s n [.members fields] (bindFields object fields ⟨s, n⟩).1 (boundBy fields ++ s)
        (n + asideCount object fields)
  | branch {s : Scope} {n : Nat} {b : Field} {fields : List Field}
      (hb : Scope.binds b = true → b ∈ s) :
      Entered locals s n [.branch b, .members fields] (bindFields (safeName b.name) fields ⟨s, n⟩).1
        (boundBy fields ++ s) (n + asideCount (safeName b.name) fields)

/-- In the scope `s`, with the locals of the loops and switches around it and `n` as the next number, the
ingredients become the statements, and `m` is the next number then. -/
inductive Written (dir : Direction) (ns : List String) :
    List String → Scope → Nat → List Ingredient → List Stmt → Nat → Prop where
  | nil {locals : List String} {s : Scope} {n : Nat} : Written dir ns locals s n [] [] n
  | append {locals : List String} {s : Scope} {n k m : Nat} {is js : List Ingredient}
      {xs ys : List Stmt} (hx : Written dir ns locals s n is xs k)
      (hy : Written dir ns locals s k js ys m) :
      Written dir ns locals s n (is ++ js) (xs ++ ys) m
  | note {locals : List String} {s : Scope} {n : Nat} {x : Stmt} (h : x.isNote = true) :
      Written dir ns locals s n [] [x] n
  | comment {locals : List String} {s : Scope} {n : Nat} (name : String) :
      Written dir ns locals s n [.label name] [.fieldComment (safeName name)] n
  | copy {locals : List String} {s : Scope} {n : Nat} {name : String} (h : AtHand locals s name) :
      Written dir ns locals s n [] [.copy dir name] n
  | reserve {locals : List String} {s : Scope} {n : Nat} (name : String) (type : Ty) :
      Written dir ns locals s n [.hidden name type] [.reserve (qualify type ns)] n
  | opcode {locals : List String} {s : Scope} {n : Nat} (name : String) (type : Ty) (number : Int) :
      Written dir ns locals s n [.hidden name type]
        [.define (qualify type ns) (safeName name) (toString number), .copy dir (safeName name)] n
  | read {locals : List String} {s : Scope} {n : Nat} (name : String) (type : Ty) :
      Written dir ns locals s n [.hidden name type]
        [.declare (qualify type ns) (safeName name), .copy dir (safeName name)] n
  | computed {locals : List String} {s : Scope} {n m : Nat} {name : String} {type : Ty} {e : Expr}
      {before : List Stmt} {x : String} (h : Expressed dir ns s n e before x m) :
      Written dir ns locals s n [.expr s e, .hidden name type]
        (before ++ [Stmt.define (qualify type ns) (safeName name) x, .copy dir (safeName name)]) m
  | size {locals : List String} {s : Scope} {n m : Nat} {name : String} {e : Expr}
      {before : List Stmt} {x : String} (hname : AtHand locals s name)
      (h : Expressed dir ns s n e before x m) :
      Written dir ns locals s n [.expr s e] (before ++ [sizeStmt dir name x]) m
  | loop {locals : List String} {s t : Scope} {n k m : Nat} {name : String} {is js : List Ingredient}
      {bindings body : List Stmt} (hname : AtHand locals s name)
      (henter : Entered ((name ++ "_elem") :: locals) s n is bindings t k)
      (h : Written dir ns ((name ++ "_elem") :: locals) t k js body m) :
      Written dir ns locals s n (is ++ js)
        ([Stmt.openLoop (name ++ "_elem") name] ++ bindings ++ body ++ [Stmt.closeBlock]) m
  | block {locals : List String} {s t : Scope} {n k m : Nat} {is js : List Ingredient}
      {bindings body : List Stmt} (henter : Entered locals s n is bindings t k)
      (h : Written dir ns locals t k js body m) :
      Written dir ns locals s n (is ++ js) ([Stmt.openBlock] ++ bindings ++ body ++ [Stmt.closeBlock]) m
  | selected {locals : List String} {s : Scope} {n k m : Nat} {name : String} {e : Expr}
      {before : List Stmt} {x : String} {is : List Ingredient} {rest : List Stmt}
      (hname : AtHand locals s name) (h : Expressed dir ns s n e before x k)
      (hrest : Written dir ns ((name ++ "_expr") :: locals) s k is rest m) :
      Written dir ns locals s n (.expr s e :: is)
        (before ++ [Stmt.bindSelector (name ++ "_expr") x] ++ rest) m
  | branch {locals : List String} {s t : Scope} {n k j m : Nat} {test selector : String}
      {es : List Expr} {before : List Stmt} {conditions : List String} {is js : List Ingredient}
      {bindings body : List Stmt} (htest : test = "CaseEq" ∨ test = "CaseAnd")
      (hselector : selector ∈ locals) (h : Tested dir ns test selector s n es before conditions k)
      (henter : Entered locals s k is bindings t j) (hbody : Written dir ns locals t j js body m) :
      Written dir ns locals s n (es.map (.expr s) ++ is ++ js)
        (before ++ [Stmt.openBranch conditions] ++ bindings ++ body ++ [Stmt.closeBlock]) m

def Interior (dir : Direction) (ns : List String) (locals : List String) (s : Scope) (n : Nat)
    (is : List Ingredient) (out : List Stmt) (m : Nat) : Prop :=
  ∃ first rest bindings body t k, Entered locals s n first bindings t k ∧
    Written dir ns locals t k rest body m ∧ is = first ++ rest ∧ out = bindings ++ body

section
variable {dir : Direction} {ns locals : List String} {s : Scope} {n k m : Nat} {is : List Ingredient}
  {out : List Stmt}

theorem Written.interior (h : Written dir ns locals s n is out m) :
    Interior dir ns locals s n is out m := ⟨[], is, [], out, s, n, .plain, h, rfl, rfl⟩

theorem Interior.block (h : Interior dir ns locals s n is out m) :
    Written dir ns locals s n is ([Stmt.openBlock] ++ out ++ [Stmt.closeBlock]) m := by
  obtain ⟨first, rest, bindings, body, t, k, henter, hbody, rfl, rfl⟩ := h
  rw [← List.append_assoc]
  exact .block henter hbody

theorem Interior.loop {name : String} (hname : AtHand locals s name)
    (h : Interior dir ns ((name ++ "_elem") :: locals) s n is out m) :
    Written dir ns locals s n is ([Stmt.openLoop (name ++ "_elem") name] ++ out ++ [Stmt.closeBlock]) m := by
  obtain ⟨first, rest, bindings, body, t, k, henter, hbody, rfl, rfl⟩ := h
  rw [← List.append_assoc]
  exact .loop hname henter hbody

theorem Interior.branch {test selector : String} {es : List Expr} {before : List Stmt}
    {conditions : List String} (htest : test = "CaseEq" ∨ test = "CaseAnd")
    (hselector : selector ∈ locals) (htested : Tested dir ns test selector s n es before conditions k)
    (h : Interior dir ns locals s k is out m) :
    Written dir ns locals s n (es.map (.expr s) ++ is)
      (before ++ [Stmt.openBranch conditions] ++ out ++ [Stmt.closeBlock]) m := by
  obtain ⟨first, rest, bindings, body, t, j, henter, hbody, rfl, rfl⟩ := h
  rw [← List.append_assoc, ← List.append_assoc]
  exact .branch htest hselector htested henter hbody

end

end CodecGen.Emit
