import CodecGen.Proofs.Header
import CodecGen.Proofs.WireOrder
set_option autoImplicit false
/-!
Accounts of what code takes apart. The accesses among the statements of an encoder or a decoder are
those to the members of blocks, one block after another.
-/
namespace CodecGen.Emit
open Schema

inductive Part where
  | message (shape : Shape) (name : Name) (fields : List Field)
  | switch (cases : List Field)
  | branch (fields : List Field)

def Part.bound : Part → List Field
  | message _ _ fields | branch fields => fields
  | switch cases => branchMembers cases

structure Block where
  object : String
  part : Part

def Block.members (b : Block) : List String := safeNames (b.part.bound.filter Scope.binds)

def Stmt.access? : Stmt → Option (String × String)
  | .bindMember name object | .bindMemberAside _ name object => some (object, name)
  | _ => none

def accesses (stmts : List Stmt) : List (String × String) := stmts.filterMap Stmt.access?

def Block.accesses (b : Block) : List (String × String) := b.members.map fun name => (b.object, name)

def branchBlock (name : String) (fields : List Field) : List Block :=
  if name == "" then [] else [⟨safeName name, .branch fields⟩]

mutual

/-- The blocks in which a message is taken apart beside its own, in order. -/
def visitFields : List Field → List Block
  | [] => []
  | ⟨name, type, wire, visible⟩ :: rest =>
    (if wire && visible then visitValue (safeName name) type else []) ++ visitFields rest

def visitValue (name : String) : Ty → List Block
  | .container shape n fields => ⟨name, .message shape n fields⟩ :: visitFields fields
  | .list member _ _ => visitElement (name ++ "_elem") member
  | .switch _ _ cases => ⟨name, .switch cases⟩ :: visitBranches cases
  | _ => []

def visitElement (name : String) : Ty → List Block
  | .container shape n fields => ⟨name, .message shape n fields⟩ :: visitFields fields
  | _ => []

def visitBranches : List Field → List Block
  | [] => []
  | ⟨name, .case _ _ _ _ fields, _, _⟩ :: rest =>
    branchBlock name fields ++ visitFields fields ++ visitBranches rest
  | _ :: rest => visitBranches rest

end

@[simp] theorem accesses_nil : accesses [] = [] := rfl

@[simp] theorem accesses_append (xs ys : List Stmt) :
    accesses (xs ++ ys) = accesses xs ++ accesses ys := List.filterMap_append

@[simp] theorem accesses_cons (x : Stmt) (xs : List Stmt) :
    accesses (x :: xs) = x.access?.toList ++ accesses xs := by
  cases h : x.access? <;> simp [accesses, h]

theorem accesses_memberStmts (object : String) (s : Scope) (n : Nat) (f : Field) :
    accesses (memberStmts object s n f) = [(object, safeName f.name)] := by
  have hlength : accesses (lengthStmts (f :: s) f) = [] := by
    unfold lengthStmts
    split <;> simp [Stmt.access?]
  unfold memberStmts
  split <;> simp [hlength, Stmt.access?]

theorem accesses_bindMembers (object : String) (fields : List Field) (frame : Frame) :
    accesses (bindMembers object fields frame).1 =
      (safeNames (fields.filter Scope.binds)).map fun name => (object, name) := by
  induction fields generalizing frame with
  | nil => rfl
  | cons f rest ih =>
    by_cases hb : Scope.binds f = true
    · rw [bindMembers_cons_of_binds object rest frame.scope frame.nextId hb, accesses_append,
        accesses_memberStmts, ih, List.filter_cons_of_pos hb]
      rfl
    · rw [bindMembers_cons_of_not_binds object rest frame hb, ih, List.filter_cons_of_neg hb]

theorem accesses_bindFields (b : Block) (frame : Frame) :
    accesses (bindFields b.object b.part.bound frame).1 = b.accesses := by
  rw [bindFields_stmts b.object b.part.bound frame.scope frame.nextId, accesses_append,
    accesses_bindMembers]
  split <;> simp [Block.accesses, Block.members, Stmt.access?]

/-- A block of the whole, or a message of it that is met once more in a list that is summed up. -/
inductive Met (whole : List Block) : Block → Prop where
  | visited {b : Block} (h : b ∈ whole) : Met whole b
  | summed {object : String} {shape : Shape} {name : Name} {fields : List Field}
      (h : ⟨object, .message shape name fields⟩ ∈ whole) :
      Met whole ⟨listElementName, .message shape name fields⟩

/-- Statements access the members of some blocks, one block after another. Those to be visited are among
them, and all are met in the whole. -/
def Accounts (whole visits : List Block) (out : List Stmt) : Prop :=
  ∃ blocks, accesses out = blocks.flatMap Block.accesses ∧ visits.Sublist blocks ∧
    ∀ b ∈ blocks, Met whole b

section
variable {whole visits more : List Block} {out rest : List Stmt}

theorem Accounts.of_no_access (h : accesses out = []) : Accounts whole [] out :=
  ⟨[], h, .slnil, by simp⟩

theorem Accounts.append (h : Accounts whole visits out) (hrest : Accounts whole more rest) :
    Accounts whole (visits ++ more) (out ++ rest) := by
  obtain ⟨blocks, haccess, hsub, hmet⟩ := h
  obtain ⟨others, hothers, hmore, hmetOthers⟩ := hrest
  refine ⟨blocks ++ others, ?_, hsub.append hmore, List.forall_mem_append.mpr ⟨hmet, hmetOthers⟩⟩
  rw [accesses_append, haccess, hothers, List.flatMap_append]

theorem Accounts.of_accesses_eq (h : Accounts whole visits out) (heq : accesses rest = accesses out) :
    Accounts whole visits rest := by
  obtain ⟨blocks, haccess, hblocks⟩ := h
  exact ⟨blocks, heq.trans haccess, hblocks⟩

theorem Accounts.bindings {b : Block} (hb : Met whole b) (frame : Frame) :
    Accounts whole [b] (bindFields b.object b.part.bound frame).1 :=
  ⟨[b], by simp [accesses_bindFields], .refl _, by simpa using hb⟩

theorem Accounts.forget (h : Accounts whole visits out) : Accounts whole [] out := by
  obtain ⟨blocks, haccess, -, hmet⟩ := h
  exact ⟨blocks, haccess, List.nil_sublist _, hmet⟩

end

def Known (whole : List Block) (s : Scope) : Prop :=
  ∀ f ∈ s, ∀ shape name fields count length,
    f.type = .list (.container shape name fields) count length →
      ∃ object, ⟨object, .message shape name fields⟩ ∈ whole

def Closed (whole : List Block) : Prop := ∀ v ∈ whole, Known whole (boundBy v.part.bound)

theorem Known.append {whole : List Block} {s t : Scope} (hs : Known whole s) (ht : Known whole t) :
    Known whole (s ++ t) := fun f hf => (List.mem_append.mp hf).elim (hs f) (ht f)

theorem holds_of_ok {α : Type} {Q : α → Prop} {x : Except Fault α} (h : ∀ a, x = .ok a → Q a) :
    Holds Q AnyFault x := by
  cases x with
  | ok a => exact h a rfl
  | error fault => trivial

section
variable {whole : List Block}

def Apart (whole : List Block) {α : Type} (p : List Stmt × α) : Prop := Accounts whole [] p.1

theorem known_elements (hclosed : Closed whole) {s : Scope} (hs : Known whole s) {f : Field} (hf : f ∈ s)
    {member : Ty} {count : Int} {length : Option Expr} (htype : f.type = .list member count length) :
    Known whole (boundBy (elementMembers member) ++ s) ∧
      ∀ frame, Accounts whole [] (bindFields listElementName (elementMembers member) frame).1 := by
  cases member with
  | container shape name fields =>
    obtain ⟨object, hmem⟩ := hs f hf shape name fields count length htype
    exact ⟨(hclosed _ hmem).append hs, fun frame => (Accounts.bindings (.summed hmem) frame).forget⟩
  | _ => exact ⟨hs, fun _ => .of_no_access rfl⟩

theorem sumOver_apart (hclosed : Closed whole) {s : Scope} (hs : Known whole s) {site : Site}
    {list : String} {summand : Emission (List Stmt × String)}
    (h : ∀ s, Known whole s → Ensures s (Apart whole) AnyFault summand) :
    Ensures s (Apart whole) AnyFault (sumOver site list summand) := by
  unfold sumOver
  refine .get fun n => ?_
  split
  · exact .fail trivial
  · next f hfind =>
    split
    · next member count length htype =>
      obtain ⟨hknown, hbindings⟩ := known_elements hclosed hs (List.mem_of_find?_eq_some hfind) htype
      refine .bind (.lift (holds_of_ok fun _ => elementFields_eq)) ?_
      rintro _ rfl
      refine .bind .freshId fun id _ => ?_
      refine .bind (.withFields (h _ hknown)) ?_
      rintro ⟨_, before, value⟩ ⟨⟨k, rfl⟩, hbefore⟩
      refine .pure ((hbindings ⟨s, k⟩).append hbefore |>.of_accesses_eq ?_)
      simp [Stmt.access?]
    · exact .fail trivial

theorem compileExpr_apart (hclosed : Closed whole) (site : Site) (e : Expr) {s : Scope}
    (hs : Known whole s) : Ensures s (Apart whole) AnyFault (compileExpr site e) := by
  fun_induction compileExpr site e generalizing s with
  | case1 => exact .fail trivial
  | case2 op lhs rhs ihl ihr =>
    exact .bind (ihl hs) fun l hl => .bind (ihr hs) fun r hr => .pure (hl.append hr)
  | case3 operand ih | case4 operand ih => exact .bind (ih hs) fun p hp => .pure hp
  | case5 name =>
    refine .get fun n => ?_
    split
    · exact .fail trivial
    · exact .pure (.of_no_access rfl)
  | case6 | case7 | case8 | case9 => exact .pure (.of_no_access rfl)
  | case10 list => exact sumOver_apart hclosed hs fun s _ => .pure (.of_no_access rfl)
  | case11 list summand _ ih => exact sumOver_apart hclosed hs fun s hs => ih hs

theorem compileConditions_apart (hclosed : Closed whole) (site : Site) (test selector : String)
    (es : List Expr) {s : Scope} (hs : Known whole s) :
    Ensures s (Apart whole) AnyFault (compileConditions site test selector es) := by
  induction es with
  | nil => exact .pure (.of_no_access rfl)
  | cons e rest ih =>
    refine .bind (compileExpr_apart hclosed site e hs) fun one hone => ?_
    exact .bind ih fun more hmore => .pure (hone.append hmore)

theorem copyPad_apart (site : Site) (bytes align : Int) (s : Scope) :
    Ensures s (Accounts whole []) AnyFault (copyPad site bytes align) := by
  unfold copyPad
  split
  · exact .pure (.of_no_access rfl)
  · split
    · exact .fail trivial
    · exact .pure (.of_no_access rfl)

theorem copyOpcode_apart (site : Site) (head? : Option RequestHead) (type name : String) (s : Scope) :
    Ensures s (Accounts whole []) AnyFault (copyOpcode site head? type name) := by
  unfold copyOpcode
  split
  · exact .fail trivial
  · exact .fail trivial
  · split <;> exact .pure (.of_no_access rfl)

theorem copyHidden_apart (hclosed : Closed whole) (site : Site) (head? : Option RequestHead)
    (name : String) (type : Ty) {s : Scope} (hs : Known whole s) :
    Ensures s (Accounts whole []) AnyFault (copyHidden site head? name type) := by
  unfold copyHidden
  split
  · exact copyOpcode_apart site head? _ name s
  split
  · split
    · exact .fail trivial
    · exact .pure (.of_no_access rfl)
  split
  · split <;> exact .pure (.of_no_access rfl)
  split
  · refine .bind (compileExpr_apart hclosed site _ hs) fun p hp => .pure (hp.of_accesses_eq ?_)
    simp [Stmt.access?]
  · exact .fail trivial

theorem copyLength_apart (hclosed : Closed whole) (site : Site) (name : String) (count : Int)
    (length : Option Expr) {s : Scope} (hs : Known whole s) :
    Ensures s (fun out => Accounts whole [] out ∧ sized count length = true) AnyFault
      (copyLength site name count length) := by
  unfold copyLength
  refine .bind (.lift (holds_of_ok fun _ h => ((checkList_yields site count length).eq_ok h).1)) ?_
  intro _ hsized
  split
  · split
    · refine .bind (compileExpr_apart hclosed site _ hs) fun p hp => .pure ⟨?_, hsized⟩
      refine hp.of_accesses_eq ?_
      cases site.dir <;> simp [Stmt.access?]
    · exact .pure ⟨.of_no_access rfl, hsized⟩
  · exact .pure ⟨.of_no_access rfl, hsized⟩

end

end CodecGen.Emit
