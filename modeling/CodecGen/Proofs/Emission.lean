import CodecGen.Emit.Artifact
set_option autoImplicit false
/-!
Reasoning about emission. A piece of emission ends in the scope it was started in, so that its runs
can be described by what they return and the number of the next temporary. `Ensures` describes the
runs of one piece, `Alike` the runs of two pieces side by side; both are closed under the ways in
which emission is put together.
-/
namespace CodecGen.Emit
open Schema

section
variable {α β γ δ : Type}

theorem run_bind_ok {x : Emission α} {a : α} {frame next : Frame} (f : α → Emission β)
    (h : x.run frame = (.ok a, next)) : (x >>= f).run frame = (f a).run next := by
  change ExceptT.bindCont f (x.run frame).1 (x.run frame).2 = _
  rw [h]
  rfl

theorem run_bind_error {x : Emission α} {fault : Fault} {frame next : Frame} (f : α → Emission β)
    (h : x.run frame = (.error fault, next)) : (x >>= f).run frame = (.error fault, next) := by
  change ExceptT.bindCont f (x.run frame).1 (x.run frame).2 = _
  rw [h]
  rfl

theorem eq_ok_of_isOk {ε : Type} {x : Except ε α} (h : x.isOk = true) : ∃ a, x = .ok a := by
  cases x with
  | ok a => exact ⟨a, rfl⟩
  | error fault => exact absurd h (by simp [Except.isOk, Except.toBool])

theorem run_of_isOk {x : Emission α} {frame : Frame} (h : (x.run frame).1.isOk = true) :
    ∃ a next, x.run frame = (.ok a, next) := by
  obtain ⟨a, ha⟩ := eq_ok_of_isOk h
  exact ⟨a, (x.run frame).2, Prod.ext ha rfl⟩

def boundBy (fields : List Field) : Scope := (fields.filter Scope.binds).reverse

theorem mem_boundBy {f : Field} {fields : List Field} :
    f ∈ boundBy fields ↔ f ∈ fields ∧ Scope.binds f = true := by
  simp [boundBy]

theorem boundBy_cons_of_binds {f : Field} (rest : List Field) (h : Scope.binds f = true) :
    boundBy (f :: rest) = boundBy rest ++ [f] := by
  simp [boundBy, h]

theorem boundBy_cons_of_not_binds {f : Field} (rest : List Field) (h : ¬ Scope.binds f = true) :
    boundBy (f :: rest) = boundBy rest := by
  simp [boundBy, h]

def asideCount (object : String) (fields : List Field) : Nat :=
  fields.countP fun f => Scope.binds f && safeName f.name == object

theorem asideCount_cons_of_binds (object : String) {f : Field} (rest : List Field)
    (h : Scope.binds f = true) :
    asideCount object (f :: rest) = (if safeName f.name = object then 1 else 0) + asideCount object rest := by
  by_cases ho : safeName f.name = object <;> simp [asideCount, h, ho]
  omega

theorem asideCount_cons_of_not_binds (object : String) {f : Field} (rest : List Field)
    (h : ¬ Scope.binds f = true) : asideCount object (f :: rest) = asideCount object rest := by
  simp [asideCount, h]

theorem bindMembers_frame (object : String) (fields : List Field) (s : Scope) (n : Nat) :
    (bindMembers object fields ⟨s, n⟩).2 =
      ((boundBy fields).length, ⟨boundBy fields ++ s, n + asideCount object fields⟩) := by
  induction fields generalizing s n with
  | nil => rfl
  | cons f rest ih =>
    by_cases hb : Scope.binds f = true
    · by_cases ho : safeName f.name = object <;>
        simp [bindMembers, hb, ho, ih, boundBy_cons_of_binds, asideCount_cons_of_binds, Nat.add_assoc]
    · simp [bindMembers, hb, ih, boundBy_cons_of_not_binds, asideCount_cons_of_not_binds]

theorem bindFields_frame (object : String) (fields : List Field) (s : Scope) (n : Nat) :
    (bindFields object fields ⟨s, n⟩).2 =
      ((boundBy fields).length, ⟨boundBy fields ++ s, n + asideCount object fields⟩) :=
  bindMembers_frame object fields s n

/-- The scope inside a branch: only a named one binds its members. -/
def branchScope (name : String) (fields : List Field) (s : Scope) : Scope :=
  if name = "" then s else boundBy fields ++ s

theorem pop_bound (fields : List Field) (s : Scope) :
    Scope.pop? (boundBy fields ++ s) (boundBy fields).length = some s := by
  unfold Scope.pop?
  rw [if_neg, Int.toNat_natCast, List.drop_left]
  rw [Bool.or_eq_true, decide_eq_true_eq, decide_eq_true_eq, List.length_append]
  omega

/-- What is bound is taken out of scope again, however the body ends. -/
theorem run_withFields (object : String) (fields : List Field) (body : Emission α) (s : Scope)
    (n m : Nat) (result : Except Fault α)
    (h : body.run ⟨boundBy fields ++ s, n + asideCount object fields⟩ =
      (result, ⟨boundBy fields ++ s, m⟩)) :
    (withFields object fields body).run ⟨s, n⟩ =
      (result.map fun a => ((bindFields object fields ⟨s, n⟩).1, a), ⟨s, m⟩) := by
  have hf := bindFields_frame object fields s n
  rcases hb : bindFields object fields ⟨s, n⟩ with ⟨stmts, count, inner⟩
  rw [hb] at hf
  obtain ⟨rfl, rfl⟩ := Prod.mk.inj hf
  change body _ = _ at h
  -- Both outcomes of the body leave the scope that `pop_bound` is about.
  simp only [withFields, ExceptT.run, ExceptT.mk, hb]
  rw [h]
  dsimp only
  rw [pop_bound]

/-- The statement that declares the size of a list, unless a field of that name is in scope. -/
def lengthStmts (s : Scope) (f : Field) : List Stmt :=
  if (Scope.lengthBinding s f).2 then [.bindLength (Scope.lengthBinding s f).1 (safeName f.name)] else []

def memberStmts (object : String) (s : Scope) (n : Nat) (f : Field) : List Stmt :=
  (if safeName f.name = object then
    [.bindMemberAside n (safeName f.name) object, .bindFromAside (safeName f.name) n]
  else [.bindMember (safeName f.name) object]) ++ lengthStmts (f :: s) f

theorem bindMembers_cons_of_binds (object : String) {f : Field} (rest : List Field) (s : Scope)
    (n : Nat) (h : Scope.binds f = true) :
    (bindMembers object (f :: rest) ⟨s, n⟩).1 =
      memberStmts object s n f ++
        (bindMembers object rest ⟨f :: s, n + if safeName f.name = object then 1 else 0⟩).1 := by
  rcases hl : Scope.lengthBinding (f :: s) f with ⟨length, _ | _⟩ <;>
    by_cases ho : safeName f.name = object <;>
    simp [bindMembers, memberStmts, lengthStmts, h, hl, ho]

theorem bindMembers_cons_of_not_binds (object : String) {f : Field} (rest : List Field)
    (frame : Frame) (h : ¬ Scope.binds f = true) :
    bindMembers object (f :: rest) frame = bindMembers object rest frame := by
  simp [bindMembers, h]

def Stmt.isBinding : Stmt → Bool
  | .blank | .bindMember .. | .bindMemberAside .. | .bindFromAside .. | .bindLength .. => true
  | _ => false

theorem isBinding_of_mem_memberStmts {object : String} {s : Scope} {n : Nat} {f : Field} {x : Stmt}
    (h : x ∈ memberStmts object s n f) : x.isBinding = true := by
  unfold memberStmts lengthStmts at h
  grind [Stmt.isBinding]

theorem isBinding_of_mem_bindMembers {object : String} {fields : List Field} {frame : Frame}
    {x : Stmt} (h : x ∈ (bindMembers object fields frame).1) : x.isBinding = true := by
  induction fields generalizing frame with
  | nil => simp [bindMembers] at h
  | cons f rest ih =>
    by_cases hb : Scope.binds f = true
    · rw [bindMembers_cons_of_binds object rest frame.scope frame.nextId hb, List.mem_append] at h
      rcases h with h | h
      · exact isBinding_of_mem_memberStmts h
      · exact ih h
    · rw [bindMembers_cons_of_not_binds object rest frame hb] at h
      exact ih h

theorem bindFields_stmts (object : String) (fields : List Field) (s : Scope) (n : Nat) :
    (bindFields object fields ⟨s, n⟩).1 =
      (bindMembers object fields ⟨s, n⟩).1 ++ if boundBy fields = [] then [] else [.blank] := by
  have hcount := congrArg Prod.fst (bindMembers_frame object fields s n)
  have h : (bindFields object fields ⟨s, n⟩).1 =
      if (bindMembers object fields ⟨s, n⟩).2.1 == 0 then (bindMembers object fields ⟨s, n⟩).1
      else (bindMembers object fields ⟨s, n⟩).1 ++ [.blank] := rfl
  rw [h, hcount]
  by_cases hn : boundBy fields = [] <;> simp [hn]

theorem isBinding_of_mem_bindFields {object : String} {fields : List Field} {frame : Frame}
    {x : Stmt} (h : x ∈ (bindFields object fields frame).1) : x.isBinding = true := by
  rw [bindFields_stmts object fields frame.scope frame.nextId, List.mem_append] at h
  rcases h with h | h
  · exact isBinding_of_mem_bindMembers h
  · grind [Stmt.isBinding]

def Holds (Q : α → Prop) (E : Fault → Prop) : Except Fault α → Prop
  | .ok a => Q a
  | .error fault => E fault

theorem holds_bind {Q : α → Prop} {P : β → Prop} {E : Fault → Prop} {x : Except Fault α}
    {f : α → Except Fault β} (hx : Holds Q E x) (hf : ∀ a, Q a → Holds P E (f a)) :
    Holds P E (x >>= f) := by
  cases x with
  | ok a => exact hf a hx
  | error fault => exact hx

theorem Holds.weaken {Q : α → Prop} {E E' : Fault → Prop} {x : Except Fault α} (h : Holds Q E x)
    (hE : ∀ fault, E fault → E' fault) : Holds Q E' x := by
  cases x with
  | ok a => exact h
  | error fault => exact hE fault h

abbrev AnyFault : Fault → Prop := fun _ => True

/-- Every run from the scope `s` ends in that scope, with a value that satisfies `Q` or a fault
that satisfies `E`. -/
def Ensures (s : Scope) (Q : α → Prop) (E : Fault → Prop) (x : Emission α) : Prop :=
  ∀ n, ∃ result m, x.run ⟨s, n⟩ = (result, ⟨s, m⟩) ∧ Holds Q E result

namespace Ensures
variable {s : Scope} {Q : α → Prop} {P : β → Prop} {E : Fault → Prop}

theorem pure {a : α} (h : Q a) : Ensures s Q E (pure a : Emission α) :=
  fun n => ⟨.ok a, n, rfl, h⟩

theorem fail {site : Site} {cause : Cause} (h : E ⟨cause, site.path⟩) :
    Ensures s Q E (site.fail cause : Emission α) :=
  fun n => ⟨.error _, n, rfl, h⟩

theorem lift {x : Except Fault α} (h : Holds Q E x) : Ensures s Q E (liftM x : Emission α) :=
  fun n => ⟨x, n, rfl, h⟩

theorem mono {x : Emission α} {Q' : α → Prop} {E' : Fault → Prop} (h : Ensures s Q E x)
    (hQ : ∀ a, Q a → Q' a) (hE : ∀ fault, E fault → E' fault) : Ensures s Q' E' x := by
  intro n
  obtain ⟨result, m, hrun, hres⟩ := h n
  refine ⟨result, m, hrun, ?_⟩
  cases result with
  | ok a => exact hQ a hres
  | error fault => exact hE fault hres

theorem weaken {x : Emission α} {E' : Fault → Prop} (h : Ensures s Q E x)
    (hE : ∀ fault, E fault → E' fault) : Ensures s Q E' x :=
  h.mono (fun _ hvalue => hvalue) hE

theorem bind {x : Emission α} {f : α → Emission β} (hx : Ensures s Q E x)
    (hf : ∀ a, Q a → Ensures s P E (f a)) : Ensures s P E (x >>= f) := by
  intro n
  obtain ⟨result, m, hrun, hres⟩ := hx n
  cases result with
  | ok a =>
    obtain ⟨final, k, hfrun, hfinal⟩ := hf a hres m
    exact ⟨final, k, (run_bind_ok f hrun).trans hfrun, hfinal⟩
  | error fault => exact ⟨.error fault, m, run_bind_error f hrun, hres⟩

theorem map {x : Emission α} {f : α → β} (hx : Ensures s Q E x) (hf : ∀ a, Q a → P (f a)) :
    Ensures s P E (f <$> x) := by
  rw [← bind_pure_comp]
  exact hx.bind fun a ha => .pure (hf a ha)

theorem get {f : Frame → Emission α} (h : ∀ n, Ensures s Q E (f ⟨s, n⟩)) :
    Ensures s Q E (get >>= f) :=
  fun n => h n n

theorem freshId : Ensures s (fun _ => True) E freshId :=
  fun n => ⟨.ok n, n + 1, rfl, trivial⟩

theorem freshScope : Ensures [] (fun _ => True) E freshScope :=
  fun n => ⟨.ok (), n, rfl, trivial⟩

theorem withFields {object : String} {fields : List Field} {body : Emission α}
    (h : Ensures (boundBy fields ++ s) Q E body) :
    Ensures s (fun p => (∃ n, p.1 = (bindFields object fields ⟨s, n⟩).1) ∧ Q p.2) E
      (withFields object fields body) := by
  intro n
  obtain ⟨result, m, hrun, hres⟩ := h (n + asideCount object fields)
  refine ⟨_, m, run_withFields object fields body s n m result hrun, ?_⟩
  cases result with
  | ok a => exact ⟨⟨n, rfl⟩, hres⟩
  | error fault => exact hres

theorem withBranch {name : String} {fields : List Field} {body : Emission α}
    (h : Ensures (branchScope name fields s) Q E body) :
    Ensures s (fun p => (∀ x ∈ p.1, x.isBinding = true) ∧ Q p.2) E (withBranch name fields body) := by
  unfold Emit.withBranch
  by_cases hn : name = ""
  · simp only [branchScope, hn, ↓reduceIte] at h
    simp only [hn, beq_self_eq_true, ↓reduceIte]
    exact h.map fun a ha => ⟨by simp, ha⟩
  · simp only [branchScope, hn, ↓reduceIte] at h
    simp only [beq_iff_eq, hn, ↓reduceIte]
    refine h.withFields.mono ?_ fun _ hfault => hfault
    rintro ⟨_, a⟩ ⟨⟨n, rfl⟩, ha⟩
    exact ⟨fun x hx => isBinding_of_mem_bindFields hx, ha⟩

end Ensures

inductive SameOutcome (R : α → β → Prop) : Except Fault α → Except Fault β → Prop where
  | ok {a : α} {b : β} (h : R a b) : SameOutcome R (.ok a) (.ok b)
  | error (fault : Fault) : SameOutcome R (.error fault) (.error fault)

theorem SameOutcome.self (x : Except Fault α) : SameOutcome (fun a b => a = b ∧ x = .ok a) x x := by
  cases x with
  | ok a => exact .ok ⟨rfl, rfl⟩
  | error fault => exact .error fault

/-- Run from the scopes `s` and `t` with the same next temporary, both pieces end in their scopes
with the same next temporary, and with related values or the same fault. -/
def Alike (s t : Scope) (R : α → β → Prop) (x : Emission α) (y : Emission β) : Prop :=
  ∀ n, ∃ result other m,
    x.run ⟨s, n⟩ = (result, ⟨s, m⟩) ∧ y.run ⟨t, n⟩ = (other, ⟨t, m⟩) ∧ SameOutcome R result other

namespace Alike
variable {s t : Scope} {R : α → β → Prop} {P : γ → δ → Prop}

theorem pure {a : α} {b : β} (h : R a b) :
    Alike s t R (pure a : Emission α) (pure b : Emission β) :=
  fun n => ⟨.ok a, .ok b, n, rfl, rfl, .ok h⟩

theorem fail {site other : Site} {cause : Cause} (h : site.path = other.path) :
    Alike s t R (site.fail cause : Emission α) (other.fail cause : Emission β) :=
  fun n => ⟨.error ⟨cause, site.path⟩, .error ⟨cause, other.path⟩, n, rfl, rfl, h ▸ .error _⟩

theorem lift {x : Except Fault α} {y : Except Fault β} (h : SameOutcome R x y) :
    Alike s t R (liftM x : Emission α) (liftM y : Emission β) :=
  fun n => ⟨x, y, n, rfl, rfl, h⟩

theorem bind {x : Emission α} {y : Emission β} {f : α → Emission γ} {g : β → Emission δ}
    (hx : Alike s t R x y) (hf : ∀ a b, R a b → Alike s t P (f a) (g b)) :
    Alike s t P (x >>= f) (y >>= g) := by
  intro n
  obtain ⟨result, other, m, hxrun, hyrun, hres⟩ := hx n
  cases hres with
  | @ok a b hab =>
    obtain ⟨final, final', k, hfrun, hgrun, hfinal⟩ := hf a b hab m
    exact ⟨final, final', k, (run_bind_ok f hxrun).trans hfrun,
      (run_bind_ok g hyrun).trans hgrun, hfinal⟩
  | error fault =>
    exact ⟨.error fault, .error fault, m, run_bind_error f hxrun, run_bind_error g hyrun,
      .error fault⟩

theorem map {x : Emission α} {y : Emission β} {f : α → γ} {g : β → δ} (hx : Alike s t R x y)
    (hf : ∀ a b, R a b → P (f a) (g b)) : Alike s t P (f <$> x) (g <$> y) := by
  rw [← bind_pure_comp, ← bind_pure_comp]
  exact hx.bind fun a b hab => .pure (hf a b hab)

theorem get {f : Frame → Emission α} {g : Frame → Emission β}
    (h : ∀ n, Alike s t R (f ⟨s, n⟩) (g ⟨t, n⟩)) : Alike s t R (get >>= f) (get >>= g) :=
  fun n => h n n

theorem freshId : Alike s t Eq freshId freshId :=
  fun n => ⟨.ok n, .ok n, n + 1, rfl, rfl, .ok rfl⟩

theorem withFields {object : String} {fields : List Field} {x : Emission α} {y : Emission β}
    {B : List Stmt → List Stmt → Prop}
    (hb : ∀ n, B (bindFields object fields ⟨s, n⟩).1 (bindFields object fields ⟨t, n⟩).1)
    (h : Alike (boundBy fields ++ s) (boundBy fields ++ t) R x y) :
    Alike s t (fun p q => B p.1 q.1 ∧ R p.2 q.2)
      (withFields object fields x) (withFields object fields y) := by
  intro n
  obtain ⟨result, other, m, hxrun, hyrun, hres⟩ := h (n + asideCount object fields)
  refine ⟨_, _, m, run_withFields object fields x s n m result hxrun,
    run_withFields object fields y t n m other hyrun, ?_⟩
  cases hres with
  | ok hab => exact .ok ⟨hb n, hab⟩
  | error fault => exact .error fault

theorem withBranch {name : String} {fields : List Field} {x : Emission α} {y : Emission β}
    {B : List Stmt → List Stmt → Prop} (hnil : B [] [])
    (hb : ∀ n, B (bindFields (safeName name) fields ⟨s, n⟩).1
      (bindFields (safeName name) fields ⟨t, n⟩).1)
    (h : Alike (branchScope name fields s) (branchScope name fields t) R x y) :
    Alike s t (fun p q => B p.1 q.1 ∧ R p.2 q.2)
      (withBranch name fields x) (withBranch name fields y) := by
  unfold Emit.withBranch
  by_cases hn : name = ""
  · simp only [branchScope, hn, ↓reduceIte] at h
    simp only [hn, beq_self_eq_true, ↓reduceIte]
    exact h.map fun a b hab => ⟨hnil, hab⟩
  · simp only [branchScope, hn, ↓reduceIte] at h
    simp only [beq_iff_eq, hn, ↓reduceIte]
    exact .withFields hb h

end Alike

def elementMembers : Ty → List Field
  | .container _ _ fields => fields
  | _ => []

def branchMembers : List Field → List Field
  | [] => []
  | branch :: rest =>
    if branch.name = "" then
      match branch.type with
      | .case _ _ _ _ fields => fields ++ branchMembers rest
      | _ => branchMembers rest
    else branch :: branchMembers rest

theorem resolve?_append (i s : Scope) (name : String) :
    Scope.resolve? (i ++ s) name = (i.resolve? name).or (s.resolve? name) := by
  simp [Scope.resolve?, List.find?_append]

theorem elementFields_eq {site : Site} {type : Ty} {fields : List Field}
    (h : elementFields site type = .ok fields) : fields = elementMembers type := by
  cases type with
  | mention kind name =>
    cases kind with
    | struct | request | event | error => cases h
    | _ => exact (Except.ok.inj h).symm
  | _ => exact (Except.ok.inj h).symm

theorem except_bind_ok {ε α β : Type} {x : Except ε α} {f : α → Except ε β} {b : β}
    (h : (x >>= f) = .ok b) : ∃ a, x = .ok a ∧ f a = .ok b := by
  cases x with
  | ok a => exact ⟨a, rfl, h⟩
  | error e => cases h

theorem switchMembers_eq {site : Site} {branches members : List Field}
    (h : switchMembers site branches = .ok members) : members = branchMembers branches := by
  induction branches generalizing members with
  | nil => exact (Except.ok.inj h).symm
  | cons branch rest ih =>
    obtain ⟨name, type, wire, visible⟩ := branch
    by_cases hn : name = ""
    · subst hn
      cases type with
      | case n byValue byMask selectors fields =>
        obtain ⟨_, -, h⟩ := except_bind_ok h
        obtain ⟨more, hmore, h⟩ := except_bind_ok h
        change members = fields ++ branchMembers rest
        rw [← ih hmore]
        exact (Except.ok.inj h).symm
      | _ => cases h
    · have hnamed : (name != "") = true := bne_iff_ne.mpr hn
      unfold switchMembers at h
      unfold branchMembers
      rw [if_pos hnamed] at h
      rw [if_neg hn]
      obtain ⟨more, hmore, h⟩ := except_bind_ok h
      rw [← ih hmore]
      exact (Except.ok.inj h).symm

def copyBody (site : Site) (head? : Option RequestHead) (name : String) (visible : Bool) :
    Ty → Emission (List Stmt)
  | .pad bytes align => copyPad site bytes align
  | type => if visible then copyValue site name type else copyHidden site head? name type

theorem copyField_eq (site : Site) (head? : Option RequestHead) (name : String) (type : Ty)
    (wire visible : Bool) :
    copyField site head? ⟨name, type, wire, visible⟩ =
      (.fieldComment (safeName name) :: ·) <$>
        copyBody (site.at name) head? (safeName name) visible type := by
  cases type <;> cases visible <;> simp [copyField, copyBody]

end

end CodecGen.Emit
