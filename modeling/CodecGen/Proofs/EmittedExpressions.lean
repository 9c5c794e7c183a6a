import CodecGen.Proofs.Emission
set_option autoImplicit false
/-!
The code for expressions, as a relation. `Emits` follows a run with the number of its next temporary,
and `Expressed` says what an expression can turn into: which statements, which text for its value, and
which numbers.
-/
namespace CodecGen.Emit
open Schema

section
variable {α β : Type}

/-- The run from the scope `s`, with `n` as the number of the next temporary, ends in that scope; where
it succeeds, its result and the next number then satisfy `R`. -/
def Emits (s : Scope) (n : Nat) (R : α → Nat → Prop) (x : Emission α) : Prop :=
  ∃ result m, x.run ⟨s, n⟩ = (result, ⟨s, m⟩) ∧ Holds (R · m) AnyFault result

namespace Emits
variable {s : Scope} {n : Nat} {R : α → Nat → Prop} {P : β → Nat → Prop}

theorem pure {a : α} (h : R a n) : Emits s n R (pure a : Emission α) := ⟨.ok a, n, rfl, h⟩

theorem fail {site : Site} {cause : Cause} : Emits s n R (site.fail cause : Emission α) :=
  ⟨.error _, n, rfl, trivial⟩

theorem lift {x : Except Fault α} (h : ∀ a, x = .ok a → R a n) :
    Emits s n R (liftM x : Emission α) := by
  refine ⟨x, n, rfl, ?_⟩
  cases x with
  | ok a => exact h a rfl
  | error fault => trivial

theorem bind {x : Emission α} {f : α → Emission β} (hx : Emits s n R x)
    (hf : ∀ a k, R a k → Emits s k P (f a)) : Emits s n P (x >>= f) := by
  obtain ⟨result, k, hrun, hres⟩ := hx
  cases result with
  | ok a =>
    obtain ⟨final, m, hfrun, hfinal⟩ := hf a k hres
    exact ⟨final, m, (run_bind_ok f hrun).trans hfrun, hfinal⟩
  | error fault => exact ⟨.error fault, k, run_bind_error f hrun, trivial⟩

theorem mono {x : Emission α} {Q : α → Nat → Prop} (hx : Emits s n R x)
    (h : ∀ a m, R a m → Q a m) : Emits s n Q x := by
  obtain ⟨result, m, hrun, hres⟩ := hx
  refine ⟨result, m, hrun, ?_⟩
  cases result with
  | ok a => exact h a m hres
  | error fault => trivial

theorem map {x : Emission α} {f : α → β} (hx : Emits s n R x) (hf : ∀ a m, R a m → P (f a) m) :
    Emits s n P (f <$> x) := by
  rw [← bind_pure_comp]
  exact hx.bind fun a k ha => .pure (hf a k ha)

theorem get {f : Frame → Emission α} (h : Emits s n R (f ⟨s, n⟩)) : Emits s n R (get >>= f) := h

theorem freshId {Q : Nat → Nat → Prop} (h : Q n (n + 1)) : Emits s n Q freshId :=
  ⟨.ok n, n + 1, rfl, h⟩

theorem freshScope {Q : Unit → Nat → Prop} (h : Q () n) : Emits [] n Q freshScope :=
  ⟨.ok (), n, rfl, h⟩

theorem withFields {object : String} {fields : List Field} {body : Emission α}
    (h : Emits (boundBy fields ++ s) (n + asideCount object fields) R body) :
    Emits s n (fun p m => p.1 = (bindFields object fields ⟨s, n⟩).1 ∧ R p.2 m)
      (withFields object fields body) := by
  obtain ⟨result, m, hrun, hres⟩ := h
  refine ⟨_, m, run_withFields object fields body s n m result hrun, ?_⟩
  cases result with
  | ok a => exact ⟨rfl, hres⟩
  | error fault => trivial

theorem result {x : Emission α} {a : α} {next : Frame} (h : Emits s n R x)
    (hrun : x.run ⟨s, n⟩ = (.ok a, next)) : ∃ m, next = ⟨s, m⟩ ∧ R a m := by
  obtain ⟨result, m, hresult, hres⟩ := h
  obtain ⟨rfl, rfl⟩ := Prod.mk.inj (hrun.symm.trans hresult)
  exact ⟨m, rfl, hres⟩

end Emits

theorem Ensures.of_emits {s : Scope} {Q : α → Prop} {x : Emission α}
    (h : ∀ n, Emits s n (fun a _ => Q a) x) : Ensures s Q AnyFault x := h

end

def summandOf : Expr → Expr
  | .absent => .listElement
  | e => e

/-- In the scope `s`, with `n` as the next number, the expression becomes the text after the statements,
and `m` is the next number then. -/
inductive Expressed (dir : Direction) (ns : List String) :
    Scope → Nat → Expr → List Stmt → String → Nat → Prop where
  | binary {s : Scope} {n k m : Nat} {op : String} {lhs rhs : Expr} {before between : List Stmt}
      {x y : String} (hl : Expressed dir ns s n lhs before x k)
      (hr : Expressed dir ns s k rhs between y m) :
      Expressed dir ns s n (.binary op lhs rhs) (before ++ between)
        ("(" ++ x ++ ") " ++ op ++ " (" ++ y ++ ")") m
  | complement {s : Scope} {n m : Nat} {operand : Expr} {before : List Stmt} {x : String}
      (h : Expressed dir ns s n operand before x m) :
      Expressed dir ns s n (.complement operand) before ("~(" ++ x ++ ")") m
  | popCount {s : Scope} {n m : Nat} {operand : Expr} {before : List Stmt} {x : String}
      (h : Expressed dir ns s n operand before x m) :
      Expressed dir ns s n (.popCount operand) before ("PopCount(" ++ x ++ ")") m
  | fieldLen {s : Scope} {n : Nat} {name : String} {f : Field} (h : s.resolve? name = some f) :
      Expressed dir ns s n (.fieldLen name) [] (safeName name ++ "_len") n
  | fieldRef {s : Scope} {n : Nat} (name : String) : Expressed dir ns s n (.fieldRef name) [] name n
  | enumRef {s : Scope} {n : Nat} (enum : Name) (item : String) :
      Expressed dir ns s n (.enumRef enum item) []
        (qualify (.mention .enum enum) ns ++ "::" ++ safeName item) n
  | listElement {s : Scope} {n : Nat} : Expressed dir ns s n .listElement [] listElementName n
  | value {s : Scope} {n : Nat} (v : Nat) : Expressed dir ns s n (.value v) [] (toString v) n
  | sumOf {s : Scope} {n m : Nat} {list : String} {summand : Expr} {f : Field} {member : Ty}
      {count : Int} {length : Option Expr} {before : List Stmt} {x : String}
      (hlist : s.resolve? list = some f) (htype : f.type = .list member count length)
      (h : Expressed dir ns (boundBy (elementMembers member) ++ s)
        (n + 1 + asideCount listElementName (elementMembers member)) (summandOf summand) before x m) :
      Expressed dir ns s n (.sumOf list summand)
        ([Stmt.openSum n dir] ++ (bindFields listElementName (elementMembers member) ⟨s, n + 1⟩).1 ++
          before ++ [Stmt.summand x, .closeSum list]) (sumName n) m

section
variable {s : Scope} {n : Nat} {site : Site}

theorem sumOver_expressed {list : String} {summand : Expr} {body : Emission (List Stmt × String)}
    (h : ∀ s n, Emits s n (fun r m => Expressed site.dir site.ns s n (summandOf summand) r.1 r.2 m)
      body) :
    Emits s n (fun r m => Expressed site.dir site.ns s n (.sumOf list summand) r.1 r.2 m)
      (sumOver site list body) := by
  unfold sumOver
  apply Emits.get
  split
  · exact .fail
  rename_i f hlist
  split
  · rename_i member count length htype
    apply Emits.bind (R := fun fields k => fields = elementMembers member ∧ k = n)
      (.lift fun fields hfields => ⟨elementFields_eq hfields, rfl⟩)
    rintro _ k ⟨rfl, rfl⟩
    apply Emits.bind (.freshId (Q := fun id next => id = k ∧ next = k + 1) ⟨rfl, rfl⟩)
    rintro _ _ ⟨rfl, rfl⟩
    apply Emits.bind (.withFields (h _ _))
    rintro ⟨_, before, x⟩ m ⟨rfl, hx⟩
    exact .pure (.sumOf hlist htype hx)
  · exact .fail

theorem compileExpr_expressed (site : Site) (e : Expr) (s : Scope) (n : Nat) :
    Emits s n (fun r m => Expressed site.dir site.ns s n e r.1 r.2 m) (compileExpr site e) := by
  fun_induction compileExpr site e generalizing s n with
  | case1 => exact .fail
  | case2 op lhs rhs ihl ihr =>
    apply Emits.bind (ihl s n)
    intro l k hl
    apply Emits.bind (ihr s k)
    intro r m hr
    exact .pure (.binary hl hr)
  | case3 operand ih => exact .bind (ih s n) fun p m hp => .pure (.complement hp)
  | case4 operand ih => exact .bind (ih s n) fun p m hp => .pure (.popCount hp)
  | case5 name =>
    apply Emits.get
    split
    · exact .fail
    · exact .pure (.fieldLen ‹_›)
  | case6 name => exact .pure (.fieldRef name)
  | case7 enum item => exact .pure (.enumRef enum item)
  | case8 => exact .pure .listElement
  | case9 v => exact .pure (.value v)
  | case10 list => exact sumOver_expressed fun s n => .pure .listElement
  | case11 list summand habsent ih =>
    have hsummand : summandOf summand = summand := by
      unfold summandOf
      split
      · exact (habsent rfl).elim
      · rfl
    exact sumOver_expressed (by rwa [hsummand])

end

end CodecGen.Emit
