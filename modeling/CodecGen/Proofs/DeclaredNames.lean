import CodecGen.Proofs.Binding
import Mathlib.Data.List.Nodup
set_option autoImplicit false
/-!
The names that the bindings of an object declare. Each bound member declares its own name, and a list
declares that of its size unless a field of that name is in scope by then. Two members never share a
name, and neither do two sizes, so that a name is declared twice only where a size is called like a
member.
-/
namespace CodecGen.Emit
open Schema

def Stmt.declared? : Stmt → Option String
  | .bindMember name _ | .bindFromAside name _ | .bindLength name _ | .bindSelector name _ => some name
  | .define _ name _ | .declare _ name => some name
  | .bindMemberAside id _ _ => some (asideName id)
  | .openSum id _ => some (sumName id)
  | _ => none

def declaredNames (stmts : List Stmt) : List String := stmts.filterMap Stmt.declared?

@[simp] theorem declaredNames_append (xs ys : List Stmt) :
    declaredNames (xs ++ ys) = declaredNames xs ++ declaredNames ys := List.filterMap_append

def isListField (f : Field) : Bool :=
  match f.type with
  | .list .. => true
  | _ => false

def sizeNames : Scope → List Field → List String
  | _, [] => []
  | s, f :: rest => sizeName s f ++ sizeNames (f :: s) rest

theorem mem_sizeName {s : Scope} {f : Field} {x : String} :
    x ∈ sizeName s f ↔
      isListField f = true ∧ x = safeName f.name ++ "_len" ∧ Scope.resolve? (f :: s) x = none := by
  unfold sizeName Scope.lengthBinding isListField
  cases f.type <;> simp
  grind

theorem mem_sizeNames {s : Scope} {bound : List Field} {x : String} :
    x ∈ sizeNames s bound ↔
      ∃ before f after, bound = before ++ f :: after ∧ x ∈ sizeName (before.reverse ++ s) f := by
  induction bound generalizing s with
  | nil => simp [sizeNames]
  | cons g rest ih =>
    rw [sizeNames, List.mem_append, ih]
    constructor
    · rintro (hx | ⟨before, f, after, rfl, hx⟩)
      · exact ⟨[], g, rest, rfl, hx⟩
      · exact ⟨g :: before, f, after, rfl, by simpa using hx⟩
    · rintro ⟨before, f, after, hsplit, hx⟩
      cases before with
      | nil =>
        obtain ⟨rfl, rfl⟩ := List.cons.inj hsplit
        exact .inl hx
      | cons h before =>
        obtain ⟨rfl, rfl⟩ := List.cons.inj hsplit
        exact .inr ⟨before, f, after, rfl, by simpa using hx⟩

theorem sizeNames_sublist (s : Scope) (bound : List Field) :
    (sizeNames s bound).Sublist ((safeNames bound).map (· ++ "_len")) := by
  induction bound generalizing s with
  | nil => exact List.Sublist.slnil
  | cons f rest ih =>
    have hown : (sizeName s f).Sublist [safeName f.name ++ "_len"] := by
      unfold sizeName
      split
      · next h => rw [lengthBinding_declared h]
      · exact List.nil_sublist _
    exact hown.append (ih (f :: s))

theorem sizeNames_nodup {bound : List Field} (s : Scope) (h : (safeNames bound).Nodup) :
    (sizeNames s bound).Nodup := by
  have hinjective : Function.Injective (· ++ "_len" : String → String) :=
    fun _ _ heq => (String.append_left_inj _).mp heq
  exact (List.Nodup.map hinjective h).sublist (sizeNames_sublist s bound)

section
variable {object : String} {bound : List Field} {s : Scope} {n : Nat}

theorem declaredNames_member {f : Field} (h : safeName f.name ≠ object) :
    declaredNames (memberStmts object s n f) = safeName f.name :: sizeName s f := by
  unfold memberStmts lengthStmts sizeName
  rw [if_neg h]
  split <;> rfl

theorem declaredNames_perm (hb : ∀ f ∈ bound, Scope.binds f = true) (hobject : object ∉ safeNames bound) :
    (declaredNames (bindMembers object bound ⟨s, n⟩).1).Perm (safeNames bound ++ sizeNames s bound) := by
  induction bound generalizing s n with
  | nil => exact .nil
  | cons f rest ih =>
    obtain ⟨hf, hrest⟩ := List.forall_mem_cons.mp hb
    rw [safeNames, List.map_cons, List.mem_cons, not_or] at hobject
    rw [bindMembers_cons_of_binds object rest s n hf, declaredNames_append,
      declaredNames_member (Ne.symm hobject.1), List.cons_append]
    apply List.Perm.cons
    -- the sizes of the rest, which come after the members of the rest, go after this size too
    calc sizeName s f ++ declaredNames _
      _ |>.Perm (sizeName s f ++ (safeNames rest ++ sizeNames (f :: s) rest)) :=
        (ih hrest hobject.2).append_left _
      _ |>.Perm (safeNames rest ++ (sizeName s f ++ sizeNames (f :: s) rest)) :=
        List.perm_append_comm_assoc _ _ _

end

/-- The name of a size is free: where it is that of a member too, a field called so is in scope when
the list is bound. -/
def SizesApart (s : Scope) (bound : List Field) : Prop :=
  ∀ before f after, bound = before ++ f :: after → isListField f = true →
    safeName f.name ++ "_len" ∈ safeNames bound →
    ∃ g ∈ f :: (before.reverse ++ s), g.name = safeName f.name ++ "_len"

theorem sizesApart_iff {s : Scope} {bound : List Field} :
    SizesApart s bound ↔ ∀ x ∈ safeNames bound, x ∉ sizeNames s bound := by
  have hresolve : ∀ (t : Scope) (x : String), t.resolve? x = none ↔ ¬ ∃ g ∈ t, g.name = x := by
    intro t x
    simp [Scope.resolve?]
  constructor
  · intro h x hx hsize
    obtain ⟨before, f, after, hsplit, hsize⟩ := mem_sizeNames.mp hsize
    obtain ⟨hlist, rfl, hnone⟩ := mem_sizeName.mp hsize
    exact (hresolve _ _).mp hnone (h before f after hsplit hlist hx)
  · intro h before f after hsplit hlist hx
    by_contra hfield
    refine h _ hx (mem_sizeNames.mpr ⟨before, f, after, hsplit, ?_⟩)
    exact mem_sizeName.mpr ⟨hlist, rfl, (hresolve _ _).mpr hfield⟩

/-- The bindings of an object declare no name twice exactly when no size takes the name of a member.
Whether one does is a matter of the order: a list in front of the member gets a size of its own. -/
theorem bindFields_declares_once_iff (object : String) (fields : List Field) (s : Scope) (n : Nat)
    (hnodup : (safeNames fields).Nodup) (hobject : object ∉ safeNames fields) :
    (declaredNames (bindFields object fields ⟨s, n⟩).1).Nodup ↔
      SizesApart s (fields.filter Scope.binds) := by
  have hsublist : (safeNames (fields.filter Scope.binds)).Sublist (safeNames fields) :=
    List.filter_sublist.map _
  have hb : ∀ f ∈ fields.filter Scope.binds, Scope.binds f = true :=
    fun f hf => (List.mem_filter.mp hf).2
  have hstmts : declaredNames (bindFields object fields ⟨s, n⟩).1 =
      declaredNames (bindMembers object (fields.filter Scope.binds) ⟨s, n⟩).1 := by
    rw [bindFields_stmts, bindMembers_filter, declaredNames_append]
    split
    · exact List.append_nil _
    · exact List.append_nil _
  have hperm := declaredNames_perm (s := s) (n := n) hb fun h => hobject (hsublist.subset h)
  have hmembers := hnodup.sublist hsublist
  rw [hstmts, hperm.nodup_iff, List.nodup_append, sizesApart_iff]
  constructor
  · intro h x hx hsize
    exact h.2.2 x hx x hsize rfl
  · intro h
    refine ⟨hmembers, sizeNames_nodup s hmembers, ?_⟩
    intro x hx y hy heq
    exact h x hx (heq ▸ hy)

def sizedFields : List Field :=
  [⟨"names", .list (.simple ["uint8_t"]) 0 (some (.fieldRef "names_len")), true, true⟩,
    ⟨"names_len", .simple ["uint16_t"], true, true⟩]

theorem bindFields_declares_once_size_first :
    (safeNames sizedFields.reverse).Nodup ∧ "request" ∉ safeNames sizedFields.reverse ∧
      SizesApart [] (sizedFields.reverse.filter Scope.binds) := by
  have hnodup : (safeNames sizedFields.reverse).Nodup := by decide
  have hobject : "request" ∉ safeNames sizedFields.reverse := by decide
  have hdeclared : (declaredNames (bindFields "request" sizedFields.reverse {}).1).Nodup := by decide
  exact ⟨hnodup, hobject, (bindFields_declares_once_iff "request" sizedFields.reverse [] 0 hnodup
    hobject).mp hdeclared⟩

/-- With the list in front, `names_len` is declared as its size and again as a member. -/
theorem size_declared_again :
    (safeNames sizedFields).Nodup ∧ "request" ∉ safeNames sizedFields ∧
      (∀ n, sumName n ∉ safeNames sizedFields ∧ asideName n ∉ safeNames sizedFields) ∧
      declaredNames (bindFields "request" sizedFields {}).1 = ["names", "names_len", "names_len"] := by
  refine ⟨by decide, by decide, ?_, by decide⟩
  intro n
  have hnames : ∀ x ∈ safeNames sizedFields, x.toList.head? = some 'n' := by decide
  have hsum : (sumName n).toList.head? = some 's' := by simp [sumName]
  have haside : (asideName n).toList.head? = some 't' := by simp [asideName]
  constructor
  · intro h
    have hhead := hsum.symm.trans (hnames _ h)
    cases hhead
  · intro h
    have hhead := haside.symm.trans (hnames _ h)
    cases hhead

end CodecGen.Emit
