import CodecGen.Proofs.WireOrder
import Mathlib.Data.List.Induction
import Mathlib.Logic.Function.Basic
set_option autoImplicit false
/-!
What the locals of a block denote. The statements that bind the members of an object are declarations,
and each of them may be seen by those after it. Here they are carried out one after the other, and
the names are compared with the members that they were meant for.
-/
namespace CodecGen.Emit
open Schema

/-- What a name denotes: the object at hand, something of an enclosing block, a member of what
another name denotes, or the size of a list. -/
inductive Place where
  | object
  | outer (name : String)
  | member (of : Place) (name : String)
  | size (of : Place)
deriving DecidableEq, Repr

abbrev Locals := String → Place

def Locals.enter (object : String) : Locals := fun name => if name = object then .object else .outer name

def Stmt.declareIn (names : Locals) : Stmt → Locals
  | .bindMember name object => Function.update names name (.member (names object) name)
  | .bindMemberAside id name object =>
    Function.update names (asideName id) (.member (names object) name)
  | .bindFromAside name id => Function.update names name (names (asideName id))
  | .bindLength name list => Function.update names name (.size (names list))
  | _ => names

def declareAllIn (names : Locals) (stmts : List Stmt) : Locals := stmts.foldl Stmt.declareIn names

@[simp] theorem declareAllIn_nil (names : Locals) : declareAllIn names [] = names := rfl

@[simp] theorem declareAllIn_cons (names : Locals) (x : Stmt) (rest : List Stmt) :
    declareAllIn names (x :: rest) = declareAllIn (x.declareIn names) rest := rfl

@[simp] theorem declareAllIn_append (names : Locals) (xs ys : List Stmt) :
    declareAllIn names (xs ++ ys) = declareAllIn (declareAllIn names xs) ys := List.foldl_append

def Denotes (names : Locals) (name : String) : Prop := names name = .member .object name

instance (names : Locals) (name : String) : Decidable (Denotes names name) :=
  inferInstanceAs (Decidable (names name = .member .object name))

/-- The name of the size of a list, if it is declared after the fields `f :: s` are in scope. -/
def sizeName (s : Scope) (f : Field) : List String :=
  if (Scope.lengthBinding (f :: s) f).2 then [(Scope.lengthBinding (f :: s) f).1] else []

def sideNames (object : String) (s : Scope) (n : Nat) (f : Field) : List String :=
  (if safeName f.name = object then [asideName n] else []) ++ sizeName s f

theorem length_suffix (name : String) : name ++ "_len" ≠ name := by
  intro h
  have hlength := congrArg String.length h
  simp at hlength

theorem lengthBinding_declared {s : Scope} {f : Field} (h : (Scope.lengthBinding s f).2 = true) :
    (Scope.lengthBinding s f).1 = safeName f.name ++ "_len" := by
  unfold Scope.lengthBinding at h ⊢
  split
  · rfl
  · next hnot =>
    split at h
    · next hlist => exact absurd hlist (hnot _ _ _)
    · cases h

theorem sizeName_ne {s : Scope} {f : Field} : safeName f.name ∉ sizeName s f := by
  unfold sizeName
  split
  · next h =>
    rw [lengthBinding_declared h, List.mem_singleton]
    exact (length_suffix _).symm
  · simp

theorem declare_member (names : Locals) (object : String) (s : Scope) (n : Nat) (f : Field)
    (x : String) :
    declareAllIn names (memberStmts object s n f) x =
      if x ∈ sizeName s f then .size (.member (names object) (safeName f.name))
      else if x = safeName f.name ∨ x ∈ sideNames object s n f then
        .member (names object) (safeName f.name)
      else names x := by
  unfold memberStmts lengthStmts sideNames sizeName
  -- With or without a temporary, and with or without a size.
  by_cases ho : safeName f.name = object <;>
    by_cases hl : (Scope.lengthBinding (f :: s) f).2 = true <;>
    simp [ho, hl, Stmt.declareIn, Function.update_apply] <;>
    grind

section
variable {names : Locals} {object x : String} {s : Scope} {n : Nat} {f : Field}

theorem declare_member_self :
    declareAllIn names (memberStmts object s n f) (safeName f.name) =
      .member (names object) (safeName f.name) := by
  rw [declare_member, if_neg sizeName_ne, if_pos (.inl rfl)]

theorem declare_member_other (hne : x ≠ safeName f.name) (hx : x ∉ sideNames object s n f) :
    declareAllIn names (memberStmts object s n f) x = names x := by
  have hsize : x ∉ sizeName s f := fun h => hx (List.mem_append_right _ h)
  rw [declare_member, if_neg hsize, if_neg (not_or.mpr ⟨hne, hx⟩)]

theorem not_denotes_side (hne : x ≠ safeName f.name) (hx : x ∈ sideNames object s n f) :
    ¬ Denotes (declareAllIn names (memberStmts object s n f)) x := by
  intro h
  rw [Denotes, declare_member] at h
  split at h
  · cases h
  · rw [if_pos (.inr hx)] at h
    exact hne (Place.member.inj h).2.symm

theorem object_lost (h : object ∈ safeName f.name :: sideNames object s n f ∨ names object ≠ .object) :
    declareAllIn names (memberStmts object s n f) object ≠ .object := by
  rw [declare_member]
  split
  · simp
  · split
    · simp
    · next hnot =>
      rcases h with h | h
      · exact absurd (List.mem_cons.mp h) hnot
      · exact h

end

section
variable {object x : String} {s : Scope} {n : Nat}

theorem bindMembers_append (object : String) (before rest : List Field) (s : Scope) (n : Nat) :
    (bindMembers object (before ++ rest) ⟨s, n⟩).1 =
      (bindMembers object before ⟨s, n⟩).1 ++
        (bindMembers object rest ⟨boundBy before ++ s, n + asideCount object before⟩).1 := by
  induction before generalizing s n with
  | nil => simp [bindMembers, boundBy, asideCount]
  | cons f before ih =>
    rw [List.cons_append]
    by_cases hb : Scope.binds f = true
    · rw [bindMembers_cons_of_binds object _ s n hb, bindMembers_cons_of_binds object _ s n hb, ih,
        boundBy_cons_of_binds before hb, List.append_assoc, List.append_assoc]
      rw [asideCount_cons_of_binds object before hb, Nat.add_assoc]
      rfl
    · rw [bindMembers_cons_of_not_binds object _ _ hb, bindMembers_cons_of_not_binds object _ _ hb, ih,
        boundBy_cons_of_not_binds before hb, asideCount_cons_of_not_binds object before hb]

theorem bindMembers_filter (object : String) (fields : List Field) (s : Scope) (n : Nat) :
    (bindMembers object (fields.filter Scope.binds) ⟨s, n⟩).1 = (bindMembers object fields ⟨s, n⟩).1 := by
  induction fields generalizing s n with
  | nil => rfl
  | cons f rest ih =>
    by_cases hb : Scope.binds f = true
    · rw [List.filter_cons_of_pos hb, bindMembers_cons_of_binds object _ s n hb,
        bindMembers_cons_of_binds object _ s n hb, ih]
    · rw [List.filter_cons_of_neg hb, bindMembers_cons_of_not_binds object _ _ hb, ih]

theorem bindMembers_snoc (object : String) (before : List Field) {f : Field} (s : Scope) (n : Nat)
    (hf : Scope.binds f = true) :
    (bindMembers object (before ++ [f]) ⟨s, n⟩).1 =
      (bindMembers object before ⟨s, n⟩).1 ++
        memberStmts object (boundBy before ++ s) (n + asideCount object before) f := by
  rw [bindMembers_append, bindMembers_cons_of_binds object [] _ _ hf]
  simp [bindMembers]

variable {fields : List Field}

theorem declare_members_other (names : Locals) (hb : ∀ f ∈ fields, Scope.binds f = true)
    (h : ∀ before f after, fields = before ++ f :: after → x ≠ safeName f.name ∧
      x ∉ sideNames object (boundBy before ++ s) (n + asideCount object before) f) :
    declareAllIn names (bindMembers object fields ⟨s, n⟩).1 x = names x := by
  -- From the end: the statements of the last member decide what the name denotes.
  induction fields using List.reverseRecOn with
  | nil => rfl
  | append_singleton before f ih =>
    have hlast := h before f [] rfl
    rw [bindMembers_snoc object before s n (hb f (by simp)), declareAllIn_append,
      declare_member_other hlast.1 hlast.2]
    apply ih
    · intro g hg
      exact hb g (List.mem_append_left _ hg)
    · intro first g after hsplit
      exact h first g (after ++ [f]) (by simp [hsplit])

theorem not_denotes_of_members (names : Locals) (hb : ∀ f ∈ fields, Scope.binds f = true)
    (hx : x ∉ safeNames fields) (h : ¬ Denotes names x) :
    ¬ Denotes (declareAllIn names (bindMembers object fields ⟨s, n⟩).1) x := by
  induction fields using List.reverseRecOn with
  | nil => exact h
  | append_singleton before f ih =>
    simp only [safeNames, List.map_append, List.map_singleton, List.mem_append, List.mem_singleton,
      not_or] at hx
    have hbefore := ih (fun g hg => hb g (List.mem_append_left _ hg)) hx.1
    rw [bindMembers_snoc object before s n (hb f (by simp)), declareAllIn_append]
    by_cases hside : x ∈ sideNames object (boundBy before ++ s) (n + asideCount object before) f
    · exact not_denotes_side hx.2 hside
    · rw [Denotes, declare_member_other hx.2 hside]
      exact hbefore

/-- Without the object nothing denotes a member of it: neither is the object found again, nor are
names set right that were bound meanwhile. -/
theorem not_denotes_of_lost (names : Locals) (hb : ∀ f ∈ fields, Scope.binds f = true)
    (hnodup : (safeNames fields).Nodup) (h : names object ≠ .object) {f : Field} (hf : f ∈ fields) :
    ¬ Denotes (declareAllIn names (bindMembers object fields ⟨s, n⟩).1) (safeName f.name) := by
  induction fields generalizing names s n with
  | nil => cases hf
  | cons g rest ih =>
    rw [safeNames, List.map_cons, List.nodup_cons] at hnodup
    rw [List.forall_mem_cons] at hb
    rw [bindMembers_cons_of_binds object rest s n hb.1, declareAllIn_append]
    have hlost : declareAllIn names (memberStmts object s n g) object ≠ .object := object_lost (.inr h)
    rcases List.mem_cons.mp hf with rfl | hf
    · apply not_denotes_of_members _ hb.2 hnodup.1
      rw [Denotes, declare_member_self]
      intro heq
      exact h (Place.member.inj heq).1
    · exact ih _ hb.2 hnodup.2 hlost hf

end

/-- Nothing gets in the way of the bound members: the one called like the object comes last, by way
of a temporary that is called like none of the others, and the size of a list takes neither the name
of a member before it nor, if members are still to come, that of the object. -/
structure Undisturbed (object : String) (s : Scope) (n : Nat) (bound : List Field) : Prop where
  object_last : ∀ before f after, bound = before ++ f :: after → safeName f.name = object →
    after = [] ∧ asideName n ∉ safeNames before
  size_apart : ∀ before f after, bound = before ++ f :: after →
    ∀ name ∈ sizeName (before.reverse ++ s) f,
      name ∉ safeNames before ∧ (name = object → after = [])

section
variable {names : Locals} {object : String} {s : Scope} {n : Nat} {bound : List Field}

theorem boundBy_of_bound (h : ∀ f ∈ bound, Scope.binds f = true) : boundBy bound = bound.reverse := by
  rw [boundBy, List.filter_eq_self.mpr h]

theorem asideCount_eq_zero (h : object ∉ safeNames bound) : asideCount object bound = 0 := by
  refine List.countP_eq_zero.mpr fun f hf => ?_
  have hne : safeName f.name ≠ object := fun heq => h (heq ▸ List.mem_map_of_mem hf)
  simp [hne]

theorem apart_of_nodup {before after : List Field} {f : Field}
    (h : (safeNames (before ++ f :: after)).Nodup) :
    safeName f.name ∉ safeNames before ∧ safeName f.name ∉ safeNames after ∧
      ∀ name ∈ safeNames before, name ∉ safeNames after := by
  rw [safeNames_append, List.nodup_append] at h
  obtain ⟨-, hrest, hapart⟩ := h
  have hself : safeName f.name ∈ safeNames (f :: after) := List.mem_cons_self
  refine ⟨fun hmem => hapart _ hmem _ hself rfl, (List.nodup_cons.mp hrest).1, fun name hname hmem => ?_⟩
  exact hapart name hname name (List.mem_cons_of_mem _ hmem) rfl

theorem bindMembers_split (object : String) (s : Scope) (n : Nat) (before : List Field) {f : Field}
    (after : List Field) (h : ∀ g ∈ before ++ f :: after, Scope.binds g = true) :
    (bindMembers object (before ++ f :: after) ⟨s, n⟩).1 =
      (bindMembers object before ⟨s, n⟩).1 ++
        memberStmts object (before.reverse ++ s) (n + asideCount object before) f ++
          (bindMembers object after
            ⟨(before ++ [f]).reverse ++ s, n + asideCount object (before ++ [f])⟩).1 := by
  have hf : Scope.binds f = true := h f (by simp)
  have hbefore : ∀ g ∈ before, Scope.binds g = true := fun g hg => h g (List.mem_append_left _ hg)
  have hsnoc : ∀ g ∈ before ++ [f], Scope.binds g = true := List.forall_mem_append.mpr ⟨hbefore, by simpa using hf⟩
  rw [List.append_cons, bindMembers_append, bindMembers_snoc object before s n hf,
    boundBy_of_bound hbefore, boundBy_of_bound hsnoc]

theorem last_of_denotes (hb : ∀ f ∈ bound, Scope.binds f = true) (hnodup : (safeNames bound).Nodup)
    (h : ∀ f ∈ bound, Denotes (declareAllIn names (bindMembers object bound ⟨s, n⟩).1) (safeName f.name))
    {before after : List Field} {f : Field} (hsplit : bound = before ++ f :: after)
    (hlost : object ∈ safeName f.name ::
      sideNames object (before.reverse ++ s) (n + asideCount object before) f) : after = [] := by
  subst hsplit
  have hstmts := bindMembers_split object s n before after hb
  rw [List.forall_mem_append, List.forall_mem_cons] at hb
  rw [safeNames_append, List.nodup_append] at hnodup
  cases after with
  | nil => rfl
  | cons g more =>
    have hg := h g (by simp)
    rw [hstmts, declareAllIn_append, declareAllIn_append] at hg
    exact absurd hg (not_denotes_of_lost _ hb.2.2 (List.nodup_cons.mp hnodup.2.1).2
      (object_lost (.inl hlost)) List.mem_cons_self)

theorem apart_of_denotes (hb : ∀ f ∈ bound, Scope.binds f = true) (hnodup : (safeNames bound).Nodup)
    (h : ∀ f ∈ bound, Denotes (declareAllIn names (bindMembers object bound ⟨s, n⟩).1) (safeName f.name))
    {before after : List Field} {f : Field} (hsplit : bound = before ++ f :: after) {name : String}
    (hside : name ∈ sideNames object (before.reverse ++ s) (n + asideCount object before) f) :
    name ∉ safeNames before := by
  intro hmem
  subst hsplit
  obtain ⟨hbefore, -, hother⟩ := apart_of_nodup hnodup
  have hstmts := bindMembers_split object s n before after hb
  rw [List.forall_mem_append, List.forall_mem_cons] at hb
  obtain ⟨g, hg, rfl⟩ := List.mem_map.mp hmem
  have hne : safeName g.name ≠ safeName f.name := fun heq => hbefore (heq ▸ hmem)
  have hdenotes := h g (List.mem_append_left _ hg)
  rw [hstmts, declareAllIn_append, declareAllIn_append] at hdenotes
  exact not_denotes_of_members _ hb.2.2 (hother _ hmem) (not_denotes_side hne hside) hdenotes

theorem undisturbed_of_denotes (hb : ∀ f ∈ bound, Scope.binds f = true)
    (hnodup : (safeNames bound).Nodup)
    (h : ∀ f ∈ bound, Denotes (declareAllIn names (bindMembers object bound ⟨s, n⟩).1) (safeName f.name)) :
    Undisturbed object s n bound := by
  constructor
  · intro before f after hsplit hobject
    have hnone : asideCount object before = 0 := by
      apply asideCount_eq_zero
      rw [hsplit] at hnodup
      rw [← hobject]
      exact (apart_of_nodup hnodup).1
    have haside : asideName n ∈
        sideNames object (before.reverse ++ s) (n + asideCount object before) f := by
      simp [sideNames, hobject, hnone]
    have hmember : object ∈ safeName f.name ::
        sideNames object (before.reverse ++ s) (n + asideCount object before) f := by
      simp [hobject]
    exact ⟨last_of_denotes hb hnodup h hsplit hmember, apart_of_denotes hb hnodup h hsplit haside⟩
  · intro before f after hsplit name hsize
    have hside : name ∈ sideNames object (before.reverse ++ s) (n + asideCount object before) f :=
      List.mem_append_right _ hsize
    refine ⟨apart_of_denotes hb hnodup h hsplit hside, fun hobject => ?_⟩
    exact last_of_denotes hb hnodup h hsplit (List.mem_cons_of_mem _ (hobject ▸ hside))

theorem object_intact {before after : List Field} {f : Field}
    (hb : ∀ g ∈ before, Scope.binds g = true) (h : Undisturbed object s n (before ++ f :: after)) :
    declareAllIn names (bindMembers object before ⟨s, n⟩).1 object = names object := by
  apply declare_members_other names hb
  intro first g more hbefore
  subst hbefore
  have hsplit : first ++ g :: more ++ f :: after = first ++ g :: (more ++ f :: after) := by simp
  have hmember : object ≠ safeName g.name := by
    intro heq
    simpa using (h.object_last first g _ hsplit heq.symm).1
  rw [boundBy_of_bound (fun x hx => hb x (List.mem_append_left _ hx))]
  refine ⟨hmember, fun hside => ?_⟩
  rw [sideNames, if_neg hmember.symm, List.nil_append] at hside
  simpa using (h.size_apart first g _ hsplit object hside).2 rfl

theorem member_kept {before after : List Field} {f : Field}
    (hb : ∀ g ∈ after, Scope.binds g = true) (hnodup : (safeNames (before ++ f :: after)).Nodup)
    (h : Undisturbed object s n (before ++ f :: after)) :
    declareAllIn names (bindMembers object after
      ⟨(before ++ [f]).reverse ++ s, n + asideCount object (before ++ [f])⟩).1 (safeName f.name) =
        names (safeName f.name) := by
  apply declare_members_other names hb
  intro first g more hafter
  subst hafter
  have hsplit : before ++ f :: (first ++ g :: more) = (before ++ f :: first) ++ g :: more := by simp
  have hf : safeName f.name ∈ safeNames (before ++ f :: first) := List.mem_map_of_mem (by simp)
  rw [hsplit] at hnodup
  have hapart := (apart_of_nodup hnodup).1
  have hscope : boundBy first ++ ((before ++ [f]).reverse ++ s) =
      (before ++ f :: first).reverse ++ s := by
    simp [boundBy_of_bound (fun x hx => hb x (List.mem_append_left _ hx))]
  refine ⟨fun heq => hapart (heq ▸ hf), fun hside => ?_⟩
  rw [hscope, sideNames, List.mem_append] at hside
  rcases hside with haside | hsize
  · by_cases ho : safeName g.name = object
    · -- Only `g` is called like the object, so its temporary is the first one.
      have hnone := asideCount_eq_zero (ho ▸ hapart)
      rw [List.append_cons, asideCount, List.countP_append] at hnone
      rw [if_pos ho, Nat.add_assoc, asideCount, asideCount, hnone, List.mem_singleton] at haside
      exact (h.object_last _ g more hsplit ho).2 (haside ▸ hf)
    · rw [if_neg ho] at haside
      cases haside
  · exact (h.size_apart _ g more hsplit _ hsize).1 hf

theorem denotes_of_undisturbed (hb : ∀ f ∈ bound, Scope.binds f = true)
    (hnodup : (safeNames bound).Nodup) (hobject : names object = .object)
    (h : Undisturbed object s n bound) {f : Field} (hf : f ∈ bound) :
    Denotes (declareAllIn names (bindMembers object bound ⟨s, n⟩).1) (safeName f.name) := by
  obtain ⟨before, after, rfl⟩ := List.append_of_mem hf
  have hstmts := bindMembers_split object s n before after hb
  rw [List.forall_mem_append, List.forall_mem_cons] at hb
  rw [hstmts, declareAllIn_append, declareAllIn_append, Denotes, member_kept hb.2.2 hnodup h,
    declare_member_self, object_intact hb.1 h, hobject]

end

/-- Binding the members of an object makes every one of them denoted by its name exactly when nothing
gets in the way: neither a member called like the object in front of another one, nor a temporary or a
size with a name that is taken. -/
theorem bound_members_denoted_iff (object : String) (fields : List Field) (s : Scope) (n : Nat)
    (names : Locals) (hobject : names object = .object) (hnodup : (safeNames fields).Nodup) :
    (∀ f ∈ fields, Scope.binds f = true →
      Denotes (declareAllIn names (bindFields object fields ⟨s, n⟩).1) (safeName f.name)) ↔
      Undisturbed object s n (fields.filter Scope.binds) := by
  have hb : ∀ f ∈ fields.filter Scope.binds, Scope.binds f = true :=
    fun f hf => (List.mem_filter.mp hf).2
  have hbound : (safeNames (fields.filter Scope.binds)).Nodup :=
    hnodup.sublist (List.filter_sublist.map _)
  have hstmts : declareAllIn names (bindFields object fields ⟨s, n⟩).1 =
      declareAllIn names (bindMembers object (fields.filter Scope.binds) ⟨s, n⟩).1 := by
    rw [bindFields_stmts, bindMembers_filter, declareAllIn_append]
    split <;> rfl
  rw [hstmts]
  constructor
  · intro h
    apply undisturbed_of_denotes hb hbound
    intro f hf
    exact h f (List.mem_filter.mp hf).1 (hb f hf)
  · intro h f hf hbinds
    exact denotes_of_undisturbed hb hbound hobject h (List.mem_filter.mpr ⟨hf, hbinds⟩)

def featureFields : List Field :=
  [⟨"enable", .simple ["uint8_t"], true, true⟩, ⟨"count", .simple ["uint16_t"], true, true⟩]

theorem bound_members_denoted_iff_reversed :
    (safeNames featureFields.reverse).Nodup ∧
      (∀ f ∈ featureFields.reverse, Denotes (declareAllIn (.enter "enable")
        (bindFields "enable" featureFields.reverse {}).1) (safeName f.name)) ∧
      Undisturbed "enable" [] 0 (featureFields.reverse.filter Scope.binds) := by
  have hnodup : (safeNames featureFields.reverse).Nodup := by decide +kernel
  have hdenotes : ∀ f ∈ featureFields.reverse, Denotes (declareAllIn (.enter "enable")
      (bindFields "enable" featureFields.reverse {}).1) (safeName f.name) := by decide +kernel
  refine ⟨hnodup, hdenotes, ?_⟩
  exact (bound_members_denoted_iff "enable" featureFields.reverse [] 0 (.enter "enable") rfl
    hnodup).mp fun f hf _ => hdenotes f hf

/-- A member called like the object takes its name away, and the members after it are then looked for
in that member. -/
theorem object_name_taken_by_member :
    (safeNames featureFields).Nodup ∧ (∀ f ∈ featureFields, Scope.binds f = true) ∧
      declareAllIn (.enter "enable") (bindFields "enable" featureFields {}).1 "count" =
        .member (.member .object "enable") "count" ∧
      ¬ Denotes (declareAllIn (.enter "enable") (bindFields "enable" featureFields {}).1) "count" := by
  decide +kernel

end CodecGen.Emit
