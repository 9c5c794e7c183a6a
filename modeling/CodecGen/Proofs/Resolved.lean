import CodecGen.Proofs.Unfolding
import CodecGen.Resolve.Module
set_option autoImplicit false
/-!
What resolution hands on. Every layout is built from types that names stand for, every expression is
sound, and every declaration is a type of its own or stands for a finished one. So all modules that
come out of resolution are finished, against any modules that came out of it before.
-/
namespace CodecGen.Resolve
open Schema Markup

/-- The result, if there is one, satisfies `Q`. -/
def Gives {α : Type} (x : Noted (Option α)) (Q : α → Prop) : Prop := ∀ a, x.value = some a → Q a

namespace Gives
variable {α β : Type} {Q : α → Prop} {P : β → Prop}

theorem nothing : Gives (return none) Q := nofun

theorem refuse {cause : ErrorCause} {span : Span} : Gives (refuse cause span) Q := nofun

theorem result {a : α} (h : Q a) : Gives (return some a) Q := by
  rintro _ ⟨⟩
  exact h

theorem map {x : Noted (Option α)} {f : α → β} (hx : Gives x Q) (hf : ∀ a, Q a → P (f a)) :
    Gives (do return (← x).map f) P := by
  intro b hb
  obtain ⟨a, ha, rfl⟩ := Option.map_eq_some_iff.mp hb
  exact hf a (hx a ha)

theorem bind {x : Noted β} {f : β → Noted (Option α)} (h : Gives (f x.value) Q) :
    Gives (x >>= f) Q := h

end Gives

abbrev Sound (e : Expr) : Prop := e.sound = true

theorem sound_sumOf {list : String} {summand : Expr} (h : Sound summand) :
    Sound (.sumOf list summand) := by
  cases summand with
  | absent => rfl
  | _ => exact h

theorem sound_binary {op : String} {lhs rhs : Expr} (hl : Sound lhs) (hr : Sound rhs) :
    Sound (.binary op lhs rhs) := by
  change (lhs.sound && rhs.sound) = true
  rw [Bool.and_eq_true]
  exact ⟨hl, hr⟩

theorem resolveEnumRef_sound (env : Env) (e : Element) : Gives (resolveEnumRef env e) Sound := by
  unfold resolveEnumRef
  refine .bind ?_
  split
  · exact .nothing
  · refine .bind ?_
    split
    · exact .nothing
    · split
      · exact .result rfl
      · exact .refuse

theorem resolveNode_sound (env : Env) (e : Element) (operands : List (Noted (Option Expr)))
    (h : ∀ x ∈ operands, Gives x Sound) : Gives (resolveNode env e operands) Sound := by
  unfold resolveNode
  split
  · refine .bind ?_
    split
    · exact .nothing
    · split
      · next l r _ =>
        refine .bind (.bind ?_)
        split
        · next lhs rhs hl hr =>
          exact .result (sound_binary (h l (by simp) lhs hl) (h r (by simp) rhs hr))
        · exact .nothing
      · exact .refuse
  · split
    · exact .map (h _ (by simp)) fun _ hx => hx
    · exact .refuse
  · split
    · exact .map (h _ (by simp)) fun _ hx => hx
    · exact .refuse
  · refine .bind ?_
    split
    · exact .nothing
    · split
      · exact .result rfl
      · exact .map (h _ (by simp)) fun _ hx => sound_sumOf hx
  · exact .result rfl
  · exact .result rfl
  · exact resolveEnumRef_sound env e
  · exact .map (Q := fun _ => True) (fun _ _ => trivial) fun _ _ => rfl
  · exact .map (Q := fun _ => True) (fun _ _ => trivial) fun _ _ => rfl
  · exact .result rfl
  · exact .refuse

mutual

theorem resolveExpr_sound (env : Env) (e : Element) : Gives (resolveExpr env e) Sound := by
  match e with
  | ⟨tag, attrs, text, children, span⟩ =>
    exact resolveNode_sound env _ _ (resolveExprs_sound env children)

theorem resolveExprs_sound (env : Env) (es : List Element) :
    ∀ x ∈ resolveExprs env es, Gives x Sound := by
  match es with
  | [] => simp [resolveExprs]
  | e :: rest =>
    rw [resolveExprs, List.forall_mem_cons]
    exact ⟨resolveExpr_sound env e, resolveExprs_sound env rest⟩

end

def Offered (env : Env) (t : Target) : Prop := ∃ name index, env.lookup? name = some (t, index)

def BranchOf (P : Field → Prop) (b : Field) : Prop :=
  ∃ name type byValue byMask selectors fields,
    b = ⟨name, .case type byValue byMask selectors fields, true, true⟩ ∧
      (byValue != byMask) = true ∧ selectors.all Expr.sound = true ∧ ∀ f ∈ fields, P f

/-- Every field that a description can state satisfies `P`. -/
structure Admits (env : Env) (P : Field → Prop) : Prop where
  scalar : ∀ name wire visible, ∀ t ∈ [card8, card16, card32, int32], P ⟨name, t, wire, visible⟩
  pad : ∀ name bytes align, P ⟨name, .pad bytes align, true, false⟩
  plain : ∀ name t, Offered env t → P ⟨name, t.type, true, true⟩
  list : ∀ name t count length, Offered env t → lengthFits name (.list t.type count length) = true →
    P ⟨name, .list t.type count length, true, true⟩
  computed : ∀ name t value, Offered env t → Sound value →
    P ⟨name, .exprField t.type value, true, false⟩
  switch : ∀ name type selector branches, Sound selector → (∀ b ∈ branches, BranchOf P b) →
    P ⟨name, .switch type selector branches, true, true⟩
  copied : ∀ shape name fields reply, Offered env (.known (.container shape name fields) reply) →
    ∀ f ∈ fields, P f

def MemberOf (P : Field → Prop) : Member → Prop
  | .field f => P f
  | .reply fields => ∀ f ∈ fields, P f

section
variable {env : Env} {P : Field → Prop}

theorem forall_fields_of_members {members : List Member} (h : ∀ m ∈ members, MemberOf P m) :
    ∀ f ∈ members.filterMap Member.field?, P f := by
  intro f hf
  obtain ⟨m, hm, hfield⟩ := List.mem_filterMap.mp hf
  cases m with
  | field g =>
    obtain rfl := Option.some.inj hfield
    exact h _ hm
  | reply fields => cases hfield

theorem lookupType_offered (env : Env) (name : String) (span : Span) :
    Gives (lookupType env name span) (Offered env) := by
  unfold lookupType
  split
  · next t index hlookup =>
    rintro _ ⟨⟩
    exact ⟨name, _, hlookup⟩
  · next t hlookup =>
    rintro _ ⟨⟩
    exact ⟨name, _, hlookup⟩
  · exact .refuse

theorem resolvePad_admitted (h : Admits env P) (pads : Nat) (e : Element) :
    Gives (resolvePad pads e) (MemberOf P) := by
  have hpad : ∃ bytes align, (padType e).value = .pad bytes align := by
    unfold padType
    split <;> exact ⟨_, _, rfl⟩
  obtain ⟨bytes, align, hpad⟩ := hpad
  refine .bind (.result ?_)
  rw [hpad]
  exact h.pad _ bytes align

theorem nameAndType_offered (env : Env) (e : Element) :
    Gives (nameAndType env e) fun p => ∃ t, Offered env t ∧ t.type = p.2 := by
  unfold nameAndType
  refine .bind (.bind ?_)
  split
  · exact .map (lookupType_offered env _ _) fun t ht => ⟨t, ht, rfl⟩
  · exact .nothing

theorem resolvePlain_admitted (h : Admits env P) (e : Element) :
    Gives (resolvePlain env e) (MemberOf P) := by
  refine .map (nameAndType_offered env e) ?_
  rintro ⟨name, _⟩ ⟨t, ht, rfl⟩
  exact h.plain name t ht

theorem resolveDescriptor_admitted (h : Admits env P) (e : Element) :
    Gives (resolveDescriptor e) (MemberOf P) :=
  .map (Q := fun _ => True) (fun _ _ => trivial) fun name _ => h.scalar name false true int32 (by simp)

theorem lengthFits_listSize (place : Place) (name : String) (member : Ty) {length : Option Expr}
    (h : ∀ e ∈ length, Sound e) :
    lengthFits name
      (.list member (listSize place name length).1 (listSize place name length).2) = true := by
  cases length with
  -- In a request the length is that of a field, elsewhere the list is measured.
  | none => cases hp : place.inRequest <;> simp [listSize, lengthFits, hp, Expr.sound]
  | some e =>
    have he : Sound e := h e rfl
    cases e with
    | value | fieldRef | enumRef | listElement => rfl
    | absent | fieldLen => cases he
    | _ => exact he

theorem resolveList_admitted (h : Admits env P) (place : Place) (e : Element) :
    Gives (resolveList env place e) (MemberOf P) := by
  unfold resolveList
  refine .bind ?_
  split
  · exact .nothing
  · next name type hp =>
    obtain ⟨t, ht, rfl⟩ := nameAndType_offered env e _ hp
    dsimp only
    split
    · exact .result (h.list name t _ _ ht (lengthFits_listSize place name t.type (by simp)))
    · refine .map (resolveExpr_sound env _) fun x hx => ?_
      exact h.list name t _ _ ht (lengthFits_listSize place name t.type (by simpa using hx))

theorem resolveExprField_admitted (h : Admits env P) (e : Element) :
    Gives (resolveExprField env e) (MemberOf P) := by
  unfold resolveExprField
  refine .bind ?_
  split
  · exact .nothing
  · next name type hp =>
    obtain ⟨t, ht, rfl⟩ := nameAndType_offered env e _ hp
    split
    · exact .refuse
    · exact .map (resolveExpr_sound env _) fun x hx => h.computed name t x ht hx

theorem resolveSelectors_sound (env : Env) (es : List Element) :
    (resolveSelectors env es).value.all Expr.sound = true := by
  induction es with
  | nil => rfl
  | cons e rest ih =>
    unfold resolveSelectors
    split
    · rw [Noted.value_bind, Noted.value_bind, Noted.value_pure, List.all_append, Bool.and_eq_true]
      refine ⟨?_, ih⟩
      cases hone : (resolveExpr env e).value with
      | none => rfl
      | some x => simpa using resolveExpr_sound env e x hone
    · exact ih

theorem resolveSelector_sound (env : Env) (children : List Element) :
    Gives (resolveSelector env children) Sound := by
  unfold resolveSelector
  split
  · exact .nothing
  · exact resolveExpr_sound env _

theorem switchMember_admitted (h : Admits env P) {e : Element} {name : String} {type : Name}
    {selector : Option Expr} {branches : List Field} (hs : ∀ x ∈ selector, Sound x)
    (hb : ∀ b ∈ branches, BranchOf P b) :
    Gives (switchMember e name type selector branches) (MemberOf P) := by
  unfold switchMember
  split
  · exact .result (h.switch name type _ branches (hs _ rfl) hb)
  · exact .refuse

theorem Admits.header (h : Admits env P) {t : Ty} (ht : t ∈ [card8, card16, card32, int32])
    (name : String) : P (headerField name t) := h.scalar name true false t ht

theorem FieldList.add_slot {l : FieldList} {before after : List Field} {x : Field}
    (hfields : l.fields = before ++ x :: after) (hslot : l.slot? = some before.length) (f : Field) :
    l.add f = ⟨before ++ f :: after, none⟩ := by
  have hset : l.fields.set before.length f = before ++ f :: after := by
    rw [hfields, List.set_append_right _ _ (Nat.le_refl _), Nat.sub_self, List.set_cons_zero]
  rw [add, hslot, ← hset]

theorem FieldList.addAll_full {l : FieldList} (h : l.slot? = none) (members : List Field) :
    l.addAll members = l.fields ++ members := by
  induction members generalizing l with
  | nil => exact (List.append_nil _).symm
  | cons f rest ih =>
    have hadd : l.add f = ⟨l.fields ++ [f], none⟩ := by
      rw [add, h]
    change (l.add f).addAll rest = _
    rw [ih (by rw [hadd]), hadd, List.append_assoc, List.singleton_append]

theorem FieldList.addAll_slot {l : FieldList} {before after : List Field} {x : Field}
    (hfields : l.fields = before ++ x :: after) (hslot : l.slot? = some before.length)
    (members : List Field) :
    l.addAll members = before ++ members.headD x :: after ++ members.tail := by
  cases members with
  | nil =>
    rw [addAll, List.foldl_nil, hfields]
    exact (List.append_nil _).symm
  | cons f rest =>
    change (l.add f).addAll rest = _
    rw [add_slot hfields hslot, addAll_full rfl]
    rfl

/-- The first member, or a pad byte, between two parts of the header, and then the other members. -/
def withSlot (before after members : List Field) : List Field :=
  before ++ members.headD placeholder :: after ++ members.tail

theorem requestLayout_eq (isExt : Bool) (members : List Field) :
    requestLayout isExt members =
      if isExt then
        [headerField "major_opcode" card8, headerField "minor_opcode" card8,
          headerField "length" card16] ++ members
      else withSlot [headerField "major_opcode" card8] [headerField "length" card16] members := by
  cases isExt with
  | true => exact FieldList.addAll_full rfl members
  | false => exact FieldList.addAll_slot rfl rfl members

theorem replyLayout_eq (members : List Field) :
    replyLayout members = withSlot [headerField "response_type" card8]
      [headerField "sequence" card16, headerField "length" card32] members :=
  FieldList.addAll_slot rfl rfl members

theorem eventLayout_eq (noSequence xge : Bool) (members : List Field) :
    eventLayout noSequence xge members =
      if xge then
        [headerField "response_type" card8, headerField "extension" card8,
          headerField "sequence" card16, headerField "length" card32,
          headerField "event_type" card16] ++ members
      else withSlot [headerField "response_type" card8]
        (if noSequence then [] else [headerField "sequence" card16]) members := by
  cases xge with
  | true => exact FieldList.addAll_full rfl members
  | false =>
    cases noSequence with
    | true => exact FieldList.addAll_slot rfl rfl members
    | false => exact FieldList.addAll_slot rfl rfl members

theorem errorLayout_eq (members : List Field) :
    errorLayout members = [headerField "response_type" card8, headerField "error_code" card8,
      headerField "sequence" card16] ++ members :=
  FieldList.addAll_full rfl members

theorem forall_mem_withSlot (h : Admits env P) {before after members : List Field}
    (hbefore : ∀ f ∈ before, P f) (hafter : ∀ f ∈ after, P f) (hmembers : ∀ f ∈ members, P f) :
    ∀ f ∈ withSlot before after members, P f := by
  have hslot : P (members.headD placeholder) ∧ ∀ f ∈ members.tail, P f := by
    cases members with
    | nil => exact ⟨h.pad _ 1 1, by simp⟩
    | cons f rest => exact List.forall_mem_cons.mp hmembers
  unfold withSlot
  rw [List.forall_mem_append, List.forall_mem_append, List.forall_mem_cons]
  exact ⟨⟨hbefore, hslot.1, hafter⟩, hslot.2⟩

theorem requestLayout_admitted (h : Admits env P) (isExt : Bool) {members : List Field}
    (hm : ∀ f ∈ members, P f) : ∀ f ∈ requestLayout isExt members, P f := by
  rw [requestLayout_eq]
  split
  · rw [List.forall_mem_append]
    exact ⟨by simp [h.header], hm⟩
  · exact forall_mem_withSlot h (by simp [h.header]) (by simp [h.header]) hm

theorem replyLayout_admitted (h : Admits env P) {members : List Field} (hm : ∀ f ∈ members, P f) :
    ∀ f ∈ replyLayout members, P f := by
  rw [replyLayout_eq]
  exact forall_mem_withSlot h (by simp [h.header]) (by simp [h.header]) hm

theorem eventLayout_admitted (h : Admits env P) (noSequence xge : Bool) {members : List Field}
    (hm : ∀ f ∈ members, P f) : ∀ f ∈ eventLayout noSequence xge members, P f := by
  rw [eventLayout_eq]
  split
  · rw [List.forall_mem_append]
    exact ⟨by simp [h.header], hm⟩
  · refine forall_mem_withSlot h (by simp [h.header]) ?_ hm
    split <;> simp [h.header]

theorem errorLayout_admitted (h : Admits env P) {members : List Field} (hm : ∀ f ∈ members, P f) :
    ∀ f ∈ errorLayout members, P f := by
  rw [errorLayout_eq, List.forall_mem_append]
  exact ⟨by simp [h.header], hm⟩

mutual

theorem resolveMember_admitted (h : Admits env P) (place : Place) (pads : Nat) (e : Element) :
    Gives (resolveMember env place pads e) (MemberOf P) := by
  match e with
  | ⟨tag, attrs, text, children, span⟩ =>
    unfold resolveMember
    dsimp only
    split
    · exact resolvePad_admitted h pads _
    · exact resolvePlain_admitted h _
    · exact resolveDescriptor_admitted h _
    · exact resolveList_admitted h place _
    · exact resolveExprField_admitted h _
    · refine .bind ?_
      split
      · exact .nothing
      · refine .bind (.bind (switchMember_admitted h ?_ ?_))
        · exact resolveSelector_sound env children
        · exact resolveBranches_admitted h _ true children
    · split
      · refine .bind (.result ?_)
        exact replyLayout_admitted h
          (forall_fields_of_members (resolveMembers_admitted h _ 0 children))
      · exact .refuse
    · split
      · exact .bind .nothing
      · exact .refuse

theorem resolveMembers_admitted (h : Admits env P) (place : Place) (pads : Nat)
    (es : List Element) : ∀ m ∈ (resolveMembers env place pads es).value, MemberOf P m := by
  match es with
  | [] => simp [resolveMembers]
  | e :: rest =>
    unfold resolveMembers
    split
    · exact resolveMembers_admitted h place pads rest
    · simp only [Noted.value_bind, Noted.value_pure, List.forall_mem_append]
      refine ⟨fun m hm => ?_, resolveMembers_admitted h place _ rest⟩
      exact resolveMember_admitted h place pads e m (by simpa using hm)

theorem resolveBranches_admitted (h : Admits env P) (place : Place) (first : Bool)
    (es : List Element) : ∀ b ∈ (resolveBranches env place first es).value, BranchOf P b := by
  match es with
  | [] => simp [resolveBranches]
  | e :: rest =>
    unfold resolveBranches
    split
    · exact resolveBranches_admitted h place false rest
    · simp only [Noted.value_bind, Noted.value_pure, List.forall_mem_append]
      refine ⟨fun b hb => ?_, resolveBranches_admitted h place false rest⟩
      exact resolveBranch_admitted h place e b (by simpa using hb)

theorem resolveBranch_admitted (h : Admits env P) (place : Place) (e : Element) :
    Gives (resolveBranch env place e) (BranchOf P) := by
  match e with
  | ⟨tag, attrs, text, children, span⟩ =>
    rw [resolveBranch]
    dsimp only
    split
    · next htag =>
      refine .bind (.bind (.result
        ⟨_, _, _, _, _, _, rfl, ?_, resolveSelectors_sound env children, ?_⟩))
      · rcases (by simpa using htag : tag = "case" ∨ tag = "bitcase") with rfl | rfl <;> decide
      · exact forall_fields_of_members (resolveMembers_admitted h _ 0 children)
    · exact .refuse

end

end

def TargetOk (Own : Kind → Name → Prop) : Target → Prop
  | .known type reply => Finished type reply
  | .own kind name => Own kind name

section
variable {Own : Kind → Name → Prop}

theorem leaf_of_finished {type : Ty} {reply : Option Reply} (h : Finished type reply) :
    Leaf Own type := by
  cases type with
  | simple | enum => trivial
  | union => exact h.1
  | container => exact ⟨settled_of_whole h.1, wellFormedIn_of_whole h.1⟩
  | _ => exact h.1.elim

theorem leaf_of_target {t : Target} (h : TargetOk Own t) : Leaf Own t.type := by
  cases t with
  | known type reply => exact leaf_of_finished h
  | own kind name => exact h

theorem leaf_mono {Own' : Kind → Name → Prop} (h : ∀ kind name, Own kind name → Own' kind name)
    {u : Ty} (hu : Leaf Own u) : Leaf Own' u := by
  cases u with
  | mention kind name => exact h kind name hu
  | list | exprField | switch | case | absent => exact hu.elim
  | container | union => exact hu
  | _ => trivial

theorem builtIn_leaf_mono {Own' : Kind → Name → Prop}
    (h : ∀ kind name, Own kind name → Own' kind name) {fields : List Field}
    (hb : BuiltIn (Leaf Own) fields) : BuiltIn (Leaf Own') fields :=
  builtIn_mono fields hb (fun _ => leaf_mono h) fun _ => isLeaf_of_leaf

def FieldBuilt (Own : Kind → Name → Prop) (f : Field) : Prop :=
  lengthFits f.name f.type = true ∧ Built (Leaf Own) f.type

theorem fieldBuilt_leaf {f : Field} (h : Leaf Own f.type) : FieldBuilt Own f :=
  ⟨lengthFits_of_isLeaf (isLeaf_of_leaf h) f.name, built_of_isLeaf (isLeaf_of_leaf h) h⟩

theorem fieldBuilt_branch {b : Field} (h : BranchOf (FieldBuilt Own) b) : FieldBuilt Own b := by
  obtain ⟨name, type, byValue, byMask, selectors, fields, rfl, hselects, hsound, hfields⟩ := h
  exact ⟨rfl, hselects, hsound, builtIn_iff.mpr hfields⟩

/-- Every name stands for a finished type or for one that the module declares itself. -/
def Offers (env : Env) (Own : Kind → Name → Prop) : Prop := ∀ t, Offered env t → TargetOk Own t

theorem admits_built {env : Env} (h : Offers env Own) : Admits env (FieldBuilt Own) where
  scalar := by
    intro name wire visible t ht
    have hleaf : Leaf Own t := by
      simp only [List.mem_cons, List.not_mem_nil, or_false] at ht
      rcases ht with rfl | rfl | rfl | rfl <;> exact trivial
    exact fieldBuilt_leaf hleaf
  pad := fun _ _ _ => fieldBuilt_leaf trivial
  plain := fun _ t ht => fieldBuilt_leaf (leaf_of_target (h t ht))
  list := by
    intro name t count length ht hfits
    have hleaf : Leaf Own t.type := leaf_of_target (h t ht)
    have hmember : Built (Leaf Own) t.type := built_of_isLeaf (isLeaf_of_leaf hleaf) hleaf
    exact ⟨hfits, hmember⟩
  computed := by
    intro name t value ht hvalue
    have hleaf : Leaf Own t.type := leaf_of_target (h t ht)
    exact ⟨rfl, built_of_isLeaf (isLeaf_of_leaf hleaf) hleaf, hvalue⟩
  switch := fun _ _ _ _ hselector hbranches =>
    ⟨rfl, hselector, builtIn_iff.mpr fun b hb => fieldBuilt_branch (hbranches b hb)⟩
  copied := by
    intro shape name fields reply ht
    have hwhole : BuiltIn Whole fields := (h _ ht).1
    exact builtIn_iff.mp (builtIn_leaf_mono (fun _ _ => False.elim) hwhole)

end

end CodecGen.Resolve
