import CodecGen.Proofs.Building
set_option autoImplicit false
/-!
Types spelled out less deep. A cut of a cut is a cut, and what holds of the types in a layout holds of those
in its cuts.
-/
namespace CodecGen.Schema

mutual

theorem Cut.trans {s t u : Ty} (h : Cut s t) (hu : Cut t u) : Cut s u := by
  match h, hu with
  | .refl _, hu => exact hu
  | h, .refl _ => exact h
  | .message shape name _, .container _ => exact .message shape name _
  | .unionName name _, .union _ => exact .unionName name _
  | .container h, .container hu => exact .container (CutFields.trans h hu)
  | .union h, .union hu => exact .union (CutFields.trans h hu)
  | .list h, .list hu => exact .list (Cut.trans h hu)
  | .exprField h, .exprField hu => exact .exprField (Cut.trans h hu)
  | .switch h, .switch hu => exact .switch (CutFields.trans h hu)
  | .case h, .case hu => exact .case (CutFields.trans h hu)

theorem CutFields.trans {cut fields more : List Field} (h : CutFields cut fields)
    (hmore : CutFields fields more) : CutFields cut more := by
  match h, hmore with
  | .nil, .nil => exact .nil
  | .cons h rest, .cons hmore more => exact .cons (Cut.trans h hmore) (CutFields.trans rest more)

end

theorem CutFields.refl (fields : List Field) : CutFields fields fields := by
  induction fields with
  | nil => exact .nil
  | cons f rest ih =>
    obtain ⟨name, type, wire, visible⟩ := f
    exact .cons (.refl type) ih

theorem kind_of_cut {s t : Ty} (h : Cut s t) : s.kind = t.kind := by
  cases h <;> rfl

theorem typeName_of_cut {s t : Ty} (h : Cut s t) : s.typeName = t.typeName := by
  match h with
  | @Cut.list _ _ cut member h =>
    change cut.typeName = member.typeName
    exact typeName_of_cut h
  | @Cut.exprField _ cut base h =>
    change cut.typeName = base.typeName
    exact typeName_of_cut h
  | .refl _ | .message .. | .unionName .. | .enumName .. | .container _ | .union _ | .switch _
  | .case _ => rfl

theorem fields_of_cut {shape : Shape} {name : Name} {cut : List Field} {t : Ty}
    (h : Cut (.container shape name cut) t) :
    ∃ fields, t = .container shape name fields ∧ CutFields cut fields := by
  cases h with
  | refl => exact ⟨cut, rfl, .refl cut⟩
  | container h => exact ⟨_, rfl, h⟩

mutual

/-- The types that a field is laid out with satisfy `L`. Lists and computed fields are made of one type,
and every branch of a switch is a member of it. -/
def Laid (L : Ty → Prop) : Ty → Prop
  | .list member _ _ => L member
  | .exprField base _ => L base
  | .switch _ _ cases => LaidBranches L cases
  | .case .. => False
  | .pad .. => True
  | type => L type

def LaidIn (L : Ty → Prop) : List Field → Prop
  | [] => True
  | ⟨_, type, _, _⟩ :: rest => Laid L type ∧ LaidIn L rest

def LaidBranches (L : Ty → Prop) : List Field → Prop
  | [] => True
  | branch :: rest => LaidBranch L branch ∧ LaidBranches L rest

def LaidBranch (L : Ty → Prop) : Field → Prop
  | ⟨_, .case _ _ _ _ fields, wire, visible⟩ => wire = true ∧ visible = true ∧ LaidIn L fields
  | _ => False

end

section
variable {L M : Ty → Prop}

theorem laidIn_iff {fields : List Field} : LaidIn L fields ↔ ∀ f ∈ fields, Laid L f.type := by
  induction fields with
  | nil => simp [LaidIn]
  | cons f rest ih =>
    obtain ⟨name, type, wire, visible⟩ := f
    simp [LaidIn, ih]

theorem laidBranches_iff {cases : List Field} :
    LaidBranches L cases ↔ ∀ b ∈ cases, LaidBranch L b := by
  induction cases with
  | nil => simp [LaidBranches]
  | cons b rest ih => simp [LaidBranches, ih]

theorem laidIn_append {fields more : List Field} :
    LaidIn L (fields ++ more) ↔ LaidIn L fields ∧ LaidIn L more := by
  simp only [laidIn_iff, List.forall_mem_append]

theorem laid_of_isLeaf {t : Ty} (h : isLeaf t = true) (hL : L t) : Laid L t := by
  cases t with
  | list | exprField | switch | case => cases h
  | pad => trivial
  | _ => exact hL

mutual

theorem laid_replace {f : Kind → Name → Ty} (t : Ty) (h : Laid L t)
    (hM : ∀ u, L u → isLeaf (Resolve.replaceMentions f u) = true ∧ M (Resolve.replaceMentions f u)) :
    Laid M (Resolve.replaceMentions f t) := by
  cases t with
  | list member count length => exact (hM member h).2
  | exprField base value => exact (hM base h).2
  | switch name selector cases => exact laidBranches_replace cases h hM
  | case => exact h.elim
  | pad => trivial
  | _ => exact laid_of_isLeaf (hM _ h).1 (hM _ h).2

theorem laidIn_replace {f : Kind → Name → Ty} (fields : List Field) (h : LaidIn L fields)
    (hM : ∀ u, L u → isLeaf (Resolve.replaceMentions f u) = true ∧ M (Resolve.replaceMentions f u)) :
    LaidIn M (Resolve.replaceInFields f fields) := by
  match fields with
  | [] => trivial
  | ⟨name, type, wire, visible⟩ :: rest =>
    exact ⟨laid_replace type h.1 hM, laidIn_replace rest h.2 hM⟩

theorem laidBranches_replace {f : Kind → Name → Ty} (cases : List Field) (h : LaidBranches L cases)
    (hM : ∀ u, L u → isLeaf (Resolve.replaceMentions f u) = true ∧ M (Resolve.replaceMentions f u)) :
    LaidBranches M (Resolve.replaceInFields f cases) := by
  match cases with
  | [] => trivial
  | ⟨name, .case type byValue byMask selectors fields, wire, visible⟩ :: rest =>
    obtain ⟨hwire, hvisible, hfields⟩ := h.1
    exact ⟨⟨hwire, hvisible, laidIn_replace fields hfields hM⟩, laidBranches_replace rest h.2 hM⟩

end

theorem laidIn_mono {fields : List Field} (h : LaidIn L fields)
    (hM : ∀ u, L u → isLeaf u = true ∧ M u) : LaidIn M fields := by
  rw [← Resolve.replaceInFields_mention fields]
  refine laidIn_replace fields h fun u hu => ?_
  rw [Resolve.replaceMentions_mention]
  exact hM u hu

mutual

theorem laid_of_built {A : Ty → Prop} (t : Ty) (h : Laid L t) (hb : Built A t)
    (hL : ∀ u, L u → isLeaf u = true) : Laid (fun u => L u ∧ A u) t := by
  have hleaf : ∀ u, L u → Built A u → A u := by
    intro u hu hbuilt
    cases u with
    | list | exprField | switch | case => cases hL _ hu
    | _ => exact hbuilt
  cases t with
  | list member count length => exact ⟨h, hleaf member h hb⟩
  | exprField base value => exact ⟨h, hleaf base h hb.1⟩
  | switch name selector cases => exact laidBranches_of_built cases h hb.2 hL
  | case => exact h.elim
  | pad => trivial
  | _ => exact ⟨h, hb⟩

theorem laidIn_of_built {A : Ty → Prop} (fields : List Field) (h : LaidIn L fields)
    (hb : BuiltIn A fields) (hL : ∀ u, L u → isLeaf u = true) :
    LaidIn (fun u => L u ∧ A u) fields := by
  match fields with
  | [] => trivial
  | ⟨name, type, wire, visible⟩ :: rest =>
    exact ⟨laid_of_built type h.1 hb.2.1 hL, laidIn_of_built rest h.2 hb.2.2 hL⟩

theorem laidBranches_of_built {A : Ty → Prop} (cases : List Field) (h : LaidBranches L cases)
    (hb : BuiltIn A cases) (hL : ∀ u, L u → isLeaf u = true) :
    LaidBranches (fun u => L u ∧ A u) cases := by
  match cases with
  | [] => trivial
  | ⟨name, .case type byValue byMask selectors fields, wire, visible⟩ :: rest =>
    obtain ⟨hwire, hvisible, hfields⟩ := h.1
    exact ⟨⟨hwire, hvisible, laidIn_of_built fields hfields hb.2.1.2.2 hL⟩,
      laidBranches_of_built rest h.2 hb.2.2 hL⟩

end

mutual

theorem laid_cut {s t : Ty} (hcut : Cut s t) (h : Laid L t) (hL : ∀ u v, Cut u v → L v → L u) :
    Laid L s := by
  match hcut with
  | .refl _ => exact h
  | .message shape name fields => exact hL _ _ (.message shape name fields) h
  | .unionName name fields => exact hL _ _ (.unionName name fields) h
  | .enumName name values bits => exact hL _ _ (.enumName name values bits) h
  | .container hcut => exact hL _ _ (.container hcut) h
  | .union hcut => exact hL _ _ (.union hcut) h
  | .list hcut => exact hL _ _ hcut h
  | .exprField hcut => exact hL _ _ hcut h
  | .switch hcut => exact laidBranches_cut hcut h hL
  | .case _ => exact h.elim

theorem laidIn_cut {cut fields : List Field} (hcut : CutFields cut fields) (h : LaidIn L fields)
    (hL : ∀ u v, Cut u v → L v → L u) : LaidIn L cut := by
  match hcut with
  | .nil => trivial
  | .cons hcut rest => exact ⟨laid_cut hcut h.1 hL, laidIn_cut rest h.2 hL⟩

theorem laidBranches_cut {cut cases : List Field} (hcut : CutFields cut cases)
    (h : LaidBranches L cases) (hL : ∀ u v, Cut u v → L v → L u) : LaidBranches L cut := by
  match hcut with
  | .nil => trivial
  | .cons hcut rest => exact ⟨laidBranch_cut hcut h.1 hL, laidBranches_cut rest h.2 hL⟩

theorem laidBranch_cut {name : String} {cut type : Ty} {wire visible : Bool} (hcut : Cut cut type)
    (h : LaidBranch L ⟨name, type, wire, visible⟩) (hL : ∀ u v, Cut u v → L v → L u) :
    LaidBranch L ⟨name, cut, wire, visible⟩ := by
  match hcut with
  | .refl _ => exact h
  | .case hcut =>
    obtain ⟨hwire, hvisible, hfields⟩ := h
    exact ⟨hwire, hvisible, laidIn_cut hcut hfields hL⟩
  | .message .. | .unionName .. | .enumName .. | .container _ | .union _ | .list _ | .exprField _
  | .switch _ => exact h.elim

end

end
end CodecGen.Schema
