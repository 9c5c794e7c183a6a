import CodecGen.Proofs.MessageLayout
import CodecGen.Proofs.PendingCopies
set_option autoImplicit false
/-!
Copies of events and errors. A copy takes the fields that its source has when the copy is resolved.
Copies come after everything else and in the order of the description, so the fields are those that the
source has in the end, unless the source is itself a copy and stands further down.
-/
namespace CodecGen.Resolve
open Schema Markup

mutual

theorem replaceMentions_of_whole (f : Kind → Name → Ty) (t : Ty) (h : Built Whole t) :
    replaceMentions f t = t := by
  cases t with
  | mention kind name => exact h.elim
  | list member count length => rw [replaceMentions, replaceMentions_of_whole f member h]
  | exprField base value => rw [replaceMentions, replaceMentions_of_whole f base h.1]
  | switch name selector cases => rw [replaceMentions, replaceInFields_of_whole f cases h.2]
  | case name byValue byMask selectors fields =>
    rw [replaceMentions, replaceInFields_of_whole f fields h.2.2]
  | _ => rfl

theorem replaceInFields_of_whole (f : Kind → Name → Ty) (fields : List Field)
    (h : BuiltIn Whole fields) : replaceInFields f fields = fields := by
  match fields with
  | [] => rfl
  | ⟨name, type, wire, visible⟩ :: rest =>
    rw [replaceInFields, replaceMentions_of_whole f type h.2.1, replaceInFields_of_whole f rest h.2.2]

end

theorem ownFields_spell (below : List Decl) (d : Decl) :
    ownFields (spell below d).type = replaceInFields (typeIn below) (ownFields d.type) := by
  obtain ⟨name, type, reply⟩ := d
  cases type <;> rfl

theorem copiedFields_known {shape : Shape} (hshape : shape.kind = .event ∨ shape.kind = .error)
    {type : Ty} (htype : ∀ kind name, type ≠ .mention kind name) (drafts : List Decl)
    (reply : Option Reply) :
    copiedFields drafts (.container shape) (.known type reply) =
      if type.kind = shape.kind then ownFields type else [] := by
  cases shape with
  | struct | request | reply => simp [Shape.kind] at hshape
  | event | error =>
    cases type with
    | mention kind name => exact absurd rfl (htype kind name)
    | container other name fields => cases other <;> rfl
    | _ => rfl

theorem copiedFields_found {drafts : List Decl} {name : Name} {d : Decl}
    (h : drafts.find? (·.name == name) = some d) (head : Head) (kind : Kind) :
    copiedFields drafts head (.own kind name) = copiedFields drafts head (.known d.type none) := by
  unfold copiedFields
  dsimp only
  rw [h]

theorem copiedFields_missing {drafts : List Decl} {name : Name}
    (h : drafts.find? (·.name == name) = none) (head : Head) (kind : Kind) :
    copiedFields drafts head (.own kind name) = [] := by
  unfold copiedFields
  dsimp only
  rw [h]

def Target.typeIn (m : Module) : Target → Ty
  | .known type _ => type
  | .own kind name => Resolve.typeIn m.decls kind name

theorem Drafted.eq_of_name {drafts : List Decl} (h : Drafted drafts) {d e : Decl} (hd : d ∈ drafts)
    (he : e ∈ drafts) (hname : d.name = e.name) : d = e := by
  have hfind := find?_name_of_nodup h.nodup hd
  rw [hname, find?_name_of_nodup h.nodup he] at hfind
  exact (Option.some.inj hfind).symm

theorem Origins.nodup {m : Module} (h : Origins m) : (m.decls.map (·.name)).Nodup := by
  obtain ⟨entries, hnodup, hnames⟩ := h.names
  rw [hnames]
  exact List.pairwise_map.mpr (hnodup.imp fun hne heq => hne (by simpa using heq))

section
variable {r : Registered}

theorem Draws.typeIn_own (h : Draws r) {d : Decl} (hd : Drawn r d) (kind : Kind) :
    (Target.own kind d.name).typeIn r.module = (spelledDraft r d).type := by
  have hfind : r.module.decls.find? (·.name == d.name) = some (spelledDraft r d) :=
    find?_name_of_nodup h.origins.nodup hd.decl
  simp only [Target.typeIn, Resolve.typeIn, hfind]

/-- What became of a copy whose reference leads to `target`; `below` says that its source is a copy that
comes later. -/
structure CopyOf (m : Module) (kind : Kind) (target : Target) (below : Prop) (d : Decl) : Prop where
  same : d.type.kind = kind
  shared : (target.typeIn m).kind = kind → ¬ below → ownFields d.type = ownFields (target.typeIn m)
  nothing : (target.typeIn m).kind ≠ kind ∨ below → ownFields d.type = []

def Below (later : List Pending) (target : Target) : Prop :=
  ∃ q ∈ later, isCopy q.element = true ∧ ∃ kind, target = .own kind q.name

theorem not_mention_of_finished {type : Ty} {reply : Option Reply} (h : Finished type reply)
    (kind : Kind) (name : Name) : type ≠ .mention kind name := by
  rintro rfl
  exact h.1.elim

/-- Copies stand among the drafts in their order, each made from those before it. -/
theorem drafts_around (herrors : (resolveDrafts r).errors = []) {p : Pending}
    {earlier later : List Pending} (hpending : r.registry.pending = earlier ++ p :: later)
    (hcopy : isCopy p.element = true) :
    ∃ before after, drafts r = before ++ (resolveCopy r.env before p).value :: after ∧
      after.map (·.name) = (later.filter (isCopy ·.element)).map (·.name) ∧
      (resolveCopy r.env before p).errors = [] := by
  have hcopies : r.registry.pending.filter (isCopy ·.element) =
      earlier.filter (isCopy ·.element) ++ p :: later.filter (isCopy ·.element) := by
    rw [hpending, List.filter_append]
    exact congrArg _ (List.filter_cons_of_pos hcopy)
  have hrest := (Noted.errors_bind_eq_nil.mp herrors).2
  rw [hcopies] at hrest
  obtain ⟨copies, after, hvalue, -, hafter, hclean⟩ := resolveCopies_split hrest
  refine ⟨_, after, ?_, hafter, hclean⟩
  rw [← hvalue, ← hcopies]
  rfl

theorem Draws.drawn (h : Draws r) {d : Decl} (hd : d ∈ drafts r) : Drawn r d := by
  obtain ⟨ps, hperm, hdrafts⟩ := resolveDrafts_drafts h.admits
  obtain ⟨p, hp, hdraft⟩ := pending_of_draft hdrafts hd
  obtain ⟨e, he, hname, -⟩ := h.draft ⟨p, hperm.mem_iff.mp hp, rfl, rfl⟩
  obtain rfl := h.drafted.eq_of_name hd he.draft (hdraft.name.trans hname.symm)
  exact he

theorem kind_resolveContents (env : Env) (isExt : Bool) (p : Pending) :
    (resolveContents env isExt p).value.type.kind = p.head.kind := by
  unfold resolveContents
  dsimp only
  split <;> rename_i hhead <;> rw [hhead] <;> rfl

theorem type_resolveCopy (env : Env) (drafts : List Decl) (p : Pending) :
    ∃ fields, (resolveCopy env drafts p).value.type = copyType p.head p.name fields := by
  unfold resolveCopy
  rw [Noted.value_bind]
  split <;> exact ⟨_, rfl⟩

theorem mem_resolveCopies {env : Env} {drafts : List Decl} {ps : List Pending} {d : Decl}
    (hd : d ∈ (resolveCopies env drafts ps).value) :
    d ∈ drafts ∨ ∃ p ∈ ps, ∃ fields, d.type = copyType p.head p.name fields := by
  induction ps generalizing drafts with
  | nil => exact .inl hd
  | cons p rest ih =>
    rcases ih hd with hd | ⟨q, hq, hcopy⟩
    · rcases List.mem_append.mp hd with hd | hd
      · exact .inl hd
      · rw [List.mem_singleton.mp hd]
        exact .inr ⟨p, List.mem_cons_self, type_resolveCopy env drafts p⟩
    · exact .inr ⟨q, List.mem_cons_of_mem _ hq, hcopy⟩

theorem mem_drafts (herrors : (resolveDrafts r).errors = []) {d : Decl} (hd : d ∈ drafts r) :
    (∃ p ∈ r.registry.pending, (resolveContents r.env r.head.isExt p).errors = [] ∧
      d = (resolveContents r.env r.head.isExt p).value) ∨
    ∃ p ∈ r.registry.pending, isCopy p.element = true ∧
      ∃ fields, d.type = copyType p.head p.name fields := by
  have hcontents := (Noted.errors_bind_eq_nil.mp herrors).1
  rcases mem_resolveCopies hd with hd | ⟨p, hp, hcopy⟩
  · rw [resolveAllContents_eq] at hd
    obtain ⟨p, hp, rfl⟩ := List.mem_map.mp hd
    exact .inl ⟨p, List.mem_of_mem_filter hp, (mem_resolveAllContents hcontents hp).1, rfl⟩
  · obtain ⟨hp, hpcopy⟩ := List.mem_filter.mp hp
    exact .inr ⟨p, hp, hpcopy, hcopy⟩

theorem below_own_iff {before after : List Decl} {d s : Decl} {later : List Pending}
    (h : Drafted (before ++ d :: after))
    (hafter : after.map (·.name) = (later.filter (isCopy ·.element)).map (·.name))
    (hs : s ∈ before ++ d :: after) (kind : Kind) : Below later (.own kind s.name) ↔ s ∈ after := by
  have hmem : s.name ∈ after.map (·.name) ↔ ∃ q ∈ later, isCopy q.element = true ∧ s.name = q.name := by
    rw [hafter]
    simp only [List.mem_map, List.mem_filter, and_assoc, eq_comm (b := s.name)]
  constructor
  · rintro ⟨q, hq, hcopy, _, htarget⟩
    obtain ⟨-, hname⟩ := Target.own.inj htarget
    obtain ⟨a, ha, hsame⟩ := List.mem_map.mp (hmem.mpr ⟨q, hq, hcopy, hname⟩)
    obtain rfl := h.eq_of_name (List.mem_append_right _ (List.mem_cons_of_mem _ ha)) hs hsame
    exact ha
  · intro ha
    obtain ⟨q, hq, hcopy, hname⟩ := hmem.mp (List.mem_map_of_mem ha)
    exact ⟨q, hq, hcopy, kind, by rw [hname]⟩

abbrev copyWith (shape : Shape) (name : Name) (fields : List Field) : Decl :=
  ⟨name, copyType (.container shape) name fields, none⟩

theorem copyOf_fields {shape : Shape} {name : Name} {fields : List Field} {target : Target} {below : Prop}
    (hshared : (target.typeIn r.module).kind = shape.kind → ¬ below →
      replaceInFields (leafAt (drafts r) (spelledDepth r.unrolling (drafts r))) fields =
        ownFields (target.typeIn r.module))
    (hnothing : (target.typeIn r.module).kind ≠ shape.kind ∨ below → fields = []) :
    CopyOf r.module shape.kind target below
      (spelledDraft r (copyWith shape name fields)) where
  same := rfl
  shared hkind hbelow := (ownFields_spell _ _).trans (hshared hkind hbelow)
  nothing hnot := by
    rw [ownFields_spell, hnothing hnot]
    rfl

theorem copyOf_known {shape : Shape} (hshape : shape.kind = .event ∨ shape.kind = .error) {type : Ty}
    {reply : Option Reply} (hfinished : Finished type reply) (later : List Pending)
    (before : List Decl) (name : Name) :
    CopyOf r.module shape.kind (.known type reply) (Below later (.known type reply))
      (spelledDraft r (copyWith shape name
        (copiedFields before (.container shape) (.known type reply)))) := by
  have hfields := copiedFields_known hshape (not_mention_of_finished hfinished) before reply
  have hbelow : ¬ Below later (.known type reply) := by
    rintro ⟨_, -, -, _, htarget⟩
    cases htarget
  apply copyOf_fields
  · intro (hkind : type.kind = shape.kind) _
    rw [hfields, if_pos hkind]
    cases type with
    | container => exact replaceInFields_of_whole _ _ hfinished.1
    | union => rcases hshape with hshape | hshape <;> rw [hshape] at hkind <;> cases hkind
    | _ => rfl
  · intro hnot
    have hkind : type.kind ≠ shape.kind := hnot.resolve_right hbelow
    rw [hfields, if_neg hkind]

theorem copiedFields_own {before after : List Decl} {d s : Decl} (h : Drafted (before ++ d :: after))
    {shape : Shape} (hshape : shape.kind = .event ∨ shape.kind = .error) (hs : s ∈ before) (kind : Kind) :
    copiedFields before (.container shape) (.own kind s.name) =
      if s.type.kind = shape.kind then ownFields s.type else [] := by
  have hnodup : (before.map (·.name)).Nodup :=
    h.nodup.sublist ((List.sublist_append_left _ _).map _)
  have hown := h.own s (List.mem_append_left _ hs)
  rw [copiedFields_found (find?_name_of_nodup hnodup hs)]
  refine copiedFields_known hshape (fun _ _ htype => ?_) before none
  rw [DeclaresOwn, htype] at hown
  exact hown.elim

theorem copiedFields_of_not_mem {before after : List Decl} {d s : Decl}
    (h : Drafted (before ++ d :: after)) (hmem : s ∈ before ++ d :: after) (hs : s ∉ before)
    (head : Head) (kind : Kind) : copiedFields before head (.own kind s.name) = [] := by
  apply copiedFields_missing
  refine List.find?_eq_none.mpr fun e he hname => hs ?_
  rw [← h.eq_of_name (List.mem_append_left _ he) hmem (beq_iff_eq.mp hname)]
  exact he

theorem Draws.copyOf_own (h : Draws r) {shape : Shape}
    (hshape : shape.kind = .event ∨ shape.kind = .error) {before after : List Decl} {name : Name}
    {s : Decl} (hs : Drawn r s) {kind : Kind}
    (hdrafts : drafts r = before ++ copyWith shape name
      (copiedFields before (.container shape) (.own kind s.name)) :: after) {later : List Pending}
    (hafter : after.map (·.name) = (later.filter (isCopy ·.element)).map (·.name)) :
    CopyOf r.module shape.kind (.own kind s.name) (Below later (.own kind s.name))
      (spelledDraft r (copyWith shape name
        (copiedFields before (.container shape) (.own kind s.name)))) := by
  have hdrafted : Drafted (before ++ _ :: after) := hdrafts ▸ h.drafted
  have hmem : s ∈ before ++ _ :: after := hdrafts ▸ hs.draft
  have hbelow := below_own_iff hdrafted hafter hmem kind
  have htype := h.typeIn_own hs kind
  by_cases hearlier : s ∈ before
  · have hfields := copiedFields_own hdrafted hshape hearlier kind
    have hnotAfter : s ∉ after := fun hlater => by
      have hnames := hdrafted.nodup
      rw [List.map_append, List.nodup_append] at hnames
      exact hnames.2.2 _ (List.mem_map_of_mem hearlier) _
        (List.mem_map_of_mem (List.mem_cons_of_mem _ hlater)) rfl
    apply copyOf_fields
    · intro hkind _
      rw [htype, kind_spell] at hkind
      rw [hfields, if_pos hkind, htype, ownFields_spell]
      rfl
    · intro hnot
      rw [hbelow, htype, kind_spell] at hnot
      rw [hfields, if_neg (hnot.resolve_right hnotAfter)]
  · have hnone := copiedFields_of_not_mem hdrafted hmem hearlier (.container shape) kind
    apply copyOf_fields
    · intro _ hnot
      rw [hbelow] at hnot
      -- What remains is a copy of itself.
      have hself := (List.mem_cons.mp ((List.mem_append.mp hmem).resolve_left hearlier)).resolve_right hnot
      rw [htype, ownFields_spell]
      exact congrArg (fun d => replaceInFields _ (ownFields d.type)) hself.symm
    · exact fun _ => hnone

/-- A copy has the fields of its source, unless that is a message of another kind or a copy that comes
later; then it has none. -/
theorem Draws.copy (h : Draws r) (herrors : (resolveDrafts r).errors = []) {p : Pending}
    {earlier later : List Pending} {shape : Shape}
    (hpending : r.registry.pending = earlier ++ p :: later) (hcopy : isCopy p.element = true)
    (hhead : p.head = .container shape) (hshape : shape.kind = .event ∨ shape.kind = .error) :
    ∃ ref target index d, p.element.attr? "ref" = some ref ∧
      r.env.lookup? ref = some (target, index) ∧ d ∈ r.module.decls ∧ d.name = p.name ∧
      CopyOf r.module shape.kind target (Below later target) d := by
  obtain ⟨before, after, hdrafts, hafter, hclean⟩ := drafts_around herrors hpending hcopy
  obtain ⟨ref, target, index, href, hlookup, hvalue⟩ := resolveCopy_of_errors hclean
  rw [hhead] at hvalue
  rw [hvalue] at hdrafts
  have hdrawn := h.drawn (hdrafts ▸ List.mem_append_right _ List.mem_cons_self)
  refine ⟨ref, target, index, _, href, hlookup, hdrawn.decl, rfl, ?_⟩
  have hfrom : TargetFrom r.imports r.registry.pending target :=
    offered_from r.env h.registers.targets ⟨ref, index, hlookup⟩
  cases hfrom with
  | @scalar _ scalar _ =>
    have hfinished : Finished (.simple [scalar]) none := ⟨trivial, by simp⟩
    exact copyOf_known hshape hfinished _ _ _
  | @imported i d hi hd => exact copyOf_known hshape ((h.imports i hi i.module .refl).2 d hd) _ _ _
  | own hown =>
    obtain ⟨s, hs, rfl, rfl⟩ := h.draft hown
    exact h.copyOf_own hshape hs hdrafts hafter

end

/-- The source of a copy is itself a copy, among the elements that come after it. -/
def CopiedBelow (m : Module) (after : List Element) (target : Target) : Prop :=
  ∃ c ∈ after, isCopy c = true ∧
    ∃ name kind, c.attr? "name" = some name ∧ target = .own kind (declPath m ++ [name])

theorem below_iff {m : Module} {after : List Element} {later : List Pending}
    (h : AddedBy (declPath m) after later) (target : Target) :
    Below later target ↔ CopiedBelow m after target := by
  constructor
  · rintro ⟨q, hq, hcopy, kind, rfl⟩
    obtain ⟨c, hc, rfl, name, hname, hcalled⟩ := h.called q hq
    exact ⟨q.element, hc, hcopy, name, kind, hname, by rw [hcalled]⟩
  · rintro ⟨c, hc, hcopy, name, kind, hname, rfl⟩
    obtain ⟨q, hq, rfl, other, hother, hcalled⟩ := h.copies c hc hcopy
    obtain rfl := Option.some.inj (hname.symm.trans hother)
    exact ⟨q, hq, hcopy, kind, by rw [hcalled]⟩

theorem copiedKind_cases (e : Element) : copiedKind e = .event ∨ copiedKind e = .error := by
  unfold copiedKind
  split
  · exact .inl rfl
  · exact .inr rfl

/-- Resolution without errors declares every copy as a message of its kind, and finds what its reference
stands for. Where that is a message of the same kind, the copy has exactly the fields of its source,
unless the source is a copy that comes later and has fields. In that case, and where the source is
something else, the copy has no fields at all. -/
theorem copies_share_fields_iff (set : ModuleSet) (hset : Compiled set) (root : Element)
    (h : (resolve set root).errors = []) {before after : List Element} {e : Element}
    (hchildren : root.children = before ++ e :: after) (he : isCopy e = true) :
    ∃ m name ref target index d, (resolve set root).module? = some m ∧
      e.attr? "name" = some name ∧ e.attr? "ref" = some ref ∧
      (namesIn set root).lookup? ref = some (target, index) ∧
      m.find? name = some d ∧ d.type.kind = copiedKind e ∧
      ((target.typeIn m).kind = copiedKind e →
        (ownFields d.type = ownFields (target.typeIn m) ↔
          ¬ (CopiedBelow m after target ∧ ownFields (target.typeIn m) ≠ []))) ∧
      ((target.typeIn m).kind ≠ copiedKind e ∨ CopiedBelow m after target → ownFields d.type = []) := by
  obtain ⟨header, hheader, hregister, hdrafts, hmodule⟩ := resolve_without_errors h
  have hnames : namesIn set root = (registerModule set header root).value.env := by
    rw [namesIn, Element.attrD, hheader, Option.getD_some]
  have hdraws : Draws (registerModule set header root).value :=
    ⟨registers_of_registerModule set header root,
      fun i hi => grounded_of_compiled hset _ (resolveImports_mem _ i hi)⟩
  have hregisterAll := (Noted.errors_bind_eq_nil.mp (Noted.errors_bind_eq_nil.mp
    (Noted.errors_bind_eq_nil.mp hregister).2).2).1
  -- the copies that come after `e` are pending after it
  rw [hchildren] at hregisterAll
  obtain ⟨name, shape, earlier, later, hname, hkind, hpending, hadded⟩ :=
    registerAll_split he hregisterAll
  rw [← hchildren] at hpending
  obtain ⟨ref, target, index, d, href, hlookup, hd, hcalled, hcopy⟩ :=
    hdraws.copy hdrafts hpending he rfl (hkind ▸ copiedKind_cases e)
  rw [hkind, below_iff hadded target] at hcopy
  rw [← hnames] at hlookup
  refine ⟨_, name, ref, target, index, d, hmodule, hname, href, hlookup,
    find?_of_mem hdraws.origins hd hcalled, hcopy.same, fun hsame => ?_, hcopy.nothing⟩
  constructor
  · rintro hshared ⟨hbelow, hfields⟩
    exact hfields (hshared ▸ hcopy.nothing (.inr hbelow))
  · intro hnot
    -- a source that comes later makes no difference if it has no fields
    by_cases hbelow : CopiedBelow (registerModule set header root).value.module after target
    · have hempty : ownFields (target.typeIn (registerModule set header root).value.module) = [] :=
        Classical.byContradiction fun hfields => hnot ⟨hbelow, hfields⟩
      rw [hempty, hcopy.nothing (.inr hbelow)]
    · exact hcopy.shared hsame hbelow

def leave : Element := described "eventcopy" [("name", "Leave"), ("number", "8"), ("ref", "Enter")] []

def gone : Element := described "eventcopy" [("name", "Gone"), ("number", "9"), ("ref", "Leave")] []

def enter : Element :=
  described "event" [("name", "Enter"), ("number", "7")]
    [described "field" [("type", "CARD8"), ("name", "detail")] []]

def crossing : Element := described "xcb" [("header", "crossing")] [leave, gone, enter]

theorem copies_share_fields_iff_crossing :
    (resolve .empty crossing).errors = [] ∧
    ∃ m d target index, (resolve .empty crossing).module? = some m ∧ m.find? "Gone" = some d ∧
      (namesIn .empty crossing).lookup? "Leave" = some (target, index) ∧
      ownFields d.type = ownFields (target.typeIn m) := by
  have herrors : (resolve .empty crossing).errors = [] := by decide +kernel
  have hchildren : crossing.children = [leave] ++ gone :: [enter] := rfl
  obtain ⟨m, name, ref, target, index, d, hm, hname, href, hlookup, hd, -, hshared, -⟩ :=
    copies_share_fields_iff .empty (.empty 0) crossing herrors hchildren rfl
  obtain rfl := Option.some.inj hname
  obtain rfl := Option.some.inj href
  have hkind : ((namesIn .empty crossing).lookup? "Leave").bind (fun answer =>
      (resolve .empty crossing).module?.map fun m => (answer.1.typeIn m).kind) = some .event := by
    decide +kernel
  have hlast : ¬ CopiedBelow m [enter] target := by
    rintro ⟨c, hc, hcopy, -⟩
    rw [List.mem_singleton.mp hc] at hcopy
    cases hcopy
  refine ⟨herrors, m, d, target, index, hm, hd, hlookup, (hshared ?_).mpr fun hbelow => hlast hbelow.1⟩
  rw [hlookup, hm] at hkind
  exact Option.some.inj hkind

def crossingReversed : Element := described "xcb" [("header", "crossing")] [gone, leave, enter]

/-- A copy that comes before the copy it refers to has no fields. -/
theorem copy_before_its_source :
    (resolve .empty crossingReversed).errors = [] ∧
    ((namesIn .empty crossingReversed).lookup? "Leave").map (·.1.type.typeName) = some ["xcb", "Leave"] ∧
    (resolve .empty crossingReversed).module?.map (fun m =>
      m.decls.map fun d => (d.name, d.type.kind, (ownFields d.type).map (·.name))) =
      some [(["xcb", "Gone"], .event, []),
        (["xcb", "Leave"], .event, ["response_type", "detail", "sequence"]),
        (["xcb", "Enter"], .event, ["response_type", "detail", "sequence"])] := by
  decide +kernel

end CodecGen.Resolve
