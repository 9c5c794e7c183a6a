import CodecGen.Proofs.MessageLayout
import CodecGen.Proofs.NotePlaces
set_option autoImplicit false
/-!
Where diagnostics point. Every error and every warning takes its place from an element that is being
looked at, and only elements of the tree are: the parts of a branch are taken from its children as they
stand, and the header of a message comes from no element at all.
-/
namespace CodecGen.Resolve
open Schema Markup

section
variable {S : Span → Prop} {env : Env}

theorem declare_points (r : Registry) {e : Element} (h : Covers S e) (name : String) (target : Target)
    (pending : List Pending) : Points S (declare r e name target pending) := by
  unfold declare
  split
  · exact .bind (.error () h.self) (.pure _)
  · exact .pure _

theorem head?_points {e : Element} (h : Covers S e) {head : Noted Head} (hhead : head? e = some head) :
    Points S head := by
  unfold head? at hhead
  split at hhead
  all_goals first
    | exact Option.some.inj hhead ▸ .pure _
    | exact Option.some.inj hhead ▸ (intAttr_points h _ _).map
    | cases hhead

theorem registerTypedef_points (env : Env) (r : Registry) {e : Element} (h : Covers S e) :
    Points S (registerTypedef env r e) := by
  unfold registerTypedef
  refine (requireAttr_points h "oldname").bind ((requireAttr_points h "newname").bind ?_)
  split
  · refine (lookupType_points _ _ h.self).bind ?_
    split
    · exact declare_points r h _ _ []
    · exact .pure _
  · exact .pure _

theorem register_points (env : Env) (path : Name) (r : Registry) {e : Element} (h : Covers S e) :
    Points S (register env path r e) := by
  unfold register
  split
  · exact .pure _
  · refine (requireAttr_points h "name").bind ?_
    split
    · exact declare_points r h _ _ []
    · exact .pure _
  · refine (requireAttr_points h "name").bind ?_
    split
    · exact declare_points r h _ _ []
    · exact .pure _
  · exact registerTypedef_points env r h
  · split
    · next head hhead =>
      refine (requireAttr_points h "name").bind ?_
      split
      · exact (head?_points h hhead).bind (declare_points r h _ _ _)
      · exact .pure _
    · exact .bind (.warning () h.self) (.pure _)

theorem registerAll_points (env : Env) (path : Name) (r : Registry) {es : List Element}
    (h : ∀ e ∈ es, Covers S e) : Points S (registerAll env path r es) := by
  induction es generalizing r with
  | nil => exact .pure _
  | cons e rest ih =>
    rw [List.forall_mem_cons] at h
    exact (register_points env path r h.1).bind (ih _ h.2)

theorem resolveItem_points (name : String) {e : Element} (h : Covers S e) :
    Points S (resolveItem name e) := by
  unfold resolveItem
  split
  · exact (natural_points h).handOn
  · exact (bitPosition_points h).handOn
  · exact .bind (.warning () h.self) (.pure _)

theorem resolveItems_points (enum : String) (seen : List String) (next : Int) {es : List Element}
    (h : ∀ e ∈ es, Covers S e) : Points S (resolveItems enum seen next es) := by
  induction es generalizing seen next with
  | nil => exact .pure _
  | cons e rest ih =>
    rw [List.forall_mem_cons] at h
    have hrest := fun seen next => ih seen next h.2
    unfold resolveItems
    refine (requireAttr_points h.1 "name").bind ?_
    split
    · exact hrest seen next
    · split
      · exact .bind (.warning () h.1.self) (hrest seen next)
      · split
        · exact (hrest _ _).handOn
        · next child _ hchildren =>
          refine (resolveItem_points _ (h.1.first hchildren)).bind ?_
          split
          · exact hrest _ next
          · exact (hrest _ _).handOn

theorem resolveContents_points (env : Env) (isExt : Bool) {p : Pending} (h : Covers S p.element) :
    Points S (resolveContents env isExt p) := by
  have hmembers := fun place => resolveMembers_points env place 0 p.element.children h.children
  have hitems : ∀ e ∈ p.element.elements "item", Covers S e :=
    fun e he => h.children e (List.mem_of_mem_filter he)
  unfold resolveContents
  dsimp only
  split
  · exact (resolveItems_points _ _ _ hitems).handOn.map
  · exact (hmembers _).handOn.map
  · exact (hmembers _).handOn
  · exact (hmembers _).handOn.map
  · exact (hmembers _).handOn.map
  · exact (hmembers _).handOn.map

theorem resolveAllContents_points (env : Env) (isExt : Bool) {ps : List Pending}
    (h : ∀ p ∈ ps, Covers S p.element) : Points S (resolveAllContents env isExt ps) := by
  induction ps with
  | nil => exact .pure _
  | cons p rest ih =>
    rw [List.forall_mem_cons] at h
    exact (resolveContents_points env isExt h.1).bind (ih h.2).handOn

theorem resolveCopy_points (env : Env) (drafts : List Decl) {p : Pending} (h : Covers S p.element) :
    Points S (resolveCopy env drafts p) := by
  unfold resolveCopy
  refine (requireAttr_points h "ref").bind ?_
  split
  · exact (lookupType_points env _ h.self).handOn
  · exact (Points.pure none).handOn

theorem resolveCopies_points (env : Env) (drafts : List Decl) {ps : List Pending}
    (h : ∀ p ∈ ps, Covers S p.element) : Points S (resolveCopies env drafts ps) := by
  induction ps generalizing drafts with
  | nil => exact .pure _
  | cons p rest ih =>
    rw [List.forall_mem_cons] at h
    exact (resolveCopy_points env drafts h.1).bind (ih _ h.2)

theorem resolveHead_points (header : String) {root : Element} (h : Covers S root) :
    Points S (resolveHead header root) := by
  unfold resolveHead
  split
  · exact .pure _
  · exact (intAttr_points h _ _).bind (intAttr_points h _ _).handOn

theorem resolveImports_points (set : ModuleSet) {es : List Element} (h : ∀ e ∈ es, Covers S e) :
    Points S (resolveImports set es) := by
  induction es with
  | nil => exact .pure _
  | cons e rest ih =>
    rw [List.forall_mem_cons] at h
    unfold resolveImports
    split
    · exact (ih h.2).handOn
    · exact .bind (.error () h.1.self) (ih h.2)

theorem spans_resolveImports (set : ModuleSet) {es : List Element} (h : ∀ e ∈ es, Covers S e) :
    ∀ i ∈ (resolveImports set es).value, S i.span := by
  induction es with
  | nil => exact fun _ hi => absurd hi List.not_mem_nil
  | cons e rest ih =>
    rw [List.forall_mem_cons] at h
    unfold resolveImports
    split
    · exact List.forall_mem_cons.2 ⟨h.1.self, ih h.2⟩
    · exact ih h.2

theorem registerModule_points (set : ModuleSet) (header : String) {root : Element}
    (h : Covers S root) : Points S (registerModule set header root) := by
  have himports : ∀ e ∈ root.elements "import", Covers S e :=
    fun e he => h.children e (List.mem_of_mem_filter he)
  refine (resolveHead_points header h).bind ((resolveImports_points set himports).bind ?_)
  exact (registerAll_points _ _ _ h.children).handOn

theorem covers_pending (set : ModuleSet) (header : String) {root : Element} (h : Covers S root) :
    ∀ p ∈ (registerModule set header root).value.registry.pending, Covers S p.element := by
  intro p hp
  rcases registerAll_made hp with hp | ⟨e, he, _, _, -, -, rfl⟩
  · exact absurd hp List.not_mem_nil
  · exact h.children e he

theorem resolveDrafts_points {r : Registered} (h : ∀ p ∈ r.registry.pending, Covers S p.element) :
    Points S (resolveDrafts r) := by
  refine (resolveAllContents_points _ _ ?_).bind (resolveCopies_points _ _ ?_)
  · exact fun p hp => h p (List.mem_of_mem_filter hp)
  · exact fun p hp => h p (List.mem_of_mem_filter hp)

theorem spans_unusedImports (used : List Note) (index : Nat) {imports : List Import}
    (h : ∀ i ∈ imports, S i.span) : ∀ w ∈ unusedImports used index imports, S w.span := by
  induction imports generalizing index with
  | nil => exact fun _ hw => absurd hw List.not_mem_nil
  | cons i rest ih =>
    rw [List.forall_mem_cons] at h
    unfold unusedImports
    split
    · exact ih _ h.2
    · exact List.forall_mem_cons.2 ⟨h.1, ih _ h.2⟩

theorem resolve_points (set : ModuleSet) {root : Element} (h : Covers S root) :
    (∀ e ∈ (resolve set root).errors, S e.span) ∧ ∀ w ∈ (resolve set root).warnings, S w.span := by
  unfold resolve
  split
  · exact ⟨List.forall_mem_singleton.2 h.self, fun _ hw => absurd hw List.not_mem_nil⟩
  · next header hheader =>
    have hregister := registerModule_points set header h
    have hdrafts := resolveDrafts_points (covers_pending set header h)
    have himports : ∀ i ∈ (registerModule set header root).value.imports, S i.span :=
      spans_resolveImports set fun e he => h.children e (List.mem_of_mem_filter he)
    dsimp only
    split
    · exact ⟨hregister.errors, hregister.warnings⟩
    · have hwarnings : ∀ w ∈ (registerModule set header root).warnings ++
          (resolveDrafts (registerModule set header root).value).warnings ++
          unusedImports ((registerModule set header root).notes ++
            (resolveDrafts (registerModule set header root).value).notes) 0
            (registerModule set header root).value.imports, S w.span := by
        rw [List.forall_mem_append, List.forall_mem_append]
        exact ⟨⟨hregister.warnings, hdrafts.warnings⟩, spans_unusedImports _ 0 himports⟩
      split
      · exact ⟨hdrafts.errors, hwarnings⟩
      · exact ⟨fun _ he => absurd he List.not_mem_nil, hwarnings⟩

theorem errors_eq_nil_iff (set : ModuleSet) (root : Element) :
    (resolve set root).errors = [] ↔ ∃ m, (resolve set root).module? = some m := by
  unfold resolve
  split
  · simp
  · dsimp only
    split
    · next herrors => simpa using herrors
    · split
      · next herrors => simpa using herrors
      · simp

end

theorem encloses_of_parse {src : Bytes} {root : Element} (h : parse src = .ok root) :
    ∀ x ∈ root.preorder, x.Encloses src := by
  obtain ⟨hi, hspaced⟩ := spaced_of_parse h
  intro x hx
  exact hspaced.encloses x (mem_preorderOf_of_mem List.mem_cons_self hx)

/-- The element that a diagnostic is about: it stands in the source from its start tag through its end
tag, and its span is the place of the diagnostic. -/
def PointsInto (src : Bytes) (root : Element) (span : Span) : Prop :=
  ∃ x ∈ root.preorder, x.Encloses src ∧ x.span = span

theorem not_pointsInto_branchBody (src : Bytes) (root branch : Element) :
    ¬ PointsInto src root (branchBody branch).span := by
  rintro ⟨x, -, hencloses, hspan⟩
  have hlt := hencloses.start_lt_stop
  rw [hspan] at hlt
  simp [branchBody, Span.stop] at hlt

/-- Errors and warnings about an accepted source are placed at elements of its tree, never at the body
that is made up for a branch, and there is a module exactly if there are no errors. -/
theorem diagnostics_point_into_source (src : Bytes) (root : Element) (hparse : parse src = .ok root)
    (set : ModuleSet) :
    (∀ e ∈ (resolve set root).errors, PointsInto src root e.span) ∧
      (∀ w ∈ (resolve set root).warnings, PointsInto src root w.span) ∧
      (∀ branch, ¬ PointsInto src root (branchBody branch).span) ∧
      ((resolve set root).errors.length = 0 ↔ ∃ m, (resolve set root).module? = some m) := by
  have hcovers : Covers (PointsInto src root) root :=
    fun x hx => ⟨x, hx, encloses_of_parse hparse x hx, rfl⟩
  obtain ⟨herrors, hwarnings⟩ := resolve_points set hcovers
  refine ⟨herrors, hwarnings, not_pointsInto_branchBody src root, ?_⟩
  rw [List.length_eq_zero_iff]
  exact errors_eq_nil_iff set root

def misplaced : Bytes :=
  Text.Utf8.encode ("<xcb header=\"m\"><request name=\"R\"><switch name=\"s\"><fieldref>x</fieldref>" ++
    "<case><value>1</value><switch name=\"t\"><fieldref>x</fieldref><case><value>2</value><reply/>" ++
    "</case></switch></case></switch></request><extra/></xcb>")

theorem diagnostics_point_into_source_misplaced :
    ∃ root, parse misplaced = .ok root ∧
      (resolve .empty root).errors = [⟨.replyOutsideRequest "xcb:R:s:t", ⟨156, 8⟩⟩] ∧
      (resolve .empty root).warnings = [⟨.ignoredElement "extra", ⟨206, 8⟩⟩] ∧
      PointsInto misplaced root ⟨156, 8⟩ ∧ PointsInto misplaced root ⟨206, 8⟩ ∧
      ¬ ∃ m, (resolve .empty root).module? = some m := by
  have hnotes : (parse misplaced).toOption.map
      (fun root => ((resolve .empty root).errors, (resolve .empty root).warnings)) =
      some ([⟨.replyOutsideRequest "xcb:R:s:t", ⟨156, 8⟩⟩], [⟨.ignoredElement "extra", ⟨206, 8⟩⟩]) := by
    decide +kernel
  cases hparse : parse misplaced with
  | error err =>
    rw [hparse] at hnotes
    cases hnotes
  | ok root =>
    rw [hparse] at hnotes
    obtain ⟨herrors, hwarnings⟩ := Prod.mk.inj (Option.some.inj hnotes)
    obtain ⟨herror, hwarning, -, hmodule⟩ := diagnostics_point_into_source misplaced root hparse .empty
    rw [herrors] at herror hmodule
    rw [hwarnings] at hwarning
    refine ⟨root, rfl, herrors, hwarnings, herror _ List.mem_cons_self, hwarning _ List.mem_cons_self, ?_⟩
    rw [← hmodule]
    simp

end CodecGen.Resolve
