import CodecGen.Proofs.LaidOutContents
import CodecGen.Proofs.ReorderedContents
set_option autoImplicit false
/-!
Copies that are still to be resolved. They come after everything else, in the order of the description,
and each of them sees the drafts of those before it.
-/
namespace CodecGen.Resolve
open Schema Markup

def copiedKind (e : Element) : Kind := if e.tag == "eventcopy" then .event else .error

section
variable {env : Env} {path : Name} {r : Registry}

def CalledBy (path : Name) (e : Element) (p : Pending) : Prop :=
  p.element = e ∧ ∃ name, e.attr? "name" = some name ∧ p.name = path ++ [name]

def Grows (path : Name) (e : Element) (r r' : Registry) : Prop :=
  ∃ more, r'.pending = r.pending ++ more ∧ ∀ p ∈ more, CalledBy path e p

theorem register_grows (env : Env) (path : Name) (r : Registry) (e : Element) :
    Grows path e r (register env path r e).value := by
  rcases pending_register env path r e with hsame | ⟨p, ⟨name, head, -, hname, rfl⟩, hmore⟩
  · exact ⟨[], by rw [hsame, List.append_nil], by simp⟩
  · have hcalled : CalledBy path e ⟨e, path ++ [name], head.value⟩ := ⟨rfl, name, hname, rfl⟩
    exact ⟨_, hmore, by simpa using hcalled⟩

theorem declare_pending {e : Element} {name : String} {target : Target} {pending : List Pending}
    (h : (declare r e name target pending).errors = []) :
    (declare r e name target pending).value.pending = r.pending ++ pending := by
  unfold declare at h ⊢
  split
  · next hlookup =>
    rw [hlookup] at h
    cases h
  · rfl

theorem head?_of_isCopy {e : Element} (h : isCopy e = true) :
    ∃ head shape, head? e = some head ∧ head.value = .container shape ∧ shape.kind = copiedKind e := by
  have htag : e.tag = "eventcopy" ∨ e.tag = "errorcopy" := by simpa [isCopy] using h
  unfold head? copiedKind
  rcases htag with htag | htag <;> rw [htag]
  · exact ⟨_, _, rfl, rfl, rfl⟩
  · exact ⟨_, _, rfl, rfl, rfl⟩

theorem register_copy {e : Element} (he : isCopy e = true) (h : (register env path r e).errors = []) :
    ∃ name shape, e.attr? "name" = some name ∧ shape.kind = copiedKind e ∧
      (register env path r e).value.pending =
        r.pending ++ [⟨e, path ++ [name], .container shape⟩] := by
  obtain ⟨head, shape, hhead, hshape, hkind⟩ := head?_of_isCopy he
  unfold register at h ⊢
  split at h
  case h_5 =>
    rw [hhead] at h ⊢
    dsimp only at h ⊢
    rw [Noted.errors_bind_eq_nil] at h
    obtain ⟨name, hvalue, hname⟩ := requireAttr_succeeds e "name" h.1
    rw [hvalue] at h
    have herrors := (Noted.errors_bind_eq_nil.mp h.2).2
    refine ⟨name, shape, hname, hkind, ?_⟩
    rw [Noted.value_bind, hvalue]
    change (declareOwn path r e name head.value).value.pending = _
    rw [hshape] at herrors ⊢
    exact declare_pending herrors
  -- The other elements register no copies.
  all_goals
    rename_i htag
    rw [isCopy, htag] at he
    cases he

/-- What several elements add: declarations called by them, and one for every copy. -/
structure AddedBy (path : Name) (es : List Element) (more : List Pending) : Prop where
  called : ∀ p ∈ more, ∃ e ∈ es, CalledBy path e p
  copies : ∀ c ∈ es, isCopy c = true → ∃ p ∈ more, CalledBy path c p

theorem registerAll_adds {es : List Element} (h : (registerAll env path r es).errors = []) :
    ∃ more, (registerAll env path r es).value.pending = r.pending ++ more ∧ AddedBy path es more := by
  induction es generalizing r with
  | nil => exact ⟨[], (List.append_nil _).symm, by simp, by simp⟩
  | cons e rest ih =>
    rw [registerAll, Noted.errors_bind_eq_nil] at h
    obtain ⟨one, hone, hcalled⟩ := register_grows env path r e
    obtain ⟨more, hmore, hadded⟩ := ih h.2
    rw [hone, List.append_assoc] at hmore
    refine ⟨one ++ more, hmore, ?_, ?_⟩
    · intro p hp
      rcases List.mem_append.mp hp with hp | hp
      · exact ⟨e, List.mem_cons_self, hcalled p hp⟩
      · obtain ⟨c, hc, hby⟩ := hadded.called p hp
        exact ⟨c, List.mem_cons_of_mem _ hc, hby⟩
    · intro c hc hcopy
      rcases List.mem_cons.mp hc with rfl | hc
      · obtain ⟨name, shape, -, -, hpending⟩ := register_copy hcopy h.1
        obtain rfl := List.append_cancel_left (hone.symm.trans hpending)
        exact ⟨_, List.mem_append_left _ List.mem_cons_self, hcalled _ List.mem_cons_self⟩
      · obtain ⟨p, hp, hby⟩ := hadded.copies c hc hcopy
        exact ⟨p, List.mem_append_right _ hp, hby⟩

theorem registerAll_append (env : Env) (path : Name) (r : Registry) (es more : List Element) :
    registerAll env path r (es ++ more) = (do
      let r ← registerAll env path r es
      registerAll env path r more) := by
  induction es generalizing r with
  | nil => rw [List.nil_append, registerAll, pure_bind]
  | cons e rest ih =>
    rw [List.cons_append, registerAll, registerAll, bind_assoc]
    exact congrArg (register env path r e >>= ·) (funext fun r => ih r)

theorem registerAll_split {before after : List Element} {e : Element} (he : isCopy e = true)
    (h : (registerAll env path {} (before ++ e :: after)).errors = []) :
    ∃ name shape earlier later, e.attr? "name" = some name ∧ shape.kind = copiedKind e ∧
      (registerAll env path {} (before ++ e :: after)).value.pending =
        earlier ++ ⟨e, path ++ [name], .container shape⟩ :: later ∧ AddedBy path after later := by
  rw [registerAll_append] at h ⊢
  obtain ⟨-, h⟩ := Noted.errors_bind_eq_nil.mp h
  rw [registerAll, Noted.errors_bind_eq_nil] at h
  obtain ⟨name, shape, hname, hkind, hpending⟩ := register_copy he h.1
  obtain ⟨later, hlater, hadded⟩ := registerAll_adds h.2
  rw [hpending, List.append_assoc] at hlater
  exact ⟨name, shape, _, later, hname, hkind, hlater, hadded⟩

end

section
variable {env : Env}

theorem resolveCopies_grows (env : Env) (drafts : List Decl) (ps : List Pending) :
    ∃ copies, (resolveCopies env drafts ps).value = drafts ++ copies ∧
      copies.map (·.name) = ps.map (·.name) := by
  induction ps generalizing drafts with
  | nil => exact ⟨[], (List.append_nil _).symm, rfl⟩
  | cons p rest ih =>
    obtain ⟨copies, hvalue, hnames⟩ := ih (drafts ++ [(resolveCopy env drafts p).value])
    refine ⟨(resolveCopy env drafts p).value :: copies, ?_, ?_⟩
    · rw [resolveCopies, Noted.value_bind, hvalue, List.append_assoc, List.singleton_append]
    · rw [List.map_cons, List.map_cons, name_resolveCopy, hnames]

theorem resolveCopies_append (env : Env) (drafts : List Decl) (ps more : List Pending) :
    resolveCopies env drafts (ps ++ more) = (do
      let drafts ← resolveCopies env drafts ps
      resolveCopies env drafts more) := by
  induction ps generalizing drafts with
  | nil => rw [List.nil_append, resolveCopies, pure_bind]
  | cons p rest ih =>
    rw [List.cons_append, resolveCopies, resolveCopies, bind_assoc]
    exact congrArg (resolveCopy env drafts p >>= ·) (funext fun one => ih (drafts ++ [one]))

theorem resolveCopy_of_errors {drafts : List Decl} {p : Pending}
    (h : (resolveCopy env drafts p).errors = []) :
    ∃ ref target index, p.element.attr? "ref" = some ref ∧ env.lookup? ref = some (target, index) ∧
      (resolveCopy env drafts p).value =
        { name := p.name, type := copyType p.head p.name (copiedFields drafts p.head target) } := by
  unfold resolveCopy at h ⊢
  rw [Noted.errors_bind_eq_nil] at h
  obtain ⟨ref, hvalue, href⟩ := requireAttr_succeeds p.element "ref" h.1
  rw [hvalue] at h
  obtain ⟨target, htarget, index, hlookup⟩ :=
    lookupType_succeeds env ref p.element.span (Noted.errors_bind_eq_nil.mp h.2).1
  refine ⟨ref, target, index, href, hlookup, ?_⟩
  rw [Noted.value_bind, hvalue]
  dsimp only
  rw [Noted.value_bind, htarget]
  rfl

/-- The copy in the middle is made from the drafts before it. -/
theorem resolveCopies_split {drafts : List Decl} {before after : List Pending} {p : Pending}
    (h : (resolveCopies env drafts (before ++ p :: after)).errors = []) :
    ∃ earlier later, (resolveCopies env drafts (before ++ p :: after)).value =
        drafts ++ earlier ++ (resolveCopy env (drafts ++ earlier) p).value :: later ∧
      earlier.map (·.name) = before.map (·.name) ∧ later.map (·.name) = after.map (·.name) ∧
      (resolveCopy env (drafts ++ earlier) p).errors = [] := by
  rw [resolveCopies_append] at h ⊢
  obtain ⟨-, h⟩ := Noted.errors_bind_eq_nil.mp h
  rw [resolveCopies, Noted.errors_bind_eq_nil] at h
  obtain ⟨earlier, hearlier, hnames⟩ := resolveCopies_grows env drafts before
  rw [hearlier] at h
  obtain ⟨later, hlater, hlaterNames⟩ := resolveCopies_grows env
    (drafts ++ earlier ++ [(resolveCopy env (drafts ++ earlier) p).value]) after
  refine ⟨earlier, later, ?_, hnames, hlaterNames, h.1⟩
  rw [Noted.value_bind, hearlier, resolveCopies, Noted.value_bind, hlater, List.append_assoc,
    List.singleton_append]

end

end CodecGen.Resolve
