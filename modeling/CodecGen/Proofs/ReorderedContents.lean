import CodecGen.Proofs.Reordering
set_option autoImplicit false
/-!
Contents in another order. Where names lead to the same targets, the contents of declarations are the
same, up to the order in which they are noted.
-/
namespace CodecGen.Resolve
open Schema Markup

section
variable {env : Env}

theorem lookup?_perm {env' : Env} (hheader : env'.header = env.header)
    (himports : env'.imports = env.imports) (hown : env'.own.Perm env.own)
    (hnodup : (env.own.map (·.1)).Nodup) (name : String) : env'.lookup? name = env.lookup? name := by
  have hlookup := lookup_perm hown hnodup
  unfold Env.lookup?
  simp only [hheader, himports, hlookup]

theorem resolveAllContents_eq (env : Env) (isExt : Bool) (ps : List Pending) :
    resolveAllContents env isExt ps =
      ⟨ps.map fun p => (resolveContents env isExt p).value,
        ps.flatMap fun p => (resolveContents env isExt p).notes⟩ := by
  induction ps with
  | nil => rfl
  | cons p rest ih =>
    rw [resolveAllContents, ih]
    simp [Bind.bind, Noted.andThen, pure, Noted.ofValue]

theorem name_resolveContents (env : Env) (isExt : Bool) (p : Pending) :
    (resolveContents env isExt p).value.name = p.name := by
  unfold resolveContents
  dsimp only
  split <;> rfl

def RefersTo (env : Env) (p : Pending) (name : Name) : Prop :=
  ∃ ref kind index, p.element.attr? "ref" = some ref ∧ env.lookup? ref = some (.own kind name, index)

theorem copiedFields_congr {drafts drafts' : List Decl} {target : Target}
    (h : ∀ kind name, target = .own kind name →
      drafts'.find? (·.name == name) = drafts.find? (·.name == name)) (head : Head) :
    copiedFields drafts' head target = copiedFields drafts head target := by
  cases target with
  | known type reply => rfl
  | own kind name =>
    unfold copiedFields
    dsimp only
    rw [h kind name rfl]

theorem find?_append_of_other {drafts more : List Decl} {name : Name}
    (h : ∀ d ∈ more, d.name ≠ name) :
    (drafts ++ more).find? (·.name == name) = drafts.find? (·.name == name) := by
  have hnone : more.find? (·.name == name) = none :=
    List.find?_eq_none.mpr fun d hd => by simpa using h d hd
  rw [List.find?_append, hnone, Option.or_none]

theorem resolveCopy_congr {drafts drafts' : List Decl} {p : Pending}
    (h : ∀ ref target index, p.element.attr? "ref" = some ref → env.lookup? ref = some (target, index) →
      copiedFields drafts' p.head target = copiedFields drafts p.head target) :
    resolveCopy env drafts' p = resolveCopy env drafts p := by
  unfold resolveCopy requireAttr
  cases href : p.element.attr? "ref" with
  | none => rfl
  | some ref =>
    simp only [pure_bind]
    unfold lookupType
    cases hlookup : env.lookup? ref with
    | none => rfl
    | some answer =>
      obtain ⟨target, index⟩ := answer
      have hfields := h ref target index href hlookup
      cases index <;> simp [Bind.bind, Noted.andThen, hfields]

theorem name_resolveCopy (env : Env) (drafts : List Decl) (p : Pending) :
    (resolveCopy env drafts p).value.name = p.name := by
  unfold resolveCopy
  rw [Noted.value_bind]
  split <;> rfl

theorem resolveCopies_eq (drafts : List Decl) {ps : List Pending} {more : List Decl}
    (hmore : ∀ p ∈ ps, ∀ d ∈ more, ¬ RefersTo env p d.name)
    (hearlier : ps.Pairwise fun q p => ¬ RefersTo env p q.name) :
    resolveCopies env (drafts ++ more) ps =
      ⟨drafts ++ more ++ ps.map fun p => (resolveCopy env drafts p).value,
        ps.flatMap fun p => (resolveCopy env drafts p).notes⟩ := by
  induction ps generalizing more with
  | nil => simp [resolveCopies, pure, Noted.ofValue]
  | cons p rest ih =>
    rw [List.forall_mem_cons] at hmore
    rw [List.pairwise_cons] at hearlier
    have hcopy : resolveCopy env (drafts ++ more) p = resolveCopy env drafts p := by
      refine resolveCopy_congr fun ref target index href hlookup => copiedFields_congr ?_ p.head
      rintro kind name rfl
      refine find?_append_of_other fun d hd hname => ?_
      exact hmore.1 d hd ⟨ref, kind, index, href, hname ▸ hlookup⟩
    have hnext : ∀ q ∈ rest, ∀ d ∈ more ++ [(resolveCopy env drafts p).value],
        ¬ RefersTo env q d.name := by
      intro q hq d hd
      rcases List.mem_append.mp hd with hd | hd
      · exact hmore.2 q hq d hd
      · rw [List.mem_singleton.mp hd, name_resolveCopy]
        exact hearlier.1 q hq
    have hrest := ih hnext hearlier.2
    rw [resolveCopies, hcopy]
    simp [Bind.bind, Noted.andThen, hrest]

end

/-- The declarations of a module do not depend on their order: different names are pending, and no
copy is made from another copy. -/
structure Apart (r : Registered) : Prop where
  distinct : (r.registry.pending.map (·.name)).Nodup
  copies : ∀ p ∈ r.registry.pending, ∀ q ∈ r.registry.pending, isCopy p.element = true →
    isCopy q.element = true → RefersTo r.env p q.name → q.name = p.name

def baseDrafts (r : Registered) : List Decl :=
  (r.registry.pending.filter (!isCopy ·.element)).map fun p =>
    (resolveContents r.env r.head.isExt p).value

theorem resolveDrafts_eq {r : Registered} (h : Apart r) :
    resolveDrafts r =
      ⟨baseDrafts r ++ (r.registry.pending.filter (isCopy ·.element)).map fun p =>
          (resolveCopy r.env (baseDrafts r) p).value,
        ((r.registry.pending.filter (!isCopy ·.element)).flatMap fun p =>
            (resolveContents r.env r.head.isExt p).notes) ++
          (r.registry.pending.filter (isCopy ·.element)).flatMap fun p =>
            (resolveCopy r.env (baseDrafts r) p).notes⟩ := by
  have hearlier : (r.registry.pending.filter (isCopy ·.element)).Pairwise
      fun q p => ¬ RefersTo r.env p q.name := by
    have hnames : (r.registry.pending.filter (isCopy ·.element)).Pairwise
        fun q p => q.name ≠ p.name :=
      (List.pairwise_map.mp h.distinct).sublist List.filter_sublist
    refine hnames.imp_of_mem fun {q p} hq hp hne hrefers => hne ?_
    rw [List.mem_filter] at hq hp
    exact h.copies p hp.1 q hq.1 hp.2 hq.2 hrefers
  have hcopies := resolveCopies_eq (baseDrafts r) (fun _ _ _ hd => absurd hd List.not_mem_nil) hearlier
  rw [List.append_nil] at hcopies
  unfold resolveDrafts
  rw [resolveAllContents_eq]
  change (⟨(resolveCopies r.env (baseDrafts r) _).value, _ ++ (resolveCopies r.env (baseDrafts r) _).notes⟩ :
    Noted (List Decl)) = _
  rw [hcopies]

theorem names_baseDrafts (r : Registered) :
    (baseDrafts r).map (·.name) = (r.registry.pending.filter (!isCopy ·.element)).map (·.name) := by
  rw [baseDrafts, List.map_map]
  exact List.map_congr_left fun p _ => name_resolveContents _ _ p

theorem names_resolveDrafts {r : Registered} (h : Apart r) :
    ((resolveDrafts r).value.map (·.name)).Nodup := by
  have hcopies : ((r.registry.pending.filter (isCopy ·.element)).map fun p =>
      (resolveCopy r.env (baseDrafts r) p).value).map (·.name) =
        (r.registry.pending.filter (isCopy ·.element)).map (·.name) := by
    rw [List.map_map]
    exact List.map_congr_left fun p _ => name_resolveCopy _ _ p
  have hperm := List.perm_append_comm.trans
    (List.filter_append_perm (isCopy ·.element) r.registry.pending)
  rw [resolveDrafts_eq h, List.map_append, names_baseDrafts, hcopies, ← List.map_append]
  exact (hperm.map _).nodup_iff.mpr h.distinct

structure Reordered (r r' : Registered) : Prop where
  head : r'.head = r.head
  imports : r'.imports = r.imports
  unrolling : r'.unrolling = r.unrolling
  names : r'.registry.names.Perm r.registry.names
  keys : (r.registry.names.map (·.1)).Nodup
  pending : r'.registry.pending.Perm r.registry.pending

section
variable {r r' : Registered}

theorem Reordered.lookup? (h : Reordered r r') (name : String) :
    r'.env.lookup? name = r.env.lookup? name :=
  lookup?_perm (congrArg Module.header h.head) h.imports h.names h.keys name

theorem Reordered.apart (h : Reordered r r') (hapart : Apart r) : Apart r' where
  distinct := (h.pending.map _).nodup_iff.mpr hapart.distinct
  copies p hp q hq hcopy hcopy' hrefers := by
    refine hapart.copies p (h.pending.mem_iff.mp hp) q (h.pending.mem_iff.mp hq) hcopy hcopy' ?_
    obtain ⟨ref, kind, index, href, hlookup⟩ := hrefers
    exact ⟨ref, kind, index, href, h.lookup? ref ▸ hlookup⟩

theorem Reordered.contents (h : Reordered r r') :
    resolveContents r'.env r'.head.isExt = resolveContents r.env r.head.isExt := by
  funext p
  rw [h.head]
  exact eq_of_agree (resolveContents_agree (looksUp_identical h.lookup?) _ p)

theorem Reordered.baseDrafts (h : Reordered r r') : (baseDrafts r').Perm (baseDrafts r) := by
  unfold Resolve.baseDrafts
  rw [h.contents]
  exact (h.pending.filter _).map _

theorem Reordered.drafts (h : Reordered r r') (hapart : Apart r) :
    (resolveDrafts r').value.Perm (resolveDrafts r).value ∧
      (resolveDrafts r').notes.Perm (resolveDrafts r).notes := by
  have hnodup : ((Resolve.baseDrafts r).map (·.name)).Nodup := by
    rw [names_baseDrafts]
    exact hapart.distinct.sublist (List.filter_sublist.map _)
  have hcopy : resolveCopy r'.env (Resolve.baseDrafts r') = resolveCopy r.env (Resolve.baseDrafts r) := by
    funext p
    rw [eq_of_agree (resolveCopy_agree (looksUp_identical h.lookup?) _ p)]
    refine resolveCopy_congr fun _ _ _ _ _ => copiedFields_congr (fun _ name _ => ?_) p.head
    exact find?_name_perm h.baseDrafts hnodup name
  rw [resolveDrafts_eq hapart, resolveDrafts_eq (h.apart hapart), hcopy, h.contents]
  exact ⟨h.baseDrafts.append ((h.pending.filter _).map _),
    ((h.pending.filter _).flatMap_right _).append ((h.pending.filter _).flatMap_right _)⟩

theorem Reordered.module (h : Reordered r r') (hapart : Apart r) :
    r'.module.decls.Perm r.module.decls ∧ r'.module = { r.module with decls := r'.module.decls } := by
  have hspelled := spelled_perm (h.drafts hapart).1 (names_resolveDrafts hapart) r.unrolling
  have hnames : ((spelled r.unrolling (resolveDrafts r).value).map (·.name)).Nodup := by
    unfold spelled
    rw [names_spellOut]
    exact names_resolveDrafts hapart
  have hfinal : finalDecl (spelled r'.unrolling (resolveDrafts r').value) (declPath r'.head) =
      finalDecl (spelled r.unrolling (resolveDrafts r).value) (declPath r.head) := by
    funext entry
    unfold finalDecl
    simp only [h.head, h.unrolling, find?_name_perm hspelled hnames]
  constructor
  · unfold Registered.module
    rw [hfinal]
    exact h.names.map _
  · unfold Registered.module
    rw [h.head, h.imports]

end

end CodecGen.Resolve
