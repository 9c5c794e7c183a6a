import CodecGen.Proofs.Drafted
set_option autoImplicit false
/-!
The declarations of resolved modules. Registration keeps every own name together with a declaration
that will have contents, resolving the contents makes a draft of each of these, and spelling out
finishes them. So every module is finished whose imports are.
-/
namespace CodecGen.Resolve
open Schema Markup

/-- Different names are registered, each for a target of known origin. Every declaration whose contents
are still to be resolved is registered under its own name. -/
structure Registers (imports : List Import) (path : Name) (r : Registry) : Prop where
  names : (r.names.map (·.1)).Nodup
  targets : ∀ entry ∈ r.names, TargetFrom imports r.pending entry.2
  pending : (r.pending.map (·.name)).Nodup
  declared : ∀ p ∈ r.pending, ∃ name, p.name = path ++ [name] ∧ (name, .own p.head.kind p.name) ∈ r.names

section
variable {path : Name} {r : Registry} {env : Env} {imports : List Import}

theorem Registers.add (h : Registers imports path r) {name : String} {target : Target}
    {pending : List Pending} (hfresh : name ∉ r.names.map (·.1))
    (ht : TargetFrom imports (r.pending ++ pending) target) (hnodup : (pending.map (·.name)).Nodup)
    (hname : ∀ p ∈ pending, p.name = path ++ [name] ∧ target = .own p.head.kind p.name) :
    Registers imports path ⟨r.names ++ [(name, target)], r.pending ++ pending⟩ where
  names := by
    rw [List.map_append, List.nodup_append]
    refine ⟨h.names, by simp, ?_⟩
    intro a ha b hb heq
    obtain rfl : b = name := List.mem_singleton.mp hb
    exact hfresh (heq ▸ ha)
  targets := by
    refine List.forall_mem_append.mpr ⟨fun entry hentry => ?_, by simpa using ht⟩
    exact (h.targets entry hentry).mono (List.subset_append_left _ _)
  pending := by
    rw [List.map_append, List.nodup_append]
    refine ⟨h.pending, hnodup, ?_⟩
    intro a ha b hb heq
    obtain ⟨p, hp, rfl⟩ := List.mem_map.mp ha
    obtain ⟨q, hq, rfl⟩ := List.mem_map.mp hb
    -- Two declarations of one name would be two entries of one name.
    obtain ⟨other, hpath, hother⟩ := h.declared p hp
    rw [hpath, (hname q hq).1] at heq
    obtain rfl : other = name := by simpa using heq
    exact hfresh (List.mem_map_of_mem hother)
  declared := by
    refine List.forall_mem_append.mpr ⟨fun p hp => ?_, fun p hp => ?_⟩
    · obtain ⟨other, hpath, hother⟩ := h.declared p hp
      exact ⟨other, hpath, List.mem_append_left _ hother⟩
    · obtain ⟨hpath, rfl⟩ := hname p hp
      exact ⟨name, hpath, List.mem_append_right _ List.mem_cons_self⟩

theorem declare_registers (h : Registers imports path r) (e : Element) {name : String}
    {target : Target} {pending : List Pending} (ht : TargetFrom imports (r.pending ++ pending) target)
    (hnodup : (pending.map (·.name)).Nodup)
    (hname : ∀ p ∈ pending, p.name = path ++ [name] ∧ target = .own p.head.kind p.name) :
    Registers imports path (declare r e name target pending).value := by
  unfold declare
  split
  · exact h
  · next hnone =>
    refine h.add (fun hmem => ?_) ht hnodup hname
    obtain ⟨entry, hentry, heq⟩ := List.mem_map.mp hmem
    simpa [heq] using List.lookup_eq_none_iff.mp hnone entry hentry

theorem declareOwn_registers (h : Registers imports path r) (e : Element) (name : String) (head : Head) :
    Registers imports path (declareOwn path r e name head).value :=
  declare_registers h e (.own ⟨⟨e, path ++ [name], head⟩, by simp, rfl, rfl⟩) (by simp) (by simp)

theorem declareKnown_registers (h : Registers imports path r) (e : Element) (name : String)
    {target : Target} (ht : TargetFrom imports r.pending target) :
    Registers imports path (declare r e name target []).value :=
  declare_registers h e (by simpa using ht) (by simp) (by simp)

theorem resource_from (pending : List Pending) : TargetFrom imports pending (.known card32 none) :=
  .scalar (show scalar? "CARD32" = some "uint32_t" from rfl)

theorem register_registers (h : Registers env.imports path r) (e : Element) :
    Registers env.imports path (register env path r e).value := by
  unfold register
  split
  · exact h
  · rw [Noted.value_bind]
    split
    · exact declareKnown_registers h e _ (resource_from _)
    · exact h
  · rw [Noted.value_bind]
    split
    · exact declareKnown_registers h e _ (resource_from _)
    · exact h
  · unfold registerTypedef
    rw [Noted.value_bind, Noted.value_bind]
    split
    · next oldName newName _ _ =>
      rw [Noted.value_bind]
      split
      · next target hlookup =>
        -- The old name is looked up among the names registered so far.
        have hoffered : Offered { env with own := r.names } target :=
          lookupType_offered _ oldName _ target hlookup
        have hfrom := offered_from { env with own := r.names } h.targets hoffered
        exact declareKnown_registers h e newName hfrom
      · exact h
    · exact h
  · split
    · rw [Noted.value_bind]
      split
      · exact declareOwn_registers h e _ _
      · exact h
    · exact h

theorem registerAll_registers (env : Env) (h : Registers env.imports path r) (es : List Element) :
    Registers env.imports path (registerAll env path r es).value := by
  induction es generalizing r with
  | nil => exact h
  | cons e rest ih => exact ih (register_registers h e)

end

theorem resolveImports_mem {set : ModuleSet} (es : List Element) :
    ∀ i ∈ (resolveImports set es).value, i.module ∈ set.modules := by
  induction es with
  | nil => simp [resolveImports]
  | cons e rest ih =>
    unfold resolveImports
    split
    · next m hget =>
      simp only [Noted.value_bind, Noted.value_pure, List.forall_mem_cons]
      exact ⟨List.mem_of_find?_eq_some hget, ih⟩
    · exact ih

def Registered.module (r : Registered) : Module :=
  { r.head with
    imports := r.imports.map (·.module)
    decls := r.registry.names.map (finalDecl (spelled r.unrolling (resolveDrafts r).value)
      (declPath r.head)) }

theorem registers_of_registerModule (set : ModuleSet) (header : String) (root : Element) :
    Registers (registerModule set header root).value.imports
      (declPath (registerModule set header root).value.head)
      (registerModule set header root).value.registry := by
  have hempty (imports : List Import) (path : Name) : Registers imports path {} :=
    ⟨by simp, by simp, by simp, by simp⟩
  exact registerAll_registers { header, imports := _ } (hempty _ _) root.children

theorem registered_of_resolve {set : ModuleSet} {root : Element} {m : Module}
    (h : (resolve set root).module? = some m) :
    ∃ r : Registered, Registers r.imports (declPath r.head) r.registry ∧
      (∀ i ∈ r.imports, i.module ∈ set.modules) ∧ m = r.module := by
  unfold resolve at h
  split at h
  · cases h
  · next header _ =>
    dsimp only at h
    split at h
    · cases h
    · split at h
      · cases h
      · obtain rfl := Option.some.inj h
        exact ⟨_, registers_of_registerModule set header root, resolveImports_mem _, rfl⟩

theorem finalDecl_finished {drafts : List Decl} (h : Drafted drafts) (unrolling : Nat) (path : Name)
    {entry : String × Target} (ht : TargetOk (OwnIn drafts) entry.2) :
    Finished (finalDecl (spelled unrolling drafts) path entry).type
      (finalDecl (spelled unrolling drafts) path entry).reply := by
  obtain ⟨name, target⟩ := entry
  cases target with
  | known type reply => exact ht
  | own kind full =>
    obtain ⟨d, hd, rfl, rfl⟩ := ht
    have hfind := find?_spellOut h hd (spelledDepth unrolling drafts)
    have hfinished := finished_of_mem_spelled h (List.mem_of_find?_eq_some hfind)
    unfold finalDecl
    dsimp only
    rw [show (spelled unrolling drafts).find? (·.name == d.name) = _ from hfind]
    exact hfinished

theorem offers_of_registers {r : Registered} (himports : ∀ i ∈ r.imports, FinishedModule i.module)
    (h : Registers r.imports (declPath r.head) r.registry) :
    Offers r.env (OwnPending r.registry.pending) :=
  fun _ ht => targetOk_of_from himports (offered_from r.env h.targets ht)

theorem resolve_finished {set : ModuleSet} (hset : ∀ m ∈ set.modules, FinishedModule m)
    {root : Element} {m : Module} (h : (resolve set root).module? = some m) : FinishedModule m := by
  obtain ⟨r, hregisters, hmem, rfl⟩ := registered_of_resolve h
  have himports : ∀ i ∈ r.imports, FinishedModule i.module := fun i hi => hset _ (hmem i hi)
  have hoffers := offers_of_registers himports hregisters
  have hdrafted := drafted_of_registered hregisters.pending hoffers
  intro d hd
  obtain ⟨entry, hentry, rfl⟩ := List.mem_map.mp hd
  have htarget := targetOk_of_from himports (hregisters.targets entry hentry)
  have hown : ∀ kind name, OwnPending r.registry.pending kind name →
      OwnIn (resolveDrafts r).value kind name := fun _ _ => ownIn_of_pending (admits_built hoffers)
  exact finalDecl_finished hdrafted _ _ (targetOk_mono hown htarget)

/-- The sets of modules that come about by resolving descriptions, each against a set that came about
before. -/
inductive Compiled : ModuleSet → Prop where
  | empty (unrolling : Nat) : Compiled { unrolling }
  | add {set known : ModuleSet} {root : Element} {m : Module} (hset : Compiled set)
      (hknown : Compiled known) (h : (resolve known root).module? = some m) : Compiled (set.add m)
  | merge {set other : ModuleSet} (hset : Compiled set) (hother : Compiled other) :
      Compiled (set.merge other)

theorem forall_mem_addTo {Q : Module → Prop} {m : Module} (hm : Q m) {modules : List Module}
    (h : ∀ n ∈ modules, Q n) : ∀ n ∈ ModuleSet.addTo m modules, Q n := by
  induction modules with
  | nil => simpa [ModuleSet.addTo] using hm
  | cons first rest ih =>
    rw [List.forall_mem_cons] at h
    unfold ModuleSet.addTo
    split
    · exact List.forall_mem_cons.mpr ⟨hm, h.2⟩
    · exact List.forall_mem_cons.mpr ⟨h.1, ih h.2⟩

theorem forall_mem_merge {Q : Module → Prop} {set other : ModuleSet} (h : ∀ n ∈ set.modules, Q n)
    (hother : ∀ n ∈ other.modules, Q n) : ∀ n ∈ (set.merge other).modules, Q n := by
  unfold ModuleSet.merge
  generalize other.modules = modules at hother
  induction modules generalizing set with
  | nil => exact h
  | cons first rest ih =>
    rw [List.forall_mem_cons] at hother
    exact ih (forall_mem_addTo hother.1 h) hother.2

theorem finished_of_compiled {set : ModuleSet} (h : Compiled set) :
    ∀ m ∈ set.modules, FinishedModule m := by
  induction h with
  | empty => simp
  | add _ _ h hset hknown => exact forall_mem_addTo (resolve_finished hknown h) hset
  | merge _ _ hset hother => exact forall_mem_merge hset hother

end CodecGen.Resolve
