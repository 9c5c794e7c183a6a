import CodecGen.Proofs.ComparedModules
import Mathlib.Data.List.Find
import Mathlib.Data.List.Nodup
import Mathlib.Data.List.Perm.Basic
set_option autoImplicit false
/-!
Registration in another order. Lookups among different names do not depend on the order of the entries,
nor does what declarations are spelled out to; an element that is no alias adds the same to whatever was
registered before.
-/
namespace CodecGen.Resolve
open Schema Markup

theorem lookup_perm {α : Type} {entries entries' : List (String × α)} (h : entries'.Perm entries)
    (hnodup : (entries.map (·.1)).Nodup) (name : String) :
    entries'.lookup name = entries.lookup name := by
  induction h with
  | nil => rfl
  | cons entry _ ih =>
    rw [List.map_cons, List.nodup_cons] at hnodup
    rw [List.lookup_cons, List.lookup_cons, ih hnodup.2]
  | swap x y rest =>
    obtain ⟨key, a⟩ := x
    obtain ⟨key', b⟩ := y
    have hne : key ≠ key' := fun heq => by simp [heq] at hnodup
    rw [List.lookup_cons, List.lookup_cons, List.lookup_cons, List.lookup_cons]
    cases hkey : name == key with
    | false => rfl
    | true =>
      have hother : (name == key') = false := beq_eq_false_iff_ne.mpr (beq_iff_eq.mp hkey ▸ hne)
      rw [hother]
  | trans _ hperm ih ih' =>
    have hmiddle := (hperm.map (·.1)).nodup_iff.mpr hnodup
    rw [ih hmiddle, ih' hnodup]

theorem find?_name_perm {decls decls' : List Decl} (h : decls'.Perm decls)
    (hnodup : (decls.map (·.name)).Nodup) (name : Name) :
    decls'.find? (·.name == name) = decls.find? (·.name == name) := by
  refine (List.find?_eq_find?_of_perm h.symm ?_).symm
  rintro d ⟨hd, hname⟩ e ⟨he, hname'⟩
  have heq : d.name = e.name := by rw [beq_iff_eq.mp hname, beq_iff_eq.mp hname']
  exact List.inj_on_of_nodup_map hnodup hd he heq

section
variable {drafts drafts' : List Decl}

theorem names_spellOut (drafts : List Decl) (depth : Nat) :
    (spellOut drafts depth).map (·.name) = drafts.map (·.name) := by
  cases depth with
  | zero => rfl
  | succ depth =>
    rw [spellOut, List.map_map]
    rfl

theorem spell_perm {below below' : List Decl} (h : below'.Perm below)
    (hnodup : (below.map (·.name)).Nodup) : spell below' = spell below := by
  have htype : typeIn below' = typeIn below := by
    funext kind name
    unfold typeIn
    rw [find?_name_perm h hnodup]
  funext d
  rw [spell, spell, htype]

theorem spellOut_perm (h : drafts'.Perm drafts) (hnodup : (drafts.map (·.name)).Nodup) (depth : Nat) :
    (spellOut drafts' depth).Perm (spellOut drafts depth) := by
  induction depth with
  | zero => exact h
  | succ depth ih =>
    rw [spellOut, spellOut, spell_perm ih (names_spellOut drafts depth ▸ hnodup)]
    exact h.map _

theorem mem_stillOpen_iff {openNames : List Name} {name : Name} :
    name ∈ stillOpen drafts openNames ↔
      ∃ d ∈ drafts, (∃ n ∈ mentionedIn (declFields d), n ∈ openNames) ∧ d.name = name := by
  simp [stillOpen, and_assoc]

theorem depthWithin_perm (h : drafts'.Perm drafts) (bound : Nat) {openNames openNames' : List Name}
    (hopen : ∀ name, name ∈ openNames' ↔ name ∈ openNames) :
    depthWithin drafts' bound openNames' = depthWithin drafts bound openNames := by
  induction bound generalizing openNames openNames' with
  | zero => rfl
  | succ bound ih =>
    have hempty : openNames'.isEmpty = openNames.isEmpty := by
      rw [Bool.eq_iff_iff, List.isEmpty_iff, List.isEmpty_iff]
      simp only [List.eq_nil_iff_forall_not_mem, hopen]
    have hnext : depthWithin drafts' bound (stillOpen drafts' openNames') =
        depthWithin drafts bound (stillOpen drafts openNames) := by
      refine ih fun name => ?_
      simp only [mem_stillOpen_iff, h.mem_iff, hopen]
    rw [depthWithin, depthWithin, hempty, hnext]

theorem spelled_perm (h : drafts'.Perm drafts) (hnodup : (drafts.map (·.name)).Nodup)
    (unrolling : Nat) : (spelled unrolling drafts').Perm (spelled unrolling drafts) := by
  have hopen : ∀ name, name ∈ stillOpen drafts' (drafts'.map (·.name)) ↔
      name ∈ stillOpen drafts (drafts.map (·.name)) := by
    intro name
    simp only [mem_stillOpen_iff, h.mem_iff, (h.map _).mem_iff]
  unfold spelled
  rw [h.length_eq, depthWithin_perm h _ hopen]
  exact spellOut_perm h hnodup _

end

def declares (e : Element) : Bool :=
  ["xidtype", "xidunion", "enum", "struct", "union", "request", "event", "eventcopy", "error",
    "errorcopy"].contains e.tag

def declaredName? (e : Element) : Option String := if declares e then e.attr? "name" else none

def Registry.append (r more : Registry) : Registry :=
  ⟨r.names ++ more.names, r.pending ++ more.pending⟩

theorem declare_append {r : Registry} {name : String} (h : r.names.lookup name = none) (e : Element)
    (target : Target) (pending : List Pending) :
    declare r e name target pending = r.append <$> declare {} e name target pending := by
  unfold declare
  rw [h]
  rfl

theorem requireAttr_append {r : Registry} {e : Element} {attr : String}
    {f g : Option String → Noted Registry} (hnone : f none = r.append <$> g none)
    (hsome : ∀ value, e.attr? attr = some value → f (some value) = r.append <$> g (some value)) :
    requireAttr e attr >>= f = r.append <$> (requireAttr e attr >>= g) := by
  have hvalue : f (requireAttr e attr).value = r.append <$> g (requireAttr e attr).value := by
    unfold requireAttr
    split
    · next value h => exact hsome value h
    · exact hnone
  rw [map_bind]
  change (⟨_, _⟩ : Noted Registry) = ⟨_, _⟩
  rw [hvalue]

theorem declares_of_head? {e : Element} {head : Noted Head} (h : head? e = some head) :
    declares e = true := by
  unfold head? at h
  split at h
  case h_9 => cases h
  all_goals simp [declares, *]

theorem not_declares_of_head? {e : Element} (h : head? e = none) (hid : e.tag ≠ "xidtype")
    (hunion : e.tag ≠ "xidunion") : declares e = false := by
  unfold head? at h
  split at h
  case h_9 => simp_all [declares]
  all_goals cases h

theorem declaredName?_of_declares {e : Element} (h : declares e = true) :
    declaredName? e = e.attr? "name" := if_pos h

section
variable {env : Env} {path : Name}

/-- An element that is no alias adds the same to whatever was registered before. -/
theorem register_append {r : Registry} {e : Element} (halias : e.tag ≠ "typedef")
    (hfresh : ∀ name ∈ declaredName? e, r.names.lookup name = none) :
    register env path r e = r.append <$> register env path {} e := by
  have hnothing : (pure r : Noted Registry) = r.append <$> pure {} := by
    simp [Registry.append]
  have hname : declares e = true → ∀ name, e.attr? "name" = some name → r.names.lookup name = none := by
    intro hdeclares name hattr
    exact hfresh name (declaredName?_of_declares hdeclares ▸ hattr)
  unfold register
  split
  · exact hnothing
  · next htag =>
    have hdeclares : declares e = true := by simp [declares, htag]
    exact requireAttr_append hnothing fun name hattr => declare_append (hname hdeclares name hattr) _ _ _
  · next htag =>
    have hdeclares : declares e = true := by simp [declares, htag]
    exact requireAttr_append hnothing fun name hattr => declare_append (hname hdeclares name hattr) _ _ _
  · exact absurd ‹e.tag = "typedef"› halias
  · split
    · next head hhead =>
      refine requireAttr_append hnothing fun name hattr => ?_
      have hlookup := hname (declares_of_head? hhead) name hattr
      simp only [map_bind, declareOwn, declare_append hlookup]
    · rw [map_bind, ← hnothing]

/-- What an element that is no alias registers. -/
inductive Adds (path : Name) (e : Element) : Registry → Prop where
  | nothing : declaredName? e = none → Adds path e {}
  | resource {name : String} : declaredName? e = some name →
    Adds path e ⟨[(name, .known card32 none)], []⟩
  | own {name : String} (head : Head) : declaredName? e = some name →
    Adds path e ⟨[(name, .own head.kind (path ++ [name]))], [⟨e, path ++ [name], head⟩]⟩

theorem resource_adds {e : Element} (h : declares e = true) :
    Adds path e (requireAttr e "name" >>= fun name => match name with
      | some name => declare {} e name (.known card32 none) []
      | none => pure {}).value := by
  have hname := declaredName?_of_declares h
  unfold requireAttr
  split
  · next name hattr => exact .resource (hname.trans hattr)
  · next hattr => exact .nothing (hname.trans hattr)

theorem register_adds (env : Env) (path : Name) {e : Element} (halias : e.tag ≠ "typedef") :
    Adds path e (register env path {} e).value := by
  unfold register
  split
  · next htag => exact .nothing (if_neg (by simp [declares, htag]))
  · next htag => exact resource_adds (by simp [declares, htag])
  · next htag => exact resource_adds (by simp [declares, htag])
  · exact absurd ‹e.tag = "typedef"› halias
  · split
    · next head hhead =>
      have hname := declaredName?_of_declares (declares_of_head? hhead)
      unfold requireAttr
      split
      · next name hattr => exact .own head.value (hname.trans hattr)
      · next hattr => exact .nothing (hname.trans hattr)
    · next hid hunion _ _ hhead =>
      exact .nothing (if_neg (by simp [not_declares_of_head? hhead hid hunion]))

def namesAdded (env : Env) (path : Name) (es : List Element) : List (String × Target) :=
  es.flatMap fun e => (register env path {} e).value.names

def pendingAdded (env : Env) (path : Name) (es : List Element) : List Pending :=
  es.flatMap fun e => (register env path {} e).value.pending

theorem keys_register (env : Env) (path : Name) {e : Element} (halias : e.tag ≠ "typedef") :
    (register env path {} e).value.names.map (·.1) = (declaredName? e).toList := by
  cases hvalue : (register env path {} e).value with
  | mk names pending =>
    have hadds := hvalue ▸ register_adds env path halias
    cases hadds with
    | nothing hname => rw [hname]; rfl
    | resource hname => rw [hname]; rfl
    | own head hname => rw [hname]; rfl

theorem registerAll_eq {es : List Element} (halias : ∀ e ∈ es, e.tag ≠ "typedef")
    (hnodup : (es.filterMap declaredName?).Nodup) {r : Registry}
    (hfresh : ∀ name ∈ es.filterMap declaredName?, r.names.lookup name = none) :
    registerAll env path r es =
      ⟨r.append ⟨namesAdded env path es, pendingAdded env path es⟩,
        es.flatMap fun e => (register env path {} e).notes⟩ := by
  induction es generalizing r with
  | nil => simp [registerAll, namesAdded, pendingAdded, Registry.append, pure, Noted.ofValue]
  | cons e rest ih =>
    rw [List.forall_mem_cons] at halias
    have hone : register env path r e = r.append <$> register env path {} e := by
      refine register_append halias.1 fun name hname => hfresh name ?_
      exact List.mem_filterMap.mpr ⟨e, List.mem_cons_self, hname⟩
    have hkeys := keys_register env path halias.1
    rw [registerAll, hone, bind_map_left]
    have hparts : (e :: rest).filterMap declaredName? =
        (declaredName? e).toList ++ rest.filterMap declaredName? := by
      cases hname : declaredName? e with
      | none => rw [List.filterMap_cons_none hname]; rfl
      | some name => rw [List.filterMap_cons_some hname]; rfl
    rw [hparts, ← hkeys] at hnodup hfresh
    -- the names of the later elements are still free after this one
    have hlater : ∀ name ∈ rest.filterMap declaredName?,
        (r.append (register env path {} e).value).names.lookup name = none := by
      intro name hname
      have hother : (register env path {} e).value.names.lookup name = none := by
        refine List.lookup_eq_none_iff.mpr fun entry hentry => ?_
        have hne := (List.nodup_append.mp hnodup).2.2 entry.1 (List.mem_map_of_mem hentry) name hname
        exact bne_iff_ne.mpr hne.symm
      rw [Registry.append, List.lookup_append, hfresh name (List.mem_append_right _ hname), hother]
      rfl
    have hrest := ih halias.2 (List.nodup_append.mp hnodup).2.1 hlater
    simp only [Bind.bind, Noted.andThen, hrest]
    simp only [namesAdded, pendingAdded, Registry.append, List.flatMap_cons, List.append_assoc]

end

end CodecGen.Resolve
