import CodecGen.Proofs.Cuts
import CodecGen.Proofs.Declared
set_option autoImplicit false
/-!
Where the types in a module come from. Every field of a resolved module holds scalars and types that
some module declares under a name of its own: the module itself, or one that it imports directly or
through others. Spelled out less deep, such a type is still the same declared type.
-/
namespace CodecGen.Resolve
open Schema

abbrev Reaches : Module → Module → Prop := Relation.ReflTransGen fun m n => n ∈ m.imports

/-- A scalar, or a type that a module in reach declares under a name of its own, spelled out to some
depth. -/
inductive Anchored (m : Module) : Ty → Prop where
  | scalar {name scalar : String} (h : scalar? name = some scalar) : Anchored m (.simple [scalar])
  | declared {n : Module} {d : Decl} {t : Ty} (hn : Reaches m n) (hd : d ∈ n.decls)
      (hown : DeclaresOwn d) (hcut : Cut t d.type) : Anchored m t

theorem Anchored.of_reaches {m n : Module} (hn : Reaches m n) {t : Ty} (h : Anchored n t) :
    Anchored m t := by
  cases h with
  | scalar h => exact .scalar h
  | declared hreach hd hown hcut => exact .declared (hn.trans hreach) hd hown hcut

theorem Anchored.of_cut {m : Module} (t u : Ty) (hcut : Cut t u) (h : Anchored m u) :
    Anchored m t := by
  cases h with
  | scalar h =>
    cases hcut
    exact .scalar h
  | declared hn hd hown h => exact .declared hn hd hown (hcut.trans h)

theorem isLeaf_of_anchored {m : Module} {t : Ty} (h : Anchored m t) : isLeaf t = true := by
  cases h with
  | scalar h => rfl
  | declared hn hd hown hcut =>
    rcases declaresOwn_cases hown with ⟨_, _, htype⟩ | ⟨_, htype⟩ | ⟨_, _, htype⟩ <;>
      rw [htype] at hcut <;> cases hcut <;> rfl

structure Origins (m : Module) : Prop where
  names : ∃ entries : List String, entries.Nodup ∧
    m.decls.map (·.name) = entries.map fun entry => declPath m ++ [entry]
  types : ∀ d ∈ m.decls, Anchored m d.type
  fields : ∀ d ∈ m.decls, LaidIn (Anchored m) (declFields d)
  replies : ∀ d ∈ m.decls, ∀ r ∈ d.reply, r.name = d.type.typeName

def Grounded (m : Module) : Prop := ∀ n, Reaches m n → Origins n ∧ FinishedModule n

/-- A type in the contents of a declaration before it is spelled out. -/
inductive Source (imports : List Import) (pending : List Pending) : Ty → Prop where
  | scalar {name scalar : String} (h : scalar? name = some scalar) :
      Source imports pending (.simple [scalar])
  | imported {i : Import} {t : Ty} (hi : i ∈ imports) (h : Anchored i.module t) (hwhole : Whole t) :
      Source imports pending t
  | own {kind : Kind} {name : Name} (h : OwnPending pending kind name) :
      Source imports pending (.mention kind name)

section
variable {imports : List Import} {pending : List Pending}

theorem isLeaf_of_source {t : Ty} (h : Source imports pending t) : isLeaf t = true := by
  cases h with
  | scalar | own => rfl
  | imported hi h hwhole => exact isLeaf_of_anchored h

theorem source_of_target (himports : ∀ i ∈ imports, Grounded i.module) {t : Target}
    (h : TargetFrom imports pending t) : Source imports pending t.type := by
  cases h with
  | scalar h => exact .scalar h
  | @imported i d hi hd =>
    obtain ⟨horigins, hfinished⟩ := himports i hi i.module .refl
    exact .imported hi (horigins.types d hd) (leaf_of_finished (hfinished d hd))
  | own h => exact .own h

theorem source_of_message (himports : ∀ i ∈ imports, Grounded i.module) {shape : Shape} {name : Name}
    {fields : List Field} {reply : Option Reply}
    (h : TargetFrom imports pending (.known (.container shape name fields) reply)) :
    LaidIn (Source imports pending) fields := by
  generalize htarget : Target.known (.container shape name fields) reply = t at h
  cases h with
  | scalar h => cases htarget
  | own h => cases htarget
  | @imported i d hi hd =>
    obtain ⟨htype, -⟩ := Target.known.inj htarget
    obtain ⟨horigins, hfinished⟩ := himports i hi i.module .refl
    have hlaid := horigins.fields d hd
    have hwhole := (hfinished d hd).1
    rw [declFields, laidIn_append, ← htype] at hlaid
    rw [← htype] at hwhole
    refine laidIn_mono (laidIn_of_built fields hlaid.1 hwhole fun _ => isLeaf_of_anchored) ?_
    intro u hu
    exact ⟨isLeaf_of_anchored hu.1, .imported hi hu.1 hu.2⟩

def FieldLaid (L : Ty → Prop) (f : Field) : Prop := Laid L f.type

theorem fieldLaid_leaf {L : Ty → Prop} {name : String} {t : Ty} {wire visible : Bool}
    (h : isLeaf t = true) (hL : L t) : FieldLaid L ⟨name, t, wire, visible⟩ :=
  laid_of_isLeaf h hL

theorem admits_laid {env : Env} (himports : ∀ i ∈ env.imports, Grounded i.module)
    (h : ∀ t, Offered env t → TargetFrom env.imports pending t) :
    Admits env (FieldLaid (Source env.imports pending)) where
  scalar := by
    intro name wire visible t ht
    simp only [List.mem_cons, List.not_mem_nil, or_false] at ht
    rcases ht with rfl | rfl | rfl | rfl
    · exact fieldLaid_leaf rfl (.scalar (show scalar? "CARD8" = some "uint8_t" from rfl))
    · exact fieldLaid_leaf rfl (.scalar (show scalar? "CARD16" = some "uint16_t" from rfl))
    · exact fieldLaid_leaf rfl (.scalar (show scalar? "CARD32" = some "uint32_t" from rfl))
    · exact fieldLaid_leaf rfl (.scalar (show scalar? "INT32" = some "int32_t" from rfl))
  pad := fun _ _ _ => trivial
  plain := by
    intro name t ht
    have hsource := source_of_target himports (h t ht)
    exact fieldLaid_leaf (isLeaf_of_source hsource) hsource
  list := fun _ t _ _ ht _ => source_of_target himports (h t ht)
  computed := fun _ t _ ht _ => source_of_target himports (h t ht)
  switch := by
    intro name type selector branches _ hbranches
    refine laidBranches_iff.mpr fun b hb => ?_
    obtain ⟨_, _, _, _, _, fields, rfl, -, -, hfields⟩ := hbranches b hb
    exact ⟨rfl, rfl, laidIn_iff.mpr hfields⟩
  copied := fun _ _ _ _ ht => laidIn_iff.mp (source_of_message himports (h _ ht))

end

theorem declaresOwn_spell {below : List Decl} {d : Decl} (h : DeclaresOwn d) :
    DeclaresOwn (spell below d) := by
  unfold DeclaresOwn spell
  rcases declaresOwn_cases h with ⟨_, _, htype⟩ | ⟨_, htype⟩ | ⟨_, _, htype⟩ <;>
    rw [htype] <;> rfl

theorem declFields_spell (below : List Decl) (d : Decl) :
    declFields (spell below d) = replaceInFields (typeIn below) (declFields d) := by
  have happend (fields more : List Field) :
      replaceInFields (typeIn below) (fields ++ more) =
        replaceInFields (typeIn below) fields ++ replaceInFields (typeIn below) more := by
    induction fields with
    | nil => rfl
    | cons f rest ih =>
      obtain ⟨name, type, wire, visible⟩ := f
      simp [replaceInFields, ih]
  obtain ⟨name, type, reply⟩ := d
  rw [declFields, declFields, happend]
  congr 1
  · cases type <;> rfl
  · cases reply <;> rfl

section
variable {r : Registered}

structure Draws (r : Registered) : Prop where
  registers : Registers r.imports (declPath r.head) r.registry
  imports : ∀ i ∈ r.imports, Grounded i.module

abbrev drafts (r : Registered) : List Decl := (resolveDrafts r).value

abbrev spelledDraft (r : Registered) (d : Decl) : Decl :=
  spell (belowAt (drafts r) (spelledDepth r.unrolling (drafts r))) d

theorem Draws.drafted (h : Draws r) : Drafted (drafts r) :=
  drafted_of_registered h.registers.pending
    (offers_of_registers (fun i hi => (h.imports i hi i.module .refl).2) h.registers)

theorem Draws.admits (h : Draws r) :
    Admits r.env (FieldLaid (Source r.imports r.registry.pending)) :=
  admits_laid h.imports fun _ => offered_from r.env h.registers.targets

structure Drawn (r : Registered) (d : Decl) : Prop where
  draft : d ∈ drafts r
  decl : spelledDraft r d ∈ r.module.decls
  fields : LaidIn (Source r.imports r.registry.pending) (declFields d)
  reply : ∀ reply ∈ d.reply, reply.name = d.name

theorem Draws.draft (h : Draws r) {kind : Kind} {name : Name}
    (hown : OwnPending r.registry.pending kind name) :
    ∃ d, Drawn r d ∧ d.name = name ∧ d.type.kind = kind := by
  obtain ⟨p, hp, rfl, rfl⟩ := hown
  obtain ⟨ps, hperm, hdrafts⟩ := resolveDrafts_drafts h.admits
  obtain ⟨d, hd, hdraft⟩ := draft_of_pending hdrafts (hperm.mem_iff.mpr hp)
  refine ⟨d, ⟨hd, ?_, laidIn_iff.mpr hdraft.fields, hdraft.reply⟩, hdraft.name, hdraft.kind⟩
  obtain ⟨entry, hentry, hmem⟩ := h.registers.declared p hp
  refine List.mem_map.mpr ⟨_, hmem, ?_⟩
  have hfind := find?_spellOut h.drafted hd (spelledDepth r.unrolling (drafts r))
  unfold finalDecl
  dsimp only
  rw [← hdraft.name, show (spelled _ _).find? (·.name == d.name) = _ from hfind]
  dsimp only
  rw [← hentry, ← hdraft.name]
  rfl

theorem reaches_import {i : Import} (hi : i ∈ r.imports) : Reaches r.module i.module :=
  .single (List.mem_map_of_mem hi)

theorem Draws.anchored_draft (h : Draws r) {d : Decl} (hd : Drawn r d) {t : Ty}
    (hcut : Cut t (spelledDraft r d).type) : Anchored r.module t :=
  .declared .refl hd.decl (declaresOwn_spell (h.drafted.own d hd.draft)) hcut

theorem Draws.anchored_source (h : Draws r) {u : Ty} (hu : Source r.imports r.registry.pending u) :
    isLeaf (replaceMentions (leafAt (drafts r) (spelledDepth r.unrolling (drafts r))) u) = true ∧
      Anchored r.module (replaceMentions (leafAt (drafts r) (spelledDepth r.unrolling (drafts r))) u) := by
  cases hu with
  | scalar hscalar => exact ⟨rfl, .scalar hscalar⟩
  | imported hi hanchored hwhole =>
    have hsame : replaceMentions (leafAt (drafts r) (spelledDepth r.unrolling (drafts r))) u = u := by
      cases u with
      | mention | list | exprField | switch | case => exact hwhole.elim
      | _ => rfl
    rw [hsame]
    exact ⟨isLeaf_of_anchored hanchored, hanchored.of_reaches (reaches_import hi)⟩
  | @own kind name hown =>
    obtain ⟨d, hd, rfl, rfl⟩ := h.draft hown
    have hownIn : OwnIn (drafts r) d.type.kind d.name := ⟨d, hd.draft, rfl, rfl⟩
    -- The mention is spelled out one step less deep than the declaration itself.
    have hcut := leafAt_cut h.drafted (Nat.le_succ (spelledDepth r.unrolling (drafts r))) hownIn
    rw [leafAt_succ h.drafted hd.draft] at hcut
    exact ⟨isLeaf_leafAt h.drafted hownIn _, h.anchored_draft hd hcut⟩

theorem Draws.laidIn_draft (h : Draws r) {d : Decl} (hd : Drawn r d) :
    LaidIn (Anchored r.module) (declFields (spelledDraft r d)) := by
  rw [declFields_spell]
  exact laidIn_replace _ hd.fields fun _ => h.anchored_source

inductive Final (r : Registered) : Ty → Option Reply → Prop where
  | scalar {name scalar : String} (h : scalar? name = some scalar) : Final r (.simple [scalar]) none
  | imported {i : Import} {d : Decl} (hi : i ∈ r.imports) (hd : d ∈ i.module.decls) :
      Final r d.type d.reply
  | own {d : Decl} (hd : Drawn r d) : Final r (spelledDraft r d).type (spelledDraft r d).reply

theorem Draws.final (h : Draws r) {d : Decl} (hd : d ∈ r.module.decls) : Final r d.type d.reply := by
  obtain ⟨⟨name, target⟩, hentry, rfl⟩ := List.mem_map.mp hd
  have hfrom : TargetFrom r.imports r.registry.pending target := h.registers.targets _ hentry
  cases hfrom with
  | scalar hscalar => exact .scalar hscalar
  | @imported i source hi hsource =>
    have hfinal : Final r source.type source.reply := .imported hi hsource
    exact hfinal
  | own hown =>
    obtain ⟨e, he, rfl, rfl⟩ := h.draft hown
    have hfind := find?_spellOut h.drafted he.draft (spelledDepth r.unrolling (drafts r))
    unfold finalDecl
    dsimp only
    rw [show (spelled _ _).find? (·.name == e.name) = _ from hfind]
    exact .own he

theorem finalDecl_name (decls : List Decl) (path : Name) (entry : String × Target) :
    (finalDecl decls path entry).name = path ++ [entry.1] := by
  unfold finalDecl
  split
  · rfl
  · split <;> rfl

theorem typeName_of_declaresOwn {d : Decl} (h : DeclaresOwn d) : d.type.typeName = d.name := by
  rcases declaresOwn_cases h with ⟨_, _, htype⟩ | ⟨_, htype⟩ | ⟨_, _, htype⟩ <;> rw [htype] <;> rfl

theorem Draws.anchored (h : Draws r) {type : Ty} {reply : Option Reply} (ht : Final r type reply) :
    Anchored r.module type := by
  cases ht with
  | scalar hscalar => exact .scalar hscalar
  | @imported i d hi hd =>
    have horigins := (h.imports i hi i.module .refl).1
    exact (horigins.types d hd).of_reaches (reaches_import hi)
  | own hd => exact h.anchored_draft hd (.refl _)

theorem Draws.laidIn (h : Draws r) (name : Name) {type : Ty} {reply : Option Reply}
    (ht : Final r type reply) : LaidIn (Anchored r.module) (declFields ⟨name, type, reply⟩) := by
  cases ht with
  | scalar hscalar => trivial
  | @imported i d hi hd =>
    have horigins := (h.imports i hi i.module .refl).1
    refine laidIn_mono (horigins.fields d hd) fun u hu => ?_
    exact ⟨isLeaf_of_anchored hu, hu.of_reaches (reaches_import hi)⟩
  | own hd => exact h.laidIn_draft hd

theorem Draws.reply_name (h : Draws r) {type : Ty} {reply : Option Reply} (ht : Final r type reply) :
    ∀ answer ∈ reply, answer.name = type.typeName := by
  cases ht with
  | scalar hscalar => simp
  | @imported i d hi hd => exact (h.imports i hi i.module .refl).1.replies d hd
  | own hd =>
    intro answer hanswer
    obtain ⟨original, horiginal, rfl⟩ := Option.map_eq_some_iff.mp hanswer
    rw [typeName_of_declaresOwn (declaresOwn_spell (h.drafted.own _ hd.draft))]
    exact hd.reply original horiginal

theorem Draws.origins (h : Draws r) : Origins r.module where
  names := by
    refine ⟨r.registry.names.map (·.1), h.registers.names, ?_⟩
    rw [show r.module.decls = r.registry.names.map _ from rfl, List.map_map, List.map_map]
    exact List.map_congr_left fun entry _ => finalDecl_name _ _ entry
  types := fun _ hd => h.anchored (h.final hd)
  fields := fun d hd => h.laidIn d.name (h.final hd)
  replies := fun _ hd => h.reply_name (h.final hd)

end

theorem resolve_grounded {set : ModuleSet} (hset : ∀ m ∈ set.modules, Grounded m) {root : Markup.Element}
    {m : Module} (h : (resolve set root).module? = some m) : Grounded m := by
  have hfinished := resolve_finished (fun n hn => (hset n hn n .refl).2) h
  obtain ⟨r, hregisters, hmem, rfl⟩ := registered_of_resolve h
  have hdraws : Draws r := ⟨hregisters, fun i hi => hset _ (hmem i hi)⟩
  intro n hn
  rcases hn.cases_head with rfl | ⟨_, hnext, hn⟩
  · exact ⟨hdraws.origins, hfinished⟩
  · obtain ⟨i, hi, rfl⟩ := List.mem_map.mp hnext
    exact hdraws.imports i hi n hn

theorem grounded_of_compiled {set : ModuleSet} (h : Compiled set) : ∀ m ∈ set.modules, Grounded m := by
  induction h with
  | empty => simp
  | add _ _ h hset hknown => exact forall_mem_addTo (resolve_grounded hknown h) hset
  | merge _ _ hset hother => exact forall_mem_merge hset hother

theorem laidIn_of_anchored {m : Module} (h : Grounded m) {shape : Shape} {name : Name}
    {fields : List Field} (ht : Anchored m (.container shape name fields)) :
    LaidIn (Anchored m) fields := by
  generalize hcontainer : Ty.container shape name fields = t at ht
  cases ht with
  | scalar => cases hcontainer
  | @declared n d _ hn hd hown hcut =>
    obtain ⟨whole, htype, hcutFields⟩ := fields_of_cut (hcontainer ▸ hcut)
    have hlaid := (h n hn).1.fields d hd
    rw [declFields, laidIn_append, htype] at hlaid
    have hwhole : LaidIn (Anchored m) whole :=
      laidIn_mono hlaid.1 fun u hu => ⟨isLeaf_of_anchored hu, hu.of_reaches hn⟩
    exact laidIn_cut hcutFields hwhole Anchored.of_cut

def described (tag : String) (attrs : List (String × String)) (children : List Markup.Element)
    (text : String := "") : Markup.Element :=
  ⟨tag, attrs.map fun (name, value) => ⟨name, value⟩, text, children, ⟨0, 0⟩⟩

end CodecGen.Resolve
