import CodecGen.Proofs.LaidOutContents
import CodecGen.Proofs.Origin
set_option autoImplicit false
/-!
The layout of messages. Resolution without errors declares every message of a description, with the
header fields of its kind and the fields that its elements state, in the order in which they are stated.
-/
namespace CodecGen.Resolve
open Schema Markup

/-- The type of a field: a finished one, or one that the module declares under a name of its own,
spelled out to some depth. -/
def Stands (m : Module) : Target → Ty → Prop
  | .known type _, t => t = type
  | .own kind name, t => ∃ d ∈ m.decls, d.name = name ∧ DeclaresOwn d ∧ d.type.kind = kind ∧ Cut t d.type

section
variable {T T' : Target → Ty → Prop} {env : Env} {isExt : Bool}

theorem name_of_messageFor {name : Name} {e : Element} {d : Decl}
    (h : MessageFor isExt env T name e d) : d.name = name := by
  cases h <;> rfl

theorem messageFor_spell {below : List Decl}
    (hT : ∀ target, Offered env target → ∀ t, T target t → T' target (replaceMentions (typeIn below) t))
    {name : Name} {e : Element} {d : Decl} (h : MessageFor isExt env T name e d) :
    MessageFor isExt env T' name e (spell below d) := by
  cases h with
  | union htag hmembers => exact .union htag (fieldsFor_replace hT hmembers)
  | @container shape members fields reply hshape hmembers hfields hreply =>
    refine .container hshape (fieldsFor_replace hT hmembers) (laidOut_replace _ hfields) ?_
    cases reply with
    | none => exact hreply
    | some reply =>
      obtain ⟨answer, members, hanswer, hmembers, hname, hlaid⟩ := hreply
      exact ⟨answer, _, hanswer, fieldsFor_replace hT hmembers, hname, laidOut_replace _ hlaid⟩

end

section
variable {r : Registered}

theorem kind_spell (below : List Decl) (d : Decl) : (spell below d).type.kind = d.type.kind := by
  unfold spell
  cases d.type <;> rfl

theorem Draws.stands (h : Draws r) (target : Target) (hoffered : Offered r.env target) :
    ∀ t, Mentions target t →
      Stands r.module target
        (replaceMentions (leafAt (drafts r) (spelledDepth r.unrolling (drafts r))) t) := by
  rintro _ rfl
  have hfrom : TargetFrom r.imports r.registry.pending target :=
    offered_from r.env h.registers.targets hoffered
  cases hfrom with
  | scalar => rfl
  | @imported i d hi hd =>
    have hwhole : Whole d.type := leaf_of_finished ((h.imports i hi i.module .refl).2 d hd)
    change replaceMentions _ d.type = d.type
    cases htype : d.type with
    | mention | list | exprField | switch | case =>
      rw [htype] at hwhole
      exact hwhole.elim
    | _ => rfl
  | own hown =>
    obtain ⟨d, hd, rfl, rfl⟩ := h.draft hown
    -- The mention is spelled out one step less deep than the declaration itself.
    have hcut := leafAt_cut h.drafted (Nat.le_succ (spelledDepth r.unrolling (drafts r)))
      ⟨d, hd.draft, rfl, rfl⟩
    rw [leafAt_succ h.drafted hd.draft] at hcut
    exact ⟨spelledDraft r d, hd.decl, rfl, declaresOwn_spell (h.drafted.own d hd.draft),
      kind_spell _ d, hcut⟩

theorem Draws.message (h : Draws r) (herrors : (resolveDrafts r).errors = []) {e : Element}
    {name : String} {head : Head} (he : declaresMessage e = true) (hhead : HeadOf e head)
    (hpending : ⟨e, declPath r.head ++ [name], head⟩ ∈ r.registry.pending) :
    ∃ d ∈ r.module.decls,
      MessageFor r.head.isExt r.env (Stands r.module) (declPath r.head ++ [name]) e d := by
  have hplain : ⟨e, declPath r.head ++ [name], head⟩ ∈
      r.registry.pending.filter (!isCopy ·.element) :=
    List.mem_filter.mpr ⟨hpending, by simp [not_isCopy_of_declaresMessage he]⟩
  have hcontents := (Noted.errors_bind_eq_nil.mp herrors).1
  obtain ⟨hclean, hmem⟩ := mem_resolveAllContents hcontents hplain
  have hstated := resolveContents_stated hhead hclean
  have hdraft : _ ∈ drafts r :=
    subset_resolveCopies r.env _ (r.registry.pending.filter (isCopy ·.element)) hmem
  obtain ⟨d, hd, hname, -⟩ := h.draft ⟨_, hpending, rfl, rfl⟩
  -- Drafts are told apart by their names.
  have hfind := find?_name_of_nodup h.drafted.nodup hdraft
  rw [name_of_messageFor hstated, ← hname, find?_name_of_nodup h.drafted.nodup hd.draft] at hfind
  rw [← Option.some.inj hfind] at hstated
  exact ⟨_, hd.decl, messageFor_spell h.stands hstated⟩

end

theorem resolve_without_errors {set : ModuleSet} {root : Element} (h : (resolve set root).errors = []) :
    ∃ header, root.attr? "header" = some header ∧ (registerModule set header root).errors = [] ∧
      (resolveDrafts (registerModule set header root).value).errors = [] ∧
      (resolve set root).module? = some (registerModule set header root).value.module := by
  unfold resolve at h ⊢
  cases hheader : root.attr? "header" with
  | none =>
    rw [hheader] at h
    cases h
  | some header =>
    rw [hheader] at h
    dsimp only at h ⊢
    split at h
    · next hregister =>
      have herrors : (registerModule set header root).errors = [] := h
      simp [herrors] at hregister
    · next hregister =>
      rw [if_neg hregister]
      split at h
      · next hdrafts =>
        have herrors : (resolveDrafts (registerModule set header root).value).errors = [] := h
        simp [herrors] at hdrafts
      · next hdrafts =>
        rw [if_neg hdrafts]
        exact ⟨header, rfl, by simpa using hregister, by simpa using hdrafts, rfl⟩

def namesIn (set : ModuleSet) (root : Element) : Env :=
  (registerModule set (root.attrD "header" "") root).value.env

theorem find?_of_mem {m : Module} (h : Origins m) {d : Decl} (hd : d ∈ m.decls) {name : String}
    (hname : d.name = declPath m ++ [name]) : m.find? name = some d := by
  obtain ⟨entries, hnodup, hnames⟩ := h.names
  have hdistinct : (m.decls.map (·.name)).Nodup := by
    rw [hnames]
    exact List.pairwise_map.mpr (hnodup.imp fun hne heq => hne (by simpa using heq))
  have hsome : (m.find? name).isSome = true :=
    List.find?_isSome.mpr ⟨d, List.mem_reverse.mpr hd, by simp [hname, Name.last]⟩
  obtain ⟨e, he⟩ := Option.isSome_iff_exists.mp hsome
  have hmem : e ∈ m.decls := List.mem_reverse.mp (List.mem_of_find?_eq_some he)
  obtain ⟨entry, -, hentry⟩ := List.mem_map.mp (hnames ▸ List.mem_map_of_mem hmem)
  have hlast : Name.last e.name = name := by simpa using List.find?_some he
  have hsame : e.name = d.name := by
    rw [← hentry] at hlast ⊢
    rw [hname, ← hlast]
    simp [Name.last]
  have hfind := find?_name_of_nodup hdistinct hmem
  rw [hsame, find?_name_of_nodup hdistinct hd] at hfind
  rw [he, Option.some.inj hfind]

theorem errors_of_resolve {set : ModuleSet} {root : Element} {m : Module}
    (h : (resolve set root).module? = some m) : (resolve set root).errors = [] := by
  unfold resolve at h ⊢
  split at h
  · cases h
  · dsimp only at h ⊢
    split at h
    · cases h
    · next hregister =>
      rw [if_neg hregister]
      split at h
      · cases h
      · next hdrafts => rw [if_neg hdrafts]

/-- The names that a description without errors registers, and what becomes of them. -/
structure Accepts (set : ModuleSet) (root : Element) (r : Registered) : Prop where
  draws : Draws r
  imports : ∀ i ∈ r.imports, i.module ∈ set.modules
  names : namesIn set root = r.env
  registry : ∃ env, (registerAll env (declPath r.head) {} root.children).errors = [] ∧
    r.registry = (registerAll env (declPath r.head) {} root.children).value
  contents : (resolveDrafts r).errors = []
  resolved : (resolve set root).module? = some r.module

theorem accepts_of_resolve {set : ModuleSet} (hset : Compiled set) {root : Element}
    (h : (resolve set root).errors = []) : ∃ r, Accepts set root r := by
  obtain ⟨header, hheader, hregister, hdrafts, hmodule⟩ := resolve_without_errors h
  have hnames : namesIn set root = (registerModule set header root).value.env := by
    rw [namesIn, Element.attrD, hheader, Option.getD_some]
  have himports : ∀ i ∈ (registerModule set header root).value.imports, i.module ∈ set.modules :=
    resolveImports_mem _
  have hregisterAll := (Noted.errors_bind_eq_nil.mp (Noted.errors_bind_eq_nil.mp
    (Noted.errors_bind_eq_nil.mp hregister).2).2).1
  exact ⟨_, ⟨registers_of_registerModule set header root,
    fun i hi => grounded_of_compiled hset _ (himports i hi)⟩, himports, hnames,
    ⟨_, hregisterAll, rfl⟩, hdrafts, hmodule⟩

theorem Accepts.types {P : Ty → Prop} {set : ModuleSet} {root : Element} {r : Registered}
    (h : Accepts set root r) (hscalar : ∀ scalar, P (.simple [scalar]))
    (hown : ∀ d, Drawn r d → P (spelledDraft r d).type)
    (hknown : ∀ n ∈ set.modules, ∀ d ∈ n.decls, P d.type) : ∀ d ∈ r.module.decls, P d.type := by
  intro d hd
  have hfinal := h.draws.final hd
  generalize d.type = type at hfinal ⊢
  generalize d.reply = reply at hfinal
  cases hfinal with
  | scalar => exact hscalar _
  | @imported i s hi hs => exact hknown _ (h.imports i hi) s hs
  | own hd => exact hown _ hd

theorem types_of_compiled {P : Ty → Prop} (hscalar : ∀ scalar, P (.simple [scalar]))
    (hown : ∀ {set : ModuleSet} {root : Element} {r : Registered}, Accepts set root r →
      ∀ d, Drawn r d → P (spelledDraft r d).type)
    {set : ModuleSet} (h : Compiled set) : ∀ m ∈ set.modules, ∀ d ∈ m.decls, P d.type := by
  induction h with
  | empty => simp
  | add _ hcompiled h hset hknown =>
    obtain ⟨r, haccepts⟩ := accepts_of_resolve hcompiled (errors_of_resolve h)
    obtain rfl := Option.some.inj (haccepts.resolved.symm.trans h)
    exact forall_mem_addTo (haccepts.types hscalar (hown haccepts) hknown) hset
  | merge _ _ hset hother => exact forall_mem_merge hset hother

theorem types_of_resolve {P : Ty → Prop} (hscalar : ∀ scalar, P (.simple [scalar]))
    (hown : ∀ {set : ModuleSet} {root : Element} {r : Registered}, Accepts set root r →
      ∀ d, Drawn r d → P (spelledDraft r d).type)
    {set : ModuleSet} (hset : Compiled set) {root : Element} {m : Module}
    (h : (resolve set root).module? = some m) : ∀ d ∈ m.decls, P d.type := by
  obtain ⟨r, haccepts⟩ := accepts_of_resolve hset (errors_of_resolve h)
  obtain rfl := Option.some.inj (haccepts.resolved.symm.trans h)
  exact haccepts.types hscalar (hown haccepts) (types_of_compiled hscalar hown hset)

def DeclaredAs (m : Module) (e : Element) (d : Decl) : Prop :=
  ∃ name, e.attr? "name" = some name ∧ m.find? name = some d

/-- A declaration is an alias of a scalar, that of an element of the description by its own or another
name, or one that a module of the set has. -/
theorem Accepts.described {set : ModuleSet} {root : Element} {r : Registered} (h : Accepts set root r)
    {d : Decl} (hd : d ∈ r.module.decls) :
    d.type.kind = .simple ∨
    (∃ e ∈ root.children, ∃ head s, head? e = some head ∧ head.value.kind = d.type.kind ∧
      DeclaredAs r.module e s ∧ s.type = d.type ∧ s.reply = d.reply) ∨
    ∃ n ∈ set.modules, ∃ s ∈ n.decls, s.type = d.type ∧ s.reply = d.reply := by
  have hfinal := h.draws.final hd
  generalize d.type = type at hfinal ⊢
  generalize d.reply = reply at hfinal ⊢
  cases hfinal with
  | scalar => exact .inl rfl
  | @imported i s hi hs => exact .inr (.inr ⟨i.module, h.imports i hi, s, hs, rfl, rfl⟩)
  | @own draft hdraft =>
    obtain ⟨ps, hperm, hdrafts⟩ := resolveDrafts_drafts h.draws.admits
    obtain ⟨p, hp, hof⟩ := pending_of_draft hdrafts hdraft.draft
    obtain ⟨env, -, hregistry⟩ := h.registry
    have hpending : p ∈ r.registry.pending := hperm.mem_iff.mp hp
    rw [hregistry] at hpending
    rcases registerAll_made hpending with hnone | ⟨e, he, name, head, hhead, hname, rfl⟩
    · cases hnone
    · have hkind : head.value.kind = (spelledDraft r draft).type.kind := by rw [kind_spell, hof.kind]
      have hfind := find?_of_mem h.draws.origins hdraft.decl hof.name
      exact .inr (.inl ⟨e, he, head, _, hhead, hkind, ⟨name, hname, hfind⟩, rfl, rfl⟩)

/-- Resolution without errors gives a module that declares every message of the description. Each
element among its fields that stands for a field is resolved to that one field, in the order of the
description, and the message has the header fields of its kind around or before them. -/
theorem messages_laid_out_as_stated (set : ModuleSet) (hset : Compiled set) (root : Element)
    (h : (resolve set root).errors = []) :
    ∃ m, (resolve set root).module? = some m ∧ ∀ e ∈ root.children, declaresMessage e = true →
      ∃ name d, e.attr? "name" = some name ∧ m.find? name = some d ∧
        MessageFor m.isExt (namesIn set root) (Stands m) (declPath m ++ [name]) e d := by
  obtain ⟨header, hheader, hregister, hdrafts, hmodule⟩ := resolve_without_errors h
  have hnames : namesIn set root = (registerModule set header root).value.env := by
    rw [namesIn, Element.attrD, hheader, Option.getD_some]
  have hdraws : Draws (registerModule set header root).value :=
    ⟨registers_of_registerModule set header root,
      fun i hi => grounded_of_compiled hset _ (resolveImports_mem _ i hi)⟩
  refine ⟨_, hmodule, fun e hmem he => ?_⟩
  have hregisterAll := (Noted.errors_bind_eq_nil.mp (Noted.errors_bind_eq_nil.mp
    (Noted.errors_bind_eq_nil.mp hregister).2).2).1
  obtain ⟨name, head, hname, hhead, hpending⟩ := registerAll_awaits hregisterAll hmem he
  obtain ⟨d, hd, hmessage⟩ := hdraws.message hdrafts he hhead hpending
  rw [hnames]
  exact ⟨name, d, hname, find?_of_mem hdraws.origins hd (name_of_messageFor hmessage), hmessage⟩

def setPalette : Element :=
  described "request" [("name", "SetPalette"), ("opcode", "3")]
    [described "pad" [("bytes", "1")] [],
      described "field" [("type", "CARD16"), ("name", "count")] [],
      described "required_start_align" [("align", "4")] [],
      described "list" [("type", "COLOR"), ("name", "colors")] [described "fieldref" [] [] "count"],
      described "switch" [("name", "extra")]
        [described "fieldref" [] [] "count",
          described "case" [("name", "one")]
            [described "value" [] [] "1", described "field" [("type", "CARD8"), ("name", "alpha")] []]],
      described "reply" [] [described "field" [("type", "CARD32"), ("name", "stored")] []]]

def paletteCleared : Element := described "event" [("name", "PaletteCleared"), ("number", "5")] []

def palette : Element :=
  described "xcb" [("header", "palette")]
    [described "struct" [("name", "COLOR")] [described "field" [("type", "CARD8"), ("name", "red")] []],
      setPalette, paletteCleared]

theorem messages_laid_out_as_stated_palette :
    (resolve .empty palette).errors = [] ∧
    ∃ m, (resolve .empty palette).module? = some m ∧
      (∃ d, m.find? "SetPalette" = some d ∧ MessageFor m.isExt (namesIn .empty palette) (Stands m)
        (declPath m ++ ["SetPalette"]) setPalette d) ∧
      ∃ d, m.find? "PaletteCleared" = some d ∧ MessageFor m.isExt (namesIn .empty palette) (Stands m)
        (declPath m ++ ["PaletteCleared"]) paletteCleared d := by
  have herrors : (resolve .empty palette).errors = [] := by decide +kernel
  obtain ⟨m, hm, hmessages⟩ := messages_laid_out_as_stated .empty (.empty 0) palette herrors
  obtain ⟨_, d, hname, hfind, hd⟩ := hmessages setPalette (by simp [palette, described]) rfl
  obtain ⟨_, d', hname', hfind', hd'⟩ := hmessages paletteCleared (by simp [palette, described]) rfl
  obtain rfl := Option.some.inj hname
  obtain rfl := Option.some.inj hname'
  exact ⟨herrors, m, hm, ⟨d, hfind, hd⟩, d', hfind', hd'⟩

end CodecGen.Resolve
