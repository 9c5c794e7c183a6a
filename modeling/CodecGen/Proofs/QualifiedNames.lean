import CodecGen.Proofs.DeclarationOrder
import CodecGen.Proofs.MessageLayout
import CodecGen.Proofs.ModuleTables
set_option autoImplicit false
/-!
Names qualified by a header. A module that imports another one finds under such a name what the other
module found under it, once that module is finished: the names that were registered one after another
and the declarations of the finished module are the same table. This takes a header without a colon,
since a qualified name is cut at its first colon.
-/
namespace CodecGen.Resolve
open Schema Markup

def qualified (header name : String) : String := header ++ ":" ++ name

theorem splitQualified?_qualified {header : String} (h : ':' ∉ header.toList) (name : String) :
    splitQualified? (qualified header name) = some (header, name) := by
  have hchars : (qualified header name).toList = header.toList ++ ':' :: name.toList := by
    simp [qualified]
  have hbefore : ∀ c ∈ header.toList, (c != ':') = true := by
    intro c hc
    have hne : c ≠ ':' := fun heq => h (heq ▸ hc)
    simpa using hne
  rw [splitQualified?, hchars]
  simp only [List.takeWhile_append_of_pos hbefore, List.dropWhile_append_of_pos hbefore]
  simp

theorem findImported?_eq_none {accepts : Module → Bool} {imports : List Import}
    (h : ∀ i ∈ imports, accepts i.module = false) (name : String) (index : Nat) :
    Env.findImported? accepts name index imports = none := by
  induction imports generalizing index with
  | nil => rfl
  | cons i rest ih =>
    rw [List.forall_mem_cons] at h
    simp [Env.findImported?, h.1, ih h.2]

theorem findImported?_of_same {accepts : Module → Bool} {imports : List Import} {m : Module}
    (hsame : ∀ i ∈ imports, accepts i.module = true → i.module = m) (haccepts : accepts m = true)
    (hmem : ∃ i ∈ imports, i.module = m) (name : String) (index : Nat) :
    (Env.findImported? accepts name index imports).map (·.1) =
      (m.find? name).map fun d => .known d.type d.reply := by
  induction imports generalizing index with
  | nil =>
    obtain ⟨i, hi, -⟩ := hmem
    cases hi
  | cons i rest ih =>
    rw [List.forall_mem_cons] at hsame
    have hrest : (∃ j ∈ rest, j.module = m) →
        (Env.findImported? accepts name (index + 1) rest).map (·.1) =
          (m.find? name).map fun d => .known d.type d.reply := fun h => ih hsame.2 h _
    by_cases hi : accepts i.module = true
    · have him := hsame.1 hi
      cases hd : m.find? name with
      | some d => simp [Env.findImported?, him, haccepts, hd]
      | none =>
        -- Later imports of the module declare no more than this one.
        have hnone : (Env.findImported? accepts name (index + 1) rest).map (·.1) = none := by
          by_cases hagain : ∃ j ∈ rest, j.module = m
          · rw [hrest hagain, hd]
            rfl
          · have hothers : ∀ j ∈ rest, accepts j.module = false := by
              intro j hj
              rw [Bool.eq_false_iff]
              intro haccepted
              exact hagain ⟨j, hj, hsame.2 j hj haccepted⟩
            rw [findImported?_eq_none hothers]
            rfl
        simpa [Env.findImported?, him, haccepts, hd] using hnone
    · have hother : i.module ≠ m := fun heq => hi (heq ▸ haccepts)
      have hlater : ∃ j ∈ rest, j.module = m := by
        obtain ⟨j, hj, hjm⟩ := hmem
        rcases List.mem_cons.mp hj with rfl | hj
        · exact absurd hjm hother
        · exact ⟨j, hj, hjm⟩
      rw [← hrest hlater]
      simp [Env.findImported?, hi]

section
variable {env : Env} {header : String} (hcolon : ':' ∉ header.toList)
include hcolon

/-- A module looks names up that it qualifies itself among its own, unless it imports a module of its
own header. -/
theorem lookup?_qualified_own (hown : env.header = header)
    (himports : ∀ i ∈ env.imports, i.module.header ≠ header) (name : String) :
    env.lookup? (qualified header name) = (env.own.lookup name).map fun t => (t, none) := by
  have hnone : Env.findImported? (·.header == header) name 0 env.imports = none := by
    apply findImported?_eq_none
    intro i hi
    simpa using himports i hi
  simp only [Env.lookup?, splitQualified?_qualified hcolon, hown, BEq.rfl, if_true, hnone]
  cases env.own.lookup name <;> rfl

theorem lookup?_qualified_imported (hother : env.header ≠ header) {m : Module} (hm : m.header = header)
    (hsame : ∀ i ∈ env.imports, i.module.header = header → i.module = m)
    (hmem : ∃ i ∈ env.imports, i.module = m) (name : String) :
    (env.lookup? (qualified header name)).map (·.1) =
      (m.find? name).map fun d => .known d.type d.reply := by
  have hforeign : (header == env.header) = false := by simpa using Ne.symm hother
  have himported : (Env.findImported? (·.header == header) name 0 env.imports).map (·.1) =
      (m.find? name).map fun d => .known d.type d.reply := by
    apply findImported?_of_same _ (by simpa using hm) hmem
    intro i hi haccepted
    exact hsame i hi (eq_of_beq haccepted)
  rw [← himported]
  simp only [Env.lookup?, splitQualified?_qualified hcolon, hforeign]
  cases Env.findImported? (·.header == header) name 0 env.imports <;> rfl

end

theorem lookupType_errors (env : Env) (name : String) (span : Span) :
    (lookupType env name span).errors =
      if (env.lookup? name).isSome then [] else [⟨.unknownType name, span⟩] := by
  unfold lookupType
  split <;> next h =>
    rw [h]
    rfl

/-- What a name that was looked up stands for once the module is finished. -/
def Target.settled (m : Module) : Target → Option Target
  | .known type reply => some (.known type reply)
  | .own _ name => (m.decls.find? (·.name == name)).map fun d => .known d.type d.reply

theorem lookup_eq_find? {α : Type} (entries : List (String × α)) (name : String) :
    entries.lookup name = (entries.find? (·.1 == name)).map (·.2) := by
  induction entries with
  | nil => rfl
  | cons entry rest ih =>
    obtain ⟨key, a⟩ := entry
    by_cases hname : key = name
    · simp [hname]
    · have hother : (name == key) = false := by simpa using Ne.symm hname
      simp [List.lookup_cons, hname, hother, ih]

section
variable {r : Registered}

def Registered.final (r : Registered) : String × Target → Decl :=
  finalDecl (spelled r.unrolling (resolveDrafts r).value) (declPath r.head)

theorem Registered.decls_module : r.module.decls = r.registry.names.map r.final := rfl

theorem Registered.name_final (entry : String × Target) :
    (r.final entry).name = declPath r.head ++ [entry.1] := finalDecl_name _ _ entry

variable (h : Registers r.imports (declPath r.head) r.registry)
include h

theorem Registers.find?_module (name : String) :
    r.module.find? name = (r.registry.names.lookup name).map fun t => r.final (name, t) := by
  have hlast : ((fun d : Decl => Name.last d.name == name) ∘ r.final) = fun entry => entry.1 == name := by
    funext entry
    simp [Registered.name_final, Name.last]
  -- Names are different, so it does not matter that declarations are searched from the end.
  rw [← lookup_perm (List.reverse_perm _) h.names, lookup_eq_find?, Module.find?, Registered.decls_module,
    ← List.map_reverse, List.find?_map, hlast]
  cases hfound : r.registry.names.reverse.find? (·.1 == name) with
  | none => rfl
  | some entry =>
    obtain rfl : entry.1 = name := by simpa using List.find?_some hfound
    rfl

theorem Registers.find?_decls {name : String} {t : Target} (hmem : (name, t) ∈ r.registry.names) :
    r.module.decls.find? (·.name == declPath r.head ++ [name]) = some (r.final (name, t)) := by
  have hnodup : (r.module.decls.map (·.name)).Nodup := by
    have hnames : r.module.decls.map (·.name) =
        (r.registry.names.map (·.1)).map fun name => declPath r.head ++ [name] := by
      rw [Registered.decls_module, List.map_map, List.map_map]
      exact List.map_congr_left fun entry _ => Registered.name_final entry
    rw [hnames]
    exact List.pairwise_map.mpr (h.names.imp fun hne heq => hne (by simpa using heq))
  rw [← Registered.name_final (name, t)]
  exact find?_name_of_nodup hnodup (List.mem_map_of_mem hmem)

theorem Registers.settled {name : String} {t : Target} (hmem : (name, t) ∈ r.registry.names) :
    t.settled r.module = some (.known (r.final (name, t)).type (r.final (name, t)).reply) := by
  have hfrom := h.targets _ hmem
  cases hfrom with
  | scalar => rfl
  | imported => rfl
  | own hown =>
    obtain ⟨p, hp, rfl, rfl⟩ := hown
    obtain ⟨id, hid, hregistered⟩ := h.declared p hp
    have hfound := h.find?_decls hregistered
    rw [← hid] at hfound
    rw [Target.settled, hfound, Option.map_some]
    -- Under another name the declaration is the same.
    simp only [Registered.final, finalDecl]
    cases (spelled r.unrolling (resolveDrafts r).value).find? (·.name == p.name) <;> rfl

end

/-- The names that can be looked up at some point while a description is resolved: its imports are
there, and some of its own names. -/
structure Surrounds (set : ModuleSet) (root : Element) (env : Env) : Prop where
  header : root.attr? "header" = some env.header
  imports : env.imports = (resolveImports set (root.elements "import")).value

theorem registered_of_module {set : ModuleSet} {root : Element} {m : Module}
    (h : (resolve set root).module? = some m) :
    ∃ header, root.attr? "header" = some header ∧ m = (registerModule set header root).value.module := by
  cases hheader : root.attr? "header" with
  | none =>
    rw [resolve, hheader] at h
    cases h
  | some header =>
    by_cases herrors : (registerModule set header root).errors = []
    · rw [resolve_of_registered hheader rfl herrors] at h
      dsimp only at h
      split at h
      · exact ⟨header, rfl, (Option.some.inj h).symm⟩
      · cases h
    · rw [resolve_of_unregistered hheader herrors] at h
      cases h

theorem mem_resolveImports {set : ModuleSet} {es : List Element} {i : Import}
    (h : i ∈ (resolveImports set es).value) : set.get? i.module.header = some i.module := by
  induction es with
  | nil => cases h
  | cons e rest ih =>
    unfold resolveImports at h
    cases hget : set.get? e.text with
    | none =>
      rw [hget] at h
      exact ih h
    | some m =>
      rw [hget] at h
      simp only [Noted.value_bind, Noted.value_pure, List.mem_cons] at h
      rcases h with rfl | h
      · have hheader : m.header = e.text := by simpa using List.find?_some hget
        rw [hheader]
        exact hget
      · exact ih h

theorem mem_resolveImports_of_get? {set : ModuleSet} {es : List Element} {e : Element} (he : e ∈ es)
    {m : Module} (h : set.get? e.text = some m) : ∃ i ∈ (resolveImports set es).value, i.module = m := by
  induction es with
  | nil => cases he
  | cons first rest ih =>
    unfold resolveImports
    rcases List.mem_cons.mp he with rfl | he
    · rw [h]
      exact ⟨_, List.mem_cons_self, rfl⟩
    · obtain ⟨i, hi, him⟩ := ih he
      cases set.get? first.text with
      | none => exact ⟨i, hi, him⟩
      | some _ => exact ⟨i, List.mem_cons_of_mem _ hi, him⟩

theorem get?_of_lastWith {edits : List Edit} {i : Nat} {m : Module}
    (h : LastWith (·.header = m.header) (additions edits i) m) :
    (editedSets edits i).get? m.header = some m := by
  rw [(records_editedSets edits i).latest, find?_reverse_eq_some_iff]
  simpa using h

theorem Surrounds.lookup?_qualified {set : ModuleSet} {importer : Element} {env : Env} {m : Module}
    (h : Surrounds set importer env) (hget : set.get? m.header = some m) (hcolon : ':' ∉ m.header.toList)
    (hother : env.header ≠ m.header)
    (himported : m.header ∈ (importer.elements "import").map (·.text)) (name : String) :
    (env.lookup? (qualified m.header name)).map (·.1) =
      (m.find? name).map fun d => .known d.type d.reply := by
  -- all imports of the header are this module, so the importer finds what it declares
  have hsame : ∀ i ∈ env.imports, i.module.header = m.header → i.module = m := by
    intro i hi heq
    have hfound := mem_resolveImports (h.imports ▸ hi)
    rw [heq, hget] at hfound
    exact (Option.some.inj hfound).symm
  have hmem : ∃ i ∈ env.imports, i.module = m := by
    obtain ⟨e, he, htext⟩ := List.mem_map.mp himported
    rw [h.imports]
    exact mem_resolveImports_of_get? he (htext ▸ hget)
  exact lookup?_qualified_imported hcolon hother rfl hsame hmem name

/-- Importers of a module find under the names that it qualifies what it found there itself, and
nothing under those under which it found nothing. -/
theorem importers_see_own_names {set : ModuleSet} {root : Element} {m : Module}
    (hm : (resolve set root).module? = some m) (hcolon : ':' ∉ m.header.toList)
    (himports : ∀ n ∈ m.imports, n.header ≠ m.header) {edits : List Edit} {i : Nat}
    (hlast : LastWith (·.header = m.header) (additions edits i) m) {importer : Element} {env : Env}
    (henv : Surrounds (editedSets edits i) importer env) (hother : env.header ≠ m.header)
    (himported : m.header ∈ (importer.elements "import").map (·.text)) (name : String) (span : Span) :
    (∀ t, (∃ index, env.lookup? (qualified m.header name) = some (t, index)) ↔
      ∃ found index, (namesIn set root).lookup? (qualified m.header name) = some (found, index) ∧
        found.settled m = some t) ∧
    ((lookupType env (qualified m.header name) span).errors.map (·.cause.code) = [3000] ↔
      (lookupType (namesIn set root) (qualified m.header name) span).errors.map (·.cause.code) =
        [3000]) := by
  obtain ⟨header, hheader, hmodule⟩ := registered_of_module hm
  have hregisters := registers_of_registerModule set header root
  have hnames : namesIn set root = (registerModule set header root).value.env := by
    rw [namesIn, Element.attrD, hheader, Option.getD_some]
  generalize (registerModule set header root).value = r at hmodule hregisters hnames
  subst hmodule
  have hown : r.env.lookup? (qualified r.module.header name) =
      (r.registry.names.lookup name).map fun t => (t, none) := by
    apply lookup?_qualified_own hcolon rfl
    intro i hi
    exact himports i.module (List.mem_map_of_mem hi)
  have himporter : (env.lookup? (qualified r.module.header name)).map (·.1) =
      (r.registry.names.lookup name).map fun t =>
        .known (r.final (name, t)).type (r.final (name, t)).reply := by
    rw [henv.lookup?_qualified (get?_of_lastWith hlast) hcolon hother himported,
      hregisters.find?_module, Option.map_map]
    rfl
  rw [hnames]
  simp only [lookupType_errors]
  rw [hown]
  -- both lookups come down to the one among the registered names
  cases hlookup : r.registry.names.lookup name with
  | none =>
    have hnone : env.lookup? (qualified r.module.header name) = none := by
      simpa [hlookup] using himporter
    simp [hnone]
  | some found =>
    rw [hlookup, Option.map_some] at himporter
    obtain ⟨answer, hanswer, htype⟩ := Option.map_eq_some_iff.mp himporter
    have hsettled := hregisters.settled (mem_of_lookup hlookup)
    rw [hanswer]
    refine ⟨fun t => ⟨?_, ?_⟩, by simp⟩
    · rintro ⟨index, heq⟩
      obtain rfl := Option.some.inj heq
      exact ⟨found, none, rfl, hsettled.trans (congrArg some htype.symm)⟩
    · rintro ⟨found', index, heq, ht⟩
      obtain ⟨rfl, -⟩ := Prod.mk.inj (Option.some.inj heq)
      rw [hsettled, ← htype] at ht
      obtain rfl := Option.some.inj ht
      exact ⟨answer.2, rfl⟩

def frames : Element :=
  described "xcb" [("header", "frames")]
    [described "struct" [("name", "FRAME")] [described "field" [("type", "CARD16"), ("name", "width")] []],
      described "typedef" [("oldname", "frames:FRAME"), ("newname", "PANE")] [],
      described "request" [("name", "Show"), ("opcode", "4")]
        [described "field" [("type", "frames:PANE"), ("name", "pane")] []]]

def framesModule : Module := (resolve .empty frames).module?.getD { header := "" }

def framesEdits : List Edit :=
  [.add 0 { header := "frames" }, .add 0 framesModule, .add 0 { header := "icons" }]

def desktop : Element :=
  described "xcb" [("header", "desktop")]
    [described "import" [] [] "icons", described "import" [] [] "frames"]

theorem importers_see_own_names_frames :
    (resolve .empty frames).module? = some framesModule ∧
    (∃ t index, (namesIn (editedSets framesEdits 0) desktop).lookup? "frames:PANE" = some (t, index)) ∧
    (lookupType (namesIn (editedSets framesEdits 0) desktop) "frames:WINDOW" ⟨0, 0⟩).errors.map
      (·.cause.code) = [3000] := by
  have hmodule : (resolve .empty frames).module? = some framesModule := by
    have hsome : (resolve .empty frames).module?.isSome = true := by decide +kernel
    rw [framesModule, ← Option.some_get hsome]
    rfl
  have hheader : framesModule.header = "frames" := by decide +kernel
  have hcolon : ':' ∉ framesModule.header.toList := by
    rw [hheader]
    decide
  have himports : ∀ n ∈ framesModule.imports, n.header ≠ framesModule.header := by
    have hnone : framesModule.imports.isEmpty = true := by decide +kernel
    rw [List.isEmpty_iff.mp hnone]
    simp
  have hlast : LastWith (·.header = framesModule.header) (additions framesEdits 0) framesModule := by
    refine ⟨[{ header := "frames" }], [{ header := "icons" }], rfl, rfl, ?_⟩
    rw [hheader]
    simp
  have henv : Surrounds (editedSets framesEdits 0) desktop
      (namesIn (editedSets framesEdits 0) desktop) := ⟨rfl, rfl⟩
  have hother : (namesIn (editedSets framesEdits 0) desktop).header ≠ framesModule.header := by
    decide +kernel
  have himported : framesModule.header ∈ (desktop.elements "import").map (·.text) := by decide +kernel
  have hseen := importers_see_own_names hmodule hcolon himports hlast henv hother himported
  rw [hheader] at hseen
  refine ⟨hmodule, ?_, (hseen "WINDOW" ⟨0, 0⟩).2.mpr (by decide +kernel)⟩
  have hpane : (((namesIn .empty frames).lookup? "frames:PANE").bind fun answer =>
      answer.1.settled framesModule).isSome = true := by decide +kernel
  obtain ⟨t, ht⟩ := Option.isSome_iff_exists.mp hpane
  obtain ⟨⟨found, index⟩, hfound, hsettled⟩ := Option.bind_eq_some_iff.mp ht
  exact ⟨t, ((hseen "PANE" ⟨0, 0⟩).1 t).mpr ⟨found, index, hfound, hsettled⟩⟩

def nested : Element :=
  described "xcb" [("header", "a:b")] [described "xidtype" [("name", "n")] []]

def nestedModule : Module := (resolve .empty nested).module?.getD { header := "" }

def outer : Element :=
  described "xcb" [("header", "a")]
    [described "import" [] [] "a:b", described "xidtype" [("name", "b:n")] []]

/-- An importer finds a name of its own under a name that the module whose header has a colon
qualifies, and where that module finds nothing. -/
theorem header_with_colon_cut :
    (resolve .empty nested).module? = some nestedModule ∧
    nestedModule.imports.isEmpty = true ∧
    LastWith (·.header = nestedModule.header) (additions [.add 0 nestedModule] 0) nestedModule ∧
    Surrounds (editedSets [.add 0 nestedModule] 0) outer
      (namesIn (editedSets [.add 0 nestedModule] 0) outer) ∧
    (namesIn (editedSets [.add 0 nestedModule] 0) outer).header ≠ nestedModule.header ∧
    nestedModule.header ∈ (outer.elements "import").map (·.text) ∧
    ((namesIn (editedSets [.add 0 nestedModule] 0) outer).lookup?
      (qualified nestedModule.header "n")).isSome = true ∧
    (lookupType (namesIn .empty nested) (qualified nestedModule.header "n") ⟨0, 0⟩).errors.map
      (·.cause.code) = [3000] := by
  refine ⟨?_, by decide +kernel, ⟨[], [], rfl, rfl, by simp⟩, ⟨rfl, rfl⟩, by decide +kernel,
    by decide +kernel, by decide +kernel, by decide +kernel⟩
  have hsome : (resolve .empty nested).module?.isSome = true := by decide +kernel
  rw [nestedModule, ← Option.some_get hsome]
  rfl

end CodecGen.Resolve
