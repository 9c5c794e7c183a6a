import CodecGen.Proofs.Header
import CodecGen.Proofs.Origin
set_option autoImplicit false
/-!
The names that declarations introduce in a header. A structure, an event, an error and a scalar are
introduced under their declared names. Enumerations, unions and requests go by the names of their types,
so that one which is declared as another type's second name introduces the first name again.
-/
namespace CodecGen.Emit
open Schema Resolve

def typeLast (d : Decl) : String := d.type.typeName.last

def GoesByType (d : Decl) : Prop := d.type.kind ∈ [.enum, .union, .request]

def Renamed (d : Decl) : Prop := GoesByType d ∧ typeLast d ≠ d.name.last

instance (d : Decl) : Decidable (GoesByType d) := inferInstanceAs (Decidable (_ ∈ _))

instance (d : Decl) : Decidable (Renamed d) := inferInstanceAs (Decidable (_ ∧ _))

def messageSuffixes (d : Decl) : List String :=
  ["Request", "Response"] ++ if d.reply.isSome then ["Reply"] else []

def Takes (d request : Decl) : Prop :=
  d.type.kind ≠ .request ∧ request.type.kind = .request ∧
    typeLast d ∈ (messageSuffixes request).map (typeLast request ++ ·)

/-- The suffixes under which types are introduced end differently, so that a name shows which one it
has. -/
theorem suffix_injective {a b s t : String} (hs : s ∈ ["Request", "Response", "Reply"])
    (ht : t ∈ ["Request", "Response", "Reply"]) (h : a ++ s = b ++ t) : s = t ∧ a = b := by
  have hlast {x y : String} (hy : y.toList ≠ []) :
      (x ++ y).toList.getLast? = y.toList.getLast? := by
    rw [String.toList_append, List.getLast?_append_of_ne_nil _ hy]
  have hnonempty : ∀ x ∈ ["Request", "Response", "Reply"], x.toList ≠ [] := by decide
  have hends : ∀ x ∈ ["Request", "Response", "Reply"], ∀ y ∈ ["Request", "Response", "Reply"],
      x.toList.getLast? = y.toList.getLast? → x = y := by decide
  have hsame : s = t := by
    refine hends s hs t ht ?_
    rw [← hlast (hnonempty s hs), h, hlast (hnonempty t ht)]
  subst hsame
  exact ⟨rfl, (String.append_left_inj s).mp h⟩

theorem messageSuffixes_subset (d : Decl) :
    ∀ s ∈ messageSuffixes d, s ∈ ["Request", "Response", "Reply"] := by
  unfold messageSuffixes
  split <;> decide

section
variable {d e : Decl}

theorem mem_introducedBy_request (h : declDeclarable d = true) (hkind : d.type.kind = .request)
    (hreply : ∀ r ∈ d.reply, r.name = d.type.typeName) {name : String} :
    name ∈ introducedBy d ↔ name ∈ (messageSuffixes d).map (typeLast d ++ ·) := by
  obtain ⟨own, type, reply⟩ := d
  cases type with
  | container shape n fields =>
    cases shape with
    | request opcode =>
      cases reply with
      | none => simp [introducedBy, messageSuffixes, typeLast, Ty.typeName]
      | some r =>
        obtain rfl : r.name = n := hreply r rfl
        simp [introducedBy, messageSuffixes, typeLast, Ty.typeName]
        tauto
    | _ => cases hkind
  | mention => cases h
  | _ => cases hkind

theorem mem_introducedBy_named (h : declDeclarable d = true) (hd : GoesByType d)
    (hkind : d.type.kind ≠ .request) {name : String} :
    name ∈ introducedBy d ↔ name = typeLast d := by
  obtain ⟨own, type, reply⟩ := d
  cases type with
  | enum | union => simp [introducedBy, typeLast, Ty.typeName]
  | mention => cases h
  | container shape => cases shape <;> simp_all [GoesByType, Ty.kind, Shape.kind]
  | _ => simp [GoesByType, Ty.kind] at hd

theorem ownName_mem_of_not_goesByType (h : declDeclarable d = true) (hd : ¬ GoesByType d) :
    ownName d ∈ introducedBy d := by
  obtain ⟨own, type, reply⟩ := d
  cases type with
  | container shape n fields =>
    cases shape with
    | request => simp [GoesByType, Ty.kind, Shape.kind] at hd
    | _ => exact List.mem_singleton_self _
  | simple n => simp [ownName, introducedBy, typeSuffix, suffix, Ty.kind]
  | enum | union => simp [GoesByType, Ty.kind] at hd
  | _ => cases h

theorem ownName_mem_iff (h : declDeclarable d = true)
    (hreply : ∀ r ∈ d.reply, r.name = d.type.typeName) :
    ownName d ∈ introducedBy d ↔ ¬ Renamed d := by
  by_cases hd : GoesByType d
  · have hrenamed : ¬ Renamed d ↔ d.name.last = typeLast d := by
      unfold Renamed
      tauto
    rw [hrenamed]
    by_cases hkind : d.type.kind = .request
    · have hown : ownName d = d.name.last ++ "Request" := by
        rw [ownName, typeSuffix, hkind]
        rfl
      rw [mem_introducedBy_request h hkind hreply, List.mem_map, hown]
      constructor
      · rintro ⟨s, hs, heq⟩
        exact (suffix_injective (messageSuffixes_subset d s hs) (by decide) heq).2.symm
      · intro heq
        exact ⟨"Request", by simp [messageSuffixes], by rw [heq]⟩
    · have hown : ownName d = d.name.last := by
        have hsuffix : suffix d.type.kind = "" := by
          unfold GoesByType at hd
          simp only [List.mem_cons, List.not_mem_nil, or_false] at hd
          rcases hd with hd | hd | hd
          · rw [hd]; rfl
          · rw [hd]; rfl
          · exact absurd hd hkind
        rw [ownName, typeSuffix, hsuffix, String.append_empty]
      rw [mem_introducedBy_named h hd hkind, hown]
  · have hmem := ownName_mem_of_not_goesByType h hd
    have hrenamed : ¬ Renamed d := fun hr => hd hr.1
    exact iff_of_true hmem hrenamed

def Collide (lines more : List DeclLine) : Prop :=
  ∃ name ∈ introducedNames lines, name ∈ introducedNames more

theorem requests_meet_iff (hdecl : declDeclarable d = true) (hedecl : declDeclarable e = true)
    (hreply : ∀ r ∈ d.reply, r.name = d.type.typeName)
    (hereply : ∀ r ∈ e.reply, r.name = e.type.typeName)
    (hkind : d.type.kind = .request) (hekind : e.type.kind = .request) :
    (∃ name ∈ introducedBy d, name ∈ introducedBy e) ↔ typeLast d = typeLast e := by
  simp only [mem_introducedBy_request hdecl hkind hreply, mem_introducedBy_request hedecl hekind hereply]
  constructor
  · rintro ⟨name, hname, hmore⟩
    obtain ⟨s, hs, rfl⟩ := List.mem_map.mp hname
    obtain ⟨t, ht, heq⟩ := List.mem_map.mp hmore
    exact (suffix_injective (messageSuffixes_subset e t ht) (messageSuffixes_subset d s hs) heq).2.symm
  · intro heq
    have hsuffix : ∀ c : Decl, "Request" ∈ messageSuffixes c := fun c => by simp [messageSuffixes]
    exact ⟨typeLast d ++ "Request", List.mem_map.mpr ⟨_, hsuffix d, rfl⟩,
      List.mem_map.mpr ⟨_, hsuffix e, by rw [heq]⟩⟩

theorem takes_iff_meet (hd : GoesByType d) (hdecl : declDeclarable d = true)
    (hedecl : declDeclarable e = true) (hereply : ∀ r ∈ e.reply, r.name = e.type.typeName)
    (hkind : d.type.kind ≠ .request) (hekind : e.type.kind = .request) :
    Takes d e ↔ ∃ name ∈ introducedBy d, name ∈ introducedBy e := by
  simp only [Takes, mem_introducedBy_named hdecl hd hkind, mem_introducedBy_request hedecl hekind hereply]
  constructor
  · intro h
    exact ⟨_, rfl, h.2.2⟩
  · rintro ⟨_, rfl, hmem⟩
    exact ⟨hkind, hekind, hmem⟩

theorem introducedBy_meet_iff (hd : GoesByType d) (he : GoesByType e)
    (hdecl : declDeclarable d = true) (hedecl : declDeclarable e = true)
    (hreply : ∀ r ∈ d.reply, r.name = d.type.typeName)
    (hereply : ∀ r ∈ e.reply, r.name = e.type.typeName) :
    (∃ name ∈ introducedBy d, name ∈ introducedBy e) ↔
      ((d.type.kind = .request ↔ e.type.kind = .request) ∧ typeLast d = typeLast e) ∨
        Takes d e ∨ Takes e d := by
  by_cases hkind : d.type.kind = .request <;> by_cases hekind : e.type.kind = .request
  · -- neither request takes the name of the other's types
    rw [requests_meet_iff hdecl hedecl hreply hereply hkind hekind]
    simp [Takes, hkind, hekind]
  · have htakes := takes_iff_meet he hedecl hdecl hreply hekind hkind
    have hmeet : (∃ name ∈ introducedBy d, name ∈ introducedBy e) ↔ Takes e d := by
      rw [htakes]
      exact exists_congr fun name => and_comm
    rw [hmeet]
    simp [Takes, hkind, hekind]
  · rw [← takes_iff_meet hd hdecl hedecl hereply hkind hekind]
    simp [Takes, hkind, hekind]
  · simp only [mem_introducedBy_named hdecl hd hkind, mem_introducedBy_named hedecl he hekind]
    simp [Takes, hkind, hekind]

end

theorem pairwise_names {m : Module} (h : Origins m) :
    m.decls.Pairwise fun d e => d.name.last ≠ e.name.last := by
  obtain ⟨entries, hnodup, hnames⟩ := h.names
  have hlasts : m.decls.map (·.name.last) = entries := by
    have h := congrArg (List.map Name.last) hnames
    simpa [Function.comp_def, Name.last] using h
  rw [← hlasts] at hnodup
  exact List.pairwise_map.mp hnodup

/-- What a header introduces for the declarations of a module. A declaration introduces the name under
which it is to be found unless it is renamed. Those that go by their types share a name where the types
have one name, or where one is called like a type of a request; the former only happens to declarations
of which one is renamed. -/
structure NamesIntroduced (m : Module) (body : List DeclLine) : Prop where
  own : ∀ d ∈ m.decls, ∃ lines, declareType (headerSite m d) d = .ok lines ∧ lines <:+: body ∧
    (ownName d ∈ introducedNames lines ↔ ¬ Renamed d)
  distinct : m.decls.Pairwise fun d e =>
    GoesByType d → GoesByType e → ¬ Renamed d → ¬ Renamed e → typeLast d ≠ typeLast e
  collide : m.decls.Pairwise fun d e => GoesByType d → GoesByType e →
    ∀ lines more, declareType (headerSite m d) d = .ok lines →
      declareType (headerSite m e) e = .ok more →
      (Collide lines more ↔
        ((d.type.kind = .request ↔ e.type.kind = .request) ∧ typeLast d = typeLast e) ∨
          Takes d e ∨ Takes e d)

theorem typeLast_of_not_renamed {d : Decl} (hgoes : GoesByType d) (h : ¬ Renamed d) :
    typeLast d = d.name.last := by
  by_contra hdiff
  exact h ⟨hgoes, hdiff⟩

/-- The header of every module that is resolved and generated introduces the names of its declarations
so far as none of them is renamed. -/
theorem declared_names_introduced_iff (set : ModuleSet) (hset : Compiled set) (root : Markup.Element)
    (m : Module) (hm : (resolve set root).module? = some m) (headerPath : String)
    (artifacts : Artifacts) (h : generate m headerPath = .ok artifacts) :
    ∃ body, (declareAll m.className m.decls).2 = .ok body ∧
      artifacts.header = render (headerLines m (defaultHeaderPath m headerPath) body) ∧
      NamesIntroduced m body := by
  have hgrounded := resolve_grounded (grounded_of_compiled hset) hm
  have horigins : Origins m := (hgrounded m .refl).1
  have hnames := pairwise_names horigins
  obtain ⟨hbody, hheader, hdeclarable⟩ := header_of_generate h
  refine ⟨headerBody m, hbody, hheader, ?_, ?_, ?_⟩
  · intro d hd
    refine ⟨_, declareType_of_generate h hd, infix_headerBody hd, ?_⟩
    rw [introducedNames_declLines]
    exact ownName_mem_iff (hdeclarable d hd) (horigins.replies d hd)
  · refine hnames.imp fun {d e} hne hgoes hegoes hrenamed herenamed heq => ?_
    rw [typeLast_of_not_renamed hgoes hrenamed, typeLast_of_not_renamed hegoes herenamed] at heq
    exact hne heq
  · refine hnames.imp_of_mem fun {d e} hd he _ hgoes hegoes lines more hlines hmore => ?_
    obtain rfl := Except.ok.inj ((declareType_of_generate h hd).symm.trans hlines)
    obtain rfl := Except.ok.inj ((declareType_of_generate h he).symm.trans hmore)
    rw [Collide, introducedNames_declLines, introducedNames_declLines]
    exact introducedBy_meet_iff hgoes hegoes (hdeclarable d hd) (hdeclarable e he)
      (horigins.replies d hd) (horigins.replies e he)

def secondName : Markup.Element :=
  described "xcb" [("header", "alias")]
    [described "enum" [("name", "Mode")] [described "item" [("name", "Off")] []],
      described "typedef" [("oldname", "Mode"), ("newname", "State")] [],
      described "request" [("name", "Switch"), ("opcode", "4")]
        [described "field" [("type", "CARD8"), ("name", "mode")] [],
          described "reply" [] [described "field" [("type", "CARD8"), ("name", "done")] []]]]

theorem declared_names_introduced_iff_secondName :
    ∃ m artifacts, (resolve .empty secondName).module? = some m ∧ generate m "" = .ok artifacts ∧
      ∃ body, (declareAll m.className m.decls).2 = .ok body ∧
        artifacts.header = render (headerLines m (defaultHeaderPath m "") body) ∧
        NamesIntroduced m body := by
  have hgenerates : (resolve .empty secondName).module?.map (fun m => (generate m "").isOk) =
      some true := by decide +kernel
  obtain ⟨m, hm, hok⟩ := Option.map_eq_some_iff.mp hgenerates
  obtain ⟨artifacts, hartifacts⟩ := eq_ok_of_isOk hok
  exact ⟨m, artifacts, hm, hartifacts,
    declared_names_introduced_iff .empty (.empty 0) secondName m hm "" artifacts hartifacts⟩

/-- The second name is not introduced, and the first one is introduced twice. -/
theorem second_name_not_introduced :
    (resolve .empty secondName).module?.map (fun m =>
      (m.decls.map ownName, (declareAll m.className m.decls).2.toOption.map introducedNames)) =
      some (["Mode", "State", "SwitchRequest"],
        some ["Mode", "Mode", "SwitchRequest", "SwitchReply", "SwitchResponse"]) := by
  decide +kernel

end CodecGen.Emit
