import CodecGen.Proofs.WrittenNames
set_option autoImplicit false
/-!
The names of types in a header. The type of a member is written by its path as seen from the class of
the module. Read there, the path leads to the declaration of that type, unless it lacks the suffix under
which the type is declared or its first segment is found in the class itself.
-/
namespace CodecGen.Emit
open Schema Resolve

theorem appendLast_snoc (path : List String) (name s : String) :
    appendLast (path ++ [name]) s = path ++ [name ++ s] := by
  simp [appendLast]

theorem qualifiedPath_of_typeName {n : Module} {t : Ty} {name : String}
    (h : t.typeName = declPath n ++ [name]) :
    qualifiedPath t = headerScope n ++ [name ++ typeSuffix t] := by
  unfold qualifiedPath
  rw [h, appendLast_snoc]
  unfold declPath headerScope Module.className
  cases n.isExt <;> simp

theorem chop_headerScope (m : Module) (name other : String) :
    chop ["x11", other, name] (headerScope m) =
      if other = m.className then [name] else [other, name] := by
  by_cases h : other = m.className <;> simp [chop, h]

def scalarNames : List String :=
  ["uint8_t", "uint16_t", "uint32_t", "uint64_t", "int8_t", "int16_t", "int32_t", "int64_t", "char",
    "void", "float", "double"]

theorem scalar_mem {name scalar : String} (h : scalar? name = some scalar) : scalar ∈ scalarNames := by
  have hmem := mem_of_lookup h
  simp only [List.mem_cons, Prod.mk.injEq, List.not_mem_nil, or_false] at hmem
  rcases hmem with ⟨-, rfl⟩ | ⟨-, rfl⟩ | ⟨-, rfl⟩ | ⟨-, rfl⟩ | ⟨-, rfl⟩ | ⟨-, rfl⟩ | ⟨-, rfl⟩ | ⟨-, rfl⟩ |
    ⟨-, rfl⟩ | ⟨-, rfl⟩ | ⟨-, rfl⟩ | ⟨-, rfl⟩ | ⟨-, rfl⟩ | ⟨-, rfl⟩ <;> decide

theorem isScalar_writtenName {ns : List String} {t : Ty} (h : IsScalar (qualify t ns)) :
    IsScalar (writtenName ns t) := by
  cases t with
  | list member count length =>
    unfold writtenName
    dsimp only
    split
    · exact ⟨"CARD8", rfl⟩
    · exact h
  | _ => exact h

theorem isScalar_of_typeName {m : Module} {t : Ty} {scalar : String} (hscalar : IsScalar scalar)
    (hname : t.typeName = [scalar]) (hsuffix : typeSuffix t = "") :
    IsScalar (writtenName (headerScope m) t) := by
  have hplain : scalar ≠ "xcb" ∧ scalar ≠ "x11" := by
    obtain ⟨name, h⟩ := hscalar
    have hnone : ∀ s ∈ scalarNames, s ≠ "xcb" ∧ s ≠ "x11" := by decide
    exact hnone scalar (scalar_mem h)
  have hqualify : qualify t (headerScope m) = scalar := by
    have hpath : qualifiedPath t = [scalar] := by
      unfold qualifiedPath
      rw [hname, hsuffix, show appendLast [scalar] "" = [scalar] by simp [appendLast]]
      simp [hplain.1]
    rw [qualify, hpath]
    simp [chop, hplain.2]
  exact isScalar_writtenName (hqualify ▸ hscalar)

theorem entry_of_decl {n : Module} (h : Origins n) {d : Decl} (hd : d ∈ n.decls) :
    ∃ entry, d.name = declPath n ++ [entry] := by
  obtain ⟨entries, -, hnames⟩ := h.names
  have hmem : d.name ∈ n.decls.map (·.name) := List.mem_map_of_mem hd
  rw [hnames] at hmem
  obtain ⟨entry, -, hentry⟩ := List.mem_map.mp hmem
  exact ⟨entry, hentry.symm⟩

theorem name_of_declared {m n : Module} (h : Grounded m) (hn : Reaches m n) {d : Decl}
    (hd : d ∈ n.decls) (hown : DeclaresOwn d) {u : Ty} (hcut : Cut u d.type) :
    ∃ entry, u.typeName = declPath n ++ [entry] ∧ ownName d = entry ++ typeSuffix u := by
  obtain ⟨entry, hentry⟩ := entry_of_decl (h n hn).1 hd
  refine ⟨entry, ?_, ?_⟩
  · rw [typeName_of_cut hcut, typeName_of_declaresOwn hown, hentry]
  · rw [ownName, typeSuffix, typeSuffix, kind_of_cut hcut, hentry]
    simp [Name.last]

theorem ownName_introduced {n : Module} {d : Decl} (hd : d ∈ n.decls) (hown : DeclaresOwn d) :
    ownName d ∈ introducedNames (headerBody n) := by
  rw [introducedNames_headerBody, List.mem_flatMap]
  refine ⟨d, hd, ?_⟩
  obtain ⟨name, type, reply⟩ := d
  cases type with
  | enum n | union n =>
    obtain rfl : n = name := hown
    simp [introducedBy, ownName, typeSuffix, Ty.kind, suffix]
  | container shape n fields =>
    obtain rfl : n = name := hown
    cases shape <;> simp [introducedBy, ownName, typeSuffix, Ty.kind, Shape.kind, suffix]
  | _ => exact hown.elim

section
variable {m n : Module} {d : Decl} {t u : Ty} {entry : String}

theorem not_captured_of_found {path : List String}
    (hpath : qualifiedPath t = headerScope n ++ [entry]) (hlen : path.length = 3)
    (h : FoundAt m (headerScope m) (chop (qualifiedPath t) (headerScope m)) path) :
    ¬ Captured m t := by
  rintro ⟨other, name, -, hother, hne, hsight⟩
  have hclass : other.className = n.className := by
    rw [hpath] at hother
    simpa using (List.cons.inj (List.cons.inj hother).2).1.symm
  rw [hclass] at hne hsight
  obtain ⟨around, hprefix, hfound, -, -, hinner⟩ := h
  rw [hpath, show headerScope n ++ [entry] = ["x11", n.className, entry] from rfl,
    chop_headerScope, if_neg hne] at hfound hinner
  have hshort : around.length = 1 := by
    have := congrArg List.length hfound
    simp at this
    omega
  exact hinner (headerScope m) (List.prefix_refl _) (by simp [hshort]) hsight

theorem found_of_not_captured (hn : Reaches m n)
    (hintroduced : entry ∈ introducedNames (headerBody n))
    (hpath : qualifiedPath t = headerScope n ++ [entry]) (h : ¬ Captured m t) :
    FoundAt m (headerScope m) (chop (qualifiedPath t) (headerScope m)) (headerScope n ++ [entry]) := by
  have hsight : InSight m (headerScope n ++ [entry]) := .typeOf hn hintroduced
  rw [hpath, show headerScope n ++ [entry] = ["x11", n.className, entry] from rfl, chop_headerScope]
  by_cases hclass : n.className = m.className
  · rw [if_pos hclass]
    refine ⟨headerScope m, List.prefix_refl _, by rw [hclass]; rfl, hsight, ?_, ?_⟩
    · rw [headerScope, hclass] at hsight
      exact hsight
    · intro inner hprefix hlonger
      exact absurd hprefix.length_le (by omega)
  · rw [if_neg hclass]
    refine ⟨["x11"], ⟨[m.className], rfl⟩, rfl, hsight, .classOf hn, ?_⟩
    intro inner hprefix hlonger hinner
    -- The only scope inside the namespace is the class of the module itself.
    have hinnerScope : inner = headerScope m :=
      hprefix.eq_of_length (by have := hprefix.length_le; simp at this hlonger ⊢; omega)
    subst hinnerScope
    exact h ⟨n, entry, hn, hpath, hclass, hinner⟩

/-- The path that is written for a declared type leads to its declaration exactly when it has the suffix
of the declaration and is not captured. -/
theorem found_iff (h : Grounded m) (hn : Reaches m n) (hd : d ∈ n.decls) (hown : DeclaresOwn d)
    (hcut : Cut u d.type) (hname : t.typeName = u.typeName) :
    (∃ path, FoundAt m (headerScope m) (chop (qualifiedPath t) (headerScope m)) path ∧
        DeclaredAt m u path) ↔
      typeSuffix t = typeSuffix u ∧ ¬ Captured m t := by
  obtain ⟨entry, hentry, hdeclared⟩ := name_of_declared h hn hd hown hcut
  have hpath : qualifiedPath t = headerScope n ++ [entry ++ typeSuffix t] :=
    qualifiedPath_of_typeName (hname.trans hentry)
  constructor
  · rintro ⟨path, hfound, n', d', hn', hd', hown', hcut', hat⟩
    refine ⟨?_, not_captured_of_found hpath (by rw [hat]; rfl) hfound⟩
    -- Both paths end in the name of the type, with the suffix of `t` and of the declaration.
    obtain ⟨entry', hentry', hdeclared'⟩ := name_of_declared h hn' hd' hown' hcut'
    have hsame : entry = entry' := by
      simpa using congrArg List.getLast? (hentry.symm.trans hentry')
    obtain ⟨around, -, hrelative, -⟩ := hfound
    have hlast : path.getLast? = some (entry ++ typeSuffix t) := by
      rw [hrelative, hpath, show headerScope n ++ [entry ++ typeSuffix t] =
        ["x11", n.className, entry ++ typeSuffix t] from rfl, chop_headerScope]
      split <;> simp
    rw [hat, hdeclared', ← hsame] at hlast
    have hends : entry ++ typeSuffix u = entry ++ typeSuffix t := by simpa using hlast
    exact ((String.append_right_inj entry).mp hends).symm
  · rintro ⟨hsuffix, hcaptured⟩
    have hintroduced := ownName_introduced hd hown
    rw [hsuffix, ← hdeclared] at hpath
    exact ⟨_, found_of_not_captured hn hintroduced hpath hcaptured, n, d, hn, hd, hown, hcut, rfl⟩

theorem kind_ne_switch (h : Anchored m t) : t.kind ≠ .switch := by
  cases h with
  | scalar => simp [Ty.kind]
  | declared hn hd hown hcut =>
    rw [kind_of_cut hcut]
    rcases declaresOwn_cases hown with ⟨_, _, htype⟩ | ⟨_, htype⟩ | ⟨shape, _, htype⟩ <;> rw [htype]
    · simp [Ty.kind]
    · simp [Ty.kind]
    · cases shape <;> simp [Ty.kind, Shape.kind]

/-- Types go by the name of the type they are made of, and only messages have a suffix. -/
theorem wellNamed_of_anchored (h : Grounded m) (hu : Anchored m (namedType t))
    (hname : t.typeName = (namedType t).typeName)
    (hsuffix : typeSuffix t = "" ∨ typeSuffix t = typeSuffix (namedType t))
    (hlacks : LacksSuffix t ↔ typeSuffix t ≠ typeSuffix (namedType t)) (hkind : t.kind ≠ .switch) :
    WellNamed m t ↔ IsScalar (writtenName (headerScope m) t) ∨ ¬ Misnamed m t := by
  by_cases hscalar : IsScalar (writtenName (headerScope m) t)
  · exact iff_of_true (.inl hscalar) (.inl hscalar)
  · unfold WellNamed Misnamed
    generalize namedType t = u at *
    cases hu with
    | @scalar name s hs =>
      have hplain : typeSuffix t = "" := hsuffix.elim id fun heq => heq.trans rfl
      exact absurd (isScalar_of_typeName ⟨name, hs⟩ hname hplain) hscalar
    | declared hn hd hown hcut =>
      rw [found_iff h hn hd hown hcut hname]
      simp only [hscalar, hlacks, hkind]
      tauto

theorem wellNamed_iff (h : Grounded m) (ht : Laid (Anchored m) t) :
    WellNamed m t ↔ IsScalar (writtenName (headerScope m) t) ∨ ¬ Misnamed m t := by
  cases t with
  | list member count length =>
    refine wellNamed_of_anchored h ht rfl (.inl rfl) ?_ (by simp [Ty.kind])
    exact ne_comm
  | exprField base value =>
    refine wellNamed_of_anchored h ht rfl (.inl rfl) ?_ (by simp [Ty.kind])
    exact ne_comm
  | switch name selector cases =>
    have hmisnamed : Misnamed m (.switch name selector cases) := .inr (.inl rfl)
    unfold WellNamed
    refine or_congr_right (iff_of_false ?_ (not_not_intro hmisnamed))
    rintro ⟨path, -, n, d, hn, hd, hown, hcut, -⟩
    cases isLeaf_of_anchored (.declared hn hd hown hcut)
  | case => exact ht.elim
  | pad bytes align =>
    have hscalar : IsScalar (writtenName (headerScope m) (.pad bytes align)) :=
      isScalar_of_typeName ⟨"CARD8", rfl⟩ rfl rfl
    exact iff_of_true (.inl hscalar) (.inl hscalar)
  | _ =>
    refine wellNamed_of_anchored h ht rfl (.inr rfl) ?_ (kind_ne_switch ht)
    simp [LacksSuffix, namedType]

end

mutual

theorem laid_of_mem_writtenIn {L : Ty → Prop} (fields : List Field) (h : LaidIn L fields) :
    ∀ t ∈ writtenIn fields, Laid L t := by
  match fields with
  | [] => simp [writtenIn]
  | ⟨name, type, wire, visible⟩ :: rest =>
    rw [writtenIn, List.forall_mem_append]
    refine ⟨?_, laid_of_mem_writtenIn rest h.2⟩
    split
    · exact laid_of_mem_writtenBy type h.1
    · simp

theorem laid_of_mem_writtenBy {L : Ty → Prop} (type : Ty) (h : Laid L type) :
    ∀ t ∈ writtenBy type, Laid L t := by
  cases type with
  | switch n selector cases => exact laid_of_mem_writtenBranches cases h
  | _ => exact List.forall_mem_singleton.mpr h

theorem laid_of_mem_writtenBranches {L : Ty → Prop} (cases : List Field) (h : LaidBranches L cases) :
    ∀ t ∈ writtenBranches cases, Laid L t := by
  match cases with
  | [] => simp [writtenBranches]
  | ⟨name, .case n byValue byMask selectors fields, wire, visible⟩ :: rest =>
    rw [writtenBranches, List.forall_mem_append]
    exact ⟨laid_of_mem_writtenIn fields h.1.2.2, laid_of_mem_writtenBranches rest h.2⟩

end

theorem laid_of_mem_writtenTypes {L : Ty → Prop} {d : Decl} (h : LaidIn L (declFields d)) :
    ∀ t ∈ writtenTypes d, Laid L t := by
  obtain ⟨name, type, reply⟩ := d
  rw [declFields, laidIn_append] at h
  cases type with
  | union n fields =>
    intro t ht
    obtain ⟨f, hf, rfl⟩ := List.mem_map.mp ht
    exact laidIn_iff.mp h.1 f hf
  | container shape n fields =>
    have hfields := laid_of_mem_writtenIn fields h.1
    cases shape with
    | request opcode =>
      exact List.forall_mem_append.mpr ⟨hfields, laid_of_mem_writtenIn _ h.2⟩
    | _ => exact hfields
  | _ => simp [writtenTypes]

structure TypesNamed (m : Module) (body : List DeclLine) : Prop where
  headers : ∀ n, Reaches m n → ∀ headerPath artifacts, generate n headerPath = .ok artifacts →
    (declareAll n.className n.decls).2 = .ok (headerBody n)
  written : ∀ d ∈ m.decls, ∃ lines, declareType (headerSite m d) d = .ok lines ∧ lines <:+: body ∧
    memberTexts lines =
      (writtenTypes d).map fun t => textAround (writtenName (headerScope m) t) t
  named : ∀ d ∈ m.decls, ∀ t ∈ writtenTypes d,
    (WellNamed m t ↔ IsScalar (writtenName (headerScope m) t) ∨ ¬ Misnamed m t)

/-- The header of every module that is resolved and generated names, for each of its members, a scalar
or the very type that a header in reach declares, exactly so far as the type is not misnamed. -/
theorem member_types_declared_iff (set : ModuleSet) (hset : Compiled set) (root : Markup.Element)
    (m : Module) (hm : (resolve set root).module? = some m) (headerPath : String)
    (artifacts : Artifacts) (h : generate m headerPath = .ok artifacts) :
    ∃ body, (declareAll m.className m.decls).2 = .ok body ∧
      artifacts.header = render (headerLines m (defaultHeaderPath m headerPath) body) ∧
      TypesNamed m body := by
  have hgrounded := resolve_grounded (grounded_of_compiled hset) hm
  obtain ⟨hbody, hheader, hdeclarable⟩ := header_of_generate h
  refine ⟨headerBody m, hbody, hheader, ?_, ?_, ?_⟩
  · intro n _ headerPath artifacts h
    exact (header_of_generate h).1
  · intro d hd
    refine ⟨_, declareType_of_generate h hd, infix_headerBody hd, ?_⟩
    rw [memberTexts_declLines (hdeclarable d hd)]
    exact List.map_congr_left fun t _ => memberType_eq _ t
  · intro d hd t ht
    have hlaid := (hgrounded m .refl).1.fields d hd
    exact wellNamed_iff hgrounded (laid_of_mem_writtenTypes hlaid t ht)

def keyHistory : Markup.Element :=
  described "xcb" [("header", "history")]
    [described "event" [("name", "Key"), ("number", "2")]
        [described "field" [("type", "CARD8"), ("name", "detail")] []],
      described "struct" [("name", "History")]
        [described "list" [("type", "Key"), ("name", "keys")] [described "value" [] [] "2"],
          described "field" [("type", "Key"), ("name", "last")] []]]

theorem member_types_declared_iff_keyHistory :
    ∃ m artifacts, (resolve .empty keyHistory).module? = some m ∧ generate m "" = .ok artifacts ∧
      ∃ body, (declareAll m.className m.decls).2 = .ok body ∧
        artifacts.header = render (headerLines m (defaultHeaderPath m "") body) ∧
        TypesNamed m body := by
  have hgenerates : (resolve .empty keyHistory).module?.map (fun m => (generate m "").isOk) =
      some true := by decide +kernel
  obtain ⟨m, hm, hok⟩ := Option.map_eq_some_iff.mp hgenerates
  obtain ⟨artifacts, hartifacts⟩ := eq_ok_of_isOk hok
  exact ⟨m, artifacts, hm, hartifacts,
    member_types_declared_iff .empty (.empty 0) keyHistory m hm "" artifacts hartifacts⟩

/-- The event alone is named as it is declared; in the list its name lacks the suffix, and no type of
that name is declared. -/
theorem listed_event_not_declared :
    (resolve .empty keyHistory).module?.map (fun m =>
      (declareAll m.className m.decls).2.toOption.map fun body =>
        (memberTexts body, introducedNames body)) =
      some (some (["uint8_t", "std::array<Key, 2>", "KeyEvent"], ["KeyEvent", "History"])) := by
  decide +kernel

end CodecGen.Emit
