import CodecGen.Proofs.BracketBalance
import CodecGen.Proofs.NumberedSource
set_option autoImplicit false
/-!
Temporaries are fresh. Where no string of a module is the name of a temporary, its header has none, and
in its source file the temporaries are numbered from zero on, without a gap, in the order of their
declarations; each is used only behind its declaration and in the same block.
-/
namespace CodecGen.Emit
open Schema

def DeclLine.Clean : DeclLine → Prop
  | ifDefined x | undefine x | openEnum x | openStruct x | openUnion x | unionConstructor x
  | closeMember x | triviallyCopyable x | methodArgument x => Emit.Clean x
  | enumItem x y | unionMember x y | member x y | typeAlias x y | response x y | methodResult x y =>
    Emit.Clean x ∧ Emit.Clean y
  | blank | endIf | openAnonymous | closeType => True

theorem DeclLine.Clean.text {l : DeclLine} (h : l.Clean) : Emit.Clean l.text := by
  cases l with
  | blank | endIf | openAnonymous | closeType => exact .of_text _ rfl
  | ifDefined name => exact Mentions.after "#ifdef " rfl h
  | undefine name => exact Mentions.after "#undef " rfl h
  | openEnum name => exact (Mentions.after "enum class " rfl h).ending " \x7b" rfl
  | enumItem name value => exact (h.1.between " = " rfl h.2).ending "," rfl
  | openStruct name => exact (Mentions.after "struct " rfl h).ending " \x7b" rfl
  | openUnion name => exact (Mentions.after "union " rfl h).ending " \x7b" rfl
  | unionConstructor name => exact Mentions.ending h "() \x7b memset(this, 0, sizeof(*this)); \x7d" rfl
  | unionMember type name => exact (h.1.between " " rfl h.2).ending ";" rfl
  | member type name => exact (h.1.between " " rfl h.2).ending "\x7b\x7d;" rfl
  | closeMember name => exact (Mentions.after "\x7d " rfl h).ending ";" rfl
  | triviallyCopyable name =>
    exact (Mentions.after "static_assert(std::is_trivially_copyable<" rfl h).ending ">::value, \"\");" rfl
  | typeAlias name type => exact ((h.1.after "using " rfl).between " = " rfl h.2).ending ";" rfl
  | response method reply =>
    exact ((h.1.after "using " rfl).between "Response = Response<" rfl h.2).ending ">;" rfl
  | methodResult reply method => exact ((h.1.after "Future<" rfl).between "> " rfl h.2).ending "(" rfl
  | methodArgument request => exact (Mentions.after "    const " rfl h).ending "& request);" rfl

abbrev CleanLines (lines : List DeclLine) : Prop := ∀ l ∈ lines, l.Clean

theorem cleanLines_append {xs ys : List DeclLine} :
    CleanLines (xs ++ ys) ↔ CleanLines xs ∧ CleanLines ys := List.forall_mem_append

theorem undefLines_clean {name : String} (h : Clean name) : CleanLines (undefLines name) := by
  simp [undefLines, CleanLines, DeclLine.Clean, h]

theorem clean_arrayType {element : String} (h : Clean element) (count : Int) :
    Clean (arrayType element count) :=
  ((h.after "std::array<" rfl).between ", " rfl (clean_int count)).ending ">" rfl

theorem clean_listType {element : String} (h : Clean element) (count : Int) :
    Clean (listType element count) := by
  unfold listType
  split
  · exact clean_arrayType h count
  split
  · exact .of_text _ rfl
  split
  · exact .of_text _ rfl
  · exact (h.after "std::vector<" rfl).ending ">" rfl

theorem clean_memberType {type : Ty} (h : ∀ x ∈ typeTexts type, Clean x) (ns : List String) :
    Clean (memberType ns type) := by
  unfold memberType
  split
  · exact clean_listType (clean_typeText h ns) _
  · exact clean_typeText h ns

theorem clean_unionType {type : Ty} (h : ∀ x ∈ typeTexts type, Clean x) (ns : List String) :
    Clean (unionType ns type) := by
  unfold unionType
  split
  · exact clean_arrayType (clean_typeText h ns) _
  · exact clean_typeText h ns

mutual

theorem fieldLines_clean (ns : List String) (fields : List Field)
    (h : ∀ f ∈ fields, FieldHolds Clean f) : CleanLines (fieldLines ns fields) := by
  match fields with
  | [] => exact List.forall_mem_nil _
  | ⟨name, type, wire, visible⟩ :: rest =>
    obtain ⟨hf, hrest⟩ := List.forall_mem_cons.mp h
    rw [fieldLines, cleanLines_append]
    refine ⟨?_, fieldLines_clean ns rest hrest⟩
    split
    · exact memberLines_clean ns (safeName name) (clean_safeName hf.1) type hf.2
    · exact List.forall_mem_nil _

theorem memberLines_clean (ns : List String) (name : String) (hname : Clean name) (type : Ty)
    (h : ∀ x ∈ typeTexts type, Clean x) : CleanLines (memberLines ns name type) := by
  cases type with
  | switch n selector cases =>
    have hcases := fieldTexts_hold_iff.mp (List.forall_mem_append.mp h).2
    rw [memberLines, cleanLines_append, cleanLines_append]
    exact ⟨⟨List.forall_mem_singleton.mpr trivial, branchLines_clean ns cases hcases⟩,
      List.forall_mem_singleton.mpr hname⟩
  | _ => exact List.forall_mem_singleton.mpr ⟨clean_memberType h ns, hname⟩

theorem branchLines_clean (ns : List String) (cases : List Field)
    (h : ∀ f ∈ cases, FieldHolds Clean f) : CleanLines (branchLines ns cases) := by
  match cases with
  | [] => exact List.forall_mem_nil _
  | ⟨name, type, wire, visible⟩ :: rest =>
    obtain ⟨hf, hrest⟩ := List.forall_mem_cons.mp h
    have hmore := branchLines_clean ns rest hrest
    cases type with
    | case n byValue byMask selectors fields =>
      have hbody := fieldLines_clean ns fields (fieldTexts_hold_iff.mp (List.forall_mem_append.mp hf.2).2)
      rw [branchLines, cleanLines_append]
      refine ⟨?_, hmore⟩
      split
      · exact hbody
      · rw [cleanLines_append, cleanLines_append]
        exact ⟨⟨List.forall_mem_singleton.mpr trivial, hbody⟩,
          List.forall_mem_singleton.mpr (clean_safeName hf.1)⟩
    | _ => exact hmore

end

theorem structLines_clean {ns : List String} {name : String} {fields : List Field} (hname : Clean name)
    (h : ∀ f ∈ fields, FieldHolds Clean f) : CleanLines (structLines ns name fields) := by
  simp only [structLines, cleanLines_append]
  refine ⟨⟨⟨undefLines_clean hname, List.forall_mem_singleton.mpr hname⟩, fieldLines_clean ns fields h⟩, ?_⟩
  simp [CleanLines, DeclLine.Clean]

theorem enumItems_clean {items : List EnumItem} (value : EnumItem → String)
    (h : ∀ i ∈ items, Clean i.name ∧ Clean (value i)) :
    CleanLines (items.flatMap fun i => undefLines (safeName i.name) ++
      [.enumItem (safeName i.name) (value i)]) := by
  intro l hl
  obtain ⟨i, hi, hl⟩ := List.mem_flatMap.mp hl
  have hname := clean_safeName (h i hi).1
  rcases List.mem_append.mp hl with hl | hl
  · exact undefLines_clean hname l hl
  · obtain rfl := List.mem_singleton.mp hl
    exact ⟨hname, (h i hi).2⟩

theorem declareEnum_clean {name : Name} {values bits : List EnumItem} (hname : ∀ x ∈ name, Clean x)
    (hvalues : ∀ x ∈ values.flatMap itemTexts, Clean x) (hbits : ∀ x ∈ bits.flatMap itemTexts, Clean x) :
    CleanLines (declareEnum name values bits) := by
  have hitems : ∀ {items : List EnumItem}, (∀ x ∈ items.flatMap itemTexts, Clean x) →
      ∀ i ∈ items, Clean i.name ∧ Clean i.value := by
    intro items h i hi
    have htexts : ∀ x ∈ itemTexts i, Clean x := fun x hx => h x (List.mem_flatMap.mpr ⟨i, hi, hx⟩)
    simpa [itemTexts] using htexts
  have hlast := clean_last hname
  have hplain := enumItems_clean EnumItem.value fun i (hi : i ∈ values.filter fun v =>
    !isBit bits v.name) => hitems hvalues i (List.mem_filter.mp hi).1
  have hbitItems := enumItems_clean (fun b => "1 << " ++ b.value) fun i hi =>
    ⟨(hitems hbits i hi).1, (hitems hbits i hi).2.after "1 << " rfl⟩
  simp only [declareEnum, cleanLines_append]
  refine ⟨⟨⟨⟨undefLines_clean hlast, List.forall_mem_singleton.mpr hlast⟩, hplain⟩, hbitItems⟩, ?_⟩
  simp [CleanLines, DeclLine.Clean]

theorem replyLines_clean {ns : List String} {reply : Option Reply}
    (h : ∀ x ∈ reply.toList.flatMap replyTexts, Clean x) : CleanLines (replyLines ns reply) := by
  cases reply with
  | none => exact List.forall_mem_nil _
  | some reply =>
    have h : ∀ x ∈ replyTexts reply, Clean x := fun x hx => h x (by simpa using hx)
    obtain ⟨hname, hfields⟩ := List.forall_mem_append.mp h
    exact structLines_clean ((clean_last hname).ending "Reply" rfl) (fieldTexts_hold_iff.mp hfields)

theorem methodLines_clean {method : String} (reply : Option Reply) (h : Clean method) :
    CleanLines (methodLines method reply) := by
  have hreply : Clean (if reply.isSome then method ++ "Reply" else "void") := by
    split
    · exact h.ending "Reply" rfl
    · exact .of_text _ rfl
  have hrequest : Clean (method ++ "Request") := h.ending "Request" rfl
  simp [methodLines, CleanLines, DeclLine.Clean, h, hreply, hrequest]

theorem declLines_clean {ns : List String} {d : Decl} (h : ∀ x ∈ declTexts d, Clean x) :
    CleanLines (declLines ns d) := by
  obtain ⟨name, type, reply⟩ := d
  obtain ⟨h, hreply⟩ := List.forall_mem_append.mp h
  obtain ⟨hname, htype⟩ := List.forall_mem_append.mp h
  cases type with
  | union n fields =>
    obtain ⟨hn, hfields⟩ := List.forall_mem_append.mp htype
    have hfields := fieldTexts_hold_iff.mp hfields
    have hlast := clean_last hn
    have hmembers : CleanLines (fields.map (unionLine ns)) := by
      rw [CleanLines, List.forall_mem_map]
      exact fun f hf => ⟨clean_unionType (hfields f hf).2 ns, clean_safeName (hfields f hf).1⟩
    simp only [declLines, cleanLines_append]
    refine ⟨⟨?_, hmembers⟩, ?_⟩ <;> simp [CleanLines, DeclLine.Clean, hlast]
  | enum n values bits =>
    obtain ⟨htype, hbits⟩ := List.forall_mem_append.mp htype
    obtain ⟨hn, hvalues⟩ := List.forall_mem_append.mp htype
    exact declareEnum_clean hn hvalues hbits
  | container shape n fields =>
    obtain ⟨hn, hfields⟩ := List.forall_mem_append.mp htype
    have hfields := fieldTexts_hold_iff.mp hfields
    cases shape with
    | request opcode =>
      simp only [declLines, cleanLines_append]
      exact ⟨⟨structLines_clean ((clean_last hn).ending "Request" rfl) hfields, replyLines_clean hreply⟩,
        methodLines_clean reply (clean_last hn)⟩
    | _ => exact structLines_clean (clean_suffix (clean_last hname) _) hfields
  | simple n =>
    have hlast := clean_last hname
    have htype := clean_typeText htype ns
    simp [declLines, CleanLines, DeclLine.Clean, hlast, htype]
  | _ => exact List.forall_mem_nil _

theorem clean_render {lines : List Line} (h : ∀ l ∈ lines, Clean l.text) : Clean (render lines) := by
  have hline : ∀ (l : Line) (depth : Int), Clean l.text → Clean (l.render depth) := by
    intro l depth hl
    have hspaces : 'm' ∉ (if isIndented l.text then indentation (l.depthAt depth) else "").toList := by
      split <;> simp [indentation]
    have hend : endsApart (if isIndented l.text then indentation (l.depthAt depth) else "") = true := by
      split
      · rw [endsApart, indentation, String.toList_ofList, List.getLast?_replicate]
        split <;> decide
      · decide
    exact ((clean_of_not_mem hspaces).append hl (.inl hend)).ending "\n" rfl
  have hlines : ∀ depth, Clean (String.join (renderLines depth lines)) := by
    induction lines with
    | nil => exact fun _ => .of_text "" rfl
    | cons l rest ih =>
      obtain ⟨hl, hrest⟩ := List.forall_mem_cons.mp h
      intro depth
      rw [renderLines, String.join_cons]
      exact (hline l depth hl).append (ih hrest _) (.inl (endsApart_append (by decide) (by decide)))
  rw [render_eq_join]
  exact hlines 0

theorem clean_fixed (lines : List Line)
    (h : lines.all (fun l => isClean l.text) = true) : ∀ l ∈ lines, Clean l.text :=
  fun l hl => .of_text l.text (List.all_eq_true.mp h l hl)

theorem headerLines_clean {m : Module} {headerPath : String} {body : List DeclLine}
    (hclass : Clean m.className) (himports : ∀ i ∈ m.imports, Clean i.header) (h : CleanLines body) :
    ∀ l ∈ headerLines m headerPath body, Clean l.text := by
  have hguard := clean_includeGuard headerPath
  have hdecls : ∀ {lines : List DeclLine}, CleanLines lines →
      ∀ l ∈ lines.map DeclLine.line, Clean l.text := fun hlines =>
    List.forall_mem_map.mpr fun l hl => (hlines l hl).text
  have hincludes : ∀ l ∈ m.imports.map fun i => Line.flat ("#include \"" ++ i.header ++ ".h\""),
      Clean l.text :=
    List.forall_mem_map.mpr fun i hi => ((himports i hi).after "#include \"" rfl).ending ".h\"" rfl
  unfold headerLines
  simp only [List.forall_mem_append]
  refine ⟨⟨⟨⟨⟨⟨?_, hincludes⟩, ?_⟩, hdecls (undefLines_clean hclass)⟩, ?_⟩, hdecls h⟩, ?_⟩
  · refine List.forall_mem_cons.mpr ⟨hguard.after "#ifndef " rfl, ?_⟩
    exact List.forall_mem_cons.mpr ⟨hguard.after "#define " rfl, clean_fixed _ rfl⟩
  · exact clean_fixed _ rfl
  · have hopens := (hclass.after "class COMPONENT_EXPORT(X11) " rfl).ending " \x7b" rfl
    refine List.forall_mem_cons.mpr ⟨hopens, ?_⟩
    refine List.forall_mem_cons.mpr ⟨.of_text _ rfl, List.forall_mem_cons.mpr ⟨?_, clean_fixed _ rfl⟩⟩
    exact (hclass.after "explicit " rfl).ending "(XDisplay* display);" rfl
  · iterate 6 refine List.forall_mem_cons.mpr ⟨.of_text _ rfl, ?_⟩
    exact List.forall_mem_singleton.mpr (hguard.after "#endif  // " rfl)

/-- Where no string of the module is a temporary, the header has none; the declarations of the source
have the numbers from zero on, from top to bottom; and every other occurrence comes behind the declaration
and in the same block. -/
theorem generated_temporaries_fresh {m : Module} {headerPath : String} {artifacts : Artifacts}
    (hm : ∀ x ∈ moduleTexts m, Clean x) (h : generate m headerPath = .ok artifacts) :
    ∃ codes count, ((compileRequests m.className m.requests).run {}).1 = .ok codes ∧
      artifacts.source = render (sourceLines m codes) ∧
      ((sourceLines m codes).filterMap Line.declares?).map Temporary.id = List.range count ∧
      Clean artifacts.header ∧
      ∀ before l after, sourceLines m codes = before ++ l :: after → ∀ t ∈ l.uses,
        ∃ earlier d between, before = earlier ++ d :: between ∧ d.declares? = some t ∧
          SameBlock d between l := by
  have hclean : ModuleHolds Clean m := moduleHolds_of_texts hm (.of_text _ rfl)
  obtain ⟨-, hheaderText, -⟩ := header_of_generate h
  obtain ⟨codes, next, hrun, hsource⟩ := generate_source h
  obtain ⟨count, -, hrequests, hcodes⟩ := (compileRequests_codesOf m.className m.requests 0).result hrun
  have hholds : ∀ code ∈ codes, RequestHolds Clean code.request :=
    fun code hcode => hclean.requests _ (hrequests ▸ List.mem_map_of_mem hcode)
  -- the lines number their temporaries from zero on; nothing is declared around them
  have hnumbered := sourceLines_numbered hcodes hclean.header hclean.className hholds
  obtain ⟨total, -, hids⟩ := hnumbered.ids
  refine ⟨codes, total, congrArg Prod.fst hrun, hsource, ?_, ?_, ?_⟩
  · rw [hids, List.range_eq_range']
  · rw [hheaderText]
    have hbody : CleanLines (headerBody m) := by
      intro l hl
      obtain ⟨d, hd, hl⟩ := List.mem_flatMap.mp hl
      exact declLines_clean (hclean.decls d hd) l hl
    exact clean_render (headerLines_clean hclean.className hclean.imports hbody)
  · intro before l after hsplit t ht
    rcases hnumbered.uses_declared hsplit ht with ⟨hnone, -⟩ | hdeclared
    · cases hnone
    · exact hdeclared

def tallies : Module where
  header := "tallies"
  isExt := true
  extName := "Tallies"
  decls :=
    [⟨["xcb", "Tallies", "Count"], .container (.request 7) ["xcb", "Tallies", "Count"]
      [⟨"mode", .container .struct ["xcb", "Tallies", "MODE"]
          [⟨"mode", .simple ["uint8_t"], true, true⟩], true, true⟩,
        ⟨"rows", .list (.container .struct ["xcb", "Tallies", "ROW"]
          [⟨"cells", .list (.container .struct ["xcb", "Tallies", "CELL"]
            [⟨"size", .simple ["uint8_t"], true, true⟩]) 0 (some (.value 2)), true, true⟩]) 0
          (some (.value 3)), true, true⟩,
        ⟨"data", .list (.simple ["uint8_t"]) 0
          (some (.sumOf "rows" (.sumOf "cells" (.fieldRef "size")))), true, true⟩], none⟩]

theorem generated_temporaries_fresh_tallies :
    ∃ artifacts codes, generate tallies "" = .ok artifacts ∧
      artifacts.source = render (sourceLines tallies codes) ∧
      (sourceLines tallies codes).filterMap Line.declares? = [.aside 0, .sum 1, .sum 2] ∧
      Clean artifacts.header ∧
      ∀ before l after, sourceLines tallies codes = before ++ l :: after → ∀ t ∈ l.uses,
        ∃ earlier d between, before = earlier ++ d :: between ∧ d.declares? = some t ∧
          SameBlock d between l := by
  have hgenerated : (generate tallies "").isOk = true := by decide +kernel
  have hnames : (moduleTexts tallies).all isClean = true := by decide +kernel
  have hdeclared : ((compileRequests tallies.className tallies.requests).run {}).1.toOption.map
      (fun codes => (sourceLines tallies codes).filterMap Line.declares?) =
      some [.aside 0, .sum 1, .sum 2] := by decide +kernel
  obtain ⟨artifacts, h⟩ := eq_ok_of_isOk hgenerated
  obtain ⟨codes, count, hcodes, hsource, -, hheader, huses⟩ := generated_temporaries_fresh
    (fun x hx => .of_text x (List.all_eq_true.mp hnames x hx)) h
  rw [hcodes] at hdeclared
  exact ⟨artifacts, codes, h, hsource, Option.some.inj hdeclared, hheader, huses⟩

end CodecGen.Emit
