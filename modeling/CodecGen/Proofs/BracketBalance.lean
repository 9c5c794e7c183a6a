import CodecGen.Proofs.Declarations
import CodecGen.Proofs.LevelCode
set_option autoImplicit false
/-!
Generated text closes what it opens. The lines of a header and of a source file are level, so that
in both artifacts the brackets are nested and all closed, and the indentation comes back to where it
began without ever passing below it.
-/
namespace CodecGen.Emit
open Schema

theorem encoderLines_level {className : String} {code : RequestCode} (hclass : Neutral className)
    (h : LevelRequest code) : Level (encoderLines className code) := by
  have hmethod : Neutral (className ++ "::" ++ code.request.name.last) :=
    (hclass.append (.of_scan "::" rfl)).append (neutral_last h.name)
  have hreply : Neutral (if code.request.reply.isSome then
      className ++ "::" ++ code.request.name.last ++ "Reply" else "void") := by
    split
    · exact hmethod.append (.of_scan _ rfl)
    · exact .of_scan _ rfl
  unfold encoderLines
  refine .append (.append (q := ['\x7d']) (j := 1) ?_ h.encoder.within) ?_
  · refine .cons (.flat ((Turns.of_scan "Future<" rfl).insert hreply ">" rfl)) ?_
    -- the parenthesis that one line opens is closed by the next
    refine .cons (.flat (hmethod.append (.of_scan "(" rfl))) ?_
    refine .cons (.opens ((Turns.of_scan "    const " rfl).insert hmethod
      "Request& request) \x7b" rfl)) ?_
    exact .cons (.flat (.of_scan _ rfl)) (.flat (.of_scan _ rfl))
  · refine .cons (.flat ((Turns.of_scan "return x11::SendRequest<" rfl).insert hreply
      ">(display_, &buf);" rfl)) ?_
    exact .cons (.closes (.of_scan _ rfl)) (.flat (.of_scan _ rfl))

theorem decoderLines_level {className : String} {code : RequestCode} {decoder : List Stmt}
    (hclass : Neutral className) (hname : AllNeutral code.request.name) (h : LevelCode decoder) :
    Level (decoderLines className code decoder) := by
  have hreply : Neutral (className ++ "::" ++ code.request.name.last ++ "Reply") :=
    (hclass.append (.of_scan "::" rfl)).insert (neutral_last hname) "Reply" rfl
  unfold decoderLines
  refine .append (.append (q := ['\x7d']) (j := 1) ?_ h.within) ?_
  · refine .cons (.flat (.of_scan _ rfl)) ?_
    refine .cons (.flat ((Turns.of_scan "std::unique_ptr<" rfl).insert hreply ">" rfl)) ?_
    refine .cons (.opens ((Turns.of_scan "detail::ReadReply<" rfl).insert hreply
      ">(const uint8_t* buffer) \x7b" rfl)) ?_
    refine .cons (.flat (.of_scan _ rfl)) ?_
    refine .cons (.flat ((Turns.of_scan "auto reply = std::make_unique<" rfl).insert hreply
      ">();" rfl)) ?_
    exact .flat (.of_scan _ rfl)
  · refine .cons (.flat (.of_scan _ rfl)) ?_
    refine .cons (.flat (.of_scan _ rfl)) ?_
    refine .cons (.flat (.of_scan _ rfl)) ?_
    refine .cons (.flat (.of_scan _ rfl)) ?_
    exact .cons (.closes (.of_scan _ rfl)) (.flat (.of_scan _ rfl))

theorem requestLines_level {className : String} {code : RequestCode} (hclass : Neutral className)
    (h : LevelRequest code) : Level (code.lines className) := by
  unfold RequestCode.lines
  refine .append (encoderLines_level hclass h) ?_
  split
  · exact decoderLines_level hclass h.name (h.decoder _ ‹_›)
  · exact .nil

theorem sourceLines_level {m : Module} {codes : List RequestCode} (hheader : Neutral m.header)
    (hclass : Neutral m.className) (h : ∀ code ∈ codes, LevelRequest code) :
    Level (sourceLines m codes) := by
  have hcodes : Level (codes.flatMap (·.lines m.className)) :=
    level_flatMap fun code hcode => requestLines_level hclass (h code hcode)
  have hconstructor : Neutral (m.className ++ "::" ++ m.className ++
      "(XDisplay* display) : display_(display) \x7b\x7d") :=
    (hclass.append (.of_scan "::" rfl)).insert hclass _ rfl
  unfold sourceLines
  refine .append (.append (q := ['\x7d']) (j := 0) ?_ hcodes.within) (.flat (.of_scan _ rfl))
  refine .cons (.flat ((Turns.of_scan "#include \"" rfl).insert hheader ".h\"" rfl)) ?_
  iterate 9 refine .cons (.flat (.of_scan _ rfl)) ?_
  exact .cons (.flat (hconstructor.within _)) (.flat (.of_scan _ rfl))

abbrev LevelDecls (lines : List DeclLine) : Prop := Level (lines.map DeclLine.line)

theorem LevelDecls.nil : LevelDecls [] := Leads.nil

theorem LevelDecls.append {xs ys : List DeclLine} (hx : LevelDecls xs) (hy : LevelDecls ys) :
    LevelDecls (xs ++ ys) := by
  rw [LevelDecls, List.map_append]
  exact Leads.append hx hy

theorem LevelDecls.flatMap {α : Type} {xs : List α} {lines : α → List DeclLine}
    (h : ∀ x ∈ xs, LevelDecls (lines x)) : LevelDecls (xs.flatMap lines) := by
  rw [LevelDecls, List.map_flatMap]
  exact level_flatMap h

theorem DeclLine.level {l : DeclLine} (hflat : l.nesting = .flat) (h : Neutral l.text) :
    LevelDecls [l] := Leads.single hflat h

theorem LevelDecls.cons {l : DeclLine} {ys : List DeclLine} (hflat : l.nesting = .flat)
    (h : Neutral l.text) (hy : LevelDecls ys) : LevelDecls (l :: ys) :=
  (DeclLine.level hflat h).append hy

theorem LevelDecls.blank : LevelDecls [.blank] := DeclLine.level rfl (.of_scan _ rfl)

theorem LevelDecls.enclosed {first last : DeclLine} {inner : List DeclLine}
    (hopens : first.nesting = .opens) (hfirst : Turns [] ['\x7d'] first.text)
    (hcloses : last.nesting = .closes) (hlast : Turns ['\x7d'] [] last.text)
    (h : LevelDecls inner) : LevelDecls ([first] ++ inner ++ [last]) := by
  rw [LevelDecls, List.map_append, List.map_append]
  exact Leads.enclosed hopens hfirst hcloses hlast h

theorem undefLines_level {name : String} (h : Neutral name) : LevelDecls (undefLines name) := by
  refine .cons rfl ((Turns.of_scan "#ifdef " rfl).append h) ?_
  exact .cons rfl ((Turns.of_scan "#undef " rfl).append h) (DeclLine.level rfl (.of_scan _ rfl))

theorem neutral_arrayType {element : String} (h : Neutral element) (count : Int) :
    Neutral (arrayType element count) :=
  ((Turns.of_scan "std::array<" rfl).insert h ", " rfl).insert (neutral_int count) ">" rfl

theorem neutral_listType {element : String} (h : Neutral element) (count : Int) :
    Neutral (listType element count) := by
  unfold listType
  split
  · exact neutral_arrayType h count
  split
  · exact .of_scan _ rfl
  split
  · exact .of_scan _ rfl
  · exact (Turns.of_scan "std::vector<" rfl).insert h ">" rfl

theorem neutral_memberType {type : Ty} (h : AllNeutral (typeTexts type)) (ns : List String) :
    Neutral (memberType ns type) := by
  unfold memberType
  split
  · exact neutral_listType (neutral_typeText h ns) _
  · exact neutral_typeText h ns

theorem neutral_unionType {type : Ty} (h : AllNeutral (typeTexts type)) (ns : List String) :
    Neutral (unionType ns type) := by
  unfold unionType
  split
  · exact neutral_arrayType (neutral_typeText h ns) _
  · exact neutral_typeText h ns

theorem LevelDecls.anonymous {name : String} {inner : List DeclLine} (hname : Neutral name)
    (h : LevelDecls inner) : LevelDecls ([DeclLine.openAnonymous] ++ inner ++ [DeclLine.closeMember name]) :=
  .enclosed rfl (.of_scan _ rfl) rfl ((Turns.of_scan "\x7d " rfl).insert hname ";" rfl) h

theorem LevelDecls.member {type name : String} (htype : Neutral type) (hname : Neutral name) :
    LevelDecls [.member type name] :=
  DeclLine.level rfl ((htype.append (.of_scan " " rfl)).insert hname "\x7b\x7d;" rfl)

mutual

theorem fieldLines_level (ns : List String) (fields : List Field) (h : NeutralIn fields) :
    LevelDecls (fieldLines ns fields) := by
  match fields with
  | [] => exact .nil
  | ⟨name, type, wire, visible⟩ :: rest =>
    obtain ⟨hf, hrest⟩ := List.forall_mem_cons.1 h
    rw [fieldLines]
    refine .append ?_ (fieldLines_level ns rest hrest)
    split
    · exact memberLines_level ns (safeName name) (neutral_safeName hf.1) type hf.2
    · exact .nil

theorem memberLines_level (ns : List String) (name : String) (hname : Neutral name) (type : Ty)
    (h : AllNeutral (typeTexts type)) : LevelDecls (memberLines ns name type) := by
  cases type with
  | switch n selector cases =>
    have hcases := neutralIn_iff.1 (allNeutral_append.1 h).2
    exact .anonymous hname (branchLines_level ns cases hcases)
  | _ => exact .member (neutral_memberType h ns) hname

theorem branchLines_level (ns : List String) (cases : List Field) (h : NeutralIn cases) :
    LevelDecls (branchLines ns cases) := by
  match cases with
  | [] => exact .nil
  | ⟨name, type, wire, visible⟩ :: rest =>
    obtain ⟨hf, hrest⟩ := List.forall_mem_cons.1 h
    have hmore := branchLines_level ns rest hrest
    cases type with
    | case n byValue byMask selectors fields =>
      have hbody := fieldLines_level ns fields (neutralIn_iff.1 (allNeutral_append.1 hf.2).2)
      rw [branchLines]
      refine .append ?_ hmore
      split
      · exact hbody
      · exact .anonymous (neutral_safeName hf.1) hbody
    | _ => exact hmore

end

theorem structLines_level {ns : List String} {name : String} {fields : List Field}
    (hname : Neutral name) (h : NeutralIn fields) : LevelDecls (structLines ns name fields) := by
  have hstruct : LevelDecls ([DeclLine.openStruct name] ++ fieldLines ns fields ++ [DeclLine.closeType]) :=
    .enclosed rfl ((Turns.of_scan "struct " rfl).insert hname " \x7b" rfl) rfl (.of_scan _ rfl)
      (fieldLines_level ns fields h)
  have hall := ((undefLines_level hname).append hstruct).append .blank
  simpa [structLines] using hall

theorem enumItems_level {items : List EnumItem} {value : EnumItem → String}
    (hname : ∀ i ∈ items, Neutral i.name) (hvalue : ∀ i ∈ items, Neutral (value i)) :
    LevelDecls (items.flatMap fun i => undefLines (safeName i.name) ++
      [DeclLine.enumItem (safeName i.name) (value i)]) := by
  refine .flatMap fun i hi => ?_
  have hi' := neutral_safeName (hname i hi)
  refine .append (undefLines_level hi') (DeclLine.level rfl ?_)
  exact (hi'.append (.of_scan " = " rfl)).insert (hvalue i hi) "," rfl

theorem declareEnum_level {name : Name} {values bits : List EnumItem} (hname : AllNeutral name)
    (hvalues : AllNeutral (values.flatMap itemTexts))
    (hbits : AllNeutral (bits.flatMap itemTexts)) :
    LevelDecls (declareEnum name values bits) := by
  have htexts : ∀ {items : List EnumItem}, AllNeutral (items.flatMap itemTexts) →
      ∀ i ∈ items, Neutral i.name ∧ Neutral i.value := by
    intro items h i hi
    have hi : AllNeutral (itemTexts i) := fun x hx => h x (List.mem_flatMap.2 ⟨i, hi, hx⟩)
    exact ⟨hi _ (by simp [itemTexts]), hi _ (by simp [itemTexts])⟩
  have hlast := neutral_last hname
  have hplain : LevelDecls ((values.filter fun v => !isBit bits v.name).flatMap fun v =>
      undefLines (safeName v.name) ++ [DeclLine.enumItem (safeName v.name) v.value]) :=
    enumItems_level (fun i hi => (htexts hvalues i (List.mem_filter.1 hi).1).1)
      fun i hi => (htexts hvalues i (List.mem_filter.1 hi).1).2
  have hbitItems : LevelDecls (bits.flatMap fun b =>
      undefLines (safeName b.name) ++ [DeclLine.enumItem (safeName b.name) ("1 << " ++ b.value)]) :=
    enumItems_level (fun i hi => (htexts hbits i hi).1)
      fun i hi => (Turns.of_scan "1 << " rfl).append (htexts hbits i hi).2
  have hopen : Turns [] ['\x7d'] (DeclLine.openEnum name.last).text :=
    (Turns.of_scan "enum class " rfl).insert hlast " \x7b" rfl
  have henum := LevelDecls.enclosed rfl hopen rfl (.of_scan DeclLine.closeType.text rfl)
    (hplain.append hbitItems)
  have hall := ((undefLines_level hlast).append henum).append .blank
  simpa [declareEnum] using hall

theorem unionLines_level {ns : List String} {name : String} {fields : List Field}
    (hname : Neutral name) (h : NeutralIn fields) :
    LevelDecls ([DeclLine.openUnion name, .unionConstructor name, .blank] ++ fields.map (unionLine ns) ++
      [DeclLine.closeType, .triviallyCopyable name, .blank]) := by
  have hmembers : LevelDecls (fields.map (unionLine ns)) := by
    induction fields with
    | nil => exact .nil
    | cons f rest ih =>
      obtain ⟨hf, hrest⟩ := List.forall_mem_cons.1 h
      refine .cons rfl ?_ (ih hrest)
      exact ((neutral_unionType hf.2 ns).append (.of_scan " " rfl)).insert (neutral_safeName hf.1)
        ";" rfl
  have hconstructor : Neutral (DeclLine.unionConstructor name).text := hname.append (.of_scan _ rfl)
  have hassert : Neutral (DeclLine.triviallyCopyable name).text :=
    (Turns.of_scan "static_assert(std::is_trivially_copyable<" rfl).insert hname
      ">::value, \"\");" rfl
  have hopen : Turns [] ['\x7d'] (DeclLine.openUnion name).text :=
    (Turns.of_scan "union " rfl).insert hname " \x7b" rfl
  have hunion := LevelDecls.enclosed rfl hopen rfl (.of_scan DeclLine.closeType.text rfl)
    (.cons rfl hconstructor (LevelDecls.blank.append hmembers))
  have hall := hunion.append (.cons rfl hassert .blank)
  simpa using hall

/-- The parenthesis that the result of a method opens is closed behind its argument. -/
theorem methodLines_level {method : String} (reply : Option Reply) (h : Neutral method) :
    LevelDecls (methodLines method reply) := by
  have hreply : Neutral (if reply.isSome then method ++ "Reply" else "void") := by
    split
    · exact h.append (.of_scan _ rfl)
    · exact .of_scan _ rfl
  have hresponse : Neutral (DeclLine.response method
      (if reply.isSome then method ++ "Reply" else "void")).text :=
    ((Turns.of_scan "using " rfl).insert h "Response = Response<" rfl).insert hreply ">;" rfl
  refine .cons rfl hresponse (LevelDecls.blank.append ?_)
  refine Leads.cons (.flat (((Turns.of_scan "Future<" rfl).insert hreply "> " rfl).insert h "("
    rfl)) ?_
  refine Leads.cons (.flat ((Turns.of_scan "    const " rfl).insert
    (h.append (.of_scan "Request" rfl)) "& request);" rfl)) ?_
  exact LevelDecls.blank

theorem replyLines_level {ns : List String} {reply : Option Reply}
    (h : AllNeutral (reply.toList.flatMap replyTexts)) : LevelDecls (replyLines ns reply) := by
  cases reply with
  | none => exact .nil
  | some reply =>
    have h : AllNeutral (replyTexts reply) := by simpa using h
    obtain ⟨hname, hfields⟩ := allNeutral_append.1 h
    exact structLines_level ((neutral_last hname).append (.of_scan _ rfl)) (neutralIn_iff.1 hfields)

theorem declLines_level {ns : List String} {d : Decl} (h : AllNeutral (declTexts d)) :
    LevelDecls (declLines ns d) := by
  obtain ⟨name, type, reply⟩ := d
  obtain ⟨h, hreply⟩ := allNeutral_append.1 h
  obtain ⟨hname, htype⟩ := allNeutral_append.1 h
  cases type with
  | union n fields =>
    obtain ⟨hn, hfields⟩ := allNeutral_append.1 htype
    exact unionLines_level (neutral_last hn) (neutralIn_iff.1 hfields)
  | enum n values bits =>
    obtain ⟨htype, hbits⟩ := allNeutral_append.1 htype
    obtain ⟨hn, hvalues⟩ := allNeutral_append.1 htype
    exact declareEnum_level hn hvalues hbits
  | container shape n fields =>
    obtain ⟨hn, hfields⟩ := allNeutral_append.1 htype
    have hfields := neutralIn_iff.1 hfields
    cases shape with
    | request opcode =>
      have hrequest : LevelDecls (structLines ns (n.last ++ "Request") fields) :=
        structLines_level ((neutral_last hn).append (.of_scan _ rfl)) hfields
      exact (hrequest.append (replyLines_level hreply)).append
        (methodLines_level reply (neutral_last hn))
    | _ => exact structLines_level ((neutral_last hname).append (neutral_suffix _)) hfields
  | simple n =>
    refine .cons rfl ?_ .blank
    exact ((Turns.of_scan "using " rfl).insert (neutral_last hname) " = " rfl).insert
      (neutral_typeText htype ns) ";" rfl
  | _ => exact .nil

theorem headerLines_level {m : Module} {headerPath : String} {body : List DeclLine}
    (hpath : isPlain headerPath = true) (hclass : Neutral m.className)
    (himports : ∀ i ∈ m.imports, Neutral i.header) (h : LevelDecls body) :
    Level (headerLines m headerPath body) := by
  have hguard := neutral_includeGuard hpath
  have hincludes : Level (m.imports.map fun i => .flat ("#include \"" ++ i.header ++ ".h\"")) := by
    rw [List.map_eq_flatMap]
    exact level_flatMap fun i hi =>
      .flat ((Turns.of_scan "#include \"" rfl).insert (himports i hi) ".h\"" rfl)
  have hconstructor : Neutral ("explicit " ++ m.className ++ "(XDisplay* display);") :=
    (Turns.of_scan "explicit " rfl).insert hclass _ rfl
  have hundef := undefLines_level hclass
  unfold headerLines
  -- the namespace is a bracket without a block, the class is both
  refine .append (.append (q := ['\x7d', '\x7d']) (j := 1)
    (.append (.append (q := ['\x7d']) (j := 0)
      (.append (.append (q := []) (j := 0) ?_ hincludes) ?_) hundef.within) ?_) h.within) ?_
  · refine .cons (.flat ((Turns.of_scan "#ifndef " rfl).append hguard)) ?_
    refine .cons (.flat ((Turns.of_scan "#define " rfl).append hguard)) ?_
    iterate 8 refine .cons (.flat (.of_scan _ rfl)) ?_
    exact .flat (.of_scan _ rfl)
  · iterate 4 refine .cons (.flat (.of_scan _ rfl)) ?_
    exact .flat (.of_scan _ rfl)
  · refine .cons (.opens ((Turns.of_scan "class COMPONENT_EXPORT(X11) " rfl).insert hclass " \x7b"
      rfl)) ?_
    refine .cons (.flat (.of_scan _ rfl)) ?_
    refine .cons (.flat (hconstructor.within _)) ?_
    iterate 2 refine .cons (.flat (.of_scan _ rfl)) ?_
    exact .flat (.of_scan _ rfl)
  · iterate 2 refine .cons (.flat (.of_scan _ rfl)) ?_
    refine .cons (.closes (.of_scan _ rfl)) ?_
    iterate 3 refine .cons (.flat (.of_scan _ rfl)) ?_
    exact .flat ((Turns.of_scan "#endif  // " rfl).append hguard)

theorem isPlain_defaultHeaderPath {m : Module} {headerPath : String}
    (hheader : isPlain m.header = true) (hpath : isPlain headerPath = true) :
    isPlain (defaultHeaderPath m headerPath) = true := by
  unfold defaultHeaderPath
  split
  · rw [isPlain, String.toList_append, List.all_append, Bool.and_eq_true]
    exact ⟨hheader, by decide⟩
  · exact hpath

/-- Where no string of the module nor the path of the header has a bracket, the brackets of both
artifacts are nested and all closed, and the depth of their lines is never negative and zero at the
end. -/
theorem artifacts_balanced {m : Module} {headerPath : String} {artifacts : Artifacts}
    (hm : ∀ x ∈ moduleTexts m, isPlain x = true) (hpath : isPlain headerPath = true)
    (h : generate m headerPath = .ok artifacts) :
    ∃ body codes, (declareAll m.className m.decls).2 = .ok body ∧
      ((compileRequests m.className m.requests).run {}).1 = .ok codes ∧
      artifacts.header = render (headerLines m (defaultHeaderPath m headerPath) body) ∧
      artifacts.source = render (sourceLines m codes) ∧
      Bracketed artifacts.header ∧ Bracketed artifacts.source ∧
      Indented (headerLines m (defaultHeaderPath m headerPath) body) ∧
      Indented (sourceLines m codes) := by
  have hneutral : ModuleHolds Neutral m :=
    moduleHolds_of_texts (fun x hx => neutral_of_plain (hm x hx)) (.of_scan _ rfl)
  have hpath := isPlain_defaultHeaderPath (hm m.header List.mem_cons_self) hpath
  obtain ⟨hbody, hheaderText, -⟩ := header_of_generate h
  obtain ⟨codes, frame, hrun, hsourceText⟩ := generate_source h
  -- the header and the source are level each by itself
  have hbodyLevel : LevelDecls (headerBody m) :=
    .flatMap fun d hd => declLines_level (hneutral.decls d hd)
  have hheaderLevel := headerLines_level hpath hneutral.className hneutral.imports hbodyLevel
  obtain ⟨result, n, hresult, hcodes⟩ := compileRequests_level hneutral.requests 0
  obtain ⟨rfl, -⟩ := Prod.mk.inj (hresult.symm.trans hrun)
  have hsourceLevel := sourceLines_level hneutral.header hneutral.className hcodes
  refine ⟨headerBody m, codes, hbody, congrArg Prod.fst hrun, hheaderText, hsourceText, ?_, ?_,
    hheaderLevel.sound.2, hsourceLevel.sound.2⟩
  · rw [hheaderText]
    exact hheaderLevel.sound.1
  · rw [hsourceText]
    exact hsourceLevel.sound.1

def ledger : Module where
  header := "ledger"
  isExt := true
  extName := "Ledger"
  decls :=
    [⟨["xcb", "Ledger", "Mode"], .enum ["xcb", "Ledger", "Mode"] [⟨"Open", "1"⟩] [⟨"Shut", "0"⟩],
        none⟩,
      ⟨["xcb", "Ledger", "Post"], .container (.request 3) ["xcb", "Ledger", "Post"]
        [⟨"entries", .list (.container .struct ["xcb", "Ledger", "ENTRY"]
            [⟨"size", .simple ["uint8_t"], true, true⟩]) 0 (some (.value 4)), true, true⟩,
          ⟨"data", .list (.simple ["uint8_t"]) 0
            (some (.binary "*" (.sumOf "entries" (.fieldRef "size")) (.value 2))), true, true⟩,
          ⟨"rest", .switch ["xcb", "Ledger", "Post", "rest"] (.fieldRef "mode")
            [⟨"", .case [] true false [.enumRef ["xcb", "Ledger", "Mode"] "Open"]
                [⟨"count", .simple ["uint8_t"], true, true⟩], true, true⟩,
              ⟨"shut", .case [] false true [.value 1]
                [⟨"class", .simple ["uint8_t"], true, true⟩], true, true⟩], true, true⟩],
        some ⟨["xcb", "Ledger", "Post"], [⟨"length", .simple ["uint32_t"], true, false⟩]⟩⟩]

theorem artifacts_balanced_ledger : ∃ artifacts, generate ledger "x11/ledger.h" = .ok artifacts ∧
    Bracketed artifacts.header ∧ Bracketed artifacts.source := by
  have hgenerated : (generate ledger "x11/ledger.h").isOk = true := by decide +kernel
  obtain ⟨artifacts, h⟩ := eq_ok_of_isOk hgenerated
  obtain ⟨_, _, -, -, -, -, hheader, hsource, -, -⟩ :=
    artifacts_balanced (by decide +kernel) (by decide +kernel) h
  exact ⟨artifacts, h, hheader, hsource⟩

end CodecGen.Emit
