import CodecGen.Proofs.NumberedCode
set_option autoImplicit false
/-!
Generated code numbers its temporaries. Each rule of emission takes the numbers in the order in which
the code declares them (`TakesNumbers`), and so does the source file from its first function to its
last.
-/
namespace CodecGen.Emit
open Schema

section
variable {dir : Direction} {ns locals : List String} {s t : Scope} {n k m : Nat}
  {is js : List Ingredient} {out bindings xs ys before body : List Stmt} {e : Expr} {x name : String}

theorem AtHand.clean (h : AtHand locals s name) (hlocals : ∀ x ∈ locals, Clean x)
    (hs : ∀ f ∈ s, FieldHolds Clean f) : Clean name :=
  h.holds hlocals fun f hf => clean_safeName (hs f hf).1

theorem Entered.numbered (h : Entered locals s n is bindings t k) (hlocals : ∀ x ∈ locals, Clean x)
    (hs : ∀ f ∈ s, FieldHolds Clean f) (his : ∀ i ∈ is, i.Holds Clean) (known : List Temporary) :
    (∃ known', NumberedCode known n bindings known' k) ∧ ∀ f ∈ t, FieldHolds Clean f := by
  cases h with
  | plain => exact ⟨⟨known, .nil⟩, hs⟩
  | members hobject =>
    rw [List.forall_mem_singleton] at his
    exact ⟨bindFields_numbered (hobject.clean hlocals hs) his s n known, scope_holds his hs⟩
  | branch _ =>
    simp only [List.forall_mem_cons] at his
    exact ⟨bindFields_numbered (clean_safeName his.1) his.2.1 s n known, scope_holds his.2.1 hs⟩

/-- With clean strings for ingredients, code takes the numbers for its temporaries in order. -/
def TakesNumbers (locals : List String) (s : Scope) (n : Nat) (is : List Ingredient) (out : List Stmt)
    (m : Nat) : Prop :=
  (∀ x ∈ locals, Clean x) → (∀ f ∈ s, FieldHolds Clean f) → (∀ i ∈ is, i.Holds Clean) →
    ∀ known, ∃ known', NumberedCode known n out known' m

namespace TakesNumbers

theorem append (hx : TakesNumbers locals s n is xs k) (hy : TakesNumbers locals s k js ys m) :
    TakesNumbers locals s n (is ++ js) (xs ++ ys) m := by
  intro hlocals hs his known
  rw [List.forall_mem_append] at his
  obtain ⟨between, hx⟩ := hx hlocals hs his.1 known
  obtain ⟨known', hy⟩ := hy hlocals hs his.2 between
  exact ⟨known', hx.append hy⟩

theorem note {y : Stmt} (h : y.isNote = true) : TakesNumbers locals s n [] [y] n := by
  intro _ _ _ known
  refine ⟨known, .one ?_ ?_⟩
  · cases y <;> first | rfl | cases h
  · cases y <;> trivial

theorem opcode (name : String) (type : Ty) (number : Int) :
    TakesNumbers locals s n [.hidden name type]
      [.define (qualify type ns) (safeName name) (toString number), .copy dir (safeName name)] n := by
  intro _ _ his known
  rw [List.forall_mem_singleton] at his
  have hname := clean_safeName his.1
  exact ⟨known, .two ⟨rfl, clean_typeText his.2 ns, hname, .of_clean (clean_int number)⟩ ⟨rfl, hname⟩⟩

theorem read (name : String) (type : Ty) :
    TakesNumbers locals s n [.hidden name type]
      [.declare (qualify type ns) (safeName name), .copy dir (safeName name)] n := by
  intro _ _ his known
  rw [List.forall_mem_singleton] at his
  have hname := clean_safeName his.1
  exact ⟨known, .two ⟨rfl, clean_typeText his.2 ns, hname⟩ ⟨rfl, hname⟩⟩

theorem computed {type : Ty} (h : Expressed dir ns s n e before x m) :
    TakesNumbers locals s n [.expr s e, .hidden name type]
      (before ++ [.define (qualify type ns) (safeName name) x, .copy dir (safeName name)]) m := by
  intro _ hs his known
  simp only [List.forall_mem_cons] at his
  obtain ⟨ts, hbefore, hx⟩ := h.numbered his.1 hs
  have hname := clean_safeName his.2.1.1
  have hvalue := hx.mono fun t ht => List.mem_append_left known ht
  exact ⟨_, (hbefore known).append
    (.two ⟨rfl, clean_typeText his.2.1.2 ns, hname, hvalue⟩ ⟨rfl, hname⟩)⟩

theorem size (hname : AtHand locals s name) (h : Expressed dir ns s n e before x m) :
    TakesNumbers locals s n [.expr s e] (before ++ [sizeStmt dir name x]) m := by
  intro hlocals hs his known
  rw [List.forall_mem_singleton] at his
  obtain ⟨ts, hbefore, hx⟩ := h.numbered his hs
  have hlist := hname.clean hlocals hs
  have hvalue := hx.mono fun t ht => List.mem_append_left known ht
  refine ⟨ts ++ known, (hbefore known).append ?_⟩
  cases dir <;> exact .one rfl ⟨hlist, hvalue⟩

theorem enclosed {opening : Stmt} {known : List Temporary} (hopens : opening.nesting = .opens)
    (hreads : opening.Reads known) (henter : Entered locals s n is bindings t k)
    (h : TakesNumbers locals t k js body m) (hlocals : ∀ x ∈ locals, Clean x)
    (hs : ∀ f ∈ s, FieldHolds Clean f) (his : ∀ i ∈ is ++ js, i.Holds Clean) :
    NumberedCode known n ([opening] ++ bindings ++ body ++ [.closeBlock]) known m := by
  rw [List.forall_mem_append] at his
  obtain ⟨⟨bound, hbindings⟩, ht⟩ := henter.numbered hlocals hs his.1 []
  obtain ⟨inside, hbody⟩ := h hlocals ht his.2 bound
  rw [List.append_assoc [opening]]
  exact NumberedCode.block hopens hreads (hbindings.append hbody) rfl trivial

theorem loop (hname : AtHand locals s name)
    (henter : Entered ((name ++ "_elem") :: locals) s n is bindings t k)
    (h : TakesNumbers ((name ++ "_elem") :: locals) t k js body m) :
    TakesNumbers locals s n (is ++ js)
      ([.openLoop (name ++ "_elem") name] ++ bindings ++ body ++ [.closeBlock]) m := by
  intro hlocals hs his known
  have hlist := hname.clean hlocals hs
  have helement : Clean (name ++ "_elem") := hlist.ending "_elem" rfl
  exact ⟨known, enclosed rfl ⟨helement, hlist⟩ henter h
    (List.forall_mem_cons.mpr ⟨helement, hlocals⟩) hs his⟩

theorem block (henter : Entered locals s n is bindings t k) (h : TakesNumbers locals t k js body m) :
    TakesNumbers locals s n (is ++ js) ([.openBlock] ++ bindings ++ body ++ [.closeBlock]) m :=
  fun hlocals hs his known => ⟨known, enclosed rfl trivial henter h hlocals hs his⟩

theorem selected (hname : AtHand locals s name) (h : Expressed dir ns s n e before x k)
    (hrest : TakesNumbers ((name ++ "_expr") :: locals) s k is ys m) :
    TakesNumbers locals s n (.expr s e :: is)
      (before ++ [.bindSelector (name ++ "_expr") x] ++ ys) m := by
  intro hlocals hs his known
  rw [List.forall_mem_cons] at his
  obtain ⟨ts, hbefore, hx⟩ := h.numbered his.1 hs
  have hselector : Clean (name ++ "_expr") := (hname.clean hlocals hs).ending "_expr" rfl
  have hvalue := hx.mono fun t ht => List.mem_append_left known ht
  have hbind : NumberedCode (ts ++ known) k [.bindSelector (name ++ "_expr") x] (ts ++ known) k :=
    .one rfl ⟨hselector, hvalue⟩
  obtain ⟨known', hrest⟩ :=
    hrest (List.forall_mem_cons.mpr ⟨hselector, hlocals⟩) hs his.2 (ts ++ known)
  exact ⟨known', ((hbefore known).append hbind).append hrest⟩

theorem branch {test selector : String} {es : List Expr} {conditions : List String} {j : Nat}
    (htest : test = "CaseEq" ∨ test = "CaseAnd") (hselector : selector ∈ locals)
    (h : Tested dir ns test selector s n es before conditions k)
    (henter : Entered locals s k is bindings t j) (hbody : TakesNumbers locals t j js body m) :
    TakesNumbers locals s n (es.map (.expr s) ++ is ++ js)
      (before ++ [.openBranch conditions] ++ bindings ++ body ++ [.closeBlock]) m := by
  intro hlocals hs his known
  rw [List.append_assoc, List.forall_mem_append, List.forall_mem_map] at his
  obtain ⟨ts, hbefore, hconditions⟩ := h.numbered htest (hlocals selector hselector) his.1 hs
  have hfirst : Stmt.Reads (ts ++ known) (.openBranch conditions) :=
    fun c hc => (hconditions c hc).mono fun t ht => List.mem_append_left known ht
  have hbranch := (hbefore known).append (enclosed rfl hfirst henter hbody hlocals hs his.2)
  exact ⟨_, by simpa using hbranch⟩

end TakesNumbers

theorem Written.takesNumbers (h : Written dir ns locals s n is out m) :
    TakesNumbers locals s n is out m := by
  induction h with
  | nil => exact fun _ _ _ known => ⟨known, .nil⟩
  | append _ _ ihx ihy => exact .append ihx ihy
  | note h => exact .note h
  | comment name =>
    intro _ _ his known
    exact ⟨known, .one rfl (clean_safeName (his _ List.mem_cons_self))⟩
  | copy hname => exact fun hlocals hs _ known => ⟨known, .one rfl (hname.clean hlocals hs)⟩
  | reserve name type =>
    intro _ _ his known
    exact ⟨known, .one rfl (clean_typeText (his _ List.mem_cons_self).2 ns)⟩
  | opcode name type number => exact .opcode name type number
  | read name type => exact .read name type
  | computed h => exact .computed h
  | size hname h => exact .size hname h
  | loop hname henter _ ih => exact .loop hname henter ih
  | block henter _ ih => exact .block henter ih
  | selected hname h _ ih => exact .selected hname h ih
  | branch htest hselector h henter _ ih => exact .branch htest hselector h henter ih

end

theorem Copies.numbered {dir : Direction} {ns : List String} {object : String} {fields : List Field}
    {n m : Nat} {out : List Stmt} (h : Copies dir ns object fields n out m) (hobject : Clean object)
    (hfields : ∀ f ∈ fields, FieldHolds Clean f) : ∃ known', NumberedCode [] n out known' m := by
  obtain ⟨body, rfl, hbody⟩ := h
  have hscope : ∀ f ∈ boundBy fields, FieldHolds Clean f := fun f hf => hfields f (mem_boundBy.mp hf).1
  obtain ⟨bound, hbindings⟩ := bindFields_numbered hobject hfields [] n []
  obtain ⟨known', hbody⟩ := hbody.takesNumbers (by simp) hscope (ingredientsIn_hold _ fields hfields) bound
  exact ⟨known', hbindings.append hbody⟩

section
variable {className text : String} {n k m : Nat} {known inside : List Temporary} {inner : List Line}

theorem Numbered.flat (h : Clean text) : Numbered known n [.flat text] known n := .plain rfl h

theorem Numbered.function (htext : Clean text) (h : Numbered [] n inner inside m) :
    Numbered [] n ([Line.opens text] ++ inner ++ [Line.closes "\x7d"]) [] m :=
  .enclosed rfl (Line.declares?_of_clean htext) (.of_clean htext) h rfl (.of_text _ rfl)

theorem encoderLines_numbered (code : RequestCode) (hclass : Clean className)
    (hname : ∀ x ∈ code.request.name, Clean x) (h : NumberedCode [] n code.encoder inside m) :
    Numbered [] n (encoderLines className code) [] m := by
  have hmethod : Clean (className ++ "::" ++ code.request.name.last) :=
    hclass.between "::" rfl (clean_last hname)
  have hreply : Clean (if code.request.reply.isSome then
      className ++ "::" ++ code.request.name.last ++ "Reply" else "void") := by
    split
    · exact hmethod.ending "Reply" rfl
    · exact .of_text _ rfl
  have hbody := ((Numbered.fixed [.flat "WriteBuffer buf;", .flat ""] rfl).append h).append
    (.flat ((hreply.after "return x11::SendRequest<" rfl).ending ">(display_, &buf);" rfl))
  have hfunction := Numbered.function
    ((hmethod.after "    const " rfl).ending "Request& request) \x7b" rfl) hbody
  have hall := (((Numbered.flat ((hreply.after "Future<" rfl).ending ">" rfl)).append
    (.flat (hmethod.ending "(" rfl))).append hfunction).append (.fixed [.flat ""] rfl)
  simpa [encoderLines] using hall

theorem decoderLines_numbered {code : RequestCode} {decoder : List Stmt} (hclass : Clean className)
    (hname : ∀ x ∈ code.request.name, Clean x) (h : NumberedCode [] n decoder inside m) :
    Numbered [] n (decoderLines className code decoder) [] m := by
  have hreply : Clean (className ++ "::" ++ code.request.name.last ++ "Reply") :=
    (hclass.between "::" rfl (clean_last hname)).ending "Reply" rfl
  have hstart := (((Numbered.fixed [.flat "ReadBuffer buf\x7bbuffer, 0UL\x7d;"] rfl).append
    (.flat ((hreply.after "auto reply = std::make_unique<" rfl).ending ">();" rfl))).append
    (.fixed [.flat ""] rfl)).append h
  have hbody := hstart.append (.fixed [.flat "Align(&buf, 4);",
    .flat "DCHECK_EQ(buf.offset < 32 ? 0 : buf.offset - 32, 4 * length);", .flat "",
    .flat "return reply;"] rfl)
  have hfunction := Numbered.function
    ((hreply.after "detail::ReadReply<" rfl).ending ">(const uint8_t* buffer) \x7b" rfl) hbody
  have hall := (((Numbered.fixed [.flat "template<> COMPONENT_EXPORT(X11)"] rfl).append
    (.flat ((hreply.after "std::unique_ptr<" rfl).ending ">" rfl))).append hfunction).append
      (.fixed [.flat ""] rfl)
  simpa [decoderLines] using hall

theorem CodeOf.numbered {code : RequestCode} (h : CodeOf className n code m) (hclass : Clean className)
    (hcode : RequestHolds Clean code.request) : Numbered [] n (code.lines className) [] m := by
  have hrequest : Clean "request" := .of_text _ rfl
  have hreply : Clean "(*reply)" := .of_text _ rfl
  cases h with
  | request _ h =>
    obtain ⟨_, hencoder⟩ := h.numbered hrequest hcode.fields
    have hlines := encoderLines_numbered ⟨_, _, none⟩ hclass hcode.name hencoder
    simpa [RequestCode.lines] using hlines
  | reply hsome h hd =>
    obtain ⟨_, hencoder⟩ := h.numbered hrequest hcode.fields
    obtain ⟨_, hdecoder⟩ := hd.numbered hreply (hcode.reply _ hsome)
    exact (encoderLines_numbered _ hclass hcode.name hencoder).append
      (decoderLines_numbered hclass hcode.name hdecoder)

theorem CodesOf.numbered {codes : List RequestCode} (h : CodesOf className n codes m)
    (hclass : Clean className) (hcodes : ∀ code ∈ codes, RequestHolds Clean code.request) :
    Numbered [] n (codes.flatMap (·.lines className)) [] m := by
  induction h with
  | nil => exact .nil
  | cons h _ ih =>
    obtain ⟨hcode, hrest⟩ := List.forall_mem_cons.mp hcodes
    rw [List.flatMap_cons]
    exact (h.numbered hclass hcode).append (ih hrest)

theorem sourceLines_numbered {m : Module} {codes : List RequestCode} {count : Nat}
    (h : CodesOf m.className 0 codes count) (hheader : Clean m.header) (hclass : Clean m.className)
    (hcodes : ∀ code ∈ codes, RequestHolds Clean code.request) :
    Numbered [] 0 (sourceLines m codes) [] count := by
  have hinclude : Numbered [] 0 [.flat ("#include \"" ++ m.header ++ ".h\"")] [] 0 :=
    .flat ((hheader.after "#include \"" rfl).ending ".h\"" rfl)
  have hincludes := hinclude.append
    (.fixed [.flat "", .flat "#include <xcb/xcb.h>", .flat "#include <xcb/xcbext.h>", .flat "",
      .flat "#include \"base/logging.h\"", .flat "#include \"ui/gfx/x/xproto_internal.h\"", .flat "",
      .flat "namespace x11 \x7b", .flat ""] rfl)
  have hconstructor := (hincludes.append (.flat ((hclass.between "::" rfl hclass).ending
    "(XDisplay* display) : display_(display) \x7b\x7d" rfl))).append (.fixed [.flat ""] rfl)
  have hall := (hconstructor.append (h.numbered hclass hcodes)).append
    (.fixed [.flat "\x7d  // namespace x11"] rfl)
  simpa [sourceLines] using hall

end

end CodecGen.Emit
