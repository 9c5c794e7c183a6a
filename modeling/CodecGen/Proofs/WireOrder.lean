import CodecGen.Proofs.Declarations
import CodecGen.Proofs.EmittedRequests
import CodecGen.Proofs.Rendering
set_option autoImplicit false
/-!
The order in which a message is copied. Every field that is copied is announced by a comment, so the
comments of an encoder or decoder tell which fields it copies and when: those on the wire, in the
order of the layout, each before the fields of the messages and branches that it holds.
-/
namespace CodecGen.Emit
open Schema

mutual

/-- The fields met when a message is copied, in order: those on the wire, each followed by what is
met inside it. -/
def walkFields : List Field → List Field
  | [] => []
  | f :: rest => if f.wire then walkField f ++ walkFields rest else walkFields rest

def walkField : Field → List Field
  | ⟨name, type, wire, visible⟩ =>
    ⟨name, type, wire, visible⟩ :: if visible then walkValue type else []

/-- Inside a member: the message, the message of each element, or all branches. -/
def walkValue : Ty → List Field
  | .container _ _ fields => walkFields fields
  | .list member _ _ => walkElement member
  | .switch _ _ cases => walkBranches cases
  | _ => []

def walkElement : Ty → List Field
  | .container _ _ fields => walkFields fields
  | _ => []

def walkBranches : List Field → List Field
  | [] => []
  | branch :: rest => walkBranch branch ++ walkBranches rest

def walkBranch : Field → List Field
  | ⟨_, .case _ _ _ _ fields, _, _⟩ => walkFields fields
  | _ => []

end

def safeNames (fields : List Field) : List String := fields.map fun f => safeName f.name

@[simp] theorem safeNames_nil : safeNames [] = [] := rfl

theorem safeNames_cons (f : Field) (fields : List Field) :
    safeNames (f :: fields) = safeName f.name :: safeNames fields := rfl

@[simp] theorem safeNames_append (xs ys : List Field) :
    safeNames (xs ++ ys) = safeNames xs ++ safeNames ys := List.map_append

def Stmt.comment? : Stmt → Option String
  | .fieldComment name => some name
  | _ => none

def comments (stmts : List Stmt) : List String := stmts.filterMap Stmt.comment?

@[simp] theorem comments_nil : comments [] = [] := rfl

@[simp] theorem comments_append (xs ys : List Stmt) :
    comments (xs ++ ys) = comments xs ++ comments ys := List.filterMap_append

@[simp] theorem comments_cons (x : Stmt) (xs : List Stmt) :
    comments (x :: xs) = x.comment?.toList ++ comments xs := by
  cases h : x.comment? <;> simp [comments, h]

theorem comments_of_isBinding {stmts : List Stmt} (h : ∀ x ∈ stmts, x.isBinding = true) :
    comments stmts = [] := by
  refine List.filterMap_eq_nil_iff.2 fun x hx => ?_
  have hb := h x hx
  cases x with
  | fieldComment name => exact absurd hb (by simp [Stmt.isBinding])
  | _ => rfl

@[simp] theorem comments_bindFields (object : String) (fields : List Field) (frame : Frame) :
    comments (bindFields object fields frame).1 = [] :=
  comments_of_isBinding fun _ hx => isBinding_of_mem_bindFields hx

def Ingredient.label? : Ingredient → Option String
  | .label name => some (safeName name)
  | _ => none

def labels (is : List Ingredient) : List String := is.filterMap Ingredient.label?

@[simp] theorem labels_nil : labels [] = [] := rfl

@[simp] theorem labels_append (is js : List Ingredient) : labels (is ++ js) = labels is ++ labels js :=
  List.filterMap_append

@[simp] theorem labels_cons (i : Ingredient) (is : List Ingredient) :
    labels (i :: is) = i.label?.toList ++ labels is := by
  cases h : i.label? <;> simp [labels, h]

theorem labels_hiddenIngredients (s : Scope) (name : String) (type : Ty) :
    labels (hiddenIngredients s name type) = [] := by
  unfold hiddenIngredients
  split
  · rfl
  · split <;> rfl
  · rfl

theorem labels_lengthIngredients (s : Scope) (count : Int) (length : Option Expr) :
    labels (lengthIngredients s count length) = [] := by
  unfold lengthIngredients
  split
  · split <;> rfl
  · rfl

theorem labels_exprs (s : Scope) (es : List Expr) : labels (es.map (.expr s)) = [] :=
  List.filterMap_eq_nil_iff.2 (List.forall_mem_map.2 fun _ _ => rfl)

theorem labels_branchIngredient (b : Field) (fields : List Field) :
    labels (branchIngredient b fields) = [] := by
  unfold branchIngredient
  split <;> rfl

mutual

theorem labels_ingredientsIn (s : Scope) (fields : List Field) :
    labels (ingredientsIn s fields) = safeNames (walkFields fields) := by
  match fields with
  | [] => rfl
  | ⟨name, type, wire, visible⟩ :: rest =>
    have hrest := labels_ingredientsIn s rest
    have hvalue := labels_ingredientsOf s type
    cases wire with
    | false => exact hrest
    | true =>
      cases visible <;>
        simp [ingredientsIn, walkFields, walkField, Ingredient.label?, safeNames_cons,
          labels_hiddenIngredients, hvalue, hrest]
termination_by structural fields

theorem labels_ingredientsOf (s : Scope) (type : Ty) :
    labels (ingredientsOf s type) = safeNames (walkValue type) := by
  cases type with
  | container shape n fields => exact labels_ingredientsIn _ fields
  | list member count length =>
    rw [ingredientsOf, labels_append, labels_lengthIngredients]
    exact labels_elementIngredients s member
  | switch n selector cases => exact labels_branchIngredients _ cases
  | _ => rfl
termination_by structural type

theorem labels_elementIngredients (s : Scope) (type : Ty) :
    labels (elementIngredients s type) = safeNames (walkElement type) := by
  cases type with
  | container shape n fields => exact labels_ingredientsIn _ fields
  | _ => rfl
termination_by structural type

theorem labels_branchIngredients (s : Scope) (branches : List Field) :
    labels (branchIngredients s branches) = safeNames (walkBranches branches) := by
  match branches with
  | [] => rfl
  | ⟨name, type, wire, visible⟩ :: rest =>
    have hrest := labels_branchIngredients s rest
    cases type with
    | case n byValue byMask selectors fields =>
      have hfields := labels_ingredientsIn (branchScope name fields s) fields
      simp [branchIngredients, walkBranches, walkBranch, labels_exprs, labels_branchIngredient, hfields,
        hrest]
    | _ => exact hrest
termination_by structural branches

end

section
variable {dir : Direction} {ns locals : List String} {s t : Scope} {n k m : Nat}
  {is : List Ingredient} {out : List Stmt}

theorem Expressed.silent {e : Expr} {text : String} (h : Expressed dir ns s n e out text m) :
    comments out = [] := by
  induction h with
  | binary _ _ ihl ihr => rw [comments_append, ihl, ihr, List.append_nil]
  | complement _ ih | popCount _ ih => exact ih
  | fieldLen | fieldRef | enumRef | listElement | value => rfl
  | sumOf _ _ _ ih => simp [Stmt.comment?, ih]

theorem Tested.silent {test selector : String} {es : List Expr} {conditions : List String}
    (h : Tested dir ns test selector s n es out conditions m) : comments out = [] := by
  induction h with
  | nil => rfl
  | cons h _ ih => rw [comments_append, h.silent, ih, List.append_nil]

theorem Entered.silent (h : Entered locals s n is out t k) : comments out = [] ∧ labels is = [] := by
  cases h with
  | plain => exact ⟨rfl, rfl⟩
  | members | branch => exact ⟨comments_bindFields .., rfl⟩

theorem Written.comments_eq (h : Written dir ns locals s n is out m) : comments out = labels is := by
  induction h with
  | nil => rfl
  | append _ _ ihx ihy => rw [comments_append, labels_append, ihx, ihy]
  | @note locals s n x h => cases x <;> first | rfl | cases h
  | comment name => rfl
  | copy | reserve | opcode | read => rfl
  | computed h => simp [h.silent, Stmt.comment?, Ingredient.label?]
  | size _ h => cases dir <;> simp [h.silent, sizeStmt, Stmt.comment?, Ingredient.label?]
  | loop _ henter _ ih | block henter _ ih =>
    simp [henter.silent, ih, Stmt.comment?]
  | selected _ h _ ih => simp [h.silent, ih, Stmt.comment?, Ingredient.label?]
  | branch _ _ h henter _ ih => simp [h.silent, henter.silent, labels_exprs, ih, Stmt.comment?]

/-- The statements announce these fields. -/
def Announces (fields : List Field) (stmts : List Stmt) : Prop := comments stmts = safeNames fields

theorem Written.announces {fields : List Field} (h : Written dir ns locals t n (ingredientsIn t fields) out m)
    (object : String) (frame : Frame) :
    Announces (walkFields fields) ((bindFields object fields frame).1 ++ out) := by
  rw [Announces, comments_append, comments_bindFields, h.comments_eq, labels_ingredientsIn, List.nil_append]

end

theorem copyContainer_announces (site : Site) (shape : Shape) (fields : List Field)
    (object : String) (s : Scope) :
    Ensures s (Announces (walkFields fields)) AnyFault (copyContainer site shape fields object) := by
  refine .of_emits fun n => (copyContainer_written site shape fields object s n).mono ?_
  rintro _ m ⟨body, rfl, hbody⟩
  exact hbody.announces object ⟨s, n⟩

theorem endsOutside_stmt {x : Stmt} (h : x.comment? = none) : endsOutside x.text = true := by
  cases x with
  | fieldComment name => exact absurd h (by simp [Stmt.comment?])
  | blank | majorOpcodeNote | lengthNote | openBlock | closeBlock => rfl
  | _ => exact (endsOutside_append _ (by simp)).trans rfl

theorem commentNames_stmts {stmts : List Stmt}
    (h : ∀ name ∈ comments stmts, isIdentifierLike name = true) (depth : Int) :
    (renderLines depth (stmts.map Stmt.line)).filterMap commentName? = comments stmts := by
  induction stmts generalizing depth with
  | nil => rfl
  | cons x rest ih =>
    have hrest := ih (fun name hname => h name (by simp [hname])) (x.line.depthAfter depth)
    cases hx : x.comment? with
    | none =>
      simp only [List.map_cons, renderLines, comments_cons, hx]
      have hnone := commentName?_of_endsOutside (l := x.line) (endsOutside_stmt hx) depth
      rw [List.filterMap_cons_none hnone, hrest]
      rfl
    | some name =>
      obtain rfl : x = .fieldComment name := by
        cases x <;> simp_all [Stmt.comment?]
      have hname : commentName? ((Stmt.fieldComment name).line.render depth) = some name :=
        commentName?_comment (h name (by simp [Stmt.comment?])) depth
      simp only [List.map_cons, renderLines, comments_cons, hx]
      rw [List.filterMap_cons_some hname, hrest]
      rfl

theorem commentNames_around {before after : List Line} {stmts : List Stmt}
    (hbefore : ∀ l ∈ before, endsOutside l.text = true)
    (hafter : ∀ l ∈ after, endsOutside l.text = true)
    (h : ∀ name ∈ comments stmts, isIdentifierLike name = true) (depth : Int) :
    (renderLines depth (before ++ stmts.map Stmt.line ++ after)).filterMap commentName? =
      comments stmts := by
  simp only [renderLines_append, List.filterMap_append]
  rw [commentNames_of_endsOutside hbefore, commentNames_stmts h, commentNames_of_endsOutside hafter,
    List.nil_append, List.append_nil]

def RequestCode.Announces (code : RequestCode) : Prop :=
  comments code.encoder = safeNames (walkFields code.request.fields) ∧
    code.decoder.map comments =
      code.request.reply.map fun reply => safeNames (walkFields reply.fields)

theorem CodeOf.announces {className : String} {n m : Nat} {code : RequestCode}
    (h : CodeOf className n code m) : code.Announces := by
  cases h with
  | request hreply h =>
    obtain ⟨body, rfl, hbody⟩ := h
    exact ⟨hbody.announces _ _, by simp [hreply]⟩
  | reply hreply h hd =>
    obtain ⟨body, rfl, hbody⟩ := h
    obtain ⟨answer, rfl, hanswer⟩ := hd
    refine ⟨hbody.announces _ _, ?_⟩
    rw [hreply]
    exact congrArg some (hanswer.announces _ _)

theorem compileRequests_announces (className : String) (requests : List Request) :
    Ensures [] (fun codes => codes.map (·.request) = requests ∧ ∀ code ∈ codes, code.Announces)
      AnyFault (compileRequests className requests) := by
  refine .of_emits fun n => (compileRequests_codesOf className requests n).mono ?_
  rintro codes m ⟨hrequests, hcodes⟩
  refine ⟨hrequests, fun code hcode => ?_⟩
  obtain ⟨n, m, hcode⟩ := hcodes.of_mem hcode
  exact hcode.announces

theorem commentNames_encoder (className : String) (code : RequestCode)
    (h : ∀ name ∈ comments code.encoder, isIdentifierLike name = true) (depth : Int) :
    (renderLines depth (encoderLines className code)).filterMap commentName? =
      comments code.encoder := by
  refine commentNames_around ?_ ?_ h depth
  · simp only [List.forall_mem_cons, List.not_mem_nil, false_implies, implies_true,
      and_true, Line.flat, Line.opens]
    exact ⟨(endsOutside_append _ (by simp)).trans rfl, (endsOutside_append _ (by simp)).trans rfl,
      (endsOutside_append _ (by simp)).trans rfl, rfl, rfl⟩
  · simp only [List.forall_mem_cons, List.not_mem_nil, false_implies, implies_true,
      and_true, Line.flat, Line.closes]
    exact ⟨(endsOutside_append _ (by simp)).trans rfl, rfl, rfl⟩

theorem commentNames_decoder (className : String) (code : RequestCode) (decoder : List Stmt)
    (h : ∀ name ∈ comments decoder, isIdentifierLike name = true) (depth : Int) :
    (renderLines depth (decoderLines className code decoder)).filterMap commentName? =
      comments decoder := by
  refine commentNames_around ?_ ?_ h depth
  · simp only [List.forall_mem_cons, List.not_mem_nil, false_implies, implies_true,
      and_true, Line.flat, Line.opens]
    exact ⟨rfl, (endsOutside_append _ (by simp)).trans rfl, (endsOutside_append _ (by simp)).trans rfl,
      rfl, (endsOutside_append _ (by simp)).trans rfl, rfl⟩
  · simp only [List.forall_mem_cons, List.not_mem_nil, false_implies, implies_true,
      and_true, Line.flat, Line.closes]
    exact ⟨rfl, rfl, rfl, rfl, rfl, rfl⟩

def requestWalk (r : Request) : List Field :=
  walkFields r.fields ++ ((r.reply.map fun reply => walkFields reply.fields).getD [])

theorem isIdentifierLike_of_mem_safeNames {fields : List Field}
    (h : ∀ f ∈ fields, isIdentifierLike f.name = true) {name : String}
    (hname : name ∈ safeNames fields) : isIdentifierLike name = true := by
  obtain ⟨f, hf, rfl⟩ := List.mem_map.1 hname
  exact isIdentifierLike_safeName (h f hf)

theorem commentNames_request (className : String) {code : RequestCode} (hcode : code.Announces)
    (h : ∀ f ∈ requestWalk code.request, isIdentifierLike f.name = true) (depth : Int) :
    (renderLines depth (code.lines className)).filterMap commentName? =
      safeNames (requestWalk code.request) := by
  obtain ⟨hencoder, hdecoder⟩ := hcode
  have hfields : ∀ name ∈ comments code.encoder, isIdentifierLike name = true := by
    rw [hencoder]
    exact fun name hname => isIdentifierLike_of_mem_safeNames
      (fun f hf => h f (List.mem_append_left _ hf)) hname
  rw [RequestCode.lines, renderLines_append, List.filterMap_append,
    commentNames_encoder className code hfields, hencoder]
  cases hreply : code.request.reply with
  | none =>
    have hnone : code.decoder = none := by simpa [hreply] using hdecoder
    simp [hnone, requestWalk, hreply, renderLines]
  | some reply =>
    obtain ⟨decoder, hsome, hcomments⟩ : ∃ decoder, code.decoder = some decoder ∧
        comments decoder = safeNames (walkFields reply.fields) := by
      simpa [hreply] using hdecoder
    have hreplied : ∀ name ∈ comments decoder, isIdentifierLike name = true := by
      rw [hcomments]
      exact fun name hname => isIdentifierLike_of_mem_safeNames
        (fun f hf => h f (List.mem_append_right _ (by simpa [hreply] using hf))) hname
    simp only [hsome]
    rw [commentNames_decoder className code decoder hreplied, hcomments]
    simp [requestWalk, hreply]

theorem commentNames_requests (className : String) {codes : List RequestCode}
    (hcodes : ∀ code ∈ codes, code.Announces)
    (h : ∀ code ∈ codes, ∀ f ∈ requestWalk code.request, isIdentifierLike f.name = true)
    (depth : Int) :
    (renderLines depth (codes.flatMap (·.lines className))).filterMap commentName? =
      safeNames (codes.flatMap fun code => requestWalk code.request) := by
  induction codes generalizing depth with
  | nil => rfl
  | cons code rest ih =>
    rw [List.flatMap_cons, renderLines_append, List.filterMap_append, List.flatMap_cons,
      commentNames_request className (hcodes code (by simp)) (h code (by simp)),
      ih (fun x hx => hcodes x (by simp [hx])) (fun x hx => h x (by simp [hx])), safeNames_append]

theorem commentNames_namespaceEnd (depth : Int) :
    (renderLines depth [.flat "\x7d  // namespace x11"]).filterMap commentName? = [] := by
  -- This line ends in a name, so it has to be told from a comment by how it starts.
  obtain ⟨width, hw⟩ := toList_render (.flat "\x7d  // namespace x11") depth
  have hd : ((Line.flat "\x7d  // namespace x11").render depth).toList.dropWhile (· == ' ') =
      '\x7d' :: "  // namespace x11\n".toList := by
    rw [hw, List.append_assoc, dropWhile_indentation]
    rfl
  exact List.filterMap_cons_none (commentName?_of_dropWhile hd (by decide))

/-- The comments on fields in a source file are those of its requests in order. -/
theorem commentNames_source (m : Module) {codes : List RequestCode}
    (hcodes : ∀ code ∈ codes, code.Announces)
    (h : ∀ code ∈ codes, ∀ f ∈ requestWalk code.request, isIdentifierLike f.name = true) :
    (renderLines 0 (sourceLines m codes)).filterMap commentName? =
      safeNames (codes.flatMap fun code => requestWalk code.request) := by
  simp only [sourceLines, renderLines_append, List.filterMap_append]
  rw [commentNames_requests _ hcodes h, commentNames_namespaceEnd, commentNames_of_endsOutside]
  · simp
  · simp only [List.forall_mem_cons, List.not_mem_nil, false_implies, implies_true, and_true,
      Line.flat]
    exact ⟨(endsOutside_append _ (by simp)).trans rfl, rfl, rfl, rfl, rfl, rfl, rfl, rfl, rfl, rfl,
      (endsOutside_append _ (by simp)).trans rfl, rfl⟩

/-- Every field on the wire is copied exactly once and in order: the comments in the text of an
encoder or decoder are the names of the fields met on a walk through the message, and those of a
source file the names met on the walks through its requests and their replies. -/
theorem wire_fields_copied_in_order :
    (∀ (site : Site) (shape : Shape) (fields : List Field) (object : String) (frame next : Frame)
      (out : List Stmt) (depth : Int),
      (∀ f ∈ walkFields fields, isIdentifierLike f.name = true) →
      (copyContainer site shape fields object).run frame = (.ok out, next) →
      (renderLines depth (out.map Stmt.line)).filterMap commentName? =
        safeNames (walkFields fields)) ∧
    (∀ (m : Module) (headerPath : String) (artifacts : Artifacts),
      (∀ r ∈ m.requests, ∀ f ∈ requestWalk r, isIdentifierLike f.name = true) →
      generate m headerPath = .ok artifacts →
      ∃ codes : List RequestCode, artifacts.source = render (sourceLines m codes) ∧
        codes.map (·.request) = m.requests ∧ (∀ code ∈ codes, code.Announces) ∧
        (renderLines 0 (sourceLines m codes)).filterMap commentName? =
          safeNames (m.requests.flatMap requestWalk)) := by
  constructor
  · intro site shape fields object frame next out depth hnames hrun
    obtain ⟨result, n, hresult, hout⟩ :=
      copyContainer_announces site shape fields object frame.scope frame.nextId
    obtain ⟨rfl, -⟩ := Prod.mk.inj (hresult.symm.trans hrun)
    have hcomments : comments out = safeNames (walkFields fields) := hout
    rw [commentNames_stmts, hcomments]
    rw [hcomments]
    exact fun name hname => isIdentifierLike_of_mem_safeNames hnames hname
  · intro m headerPath artifacts hnames hgenerate
    obtain ⟨codes, frame, hrun, hsource⟩ := generate_source hgenerate
    obtain ⟨result, n, hresult, hcodes⟩ := compileRequests_announces m.className m.requests 0
    obtain ⟨rfl, -⟩ := Prod.mk.inj (hresult.symm.trans hrun)
    obtain ⟨hrequests, hannounce⟩ : codes.map (·.request) = m.requests ∧
      ∀ code ∈ codes, code.Announces := hcodes
    refine ⟨codes, hsource, hrequests, hannounce, ?_⟩
    -- the requests that code was generated for are those of the module
    have hwalk : ∀ code ∈ codes, ∀ f ∈ requestWalk code.request, isIdentifierLike f.name = true :=
      fun code hcode => hnames _ (hrequests ▸ List.mem_map_of_mem hcode)
    rw [commentNames_source m hannounce hwalk, ← hrequests, List.flatMap_map]

def sampleFields : List Field :=
  [⟨"length", .simple ["uint16_t"], true, false⟩,
    ⟨"points_len", .simple ["uint16_t"], true, true⟩,
    ⟨"points", .list (.container .struct ["xcb", "POINT"]
      [⟨"x", .simple ["int16_t"], true, true⟩, ⟨"pad0", .pad 2 1, true, false⟩])
      0 (some (.fieldRef "points_len")), true, true⟩,
    ⟨"fd", .simple ["int32_t"], false, true⟩,
    ⟨"mode", .simple ["uint8_t"], true, true⟩,
    ⟨"data", .switch ["xcb", "Draw", "data"] (.fieldRef "mode")
      [⟨"fill", .case ["xcb", "Draw", "data", "fill"] true false [.value 1]
        [⟨"class", .simple ["uint8_t"], true, true⟩], true, true⟩], true, true⟩]

def sampleModule : Module where
  header := "draw"
  decls := [⟨["xcb", "Draw"], .container (.request 7) ["xcb", "Draw"] sampleFields,
    some ⟨["xcb", "Draw"], sampleFields⟩⟩]

theorem wire_fields_copied_in_order_sample :
    (∃ out next, (copyContainer ⟨.decode, ["x11"], ["Draw"]⟩ .reply sampleFields "(*reply)").run {} =
        (.ok out, next) ∧
      (renderLines 1 (out.map Stmt.line)).filterMap commentName? =
        ["length", "points_len", "points", "x", "pad0", "mode", "data", "c_class"]) ∧
    ∃ artifacts, generate sampleModule "" = .ok artifacts ∧
      ∃ codes : List RequestCode, artifacts.source = render (sourceLines sampleModule codes) ∧
        codes.map (·.request) = sampleModule.requests ∧ (∀ code ∈ codes, code.Announces) ∧
        (renderLines 0 (sourceLines sampleModule codes)).filterMap commentName? =
          safeNames (sampleModule.requests.flatMap requestWalk) := by
  have hwalk : ["length", "points_len", "points", "x", "pad0", "mode", "data", "c_class"] =
      safeNames (walkFields sampleFields) := by decide +kernel
  have hcopied : ((copyContainer ⟨.decode, ["x11"], ["Draw"]⟩ .reply sampleFields "(*reply)").run
      {}).1.isOk = true := by decide +kernel
  have hgenerated : (generate sampleModule "").isOk = true := by decide +kernel
  obtain ⟨out, next, hrun⟩ := run_of_isOk hcopied
  obtain ⟨artifacts, hgenerate⟩ := eq_ok_of_isOk hgenerated
  refine ⟨⟨out, next, hrun, ?_⟩, artifacts, hgenerate, ?_⟩
  · rw [hwalk]
    exact wire_fields_copied_in_order.1 _ _ _ _ _ _ _ 1 (by decide +kernel) hrun
  · exact wire_fields_copied_in_order.2 _ _ _ (by decide +kernel) hgenerate

end CodecGen.Emit
