import CodecGen.Proofs.FieldCode
import CodecGen.Proofs.HeaderSlot
import CodecGen.Proofs.WireOrder
set_option autoImplicit false
/-!
Code for hidden fields. A hidden field is known by its name alone: the encoder of a request writes an
opcode, a note about the length, or a value that is computed.
-/
namespace CodecGen.Emit
open Schema

inductive HiddenCode (ns : List String) (head? : Option RequestHead) (name : String) (type : Ty) :
    List Stmt → Prop where
  | opcode {head : RequestHead} (hhead : head? = some head)
      (hname : safeName name = "minor_opcode" ∨ safeName name = "major_opcode" ∧ head.hasMinor = false) :
    HiddenCode ns head? name type
      [.fieldComment (safeName name), .define (qualify type ns) (safeName name) (toString head.opcode),
        .copy .encode (safeName name)]
  | reserved {head : RequestHead} (hhead : head? = some head) (hname : safeName name = "major_opcode")
      (hminor : head.hasMinor = true) :
    HiddenCode ns head? name type
      [.fieldComment (safeName name), .majorOpcodeNote, .reserve (qualify type ns)]
  | length (hname : safeName name = "length") :
    HiddenCode ns head? name type [.fieldComment (safeName name), .lengthNote, .reserve (qualify type ns)]
  | computed {base : Ty} {value : Expr} {site : Site} {frame next : Frame} {before : List Stmt}
      {text : String} (hname : safeName name ∉ headerNames) (htype : type = .exprField base value)
      (hdir : site.dir = .encode) (hns : site.ns = ns)
      (hvalue : (compileExpr site value).run frame = (.ok (before, text), next)) :
    HiddenCode ns head? name type
      (.fieldComment (safeName name) :: (before ++
        [.define (qualify type ns) (safeName name) text, .copy .encode (safeName name)]))

section
variable {ns : List String} {head? : Option RequestHead} {out : List Stmt}

theorem copyOpcode_code {site : Site} (hdir : site.dir = .encode) {type name : String} {frame next : Frame}
    (h : (copyOpcode site head? type name).run frame = (.ok out, next)) :
    ∃ head, head? = some head ∧
      (name = "major_opcode" ∧ head.hasMinor = true ∧ out = [.majorOpcodeNote, .reserve type] ∨
        ¬ (name = "major_opcode" ∧ head.hasMinor = true) ∧
          out = [.define type name (toString head.opcode), .copy .encode name]) := by
  unfold copyOpcode at h
  rw [hdir] at h
  cases head? with
  | none => cases h
  | some head =>
    refine ⟨head, rfl, ?_⟩
    dsimp only at h
    split at h
    · next hmajor =>
      have hmajor : name = "major_opcode" ∧ head.hasMinor = true := by simpa using hmajor
      exact .inl ⟨hmajor.1, hmajor.2, run_pure_eq_ok h⟩
    · next hmajor =>
      have hmajor : ¬ (name = "major_opcode" ∧ head.hasMinor = true) := by simpa using hmajor
      exact .inr ⟨hmajor, run_pure_eq_ok h⟩

theorem hiddenCode_of_copies {called : String} {type : Ty} {wire : Bool}
    (hpad : ∀ bytes align, type ≠ .pad bytes align)
    (h : CopiesField .encode ns head? ⟨called, type, wire, false⟩ out) :
    HiddenCode ns head? called type out := by
  obtain ⟨site, frame, next, hdir, rfl, hrun⟩ := h
  rw [copyField_eq] at hrun
  obtain ⟨body, hbody, rfl⟩ := run_map_eq_ok hrun
  have hhidden : copyBody (site.at called) head? (safeName called) false type =
      copyHidden (site.at called) head? (safeName called) type := by
    cases type with
    | pad bytes align => exact absurd rfl (hpad bytes align)
    | _ => rfl
  have hencode : (site.at called).dir = .encode := hdir
  rw [hhidden] at hbody
  unfold copyHidden at hbody
  dsimp only at hbody
  split at hbody
  · -- the names of the header are asked for one after another, opcodes first
    next hopcode =>
    have hopcode : safeName called = "major_opcode" ∨ safeName called = "minor_opcode" := by
      simpa using hopcode
    obtain ⟨head, hhead, ⟨hmajor, hminor, rfl⟩ | ⟨hnot, rfl⟩⟩ := copyOpcode_code hencode hbody
    · exact .reserved hhead hmajor hminor
    · refine .opcode hhead (hopcode.symm.imp_right fun hmajor => ⟨hmajor, ?_⟩)
      exact Bool.eq_false_iff.mpr fun hminor => hnot ⟨hmajor, hminor⟩
  · next hopcode =>
    rw [hencode] at hbody
    split at hbody
    · cases hbody
    · next hread =>
      split at hbody
      · next hlength =>
        obtain rfl := run_pure_eq_ok hbody
        exact .length (beq_iff_eq.mp hlength)
      · next hlength =>
        split at hbody
        · next base value =>
          obtain ⟨⟨before, text⟩, mid, hvalue, hbody⟩ := run_bind_eq_ok hbody
          cases hbody
          have hother : safeName called ∉ headerNames := by
            simp only [Bool.or_eq_true, beq_iff_eq, not_or] at hopcode hread hlength
            simp [headerNames, hopcode, hread, hlength]
          exact .computed hother rfl hencode rfl hvalue
        · cases hbody

theorem hiddenCode_of_exprField {f : Field} {base : Ty} {value : Expr} (htype : f.type = .exprField base value)
    (hwire : f.wire = true) (h : CopiesField .encode ns head? f out) :
    HiddenCode ns head? f.name f.type out := by
  obtain ⟨name, type, wire, visible⟩ := f
  obtain rfl : type = .exprField base value := htype
  obtain rfl : wire = true := hwire
  cases visible with
  | false => exact hiddenCode_of_copies (by simp) h
  | true =>
    obtain ⟨site, frame, next, body, -, -, hrun, -⟩ := h.value (by simp)
    rw [copyValue] at hrun
    · cases hrun
    all_goals simp

end

def fromFirstField (stmts : List Stmt) : List Stmt := stmts.dropWhile fun x => x.comment?.isNone

theorem fromFirstField_bound (object : String) (fields : List Field) (frame : Frame) (name : String)
    (rest : List Stmt) :
    fromFirstField ((bindFields object fields frame).1 ++ .fieldComment name :: rest) =
      .fieldComment name :: rest := by
  have hsilent := List.filterMap_eq_nil_iff.mp (comments_bindFields object fields frame)
  rw [fromFirstField, List.dropWhile_append_of_pos fun x hx => by rw [hsilent x hx]; rfl]
  rfl

def opcodeWritten (name : String) (opcode : Int) : List Stmt :=
  [.fieldComment name, .define "uint8_t" name (toString opcode), .copy .encode name, .blank]

def majorReserved : List Stmt :=
  [.fieldComment "major_opcode", .majorOpcodeNote, .reserve "uint8_t", .blank]

/-- How the encoder of a request of an extension or of the core starts. That of the core writes the major
opcode exactly if no field of the request is called like the minor one. -/
def OpcodesWritten (isExt : Bool) (r : Request) (encoder : List Stmt) : Prop :=
  if isExt then majorReserved ++ opcodeWritten "minor_opcode" r.opcode <+: fromFirstField encoder
  else (opcodeWritten "major_opcode" r.opcode <+: fromFirstField encoder ↔
      ∀ f ∈ r.fields, f.name ≠ "minor_opcode") ∧
    (majorReserved <+: fromFirstField encoder ↔ ∃ f ∈ r.fields, f.name = "minor_opcode")

section
variable {className : String} {opcode : Int} {minor : Bool} {out : List Stmt}

theorem majorCode (h : HiddenCode ["x11", className] (some ⟨opcode, minor⟩) "major_opcode" Resolve.card8 out) :
    out ++ [.blank] = if minor then majorReserved else opcodeWritten "major_opcode" opcode := by
  cases h with
  | opcode hhead hname =>
    cases hhead
    rcases hname with hname | ⟨-, hminor⟩
    · exact absurd hname (by decide)
    · rw [show minor = false from hminor]
      rfl
  | reserved hhead _ hminor =>
    cases hhead
    rw [show minor = true from hminor]
    rfl
  | length hname => exact absurd hname (by decide)
  | computed hname => exact absurd hname (by decide)

theorem minorCode (h : HiddenCode ["x11", className] (some ⟨opcode, minor⟩) "minor_opcode" Resolve.card8 out) :
    out ++ [.blank] = opcodeWritten "minor_opcode" opcode := by
  cases h with
  | opcode hhead =>
    cases hhead
    rfl
  | reserved _ hname => exact absurd hname (by decide)
  | length hname => exact absurd hname (by decide)
  | computed hname => exact absurd hname (by decide)

end

theorem hasMinorOpcode_iff {fields : List Field} :
    hasMinorOpcode fields = true ↔ ∃ f ∈ fields, f.name = "minor_opcode" := by
  simp [hasMinorOpcode]

section
variable {className : String} {r : Request} {frame next : Frame} {out : List Stmt}

abbrev encodeSite (className : String) (r : Request) : Site := ⟨.encode, ["x11", className], [r.name.last]⟩

abbrev requestHead (r : Request) : RequestHead := ⟨r.opcode, hasMinorOpcode r.fields⟩

theorem encodeRequest_eq_ok (h : (encodeRequest className r).run frame = (.ok out, next)) :
    ∃ mid start last body, out = (bindFields "request" r.fields mid).1 ++ body ∧
      (copyFields (encodeSite className r) (some (requestHead r)) r.fields).run start = (.ok body, last) := by
  unfold encodeRequest copyContainer at h
  obtain ⟨_, mid, -, h⟩ := run_bind_eq_ok h
  obtain ⟨⟨bindings, body⟩, _, hfields, h⟩ := run_bind_eq_ok h
  cases h
  obtain ⟨rfl, start, last, hbody⟩ := run_withFields_eq_ok hfields
  exact ⟨mid, start, last, body, rfl, hbody⟩

theorem encodeRequest_major {rest : List Field}
    (hfields : r.fields = Resolve.headerField "major_opcode" Resolve.card8 :: rest)
    (h : (encodeRequest className r).run frame = (.ok out, next)) :
    ∃ start last more, (copyFields (encodeSite className r) (some (requestHead r)) rest).run start =
        (.ok more, last) ∧
      fromFirstField out =
        (if hasMinorOpcode r.fields then majorReserved else opcodeWritten "major_opcode" r.opcode) ++ more := by
  obtain ⟨mid, start, last, body, rfl, hbody⟩ := encodeRequest_eq_ok h
  rw [hfields] at hbody
  obtain ⟨piece, more, between, hpiece, hmore, rfl⟩ := copyFields_cons hbody rfl
  have hmajor := majorCode (hiddenCode_of_copies (by simp [Resolve.card8]) ⟨_, _, _, rfl, rfl, hpiece⟩)
  refine ⟨between, last, more, hmore, ?_⟩
  rw [hmajor]
  split
  · exact fromFirstField_bound ..
  · exact fromFirstField_bound ..

theorem not_reserved_of_written {name : String} {opcode : Int} {more : List Stmt} :
    ¬ majorReserved <+: opcodeWritten name opcode ++ more := by
  rintro ⟨rest, hrest⟩
  cases hrest

theorem not_written_of_reserved {name : String} {opcode : Int} {more : List Stmt} :
    ¬ opcodeWritten name opcode <+: majorReserved ++ more := by
  rintro ⟨rest, hrest⟩
  cases hrest

theorem opcodesWritten_of_laidOut {isExt : Bool} {members : List Field}
    (hlaid : Resolve.LaidOut isExt members (.request r.opcode) r.fields)
    (h : (encodeRequest className r).run frame = (.ok out, next)) : OpcodesWritten isExt r out := by
  obtain ⟨name, opcode, fields, reply⟩ := r
  cases hlaid with
  | @coreRequest _ x rest hcore hslot =>
    obtain ⟨_, _, more, -, hfirst⟩ := encodeRequest_major rfl h
    rw [OpcodesWritten, if_neg (by simp [hcore]), hfirst]
    split
    · next hhas =>
      have hsome := hasMinorOpcode_iff.mp hhas
      refine ⟨iff_of_false not_written_of_reserved fun hall => ?_,
        iff_of_true (List.prefix_append _ _) hsome⟩
      obtain ⟨f, hf, hname⟩ := hsome
      exact hall f hf hname
    · next hhas =>
      have hnone := fun hsome => hhas (hasMinorOpcode_iff.mpr hsome)
      exact ⟨iff_of_true (List.prefix_append _ _) fun f hf hname => hnone ⟨f, hf, hname⟩,
        iff_of_false not_reserved_of_written hnone⟩
  | extRequest hext =>
    obtain ⟨start, last, more, hmore, hfirst⟩ := encodeRequest_major rfl h
    obtain ⟨piece, rest, _, hpiece, -, rfl⟩ := copyFields_cons hmore rfl
    have hminor := minorCode (hiddenCode_of_copies (by simp [Resolve.card8]) ⟨_, _, _, rfl, rfl, hpiece⟩)
    rw [OpcodesWritten, if_pos hext, hfirst, hminor]
    split
    · rw [← List.append_assoc]
      exact List.prefix_append _ _
    · next hnone => exact absurd rfl hnone

theorem compileRequest_eq_ok {code : RequestCode}
    (h : (compileRequest className r).run frame = (.ok code, next)) :
    code.request = r ∧ ∃ last, (encodeRequest className r).run frame = (.ok code.encoder, last) := by
  unfold compileRequest at h
  obtain ⟨encoder, mid, hencoder, h⟩ := run_bind_eq_ok h
  split at h
  · cases h
    exact ⟨rfl, _, hencoder⟩
  · obtain ⟨decoder, _, -, h⟩ := run_bind_eq_ok h
    cases h
    exact ⟨rfl, _, hencoder⟩

theorem compileRequests_eq_ok {requests : List Request} {codes : List RequestCode}
    (h : (compileRequests className requests).run frame = (.ok codes, next)) :
    codes.map (·.request) = requests ∧ ∀ code ∈ codes, ∃ start last,
      (encodeRequest className code.request).run start = (.ok code.encoder, last) := by
  induction requests generalizing frame codes with
  | nil =>
    cases h
    exact ⟨rfl, by simp⟩
  | cons r rest ih =>
    rw [compileRequests] at h
    obtain ⟨one, mid, hone, h⟩ := run_bind_eq_ok h
    obtain ⟨more, _, hmore, h⟩ := run_bind_eq_ok h
    cases h
    obtain ⟨rfl, last, hencoder⟩ := compileRequest_eq_ok hone
    obtain ⟨hrequests, hall⟩ := ih hmore
    exact ⟨by rw [List.map_cons, hrequests], List.forall_mem_cons.mpr ⟨⟨frame, last, hencoder⟩, hall⟩⟩

end

end CodecGen.Emit
