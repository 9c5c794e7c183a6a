import CodecGen.Proofs.Emission
set_option autoImplicit false
/-!
The code of one field within the code of a message. What copies a list of fields copies every field that it
reaches, also those of members, of the elements of lists and of branches, and the statements of each stand
together (`CopiesAll.copied`).
-/
namespace CodecGen.Emit
open Schema

section
variable {α β : Type} {x : Emission α} {frame next : Frame}

theorem run_bind_eq_ok {f : α → Emission β} {b : β} (h : (x >>= f).run frame = (.ok b, next)) :
    ∃ a mid, x.run frame = (.ok a, mid) ∧ (f a).run mid = (.ok b, next) := by
  rcases hx : x.run frame with ⟨fault | a, mid⟩
  · rw [run_bind_error f hx] at h
    cases h
  · rw [run_bind_ok f hx] at h
    exact ⟨a, mid, rfl, h⟩

theorem run_pure_eq_ok {a b : α} (h : (pure a : Emission α).run frame = (.ok b, next)) : b = a := by
  cases h
  rfl

theorem run_map_eq_ok {f : α → β} {b : β} (h : (f <$> x).run frame = (.ok b, next)) :
    ∃ a, x.run frame = (.ok a, next) ∧ b = f a := by
  rw [map_eq_pure_bind] at h
  obtain ⟨a, mid, ha, h⟩ := run_bind_eq_ok h
  cases h
  exact ⟨a, ha, rfl⟩

theorem run_withFields_eq_ok {object : String} {fields : List Field} {bindings : List Stmt} {a : α}
    (h : (withFields object fields x).run frame = (.ok (bindings, a), next)) :
    bindings = (bindFields object fields frame).1 ∧
      ∃ inner last, x.run inner = (.ok a, last) := by
  unfold withFields at h
  rcases hbind : bindFields object fields frame with ⟨stmts, count, inner⟩
  rcases hx : x.run inner with ⟨result, last⟩
  simp only [ExceptT.run, ExceptT.mk, hbind] at h
  rw [show x inner = (result, last) from hx] at h
  dsimp only at h
  split at h
  · obtain ⟨hresult, -⟩ := Prod.mk.inj h
    cases result with
    | error fault => cases hresult
    | ok b =>
      obtain ⟨rfl, rfl⟩ := Prod.mk.inj (Except.ok.inj hresult)
      exact ⟨rfl, inner, last, hx⟩
  · cases h

theorem run_withBranch_eq_ok {name : String} {fields : List Field} {bindings : List Stmt} {a : α}
    (h : (withBranch name fields x).run frame = (.ok (bindings, a), next)) :
    ∃ inner last, x.run inner = (.ok a, last) := by
  unfold withBranch at h
  split at h
  · obtain ⟨b, hb, hpair⟩ := run_map_eq_ok h
    obtain ⟨-, rfl⟩ := Prod.mk.inj hpair
    exact ⟨frame, next, hb⟩
  · exact (run_withFields_eq_ok h).2

end

/-- Copying `fields` for the request `head?` copies the field for the request in the third place: it is
one of the fields, or among those of a member, of the elements of a list or of a branch. -/
inductive CopiedWithin : Option RequestHead → List Field → Option RequestHead → Field → Prop where
  | here {head? : Option RequestHead} {fields : List Field} {f : Field} (hf : f ∈ fields)
      (hwire : f.wire = true) : CopiedWithin head? fields head? f
  | member {head? inside? : Option RequestHead} {fields inner : List Field} {f : Field} {called : String}
      {shape : Shape} {name : Name}
      (hmem : ⟨called, .container shape name inner, true, true⟩ ∈ fields)
      (hf : CopiedWithin (requestHead? shape inner) inner inside? f) : CopiedWithin head? fields inside? f
  | element {head? inside? : Option RequestHead} {fields inner : List Field} {f : Field} {called : String}
      {shape : Shape} {name : Name} {count : Int} {length : Option Expr}
      (hmem : ⟨called, .list (.container shape name inner) count length, true, true⟩ ∈ fields)
      (hf : CopiedWithin (requestHead? shape inner) inner inside? f) : CopiedWithin head? fields inside? f
  | branch {head? inside? : Option RequestHead} {fields cases inner : List Field} {f : Field}
      {called case : String} {name caseName : Name} {selector : Expr} {byValue byMask wire visible : Bool}
      {selectors : List Expr} (hmem : ⟨called, .switch name selector cases, true, true⟩ ∈ fields)
      (hcase : ⟨case, .case caseName byValue byMask selectors inner, wire, visible⟩ ∈ cases)
      (hf : CopiedWithin none inner inside? f) : CopiedWithin head? fields inside? f

theorem CopiedWithin.wire {head? inside? : Option RequestHead} {fields : List Field} {f : Field}
    (h : CopiedWithin head? fields inside? f) : f.wire = true := by
  induction h with
  | here _ hwire => exact hwire
  | member _ _ ih | element _ _ ih | branch _ _ _ ih => exact ih

def CopiesField (dir : Direction) (ns : List String) (head? : Option RequestHead) (f : Field)
    (out : List Stmt) : Prop :=
  ∃ site frame next, site.dir = dir ∧ site.ns = ns ∧ (copyField site head? f).run frame = (.ok out, next)

def CopiesAll (dir : Direction) (ns : List String) (head? : Option RequestHead) (fields : List Field)
    (out : List Stmt) : Prop :=
  ∃ site frame next, site.dir = dir ∧ site.ns = ns ∧
    ((copyFields site head? fields).run frame = (.ok out, next) ∨
      head? = none ∧ (copyBranchFields site fields).run frame = (.ok out, next))

section
variable {dir : Direction} {ns : List String} {head? : Option RequestHead} {out : List Stmt}

theorem copyFields_cons {site : Site} {frame next : Frame} {f : Field} {rest : List Field}
    (h : (copyFields site head? (f :: rest)).run frame = (.ok out, next)) (hwire : f.wire = true) :
    ∃ piece more mid, (copyField site head? f).run frame = (.ok piece, mid) ∧
      (copyFields site head? rest).run mid = (.ok more, next) ∧ out = piece ++ [.blank] ++ more := by
  rw [copyFields, if_pos hwire] at h
  obtain ⟨piece, mid, hpiece, h⟩ := run_bind_eq_ok h
  obtain ⟨more, last, hmore, h⟩ := run_bind_eq_ok h
  cases h
  exact ⟨piece, more, mid, hpiece, hmore, rfl⟩

theorem copyFields_mem {site : Site} {frame next : Frame} {fields : List Field}
    (h : (copyFields site head? fields).run frame = (.ok out, next)) {f : Field} (hf : f ∈ fields)
    (hwire : f.wire = true) :
    ∃ mid last piece, (copyField site head? f).run mid = (.ok piece, last) ∧ piece <:+: out := by
  induction fields generalizing frame out with
  | nil => cases hf
  | cons first rest ih =>
    rcases List.mem_cons.mp hf with rfl | hf
    · obtain ⟨piece, more, mid, hpiece, -, rfl⟩ := copyFields_cons h hwire
      exact ⟨frame, mid, piece, hpiece, [], [.blank] ++ more, by simp⟩
    · by_cases hfirst : first.wire = true
      · obtain ⟨piece, more, mid, -, hmore, rfl⟩ := copyFields_cons h hfirst
        obtain ⟨frame', last, found, hfound, hinfix⟩ := ih hmore hf
        exact ⟨frame', last, found, hfound, hinfix.trans (List.suffix_append _ _).isInfix⟩
      · rw [copyFields, if_neg hfirst] at h
        exact ih h hf

theorem copyBranchFields_mem {site : Site} {frame next : Frame} {fields : List Field}
    (h : (copyBranchFields site fields).run frame = (.ok out, next)) {f : Field} (hf : f ∈ fields) :
    ∃ mid last piece, (copyField site none f).run mid = (.ok piece, last) ∧ piece <:+: out := by
  induction fields generalizing frame out with
  | nil => cases hf
  | cons first rest ih =>
    rw [copyBranchFields] at h
    split at h
    · obtain ⟨piece, mid, hpiece, h⟩ := run_bind_eq_ok h
      obtain ⟨more, last, hmore, h⟩ := run_bind_eq_ok h
      cases h
      rcases List.mem_cons.mp hf with rfl | hf
      · exact ⟨frame, mid, piece, hpiece, (List.prefix_append _ _).isInfix⟩
      · obtain ⟨frame', last', found, hfound, hinfix⟩ := ih hmore hf
        exact ⟨frame', last', found, hfound, hinfix.trans (List.suffix_append _ _).isInfix⟩
    · cases h

theorem CopiesAll.mem {fields : List Field} (h : CopiesAll dir ns head? fields out) {f : Field}
    (hf : f ∈ fields) (hwire : f.wire = true) : ∃ piece, CopiesField dir ns head? f piece ∧ piece <:+: out := by
  obtain ⟨site, frame, next, hdir, hns, hrun | ⟨rfl, hrun⟩⟩ := h
  · obtain ⟨mid, last, piece, hpiece, hinfix⟩ := copyFields_mem hrun hf hwire
    exact ⟨piece, ⟨site, mid, last, hdir, hns, hpiece⟩, hinfix⟩
  · obtain ⟨mid, last, piece, hpiece, hinfix⟩ := copyBranchFields_mem hrun hf
    exact ⟨piece, ⟨site, mid, last, hdir, hns, hpiece⟩, hinfix⟩

theorem CopiesField.value {called : String} {type : Ty} (hpad : ∀ bytes align, type ≠ .pad bytes align)
    (h : CopiesField dir ns head? ⟨called, type, true, true⟩ out) :
    ∃ site frame next body, site.dir = dir ∧ site.ns = ns ∧
      (copyValue site (safeName called) type).run frame = (.ok body, next) ∧ body <:+: out := by
  obtain ⟨site, frame, next, hdir, hns, hrun⟩ := h
  rw [copyField_eq] at hrun
  obtain ⟨body, hbody, rfl⟩ := run_map_eq_ok hrun
  have hvalue : copyBody (site.at called) head? (safeName called) true type =
      copyValue (site.at called) (safeName called) type := by
    cases type with
    | pad bytes align => exact absurd rfl (hpad bytes align)
    | _ => rfl
  rw [hvalue] at hbody
  exact ⟨site.at called, frame, next, body, hdir, hns, hbody, (List.suffix_cons _ _).isInfix⟩

theorem CopiesField.members {called : String} {shape : Shape} {name : Name} {inner : List Field}
    (h : CopiesField dir ns head? ⟨called, .container shape name inner, true, true⟩ out) :
    ∃ body, CopiesAll dir ns (requestHead? shape inner) inner body ∧ body <:+: out := by
  obtain ⟨site, frame, next, code, hdir, hns, hrun, hinfix⟩ := h.value (by simp)
  rw [copyValue] at hrun
  obtain ⟨⟨bindings, body⟩, mid, hfields, hrun⟩ := run_bind_eq_ok hrun
  cases hrun
  obtain ⟨-, start, last, hbody⟩ := run_withFields_eq_ok hfields
  refine ⟨body, ⟨site, start, last, hdir, hns, .inl hbody⟩, List.IsInfix.trans ?_ hinfix⟩
  exact ⟨[.openBlock] ++ bindings, [.closeBlock], by simp⟩

theorem CopiesField.elements {called : String} {shape : Shape} {name : Name} {inner : List Field}
    {count : Int} {length : Option Expr}
    (h : CopiesField dir ns head? ⟨called, .list (.container shape name inner) count length, true, true⟩ out) :
    ∃ body, CopiesAll dir ns (requestHead? shape inner) inner body ∧ body <:+: out := by
  obtain ⟨site, frame, next, code, hdir, hns, hrun, hinfix⟩ := h.value (by simp)
  rw [copyValue] at hrun
  obtain ⟨before, mid, -, hrun⟩ := run_bind_eq_ok hrun
  obtain ⟨element, mid', helement, hrun⟩ := run_bind_eq_ok hrun
  cases hrun
  rw [copyElement] at helement
  obtain ⟨⟨bindings, body⟩, mid'', hfields, helement⟩ := run_bind_eq_ok helement
  cases helement
  obtain ⟨-, start, last, hbody⟩ := run_withFields_eq_ok hfields
  refine ⟨body, ⟨site, start, last, hdir, hns, .inl hbody⟩, List.IsInfix.trans ?_ hinfix⟩
  exact ⟨before ++ [.openLoop (safeName called ++ "_elem") (safeName called)] ++ bindings, [.closeBlock],
    by simp⟩

theorem copyBranches_mem {site : Site} {selector : String} {frame next : Frame} {cases : List Field}
    (h : (copyBranches site selector cases).run frame = (.ok out, next)) {b : Field} (hb : b ∈ cases) :
    ∃ mid last piece, (copyBranch site selector b).run mid = (.ok piece, last) ∧ piece <:+: out := by
  induction cases generalizing frame out with
  | nil => cases hb
  | cons first rest ih =>
    rw [copyBranches] at h
    obtain ⟨piece, mid, hpiece, h⟩ := run_bind_eq_ok h
    obtain ⟨more, last, hmore, h⟩ := run_bind_eq_ok h
    cases h
    rcases List.mem_cons.mp hb with rfl | hb
    · exact ⟨frame, mid, piece, hpiece, (List.prefix_append _ _).isInfix⟩
    · obtain ⟨frame', last', found, hfound, hinfix⟩ := ih hmore hb
      exact ⟨frame', last', found, hfound, hinfix.trans (List.suffix_append _ _).isInfix⟩

theorem copyBranch_fields {site : Site} {selector case : String} {frame next : Frame} {caseName : Name}
    {byValue byMask wire visible : Bool} {selectors : List Expr} {inner : List Field}
    (h : (copyBranch site selector
      ⟨case, .case caseName byValue byMask selectors inner, wire, visible⟩).run frame = (.ok out, next)) :
    ∃ body, CopiesAll site.dir site.ns none inner body ∧ body <:+: out := by
  rw [copyBranch] at h
  obtain ⟨_, _, -, h⟩ := run_bind_eq_ok h
  dsimp only at h
  split at h
  · obtain ⟨_, _, hfail, -⟩ := run_bind_eq_ok h
    cases hfail
  · obtain ⟨⟨before, conditions⟩, _, -, h⟩ := run_bind_eq_ok h
    obtain ⟨⟨bindings, body⟩, _, hfields, h⟩ := run_bind_eq_ok h
    cases h
    obtain ⟨start, last, hbody⟩ := run_withBranch_eq_ok hfields
    refine ⟨body, ⟨site.at case, start, last, rfl, rfl, .inr ⟨rfl, hbody⟩⟩, ?_⟩
    exact ⟨before ++ [.openBranch conditions] ++ bindings, [.closeBlock], by simp⟩

theorem CopiesField.branch {called case : String} {name caseName : Name} {selector : Expr}
    {cases inner : List Field} {byValue byMask wire visible : Bool} {selectors : List Expr}
    (h : CopiesField dir ns head? ⟨called, .switch name selector cases, true, true⟩ out)
    (hcase : ⟨case, .case caseName byValue byMask selectors inner, wire, visible⟩ ∈ cases) :
    ∃ body, CopiesAll dir ns none inner body ∧ body <:+: out := by
  obtain ⟨site, frame, next, code, rfl, rfl, hrun, hinfix⟩ := h.value (by simp)
  rw [copyValue] at hrun
  obtain ⟨members, _, -, hrun⟩ := run_bind_eq_ok hrun
  obtain ⟨⟨bindings, inside⟩, _, hfields, hrun⟩ := run_bind_eq_ok hrun
  cases hrun
  obtain ⟨-, start, last, hinside⟩ := run_withFields_eq_ok hfields
  obtain ⟨⟨before, value⟩, _, -, hinside⟩ := run_bind_eq_ok hinside
  obtain ⟨branches, _, hbranches, hinside⟩ := run_bind_eq_ok hinside
  cases hinside
  obtain ⟨_, _, piece, hpiece, hbranch⟩ := copyBranches_mem hbranches hcase
  obtain ⟨body, hbody, hfound⟩ := copyBranch_fields hpiece
  refine ⟨body, hbody, hfound.trans (hbranch.trans (List.IsInfix.trans ?_ hinfix))⟩
  exact ⟨[.openBlock] ++ bindings ++ before ++ [.bindSelector (safeName called ++ "_expr") value],
    [.closeBlock], by simp⟩

theorem CopiesAll.inside {fields inner : List Field} (h : CopiesAll dir ns head? fields out) {f : Field}
    (hf : f ∈ fields) (hwire : f.wire = true) {inside? : Option RequestHead}
    (hinside : ∀ {piece}, CopiesField dir ns head? f piece →
      ∃ body, CopiesAll dir ns inside? inner body ∧ body <:+: piece) :
    ∃ body, CopiesAll dir ns inside? inner body ∧ body <:+: out := by
  obtain ⟨piece, hpiece, hinfix⟩ := h.mem hf hwire
  obtain ⟨body, hbody, hwithin⟩ := hinside hpiece
  exact ⟨body, hbody, hwithin.trans hinfix⟩

/-- What copies fields copies every field within them, each by statements of its own. -/
theorem CopiesAll.copied {fields : List Field} (h : CopiesAll dir ns head? fields out)
    {inside? : Option RequestHead} {f : Field} (hf : CopiedWithin head? fields inside? f) :
    ∃ piece, CopiesField dir ns inside? f piece ∧ piece <:+: out := by
  induction hf generalizing out with
  | here hmem hwire => exact h.mem hmem hwire
  | member hmem _ ih =>
    obtain ⟨body, hbody, hwithin⟩ := h.inside hmem rfl fun hpiece => hpiece.members
    obtain ⟨found, hfound, hinfix⟩ := ih hbody
    exact ⟨found, hfound, hinfix.trans hwithin⟩
  | element hmem _ ih =>
    obtain ⟨body, hbody, hwithin⟩ := h.inside hmem rfl fun hpiece => hpiece.elements
    obtain ⟨found, hfound, hinfix⟩ := ih hbody
    exact ⟨found, hfound, hinfix.trans hwithin⟩
  | branch hmem hcase _ ih =>
    obtain ⟨body, hbody, hwithin⟩ := h.inside hmem rfl fun hpiece => hpiece.branch hcase
    obtain ⟨found, hfound, hinfix⟩ := ih hbody
    exact ⟨found, hfound, hinfix.trans hwithin⟩

end

end CodecGen.Emit
