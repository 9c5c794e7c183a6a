import CodecGen.Proofs.Documents
import CodecGen.Proofs.ReaderSteps
set_option autoImplicit false
/-!
Where the elements of a tree stand in the source. Each step of the reader says what becomes of the
start tag that is being read; from this the tags come out in the order of their offsets, and the
spans of the elements nest as the elements do.
-/
namespace CodecGen.Markup

def Mode.Follows (start? : Option Nat) (offset : Nat) (b : UInt8) (mode : Mode) : Prop :=
  ∀ start, mode.start? = some start →
    start? = some start ∨ start = offset ∧ b = '<'.toUInt8

/-- A tag is put out at the byte that ends it, and a start tag with its own beginning. -/
def Step.Tracks (start? : Option Nat) (offset : Nat) (b : UInt8) : Step → Prop
  | .next mode | .out (.text _) mode => mode.Follows start? offset b
  | .out (.openTag start _ _ _) mode =>
    start? = some start ∧ b = '>'.toUInt8 ∧ mode.start? = none
  | .out (.closeTag _) mode => b = '>'.toUInt8 ∧ mode.start? = none
  | .fail .. => True

theorem Moves.tracks {offset : Nat} {b : UInt8} {mode : Mode} {r alone : Step}
    (h : Moves offset b mode r alone) : r.Tracks mode.start? offset b := by
  have hless : (Mode.less offset).Follows mode.start? offset '<'.toUInt8 := by
    intro start hstart
    cases hstart
    exact .inr ⟨rfl, rfl⟩
  cases h with
  | fail => trivial
  | next hstart _ =>
    intro start hnext
    rcases hstart with hstart | hstart
    · exact .inl (hstart ▸ hnext)
    · rw [hstart] at hnext
      cases hnext
  | less _ hb =>
    subst hb
    exact hless
  | textLess cs _ hb =>
    subst hb
    exact hless
  | text cs _ =>
    intro start hnext
    cases hnext
  | openTag closed hstart _ hb => exact ⟨hstart, hb, rfl⟩
  | closeTag name _ hb => exact ⟨hb, rfl⟩

theorem Step.Tracks.of_none {start? : Option Nat} {offset : Nat} {b : UInt8} {r : Step}
    (h : r.Tracks none offset b) : r.Tracks start? offset b := by
  have hfollows : ∀ {mode : Mode}, mode.Follows none offset b → mode.Follows start? offset b := by
    intro mode hmode start hstart
    exact (hmode start hstart).imp_left fun hnone => by cases hnone
  cases r with
  | next mode => exact hfollows h
  | fail => trivial
  | out lexeme mode =>
    cases lexeme with
    | text cs => exact hfollows h
    | openTag => cases h.1
    | closeTag name => exact h

theorem step_tracks (offset : Nat) (b : UInt8) (mode : Mode) :
    (step offset mode b).Tracks mode.start? offset b := by
  by_cases hbegun : mode.stage = .begun
  · obtain ⟨start, rfl⟩ := less_of_begun hbegun
    have hmoves := (lessStep_moves offset b start).tracks
    split at hmoves
    · exact hmoves.of_none
    · exact hmoves
  · exact (step_moves offset b mode hbegun).tracks

/-- From `lo` to `hi` the events come one after another: an element is entered at the beginning of
its start tag and left behind the end of a tag. -/
def InOrder (src : Bytes) : (lo : Nat) → List Event → (hi : Nat) → Prop
  | lo, [], hi => lo ≤ hi
  | lo, .text _ :: rest, hi => InOrder src lo rest hi
  | lo, .enter start _ _ :: rest, hi =>
    lo ≤ start ∧ src[start]? = some '<'.toUInt8 ∧ InOrder src (start + 1) rest hi
  | lo, .leave stop :: rest, hi =>
    lo < stop ∧ src[stop - 1]? = some '>'.toUInt8 ∧ InOrder src stop rest hi

theorem InOrder.of_le {src : Bytes} {lo lo' hi : Nat} {events : List Event}
    (h : InOrder src lo events hi) (hlo : lo' ≤ lo) : InOrder src lo' events hi := by
  induction events with
  | nil => exact Nat.le_trans hlo h
  | cons e rest ih =>
    cases e with
    | text cs => exact ih h
    | enter start name attrs => exact ⟨Nat.le_trans hlo h.1, h.2⟩
    | leave stop => exact ⟨Nat.lt_of_le_of_lt hlo h.1, h.2⟩

theorem InOrder.le {src : Bytes} {lo hi : Nat} {events : List Event}
    (h : InOrder src lo events hi) : lo ≤ hi := by
  induction events generalizing lo with
  | nil => exact h
  | cons e rest ih =>
    cases e with
    | text cs => exact ih h
    | enter start name attrs =>
      have := ih h.2.2
      have := h.1
      omega
    | leave stop =>
      have := ih h.2.2
      have := h.1
      omega

theorem inOrder_append {src : Bytes} {lo hi : Nat} {before after : List Event} :
    InOrder src lo (before ++ after) hi ↔
      ∃ mid, InOrder src lo before mid ∧ InOrder src mid after hi := by
  induction before generalizing lo with
  | nil =>
    constructor
    · intro h
      exact ⟨lo, Nat.le_refl lo, h⟩
    · rintro ⟨mid, hmid, h⟩
      exact h.of_le hmid
  | cons e rest ih =>
    cases e with
    | text cs => exact ih
    | enter start name attrs =>
      simp only [List.cons_append, InOrder, ih, and_assoc, exists_and_left]
    | leave stop =>
      simp only [List.cons_append, InOrder, ih, and_assoc, exists_and_left]

theorem InOrder.mono {src : Bytes} {lo hi hi' : Nat} {events : List Event}
    (h : InOrder src lo events hi) (hhi : hi ≤ hi') : InOrder src lo events hi' := by
  have h : InOrder src lo (events ++ []) hi' := inOrder_append.2 ⟨hi, h, hhi⟩
  rwa [List.append_nil] at h

def Placed.events (p : Placed) : List Event :=
  match p.lexeme with
  | .text cs => [.text cs]
  | .openTag start name attrs false => [.enter start name attrs]
  | .openTag start name attrs true => [.enter start name attrs, .leave p.stop]
  | .closeTag _ => [.leave p.stop]

theorem matchTags_fst {opened left : List QName} {out : List Event} {lexemes : List Placed}
    (h : (matchTags opened out lexemes).2 = .ok left) :
    (matchTags opened out lexemes).1 = out.reverse ++ lexemes.flatMap Placed.events := by
  induction lexemes generalizing opened out with
  | nil => simp [matchTags]
  | cons p rest ih =>
    obtain ⟨lexeme, stop, line⟩ := p
    cases lexeme with
    | text cs =>
      simp only [matchTags] at h ⊢
      rw [ih h]
      simp [Placed.events]
    | openTag start name attrs closed =>
      cases closed
      all_goals
        simp only [matchTags] at h ⊢
        rw [ih h]
        simp [Placed.events]
    | closeTag name =>
      cases hclose : closeFault? opened name with
      | some c =>
        simp only [matchTags, hclose] at h
        cases h
      | none =>
        simp only [matchTags, hclose] at h ⊢
        rw [ih h]
        simp [Placed.events]

def ReadInOrder (src : Bytes) (mode : Mode) (offset : Nat) (out : List Placed) : Prop :=
  ∃ lo, InOrder src 0 (out.reverse.flatMap Placed.events) lo ∧ lo ≤ offset ∧
    ∀ start, mode.start? = some start →
      lo ≤ start ∧ start < offset ∧ src[start]? = some '<'.toUInt8

theorem ReadInOrder.next {src : Bytes} {mode mode' : Mode} {offset : Nat} {out : List Placed}
    {b : UInt8} (h : ReadInOrder src mode offset out) (hb : src[offset]? = some b)
    (hmode : mode'.Follows mode.start? offset b) : ReadInOrder src mode' (offset + 1) out := by
  obtain ⟨lo, hout, hlo, hstart⟩ := h
  refine ⟨lo, hout, by omega, fun start hs => ?_⟩
  obtain hs | ⟨rfl, rfl⟩ := hmode start hs
  · obtain ⟨hle, hlt, hless⟩ := hstart start hs
    exact ⟨hle, by omega, hless⟩
  · exact ⟨hlo, by omega, hb⟩

theorem inOrder_snoc {src : Bytes} {lo hi : Nat} {out : List Placed} {p : Placed}
    (hout : InOrder src 0 (out.reverse.flatMap Placed.events) lo)
    (hp : InOrder src lo p.events hi) :
    InOrder src 0 ((p :: out).reverse.flatMap Placed.events) hi := by
  rw [List.reverse_cons, List.flatMap_append, List.flatMap_cons, List.flatMap_nil,
    List.append_nil]
  exact inOrder_append.2 ⟨lo, hout, hp⟩

theorem ReadInOrder.out {src : Bytes} {mode mode' : Mode} {offset : Nat} (line : Nat)
    {out : List Placed} {b : UInt8} {lexeme : Lexeme} (h : ReadInOrder src mode offset out)
    (hb : src[offset]? = some b) (hstep : (Step.out lexeme mode').Tracks mode.start? offset b) :
    ReadInOrder src mode' (offset + 1) (⟨lexeme, offset + 1, line⟩ :: out) := by
  -- after a tag no start tag is being read
  have hnone : ∀ {lo : Nat}, mode'.start? = none → ∀ start, mode'.start? = some start →
      lo ≤ start ∧ start < offset + 1 ∧ src[start]? = some '<'.toUInt8 := by
    intro lo hmode start hs
    rw [hmode] at hs
    cases hs
  cases lexeme with
  | text cs =>
    obtain ⟨lo, hout, hlo, hstart⟩ := h.next hb hstep
    exact ⟨lo, inOrder_snoc hout (Nat.le_refl lo), hlo, hstart⟩
  | openTag start name attrs closed =>
    obtain ⟨hs, rfl, hmode⟩ := hstep
    obtain ⟨lo, hout, hlo, hstart⟩ := h
    obtain ⟨hle, hlt, hless⟩ := hstart start hs
    refine ⟨offset + 1, inOrder_snoc hout ?_, Nat.le_refl _, hnone hmode⟩
    cases closed with
    | false => exact ⟨hle, hless, Nat.le_of_lt (Nat.succ_lt_succ hlt)⟩
    | true => exact ⟨hle, hless, Nat.succ_lt_succ hlt, hb, Nat.le_refl _⟩
  | closeTag name =>
    obtain ⟨rfl, hmode⟩ := hstep
    obtain ⟨lo, hout, hlo, hstart⟩ := h
    exact ⟨offset + 1, inOrder_snoc hout ⟨Nat.lt_succ_of_le hlo, hb, Nat.le_refl _⟩,
      Nat.le_refl _, hnone hmode⟩

theorem readFrom_inOrder {src bytes : Bytes} {mode : Mode} {offset line : Nat}
    {out : List Placed} (hbytes : src.drop offset = bytes) (hoffset : offset ≤ src.length)
    (h : ReadInOrder src mode offset out) :
    InOrder src 0 ((readFrom mode offset line out bytes).lexemes.flatMap Placed.events)
      src.length := by
  -- what was put out stays in order whether reading goes on or ends here
  have hstop : InOrder src 0 (out.reverse.flatMap Placed.events) src.length := by
    obtain ⟨lo, hout, hlo, -⟩ := h
    exact hout.mono (Nat.le_trans hlo hoffset)
  induction bytes generalizing mode offset line out with
  | nil =>
    unfold readFrom
    split
    · exact hstop
    · exact hstop
    · exact inOrder_snoc hstop (Nat.le_refl _)
  | cons b rest ih =>
    have hb : src[offset]? = some b := by
      rw [← List.head?_drop, hbytes]
      rfl
    have hrest : src.drop (offset + 1) = rest := by
      rw [← List.drop_drop, hbytes]
      rfl
    have hlt : offset + 1 ≤ src.length := (List.getElem?_eq_some_iff.1 hb).1
    have htracks := step_tracks offset b mode
    unfold readFrom
    split
    · rename_i hstep
      rw [hstep] at htracks
      exact ih hrest hlt (h.next hb htracks) hstop
    · rename_i hstep
      rw [hstep] at htracks
      have h' := h.out (nextLine line b) hb htracks
      refine ih hrest hlt h' ?_
      obtain ⟨lo, hout, hlo, -⟩ := h'
      exact hout.mono (Nat.le_trans hlo hlt)
    · exact hstop
    · exact hstop

theorem events_inOrder {src : Bytes} (h : (events src).2 = none) :
    InOrder src 0 (events src).1 src.length := by
  rw [events_fst, matchTags_fst (matchTags_of_events h)]
  refine readFrom_inOrder rfl (Nat.zero_le _) ⟨0, Nat.le_refl 0, Nat.le_refl 0, ?_⟩
  intro start hs
  cases hs

mutual
def Element.preorder : Element → List Element
  | ⟨tag, attrs, text, children, span⟩ => ⟨tag, attrs, text, children, span⟩ :: preorderOf children

def preorderOf : List Element → List Element
  | [] => []
  | e :: rest => e.preorder ++ preorderOf rest
end

theorem Element.preorder_eq (e : Element) : e.preorder = e :: preorderOf e.children := by
  cases e
  rfl

theorem preorderOf_cons (e : Element) (rest : List Element) :
    preorderOf (e :: rest) = e :: (preorderOf e.children ++ preorderOf rest) := by
  rw [preorderOf, e.preorder_eq, List.cons_append]

theorem mem_preorderOf {e : Element} {es : List Element} (h : e ∈ es) : e ∈ preorderOf es := by
  induction es with
  | nil => cases h
  | cons first rest ih =>
    rw [preorderOf_cons]
    cases h with
    | head => exact List.mem_cons_self
    | tail _ h => exact List.mem_cons_of_mem _ (List.mem_append_right _ (ih h))

/-- The span of an element runs from the `<` of its start tag through the `>` that ends it, and
its children stand inside, one after another. -/
structure Element.Encloses (src : Bytes) (e : Element) : Prop where
  start_lt_stop : e.span.start < e.span.stop
  stop_le : e.span.stop ≤ src.length
  opens : src[e.span.start]? = some '<'.toUInt8
  closes : src[e.span.stop - 1]? = some '>'.toUInt8
  inside : ∀ c ∈ e.children, e.span.start < c.span.start ∧ c.span.stop < e.span.stop
  apart : e.children.Pairwise fun a b => a.span.stop ≤ b.span.start

/-- Some elements between two offsets, one after another, with all that is in them. -/
structure Spaced (src : Bytes) (lo hi : Nat) (es : List Element) : Prop where
  between : ∀ e ∈ preorderOf es, lo ≤ e.span.start ∧ e.span.stop ≤ hi
  encloses : ∀ e ∈ preorderOf es, e.Encloses src
  apart : es.Pairwise fun a b => a.span.stop ≤ b.span.start
  increasing : (preorderOf es).Pairwise fun a b => a.span.start < b.span.start

theorem Spaced.of_le {src : Bytes} {lo lo' hi : Nat} {es : List Element}
    (h : Spaced src lo hi es) (hlo : lo' ≤ lo) : Spaced src lo' hi es :=
  { h with between := fun e he => ⟨Nat.le_trans hlo (h.between e he).1, (h.between e he).2⟩ }

theorem Spaced.cons {src : Bytes} {lo mid hi : Nat} {e : Element} {rest : List Element}
    (hlo : lo ≤ e.span.start) (hlt : e.span.start < mid) (hmid : mid < e.span.stop)
    (hhi : e.span.stop ≤ hi) (hopens : src[e.span.start]? = some '<'.toUInt8)
    (hcloses : src[e.span.stop - 1]? = some '>'.toUInt8)
    (hinner : Spaced src (e.span.start + 1) mid e.children)
    (hrest : Spaced src e.span.stop hi rest) : Spaced src lo hi (e :: rest) := by
  have hself : e.Encloses src := by
    have hlast : e.span.stop - 1 < src.length := (List.getElem?_eq_some_iff.1 hcloses).1
    refine ⟨by omega, by omega, hopens, hcloses, fun c hc => ?_, hinner.apart⟩
    have := hinner.between c (mem_preorderOf hc)
    omega
  have hmem : ∀ x ∈ preorderOf (e :: rest),
      x = e ∨ x ∈ preorderOf e.children ∨ x ∈ preorderOf rest := by
    intro x hx
    rwa [preorderOf_cons, List.mem_cons, List.mem_append] at hx
  constructor
  case between =>
    intro x hx
    obtain rfl | hx | hx := hmem x hx
    · exact ⟨hlo, hhi⟩
    · have := hinner.between x hx
      omega
    · have := hrest.between x hx
      omega
  case encloses =>
    intro x hx
    obtain rfl | hx | hx := hmem x hx
    · exact hself
    · exact hinner.encloses x hx
    · exact hrest.encloses x hx
  case apart =>
    refine List.pairwise_cons.2 ⟨fun x hx => ?_, hrest.apart⟩
    exact (hrest.between x (mem_preorderOf hx)).1
  -- every start inside `e` lies before `mid`, and every start among `rest` after the end of `e`
  case increasing =>
    rw [preorderOf_cons]
    refine List.pairwise_cons.2 ⟨fun x hx => ?_, List.pairwise_append.2
      ⟨hinner.increasing, hrest.increasing, fun x hx y hy => ?_⟩⟩
    · obtain hx | hx := List.mem_append.1 hx
      · exact (hinner.between x hx).1
      · have := hrest.between x hx
        omega
    · have := (hinner.encloses x hx).start_lt_stop
      have := hinner.between x hx
      have := hrest.between y hy
      omega

theorem Content.spaced {src : Bytes} {lo hi : Nat} (content : Content)
    (h : InOrder src lo content.events hi) : Spaced src lo hi content.elements := by
  induction content generalizing lo hi with
  | nil => exact ⟨by simp [elements, preorderOf], by simp [elements, preorderOf], .nil, .nil⟩
  | text cs rest ih => exact ih h
  | element start stop name attrs inner rest hinner hrest =>
    obtain ⟨hlo, hopens, h⟩ := h
    obtain ⟨mid, hin, hmid, hcloses, hout⟩ := inOrder_append.1 h
    have hle : start < mid := hin.le
    rw [elements]
    split
    · exact (hrest hout).of_le (by omega)
    · have hstop : (elementFor start stop name attrs inner.ownText inner.elements).span.stop =
          stop := by
        simp only [elementFor, Span.stop]
        omega
      exact Spaced.cons hlo hle (by rwa [hstop]) (by rw [hstop]; exact hout.le) hopens
        (by rwa [hstop]) (hinner hin) (by rw [hstop]; exact hrest hout)

theorem spaced_of_parse {src : Bytes} {root : Element} (h : parse src = .ok root) :
    ∃ hi, Spaced src 0 hi [root] := by
  obtain ⟨-, -, content, hevents, helements, -⟩ := parse_content h
  have hordered := events_inOrder (congrArg Prod.snd hevents)
  rw [hevents] at hordered
  have hspaced := content.spaced hordered
  rw [helements] at hspaced
  exact ⟨_, hspaced⟩

/-- In an accepted source the spans of the elements nest as the elements do, and in the order of
the document their starts increase. -/
theorem spans_nest {src : Bytes} {root : Element} (h : parse src = .ok root) :
    (∀ e ∈ root.preorder, e.Encloses src) ∧
      (root.preorder.map fun e => e.span.start).Pairwise (· < ·) := by
  obtain ⟨hi, hspaced⟩ := spaced_of_parse h
  have hroot : preorderOf [root] = root.preorder := by
    rw [preorderOf, preorderOf, List.append_nil]
  rw [← hroot]
  exact ⟨hspaced.encloses, List.pairwise_map.2 hspaced.increasing⟩

theorem spans_nest_memo : ∃ root, parse (Text.Utf8.encode memo) = .ok root ∧
    root.preorder.map (·.span) = [⟨12, 42⟩, ⟨44, 4⟩] ∧
    ∀ e ∈ root.preorder, e.Encloses (Text.Utf8.encode memo) := by
  have hspans : (parse (Text.Utf8.encode memo)).toOption.map (·.preorder.map (·.span)) =
      some [⟨12, 42⟩, ⟨44, 4⟩] := by decide +kernel
  cases h : parse (Text.Utf8.encode memo) with
  | error e =>
    rw [h] at hspans
    cases hspans
  | ok root =>
    rw [h] at hspans
    exact ⟨root, rfl, Option.some.inj hspans, (spans_nest h).1⟩

end CodecGen.Markup
