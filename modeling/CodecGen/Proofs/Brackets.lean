import CodecGen.Proofs.Header
import CodecGen.Proofs.Rendering
set_option autoImplicit false
/-!
Brackets and depth in generated text. A text is read with a stack of the brackets that are yet to be
closed, and lines are read with the depth besides. What a piece of text or code does to them does
not depend on what stands around it, so the pieces can be judged one by one and put together.
-/
namespace CodecGen.Emit
open Schema

def closer? : Char → Option Char
  | '(' => some ')'
  | '[' => some ']'
  | '\x7b' => some '\x7d'
  | _ => none

def isCloser (c : Char) : Bool := c == ')' || c == ']' || c == '\x7d'

def brackets : List Char := ['(', ')', '[', ']', '\x7b', '\x7d']

/-- What is due to be closed after a character, innermost first; nothing if it closes a bracket that
is not the innermost open one. -/
def turn (due : List Char) (c : Char) : Option (List Char) :=
  match closer? c with
  | some d => some (d :: due)
  | none =>
    if isCloser c then (if due.head? = some c then some due.tail else none) else some due

def scan : (due : List Char) → List Char → Option (List Char)
  | due, [] => some due
  | due, c :: rest => (turn due c).bind (scan · rest)

def Bracketed (text : String) : Prop := scan [] text.toList = some []

theorem scan_append (due : List Char) (xs ys : List Char) :
    scan due (xs ++ ys) = (scan due xs).bind (scan · ys) := by
  induction xs generalizing due with
  | nil => rfl
  | cons c rest ih => simp only [List.cons_append, scan, Option.bind_assoc, ih]

theorem turn_outer {due due' : List Char} {c : Char} (h : turn due c = some due')
    (outer : List Char) : turn (due ++ outer) c = some (due' ++ outer) := by
  unfold turn at h ⊢
  split at h
  · cases h
    rfl
  · split at h
    · split at h
      · rename_i htop
        cases due with
        | nil => cases htop
        | cons d rest =>
          cases h
          rw [if_pos ‹_›]
          exact if_pos htop
      · cases h
    · cases h
      rw [if_neg ‹_›]

theorem scan_outer {due due' : List Char} {cs : List Char} (h : scan due cs = some due')
    (outer : List Char) : scan (due ++ outer) cs = some (due' ++ outer) := by
  induction cs generalizing due with
  | nil =>
    cases h
    rfl
  | cons c rest ih =>
    obtain ⟨next, hturn, hrest⟩ := Option.bind_eq_some_iff.1 h
    rw [scan, turn_outer hturn outer]
    exact ih hrest

/-- Wherever the brackets `due` are the innermost ones due before the text, they are replaced by
`due'` after it. -/
def Turns (due due' : List Char) (text : String) : Prop :=
  ∀ outer, scan (due ++ outer) text.toList = some (due' ++ outer)

abbrev Neutral (text : String) : Prop := Turns [] [] text

namespace Turns
variable {p q r : List Char} {x y : String}

theorem of_scan (text : String) (h : scan p text.toList = some q) : Turns p q text := scan_outer h

theorem append (hx : Turns p q x) (hy : Turns q r y) : Turns p r (x ++ y) := by
  intro outer
  rw [String.toList_append, scan_append, hx outer]
  exact hy outer

theorem within (h : Neutral x) (due : List Char) : Turns due due x := fun outer => h (due ++ outer)

theorem insert (hx : Turns p q x) (hy : Neutral y) (text : String)
    (h : scan q text.toList = some r) : Turns p r (x ++ y ++ text) :=
  (hx.append (hy.within q)).append (.of_scan text h)

end Turns

theorem neutral_intercalate {separator : String} {parts : List String} (hs : Neutral separator)
    (hparts : ∀ x ∈ parts, Neutral x) : Neutral (String.intercalate separator parts) := by
  induction parts with
  | nil => exact .of_scan _ rfl
  | cons x rest ih =>
    have hx := hparts x List.mem_cons_self
    cases rest with
    | nil => rwa [String.intercalate_singleton]
    | cons y rest =>
      rw [String.intercalate_cons_cons]
      exact (hx.append hs).append (ih fun z hz => hparts z (List.mem_cons_of_mem x hz))

def isPlain (text : String) : Bool := text.toList.all fun c => !brackets.contains c

theorem turn_of_plain (due : List Char) {c : Char} (h : c ∉ brackets) : turn due c = some due := by
  have hopen : closer? c = none := by
    unfold closer?
    split
    all_goals simp_all [brackets]
  have hclose : isCloser c = false := by
    simp_all [brackets, isCloser]
  simp [turn, hopen, hclose]

theorem scan_of_plain (due : List Char) {cs : List Char} (h : ∀ c ∈ cs, c ∉ brackets) :
    scan due cs = some due := by
  induction cs with
  | nil => rfl
  | cons c rest ih =>
    rw [scan, turn_of_plain due (h c List.mem_cons_self)]
    exact ih fun d hd => h d (List.mem_cons_of_mem c hd)

theorem neutral_of_chars {text : String} (h : ∀ c ∈ text.toList, c ∉ brackets) : Neutral text :=
  fun outer => scan_of_plain outer h

theorem not_mem_brackets {text : String} (h : isPlain text = true) {c : Char}
    (hc : c ∈ text.toList) : c ∉ brackets := by
  have h := List.all_eq_true.1 h c hc
  simpa using h

theorem neutral_of_plain {text : String} (h : isPlain text = true) : Neutral text :=
  neutral_of_chars fun _ => not_mem_brackets h

theorem neutral_nat (n : Nat) : Neutral (toString n) := by
  apply neutral_of_chars
  intro c hc hb
  rw [Nat.toString_eq_ofList_toDigits, String.toList_ofList] at hc
  have hdigit := Nat.isDigit_of_mem_toDigits (by decide) (by decide) hc
  have hnone : brackets.all (!·.isDigit) = true := by decide
  have hc := List.all_eq_true.1 hnone c hb
  rw [hdigit] at hc
  cases hc

theorem neutral_int (i : Int) : Neutral (toString i) := by
  cases i with
  | ofNat n => exact neutral_nat n
  | negSucc n => exact (Turns.of_scan "-" (by decide)).append (neutral_nat (n + 1))

theorem neutral_safeName {name : String} (h : Neutral name) : Neutral (safeName name) := by
  unfold safeName
  split
  · exact (Turns.of_scan "c_" (by decide)).append h
  · exact h

theorem neutral_suffix (kind : Kind) : Neutral (suffix kind) := by
  cases kind <;> exact .of_scan _ (by decide)

theorem neutral_last {name : Name} (h : ∀ x ∈ name, Neutral x) : Neutral name.last := by
  unfold Name.last
  cases hlast : name.getLast? with
  | none => exact .of_scan _ (by decide)
  | some x => exact h x (List.mem_of_getLast? hlast)

theorem neutral_appendLast {path : List String} {text : String} (h : ∀ x ∈ path, Neutral x)
    (ht : Neutral text) : ∀ x ∈ appendLast path text, Neutral x := by
  intro x hx
  unfold appendLast at hx
  rw [List.mem_append, List.mem_singleton] at hx
  obtain hx | rfl := hx
  · exact h x (List.dropLast_subset path hx)
  · exact (neutral_last h).append ht

theorem mem_of_mem_chop {x : String} {path ns : List String} (h : x ∈ chop path ns) : x ∈ path := by
  fun_induction chop path ns with
  | case1 p path n ns hp ih => exact List.mem_cons_of_mem p (ih h)
  | case2 => exact h
  | case3 => exact h

theorem neutral_qualify (type : Ty) (h : ∀ x ∈ type.typeName, Neutral x) (ns : List String) :
    Neutral (qualify type ns) := by
  have hpath : ∀ x ∈ qualifiedPath type, Neutral x := by
    have hx11 : Neutral "x11" := .of_scan _ (by decide)
    have happend := neutral_appendLast h (neutral_suffix type.kind)
    unfold qualifiedPath typeSuffix
    split
    · intro x hx
      cases hx
    generalize appendLast type.typeName (suffix type.kind) = path at happend
    split
    · simp only [List.forall_mem_cons] at happend ⊢
      exact ⟨hx11, .of_scan _ (by decide), happend.2.1, fun x hx => by cases hx⟩
    · exact List.forall_mem_cons.2 ⟨hx11, (List.forall_mem_cons.1 happend).2⟩
    · exact happend
  refine neutral_intercalate (.of_scan _ (by decide)) fun x hx => ?_
  exact hpath x (mem_of_mem_chop hx)

def isNoUpperCase (c : Char) : Bool :=
  decide (0 < c.toNat) && Text.UpperCase.blocks.all fun b =>
    decide ((c.toNat : Int) < b.first + b.shift ∨ b.last + b.shift < c.toNat)

theorem toNat_of_ofNat_eq {n : Nat} {c : Char} (h : Char.ofNat n = c) (hc : 0 < c.toNat) :
    n = c.toNat := by
  unfold Char.ofNat at h
  by_cases hvalid : n.isValidChar
  · rw [dif_pos hvalid] at h
    rw [← h]
    rfl
  · rw [dif_neg hvalid] at h
    rw [← h] at hc
    cases hc

theorem eq_of_upperChar_eq {c d : Char} (hd : isNoUpperCase d = true)
    (h : Text.UpperCase.upperChar c = d) : c = d := by
  rw [isNoUpperCase, Bool.and_eq_true] at hd
  unfold Text.UpperCase.upperChar at h
  split at h
  · rename_i b hb
    have hcovers := List.find?_some hb
    have hpos := of_decide_eq_true hd.1
    have hcode := toNat_of_ofNat_eq h hpos
    have havoid := of_decide_eq_true (List.all_eq_true.1 hd.2 b (List.mem_of_find?_eq_some hb))
    simp only [Text.UpperCase.Block.covers, Bool.and_eq_true, decide_eq_true_eq] at hcovers
    omega
  · exact h

theorem upperChar_not_mem_brackets {c : Char} (h : c ∉ brackets) :
    Text.UpperCase.upperChar c ∉ brackets := by
  intro hupper
  have hall : brackets.all isNoUpperCase = true := by decide +kernel
  have hsame := eq_of_upperChar_eq (List.all_eq_true.1 hall _ hupper) rfl
  exact h (hsame ▸ hupper)

theorem neutral_includeGuard {headerPath : String} (h : isPlain headerPath = true) :
    Neutral (includeGuard headerPath) := by
  refine Turns.append (neutral_of_chars fun c hc => ?_) (.of_scan "_" (by decide))
  rw [Text.UpperCase.upper, String.toList_map, List.mem_map] at hc
  obtain ⟨d, hd, rfl⟩ := hc
  rw [String.toList_map, List.mem_map] at hd
  obtain ⟨e, he, rfl⟩ := hd
  apply upperChar_not_mem_brackets
  split
  · decide
  · exact not_mem_brackets h he

def Nesting.deepen : Nesting → (depth : Nat) → Option Nat
  | .flat, depth => some depth
  | .opens, depth => some (depth + 1)
  | .closes, depth + 1 => some depth
  | .closes, 0 => none

def walk : (due : List Char) → (depth : Nat) → List Line → Option (List Char × Nat)
  | due, depth, [] => some (due, depth)
  | due, depth, l :: rest =>
    (scan due l.text.toList).bind fun due => (l.nesting.deepen depth).bind fun depth =>
      walk due depth rest

theorem walk_append (due : List Char) (depth : Nat) (xs ys : List Line) :
    walk due depth (xs ++ ys) = (walk due depth xs).bind fun s => walk s.1 s.2 ys := by
  induction xs generalizing due depth with
  | nil => rfl
  | cons l rest ih => simp only [List.cons_append, walk, Option.bind_assoc, ih]

/-- Wherever the brackets `due` are the innermost ones due and the depth is `depth` or more, the
lines lead to `due'`, and as much deeper or less deep as `depth'` is. -/
def Leads (due : List Char) (depth : Nat) (due' : List Char) (depth' : Nat) (lines : List Line) :
    Prop :=
  ∀ outer above, walk (due ++ outer) (depth + above) lines = some (due' ++ outer, depth' + above)

abbrev Level (lines : List Line) : Prop := Leads [] 0 [] 0 lines

namespace Leads
variable {p q r : List Char} {i j k : Nat} {xs ys : List Line} {text : String}

theorem nil : Leads p i p i [] := fun _ _ => rfl

theorem append (hx : Leads p i q j xs) (hy : Leads q j r k ys) : Leads p i r k (xs ++ ys) := by
  intro outer above
  rw [walk_append, hx outer above]
  exact hy outer above

theorem within (h : Level xs) : Leads p i p i xs := by
  intro outer above
  have h := h (p ++ outer) (i + above)
  rwa [Nat.zero_add] at h

theorem cons {l : Line} (hl : Leads p i q j [l]) (hx : Leads q j r k xs) :
    Leads p i r k (l :: xs) := hl.append hx

theorem flat (h : Turns p q text) : Leads p i q i [.flat text] := by
  intro outer above
  rw [walk, show (Line.flat text).text = text from rfl, h outer]
  rfl

theorem opens (h : Turns p q text) : Leads p i q (i + 1) [.opens text] := by
  intro outer above
  rw [walk, show (Line.opens text).text = text from rfl, h outer]
  change some (q ++ outer, i + above + 1) = some (q ++ outer, i + 1 + above)
  rw [Nat.add_right_comm]

theorem closes (h : Turns p q text) : Leads p (i + 1) q i [.closes text] := by
  intro outer above
  rw [walk, show (Line.closes text).text = text from rfl, h outer, Nat.add_right_comm]
  rfl

end Leads

theorem Leads.single {l : Line} (hflat : l.nesting = .flat) (h : Neutral l.text) : Level [l] := by
  have hl : l = .flat l.text := by rw [Line.flat, ← hflat]
  rw [hl]
  exact .flat h

theorem Leads.enclosed {due : List Char} {first last : Line} {inner : List Line}
    (hopens : first.nesting = .opens) (hfirst : Turns [] due first.text)
    (hcloses : last.nesting = .closes) (hlast : Turns due [] last.text) (h : Level inner) :
    Level ([first] ++ inner ++ [last]) := by
  have hf : first = .opens first.text := by rw [Line.opens, ← hopens]
  have hl : last = .closes last.text := by rw [Line.closes, ← hcloses]
  rw [hf, hl]
  exact ((opens hfirst).append h.within).append (closes hlast)

theorem level_flatMap {α : Type} {xs : List α} {lines : α → List Line}
    (h : ∀ x ∈ xs, Level (lines x)) : Level (xs.flatMap lines) := by
  induction xs with
  | nil => exact .nil
  | cons x rest ih =>
    obtain ⟨hx, hrest⟩ := List.forall_mem_cons.1 h
    rw [List.flatMap_cons]
    exact hx.append (ih hrest)

structure Indented (lines : List Line) : Prop where
  nonneg : ∀ before, before <+: lines → 0 ≤ depthThrough 0 before
  returns : depthThrough 0 lines = 0

theorem depthAfter_of_deepen {l : Line} {depth depth' : Nat}
    (h : l.nesting.deepen depth = some depth') : l.depthAfter depth = depth' := by
  unfold Line.depthAfter
  cases hn : l.nesting with
  | flat =>
    rw [hn] at h
    cases h
    rfl
  | opens =>
    rw [hn] at h
    cases h
    rfl
  | closes =>
    rw [hn] at h
    cases depth with
    | zero => cases h
    | succ depth =>
      cases h
      simp

theorem depthThrough_of_walk {due due' : List Char} {depth depth' : Nat} {lines : List Line}
    (h : walk due depth lines = some (due', depth')) :
    depthThrough depth lines = depth' ∧
      ∀ before, before <+: lines → 0 ≤ depthThrough depth before := by
  induction lines generalizing due depth with
  | nil =>
    cases h
    refine ⟨rfl, fun before hbefore => ?_⟩
    rw [List.prefix_nil.1 hbefore]
    exact Int.natCast_nonneg _
  | cons l rest ih =>
    obtain ⟨next, -, h⟩ := Option.bind_eq_some_iff.1 h
    obtain ⟨deeper, hdepth, h⟩ := Option.bind_eq_some_iff.1 h
    obtain ⟨hend, hbefore⟩ := ih h
    have hl := depthAfter_of_deepen hdepth
    refine ⟨?_, fun before hprefix => ?_⟩
    · rw [depthThrough, List.foldl_cons, hl]
      exact hend
    · obtain rfl | ⟨tail, rfl, htail⟩ := List.prefix_cons_iff.1 hprefix
      · exact Int.natCast_nonneg _
      · rw [depthThrough, List.foldl_cons, hl]
        exact hbefore tail htail

theorem scan_render (due : List Char) (l : Line) (indent : Int) :
    scan due (l.render indent).toList = scan due l.text.toList := by
  obtain ⟨width, hw⟩ := toList_render l indent
  have hspaces : scan due (List.replicate width ' ') = some due :=
    scan_of_plain due fun c hc => by rw [List.eq_of_mem_replicate hc]; decide
  have hend : ∀ due, scan due ['\n'] = some due :=
    fun due => scan_of_plain due fun c hc => by rw [List.mem_singleton.1 hc]; decide
  rw [hw, scan_append, scan_append, hspaces, Option.bind_some]
  cases scan due l.text.toList with
  | none => rfl
  | some due => exact hend due

theorem scan_renderLines {due due' : List Char} {depth depth' : Nat} {lines : List Line}
    (h : walk due depth lines = some (due', depth')) (indent : Int) :
    scan due ((renderLines indent lines).flatMap String.toList) = some due' := by
  induction lines generalizing due depth indent with
  | nil =>
    cases h
    rfl
  | cons l rest ih =>
    obtain ⟨next, hscan, h⟩ := Option.bind_eq_some_iff.1 h
    obtain ⟨deeper, -, h⟩ := Option.bind_eq_some_iff.1 h
    rw [renderLines, List.flatMap_cons, scan_append, scan_render, hscan]
    exact ih h _

/-- Level lines are rendered with all brackets closed and with sound indentation. -/
theorem Leads.sound {lines : List Line} (h : Level lines) :
    Bracketed (render lines) ∧ Indented lines := by
  have h : walk [] 0 lines = some ([], 0) := h [] 0
  obtain ⟨hend, hbefore⟩ := depthThrough_of_walk h
  refine ⟨?_, hbefore, hend⟩
  rw [Bracketed, render_eq_join, String.toList_join]
  exact scan_renderLines h 0

end CodecGen.Emit
