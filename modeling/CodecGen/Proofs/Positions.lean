import CodecGen.Source
import Mathlib.Data.List.DropRight
import Mathlib.Data.List.Induction
set_option autoImplicit false
/-!
Offsets in a source and the places that people count. The bytes before an offset tell its place:
their newlines give the line, and those after the last newline the column. Places are ordered by
line and then by column, and every byte leads on to a later one; so the offsets of a source, its end
included, stand one to one and in order for the places on its lines.
-/
namespace CodecGen.Position

def Before (p q : Position) : Prop := p.line < q.line ∨ p.line = q.line ∧ p.column < q.column

instance (p q : Position) : Decidable (Before p q) := inferInstanceAs (Decidable (_ ∨ _))

theorem Before.trans {p q r : Position} (hpq : p.Before q) (hqr : q.Before r) : p.Before r := by
  unfold Before at *
  omega

theorem Before.irrefl (p : Position) : ¬ p.Before p := by
  unfold Before
  omega

theorem before_next (p : Position) (b : UInt8) : p.Before (p.next b) := by
  unfold next
  split
  · exact .inl (Nat.lt_succ_self p.line)
  · exact .inr ⟨rfl, Nat.lt_succ_self p.column⟩

theorem before_foldl_next (p : Position) {read : Bytes} (h : read ≠ []) :
    p.Before (read.foldl next p) := by
  induction read generalizing p with
  | nil => exact absurd rfl h
  | cons b rest ih =>
    rw [List.foldl_cons]
    by_cases hrest : rest = []
    · rw [hrest]
      exact before_next p b
    · exact (before_next p b).trans (ih (p.next b) hrest)

theorem advance_eq_foldl (p : Position) (n : Nat) (src : Bytes) :
    p.advance n src = (src.take n).foldl next p := by
  induction src generalizing p n with
  | nil => cases n <;> rfl
  | cons b rest ih =>
    cases n with
    | zero => rfl
    | succ n => exact ih (p.next b) n

theorem ofOffset_eq_foldl (src : Bytes) (n : Nat) :
    ofOffset src n = (src.take n).foldl next first :=
  advance_eq_foldl first n src

/-- Two counters with a reset: after any bytes the one has counted the newlines, and the other what
came after the last of them. -/
theorem foldl_next_first (read : Bytes) :
    read.foldl next first = ⟨1 + read.count 10, 1 + (read.rtakeWhile (· != 10)).length⟩ := by
  -- one more byte at the end, as the scan meets them
  induction read using List.reverseRecOn with
  | nil => rfl
  | append_singleton read b ih =>
    rw [List.foldl_concat, ih, List.count_append, List.rtakeWhile_concat, next]
    by_cases hb : b = 10
    · simp [hb]
      omega
    · simp [hb]
      omega

theorem ofOffset_eq (src : Bytes) (n : Nat) :
    ofOffset src n =
      ⟨1 + (src.take n).count 10, 1 + ((src.take n).rtakeWhile (· != 10)).length⟩ := by
  rw [ofOffset_eq_foldl, foldl_next_first]

theorem ofOffset_of_length_le {src : Bytes} {n : Nat} (h : src.length ≤ n) :
    ofOffset src n = ofOffset src src.length := by
  rw [ofOffset_eq_foldl, ofOffset_eq_foldl, List.take_of_length_le h, List.take_length]

theorem ofOffset_before {src : Bytes} {m n : Nat} (hn : n ≤ src.length) (h : m < n) :
    (ofOffset src m).Before (ofOffset src n) := by
  have hsplit : src.take n = src.take m ++ (src.drop m).take (n - m) := by
    rw [← List.take_add]
    congr 1
    omega
  have hread : (src.drop m).take (n - m) ≠ [] := by
    rw [← List.length_pos_iff, List.length_take, List.length_drop]
    omega
  rw [ofOffset_eq_foldl, ofOffset_eq_foldl, hsplit, List.foldl_append]
  exact before_foldl_next _ hread

theorem ofOffset_before_iff {src : Bytes} {m n : Nat} (hm : m ≤ src.length) (hn : n ≤ src.length) :
    (ofOffset src m).Before (ofOffset src n) ↔ m < n := by
  constructor
  · intro hbefore
    rcases Nat.lt_trichotomy m n with hlt | rfl | hgt
    · exact hlt
    · exact absurd hbefore (Before.irrefl _)
    · exact absurd (hbefore.trans (ofOffset_before hm hgt)) (Before.irrefl _)
  · exact ofOffset_before hn

theorem ofOffset_injective {src : Bytes} {m n : Nat} (hm : m ≤ src.length) (hn : n ≤ src.length)
    (h : ofOffset src m = ofOffset src n) : m = n := by
  have hself := Before.irrefl (ofOffset src n)
  have hmn : ¬ m < n := by rwa [← ofOffset_before_iff hm hn, h]
  have hnm : ¬ n < m := by rwa [← ofOffset_before_iff hn hm, h]
  omega

def lines (src : Bytes) : List Bytes := src.splitOn 10

theorem lines_newline (rest : Bytes) : lines (10 :: rest) = [] :: lines rest := by
  simp [lines, List.splitOn, List.splitOnP_cons_eq_if_modifyHead]

theorem lines_cons {b : UInt8} (hb : b ≠ 10) (rest : Bytes) :
    lines (b :: rest) = (lines rest).modifyHead (b :: ·) := by
  simp [lines, List.splitOn, List.splitOnP_cons_eq_if_modifyHead, hb]

theorem lines_ne_nil (src : Bytes) : lines src ≠ [] := List.splitOnP_ne_nil _ _

/-- A place on one of the lines: that of one of its bytes, or the one where the line ends. -/
def OnLine (src : Bytes) (p : Position) : Prop :=
  1 ≤ p.line ∧ 1 ≤ p.column ∧
    ∃ line, (lines src)[p.line - 1]? = some line ∧ p.column ≤ line.length + 1

def leftmost (p : Position) : Nat → Nat
  | 0 => p.column
  | _ + 1 => 1

theorem leftmost_of_column {p : Position} (h : p.column = 1) (k : Nat) : p.leftmost k = 1 := by
  cases k with
  | zero => exact h
  | succ k => rfl

/-- The places on the lines of what is left to read, the first of which goes on from `p`. -/
def Ahead (p : Position) (rest : Bytes) (q : Position) : Prop :=
  ∃ k line, (lines rest)[k]? = some line ∧ q.line = p.line + k ∧
    p.leftmost k ≤ q.column ∧ q.column ≤ p.leftmost k + line.length

theorem onLine_iff_ahead (src : Bytes) (p : Position) : OnLine src p ↔ Ahead first src p := by
  have hleft : ∀ k, leftmost first k = 1 := leftmost_of_column rfl
  have hline : first.line = 1 := rfl
  simp only [OnLine, Ahead, hleft, hline]
  constructor
  · rintro ⟨hpos, hcolumn, line, hget, hend⟩
    exact ⟨p.line - 1, line, hget, by omega, hcolumn, by omega⟩
  · rintro ⟨k, line, hget, hk, hcolumn, hend⟩
    obtain rfl : k = p.line - 1 := by omega
    exact ⟨by omega, hcolumn, line, hget, by omega⟩

theorem eq_of_line_of_column {p q : Position} (hline : q.line = p.line)
    (hcolumn : q.column = p.column) : q = p := by
  cases p
  cases q
  rw [mk.injEq]
  exact ⟨hline, hcolumn⟩

theorem ahead_nil (p q : Position) : Ahead p [] q ↔ q = p := by
  constructor
  · rintro ⟨k, line, hget, hline, hcolumn, hend⟩
    cases k with
    | zero =>
      obtain rfl : [] = line := Option.some.inj hget
      exact eq_of_line_of_column hline (Nat.le_antisymm hend hcolumn)
    | succ k => simp [lines] at hget
  · rintro rfl
    exact ⟨0, [], rfl, rfl, Nat.le_refl _, Nat.le_refl _⟩

theorem ahead_newline (p q : Position) (rest : Bytes) :
    Ahead p (10 :: rest) q ↔ q = p ∨ Ahead ⟨p.line + 1, 1⟩ rest q := by
  have hleft : ∀ k, leftmost ⟨p.line + 1, 1⟩ k = 1 := leftmost_of_column rfl
  simp only [Ahead, hleft, lines_newline]
  constructor
  · rintro ⟨k, line, hget, hline, hcolumn, hend⟩
    cases k with
    | zero =>
      obtain rfl : [] = line := Option.some.inj hget
      exact .inl (eq_of_line_of_column hline (Nat.le_antisymm hend hcolumn))
    | succ k => exact .inr ⟨k, line, hget, by omega, hcolumn, hend⟩
  · rintro (rfl | ⟨k, line, hget, hline, hcolumn, hend⟩)
    · exact ⟨0, [], rfl, rfl, Nat.le_refl _, Nat.le_refl _⟩
    · exact ⟨k + 1, line, hget, by omega, hcolumn, hend⟩

theorem ahead_byte {b : UInt8} (hb : b ≠ 10) (p q : Position) (rest : Bytes) :
    Ahead p (b :: rest) q ↔ q = p ∨ Ahead ⟨p.line, p.column + 1⟩ rest q := by
  obtain ⟨here, below, hlines⟩ := List.exists_cons_of_ne_nil (lines_ne_nil rest)
  have hread : lines (b :: rest) = (b :: here) :: below := by
    rw [lines_cons hb, hlines, List.modifyHead_cons]
  simp only [Ahead, hread, hlines]
  constructor
  · rintro ⟨k, line, hget, hline, hcolumn, hend⟩
    cases k with
    | zero =>
      obtain rfl : b :: here = line := Option.some.inj hget
      have hcolumn : p.column ≤ q.column := hcolumn
      have hend : q.column ≤ p.column + (here.length + 1) := hend
      rcases Nat.eq_or_lt_of_le hcolumn with heq | hpast
      · exact .inl (eq_of_line_of_column hline heq.symm)
      · have hend : q.column ≤ p.column + 1 + here.length := by omega
        exact .inr ⟨0, here, rfl, hline, hpast, hend⟩
    | succ k => exact .inr ⟨k + 1, line, hget, hline, hcolumn, hend⟩
  · rintro (rfl | ⟨k, line, hget, hline, hcolumn, hend⟩)
    · exact ⟨0, b :: here, rfl, rfl, Nat.le_refl _, Nat.le_add_right _ _⟩
    · cases k with
      | zero =>
        obtain rfl : here = line := Option.some.inj hget
        have hend : q.column ≤ p.column + 1 + here.length := hend
        have hend : q.column ≤ p.column + (here.length + 1) := by omega
        exact ⟨0, b :: here, rfl, hline, Nat.le_of_succ_le hcolumn, hend⟩
      | succ k => exact ⟨k + 1, line, hget, hline, hcolumn, hend⟩

theorem ahead_cons (p q : Position) (b : UInt8) (rest : Bytes) :
    Ahead p (b :: rest) q ↔ q = p ∨ Ahead (p.next b) rest q := by
  by_cases hb : b = 10
  · subst hb
    exact ahead_newline p q rest
  · have hnext : p.next b = ⟨p.line, p.column + 1⟩ := by simp [next, hb]
    rw [hnext]
    exact ahead_byte hb p q rest

theorem ahead_iff (p q : Position) (rest : Bytes) :
    Ahead p rest q ↔ ∃ n ≤ rest.length, (rest.take n).foldl next p = q := by
  induction rest generalizing p with
  | nil =>
    rw [ahead_nil]
    simp [eq_comm]
  | cons b rest ih =>
    rw [ahead_cons, ih]
    constructor
    · rintro (rfl | ⟨n, hn, hread⟩)
      · exact ⟨0, Nat.zero_le _, rfl⟩
      · exact ⟨n + 1, Nat.succ_le_succ hn, hread⟩
    · rintro ⟨n, hn, hread⟩
      cases n with
      | zero => exact .inl hread.symm
      | succ n => exact .inr ⟨n, Nat.le_of_succ_le_succ hn, hread⟩

/-- The offsets of a source and the places on its lines are the same thing counted in two ways. The
line of an offset is one more than the newlines before it, and its column one more than the bytes
since the last of these; a later offset has a later place and the other way round, so no two share
one; every place on a line is that of an offset; and what lies past the end has the place of the end. -/
theorem offsets_ordered_as_places (src : Bytes) :
    (∀ n ≤ src.length,
      (ofOffset src n).line = 1 + (src.take n).count 10 ∧
        (ofOffset src n).column = 1 + ((src.take n).rtakeWhile (· != 10)).length) ∧
    (∀ m ≤ src.length, ∀ n ≤ src.length,
      ((ofOffset src m).Before (ofOffset src n) ↔ m < n) ∧
        (ofOffset src m = ofOffset src n → m = n)) ∧
    (∀ p, (∃ n ≤ src.length, ofOffset src n = p) ↔ OnLine src p) ∧
    ∀ n, src.length ≤ n → ofOffset src n = ofOffset src src.length := by
  refine ⟨?_, ?_, ?_, ?_⟩
  · intro n _
    rw [ofOffset_eq]
    exact ⟨rfl, rfl⟩
  · intro m hm n hn
    exact ⟨ofOffset_before_iff hm hn, ofOffset_injective hm hn⟩
  · intro p
    rw [onLine_iff_ahead, ahead_iff]
    simp only [ofOffset_eq_foldl]
  · intro n hn
    exact ofOffset_of_length_le hn

def spacedLetters : Bytes := [97, 98, 10, 10, 99]

theorem offsets_ordered_as_places_spacedLetters :
    ((ofOffset spacedLetters 4).line = 3 ∧ (ofOffset spacedLetters 4).column = 1) ∧
      (ofOffset spacedLetters 2).Before (ofOffset spacedLetters 3) ∧
      (∃ n ≤ spacedLetters.length, ofOffset spacedLetters n = ⟨1, 3⟩) ∧
      ofOffset spacedLetters 9 = ofOffset spacedLetters 5 := by
  obtain ⟨hplace, horder, honto, hpast⟩ := offsets_ordered_as_places spacedLetters
  have hon : OnLine spacedLetters ⟨1, 3⟩ := ⟨by decide, by decide, [97, 98], rfl, by decide⟩
  exact ⟨hplace 4 (by decide), (horder 2 (by decide) 3 (by decide)).1.mpr (by decide),
    (honto _).mpr hon, hpast 9 (by decide)⟩

end CodecGen.Position
