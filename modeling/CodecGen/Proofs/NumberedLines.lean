import CodecGen.Proofs.TemporaryNames
set_option autoImplicit false
/-!
Lines that number their temporaries. A line declares a temporary when it starts with its declaration;
all else that it mentions it uses. Read from top to bottom, numbered lines declare temporaries with
consecutive numbers, and use one only behind its declaration and in the block of its declaration.
-/
namespace CodecGen.Emit

/-- The temporary that the line starts to declare. A sum is declared as a value, what is set aside as a
reference. -/
def Line.declares? (l : Line) : Option Temporary :=
  match pieces l.text with
  | "auto" :: " " :: w :: _ => (temporary? w).filter fun t => t == .sum t.id
  | "auto" :: "&" :: " " :: w :: _ => (temporary? w).filter fun t => t == .aside t.id
  | _ => none

def Line.mentions (l : Line) : List Temporary := (pieces l.text).filterMap temporary?

def Line.uses (l : Line) : List Temporary := l.mentions.drop l.declares?.toList.length

theorem Line.mentions_eq_nil {l : Line} (h : Clean l.text) : l.mentions = [] :=
  List.filterMap_eq_nil_iff.mpr fun _ hw => h.eq_none hw

theorem Line.mem_of_mentions {l : Line} {known : List Temporary} (h : Mentions known l.text) :
    ∀ t ∈ l.mentions, t ∈ known := by
  intro t ht
  obtain ⟨w, hw, ht⟩ := List.mem_filterMap.mp ht
  exact h w hw t ht

theorem Line.mem_mentions_of_mem_uses {l : Line} {t : Temporary} (h : t ∈ l.uses) : t ∈ l.mentions :=
  List.mem_of_mem_drop h

theorem Line.mem_mentions_of_declares? {l : Line} {t : Temporary} (h : l.declares? = some t) :
    t ∈ l.mentions := by
  unfold Line.declares? at h
  split at h
  · next w rest hpieces =>
    refine List.mem_filterMap.mpr ⟨w, by simp [hpieces], ?_⟩
    exact (Option.filter_eq_some_iff.mp h).1
  · next w rest hpieces =>
    refine List.mem_filterMap.mpr ⟨w, by simp [hpieces], ?_⟩
    exact (Option.filter_eq_some_iff.mp h).1
  · cases h

theorem Line.declares?_of_clean {l : Line} (h : Clean l.text) : l.declares? = none := by
  cases hdeclares : l.declares? with
  | none => rfl
  | some t =>
    have hmem := l.mem_mentions_of_declares? hdeclares
    rw [l.mentions_eq_nil h] at hmem
    cases hmem

def Temporary.declaration : Temporary → String
  | sum n => "auto " ++ sumName n
  | aside n => "auto& " ++ asideName n

section
variable {l : Line} {t : Temporary} {x y rest text : String}

def isSeparator (text : String) : Bool :=
  startsApart text && endsApart text && isClean text &&
    decide (3 ≤ (pieces text).length ∧ (pieces text).head? ≠ some "auto")

theorem pieces_separated (h : isSeparator text = true) (x y : String) :
    pieces (x ++ text ++ y) = pieces x ++ pieces text ++ pieces y := by
  simp only [isSeparator, Bool.and_eq_true, decide_eq_true_eq] at h
  obtain ⟨⟨⟨hstart, hend⟩, -⟩, hlength, -⟩ := h
  have hne : text ≠ "" := by
    rintro rfl
    simp at hlength
  rw [pieces_append (.inl (endsApart_append hne hend)), pieces_append (.inr hstart)]

theorem clean_separator (h : isSeparator text = true) : Clean text := by
  simp only [isSeparator, Bool.and_eq_true] at h
  exact .of_text text h.1.2

theorem Line.of_declaration (htext : l.text = t.declaration ++ text ++ rest)
    (hrest : Clean rest) (htail : isSeparator text = true) : l.declares? = some t ∧ l.uses = [] := by
  have hnone : (pieces text ++ pieces rest).filterMap temporary? = [] := by
    rw [List.filterMap_append, List.append_eq_nil_iff]
    exact ⟨Line.mentions_eq_nil (l := .flat text) (clean_separator htail),
      Line.mentions_eq_nil (l := .flat rest) hrest⟩
  have hauto : temporary? "auto" = none := by decide
  have hblank : temporary? " " = none := by decide
  have hreference : temporary? "&" = none := by decide
  have hpieces : pieces l.text = pieces t.declaration ++ (pieces text ++ pieces rest) := by
    rw [htext, pieces_separated htail, List.append_assoc]
  generalize pieces text ++ pieces rest = after at hnone hpieces
  cases t with
  | sum n =>
    have hkeyword : pieces "auto " = ["auto", " "] := by decide
    have hname : pieces (sumName n) = [sumName n] := pieces_name (.sum n)
    have hread : temporary? (sumName n) = some (.sum n) := temporary?_name (.sum n)
    rw [Temporary.declaration, pieces_append (.inl (by decide)), hkeyword, hname] at hpieces
    have hdeclares : l.declares? = some (.sum n) := by
      simp [Line.declares?, hpieces, hread, Temporary.id]
    refine ⟨hdeclares, ?_⟩
    simp [Line.uses, Line.mentions, hdeclares, hpieces, hauto, hblank, hread, hnone]
  | aside n =>
    have hkeyword : pieces "auto& " = ["auto", "&", " "] := by decide
    have hname : pieces (asideName n) = [asideName n] := pieces_name (.aside n)
    have hread : temporary? (asideName n) = some (.aside n) := temporary?_name (.aside n)
    rw [Temporary.declaration, pieces_append (.inl (by decide)), hkeyword, hname] at hpieces
    have hdeclares : l.declares? = some (.aside n) := by
      simp [Line.declares?, hpieces, hread, Temporary.id]
    refine ⟨hdeclares, ?_⟩
    simp [Line.uses, Line.mentions, hdeclares, hpieces, hauto, hblank, hreference, hread, hnone]

theorem Line.declares?_eq_none (h : ∀ w ∈ (pieces l.text).take 4, temporary? w = none) :
    l.declares? = none := by
  unfold Line.declares?
  split
  · next w rest hpieces => rw [h w (by simp [hpieces])]; rfl
  · next w rest hpieces => rw [h w (by simp [hpieces])]; rfl
  · rfl

theorem Line.declares?_of_head {w : String} {ws : List String} (h : pieces l.text = w :: ws)
    (hauto : w ≠ "auto") : l.declares? = none := by
  unfold Line.declares?
  split
  · next hpieces => exact absurd (List.cons.inj (h.symm.trans hpieces)).1 hauto
  · next hpieces => exact absurd (List.cons.inj (h.symm.trans hpieces)).1 hauto
  · rfl

theorem Line.declares?_of_start (htext : l.text = text ++ y)
    (h : (endsApart text && (pieces text).head?.any (· != "auto")) = true) :
    l.declares? = none := by
  rw [Bool.and_eq_true] at h
  have hpieces : pieces l.text = pieces text ++ pieces y := by rw [htext, pieces_append (.inl h.1)]
  cases hfirst : pieces text with
  | nil => simp [hfirst] at h
  | cons w ws =>
    rw [hfirst] at h hpieces
    exact Line.declares?_of_head hpieces (by simpa using h.2)

theorem Line.declares?_of_separator (htext : l.text = x ++ text ++ y) (hx : Clean x)
    (h : isSeparator text = true) : l.declares? = none := by
  have hpieces : pieces l.text = pieces x ++ pieces text ++ pieces y := by
    rw [htext, pieces_separated h]
  have hclean := clean_separator h
  simp only [isSeparator, Bool.and_eq_true, decide_eq_true_eq] at h
  obtain ⟨-, hlength, hauto⟩ := h
  cases hfirst : pieces x with
  | nil =>
    cases hseparator : pieces text with
    | nil => simp [hseparator] at hlength
    | cons w ws =>
      rw [hfirst, hseparator] at hpieces
      exact Line.declares?_of_head hpieces fun hw => hauto (by rw [hseparator, hw]; rfl)
  | cons w ws =>
    -- the declared name would be among the first four pieces, which end before the value
    have hlong : 4 ≤ (pieces x ++ pieces text).length := by
      rw [List.length_append, hfirst, List.length_cons]
      omega
    apply Line.declares?_eq_none
    intro v hv
    rw [hpieces, List.take_append_of_le_length hlong] at hv
    rcases List.mem_append.mp (List.mem_of_mem_take hv) with hv | hv
    · exact hx.eq_none hv
    · exact hclean.eq_none hv

end

def depths (depth : Int) : List Line → List Int
  | [] => []
  | l :: rest => l.depthAt depth :: depths (l.depthAfter depth) rest

theorem depths_append (depth : Int) (xs ys : List Line) :
    depths depth (xs ++ ys) = depths depth xs ++ depths (depthThrough depth xs) ys := by
  induction xs generalizing depth with
  | nil => rfl
  | cons l rest ih => simp [depths, depthThrough, ih]

theorem depthThrough_append (depth : Int) (xs ys : List Line) :
    depthThrough depth (xs ++ ys) = depthThrough (depthThrough depth xs) ys := List.foldl_append

/-- The line `l` stands in the block in which the lines before it begin: it is as deep as they begin,
and none of them is less deep. -/
def Rejoins (before : List Line) (l : Line) : Prop :=
  (∀ x ∈ depths 0 before, 0 ≤ x) ∧ l.depthAt (depthThrough 0 before) = 0

def SameBlock (first : Line) (between : List Line) (last : Line) : Prop :=
  first.depthAt 0 = 0 ∧ Rejoins (first :: between) last

/-- With the temporaries `known` of the block so far and `n` as the number of the next one, the lines
can be read: each uses what its block has declared before, and declares the temporary with the next
number. Then the block has the temporaries `known'`, and `m` is the next number. -/
inductive Numbered : List Temporary → Nat → List Line → List Temporary → Nat → Prop where
  | nil {known : List Temporary} {n : Nat} : Numbered known n [] known n
  | append {known known' known'' : List Temporary} {n k m : Nat} {xs ys : List Line}
      (hx : Numbered known n xs known' k) (hy : Numbered known' k ys known'' m) :
      Numbered known n (xs ++ ys) known'' m
  | line {known : List Temporary} {n : Nat} {l : Line} (hflat : l.nesting = .flat)
      (hnew : ∀ t ∈ l.declares?, t.id = n) (huses : ∀ t ∈ l.uses, t ∈ known) :
      Numbered known n [l] (l.declares?.toList ++ known) (n + l.declares?.toList.length)
  | block {known inside : List Temporary} {n m : Nat} {first last : Line} {inner : List Line}
      (hopens : first.nesting = .opens) (hnew : ∀ t ∈ first.declares?, t.id = n)
      (huses : ∀ t ∈ first.uses, t ∈ known)
      (h : Numbered [] (n + first.declares?.toList.length) inner inside m)
      (hcloses : last.nesting = .closes) (hlast : Clean last.text) :
      Numbered known n ([first] ++ inner ++ [last]) (first.declares?.toList ++ known) m

namespace Numbered
variable {known known' : List Temporary} {n m : Nat} {lines : List Line} {l : Line}

theorem reading (hflat : l.nesting = .flat) (hnone : l.declares? = none) (h : Mentions known l.text) :
    Numbered known n [l] known n := by
  have hline : Numbered known n [l] (l.declares?.toList ++ known) (n + l.declares?.toList.length) :=
    .line hflat (by simp [hnone]) fun t ht => l.mem_of_mentions h t (l.mem_mentions_of_mem_uses ht)
  simpa [hnone] using hline

theorem plain (hflat : l.nesting = .flat) (h : Clean l.text) : Numbered known n [l] known n :=
  reading hflat (l.declares?_of_clean h) (.of_clean h)

theorem declaring {t : Temporary} {text rest : String} (hflat : l.nesting = .flat)
    (htext : l.text = t.declaration ++ text ++ rest) (hrest : Clean rest) (hid : t.id = n)
    (htail : isSeparator text = true) :
    Numbered known n [l] (t :: known) (n + 1) := by
  obtain ⟨hdeclares, huses⟩ := Line.of_declaration htext hrest htail
  have hline : Numbered known n [l] (l.declares?.toList ++ known) (n + l.declares?.toList.length) :=
    .line hflat (by simp [hdeclares, hid]) (by simp [huses])
  simpa [hdeclares] using hline

theorem fixed (lines : List Line)
    (h : lines.all (fun l => l.nesting == .flat && isClean l.text) = true) :
    Numbered known n lines known n := by
  induction lines with
  | nil => exact .nil
  | cons l rest ih =>
    simp only [List.all_cons, Bool.and_eq_true, beq_iff_eq] at h
    exact (plain h.1.1 (.of_text l.text h.1.2)).append (ih h.2)

theorem enclosed {inside : List Temporary} {first last : Line} {inner : List Line}
    (hopens : first.nesting = .opens) (hnone : first.declares? = none) (hfirst : Mentions known first.text)
    (h : Numbered [] n inner inside m) (hcloses : last.nesting = .closes) (hlast : Clean last.text) :
    Numbered known n ([first] ++ inner ++ [last]) known m := by
  have hinner : Numbered [] (n + first.declares?.toList.length) inner inside m := by
    simpa [hnone] using h
  have hblock : Numbered known n ([first] ++ inner ++ [last]) (first.declares?.toList ++ known) m :=
    .block hopens (by simp [hnone])
      (fun t ht => first.mem_of_mentions hfirst t (first.mem_mentions_of_mem_uses ht)) hinner hcloses hlast
  simpa [hnone] using hblock

theorem announced {inside : List Temporary} {first last : Line} {inner : List Line} {t : Temporary}
    {text rest : String} (hopens : first.nesting = .opens)
    (htext : first.text = t.declaration ++ text ++ rest) (hrest : Clean rest) (hid : t.id = n)
    (h : Numbered [] (n + 1) inner inside m) (hcloses : last.nesting = .closes)
    (hlast : Clean last.text) (htail : isSeparator text = true) :
    Numbered known n ([first] ++ inner ++ [last]) (t :: known) m := by
  obtain ⟨hdeclares, huses⟩ := Line.of_declaration htext hrest htail
  have hinner : Numbered [] (n + first.declares?.toList.length) inner inside m := by
    simpa [hdeclares] using h
  have hblock : Numbered known n ([first] ++ inner ++ [last]) (first.declares?.toList ++ known) m :=
    .block hopens (by simp [hdeclares, hid]) (by simp [huses]) hinner hcloses hlast
  simpa [hdeclares] using hblock

theorem ids (h : Numbered known n lines known' m) :
    ∃ count, m = n + count ∧ (lines.filterMap Line.declares?).map Temporary.id = List.range' n count := by
  have hone : ∀ {l : Line} {n : Nat}, (∀ t ∈ l.declares?, t.id = n) →
      ([l].filterMap Line.declares?).map Temporary.id = List.range' n l.declares?.toList.length := by
    intro l n hnew
    cases hd : l.declares? with
    | none => simp [hd]
    | some t => simp [hd, hnew t hd]
  induction h with
  | nil => exact ⟨0, rfl, rfl⟩
  | append _ _ ihx ihy =>
    obtain ⟨i, rfl, hi⟩ := ihx
    obtain ⟨j, rfl, hj⟩ := ihy
    refine ⟨i + j, Nat.add_assoc _ _ _, ?_⟩
    rw [List.filterMap_append, List.map_append, hi, hj, List.range'_append_1]
  | line _ hnew _ => exact ⟨_, rfl, hone hnew⟩
  | @block known inside n m first last inner _ hnew _ _ _ hlast ih =>
    obtain ⟨i, rfl, hi⟩ := ih
    have hend : [last].filterMap Line.declares? = [] := by simp [last.declares?_of_clean hlast]
    refine ⟨first.declares?.toList.length + i, Nat.add_assoc _ _ _, ?_⟩
    rw [List.filterMap_append, List.filterMap_append, hend, List.append_nil, List.map_append,
      hone hnew, hi, List.range'_append_1]

theorem depths_nonneg (h : Numbered known n lines known' m) (depth : Int) :
    depthThrough depth lines = depth ∧ ∀ x ∈ depths depth lines, depth ≤ x := by
  induction h generalizing depth with
  | nil => exact ⟨rfl, by simp [depths]⟩
  | append _ _ ihx ihy =>
    rw [depthThrough_append, depths_append, List.forall_mem_append, (ihx depth).1]
    exact ⟨(ihy depth).1, (ihx depth).2, (ihy depth).2⟩
  | line hflat _ _ => simp [depthThrough, depths, Line.depthAfter, Line.depthAt, hflat]
  | @block known inside n m first last inner hopens _ _ _ hcloses _ ih =>
    obtain ⟨hthrough, hinner⟩ := ih (depth + 1)
    have hfirst : depthThrough depth [first] = depth + 1 := by
      simp [depthThrough, Line.depthAfter, hopens]
    rw [depthThrough_append, depthThrough_append, depths_append, depths_append, depthThrough_append,
      hfirst, hthrough, List.forall_mem_append, List.forall_mem_append]
    refine ⟨by simp [depthThrough, Line.depthAfter, hcloses], ⟨?_, fun x hx => ?_⟩, ?_⟩
    · simp [depths, Line.depthAt, hopens]
    · have := hinner x hx
      omega
    · simp [depths, Line.depthAt, hcloses]

structure Open (lines : List Line) : Prop where
  nonneg : ∀ x ∈ depths 0 lines, 0 ≤ x
  returns : depthThrough 0 lines = 0

theorem isOpen (h : Numbered known n lines known' m) : Open lines :=
  ⟨(h.depths_nonneg 0).2, (h.depths_nonneg 0).1⟩

theorem Open.rejoins {xs before : List Line} {l : Line} (hx : Open xs) (h : Rejoins before l) :
    Rejoins (xs ++ before) l := by
  rw [Rejoins, depths_append, depthThrough_append, hx.returns, List.forall_mem_append]
  exact ⟨⟨hx.nonneg, h.1⟩, h.2⟩

theorem Open.append {xs ys : List Line} (hx : Open xs) (hy : Open ys) : Open (xs ++ ys) := by
  constructor
  · rw [depths_append, hx.returns, List.forall_mem_append]
    exact ⟨hx.nonneg, hy.nonneg⟩
  · rw [depthThrough_append, hx.returns, hy.returns]

theorem declared (h : Numbered known n lines known' m) {t : Temporary} (ht : t ∈ known') :
    t ∈ known ∨ ∃ earlier d rest, lines = earlier ++ d :: rest ∧ d.declares? = some t ∧
      d.depthAt 0 = 0 ∧ Open (d :: rest) := by
  induction h with
  | nil => exact .inl ht
  | @append _ _ _ _ _ _ xs ys _ hy ihx ihy =>
    rcases ihy ht with ht | ⟨earlier, d, rest, hys, hd⟩
    · rcases ihx ht with ht | ⟨earlier, d, rest, hxs, hd, hdepth, hopen⟩
      · exact .inl ht
      · refine .inr ⟨earlier, d, rest ++ ys, by simp [hxs], hd, hdepth, ?_⟩
        exact hopen.append hy.isOpen
    · exact .inr ⟨xs ++ earlier, d, rest, by simp [hys], hd⟩
  | @line known n l hflat hnew huses =>
    rcases List.mem_append.mp ht with ht | ht
    · refine .inr ⟨[], l, [], rfl, Option.mem_toList.mp ht, by simp [Line.depthAt, hflat], ?_⟩
      exact (Numbered.line hflat hnew huses).isOpen
    · exact .inl ht
  | @block known inside n m first last inner hopens hnew huses h hcloses hlast _ =>
    rcases List.mem_append.mp ht with ht | ht
    · refine .inr ⟨[], first, inner ++ [last], by simp, Option.mem_toList.mp ht,
        by simp [Line.depthAt, hopens], ?_⟩
      simpa using (Numbered.block hopens hnew huses h hcloses hlast).isOpen
    · exact .inl ht

theorem split_append {xs ys before after : List Line} {l : Line}
    (h : xs ++ ys = before ++ l :: after) :
    (∃ rest, xs = before ++ l :: rest) ∨ ∃ rest, before = xs ++ rest ∧ ys = rest ++ l :: after := by
  rcases List.append_eq_append_iff.mp h with ⟨rest, hbefore, hys⟩ | ⟨rest, hxs, hrest⟩
  · exact .inr ⟨rest, hbefore, hys⟩
  · cases rest with
    | nil => exact .inr ⟨[], by simpa using hxs.symm, by simpa using hrest.symm⟩
    | cons x rest =>
      obtain ⟨rfl, -⟩ := List.cons.inj hrest
      exact .inl ⟨rest, hxs⟩

theorem split_singleton {x l : Line} {before after : List Line} (h : [x] = before ++ l :: after) :
    before = [] ∧ x = l := by
  cases before with
  | nil => exact ⟨rfl, (List.cons.inj h).1⟩
  | cons y before => simp at h

/-- Every use comes behind the declaration, in the block of the declaration. -/
theorem uses_declared (h : Numbered known n lines known' m) {before after : List Line} {l : Line}
    (hsplit : lines = before ++ l :: after) {t : Temporary} (ht : t ∈ l.uses) :
    t ∈ known ∧ Rejoins before l ∨ ∃ earlier d between, before = earlier ++ d :: between ∧
      d.declares? = some t ∧ SameBlock d between l := by
  induction h generalizing before after with
  | nil => simp at hsplit
  | @append _ _ _ _ _ _ xs ys hx _ ihx ihy =>
    rcases split_append hsplit with ⟨rest, hxs⟩ | ⟨rest, rfl, hys⟩
    · exact ihx hxs
    rcases ihy hys with ⟨ht, hreaches⟩ | ⟨earlier, d, between, rfl, hd⟩
    · -- declared before the second part begins
      rcases hx.declared ht with ht | ⟨earlier, d, between, rfl, hd, hdepth, hopen⟩
      · exact .inl ⟨ht, hx.isOpen.rejoins hreaches⟩
      · exact .inr ⟨earlier, d, between ++ rest, by simp, hd, hdepth, hopen.rejoins hreaches⟩
    · exact .inr ⟨xs ++ earlier, d, between, by simp, hd⟩
  | @line known n x hflat hnew huses =>
    obtain ⟨rfl, rfl⟩ := split_singleton hsplit
    exact .inl ⟨huses t ht, by simp [depths], by simp [depthThrough, Line.depthAt, hflat]⟩
  | @block known inside n m first last inner hopens hnew huses h hcloses hlast ih =>
    rw [List.append_assoc] at hsplit
    rcases split_append hsplit with ⟨rest, hfirst⟩ | ⟨rest, rfl, hinner⟩
    · obtain ⟨rfl, rfl⟩ := split_singleton hfirst
      exact .inl ⟨huses t ht, by simp [depths], by simp [depthThrough, Line.depthAt, hopens]⟩
    rcases split_append hinner with ⟨more, hinner⟩ | ⟨more, rfl, hend⟩
    · rcases ih hinner with ⟨hnone, -⟩ | ⟨earlier, d, between, rfl, hd⟩
      · cases hnone
      · exact .inr ⟨first :: earlier, d, between, rfl, hd⟩
    · obtain ⟨-, rfl⟩ := split_singleton hend
      have hnone := last.mem_mentions_of_mem_uses ht
      rw [last.mentions_eq_nil hlast] at hnone
      cases hnone

end Numbered

end CodecGen.Emit
