import CodecGen.Files.Replace
set_option autoImplicit false
/-!
File trees under changes. Where a path leads depends only on which places are directories, so putting
files where no directory is, and taking files away, leaves every path leading where it did.
-/
namespace CodecGen.Files

section
variable {place other : Location} {entries : List (Location × Entry)}

theorem lookup_filter_ne (h : other ≠ place) :
    (entries.filter (·.1 != place)).lookup other = entries.lookup other := by
  induction entries with
  | nil => rfl
  | cons first rest ih =>
    obtain ⟨p, entry⟩ := first
    by_cases hp : p = place
    · subst hp
      simp [List.lookup_cons, beq_false_of_ne h, ih]
    · by_cases ho : other = p
      · simp [hp, ho]
      · simp [List.lookup_cons, hp, beq_false_of_ne ho, ih]

theorem lookup_filter_self : (entries.filter (·.1 != place)).lookup place = none := by
  rw [List.lookup_eq_none_iff]
  intro e he
  have hne : e.1 ≠ place := by simpa using (List.mem_filter.mp he).2
  simpa using hne.symm

theorem lookup_eq_none_of_not_mem (h : place ∉ entries.map (·.1)) : entries.lookup place = none := by
  rw [List.lookup_eq_none_iff]
  intro e he
  have hne : place ≠ e.1 := fun heq => h (heq ▸ List.mem_map_of_mem he)
  simpa using hne

end

namespace Tree
variable {tree next : Tree} {place other : Location} {entry : Entry}

theorem entryAt_put (h : place.isGiven = false) (tree : Tree) (entry : Entry) (other : Location) :
    Tree.entry? (tree.put place entry) other =
      if other = place then some entry else tree.entry? other := by
  unfold entry? put
  by_cases ho : other = place
  · subst ho
    simp [h, List.lookup_append, lookup_filter_self]
  · simp [ho, List.lookup_append, List.lookup_cons, lookup_filter_ne ho, beq_false_of_ne ho]

theorem entryAt_erase (h : place.isGiven = false) (tree : Tree) (other : Location) :
    Tree.entry? (tree.erase place) other = if other = place then none else tree.entry? other := by
  unfold entry? erase
  by_cases ho : other = place
  · subst ho
    simp [h, lookup_filter_self]
  · simp [ho, lookup_filter_ne ho]

theorem not_mem_of_entryAt (hgiven : place.isGiven = false) (h : tree.entry? place = none) :
    place ∉ tree.entries.map (·.1) := by
  intro hmem
  obtain ⟨e, he, rfl⟩ := List.mem_map.mp hmem
  rw [Tree.entry?, hgiven, if_neg (by simp), List.lookup_eq_none_iff] at h
  simpa using h e he

theorem entryAt_of_not_mem (hgiven : place.isGiven = false) (h : place ∉ tree.entries.map (·.1)) :
    tree.entry? place = none := by
  simp [Tree.entry?, hgiven, lookup_eq_none_of_not_mem h]

theorem isGiven_of_isDirectory_eq_false (h : tree.isDirectory place = false) :
    place.isGiven = false := by
  cases hgiven : place.isGiven with
  | false => rfl
  | true => simp [isDirectory, Tree.entry?, hgiven] at h

theorem put_of_not_mem (h : place ∉ tree.entries.map (·.1)) (entry : Entry) :
    tree.put place entry = ⟨tree.entries ++ [(place, entry)]⟩ := by
  have hall : ∀ e ∈ tree.entries, (e.1 != place) = true := by
    intro e he
    have hne : e.1 ≠ place := fun heq => h (heq ▸ List.mem_map_of_mem he)
    simpa using hne
  rw [put, List.filter_eq_self.mpr hall]

def SameDirs (t u : Tree) : Prop := ∀ place, t.isDirectory place = u.isDirectory place

theorem SameDirs.trans {t u v : Tree} (h : SameDirs t u) (h' : SameDirs u v) : SameDirs t v :=
  fun place => (h place).trans (h' place)

theorem sameDirs_put_file (h : tree.isDirectory place = false) (content : Bytes) :
    SameDirs tree (tree.put place (.file content)) := by
  intro other
  have hgiven := isGiven_of_isDirectory_eq_false h
  unfold isDirectory at h ⊢
  rw [entryAt_put hgiven]
  by_cases ho : other = place
  · subst ho
    simp [h]
  · simp [ho]

theorem sameDirs_erase (h : tree.isDirectory place = false) : SameDirs tree (tree.erase place) := by
  intro other
  have hgiven := isGiven_of_isDirectory_eq_false h
  unfold isDirectory at h ⊢
  rw [entryAt_erase hgiven]
  by_cases ho : other = place
  · subst ho
    simp [h]
  · simp [ho]

def partOf (place : Location) (part : String) : Location :=
  if part == "" || part == "." then place
  else if part == ".." then place.parent
  else place ++ [part]

theorem toOption_follow (tree : Tree) (place : Location) (part : String) :
    (tree.follow place part).toOption =
      if tree.isDirectory place then some (partOf place part) else none := by
  unfold follow isDirectory partOf
  cases hentry : tree.entry? place with
  | none => rfl
  | some entry =>
    cases entry with
    | file content => rfl
    | directory =>
      simp only [beq_self_eq_true, ↓reduceIte]
      split
      · rfl
      · split <;> rfl

theorem toOption_bind {ε α β : Type} (x : Except ε α) (f : α → Except ε β) :
    (x >>= f).toOption = x.toOption.bind fun a => (f a).toOption := by
  cases x <;> rfl

theorem toOption_foldlM_follow (h : SameDirs tree next) (parts : List String) (place : Location) :
    (parts.foldlM tree.follow place).toOption = (parts.foldlM next.follow place).toOption := by
  induction parts generalizing place with
  | nil => rfl
  | cons part rest ih =>
    rw [List.foldlM_cons, List.foldlM_cons, toOption_bind, toOption_bind, toOption_follow,
      toOption_follow, h place]
    simp only [ih]

theorem toOption_reach (h : SameDirs tree next) (path : String) :
    (tree.reach path).toOption = (next.reach path).toOption := by
  unfold reach
  split
  · rfl
  · exact toOption_foldlM_follow h _ _

/-- The place where a file can be put under a path: one that the path leads to and that is no
directory. -/
def target? (tree : Tree) (path : String) : Option Location :=
  (tree.reach path).toOption.filter fun place => !tree.isDirectory place

theorem target?_congr (h : SameDirs tree next) (path : String) :
    tree.target? path = next.target? path := by
  unfold target?
  rw [toOption_reach h path]
  congr 1
  funext place
  rw [h place]

theorem target?_eq_some {path : String} :
    tree.target? path = some place ↔ tree.reach path = .ok place ∧ tree.isDirectory place = false := by
  unfold target?
  rw [Option.filter_eq_some_iff]
  cases hreach : tree.reach path with
  | error fault => simp [Except.toOption]
  | ok p => simp [Except.toOption]

end Tree

theorem length_nameWith (base : String) (n : Nat) :
    2 < (Temporary.nameWith base (toString n)).length := by
  have hdigits : 0 < (toString n).length := Nat.length_repr_pos
  simp only [Temporary.nameWith, String.length_append]
  have hdot : ".".length = 1 := rfl
  omega

theorem isGiven_temporary (around : Location) (base : String) (n : Nat) :
    Location.isGiven (Temporary.place around base n) = false := by
  have hlong := length_nameWith base n
  have hroot : Temporary.nameWith base (toString n) ≠ "/" := fun h => by
    rw [h] at hlong
    exact absurd hlong (by decide)
  have hup : Temporary.nameWith base (toString n) ≠ ".." := fun h => by
    rw [h] at hlong
    exact absurd hlong (by decide)
  have hlast : around ++ [Temporary.nameWith base (toString n)] ≠ ["/"] := fun h => by
    have hget := congrArg List.getLast? h
    exact hroot (by simpa using hget)
  unfold Location.isGiven Temporary.place
  rw [Bool.or_eq_false_iff, List.all_append, List.all_cons, Bool.and_eq_false_iff]
  exact ⟨beq_false_of_ne hlast, .inr (by simpa using hup)⟩

end CodecGen.Files
