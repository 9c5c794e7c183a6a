import CodecGen.Proofs.Brackets
set_option autoImplicit false
/-!
Type names as seen from a namespace. Which beginning of a path was dropped cannot be read off the text,
but the paths of declared types all have the same depth, so that the number of segments that are left
tells how many are gone.
-/
namespace CodecGen.Emit
open Schema

structure LongestCommonPrefix (common path ns : List String) : Prop where
  ofPath : common <+: path
  ofNamespace : common <+: ns
  longest : ∀ other, other <+: path → other <+: ns → other <+: common

theorem longestCommonPrefix_nil {path ns : List String}
    (h : ∀ x path' ns', path = x :: path' → ns ≠ x :: ns') : LongestCommonPrefix [] path ns := by
  refine ⟨List.nil_prefix, List.nil_prefix, ?_⟩
  rintro other ⟨rest, rfl⟩ ⟨more, rfl⟩
  cases other with
  | nil => exact List.nil_prefix
  | cons x other => exact absurd rfl (h x _ _ rfl)

theorem exists_longestCommonPrefix (path ns : List String) :
    ∃ common, LongestCommonPrefix common path ns ∧ common ++ chop path ns = path := by
  fun_induction chop path ns with
  | case1 p path n ns heq ih =>
    obtain rfl : p = n := eq_of_beq heq
    obtain ⟨common, hcommon, hsplit⟩ := ih
    refine ⟨p :: common, ⟨?_, ?_, ?_⟩, ?_⟩
    · exact List.cons_prefix_cons.2 ⟨rfl, hcommon.ofPath⟩
    · exact List.cons_prefix_cons.2 ⟨rfl, hcommon.ofNamespace⟩
    · intro other hpath hns
      cases other with
      | nil => exact List.nil_prefix
      | cons x other =>
        obtain ⟨rfl, hpath'⟩ := List.cons_prefix_cons.1 hpath
        obtain ⟨-, hns'⟩ := List.cons_prefix_cons.1 hns
        exact List.cons_prefix_cons.2 ⟨rfl, hcommon.longest other hpath' hns'⟩
    · rw [List.cons_append, hsplit]
  | case2 p path n ns hne =>
    refine ⟨[], longestCommonPrefix_nil ?_, rfl⟩
    rintro x path' ns' hpath hns
    cases hpath
    cases hns
    simp at hne
  | case3 path ns hend =>
    exact ⟨[], longestCommonPrefix_nil fun x path' ns' hpath hns => hend x path' x ns' hpath hns, rfl⟩

/-- Among paths of one depth, what is left tells what was there. -/
theorem eq_of_chop_eq {path other ns : List String} (hlength : path.length = other.length)
    (h : chop path ns = chop other ns) : path = other := by
  obtain ⟨common, hcommon, hpath⟩ := exists_longestCommonPrefix path ns
  obtain ⟨common', hcommon', hother⟩ := exists_longestCommonPrefix other ns
  have hsame : common.length = common'.length := by
    have hsum := congrArg List.length hpath
    have hsum' := congrArg List.length hother
    rw [List.length_append] at hsum hsum'
    rw [h] at hsum
    omega
  have heq : common = common' := by
    rw [List.prefix_iff_eq_take.1 hcommon.ofNamespace, List.prefix_iff_eq_take.1 hcommon'.ofNamespace,
      hsame]
  rw [← hpath, ← hother, heq, h]

structure IsSegment (s : String) : Prop where
  ne_empty : s ≠ ""
  no_colon : ':' ∉ s.toList

def joinedTail : List String → List Char
  | [] => []
  | x :: rest => ':' :: ':' :: (String.intercalate "::" (x :: rest)).toList

theorem toList_joined (x : String) (rest : List String) :
    (String.intercalate "::" (x :: rest)).toList = x.toList ++ joinedTail rest := by
  cases rest with
  | nil => simp [joinedTail]
  | cons y rest => simp [joinedTail]

theorem takeWhile_joined {x : String} (hx : ':' ∉ x.toList) (rest : List String) :
    (x.toList ++ joinedTail rest).takeWhile (· ≠ ':') = x.toList := by
  have hall : ∀ c ∈ x.toList, decide (c ≠ ':') = true := by
    intro c hc
    exact decide_eq_true fun heq => hx (heq ▸ hc)
  rw [List.takeWhile_append_of_pos hall]
  cases rest <;> simp [joinedTail]

theorem joined_ne_empty {x : String} (hx : x ≠ "") (rest : List String) :
    String.intercalate "::" (x :: rest) ≠ "" := by
  intro h
  have hchars := toList_joined x rest
  rw [h, String.toList_empty] at hchars
  exact hx (String.toList_eq_nil_iff.1 (List.append_eq_nil_iff.1 hchars.symm).1)

theorem joined_injective {path other : List String} (hpath : ∀ x ∈ path, IsSegment x)
    (hother : ∀ x ∈ other, IsSegment x)
    (h : String.intercalate "::" path = String.intercalate "::" other) : path = other := by
  induction path generalizing other with
  | nil =>
    cases other with
    | nil => rfl
    | cons y other => exact absurd h.symm (joined_ne_empty (hother y List.mem_cons_self).ne_empty other)
  | cons x path ih =>
    cases other with
    | nil => exact absurd h (joined_ne_empty (hpath x List.mem_cons_self).ne_empty path)
    | cons y other =>
      rw [List.forall_mem_cons] at hpath hother
      have hchars := congrArg String.toList h
      rw [toList_joined, toList_joined] at hchars
      have hfirst := congrArg (List.takeWhile (· ≠ ':')) hchars
      rw [takeWhile_joined hpath.1.no_colon, takeWhile_joined hother.1.no_colon] at hfirst
      rw [hfirst] at hchars
      have htail := List.append_cancel_left hchars
      obtain rfl : x = y := String.toList_inj.1 hfirst
      cases path with
      | nil =>
        cases other with
        | nil => rfl
        | cons z other => cases htail
      | cons w path =>
        cases other with
        | nil => cases htail
        | cons z other =>
          have hjoined := String.toList_inj.1 (List.cons.inj (List.cons.inj htail).2).2
          rw [ih hpath.2 hother.2 hjoined]

/-- The names under which modules declare their types: in `xcb` itself, or in the part of it that is
an extension's. -/
inductive IsDeclaredName : Name → Prop where
  | core {name : String} (hname : IsSegment name) : IsDeclaredName ["xcb", name]
  | extension {ext name : String} (hext : IsSegment ext) (hname : IsSegment name) :
    IsDeclaredName ["xcb", ext, name]

theorem IsSegment.append {s : String} (h : IsSegment s) (kind : Kind) : IsSegment (s ++ suffix kind) where
  ne_empty := by
    intro hempty
    exact h.ne_empty (String.append_eq_empty_iff.1 hempty).1
  no_colon := by
    rw [String.toList_append, List.mem_append, not_or]
    refine ⟨h.no_colon, ?_⟩
    cases kind <;> decide

theorem qualifiedPath_declared {t : Ty} (h : IsDeclaredName t.typeName) :
    (qualifiedPath t).length = 3 ∧ ∀ x ∈ qualifiedPath t, IsSegment x := by
  have hroot : IsSegment "x11" := ⟨by decide, by decide⟩
  have hclass : IsSegment "XProto" := ⟨by decide, by decide⟩
  unfold qualifiedPath typeSuffix
  generalize hn : t.typeName = n at h
  cases h with
  | core hname =>
    have hlast := hname.append t.kind
    simp [appendLast, hroot, hclass, hlast]
  | extension hext hname =>
    have hlast := hname.append t.kind
    simp [appendLast, hroot, hext, hlast]

theorem qualifiedPath_eq_of_qualify_eq {t u : Ty} (ht : IsDeclaredName t.typeName)
    (hu : IsDeclaredName u.typeName) {ns : List String} (h : qualify t ns = qualify u ns) :
    qualifiedPath t = qualifiedPath u := by
  obtain ⟨hlength, hsegments⟩ := qualifiedPath_declared ht
  obtain ⟨hlength', hsegments'⟩ := qualifiedPath_declared hu
  have hchopped := joined_injective (fun x hx => hsegments x (mem_of_mem_chop hx))
    (fun x hx => hsegments' x (mem_of_mem_chop hx)) h
  exact eq_of_chop_eq (hlength.trans hlength'.symm) hchopped

/-- From inside any namespace, two declared types have the same name exactly if they have the same
path. What is dropped from a path is all that it has in common with the namespace. -/
theorem qualified_names_unambiguous (t u : Ty) (ht : IsDeclaredName t.typeName)
    (hu : IsDeclaredName u.typeName) :
    (∀ ns, qualify t ns = qualify u ns ↔ qualifiedPath t = qualifiedPath u) ∧
      ∀ path ns, ∃ common, LongestCommonPrefix common path ns ∧ common ++ chop path ns = path := by
  refine ⟨fun ns => ⟨qualifiedPath_eq_of_qualify_eq ht hu, fun h => ?_⟩, exists_longestCommonPrefix⟩
  rw [qualify, qualify, h]

def inputKey : Ty := .container .struct ["xcb", "Input", "Key"] []

def coreKey : Ty := .container .struct ["xcb", "Key"] []

/-- Inside the class of an extension its own structure goes by the last segment, and one of the core
protocol that is declared by the same name does not. -/
theorem qualified_names_unambiguous_key :
    IsDeclaredName inputKey.typeName ∧ IsDeclaredName coreKey.typeName ∧
      qualify inputKey ["x11", "Input"] = "Key" ∧
      qualify inputKey ["x11", "Input"] ≠ qualify coreKey ["x11", "Input"] := by
  have hinput : IsSegment "Input" := ⟨by decide, by decide⟩
  have hkey : IsSegment "Key" := ⟨by decide, by decide⟩
  have hown : IsDeclaredName inputKey.typeName := .extension hinput hkey
  have hcore : IsDeclaredName coreKey.typeName := .core hkey
  have hiff := (qualified_names_unambiguous inputKey coreKey hown hcore).1 ["x11", "Input"]
  have hpaths : qualifiedPath inputKey ≠ qualifiedPath coreKey := by decide
  exact ⟨hown, hcore, by decide, fun h => hpaths (hiff.1 h)⟩

end CodecGen.Emit
