import CodecGen.Markup.Element
import CodecGen.Proofs.Encoding
set_option autoImplicit false
/-!
Where a source stops being UTF-8. Every byte string splits into the encodings at its front and a rest
that starts with none; if there is a rest, its first byte is the offending one. The reader looks for
that byte by its own scan, which also stops at a replacement character that is properly encoded.
-/
namespace CodecGen.Text.Utf8

/-- The byte at this offset is the first that starts no encoding: what lies before it is encoded, and
nothing longer is. -/
structure BreaksAt (s : Bytes) (offset : Nat) : Prop where
  inside : offset < s.length
  before : IsEncoding (s.take offset)
  longest : ∀ n ≤ s.length, IsEncoding (s.take n) → n ≤ offset
  starts : ∀ c rest, s.drop offset ≠ encodeChar c ++ rest

theorem BreaksAt.unique {s : Bytes} {m n : Nat} (hm : BreaksAt s m) (hn : BreaksAt s n) : m = n :=
  Nat.le_antisymm (hn.longest m (Nat.le_of_lt hm.inside) hm.before) (hm.longest n (Nat.le_of_lt hn.inside) hn.before)

def size (cs : List Char) : Nat := (cs.flatMap encodeChar).length

theorem size_cons (c : Char) (cs : List Char) : size (c :: cs) = (encodeChar c).length + size cs := by
  rw [size, List.flatMap_cons, List.length_append]
  rfl

theorem encodeChar_length_pos (c : Char) : 0 < (encodeChar c).length :=
  List.length_pos_iff.2 String.utf8EncodeChar_ne_nil

theorem exists_split (s : Bytes) :
    ∃ (cs : List Char) (rest : Bytes), s = cs.flatMap encodeChar ++ rest ∧ head? rest = none := by
  -- on the length: what is left after one character is shorter
  induction hn : s.length using Nat.strongRecOn generalizing s with
  | ind n ih =>
    cases hhead : head? s with
    | none => exact ⟨[], s, rfl, hhead⟩
    | some read =>
      obtain ⟨c, more⟩ := read
      obtain ⟨hlength, hs⟩ := eq_encodeChar_of_head? hhead
      have htotal := congrArg List.length hs
      rw [List.length_append, hlength, hn] at htotal
      have hshorter : (s.drop (more + 1)).length < n := by omega
      obtain ⟨cs, rest, hrest, hnone⟩ := ih _ hshorter _ rfl
      refine ⟨c :: cs, rest, ?_, hnone⟩
      rw [List.flatMap_cons, List.append_assoc, ← hrest, hs]

theorem size_le_of_split {cs ds : List Char} {rest tail : Bytes} (hrest : head? rest = none)
    (h : ds.flatMap encodeChar ++ tail = cs.flatMap encodeChar ++ rest) : size ds ≤ size cs := by
  induction ds generalizing cs with
  | nil => exact Nat.zero_le _
  | cons d ds ih =>
    rw [List.flatMap_cons, List.append_assoc] at h
    have hread := head?_encodeChar d (ds.flatMap encodeChar ++ tail)
    cases cs with
    | nil =>
      rw [h, List.flatMap_nil, List.nil_append, hrest] at hread
      cases hread
    | cons c cs =>
      rw [List.flatMap_cons, List.append_assoc] at h
      rw [h, head?_encodeChar] at hread
      obtain rfl : c = d := congrArg Prod.fst (Option.some.inj hread)
      have hle := ih (List.append_cancel_left h)
      rw [size_cons, size_cons]
      omega

theorem breaksAt_of_split {cs : List Char} {rest : Bytes} (hrest : head? rest = none)
    (hne : rest ≠ []) : BreaksAt (cs.flatMap encodeChar ++ rest) (size cs) where
  inside := by
    have hpos := List.length_pos_iff.2 hne
    rw [List.length_append]
    exact Nat.lt_add_of_pos_right hpos
  before := ⟨cs, List.take_left⟩
  longest := by
    intro n hn hprefix
    obtain ⟨ds, hds⟩ := hprefix
    have hsplit := List.take_append_drop n (cs.flatMap encodeChar ++ rest)
    rw [hds] at hsplit
    have hsize : size ds = n := by
      rw [size, ← hds, List.length_take]
      omega
    exact hsize ▸ size_le_of_split hrest hsplit
  starts := by
    intro c tail h
    rw [size, List.drop_left] at h
    rw [h, head?_encodeChar] at hrest
    cases hrest

theorem firstReplacement_skip (offset : Nat) (skipped rest : Bytes) :
    firstReplacement offset skipped.length (skipped ++ rest) =
      firstReplacement (offset + skipped.length) 0 rest := by
  induction skipped generalizing offset with
  | nil => rfl
  | cons b skipped ih =>
    have hnext : offset + 1 + skipped.length = offset + (b :: skipped).length := by
      rw [List.length_cons]
      omega
    rw [← hnext]
    exact ih (offset + 1)

theorem firstReplacement_encodeChar (offset : Nat) (c : Char) (rest : Bytes) :
    firstReplacement offset 0 (encodeChar c ++ rest) =
      if c = replacement then offset
      else firstReplacement (offset + (encodeChar c).length) 0 rest := by
  have hhead := head?_encodeChar c rest
  cases hc : encodeChar c with
  | nil => exact absurd hc String.utf8EncodeChar_ne_nil
  | cons b r =>
    rw [hc, List.cons_append] at hhead
    rw [List.cons_append, firstReplacement, hhead]
    have hskip := firstReplacement_skip (offset + 1) r rest
    by_cases hrep : c = replacement
    · simp [hrep]
    · simp only [beq_iff_eq, hrep, ↓reduceIte, List.length_cons, Nat.add_sub_cancel]
      rw [hskip, Nat.add_assoc, Nat.add_comm 1]

theorem firstReplacement_of_head?_eq_none (offset : Nat) {s : Bytes} (h : head? s = none) :
    firstReplacement offset 0 s = offset := by
  cases s with
  | nil => rfl
  | cons b r => rw [firstReplacement, h]

/-- The scan passes over characters up to the first replacement character. -/
theorem firstReplacement_split (offset : Nat) (cs : List Char) {rest : Bytes}
    (hrest : head? rest = none) :
    firstReplacement offset 0 (cs.flatMap encodeChar ++ rest) =
      offset + size (cs.takeWhile (· ≠ replacement)) := by
  induction cs generalizing offset with
  | nil => exact firstReplacement_of_head?_eq_none offset hrest
  | cons c cs ih =>
    rw [List.flatMap_cons, List.append_assoc, firstReplacement_encodeChar]
    by_cases hc : c = replacement
    · rw [if_pos hc, List.takeWhile_cons_of_neg (by simpa using hc)]
      rfl
    · rw [if_neg hc, ih, List.takeWhile_cons_of_pos (by simpa using hc), size_cons, Nat.add_assoc]

theorem size_takeWhile_eq_iff (p : Char → Bool) (cs : List Char) :
    size (cs.takeWhile p) = size cs ↔ ∀ c ∈ cs, p c = true := by
  induction cs with
  | nil => simp
  | cons c cs ih =>
    have hpos := encodeChar_length_pos c
    by_cases hc : p c = true
    · rw [List.takeWhile_cons_of_pos hc, size_cons, size_cons, Nat.add_left_cancel_iff, ih]
      simp [hc]
    · rw [List.takeWhile_cons_of_neg hc, size_cons]
      constructor
      · intro (h : 0 = _)
        omega
      · intro h
        exact absurd (h c List.mem_cons_self) hc

end CodecGen.Text.Utf8

namespace CodecGen.Markup
open Text.Utf8

/-- A source that is not UTF-8 is refused for that, whatever else is wrong with it. The place given is
that of the first byte that starts no encoding exactly if no replacement character is encoded before
it; otherwise it is the place of the first such character. -/
theorem invalid_byte_located_iff (src : Bytes) (hsize : src.length ≤ maxSourceSize)
    (hinvalid : ¬ IsEncoding src) :
    ∃ err offset, parse src = .error err ∧ err.code = 1001 ∧ BreaksAt src offset ∧
      err.span = ⟨size ((decode (src.take offset)).takeWhile (· ≠ replacement)), 1⟩ ∧
      (err.span.start = offset ↔ replacement ∉ decode (src.take offset)) := by
  obtain ⟨cs, rest, rfl, hrest⟩ := exists_split src
  have hne : rest ≠ [] := by
    intro hnil
    exact hinvalid ⟨cs, by rw [hnil, List.append_nil]⟩
  have hvalid : valid (cs.flatMap encodeChar ++ rest) = false := by
    rw [← Bool.not_eq_true, valid_iff]
    exact hinvalid
  have hread : decode ((cs.flatMap encodeChar ++ rest).take (size cs)) = cs := by
    rw [size, List.take_left, decode_flatMap_encodeChar]
  refine ⟨.invalidUtf8 (size (cs.takeWhile (· ≠ replacement))), size cs, ?_, rfl,
    breaksAt_of_split hrest hne, ?_, ?_⟩
  · rw [parse, if_neg (Nat.not_lt.2 hsize), hvalid, firstReplacement_split 0 cs hrest, Nat.zero_add]
    rfl
  · rw [hread]
    rfl
  · rw [hread]
    change size _ = size cs ↔ _
    rw [size_takeWhile_eq_iff]
    simp only [decide_eq_true_eq]
    exact ⟨fun h hmem => h _ hmem rfl, fun h c hc heq => h (heq ▸ hc)⟩

def brokenAfter (text : String) : Bytes :=
  ("<xcb>" ++ text).toList.flatMap encodeChar ++ 0xff :: encode "</xcb>"

theorem breaksAt_brokenAfter (text : String) :
    BreaksAt (brokenAfter text) (size ("<xcb>" ++ text).toList) :=
  breaksAt_of_split rfl (by simp)

theorem invalid_byte_located_iff_accented :
    (brokenAfter "é").length ≤ maxSourceSize ∧ ¬ IsEncoding (brokenAfter "é") ∧
      ∃ err, parse (brokenAfter "é") = .error err ∧ err.code = 1001 ∧ err.span.start = 7 ∧
        BreaksAt (brokenAfter "é") 7 := by
  have hsize : (brokenAfter "é").length ≤ maxSourceSize := by decide +kernel
  have hinvalid : ¬ IsEncoding (brokenAfter "é") := by
    rw [← valid_iff]
    decide +kernel
  obtain ⟨err, offset, herr, hcode, hbreaks, -, hstart⟩ :=
    invalid_byte_located_iff (brokenAfter "é") hsize hinvalid
  have hseven : size ("<xcb>" ++ "é").toList = 7 := by decide +kernel
  obtain rfl : offset = 7 := hseven ▸ hbreaks.unique (breaksAt_brokenAfter "é")
  have hplain : replacement ∉ decode ((brokenAfter "é").take 7) := by decide +kernel
  exact ⟨hsize, hinvalid, err, herr, hcode, hstart.2 hplain, hbreaks⟩

/-- A replacement character that is properly encoded is taken for the offending byte. -/
theorem replacement_taken_for_invalid_byte :
    (brokenAfter "\uFFFD").length ≤ maxSourceSize ∧ ¬ IsEncoding (brokenAfter "\uFFFD") ∧
      ∃ err, parse (brokenAfter "\uFFFD") = .error err ∧ err.code = 1001 ∧ err.span.start = 5 ∧
        BreaksAt (brokenAfter "\uFFFD") 8 := by
  have hsize : (brokenAfter "\uFFFD").length ≤ maxSourceSize := by decide +kernel
  have hvalid : valid (brokenAfter "\uFFFD") = false := by decide +kernel
  have hscan : firstReplacement 0 0 (brokenAfter "\uFFFD") = 5 := by decide +kernel
  have hinvalid : ¬ IsEncoding (brokenAfter "\uFFFD") := by
    rw [← valid_iff, hvalid]
    exact Bool.false_ne_true
  have hparse : parse (brokenAfter "\uFFFD") = .error (.invalidUtf8 5) := by
    rw [parse, if_neg (Nat.not_lt.2 hsize), hvalid, hscan]
    rfl
  have height : size ("<xcb>" ++ "\uFFFD").toList = 8 := by decide +kernel
  exact ⟨hsize, hinvalid, _, hparse, rfl, rfl, height ▸ breaksAt_brokenAfter "\uFFFD"⟩

end CodecGen.Markup
