import CodecGen.Text.Utf8
set_option autoImplicit false
/-!
What counts as UTF-8. A byte string is `valid` exactly if it is a sequence of encoded characters:
behind every encoding the reader finds its character, and what it reads as a character is an
encoding.
-/
namespace CodecGen.Text.Utf8

/-- The encodings of some characters, one after the other. -/
def IsEncoding (s : Bytes) : Prop := ∃ cs : List Char, s = cs.flatMap encodeChar

theorem isTail_iff (b : UInt8) : isTail b = true ↔ 0x80 ≤ b.toNat ∧ b.toNat ≤ 0xbf := by
  simp [isTail, UInt8.le_iff_toNat_le]

theorem isSecond_iff (a b : UInt8) : isSecond a b = true ↔
    (0x80 ≤ b.toNat ∧ b.toNat ≤ 0xbf) ∧ (a.toNat = 0xe0 → 0xa0 ≤ b.toNat) ∧
      (a.toNat = 0xed → b.toNat ≤ 0x9f) ∧ (a.toNat = 0xf0 → 0x90 ≤ b.toNat) ∧
      (a.toNat = 0xf4 → b.toNat ≤ 0x8f) := by
  unfold isSecond
  simp only [isTail, beq_iff_eq, ← UInt8.toNat_inj]
  split <;> (try split) <;> (try split) <;> (try split) <;>
    simp_all [UInt8.le_iff_toNat_le] <;> omega

theorem toNat_ofNat {n : Nat} (h : n < 0xd800 ∨ 0xdfff < n ∧ n < 0x110000) :
    (Char.ofNat n).toNat = n := by
  unfold Char.ofNat
  rw [dif_pos h]
  rfl

theorem toNat_bounds (c : Char) : c.toNat < 0xd800 ∨ 0xdfff < c.toNat ∧ c.toNat < 0x110000 :=
  c.valid

theorem ofNat_eq {c : Char} {n : Nat} (h : n = c.toNat) : Char.ofNat n = c := by
  rw [h, Char.ofNat_toNat]

theorem byte_toNat {n : Nat} (h : n < 256) : (UInt8.ofNat n).toNat = n := by
  rw [UInt8.toNat_ofNat', Nat.mod_eq_of_lt h]

theorem byte_eq {b : UInt8} {n : Nat} (h : n = b.toNat) : UInt8.ofNat n = b := by
  rw [h, UInt8.ofNat_toNat]

theorem encodeChar_eq (c : Char) : encodeChar c =
    if c.toNat ≤ 0x7f then [UInt8.ofNat c.toNat]
    else if c.toNat ≤ 0x7ff then
      [UInt8.ofNat (c.toNat / 64 % 32 + 0xc0), UInt8.ofNat (c.toNat % 64 + 0x80)]
    else if c.toNat ≤ 0xffff then
      [UInt8.ofNat (c.toNat / 4096 % 16 + 0xe0), UInt8.ofNat (c.toNat / 64 % 64 + 0x80),
        UInt8.ofNat (c.toNat % 64 + 0x80)]
    else
      [UInt8.ofNat (c.toNat / 262144 % 8 + 0xf0), UInt8.ofNat (c.toNat / 4096 % 64 + 0x80),
        UInt8.ofNat (c.toNat / 64 % 64 + 0x80), UInt8.ofNat (c.toNat % 64 + 0x80)] := rfl

theorem two_eq (a b : UInt8) :
    two a b = Char.ofNat ((a.toNat - 0xc0) * 64 + (b.toNat - 0x80)) := rfl

theorem three_eq (a b c : UInt8) :
    three a b c =
      Char.ofNat (((a.toNat - 0xe0) * 64 + (b.toNat - 0x80)) * 64 + (c.toNat - 0x80)) := rfl

theorem four_eq (a b c d : UInt8) :
    four a b c d =
      Char.ofNat ((((a.toNat - 0xf0) * 64 + (b.toNat - 0x80)) * 64 + (c.toNat - 0x80)) * 64 +
        (d.toNat - 0x80)) := rfl

theorem head?_one {a : UInt8} (r : Bytes) (ha : a.toNat < 0x80) :
    head? (a :: r) = some (Char.ofNat a.toNat, 0) := by
  simp [head?, UInt8.lt_iff_toNat_lt, ha]

theorem head?_two {a b : UInt8} (r : Bytes) (ha : 0xc2 ≤ a.toNat) (ha' : a.toNat < 0xe0)
    (hb : isTail b = true) : head? (a :: b :: r) = some (two a b, 1) := by
  have h1 : ¬ a.toNat < 0x80 := by omega
  have h2 : ¬ a.toNat < 0xc2 := by omega
  simp [head?, UInt8.lt_iff_toNat_lt, h1, h2, ha', hb]

theorem head?_three {a b c : UInt8} (r : Bytes) (ha : 0xe0 ≤ a.toNat) (ha' : a.toNat < 0xf0)
    (hb : isSecond a b = true) (hc : isTail c = true) :
    head? (a :: b :: c :: r) = some (three a b c, 2) := by
  have h1 : ¬ a.toNat < 0x80 := by omega
  have h2 : ¬ a.toNat < 0xc2 := by omega
  have h3 : ¬ a.toNat < 0xe0 := by omega
  simp [head?, UInt8.lt_iff_toNat_lt, h1, h2, h3, ha', hb, hc]

theorem head?_four {a b c d : UInt8} (r : Bytes) (ha : 0xf0 ≤ a.toNat) (ha' : a.toNat ≤ 0xf4)
    (hb : isSecond a b = true) (hc : isTail c = true) (hd : isTail d = true) :
    head? (a :: b :: c :: d :: r) = some (four a b c d, 3) := by
  have h1 : ¬ a.toNat < 0x80 := by omega
  have h2 : ¬ a.toNat < 0xc2 := by omega
  have h3 : ¬ a.toNat < 0xe0 := by omega
  have h4 : ¬ a.toNat < 0xf0 := by omega
  simp [head?, UInt8.lt_iff_toNat_lt, UInt8.le_iff_toNat_le, h1, h2, h3, h4, ha', hb, hc, hd]

theorem head?_cases {s : Bytes} {c : Char} {n : Nat} (h : head? s = some (c, n)) :
    (∃ a r, s = a :: r ∧ c = Char.ofNat a.toNat ∧ n = 0 ∧ a.toNat < 0x80) ∨
    (∃ a b r, s = a :: b :: r ∧ c = two a b ∧ n = 1 ∧ 0xc2 ≤ a.toNat ∧ a.toNat < 0xe0 ∧
      isTail b = true) ∨
    (∃ a b d r, s = a :: b :: d :: r ∧ c = three a b d ∧ n = 2 ∧ 0xe0 ≤ a.toNat ∧
      a.toNat < 0xf0 ∧ isSecond a b = true ∧ isTail d = true) ∨
    (∃ a b d e r, s = a :: b :: d :: e :: r ∧ c = four a b d e ∧ n = 3 ∧ 0xf0 ≤ a.toNat ∧
      a.toNat ≤ 0xf4 ∧ isSecond a b = true ∧ isTail d = true ∧ isTail e = true) := by
  unfold head? at h
  split at h
  · cases h
  rename_i a r
  simp only [UInt8.lt_iff_toNat_lt, UInt8.le_iff_toNat_le] at h
  split at h
  · simp only [Option.some.injEq, Prod.mk.injEq] at h
    exact .inl ⟨a, r, rfl, h.1.symm, h.2.symm, ‹_›⟩
  split at h
  · cases h
  -- the lead byte decides on the length; a stray tail or an overlong form is none of the cases
  rename_i hc2
  have hc2 : 0xc2 ≤ a.toNat := Nat.le_of_not_lt hc2
  split at h
  · split at h
    · split at h
      · simp only [Option.some.injEq, Prod.mk.injEq] at h
        exact .inr (.inl ⟨a, _, _, rfl, h.1.symm, h.2.symm, hc2, ‹_›, ‹_›⟩)
      · cases h
    · cases h
  rename_i he0
  have he0 : 0xe0 ≤ a.toNat := Nat.le_of_not_lt he0
  split at h
  · split at h
    · split at h
      · rename_i hbd
        simp only [Option.some.injEq, Prod.mk.injEq, Bool.and_eq_true] at h hbd
        exact .inr (.inr (.inl ⟨a, _, _, _, rfl, h.1.symm, h.2.symm, he0, ‹_›, hbd⟩))
      · cases h
    · cases h
  rename_i hf0
  have hf0 : 0xf0 ≤ a.toNat := Nat.le_of_not_lt hf0
  split at h
  · split at h
    · split at h
      · rename_i hbd
        simp only [Option.some.injEq, Prod.mk.injEq, Bool.and_eq_true, and_assoc] at h hbd
        exact .inr (.inr (.inr ⟨a, _, _, _, _, rfl, h.1.symm, h.2.symm, hf0, ‹_›, hbd⟩))
      · cases h
    · cases h
  · cases h

theorem head?_encodeChar (c : Char) (rest : Bytes) :
    head? (encodeChar c ++ rest) = some (c, (encodeChar c).length - 1) := by
  have hv := toNat_bounds c
  rw [encodeChar_eq]
  split
  case isTrue h =>
    -- each length leaves to arithmetic that the parts of the code point fit their bytes
    have b0 := @byte_toNat c.toNat (by omega)
    rw [List.singleton_append, head?_one _ (by omega), ofNat_eq b0]
    rfl
  split
  case isTrue h =>
    have b0 := @byte_toNat (c.toNat / 64 % 32 + 0xc0) (by omega)
    have b1 := @byte_toNat (c.toNat % 64 + 0x80) (by omega)
    rw [List.cons_append, List.singleton_append,
      head?_two _ (by omega) (by omega) ((isTail_iff _).2 (by omega)), two_eq,
      @ofNat_eq c _ (by omega)]
    rfl
  split
  case isTrue h =>
    have b0 := @byte_toNat (c.toNat / 4096 % 16 + 0xe0) (by omega)
    have b1 := @byte_toNat (c.toNat / 64 % 64 + 0x80) (by omega)
    have b2 := @byte_toNat (c.toNat % 64 + 0x80) (by omega)
    rw [List.cons_append, List.cons_append, List.singleton_append,
      head?_three _ (by omega) (by omega) ((isSecond_iff _ _).2 (by omega))
        ((isTail_iff _).2 (by omega)), three_eq, @ofNat_eq c _ (by omega)]
    rfl
  case isFalse h =>
    have b0 := @byte_toNat (c.toNat / 262144 % 8 + 0xf0) (by omega)
    have b1 := @byte_toNat (c.toNat / 4096 % 64 + 0x80) (by omega)
    have b2 := @byte_toNat (c.toNat / 64 % 64 + 0x80) (by omega)
    have b3 := @byte_toNat (c.toNat % 64 + 0x80) (by omega)
    rw [List.cons_append, List.cons_append, List.cons_append, List.singleton_append,
      head?_four _ (by omega) (by omega) ((isSecond_iff _ _).2 (by omega))
        ((isTail_iff _).2 (by omega)) ((isTail_iff _).2 (by omega)), four_eq,
      @ofNat_eq c _ (by omega)]
    rfl

theorem eq_encodeChar_of_head? {s : Bytes} {c : Char} {n : Nat} (h : head? s = some (c, n)) :
    (encodeChar c).length = n + 1 ∧ encodeChar c ++ List.drop (n + 1) s = s := by
  obtain ⟨a, r, rfl, rfl, rfl, ha⟩ | ⟨a, b, r, rfl, hc, rfl, ha, ha', hb⟩ |
    ⟨a, b, d, r, rfl, hc, rfl, ha, ha', hb, hd⟩ |
    ⟨a, b, d, e, r, rfl, hc, rfl, ha, ha', hb, hd, he⟩ := head?_cases h
  · have hn := @toNat_ofNat a.toNat (by omega)
    rw [encodeChar_eq, hn, if_pos (by omega), byte_eq rfl]
    exact ⟨rfl, rfl⟩
  · rw [isTail_iff] at hb
    have hn := @toNat_ofNat ((a.toNat - 0xc0) * 64 + (b.toNat - 0x80)) (by omega)
    rw [hc, two_eq, encodeChar_eq, hn, if_neg (by omega), if_pos (by omega),
      @byte_eq a _ (by omega), @byte_eq b _ (by omega)]
    exact ⟨rfl, rfl⟩
  · rw [isSecond_iff] at hb
    rw [isTail_iff] at hd
    have hn := @toNat_ofNat
      (((a.toNat - 0xe0) * 64 + (b.toNat - 0x80)) * 64 + (d.toNat - 0x80)) (by omega)
    rw [hc, three_eq, encodeChar_eq, hn, if_neg (by omega), if_neg (by omega), if_pos (by omega),
      @byte_eq a _ (by omega), @byte_eq b _ (by omega), @byte_eq d _ (by omega)]
    exact ⟨rfl, rfl⟩
  · rw [isSecond_iff] at hb
    rw [isTail_iff] at hd he
    have hn := @toNat_ofNat
      ((((a.toNat - 0xf0) * 64 + (b.toNat - 0x80)) * 64 + (d.toNat - 0x80)) * 64 +
        (e.toNat - 0x80)) (by omega)
    rw [hc, four_eq, encodeChar_eq, hn, if_neg (by omega), if_neg (by omega), if_neg (by omega),
      @byte_eq a _ (by omega), @byte_eq b _ (by omega), @byte_eq d _ (by omega),
      @byte_eq e _ (by omega)]
    exact ⟨rfl, rfl⟩

theorem validFrom_drop (n : Nat) (s : Bytes) : validFrom n s = validFrom 0 (s.drop n) := by
  induction n generalizing s with
  | zero => rfl
  | succ n ih =>
    cases s with
    | nil => rfl
    | cons b r => exact ih r

theorem validFrom_encodeChar (c : Char) (rest : Bytes) :
    validFrom 0 (encodeChar c ++ rest) = validFrom 0 rest := by
  have hhead := head?_encodeChar c rest
  cases hc : encodeChar c with
  | nil => exact absurd hc (String.utf8EncodeChar_ne_nil)
  | cons b r =>
    rw [hc, List.cons_append] at hhead
    rw [List.cons_append, validFrom, hhead]
    change validFrom r.length (r ++ rest) = _
    rw [validFrom_drop, List.drop_left]

theorem valid_iff (s : Bytes) : valid s = true ↔ IsEncoding s := by
  constructor
  · intro h
    -- on the length: what is left after one character is shorter
    induction hn : s.length using Nat.strongRecOn generalizing s with
    | ind n ih =>
      cases s with
      | nil => exact ⟨[], rfl⟩
      | cons b r =>
        rw [valid, validFrom] at h
        split at h
        case h_2 => cases h
        case h_1 c more hhead =>
          obtain ⟨-, hs⟩ := eq_encodeChar_of_head? hhead
          rw [validFrom_drop] at h
          have hshorter : (r.drop more).length < n := by
            rw [← hn, List.length_drop, List.length_cons]
            omega
          obtain ⟨cs, hcs⟩ := ih (r.drop more).length hshorter _ h rfl
          refine ⟨c :: cs, ?_⟩
          rw [List.flatMap_cons, ← hcs]
          exact hs.symm
  · rintro ⟨cs, rfl⟩
    induction cs with
    | nil => rfl
    | cons c cs ih =>
      rw [List.flatMap_cons, valid, validFrom_encodeChar]
      exact ih

theorem decodeOnto_drop (seen : List Char) (n : Nat) (s : Bytes) :
    decodeOnto seen n s = decodeOnto seen 0 (s.drop n) := by
  induction n generalizing s with
  | zero => rfl
  | succ n ih =>
    cases s with
    | nil => rfl
    | cons b r => exact ih r

theorem decodeOnto_encodeChar (seen : List Char) (c : Char) (rest : Bytes) :
    decodeOnto seen 0 (encodeChar c ++ rest) = decodeOnto (c :: seen) 0 rest := by
  have hhead := head?_encodeChar c rest
  cases hc : encodeChar c with
  | nil => exact absurd hc (String.utf8EncodeChar_ne_nil)
  | cons b r =>
    rw [hc, List.cons_append] at hhead
    rw [List.cons_append, decodeOnto, hhead]
    change decodeOnto (c :: seen) r.length (r ++ rest) = _
    rw [decodeOnto_drop, List.drop_left]

theorem decode_flatMap_encodeChar (cs : List Char) : decode (cs.flatMap encodeChar) = cs := by
  suffices h : ∀ seen, decodeOnto seen 0 (cs.flatMap encodeChar) = seen.reverse ++ cs from h []
  induction cs with
  | nil =>
    intro seen
    rw [List.append_nil]
    rfl
  | cons c cs ih =>
    intro seen
    rw [List.flatMap_cons, decodeOnto_encodeChar, ih, List.reverse_cons, List.append_assoc]
    rfl

end CodecGen.Text.Utf8
