import MacroSweep.Text.Utf8

/-! A text is read back from its bytes. -/
namespace MacroSweep.Text

variable {low high : UInt8} {ranges : List (UInt8 × UInt8)} {bytes rest : List UInt8}
  {n value : Nat}

theorem encode_append (cs ds : List Char) : encode (cs ++ ds) = encode cs ++ encode ds :=
  List.flatMap_append

theorem readFollowers_nil (value : Nat) (bytes : List UInt8) :
    readFollowers value [] bytes = (some value, bytes) := rfl

/-- A byte within the range for its place is taken. -/
theorem readFollowers_cons (hlow : low.toNat ≤ n) (hhigh : n ≤ high.toNat) :
    readFollowers value ((low, high) :: ranges) (UInt8.ofNat n :: bytes) =
      readFollowers (value * 64 + n % 64) ranges bytes := by
  have hn : (UInt8.ofNat n).toNat = n :=
    UInt8.toNat_ofNat_of_lt (Nat.lt_of_le_of_lt hhigh high.toNat_lt)
  have hrange : low ≤ UInt8.ofNat n ∧ UInt8.ofNat n ≤ high := by
    rw [UInt8.le_iff_toNat_le, UInt8.le_iff_toNat_le, hn]
    exact ⟨hlow, hhigh⟩
  rw [readFollowers, if_pos hrange, hn]

/-- What a first byte gives, by its number. -/
theorem followers?_ofNat : ∀ n < 256, followers? (UInt8.ofNat n) =
    if n < 0x80 then some (n, [])
    else if n < 0xC2 then none
    else if n < 0xE0 then some (n - 0xC0, [(0x80, 0xBF)])
    else if n = 0xE0 then some (0, [(0xA0, 0xBF), (0x80, 0xBF)])
    else if n = 0xED then some (0xD, [(0x80, 0x9F), (0x80, 0xBF)])
    else if n < 0xF0 then some (n - 0xE0, [(0x80, 0xBF), (0x80, 0xBF)])
    else if n = 0xF0 then some (0, [(0x90, 0xBF), (0x80, 0xBF), (0x80, 0xBF)])
    else if n < 0xF4 then some (n - 0xF0, [(0x80, 0xBF), (0x80, 0xBF), (0x80, 0xBF)])
    else if n = 0xF4 then some (4, [(0x80, 0x8F), (0x80, 0xBF), (0x80, 0xBF)])
    else none := by
  decide +kernel

/-- Three bytes: what the second may be leaves out codes that fewer bytes give, and surrogates. -/
theorem followers?_three {m : Nat} (hn : 0xE0 ≤ n ∧ n < 0xF0) (hm : 0x80 ≤ m ∧ m ≤ 0xBF)
    (hlow : n = 0xE0 → 0xA0 ≤ m) (hhigh : n = 0xED → m ≤ 0x9F) :
    ∃ low high : UInt8, followers? (UInt8.ofNat n) = some (n - 0xE0, [(low, high), (0x80, 0xBF)]) ∧
      low.toNat ≤ m ∧ m ≤ high.toNat := by
  have h := followers?_ofNat n (by omega)
  rw [if_neg (by omega), if_neg (by omega), if_neg (by omega)] at h
  by_cases h0 : n = 0xE0
  · rw [if_pos h0] at h
    exact ⟨0xA0, 0xBF, by rw [h, h0], hlow h0, hm.2⟩
  by_cases hd : n = 0xED
  · rw [if_neg h0, if_pos hd] at h
    exact ⟨0x80, 0x9F, by rw [h, hd], hm.1, hhigh hd⟩
  · rw [if_neg h0, if_neg hd, if_pos hn.2] at h
    exact ⟨0x80, 0xBF, h, hm.1, hm.2⟩

/-- Four bytes: what the second may be leaves out codes that fewer bytes give, and those too
large. -/
theorem followers?_four {m : Nat} (hn : 0xF0 ≤ n ∧ n ≤ 0xF4) (hm : 0x80 ≤ m ∧ m ≤ 0xBF)
    (hlow : n = 0xF0 → 0x90 ≤ m) (hhigh : n = 0xF4 → m ≤ 0x8F) :
    ∃ low high : UInt8,
      followers? (UInt8.ofNat n) =
        some (n - 0xF0, [(low, high), (0x80, 0xBF), (0x80, 0xBF)]) ∧
      low.toNat ≤ m ∧ m ≤ high.toNat := by
  have h := followers?_ofNat n (by omega)
  rw [if_neg (by omega), if_neg (by omega), if_neg (by omega), if_neg (by omega),
    if_neg (by omega), if_neg (by omega)] at h
  by_cases h0 : n = 0xF0
  · rw [if_pos h0] at h
    exact ⟨0x90, 0xBF, by rw [h, h0], hlow h0, hm.2⟩
  by_cases h4 : n = 0xF4
  · rw [if_neg h0, if_neg (by omega), if_pos h4] at h
    exact ⟨0x80, 0x8F, by rw [h, h4], hm.1, hhigh h4⟩
  · rw [if_neg h0, if_pos (by omega)] at h
    exact ⟨0x80, 0xBF, h, hm.1, hm.2⟩

/-- The bytes of a character are read as the character. -/
theorem readChar_of_encode {c : Char} {first : UInt8} {more : List UInt8}
    (h : String.utf8EncodeChar c = first :: more) (rest : List UInt8) :
    readChar first (more ++ rest) = (some c, rest) := by
  have hvalid : c.toNat < 0xD800 ∨ 0xDFFF < c.toNat ∧ c.toNat < 0x110000 := c.valid
  have hc : Char.ofNat c.toNat = c := Char.ofNat_toNat c
  generalize hv : c.toNat = v at hvalid hc
  have hval : c.val.toNat = v := hv
  have hlast : (0x80 : UInt8).toNat ≤ v % 64 + 128 ∧ v % 64 + 128 ≤ (0xBF : UInt8).toNat := by
    simp; omega
  simp only [String.utf8EncodeChar, hval] at h
  split at h
  · cases h
    simp [readChar, followers?_ofNat v (by omega), show v < 128 by omega, readFollowers_nil, hc]
  split at h
  · cases h
    have hfirst := followers?_ofNat (v / 64 % 32 + 192) (by omega)
    rw [if_neg (by omega), if_neg (by omega), if_pos (by omega)] at hfirst
    have hcode : (v / 64 % 32 + 192 - 192) * 64 + (v % 64 + 128) % 64 = v := by omega
    simp only [readChar, hfirst, List.cons_append, List.nil_append,
      readFollowers_cons hlast.1 hlast.2, readFollowers_nil, hcode, Option.map_some, hc]
  split at h
  · cases h
    obtain ⟨low, high, hfirst, hlow, hhigh⟩ := followers?_three
      (n := v / 4096 % 16 + 224) (m := v / 64 % 64 + 128)
      (by omega) (by omega) (by omega) (by omega)
    have hcode : ((v / 4096 % 16 + 224 - 224) * 64 + (v / 64 % 64 + 128) % 64) * 64 +
        (v % 64 + 128) % 64 = v := by omega
    simp only [readChar, hfirst, List.cons_append, List.nil_append, readFollowers_cons hlow hhigh,
      readFollowers_cons hlast.1 hlast.2, readFollowers_nil, hcode, Option.map_some, hc]
  · cases h
    obtain ⟨low, high, hfirst, hlow, hhigh⟩ := followers?_four
      (n := v / 262144 % 8 + 240) (m := v / 4096 % 64 + 128)
      (by omega) (by omega) (by omega) (by omega)
    have hthird : (0x80 : UInt8).toNat ≤ v / 64 % 64 + 128 ∧
        v / 64 % 64 + 128 ≤ (0xBF : UInt8).toNat := by simp; omega
    have hcode : (((v / 262144 % 8 + 240 - 240) * 64 + (v / 4096 % 64 + 128) % 64) * 64 +
        (v / 64 % 64 + 128) % 64) * 64 + (v % 64 + 128) % 64 = v := by omega
    simp only [readChar, hfirst, List.cons_append, List.nil_append, readFollowers_cons hlow hhigh,
      readFollowers_cons hthird.1 hthird.2, readFollowers_cons hlast.1 hlast.2, readFollowers_nil,
      hcode, Option.map_some, hc]

theorem utf8EncodeChar_of_lt {c : Char} (h : c.toNat < 0x80) :
    String.utf8EncodeChar c = [UInt8.ofNat c.toNat] := by
  have hval : c.val.toNat ≤ 127 := Nat.le_of_lt_succ h
  simp only [String.utf8EncodeChar, if_pos hval]
  rfl

/-- No byte of a character that takes several is the byte of a character that takes one. -/
theorem le_of_mem_utf8EncodeChar {c : Char} {b : UInt8} (h : 0x80 ≤ c.toNat)
    (hb : b ∈ String.utf8EncodeChar c) : 0x80 ≤ b.toNat := by
  have hval : 128 ≤ c.val.toNat := h
  have hrange : ∀ n, 128 ≤ n → n < 256 → 128 ≤ (UInt8.ofNat n).toNat := by
    intro n hlow hhigh
    rwa [UInt8.toNat_ofNat_of_lt' hhigh]
  simp only [String.utf8EncodeChar] at hb
  split at hb
  · omega
  split at hb
  · simp only [List.mem_cons, List.not_mem_nil, or_false] at hb
    rcases hb with rfl | rfl <;> exact hrange _ (by omega) (by omega)
  split at hb
  · simp only [List.mem_cons, List.not_mem_nil, or_false] at hb
    rcases hb with rfl | rfl | rfl <;> exact hrange _ (by omega) (by omega)
  · simp only [List.mem_cons, List.not_mem_nil, or_false] at hb
    rcases hb with rfl | rfl | rfl | rfl <;> exact hrange _ (by omega) (by omega)

theorem toNat_byteChar (b : UInt8) : (byteChar b).toNat = b.toNat := by
  have hb := b.toNat_lt
  have hvalid : b.toNat.isValidChar := .inl (by omega)
  rw [byteChar, Char.ofNat, dif_pos hvalid]
  rfl

theorem byteChars_append (cs ds : List Char) :
    byteChars (cs ++ ds) = byteChars cs ++ byteChars ds := by
  simp [byteChars, encode_append]

/-- The bytes of characters that take one each are these characters. -/
theorem byteChars_of_ascii {cs : List Char} (h : ∀ c ∈ cs, c.toNat < 0x80) : byteChars cs = cs := by
  induction cs with
  | nil => rfl
  | cons c cs ih =>
    have hc := h c (by simp)
    have hbyte : byteChars [c] = [c] := by
      have hn : (UInt8.ofNat c.toNat).toNat = c.toNat :=
        UInt8.toNat_ofNat_of_lt' (Nat.lt_trans hc (by decide))
      simp [byteChars, encode, utf8EncodeChar_of_lt hc, byteChar, hn]
    rw [← List.singleton_append, byteChars_append, hbyte, ih fun d hd => h d (by simp [hd])]

theorem pieces_encode (cs : List Char) : pieces (encode cs) = cs.map some := by
  induction cs with
  | nil => simp [encode, pieces]
  | cons c cs ih =>
    obtain ⟨first, more, h⟩ := List.exists_cons_of_ne_nil (String.utf8EncodeChar_ne_nil (c := c))
    have hbytes : encode (c :: cs) = first :: (more ++ encode cs) := by
      simp [encode, h]
    rw [hbytes, pieces, readChar_of_encode h, ih]
    rfl

/-- A text is read back from its bytes. -/
theorem decode?_encode (cs : List Char) : decode? (encode cs) = some cs := by
  rw [decode?, pieces_encode]
  induction cs with
  | nil => rfl
  | cons c cs ih => simp [ih]

end MacroSweep.Text
