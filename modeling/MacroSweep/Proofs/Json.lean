import MacroSweep.Json.Reader
import MacroSweep.Proofs.Text
import MacroSweep.Proofs.Utf8

/-! A JSON value is read back from its compact text, with whatever follows left over. -/
namespace MacroSweep.Json

open Text

variable {c : Char} {cs rest r : List Char} {j : Json}

section Equations

/-- What a reader gives, without the proof that it leaves less. -/
def taken {α : Type} {cs : List Char} (x : Option (α × Left cs)) : Option (α × List Char) :=
  x.map fun y => (y.1, y.2.1)

theorem taken_readValue_array_nil (h : skip r = ']' :: rest) :
    taken (readValue ('[' :: r)) = some (.array [], rest) := by
  rw [readValue]
  split
  · next h' =>
    rw [h] at h'
    cases h'
    rfl
  · next h' => exact absurd h (h' rest)

theorem taken_readValue_array (h : ∀ rest, skip r ≠ ']' :: rest) :
    taken (readValue ('[' :: r)) = (taken (readItems r)).map fun x => (.array x.1, x.2) := by
  rw [readValue]
  split
  · next h' => exact absurd h' (h _)
  · split
    · next h' => simp [h', taken]
    · next h' => simp [h', taken]

theorem taken_readValue_object_nil (h : skip r = '\x7d' :: rest) :
    taken (readValue ('\x7b' :: r)) = some (.object [], rest) := by
  rw [readValue]
  split
  · next h' =>
    rw [h] at h'
    cases h'
    rfl
  · next h' => exact absurd h (h' rest)

theorem taken_readValue_object (h : ∀ rest, skip r ≠ '\x7d' :: rest) :
    taken (readValue ('\x7b' :: r)) = (taken (readFields r)).map fun x => (ofFields x.1, x.2) := by
  rw [readValue]
  split
  · next h' => exact absurd h' (h _)
  · split
    · next h' => simp [h', taken]
    · next h' => simp [h', taken]

theorem taken_readValue_string (r : List Char) :
    taken (readValue ('"' :: r)) = (readString r).map fun x => (ofString x.1, x.2) := by
  rw [readValue]
  split
  · next h => simp [h, taken]
  · next h => simp [h, taken]

theorem taken_readValue_number (h : cs.head?.any Char.isDigit = true) :
    taken (readValue cs) = readNumber cs := by
  rw [readValue.eq_def]
  split
  iterate 6 · cases h
  · split
    · next h' => simp [h', taken]
    · next h' => simp [h', taken]

theorem exists_of_taken {α : Type} {x : Option (α × Left cs)} {a : α}
    (h : taken x = some (a, rest)) : ∃ hr, x = some (a, ⟨rest, hr⟩) := by
  obtain ⟨⟨b, l⟩, hx, he⟩ := Option.map_eq_some_iff.mp h
  cases he
  exact ⟨l.2, hx⟩

/-- What follows the first item decides how reading goes on. -/
theorem taken_readItems (hv : taken (readValue (skip cs)) = some (j, r)) :
    taken (readItems cs) =
      match skip r with
      | ']' :: rest => some ([j], rest)
      | ',' :: rest => (taken (readItems rest)).map fun x => (j :: x.1, x.2)
      | _ => none := by
  obtain ⟨hr, hv⟩ := exists_of_taken hv
  rw [readItems, hv]
  dsimp only
  split
  · next h => simp [h, taken]
  · next h =>
    simp only [h]
    split
    · next h' => simp [h', taken]
    · next h' => simp [h', taken]
  · next hclose hcomma =>
    split
    · next h => exact absurd h (hclose _)
    · next h => exact absurd h (hcomma _)
    · rfl

variable {r1 r2 r3 : List Char} {key : List UInt8}

/-- What follows the first field decides how reading goes on. -/
theorem taken_readFields (hc : skip cs = '"' :: r) (hs : readString r = some (key, r1))
    (h1 : skip r1 = ':' :: r2) (hv : taken (readValue (skip r2)) = some (j, r3)) :
    taken (readFields cs) =
      match skip r3 with
      | '\x7d' :: rest => some ([(key, j)], rest)
      | ',' :: rest => (taken (readFields rest)).map fun x => ((key, j) :: x.1, x.2)
      | _ => none := by
  obtain ⟨hr, hv⟩ := exists_of_taken hv
  rw [readFields]
  split
  · next h =>
    rw [hc] at h
    cases h
    split
    · next h =>
      rw [hs] at h
      cases h
      split
      · next h =>
        rw [h1] at h
        cases h
        rw [hv]
        dsimp only
        split
        · next h => simp [h, taken]
        · next h =>
          simp only [h]
          split
          · next h' => simp [h', taken]
          · next h' => simp [h', taken]
        · next hclose hcomma =>
          split
          · next h => exact absurd h (hclose _)
          · next h => exact absurd h (hcomma _)
          · rfl
      · next h => exact absurd h1 (h _)
    · next h => exact absurd hs (h _ _)
  · next h => exact absurd hc (h _)

end Equations

section Strings

/-- Whether a byte of a string stands for itself. -/
def IsBare (b : UInt8) : Prop := 0x20 ≤ b.toNat ∧ b.toNat ≠ 0x22 ∧ b.toNat ≠ 0x5C

theorem readString_of_readUnit {bytes : List UInt8} (hq : cs.head? ≠ some '"')
    (h : readUnit cs = some (bytes, rest)) :
    readString cs = (readString rest).map fun x => (bytes ++ x.1, x.2) := by
  rw [readString.eq_def]
  split
  · exact absurd rfl hq
  · split
    · next h' =>
      rw [h] at h'
      cases h'
    · next h' =>
      rw [h] at h'
      cases h'
      rfl

theorem readUnit_bare {b : UInt8} (h : IsBare b) (cs : List Char) :
    readUnit (byteChar b :: cs) = some ([b], cs) := by
  have hn := toNat_byteChar b
  have hb : UInt8.ofNat (byteChar b).toNat = b := by simp [hn]
  have hslash : byteChar b ≠ '\\' := by
    intro he
    rw [he] at hn
    exact h.2.2 hn.symm
  have hspace : ¬(byteChar b).toNat < 0x20 := by
    rw [hn]
    exact Nat.not_lt.mpr h.1
  simp [readUnit, hslash, hspace, hb]

theorem readUnit_escaped {e : Char} (he : escaped? e = some c) (cs : List Char) :
    readUnit ('\\' :: e :: cs) = some (encode [c], cs) := by
  have hu : e ≠ 'u' := by
    rintro rfl
    cases he
  rw [readUnit, he]
  · rfl
  · intro a b c d rest h
    exact absurd h hu

/-- Bytes that stand for themselves are read off a string. -/
theorem readString_bare {bytes : List UInt8} (h : ∀ b ∈ bytes, IsBare b) (cs : List Char) :
    readString (bytes.map byteChar ++ cs) = (readString cs).map fun x => (bytes ++ x.1, x.2) := by
  induction bytes with
  | nil => simp
  | cons b bytes ih =>
    have hb := h b (by simp)
    have hq : (byteChar b :: (bytes.map byteChar ++ cs)).head? ≠ some '"' := by
      intro he
      have hn := toNat_byteChar b
      rw [List.head?_cons, Option.some.injEq] at he
      rw [he] at hn
      exact hb.2.1 hn.symm
    rw [List.map_cons, List.cons_append, readString_of_readUnit hq (readUnit_bare hb _),
      ih fun b' hb' => h b' (by simp [hb'])]
    simp [Function.comp_def]

theorem isBare_of_mem_utf8EncodeChar {b : UInt8} (hlow : 0x20 ≤ c.toNat) (hq : c ≠ '"')
    (hs : c ≠ '\\') (hb : b ∈ String.utf8EncodeChar c) : IsBare b := by
  by_cases hc : c.toNat < 0x80
  · rw [utf8EncodeChar_of_lt hc, List.mem_singleton] at hb
    have hn : b.toNat = c.toNat := by
      rw [hb]
      exact UInt8.toNat_ofNat_of_lt' (Nat.lt_trans hc (by decide))
    refine ⟨by omega, ?_, ?_⟩
    · rw [hn]
      exact fun he => hq (Char.toNat_inj.mp he)
    · rw [hn]
      exact fun he => hs (Char.toNat_inj.mp he)
  · have := le_of_mem_utf8EncodeChar (Nat.le_of_not_lt hc) hb
    exact ⟨by omega, by omega, by omega⟩

theorem hex4?_hexDigit :
    ∀ n < 0x20, hex4? '0' '0' (hexDigit (n / 16)) (hexDigit (n % 16)) = some n := by
  decide

theorem toNat_hexDigit_lt : ∀ d < 16, (hexDigit d).toNat < 0x80 := by decide

/-- A control character is read back from its code. -/
theorem readUnit_control (h : c.toNat < 0x20) (cs : List Char) :
    readUnit (['\\', 'u', '0', '0', hexDigit (c.toNat / 16), hexDigit (c.toNat % 16)] ++ cs) =
      some (encode [c], cs) := by
  have hplain : plainChar? c.toNat = some c := by
    rw [plainChar?, if_neg (by omega), Char.ofNat_toNat]
  simp [readUnit, hex4?_hexDigit _ h, readCode, hplain]

/-- A character is read back from its text inside quotes. -/
theorem readString_escapeChar (c : Char) (cs : List Char) :
    readString (byteChars (escapeChar c) ++ cs) =
      (readString cs).map fun x => (encode [c] ++ x.1, x.2) := by
  have hescaped : ∀ e, e.toNat < 0x80 → escaped? e = some c →
      readString (byteChars ['\\', e] ++ cs) =
        (readString cs).map fun x => (encode [c] ++ x.1, x.2) := by
    intro e hascii he
    rw [byteChars_of_ascii (by simpa using hascii)]
    exact readString_of_readUnit (by simp) (readUnit_escaped he cs)
  unfold escapeChar
  split
  iterate 7 · exact hescaped _ (by decide) rfl
  · next hq hs _ _ _ _ _ =>
    split
    · next hlow =>
      have hascii : ∀ d ∈ ['\\', 'u', '0', '0', hexDigit (c.toNat / 16), hexDigit (c.toNat % 16)],
          d.toNat < 0x80 := by
        have h1 := toNat_hexDigit_lt (c.toNat / 16) (by omega)
        have h2 := toNat_hexDigit_lt (c.toNat % 16) (by omega)
        simp [h1, h2]
      rw [byteChars_of_ascii hascii]
      exact readString_of_readUnit (by simp) (readUnit_control hlow cs)
    · next hlow =>
      have hbare : ∀ b ∈ String.utf8EncodeChar c, IsBare b := fun b hb =>
        isBare_of_mem_utf8EncodeChar (Nat.le_of_not_lt hlow) hq hs hb
      have hbytes : encode [c] = String.utf8EncodeChar c := by simp [encode]
      rw [byteChars, hbytes]
      exact readString_bare hbare cs

/-- A text is read back from between its quotes. -/
theorem readString_escaped (s rest : List Char) :
    readString (byteChars (s.flatMap escapeChar) ++ '"' :: rest) = some (encode s, rest) := by
  induction s with
  | nil => rw [readString.eq_def]; rfl
  | cons c s ih =>
    rw [List.flatMap_cons, byteChars_append, List.append_assoc, readString_escapeChar, ih]
    simp [encode]

theorem ofString_encode (s : List Char) : ofString (encode s) = .string (String.ofList s) := by
  rw [ofString, decode?_encode]

end Strings

section Numbers

/-- Whether a text does not go on with a number that stands before it. -/
def EndsNumber (rest : List Char) : Prop :=
  ∀ c ∈ rest.head?, c.isDigit = false ∧ c ≠ '.' ∧ c ≠ 'e' ∧ c ≠ 'E'

theorem endsNumber_cons (h : c.isDigit = false ∧ c ≠ '.' ∧ c ≠ 'e' ∧ c ≠ 'E') (cs : List Char) :
    EndsNumber (c :: cs) := by
  rintro d ⟨⟩
  exact h

theorem digits?_append {ds : List Char} (hne : ds ≠ []) (hd : ∀ c ∈ ds, c.isDigit = true)
    (hr : EndsNumber rest) : digits? (ds ++ rest) = some (ds, rest) := by
  have hrest : rest.takeWhile Char.isDigit = [] ∧ rest.dropWhile Char.isDigit = rest := by
    cases rest with
    | nil => simp
    | cons c cs =>
      have hc := (hr c rfl).1
      simp [hc]
  have htake : (ds ++ rest).takeWhile Char.isDigit = ds := by
    rw [List.takeWhile_append_of_pos hd, hrest.1, List.append_nil]
  have hdrop : (ds ++ rest).dropWhile Char.isDigit = rest := by
    rw [List.dropWhile_append_of_pos hd, hrest.2]
  rw [digits?, htake, hdrop]
  cases ds with
  | nil => exact absurd rfl hne
  | cons c ds => rfl

theorem fraction?_of_endsNumber (hr : EndsNumber rest) : fraction? rest = some ([], rest) := by
  unfold fraction?
  split
  · exact absurd rfl (hr _ rfl).2.1
  · rfl

theorem exponent?_of_endsNumber (hr : EndsNumber rest) : exponent? rest = some ([], rest) := by
  cases rest with
  | nil => rfl
  | cons c cs =>
    have hc := hr c rfl
    unfold exponent?
    exact if_neg (not_or.mpr hc.2.2)

theorem wholePart?_toDigits (n : Nat) (hr : EndsNumber rest) :
    wholePart? (Nat.toDigits 10 n ++ rest) = some (Nat.toDigits 10 n, rest) := by
  have hdigits : digits? (Nat.toDigits 10 n ++ rest) = some (Nat.toDigits 10 n, rest) :=
    digits?_append Nat.toDigits_ne_nil
      (fun _ hc => isDigit_of_mem_toDigits hc) hr
  obtain ⟨c, ds, hc, -⟩ := exists_toDigits_eq_cons n
  by_cases hzero : c = '0'
  · subst hzero
    rw [hc, (toDigits_eq_zero_cons hc).2]
    rfl
  · rw [hc, List.cons_append] at hdigits ⊢
    rw [wholePart?, hdigits]
    intro rest h
    exact hzero (List.cons.inj h).1

/-- A natural is read back from its digits. -/
theorem readNumber_toDigits (n : Nat) (hr : EndsNumber rest) :
    readNumber (Nat.toDigits 10 n ++ rest) = some (.nat n, rest) := by
  have hsign : (Nat.toDigits 10 n ++ rest).takeWhile (· == '-') = [] := by
    obtain ⟨c, ds, hc, hd⟩ := exists_toDigits_eq_cons n
    have hne : (c == '-') = false := by
      rw [beq_eq_false_iff_ne]
      rintro rfl
      cases hd
    simp [hc, hne]
  have hbound : n < Nat.pow 10 (Nat.toDigits 10 n).length :=
    (Nat.length_toDigits_le_iff (by decide) Nat.length_toDigits_pos).mp (Nat.le_refl _)
  have hvalue : ofParts [] (Nat.toDigits 10 n) [] [] = .nat n := by
    rw [ofParts, addDigits_toDigits hbound]
    rfl
  simp [readNumber, hsign, wholePart?_toDigits n hr, fraction?_of_endsNumber hr,
    exponent?_of_endsNumber hr, hvalue]

end Numbers

section Values

mutual

/-- Whether a value has no number but naturals and nothing garbled. -/
def isPlain : Json → Bool
  | .number _ | .garbled => false
  | .array items => arePlain items
  | .object fields => fieldsPlain fields
  | _ => true

def arePlain : List Json → Bool
  | [] => true
  | v :: vs => isPlain v && arePlain vs

def fieldsPlain : List (String × Json) → Bool
  | [] => true
  | (_, v) :: fs => isPlain v && fieldsPlain fs

end

/-- The bytes of a value's text, each as a character. -/
def written (j : Json) : List Char := byteChars j.compact.toList

/-- The bytes of items with commas between them. -/
def writtenItems (items : List Json) : List Char :=
  byteChars (",".intercalate (compactItems items)).toList

/-- The bytes of fields with commas between them. -/
def writtenFields (fields : List (String × Json)) : List Char :=
  byteChars (",".intercalate (compactFields fields)).toList

theorem byteChars_quote (s : String) (rest : List Char) :
    byteChars (quote s).toList ++ rest =
      '"' :: (byteChars (s.toList.flatMap escapeChar) ++ '"' :: rest) := by
  have hq : byteChars ['"'] = ['"'] := by decide
  rw [quote, String.toList_ofList, ← List.singleton_append, byteChars_append, byteChars_append, hq]
  simp

theorem written_string (s : String) (rest : List Char) :
    written (.string s) ++ rest =
      '"' :: (byteChars (s.toList.flatMap escapeChar) ++ '"' :: rest) := by
  rw [written, compact, byteChars_quote]

theorem written_array (items : List Json) :
    written (.array items) = '[' :: (writtenItems items ++ [']']) := by
  have hopen : byteChars "[".toList = ['['] := by decide
  have hclose : byteChars "]".toList = [']'] := by decide
  simp only [written, writtenItems, compact, String.toList_append, byteChars_append, hopen, hclose]
  simp

theorem written_object (fields : List (String × Json)) :
    written (.object fields) = '\x7b' :: (writtenFields fields ++ ['\x7d']) := by
  have hopen : byteChars "\x7b".toList = ['\x7b'] := by decide
  have hclose : byteChars "\x7d".toList = ['\x7d'] := by decide
  simp only [written, writtenFields, compact, String.toList_append, byteChars_append, hopen, hclose]
  simp

theorem written_nat (n : Nat) : written (.nat n) = Nat.toDigits 10 n := by
  rw [written, compact, Nat.toString_eq_ofList_toDigits, String.toList_ofList]
  apply byteChars_of_ascii
  intro c hc
  have hd : c.isDigit = true := isDigit_of_mem_toDigits hc
  have hle : c.toNat ≤ 57 := UInt32.le_iff_toNat_le.mp (by simpa [Char.isDigit] using hd :
    48 ≤ c.val ∧ c.val ≤ 57).2
  omega

theorem writtenItems_cons (v w : Json) (vs : List Json) :
    writtenItems (v :: w :: vs) = written v ++ ',' :: writtenItems (w :: vs) := by
  have hcomma : byteChars ",".toList = [','] := by decide
  simp only [writtenItems, written, compactItems, String.intercalate_cons_cons,
    String.toList_append, byteChars_append, hcomma]
  simp

theorem writtenFields_singleton (k : String) (v : Json) :
    writtenFields [(k, v)] = byteChars (quote k).toList ++ ':' :: written v := by
  have hcolon : byteChars ":".toList = [':'] := by decide
  simp only [writtenFields, written, compactFields, String.intercalate_singleton,
    String.toList_append, byteChars_append, hcolon]
  simp

theorem writtenFields_cons (k : String) (v : Json) (f : String × Json) (fs : List (String × Json)) :
    writtenFields ((k, v) :: f :: fs) =
      writtenFields [(k, v)] ++ ',' :: writtenFields (f :: fs) := by
  have hcomma : byteChars ",".toList = [','] := by decide
  simp only [writtenFields, compactFields, String.intercalate_cons_cons,
    String.intercalate_singleton, String.toList_append, byteChars_append, hcomma]
  simp

theorem skip_cons (h : isSpace c = false) (cs : List Char) : skip (c :: cs) = c :: cs := by
  simp [skip, h]

/-- The text of a value opens with no blank and closes no array. -/
theorem written_head (h : j.isPlain = true) :
    ∃ c cs, written j = c :: cs ∧ isSpace c = false ∧ c ≠ ']' := by
  cases j with
  | null => exact ⟨'n', "ull".toList, by decide, by decide, by decide⟩
  | bool b =>
    cases b with
    | true => exact ⟨'t', "rue".toList, by decide, by decide, by decide⟩
    | false => exact ⟨'f', "alse".toList, by decide, by decide, by decide⟩
  | nat n =>
    obtain ⟨c, ds, hc, hd⟩ := exists_toDigits_eq_cons n
    refine ⟨c, ds, by rw [written_nat, hc], ?_, ?_⟩
    · rw [Bool.eq_false_iff]
      intro hs
      simp only [isSpace, Bool.or_eq_true, beq_iff_eq] at hs
      rcases hs with ((rfl | rfl) | rfl) | rfl <;> cases hd
    · rintro rfl
      cases hd
  | string s => exact ⟨'"', _, by simpa using written_string s [], by decide, by decide⟩
  | array items => exact ⟨'[', _, written_array items, by decide, by decide⟩
  | object fields => exact ⟨'\x7b', _, written_object fields, by decide, by decide⟩
  | number spelling => cases h
  | garbled => cases h

theorem skip_written (h : j.isPlain = true) (rest : List Char) :
    skip (written j ++ rest) = written j ++ rest := by
  obtain ⟨c, cs, hw, hspace, -⟩ := written_head h
  rw [hw]
  exact skip_cons hspace _

/-- The text of fields opens with the quote of the first key. -/
theorem writtenFields_append (k : String) (v : Json) (fs : List (String × Json))
    (rest : List Char) : writtenFields ((k, v) :: fs) ++ rest =
      '"' :: (byteChars (k.toList.flatMap escapeChar) ++ '"' :: ':' :: (written v ++
        (match fs with
          | [] => rest
          | f :: fs => ',' :: (writtenFields (f :: fs) ++ rest)))) := by
  cases fs with
  | nil => simp only [writtenFields_singleton, List.append_assoc, byteChars_quote, List.cons_append]
  | cons f fs =>
    simp only [writtenFields_cons, writtenFields_singleton, List.append_assoc, byteChars_quote,
      List.cons_append]

/-- The text of items closes no array before the first of them. -/
theorem skip_writtenItems_ne {vs : List Json} (h : j.isPlain = true) (cs rest : List Char) :
    skip (writtenItems (j :: vs) ++ cs) ≠ ']' :: rest := by
  obtain ⟨c, tail, hw, hspace, hclose⟩ := written_head h
  have hitems : ∃ more, writtenItems (j :: vs) = c :: more := by
    cases vs with
    | nil => exact ⟨tail, hw⟩
    | cons w vs => exact ⟨_, by rw [writtenItems_cons, hw, List.cons_append]⟩
  obtain ⟨more, hmore⟩ := hitems
  rw [hmore, List.cons_append, skip_cons hspace]
  exact fun he => hclose (List.cons.inj he).1

theorem ofFields_encode (fields : List (String × Json)) :
    ofFields (fields.map fun f => (encode f.1.toList, f.2)) = .object fields := by
  have hkeys : (fields.map fun f => (encode f.1.toList, f.2)).mapM
      (fun f => (decode? f.1).map fun s => (String.ofList s, f.2)) = some fields := by
    induction fields with
    | nil => rfl
    | cons f fs ih => simp [decode?_encode, ih]
  rw [ofFields]
  simp only [hkeys]

mutual

/-- A value is read back from its text, and what follows is left. -/
theorem taken_readValue_written (j : Json) (h : j.isPlain = true) (rest : List Char)
    (hr : EndsNumber rest) : taken (readValue (written j ++ rest)) = some (j, rest) := by
  match j with
  | .null =>
    have hw : written .null = ['n', 'u', 'l', 'l'] := by decide
    rw [hw]
    simp only [List.cons_append, List.nil_append]
    rw [readValue]
    rfl
  | .bool true =>
    have hw : written (.bool true) = ['t', 'r', 'u', 'e'] := by decide
    rw [hw]
    simp only [List.cons_append, List.nil_append]
    rw [readValue]
    rfl
  | .bool false =>
    have hw : written (.bool false) = ['f', 'a', 'l', 's', 'e'] := by decide
    rw [hw]
    simp only [List.cons_append, List.nil_append]
    rw [readValue]
    rfl
  | .nat n =>
    rw [written_nat, taken_readValue_number, readNumber_toDigits n hr]
    obtain ⟨c, ds, hc, hd⟩ := exists_toDigits_eq_cons n
    simp [hc, hd]
  | .string s =>
    rw [written_string, taken_readValue_string, readString_escaped]
    simp [ofString_encode]
  | .array [] =>
    have hw : written (.array []) = ['[', ']'] := by decide
    rw [hw]
    exact taken_readValue_array_nil (skip_cons (by decide) rest)
  | .array (v :: vs) =>
    have hv : v.isPlain = true := by
      simp only [isPlain, arePlain, Bool.and_eq_true] at h
      exact h.1
    rw [written_array, List.cons_append, List.append_assoc]
    rw [taken_readValue_array (skip_writtenItems_ne hv _), List.singleton_append,
      taken_readItems_written v vs h rest]
    rfl
  | .object [] =>
    have hw : written (.object []) = ['\x7b', '\x7d'] := by decide
    rw [hw]
    exact taken_readValue_object_nil (skip_cons (by decide) rest)
  | .object ((k, v) :: fs) =>
    rw [written_object, List.cons_append, List.append_assoc, List.singleton_append]
    have hne : ∀ r, skip (writtenFields ((k, v) :: fs) ++ '\x7d' :: rest) ≠ '\x7d' :: r := by
      intro r
      rw [writtenFields_append, skip_cons (by decide)]
      simp
    rw [taken_readValue_object hne, taken_readFields_written k v fs h rest]
    simp only [Option.map_some, ofFields_encode]
termination_by sizeOf j

theorem taken_readItems_written (v : Json) (vs : List Json) (h : arePlain (v :: vs) = true)
    (rest : List Char) :
    taken (readItems (writtenItems (v :: vs) ++ ']' :: rest)) = some (v :: vs, rest) := by
  match vs with
  | [] =>
    rw [arePlain, Bool.and_eq_true] at h
    have hv := taken_readValue_written v h.1 (']' :: rest) (endsNumber_cons (by decide) rest)
    rw [← skip_written h.1] at hv
    have hitems := taken_readItems hv
    rwa [skip_cons (by decide)] at hitems
  | w :: vs =>
    rw [arePlain, Bool.and_eq_true] at h
    have hv := taken_readValue_written v h.1 (',' :: (writtenItems (w :: vs) ++ ']' :: rest))
      (endsNumber_cons (by decide) _)
    rw [← skip_written h.1] at hv
    have hitems := taken_readItems hv
    rw [skip_cons (by decide)] at hitems
    rw [writtenItems_cons, List.append_assoc, List.cons_append, hitems]
    simp only [taken_readItems_written w vs h.2 rest, Option.map_some]
termination_by sizeOf (v :: vs)

theorem taken_readFields_written (k : String) (v : Json) (fs : List (String × Json))
    (h : fieldsPlain ((k, v) :: fs) = true) (rest : List Char) :
    taken (readFields (writtenFields ((k, v) :: fs) ++ '\x7d' :: rest)) =
      some (((k, v) :: fs).map fun f => (encode f.1.toList, f.2), rest) := by
  match fs with
  | [] =>
    rw [writtenFields_append]
    rw [fieldsPlain, Bool.and_eq_true] at h
    have hv := taken_readValue_written v h.1 ('\x7d' :: rest) (endsNumber_cons (by decide) rest)
    rw [← skip_written h.1] at hv
    have hfields := taken_readFields (skip_cons (by decide) _) (readString_escaped k.toList _)
      (skip_cons (by decide) _) hv
    rwa [skip_cons (by decide)] at hfields
  | (l, w) :: fs =>
    rw [writtenFields_append]
    rw [fieldsPlain, Bool.and_eq_true] at h
    have hv := taken_readValue_written v h.1
      (',' :: (writtenFields ((l, w) :: fs) ++ '\x7d' :: rest)) (endsNumber_cons (by decide) _)
    rw [← skip_written h.1] at hv
    have hfields := taken_readFields (skip_cons (by decide) _) (readString_escaped k.toList _)
      (skip_cons (by decide) _) hv
    rw [skip_cons (by decide)] at hfields
    rw [hfields]
    simp only [taken_readFields_written l w fs h.2 rest, Option.map_some, List.map_cons]
termination_by sizeOf ((k, v) :: fs)

end

/-- A value is read back from its text. -/
theorem parse?_compact (h : j.isPlain = true) : parse? (encode j.compact.toList) = some j := by
  have hskip : skip ((encode j.compact.toList).map byteChar) = written j ++ [] := by
    rw [← skip_written h, List.append_nil]
    rfl
  have hv : taken (readValue (skip ((encode j.compact.toList).map byteChar))) = some (j, []) := by
    rw [hskip]
    exact taken_readValue_written j h [] (by simp [EndsNumber])
  obtain ⟨hr, hv⟩ := exists_of_taken hv
  rw [parse?, hv]
  rfl

end Values

end MacroSweep.Json
