import Mathlib.Data.List.Basic

/-!
# Strings of the Java services

A string is a list of UTF-16 code units, which need not be well formed. How it is written as UTF-8
and read back is a parameter; what the services rely on is that text is written and read as UTF-8
has it, and that reading makes up no unpaired surrogates.
-/

namespace Safrn.Java

/-- A `String`. -/
abbrev JavaString := List (BitVec 16)

/-- The code units of a character. -/
def utf16Char (c : Char) : JavaString :=
  if c.toNat < 0x10000 then [BitVec.ofNat 16 c.toNat]
  else [BitVec.ofNat 16 (0xD800 + (c.toNat - 0x10000) / 0x400),
    BitVec.ofNat 16 (0xDC00 + (c.toNat - 0x10000) % 0x400)]

/-- The string of some text. -/
def utf16 (text : List Char) : JavaString := text.flatMap utf16Char

/-- Some text as UTF-8. -/
def utf8 (text : List Char) : List (BitVec 8) :=
  text.flatMap fun c ↦ (String.utf8EncodeChar c).map UInt8.toBitVec

/-- The string has no unpaired surrogates. -/
def WellFormed (s : JavaString) : Prop := ∃ text, s = utf16 text

/-- `ByteBufUtil.writeUtf8` and `ByteBuf.toString` for `StandardCharsets.UTF_8`. -/
structure Charset where
  encode : JavaString → List (BitVec 8)
  decode : List (BitVec 8) → JavaString

namespace Charset

/-- Text is written and read as UTF-8; what is malformed is replaced. -/
structure Lawful (charset : Charset) : Prop where
  encode_utf16 (text : List Char) : charset.encode (utf16 text) = utf8 text
  decode_utf8 (text : List Char) : charset.decode (utf8 text) = utf16 text
  wellFormed_decode (bytes : List (BitVec 8)) : WellFormed (charset.decode bytes)

/-- A string comes back just when it is well formed. -/
theorem Lawful.decode_encode_iff {charset : Charset} (h : charset.Lawful) (s : JavaString) :
    charset.decode (charset.encode s) = s ↔ WellFormed s := by
  constructor
  · intro heq
    rw [← heq]
    exact h.wellFormed_decode _
  · rintro ⟨text, rfl⟩
    rw [h.encode_utf16, h.decode_utf8]

end Charset

/-! ### A charset -/

def isHighSurrogate (u : BitVec 16) : Bool := 0xD800 ≤ u.toNat ∧ u.toNat < 0xDC00

def isLowSurrogate (u : BitVec 16) : Bool := 0xDC00 ≤ u.toNat ∧ u.toNat < 0xE000

/-- The character of a code unit, `?` for an unpaired surrogate. -/
def charOf (u : BitVec 16) : Char :=
  if isHighSurrogate u || isLowSurrogate u then '?' else Char.ofNat u.toNat

/-- The text of a string. -/
def textOf : JavaString → List Char
  | [] => []
  | [u] => [charOf u]
  | u :: v :: us =>
    if isHighSurrogate u && isLowSurrogate v then
      Char.ofNat (0x10000 + (u.toNat - 0xD800) * 0x400 + (v.toNat - 0xDC00)) :: textOf us
    else charOf u :: textOf (v :: us)

private theorem textOf_cons {u : BitVec 16} (hu : isHighSurrogate u = false) (us : JavaString) :
    textOf (u :: us) = charOf u :: textOf us := by
  cases us <;> simp [textOf, hu]

/-- The first character of a string. -/
private theorem textOf_append (c : Char) (s : JavaString) :
    textOf (utf16Char c ++ s) = c :: textOf s := by
  have hvalid : c.toNat < 0xD800 ∨ 0xDFFF < c.toNat ∧ c.toNat < 0x110000 := c.valid
  rw [utf16Char]
  split
  · next hlt =>
    have hu : (BitVec.ofNat 16 c.toNat).toNat = c.toNat := by
      rw [BitVec.toNat_ofNat]
      omega
    have hhigh : isHighSurrogate (BitVec.ofNat 16 c.toNat) = false := by
      simp only [isHighSurrogate, hu, decide_eq_false_iff_not]
      omega
    have hlow : isLowSurrogate (BitVec.ofNat 16 c.toNat) = false := by
      simp only [isLowSurrogate, hu, decide_eq_false_iff_not]
      omega
    rw [List.singleton_append, textOf_cons hhigh, charOf, hhigh, hlow, hu]
    simp
  · next hge =>
    have hu : (BitVec.ofNat 16 (0xD800 + (c.toNat - 0x10000) / 0x400)).toNat =
        0xD800 + (c.toNat - 0x10000) / 0x400 := by
      rw [BitVec.toNat_ofNat]
      omega
    have hv : (BitVec.ofNat 16 (0xDC00 + (c.toNat - 0x10000) % 0x400)).toNat =
        0xDC00 + (c.toNat - 0x10000) % 0x400 := by
      rw [BitVec.toNat_ofNat]
      omega
    have hhigh : isHighSurrogate (BitVec.ofNat 16 (0xD800 + (c.toNat - 0x10000) / 0x400)) =
        true := by
      simp only [isHighSurrogate, hu, decide_eq_true_eq]
      omega
    have hlow : isLowSurrogate (BitVec.ofNat 16 (0xDC00 + (c.toNat - 0x10000) % 0x400)) =
        true := by
      simp only [isLowSurrogate, hv, decide_eq_true_eq]
      omega
    have hc : 0x10000 + (0xD800 + (c.toNat - 0x10000) / 0x400 - 0xD800) * 0x400 +
        (0xDC00 + (c.toNat - 0x10000) % 0x400 - 0xDC00) = c.toNat := by omega
    simp only [List.cons_append, List.nil_append, textOf, hhigh, hlow, hu, hv, hc, Bool.and_self,
      if_true, Char.ofNat_toNat]

theorem textOf_utf16 (text : List Char) : textOf (utf16 text) = text := by
  induction text with
  | nil => rfl
  | cons c text ih =>
    rw [utf16, List.flatMap_cons, textOf_append, ← utf16, ih]

namespace Charset

/-- A charset that replaces all bytes when some are malformed. -/
def replacing : Charset where
  encode s := utf8 (textOf s)
  decode bytes :=
    match (bytes.map UInt8.ofBitVec).toByteArray.utf8Decode? with
    | some text => utf16 text.toList
    | none => [0xFFFD]

theorem replacing_lawful : replacing.Lawful where
  encode_utf16 text := by
    simp only [replacing, textOf_utf16]
  decode_utf8 text := by
    have hbytes : ((utf8 text).map UInt8.ofBitVec).toByteArray = text.utf8Encode := by
      rw [utf8, List.map_flatMap, List.utf8Encode]
      congr 2
      funext c
      rw [List.map_map]
      exact List.map_id _
    simp only [replacing, hbytes, List.utf8Decode?_utf8Encode]
  wellFormed_decode bytes := by
    simp only [replacing]
    split
    · exact ⟨_, rfl⟩
    · exact ⟨[Char.ofNat 0xFFFD], by decide⟩

end Charset

end Safrn.Java
