import Safrn.Base.Binary
import Safrn.Base.IntFormat
import Safrn.Base.Loop

/-!
# Bits packed into bytes

Models `BinaryStringToCharVector` and `CharVectorToBinaryString` of `Util/string_utils.cpp:1322-1399`
and `CharVectorToBoolVector` and `BoolVectorToCharVector` of `Util/char_casting_utils.cpp:31-88`.
Bits are packed from the end, so that the first byte may be partial.
-/

namespace Safrn.Util

open Safrn.Base

/-! ### Strings -/

/-- `current_byte`: the digits of a block from the last one. -/
def blockByte (currentBits : List Char) : UInt8 :=
  forRange (fun currentByte j ↦
      if currentBits.getD (currentBits.length - 1 - j) ' ' = '1' then
        currentByte + UInt8.ofNat (1 <<< j)
      else currentByte)
    currentBits.length 0

/-- `BinaryStringToCharVector`; a `char` and an `unsigned char` are the same byte. -/
def binaryStringToCharVector (str : List Char) (output : List UInt8) : List UInt8 :=
  let numBits := str.length
  let remainderBits := numBits % 8
  let bytesNeeded := numBits / 8 + if remainderBits = 0 then 0 else 1
  let numBitsFirstBlock := if remainderBits = 0 then 8 else remainderBits
  output ++ (List.range bytesNeeded).map fun i ↦
    blockByte (if i = 0 then str.take numBitsFirstBlock
      else (str.drop (numBitsFirstBlock + 8 * (i - 1))).take 8)

/-- `CharVectorToBinaryString`. -/
def charVectorToBinaryString (printByteSpaces : Bool) (input : List UInt8) : List Char :=
  (List.range input.length).flatMap fun i ↦
    let currentByte := input.getD i 0
    ((List.range 8).map fun j ↦
      if currentByte.toNat &&& 1 <<< (8 - 1 - j) ≠ 0 then '1' else '0') ++
        if printByteSpaces ∧ i ≠ input.length - 1 then [' '] else []

/-! ### Bool vectors -/

/-- `CharVectorToBoolVector`. -/
def charVectorToBoolVector (buffer : List UInt8) : List Bool :=
  buffer.flatMap fun currentByte ↦
    (List.range 8).map fun j ↦ decide (currentByte.toNat &&& 1 <<< (8 - 1 - j) ≠ 0)

/-- The type of `num_full_bytes`. -/
def int : IntFormat where
  width := 32
  signed := true
  width_pos := IntFormat.thirtyTwo_pos

/-- `first_byte` and `current_byte`: `n` bits from the place `start` on. -/
def blockBits (input : List Bool) (start n : ℕ) : ℕ :=
  forRange (fun byte j ↦ if input.getD (start + j) false then byte ||| 1 <<< (n - 1 - j) else byte)
    n 0

/-- `BoolVectorToCharVector`; `none` when `input` is read past its end, as it is when a negative
`num_full_bytes` is compared with an unsigned counter. -/
def boolVectorToCharVector (input : List Bool) (buffer : List UInt8) : Option (List UInt8) :=
  let numPartialBits := input.length % 8
  let numFullBytes := int.wrap (input.length / 8 : ℕ)
  let first := if numPartialBits > 0 then [UInt8.ofNat (blockBits input 0 numPartialBits)] else []
  if numFullBytes < 0 then none
  else
    some (buffer ++ first ++ (List.range numFullBytes.toNat).map fun i ↦
      UInt8.ofNat (blockBits input (numPartialBits + 8 * i) 8))

/-! ### Blocks of bits -/

/-- The bits with zeros in front, up to whole bytes. -/
def padded (bits : List Bool) : List Bool :=
  List.replicate ((8 - bits.length % 8) % 8) false ++ bits

/-- The digits of bits. -/
def digitsOf (bits : List Bool) : List Char := bits.map fun bit ↦ if bit then '1' else '0'

/-- The bits of a string; what is no one counts as zero. -/
def bitsOf (str : List Char) : List Bool := str.map fun c ↦ decide (c = '1')

theorem bitsOf_digitsOf (bits : List Bool) : bitsOf (digitsOf bits) = bits := by
  rw [bitsOf, digitsOf, List.map_map]
  refine (List.map_congr_left fun bit _ ↦ ?_).trans (List.map_id bits)
  cases bit <;> rfl

theorem bitsValue_replicate_append (n : ℕ) (bits : List Bool) :
    bitsValue (List.replicate n false ++ bits) = bitsValue bits := by
  induction n with
  | zero => rfl
  | succ n ih =>
    rw [List.replicate_succ, List.cons_append, bitsValue, ih, Bool.toNat_false, Nat.zero_mul,
      Nat.zero_add]

theorem bitsValue_take_succ {bits : List Bool} {j : ℕ} (hj : j < bits.length) :
    bitsValue (bits.take (j + 1)) =
      bitsValue (bits.take j) * 2 + (bits.getD j false).toNat := by
  rw [List.take_succ_eq_append_getElem hj, bitsValue_append, List.getD_eq_getElem _ _ hj]
  simp [bitsValue]

theorem bitsValue_drop {bits : List Bool} {j : ℕ} (hj : j < bits.length) :
    bitsValue (bits.drop j) =
      (bits.getD j false).toNat * 2 ^ (bits.length - 1 - j) + bitsValue (bits.drop (j + 1)) := by
  rw [List.drop_eq_getElem_cons hj, bitsValue, List.length_drop, List.getD_eq_getElem _ _ hj]
  congr 3
  omega

/-- The digits of a block are added up to the number of its bits. -/
theorem blockByte_eq (str : List Char) : blockByte str = UInt8.ofNat (bitsValue (bitsOf str)) := by
  have hlength : (bitsOf str).length = str.length := List.length_map ..
  have hloop : blockByte str =
      UInt8.ofNat (bitsValue ((bitsOf str).drop (str.length - str.length))) := by
    refine forRange_invariant
      (fun j byte ↦ byte = UInt8.ofNat (bitsValue ((bitsOf str).drop (str.length - j)))) ?_ ?_
    · rw [Nat.sub_zero, List.drop_of_length_le hlength.le]
      rfl
    · rintro j hj _ rfl
      have hindex : str.length - 1 - j < str.length := by omega
      have hnext : str.length - 1 - j + 1 = str.length - j := by omega
      have hsub : str.length - (j + 1) = str.length - 1 - j := by omega
      have hexp : str.length - 1 - (str.length - 1 - j) = j := by omega
      have hbit : (bitsOf str).getD (str.length - 1 - j) false =
          decide (str.getD (str.length - 1 - j) ' ' = '1') :=
        List.getD_map str ' ' fun c ↦ decide (c = '1')
      have hdrop := bitsValue_drop (hindex.trans_eq hlength.symm)
      rw [hnext, hlength, hexp, hbit] at hdrop
      rw [hsub, hdrop]
      split
      case isTrue hone =>
        rw [decide_eq_true hone, Bool.toNat_true, Nat.one_mul, Nat.shiftLeft_eq, Nat.one_mul,
          UInt8.ofNat_add, UInt8.add_comm]
      case isFalse hone => rw [decide_eq_false hone, Bool.toNat_false, Nat.zero_mul, Nat.zero_add]
  rw [hloop, Nat.sub_self, List.drop_zero]

/-- The bits of a block are joined to their number. -/
theorem blockBits_eq {input : List Bool} {start n : ℕ} (h : start + n ≤ input.length) :
    blockBits input start n = bitsValue ((input.drop start).take n) := by
  have hlength : n ≤ (input.drop start).length := by
    rw [List.length_drop]
    omega
  have hloop : blockBits input start n =
      2 ^ (n - n) * bitsValue ((input.drop start).take n) := by
    refine forRange_invariant
      (fun j byte ↦ byte = 2 ^ (n - j) * bitsValue ((input.drop start).take j)) ?_ ?_
    · rw [List.take_zero, bitsValue, Nat.mul_zero]
    · rintro j hj _ rfl
      have hexp : n - j = n - 1 - j + 1 := by omega
      have hsub : n - (j + 1) = n - 1 - j := by omega
      have hbit : (input.drop start).getD j false = input.getD (start + j) false := by
        rw [List.getD_eq_getElem?_getD, List.getElem?_drop, List.getD_eq_getElem?_getD]
      rw [bitsValue_take_succ (by omega), hbit, hexp, hsub]
      split
      case isTrue hone =>
        have hlt : 1 <<< (n - 1 - j) < 2 ^ (n - 1 - j + 1) := by
          rw [Nat.shiftLeft_eq, Nat.one_mul]
          exact Nat.pow_lt_pow_right (by decide) (Nat.lt_succ_self _)
        rw [← Nat.two_pow_add_eq_or_of_lt hlt, hone, Nat.shiftLeft_eq, Bool.toNat_true, pow_succ]
        ring
      case isFalse hone =>
        rw [Bool.eq_false_iff.mpr hone, Bool.toNat_false, pow_succ]
        ring
  rw [hloop, Nat.sub_self, pow_zero, Nat.one_mul]

theorem length_padded (bits : List Bool) :
    (padded bits).length = 8 * (bits.length / 8 + if bits.length % 8 = 0 then 0 else 1) := by
  rw [padded, List.length_append, List.length_replicate]
  split <;> omega

theorem bitsBytes_cons {first bits : List Bool} (hfirst : first.length = 8) :
    bitsBytes (first ++ bits) = UInt8.ofNat (bitsValue first) :: bitsBytes bits := by
  have hlength : (first ++ bits).length / 8 = bits.length / 8 + 1 := by
    rw [List.length_append, hfirst]
    omega
  rw [bitsBytes, hlength, List.range_succ_eq_map, List.map_cons, List.map_map, bitsBytes]
  congr 1
  · rw [Nat.mul_zero, List.drop_zero, List.take_left' hfirst]
  · refine List.map_congr_left fun i _ ↦ ?_
    rw [Function.comp_apply, Nat.succ_eq_add_one, Nat.mul_add, Nat.mul_one, Nat.add_comm,
      ← List.drop_drop, List.drop_left' hfirst]

/-- A partial block in front, and whole blocks behind it. -/
theorem bitsBytes_padded (bits : List Bool) :
    bitsBytes (padded bits) =
      (if bits.length % 8 > 0 then [UInt8.ofNat (bitsValue (bits.take (bits.length % 8)))]
        else []) ++
      (List.range (bits.length / 8)).map fun i ↦
        UInt8.ofNat (bitsValue ((bits.drop (bits.length % 8 + 8 * i)).take 8)) := by
  have hrest : bitsBytes (bits.drop (bits.length % 8)) =
      (List.range (bits.length / 8)).map fun i ↦
        UInt8.ofNat (bitsValue ((bits.drop (bits.length % 8 + 8 * i)).take 8)) := by
    have hlength : (bits.drop (bits.length % 8)).length / 8 = bits.length / 8 := by
      rw [List.length_drop]
      omega
    simp only [bitsBytes, hlength, List.drop_drop]
  rw [← hrest]
  split
  case isTrue hpartial =>
    have hlength : (List.replicate ((8 - bits.length % 8) % 8) false ++
        bits.take (bits.length % 8)).length = 8 := by
      rw [List.length_append, List.length_replicate, List.length_take]
      omega
    have hsplit : padded bits = (List.replicate ((8 - bits.length % 8) % 8) false ++
        bits.take (bits.length % 8)) ++ bits.drop (bits.length % 8) := by
      rw [padded, List.append_assoc, List.take_append_drop]
    rw [hsplit, bitsBytes_cons hlength, bitsValue_replicate_append, List.singleton_append]
  case isFalse hwhole =>
    have hzero : bits.length % 8 = 0 := by omega
    rw [padded, hzero, List.drop_zero, List.nil_append]
    rfl

theorem bitsValue_byteBits_ofNat {bits : List Bool} (h : bits.length = 8) :
    byteBits (UInt8.ofNat (bitsValue bits)) = bits := by
  have hlt := bitsValue_lt bits
  rw [h] at hlt
  apply bitsValue_injective
  · rw [length_byteBits, h]
  · rw [bitsValue_byteBits, UInt8.toNat_ofNat', Nat.mod_eq_of_lt hlt]

/-- The bits of the bytes that whole blocks of bits are cut into. -/
theorem bytesBits_bitsBytes {n : ℕ} {bits : List Bool} (h : bits.length = 8 * n) :
    bytesBits (bitsBytes bits) = bits := by
  induction n generalizing bits with
  | zero =>
    obtain rfl := List.length_eq_zero_iff.mp h
    rfl
  | succ n ih =>
    have htake : (bits.take 8).length = 8 := by
      rw [List.length_take]
      omega
    have hdrop : (bits.drop 8).length = 8 * n := by
      rw [List.length_drop]
      omega
    have hcut : bitsBytes bits = UInt8.ofNat (bitsValue (bits.take 8)) :: bitsBytes (bits.drop 8) := by
      rw [← bitsBytes_cons htake, List.take_append_drop]
    rw [hcut, bytesBits, List.flatMap_cons, ← bytesBits, ih hdrop, bitsValue_byteBits_ofNat htake,
      List.take_append_drop]

/-! ### The conversions -/

theorem and_bit_ne_zero (byte : UInt8) (j : ℕ) :
    byte.toNat &&& 1 <<< (8 - 1 - j) ≠ 0 ↔ byte.toNat.testBit (7 - j) = true := by
  rw [Nat.shiftLeft_eq, Nat.one_mul, Nat.and_two_pow]
  cases byte.toNat.testBit (7 - j) <;> simp

theorem charVectorToBoolVector_eq (buffer : List UInt8) :
    charVectorToBoolVector buffer = bytesBits buffer := by
  simp only [charVectorToBoolVector, and_bit_ne_zero, Bool.decide_eq_true]
  rfl

theorem binaryStringToCharVector_eq (str : List Char) (output : List UInt8) :
    binaryStringToCharVector str output = output ++ bitsBytes (padded (bitsOf str)) := by
  have hlength : (bitsOf str).length = str.length := List.length_map ..
  have htake (str : List Char) (n : ℕ) : bitsOf (str.take n) = (bitsOf str).take n :=
    List.map_take
  have hdrop (str : List Char) (n : ℕ) : bitsOf (str.drop n) = (bitsOf str).drop n :=
    List.map_drop
  rw [binaryStringToCharVector, bitsBytes_padded, hlength]
  congr 1
  by_cases hwhole : str.length % 8 = 0
  · simp only [hwhole, Nat.add_zero, Nat.zero_add, lt_irrefl, if_true, if_false, List.nil_append]
    refine List.map_congr_left fun i _ ↦ ?_
    cases i with
    | zero => rw [if_pos rfl, blockByte_eq, htake, Nat.mul_zero, List.drop_zero]
    | succ i =>
      have hplace : 8 + 8 * (i + 1 - 1) = 8 * (i + 1) := by omega
      rw [if_neg (Nat.succ_ne_zero i), blockByte_eq, htake, hdrop, hplace]
  · rw [if_neg hwhole, if_neg hwhole, if_pos (Nat.pos_of_ne_zero hwhole), List.range_succ_eq_map,
      List.map_cons, List.map_map, if_pos rfl, blockByte_eq, htake, List.singleton_append]
    congr 1
    refine List.map_congr_left fun i _ ↦ ?_
    rw [Function.comp_apply, if_neg (Nat.succ_ne_zero i), blockByte_eq, htake, hdrop,
      Nat.succ_sub_one]

theorem map_getD_range {α : Type} (l : List α) (d : α) :
    (List.range l.length).map (l.getD · d) = l := by
  apply List.ext_getElem
  · rw [List.length_map, List.length_range]
  · intro i _ hi
    rw [List.getElem_map, List.getElem_range, List.getD_eq_getElem _ _ hi]

theorem charVectorToBinaryString_false (input : List UInt8) :
    charVectorToBinaryString false input = digitsOf (bytesBits input) := by
  have hbyte (byte : UInt8) :
      ((List.range 8).map fun j ↦ if byte.toNat &&& 1 <<< (8 - 1 - j) ≠ 0 then '1' else '0') =
        digitsOf (byteBits byte) := by
    simp only [and_bit_ne_zero, digitsOf, byteBits, List.map_map]
    rfl
  have hdigits : digitsOf (bytesBits input) = input.flatMap fun byte ↦ digitsOf (byteBits byte) :=
    List.map_flatMap
  rw [hdigits]
  nth_rewrite 2 [← map_getD_range input 0]
  rw [List.flatMap_map, charVectorToBinaryString]
  simp only [hbyte, Bool.false_eq_true, false_and, if_false, List.append_nil]

theorem length_charVectorToBinaryString_true (input : List UInt8) :
    (charVectorToBinaryString true input).length = 8 * input.length + (input.length - 1) := by
  rw [charVectorToBinaryString, List.length_flatMap]
  cases hlength : input.length with
  | zero => rfl
  | succ n =>
    have hblock (i : ℕ) : (((List.range 8).map fun j ↦
        if (input.getD i 0).toNat &&& 1 <<< (8 - 1 - j) ≠ 0 then '1' else '0') ++
          if True ∧ i ≠ n + 1 - 1 then [' '] else []).length = if i = n then 8 else 9 := by
      rw [List.length_append, List.length_map, List.length_range, Nat.add_sub_cancel]
      by_cases hi : i = n
      · rw [if_pos hi, if_neg fun h ↦ h.2 hi]
        rfl
      · rw [if_neg hi, if_pos ⟨trivial, hi⟩]
        rfl
    have hnine : ∀ i ∈ List.range n, (if i = n then 8 else 9) = 9 :=
      fun i hi ↦ if_neg (List.mem_range.mp hi).ne
    simp only [hblock]
    rw [List.range_succ (n := n), List.map_append, List.sum_append, List.map_congr_left hnine,
      List.map_const', List.length_range, List.sum_replicate, List.map_singleton,
      List.sum_singleton, if_pos rfl, smul_eq_mul]
    omega

/-- A single byte has no space behind it. -/
theorem charVectorToBinaryString_of_length_le {input : List UInt8} (h : input.length ≤ 1)
    (printByteSpaces : Bool) :
    charVectorToBinaryString printByteSpaces input = charVectorToBinaryString false input := by
  have hlast : ∀ i ∈ List.range input.length, ¬i ≠ input.length - 1 := by
    intro i hi
    have hlt := List.mem_range.mp hi
    omega
  rw [charVectorToBinaryString, charVectorToBinaryString]
  refine List.flatMap_congr fun i hi ↦ ?_
  simp only [hlast i hi, and_false]

theorem holds_int_iff (n : ℕ) : int.Holds n ↔ n < 2 ^ 31 := by
  have hlower : int.lower = -2 ^ 31 := rfl
  have hupper : int.upper = 2 ^ 31 := rfl
  rw [IntFormat.Holds, hlower, hupper]
  omega

theorem boolVectorToCharVector_of_lt {input : List Bool} (h : input.length < 2 ^ 34)
    (buffer : List UInt8) :
    boolVectorToCharVector input buffer = some (buffer ++ bitsBytes (padded input)) := by
  have hholds : int.Holds (input.length / 8 : ℕ) := (holds_int_iff _).mpr (by omega)
  have hfull : int.wrap (input.length / 8 : ℕ) = (input.length / 8 : ℕ) :=
    IntFormat.wrap_of_holds hholds
  have hpartial : blockBits input 0 (input.length % 8) =
      bitsValue (input.take (input.length % 8)) := by
    rw [blockBits_eq (by omega), List.drop_zero]
  have hblocks : ((List.range (input.length / 8)).map fun i ↦
      UInt8.ofNat (blockBits input (input.length % 8 + 8 * i) 8)) =
      (List.range (input.length / 8)).map fun i ↦
        UInt8.ofNat (bitsValue ((input.drop (input.length % 8 + 8 * i)).take 8)) := by
    refine List.map_congr_left fun i hi ↦ ?_
    have hlt := List.mem_range.mp hi
    rw [blockBits_eq (by omega)]
  rw [boolVectorToCharVector, hfull, if_neg (by omega), Int.toNat_natCast, hpartial, hblocks,
    bitsBytes_padded, List.append_assoc]

/-- From `2 ^ 34` bits on, the number of bytes is no longer that of the vector. -/
theorem length_of_boolVectorToCharVector {input : List Bool} {buffer bytes : List UInt8}
    (h : boolVectorToCharVector input buffer = some bytes) (hlength : 2 ^ 34 ≤ input.length) :
    8 * bytes.length < 8 * buffer.length + input.length := by
  have hbounds := int.holds_wrap (input.length / 8 : ℕ)
  have hupper : int.upper = 2 ^ 31 := rfl
  rw [IntFormat.Holds, hupper] at hbounds
  rw [boolVectorToCharVector] at h
  split at h
  case isTrue => cases h
  case isFalse hneg =>
    have hbytes := congrArg List.length (Option.some.inj h)
    rw [List.length_append, List.length_append, List.length_map, List.length_range] at hbytes
    split at hbytes
    · rw [List.length_singleton] at hbytes
      omega
    · rw [List.length_nil] at hbytes
      omega

/-! ### Round trips -/

theorem padded_bytesBits (bytes : List UInt8) : padded (bytesBits bytes) = bytesBits bytes := by
  have hwhole : (8 - (bytesBits bytes).length % 8) % 8 = 0 := by
    rw [length_bytesBits]
    omega
  rw [padded, hwhole, List.replicate_zero, List.nil_append]

theorem bytesBits_bitsBytes_padded (bits : List Bool) :
    bytesBits (bitsBytes (padded bits)) = padded bits :=
  bytesBits_bitsBytes (length_padded bits)

theorem length_bitsBytes_padded (bits : List Bool) :
    (bitsBytes (padded bits)).length = bits.length / 8 + if bits.length % 8 = 0 then 0 else 1 := by
  rw [bitsBytes, List.length_map, List.length_range, length_padded,
    Nat.mul_div_cancel_left _ (by decide)]

theorem binaryString_bytes_iff (printByteSpaces : Bool) (bytes output : List UInt8) :
    binaryStringToCharVector (charVectorToBinaryString printByteSpaces bytes) output =
        output ++ bytes ↔ printByteSpaces = false ∨ bytes.length ≤ 1 := by
  have hplain : binaryStringToCharVector (charVectorToBinaryString false bytes) output =
      output ++ bytes := by
    rw [charVectorToBinaryString_false, binaryStringToCharVector_eq, bitsOf_digitsOf,
      padded_bytesBits, bitsBytes_bytesBits]
  constructor
  · intro h
    by_contra hnot
    rw [not_or, Bool.not_eq_false, not_le] at hnot
    rw [hnot.1, binaryStringToCharVector_eq] at h
    have hlength := congrArg List.length (List.append_cancel_left h)
    have hspaced := length_charVectorToBinaryString_true bytes
    have hbits : (bitsOf (charVectorToBinaryString true bytes)).length =
        8 * bytes.length + (bytes.length - 1) := by
      rw [bitsOf, List.length_map, hspaced]
    rw [length_bitsBytes_padded, hbits] at hlength
    split at hlength <;> omega
  · rintro (rfl | hshort)
    · exact hplain
    · rw [charVectorToBinaryString_of_length_le hshort, hplain]

theorem binaryString_bits_iff (printByteSpaces : Bool) (bits : List Bool) :
    charVectorToBinaryString printByteSpaces (binaryStringToCharVector (digitsOf bits) []) =
        digitsOf (padded bits) ↔ printByteSpaces = false ∨ bits.length ≤ 8 := by
  have hbytes : binaryStringToCharVector (digitsOf bits) [] = bitsBytes (padded bits) := by
    rw [binaryStringToCharVector_eq, bitsOf_digitsOf, List.nil_append]
  have hplain : charVectorToBinaryString false (bitsBytes (padded bits)) =
      digitsOf (padded bits) := by
    rw [charVectorToBinaryString_false, bytesBits_bitsBytes_padded]
  have hlength := length_bitsBytes_padded bits
  rw [hbytes]
  constructor
  · intro h
    by_contra hnot
    rw [not_or, Bool.not_eq_false, not_le] at hnot
    rw [hnot.1, ← hplain, charVectorToBinaryString_false] at h
    have hsame := congrArg List.length h
    rw [length_charVectorToBinaryString_true, digitsOf, List.length_map, length_bytesBits] at hsame
    split at hlength <;> omega
  · rintro (rfl | hshort)
    · exact hplain
    · rw [charVectorToBinaryString_of_length_le (by split at hlength <;> omega), hplain]

theorem boolVector_bytes_iff (bytes buffer : List UInt8) :
    boolVectorToCharVector (charVectorToBoolVector bytes) buffer = some (buffer ++ bytes) ↔
      bytes.length < 2 ^ 31 := by
  rw [charVectorToBoolVector_eq]
  constructor
  · intro h
    by_contra hnot
    have hlength := length_of_boolVectorToCharVector h (by rw [length_bytesBits]; omega)
    rw [length_bytesBits, List.length_append] at hlength
    omega
  · intro h
    rw [boolVectorToCharVector_of_lt (by rw [length_bytesBits]; omega), padded_bytesBits,
      bitsBytes_bytesBits]

theorem boolVector_bits_iff (bits : List Bool) :
    (boolVectorToCharVector bits []).map charVectorToBoolVector = some (padded bits) ↔
      bits.length < 2 ^ 34 := by
  constructor
  · intro h
    by_contra hnot
    obtain ⟨bytes, hbytes, hbits⟩ := Option.map_eq_some_iff.mp h
    have hlength := length_of_boolVectorToCharVector hbytes (not_lt.mp hnot)
    have hpadded := congrArg List.length hbits
    rw [charVectorToBoolVector_eq, length_bytesBits, padded, List.length_append] at hpadded
    rw [List.length_nil] at hlength
    omega
  · intro h
    rw [boolVectorToCharVector_of_lt h, Option.map_some, List.nil_append, charVectorToBoolVector_eq,
      bytesBits_bitsBytes_padded]

/-- **Packing.** Strings convert forth and back unless there are spaces between bytes, and bool
vectors as long as the number of their bytes is an `int`. -/
theorem packing_roundTrips_iff (printByteSpaces : Bool) (bytes output : List UInt8)
    (bits : List Bool) :
    (binaryStringToCharVector (charVectorToBinaryString printByteSpaces bytes) output =
        output ++ bytes ↔ printByteSpaces = false ∨ bytes.length ≤ 1) ∧
    (charVectorToBinaryString printByteSpaces (binaryStringToCharVector (digitsOf bits) []) =
        digitsOf (padded bits) ↔ printByteSpaces = false ∨ bits.length ≤ 8) ∧
    (boolVectorToCharVector (charVectorToBoolVector bytes) output = some (output ++ bytes) ↔
      bytes.length < 2 ^ 31) ∧
    ((boolVectorToCharVector bits []).map charVectorToBoolVector = some (padded bits) ↔
      bits.length < 2 ^ 34) :=
  ⟨binaryString_bytes_iff printByteSpaces bytes output, binaryString_bits_iff printByteSpaces bits,
    boolVector_bytes_iff bytes output, boolVector_bits_iff bits⟩

/-- `2 ^ 34` zeros are not unpacked again. -/
theorem not_unpacked_zeros :
    ¬∀ bits : List Bool,
      (boolVectorToCharVector bits []).map charVectorToBoolVector = some (padded bits) := by
  intro h
  have hlt := (boolVector_bits_iff (List.replicate (2 ^ 34) false)).mp (h _)
  rw [List.length_replicate] at hlt
  exact lt_irrefl _ hlt

end Safrn.Util
