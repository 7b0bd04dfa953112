import Safrn.Base.BigEndian

/-!
# Lists of values as bytes

Models the codecs of `Util/char_casting_utils.h` for lists of values (`:127-182`, `:231-251`,
`:340-443` and `:637-666`), `CharVectorToValue` (`:260-305`) and `CharVectorToSlicePair` of
`char_casting_utils.cpp:176-191`. Bytes are copied as the host keeps them in memory, or written and
read from the most significant byte on (`ByteString`).
-/

namespace Safrn.Util

open Safrn.Base

/-- The widths of the integer types. -/
inductive ValueWidth
  | w8
  | w16
  | w32
  | w64
deriving DecidableEq

/-- `sizeof`. -/
def ValueWidth.bytes : ValueWidth → ℕ
  | .w8 => 1
  | .w16 => 2
  | .w32 => 4
  | .w64 => 8

theorem ValueWidth.bytes_pos (w : ValueWidth) : 0 < w.bytes := by
  cases w <;> decide

/-- `SYSTEM_ENDIAN`. -/
inductive Endianness
  | big
  | little
deriving DecidableEq

/-- What a decoder comes to; it is undefined to copy bytes from behind the buffer. -/
inductive Decoded (α : Type)
  | fatal
  | undefined
  | value (a : α)
deriving DecidableEq

section

variable (host : Endianness) (n : ℕ)

/-- The bytes of a value in memory. -/
def toMemory (value : BitVec (8 * n)) : List (BitVec 8) :=
  match host with
  | .big => bigEndian n value
  | .little => (bigEndian n value).reverse

/-- The value that bytes in memory are. -/
def ofMemory (bytes : List (BitVec 8)) : BitVec (8 * n) :=
  match host with
  | .big => ofBigEndian n bytes
  | .little => ofBigEndian n bytes.reverse

/-- The bytes of a value at a position. -/
def bytesAt (buffer : List (BitVec 8)) (pos : ℕ) : List (BitVec 8) := (buffer.drop pos).take n

/-- A copy of the bytes at a position, and what is made of them. -/
def readAt (read : List (BitVec 8) → BitVec (8 * n)) (buffer : List (BitVec 8)) (pos : ℕ) :
    Option (BitVec (8 * n)) :=
  if pos + n ≤ buffer.length then some (read (bytesAt n buffer pos)) else none

/-- What a `ByteString` decoder adds up, the first byte highest. -/
def sumBytes (bytes : List (BitVec 8)) : BitVec (8 * n) :=
  forRange
    (fun currentValue j ↦
      currentValue + (bytes.getD j 0#8).setWidth (8 * n) <<< ((n - 1 - j) * 8)) n 0#(8 * n)

/-! ### Encoders -/

/-- `ValueVectorToCharVector`. -/
def valueVectorToCharVector (input : List (BitVec (8 * n))) (buffer : List (BitVec 8)) :
    List (BitVec 8) :=
  buffer ++ input.flatMap (toMemory host n)

/-- `ValueVectorToByteString`. -/
def valueVectorToByteString (input : List (BitVec (8 * n))) (buffer : List (BitVec 8)) :
    List (BitVec 8) :=
  buffer ++ input.flatMap (bigEndian n)

/-! ### Decoders -/

/-- What the decoders of lists share: the check of the length, and one element after the other. -/
def decodeVector (start stop : ℕ) (element : ℕ → Option (BitVec (8 * n))) :
    Decoded (List (BitVec (8 * n))) :=
  let numElements := (stop - start) / n
  if stop ≤ start ∨ stop ≠ start + numElements * n then .fatal
  else
    match collect numElements element with
    | none => .undefined
    | some values => .value values

/-- `CharVectorToValueVector` of an `unsigned char` vector: each element is read at `from`
(`start`), and its index is added. -/
def charVectorToValueVector (start stop : ℕ) (buffer : List (BitVec 8)) :
    Decoded (List (BitVec (8 * n))) :=
  decodeVector n start stop fun i ↦
    (readAt n (ofMemory host n) buffer start).map (· + BitVec.ofNat (8 * n) i)

/-- `CharVectorToValueVector` of a `char` vector. -/
def signedCharVectorToValueVector (start stop : ℕ) (buffer : List (BitVec 8)) :
    Decoded (List (BitVec (8 * n))) :=
  decodeVector n start stop fun i ↦ readAt n (ofMemory host n) buffer (start + n * i)

/-- `ByteStringToValueVector`. -/
def byteStringToValueVector (start stop : ℕ) (buffer : List (BitVec 8)) :
    Decoded (List (BitVec (8 * n))) :=
  decodeVector n start stop fun i ↦ readAt n (sumBytes n) buffer (start + n * i)

/-- What is made of too few bytes: the missing ones count as zeros. -/
def partialValue (bytes : List (BitVec 8)) : BitVec (8 * n) :=
  let stopByte := bytes.length
  forRange
    (fun toReturn i ↦
      toReturn + (bytes.getD i 0#8).setWidth (8 * n) <<<
        (match host with
        | .big => (stopByte - 1 - i) * 8
        | .little => 8 * i)) stopByte 0#(8 * n)

/-- `CharVectorToValue` of an `unsigned char` vector. -/
def charVectorToValue (start stop : ℕ) (buffer : List (BitVec 8)) : Decoded (BitVec (8 * n)) :=
  if buffer.length ≤ start then .fatal
  else if stop ≤ start ∨ stop ≠ start + n then .fatal
  else if stop ≤ buffer.length then .value (ofMemory host n (bytesAt n buffer start))
  else .value (partialValue host n (buffer.drop start))

/-- `make_pair` of two decoded values. -/
def makePair {α : Type} : Decoded α → Decoded α → Decoded (α × α)
  | .value a, .value b => .value (a, b)
  | .fatal, _ | _, .fatal => .fatal
  | _, _ => .undefined

/-- `CharVectorToSlicePair`, `n` being `sizeof(slice)`. -/
def charVectorToSlicePair (start stop : ℕ) (buffer : List (BitVec 8)) :
    Decoded (BitVec (8 * n) × BitVec (8 * n)) :=
  if buffer.length ≤ start then .fatal
  else if stop ≤ start ∨ stop ≠ start + n * 2 then .fatal
  else
    makePair (charVectorToValue host n start n buffer)
      (charVectorToValue host n (start + n) stop buffer)

/-- `SlicePairToCharVector`. -/
def slicePairToCharVector (input : BitVec (8 * n) × BitVec (8 * n)) (buffer : List (BitVec 8)) :
    List (BitVec 8) :=
  buffer ++ toMemory host n input.1 ++ toMemory host n input.2

end

/-! ### Values in memory -/

section

variable {host : Endianness} {n : ℕ}

@[simp] theorem length_toMemory (value : BitVec (8 * n)) : (toMemory host n value).length = n := by
  cases host with
  | big => exact bigEndian_length n value
  | little => exact (List.length_reverse).trans (bigEndian_length n value)

theorem ofMemory_toMemory (value : BitVec (8 * n)) :
    ofMemory host n (toMemory host n value) = value := by
  cases host with
  | big => exact ofBigEndian_bigEndian n value
  | little =>
    rw [ofMemory, toMemory, List.reverse_reverse]
    exact ofBigEndian_bigEndian n value

/-- The bits that are added are not set yet. -/
theorem sumBytes_eq (bytes : List (BitVec 8)) : sumBytes n bytes = ofBigEndian n bytes := by
  let step (t : BitVec (8 * n)) (j : ℕ) : BitVec (8 * n) :=
    t ||| (bytes.getD j 0#8).setWidth (8 * n) <<< ((n - 1 - j) * 8)
  have hloop : sumBytes n bytes = forRange step n 0#(8 * n) ∧
      ∀ k < 8 * (n - n), (sumBytes n bytes).getLsbD k = false := by
    refine forRange_invariant (fun i (t : BitVec (8 * n)) ↦ t = forRange step i 0#(8 * n) ∧
      ∀ k < 8 * (n - i), t.getLsbD k = false) ?_ ?_
    · exact ⟨rfl, fun k _ ↦ BitVec.getLsbD_zero⟩
    · rintro i hi t ⟨ht, hlow⟩
      have hbyte : ∀ k, k < (n - 1 - i) * 8 ∨ (n - i) * 8 ≤ k →
          ((bytes.getD i 0#8).setWidth (8 * n) <<< ((n - 1 - i) * 8)).getLsbD k = false := by
        intro k hk
        rw [BitVec.getLsbD_shiftLeft, BitVec.getLsbD_setWidth]
        rcases hk with hk | hk
        · simp [hk]
        · have hbig : 8 ≤ k - (n - 1 - i) * 8 := by omega
          rw [BitVec.getLsbD_of_ge _ _ hbig]
          simp
      have hdisjoint : t &&& (bytes.getD i 0#8).setWidth (8 * n) <<< ((n - 1 - i) * 8) =
          0#(8 * n) := by
        apply BitVec.eq_of_getLsbD_eq
        intro k _
        rw [BitVec.getLsbD_and, BitVec.getLsbD_zero]
        by_cases hk : k < 8 * (n - i)
        · rw [hlow k hk, Bool.false_and]
        · rw [hbyte k (.inr (by omega)), Bool.and_false]
      have hsum : t + (bytes.getD i 0#8).setWidth (8 * n) <<< ((n - 1 - i) * 8) = step t i :=
        BitVec.add_eq_or_of_and_eq_zero _ _ hdisjoint
      rw [hsum]
      refine ⟨by rw [forRange, ← ht], fun k hk ↦ ?_⟩
      rw [BitVec.getLsbD_or, hlow k (by omega), hbyte k (.inl (by omega)), Bool.or_false]
  exact hloop.1

/-! ### Lists of values -/

/-- A range of whole elements. -/
def IsRange (n start stop : ℕ) : Prop := start < stop ∧ n ∣ stop - start

theorem isRange_iff {start stop : ℕ} :
    ¬(stop ≤ start ∨ stop ≠ start + (stop - start) / n * n) ↔ IsRange n start stop := by
  rw [IsRange, not_or, Nat.not_le, Decidable.not_not, Nat.dvd_iff_div_mul_eq]
  constructor
  · rintro ⟨hlt, heq⟩
    exact ⟨hlt, by omega⟩
  · rintro ⟨hlt, heq⟩
    exact ⟨hlt, by omega⟩

section

variable {start stop : ℕ} {element : ℕ → Option (BitVec (8 * n))}

theorem decodeVector_of_not (h : ¬IsRange n start stop) :
    decodeVector n start stop element = .fatal := by
  rw [← isRange_iff, Decidable.not_not] at h
  exact if_pos h

theorem decodeVector_of_forall (hr : IsRange n start stop) {g : ℕ → BitVec (8 * n)}
    (h : ∀ i < (stop - start) / n, element i = some (g i)) :
    decodeVector n start stop element =
      .value ((List.range ((stop - start) / n)).map g) := by
  unfold decodeVector
  simp only [if_neg (isRange_iff.mpr hr), collect_eq h]

theorem decodeVector_of_none (hr : IsRange n start stop) {i : ℕ} (hi : i < (stop - start) / n)
    (h : element i = none) : decodeVector n start stop element = .undefined := by
  have hnone : collect ((stop - start) / n) element = none := by
    rw [Option.eq_none_iff_forall_ne_some]
    intro values hvalues
    have hall : ∀ j < (stop - start) / n, (element j).isSome := by
      refine forRangeM_some (fun k (_ : List (BitVec (8 * n))) ↦ ∀ j < k, (element j).isSome) ?_ ?_
        hvalues
      · exact fun j hj ↦ absurd hj (Nat.not_lt_zero j)
      · intro k _ t t' hk ht j hj
        rcases Nat.lt_succ_iff_lt_or_eq.mp hj with hj | rfl
        · exact hk j hj
        · obtain ⟨value, hvalue, -⟩ := Option.map_eq_some_iff.mp ht
          rw [hvalue]
          rfl
    have hsome := hall i hi
    rw [h] at hsome
    exact Bool.false_ne_true hsome
  unfold decodeVector
  simp only [if_neg (isRange_iff.mpr hr), hnone]

end

theorem IsRange.elements_pos (hn : 0 < n) {start stop : ℕ} (hr : IsRange n start stop) :
    0 < (stop - start) / n := by
  have hlt := hr.1
  exact Nat.div_pos (Nat.le_of_dvd (by omega) hr.2) hn

theorem IsRange.stop_eq {start stop : ℕ} (hr : IsRange n start stop) :
    stop = start + n * ((stop - start) / n) := by
  have hlt := hr.1
  have hmul := Nat.mul_div_cancel' hr.2
  omega

section

variable {start stop : ℕ} {buffer : List (BitVec 8)}

/-- A decoder that reads each element in its place. -/
theorem decodeVector_readAt (hn : 0 < n) (read : List (BitVec 8) → BitVec (8 * n))
    (hr : IsRange n start stop) :
    decodeVector n start stop (fun i ↦ readAt n read buffer (start + n * i)) =
      if stop ≤ buffer.length then
        .value ((List.range ((stop - start) / n)).map fun i ↦
          read (bytesAt n buffer (start + n * i)))
      else .undefined := by
  have hstop := hr.stop_eq
  split
  case isTrue hle =>
    apply decodeVector_of_forall hr
    intro i hi
    have hmul : n * (i + 1) ≤ n * ((stop - start) / n) := Nat.mul_le_mul_left n hi
    rw [Nat.mul_add] at hmul
    exact if_pos (by omega)
  case isFalse hlt =>
    have hpos := hr.elements_pos hn
    refine decodeVector_of_none hr (Nat.sub_lt hpos Nat.one_pos) (if_neg ?_)
    have hmul : n * ((stop - start) / n - 1) + n = n * ((stop - start) / n) := by
      rw [← Nat.mul_succ, Nat.succ_eq_add_one, Nat.sub_add_cancel hpos]
    omega

/-- The decoder that reads all elements in the place of the first one. -/
theorem charVectorToValueVector_eq (hn : 0 < n) (hr : IsRange n start stop) :
    charVectorToValueVector host n start stop buffer =
      if start + n ≤ buffer.length then
        .value ((List.range ((stop - start) / n)).map fun i ↦
          ofMemory host n (bytesAt n buffer start) + BitVec.ofNat (8 * n) i)
      else .undefined := by
  split
  case isTrue hle =>
    apply decodeVector_of_forall hr
    intro i _
    rw [readAt, if_pos hle]
    rfl
  case isFalse hlt =>
    refine decodeVector_of_none hr (hr.elements_pos hn) ?_
    rw [readAt, if_neg hlt]
    rfl

end

/-- The bytes of an element stand in its place. -/
theorem bytesAt_flatMap {enc : BitVec (8 * n) → List (BitVec 8)} (henc : ∀ v, (enc v).length = n)
    (pre post : List (BitVec 8)) {xs : List (BitVec (8 * n))} {i : ℕ} (hi : i < xs.length) :
    bytesAt n (pre ++ xs.flatMap enc ++ post) (pre.length + n * i) = enc xs[i] := by
  induction xs generalizing pre i with
  | nil => exact absurd hi (Nat.not_lt_zero i)
  | cons x xs ih =>
    have hbuffer : pre ++ (x :: xs).flatMap enc ++ post =
        (pre ++ enc x) ++ xs.flatMap enc ++ post := by
      rw [List.flatMap_cons, ← List.append_assoc]
    cases i with
    | zero =>
      rw [hbuffer, bytesAt, Nat.mul_zero, Nat.add_zero, List.append_assoc, List.append_assoc,
        List.drop_left, List.take_left' (henc x)]
      rfl
    | succ i =>
      have hlength : pre.length + n * (i + 1) = (pre ++ enc x).length + n * i := by
        rw [List.length_append, henc, Nat.mul_add]
        omega
      rw [hbuffer, hlength]
      exact ih (pre ++ enc x) (Nat.lt_of_succ_lt_succ hi)

theorem length_flatMap_encoder {enc : BitVec (8 * n) → List (BitVec 8)}
    (henc : ∀ v, (enc v).length = n) (xs : List (BitVec (8 * n))) :
    (xs.flatMap enc).length = n * xs.length := by
  induction xs with
  | nil => rfl
  | cons x xs ih =>
    rw [List.flatMap_cons, List.length_append, henc, ih, List.length_cons, Nat.mul_add]
    omega

/-- Values that count up from the first one. -/
def CountsUp (xs : List (BitVec (8 * n))) : Prop :=
  xs = (List.range xs.length).map fun i ↦ xs.headD 0#(8 * n) + BitVec.ofNat (8 * n) i

instance (xs : List (BitVec (8 * n))) : Decidable (CountsUp xs) := inferInstanceAs (Decidable (_ = _))

section

variable {enc : BitVec (8 * n) → List (BitVec 8)} (pre post : List (BitVec 8))
  (xs : List (BitVec (8 * n)))

theorem isRange_encoded (hn : 0 < n) :
    IsRange n pre.length (pre.length + n * xs.length) ↔ xs ≠ [] := by
  rw [IsRange, Nat.add_sub_cancel_left, ← List.length_pos_iff]
  constructor
  · rintro ⟨hlt, -⟩
    exact Nat.pos_of_mul_pos_left (Nat.lt_add_right_iff_pos.mp hlt)
  · intro hpos
    have hmul := Nat.mul_pos hn hpos
    exact ⟨by omega, Nat.dvd_mul_right n xs.length⟩

/-- A decoder that reads each element in its place returns any values that are encoded, unless
there are none. -/
theorem decodeVector_encoded_iff (hn : 0 < n) (henc : ∀ v, (enc v).length = n)
    {read : List (BitVec 8) → BitVec (8 * n)} (hread : ∀ v, read (enc v) = v) :
    decodeVector n pre.length (pre.length + n * xs.length)
        (fun i ↦ readAt n read (pre ++ xs.flatMap enc ++ post) (pre.length + n * i)) = .value xs ↔
      xs ≠ [] := by
  by_cases hxs : xs = []
  · rw [decodeVector_of_not (mt (isRange_encoded pre xs hn).mp (not_not_intro hxs))]
    exact iff_of_false nofun (not_not_intro hxs)
  · have hr : IsRange n pre.length (pre.length + n * xs.length) := (isRange_encoded pre xs hn).mpr hxs
    have hlength : pre.length + n * xs.length ≤ (pre ++ xs.flatMap enc ++ post).length := by
      rw [List.length_append, List.length_append, length_flatMap_encoder henc]
      omega
    have hcount : (pre.length + n * xs.length - pre.length) / n = xs.length := by
      rw [Nat.add_sub_cancel_left, Nat.mul_div_cancel_left _ hn]
    have hvalues : ((List.range xs.length).map fun i ↦
        read (bytesAt n (pre ++ xs.flatMap enc ++ post) (pre.length + n * i))) = xs := by
      apply List.ext_getElem
      · rw [List.length_map, List.length_range]
      · intro i _ hi
        rw [List.getElem_map, List.getElem_range, bytesAt_flatMap henc pre post hi, hread]
    rw [decodeVector_readAt hn read hr, if_pos hlength, hcount, hvalues]
    exact iff_of_true rfl hxs

/-- The other decoder returns them only if they count up. -/
theorem charVectorToValueVector_encoded_iff (hn : 0 < n) :
    charVectorToValueVector host n pre.length (pre.length + n * xs.length)
        (valueVectorToCharVector host n xs pre ++ post) = .value xs ↔
      xs ≠ [] ∧ CountsUp xs := by
  by_cases hxs : xs = []
  · rw [charVectorToValueVector,
      decodeVector_of_not (mt (isRange_encoded pre xs hn).mp (not_not_intro hxs))]
    exact iff_of_false nofun fun h ↦ h.1 hxs
  · have hr : IsRange n pre.length (pre.length + n * xs.length) := (isRange_encoded pre xs hn).mpr hxs
    have hpos : 0 < xs.length := List.length_pos_iff.mpr hxs
    have hlength : pre.length + n ≤ (valueVectorToCharVector host n xs pre ++ post).length := by
      have hmul : n * 1 ≤ n * xs.length := Nat.mul_le_mul_left n hpos
      rw [valueVectorToCharVector, List.length_append, List.length_append,
        length_flatMap_encoder length_toMemory]
      omega
    have hcount : (pre.length + n * xs.length - pre.length) / n = xs.length := by
      rw [Nat.add_sub_cancel_left, Nat.mul_div_cancel_left _ hn]
    have hfirst : ofMemory host n (bytesAt n (valueVectorToCharVector host n xs pre ++ post)
        pre.length) = xs.headD 0#(8 * n) := by
      have hbytes := bytesAt_flatMap (@length_toMemory host n) pre post hpos
      rw [Nat.mul_zero, Nat.add_zero] at hbytes
      rw [valueVectorToCharVector, hbytes, ofMemory_toMemory]
      cases xs with
      | nil => exact absurd rfl hxs
      | cons x xs => rfl
    rw [charVectorToValueVector_eq hn hr, if_pos hlength, hcount, hfirst, and_iff_right hxs,
      Decoded.value.injEq, CountsUp]
    exact eq_comm

end

/-! ### Overloads -/

theorem ofBigEndian_inj {bytes bytes' : List (BitVec 8)} (h : bytes.length = n)
    (h' : bytes'.length = n) : ofBigEndian n bytes = ofBigEndian n bytes' ↔ bytes = bytes' := by
  constructor
  · intro heq
    rw [← bigEndian_ofBigEndian h, heq, bigEndian_ofBigEndian h']
  · rintro rfl
    rfl

/-- Bytes are the same value in both orders. -/
theorem ofMemory_eq_ofBigEndian_iff {bytes : List (BitVec 8)} (h : bytes.length = n) :
    ofMemory host n bytes = ofBigEndian n bytes ↔ host = .big ∨ bytes.reverse = bytes := by
  cases host with
  | big => exact iff_of_true rfl (.inl rfl)
  | little =>
    rw [ofMemory, ofBigEndian_inj (by rw [List.length_reverse, h]) h]
    exact ⟨.inr, fun h ↦ h.resolve_left nofun⟩

/-- All elements of a range are read alike: the bytes of each are in both orders the same value, and
the values count up. -/
def Alike (host : Endianness) (n start stop : ℕ) (buffer : List (BitVec 8)) : Prop :=
  ∀ i < (stop - start) / n,
    ofMemory host n (bytesAt n buffer (start + n * i)) =
        ofMemory host n (bytesAt n buffer start) + BitVec.ofNat (8 * n) i ∧
      (host = .big ∨ (bytesAt n buffer (start + n * i)).reverse = bytesAt n buffer (start + n * i))

theorem map_range_inj {α : Type} {m : ℕ} {f g : ℕ → α} :
    (List.range m).map f = (List.range m).map g ↔ ∀ i < m, f i = g i := by
  rw [List.map_inj_left]
  simp only [List.mem_range]

/-- The three overloads agree. -/
theorem overloads_agree_iff (hn : 0 < n) (start stop : ℕ) (buffer : List (BitVec 8)) :
    (charVectorToValueVector host n start stop buffer =
        signedCharVectorToValueVector host n start stop buffer ∧
      signedCharVectorToValueVector host n start stop buffer =
        byteStringToValueVector n start stop buffer) ↔
      ¬IsRange n start stop ∨ buffer.length < start + n ∨
        stop ≤ buffer.length ∧ Alike host n start stop buffer := by
  by_cases hr : IsRange n start stop
  · have hstop := hr.stop_eq
    have hpos := hr.elements_pos hn
    have hone : n * 1 ≤ n * ((stop - start) / n) := Nat.mul_le_mul_left n hpos
    rw [charVectorToValueVector_eq hn hr, signedCharVectorToValueVector,
      decodeVector_readAt hn (ofMemory host n) hr, byteStringToValueVector,
      decodeVector_readAt hn (sumBytes n) hr, or_iff_right (not_not_intro hr)]
    by_cases hle : stop ≤ buffer.length
    · have hbytes (i : ℕ) (hi : i < (stop - start) / n) :
          (bytesAt n buffer (start + n * i)).length = n := by
        have hmul : n * (i + 1) ≤ n * ((stop - start) / n) := Nat.mul_le_mul_left n hi
        rw [Nat.mul_add] at hmul
        rw [bytesAt, List.length_take, List.length_drop]
        omega
      rw [if_pos (by omega), if_pos hle, if_pos hle, or_iff_right (by omega), and_iff_right hle,
        Decoded.value.injEq, Decoded.value.injEq, map_range_inj, map_range_inj]
      constructor
      · rintro ⟨hfirst, hsecond⟩ i hi
        have hsum := hsecond i hi
        rw [sumBytes_eq] at hsum
        exact ⟨(hfirst i hi).symm, (ofMemory_eq_ofBigEndian_iff (hbytes i hi)).mp hsum⟩
      · intro h
        refine ⟨fun i hi ↦ (h i hi).1.symm, fun i hi ↦ ?_⟩
        rw [sumBytes_eq]
        exact (ofMemory_eq_ofBigEndian_iff (hbytes i hi)).mpr (h i hi).2
    · rw [if_neg hle, if_neg hle, and_iff_left rfl]
      split
      case isTrue hfirst =>
        refine iff_of_false nofun ?_
        rintro (hlt | hlt)
        · omega
        · exact hle hlt.1
      case isFalse hfirst => exact iff_of_true rfl (.inl (by omega))
  · rw [charVectorToValueVector, signedCharVectorToValueVector, byteStringToValueVector,
      decodeVector_of_not hr, decodeVector_of_not hr, decodeVector_of_not hr]
    exact iff_of_true ⟨rfl, rfl⟩ (.inl hr)

/-! ### Slice pairs -/

/-- What a decoder of slice pairs is for: the slices at the offset, if there are bytes enough. -/
def SlicePairDecoded (host : Endianness) (n start : ℕ) (buffer : List (BitVec 8))
    (result : Decoded (BitVec (8 * n) × BitVec (8 * n))) : Prop :=
  if start + n * 2 ≤ buffer.length then
    result = .value (ofMemory host n (bytesAt n buffer start),
      ofMemory host n (bytesAt n buffer (start + n)))
  else result = .fatal

/-- The slices that were encoded. -/
theorem slicePairDecoded_encoded (input : BitVec (8 * n) × BitVec (8 * n))
    (pre post : List (BitVec 8)) (result : Decoded (BitVec (8 * n) × BitVec (8 * n))) :
    SlicePairDecoded host n pre.length (slicePairToCharVector host n input pre ++ post) result ↔
      result = .value input := by
  have hlength : (toMemory host n input.1).length = n := length_toMemory _
  have hlength' : (toMemory host n input.2).length = n := length_toMemory _
  have hle : pre.length + n * 2 ≤ (slicePairToCharVector host n input pre ++ post).length := by
    simp only [slicePairToCharVector, List.length_append, length_toMemory]
    omega
  have hfirst : bytesAt n (slicePairToCharVector host n input pre ++ post) pre.length =
      toMemory host n input.1 := by
    rw [slicePairToCharVector, List.append_assoc, List.append_assoc, bytesAt, List.drop_left,
      List.take_left' hlength]
  have hsecond : bytesAt n (slicePairToCharVector host n input pre ++ post) (pre.length + n) =
      toMemory host n input.2 := by
    have hdrop : pre.length + n = (pre ++ toMemory host n input.1).length := by
      rw [List.length_append, hlength]
    rw [slicePairToCharVector, List.append_assoc, bytesAt, hdrop, List.drop_left,
      List.take_left' hlength']
  rw [SlicePairDecoded, if_pos hle, hfirst, hsecond, ofMemory_toMemory, ofMemory_toMemory]

/-- The decoder of slice pairs is right only at the offset zero, unless it takes too few bytes. -/
theorem charVectorToSlicePair_iff (hn : 0 < n) (start : ℕ) (buffer : List (BitVec 8)) :
    SlicePairDecoded host n start buffer
        (charVectorToSlicePair host n start (start + n * 2) buffer) ↔
      if start = 0 then buffer.length ≤ n ∨ n * 2 ≤ buffer.length
      else buffer.length < start + n * 2 := by
  rw [SlicePairDecoded, charVectorToSlicePair]
  by_cases hshort : buffer.length ≤ start
  · rw [if_pos hshort, if_neg (by omega)]
    split
    case isTrue hzero => exact iff_of_true rfl (.inl (by omega))
    case isFalse => exact iff_of_true rfl (by omega)
  have hrange : ¬(start + n * 2 ≤ start ∨ start + n * 2 ≠ start + n * 2) := by omega
  rw [if_neg hshort, if_neg hrange]
  by_cases hstart : start = 0
  · subst hstart
    have hfirst : charVectorToValue host n 0 n buffer =
        if n ≤ buffer.length then .value (ofMemory host n (bytesAt n buffer 0))
        else .value (partialValue host n (buffer.drop 0)) := by
      rw [charVectorToValue, if_neg hshort, if_neg (by omega)]
    rw [if_pos rfl, hfirst, charVectorToValue]
    by_cases hone : buffer.length ≤ 0 + n
    · have hpair {d : Decoded (BitVec (8 * n))} : makePair d .fatal = .fatal := by
        cases d <;> rfl
      have htwo : ¬0 + n * 2 ≤ buffer.length := by omega
      rw [if_pos hone, hpair, if_neg htwo]
      exact iff_of_true rfl (.inl (by omega))
    have hsecond : ¬(0 + n * 2 ≤ 0 + n ∨ 0 + n * 2 ≠ 0 + n + n) := by omega
    rw [if_neg hone, if_neg hsecond, if_pos (by omega : n ≤ buffer.length)]
    by_cases htwo : 0 + n * 2 ≤ buffer.length
    · rw [if_pos htwo, if_pos htwo]
      exact iff_of_true rfl (.inr (by omega))
    · rw [if_neg htwo, if_neg htwo]
      exact iff_of_false nofun (by omega)
  · have hfatal : charVectorToValue host n start n buffer = .fatal := by
      rw [charVectorToValue, if_neg hshort, if_pos (by omega)]
    have hpair {d : Decoded (BitVec (8 * n))} : makePair .fatal d = .fatal := by
      cases d <;> rfl
    rw [if_neg hstart, hfatal, hpair]
    split
    case isTrue hle => exact iff_of_false nofun (Nat.not_lt.mpr hle)
    case isFalse hlt => exact iff_of_true rfl (Nat.not_le.mp hlt)

/-- **Byte-vector codecs.** The decoder of `unsigned char` vectors returns the values that were
encoded if they count up, the one of `char` vectors whenever there are any, and the overloads agree
where all elements are read alike; the decoder of slice pairs is right at the offset zero, but takes
too few bytes there. -/
theorem value_vectors_iff (host : Endianness) (w : ValueWidth) :
    (∀ (xs : List (BitVec (8 * w.bytes))) (pre post : List (BitVec 8)),
      charVectorToValueVector host w.bytes pre.length (pre.length + w.bytes * xs.length)
          (valueVectorToCharVector host w.bytes xs pre ++ post) = .value xs ↔
        xs ≠ [] ∧ CountsUp xs) ∧
    (∀ (xs : List (BitVec (8 * w.bytes))) (pre post : List (BitVec 8)),
      signedCharVectorToValueVector host w.bytes pre.length (pre.length + w.bytes * xs.length)
          (valueVectorToCharVector host w.bytes xs pre ++ post) = .value xs ↔ xs ≠ []) ∧
    (∀ (xs : List (BitVec (8 * w.bytes))) (pre post : List (BitVec 8)),
      byteStringToValueVector w.bytes pre.length (pre.length + w.bytes * xs.length)
          (valueVectorToByteString w.bytes xs pre ++ post) = .value xs ↔ xs ≠ []) ∧
    (∀ (start stop : ℕ) (buffer : List (BitVec 8)),
      (charVectorToValueVector host w.bytes start stop buffer =
          signedCharVectorToValueVector host w.bytes start stop buffer ∧
        signedCharVectorToValueVector host w.bytes start stop buffer =
          byteStringToValueVector w.bytes start stop buffer) ↔
        ¬IsRange w.bytes start stop ∨ buffer.length < start + w.bytes ∨
          stop ≤ buffer.length ∧ Alike host w.bytes start stop buffer) ∧
    ∀ (start : ℕ) (buffer : List (BitVec 8)),
      SlicePairDecoded host w.bytes start buffer
          (charVectorToSlicePair host w.bytes start (start + w.bytes * 2) buffer) ↔
        if start = 0 then buffer.length ≤ w.bytes ∨ w.bytes * 2 ≤ buffer.length
        else buffer.length < start + w.bytes * 2 := by
  have hn := w.bytes_pos
  refine ⟨fun xs pre post ↦ charVectorToValueVector_encoded_iff pre post xs hn,
    fun xs pre post ↦ decodeVector_encoded_iff pre post xs hn length_toMemory ofMemory_toMemory,
    fun xs pre post ↦ ?_, overloads_agree_iff hn, charVectorToSlicePair_iff hn⟩
  apply decodeVector_encoded_iff pre post xs hn (bigEndian_length w.bytes)
  intro v
  rw [sumBytes_eq]
  exact ofBigEndian_bigEndian w.bytes v

/-- Two zeros come back as zero and one. -/
theorem not_decoded_zeros :
    ¬∀ xs : List (BitVec (8 * ValueWidth.w64.bytes)),
      charVectorToValueVector .little ValueWidth.w64.bytes 0 (ValueWidth.w64.bytes * xs.length)
        (valueVectorToCharVector .little ValueWidth.w64.bytes xs []) = .value xs := by
  intro h
  have hzeros := h [0#64, 0#64]
  have hcounts := (charVectorToValueVector_encoded_iff [] [] [0#64, 0#64]
    ValueWidth.w64.bytes_pos).mp (by simpa using hzeros)
  exact absurd hcounts.2 (by decide)

end

end Safrn.Util
