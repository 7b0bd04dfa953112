import Safrn.Cuckoo.Placement

/-!
# The encoding of identifiers

The builds double an identifier in Java's 32-bit arithmetic and check the range of the result
(`CuckooTable.java:471-499`, `:711-739`). `unhash(...) >>> 1` reads an identifier back from its
cell. The doubling drops the top bit, so a negative identifier may pass for a non-negative one.
-/

namespace Safrn.Cuckoo

namespace HashParams

variable (p : HashParams)

/-- The identifier that `unhash(wa, hwax, xR) >>> 1` reads from a cell. -/
def recovered (wa hwax xR : Nat) : BitVec 32 := BitVec.ofNat 32 (p.unhash wa hwax xR) >>> (1 : Nat)

/-- The identifiers whose doubles have `xBits` bits. -/
def IdInRange (id : BitVec 32) : Prop := 0 ≤ id.toInt ∧ id.toInt < 2 ^ (p.xBits - 1)

variable {p}

/-- An element is twice its identifier without the top bit. -/
theorem element_eq (id : BitVec 32) : element id = 2 * (id.toNat % 2 ^ 31) := by
  rw [element, BitVec.toNat_mul]
  show id.toNat * 2 % 2 ^ 32 = 2 * (id.toNat % 2 ^ 31)
  omega

/-- A cell gives an identifier back without the top bit. -/
theorem toNat_recovered {id : BitVec 32} (h : p.inRange (element id) = true) (wa : Nat) :
    (p.recovered wa (p.cell wa (element id)) (p.splitR (element id))).toNat =
      id.toNat % 2 ^ 31 := by
  have hlt : id.toNat % 2 ^ 31 < 2 ^ 31 := Nat.mod_lt _ (by decide)
  rw [recovered, p.unhash_cell wa ((p.inRange_iff _).mp h), BitVec.toNat_ushiftRight,
    BitVec.toNat_ofNat, element_eq, Nat.shiftRight_eq_div_pow]
  omega

theorem toInt_nonneg_iff (id : BitVec 32) : 0 ≤ id.toInt ↔ id.toNat < 2 ^ 31 := by
  have hlt := id.isLt
  rw [BitVec.toInt_eq_toNat_cond]
  split <;> omega

/-- A non-negative identifier is read back. -/
theorem recovered_of_nonneg {id : BitVec 32} (h : p.inRange (element id) = true)
    (hid : 0 ≤ id.toInt) (wa : Nat) :
    p.recovered wa (p.cell wa (element id)) (p.splitR (element id)) = id := by
  apply BitVec.eq_of_toNat_eq
  rw [toNat_recovered h wa]
  exact Nat.mod_eq_of_lt ((toInt_nonneg_iff id).mp hid)

/-- The range check accepts a non-negative identifier exactly when it is in range. -/
theorem inRange_element_iff {id : BitVec 32} (hid : 0 ≤ id.toInt) :
    p.inRange (element id) = true ↔ p.IdInRange id := by
  have hlt := (toInt_nonneg_iff id).mp hid
  have hint : id.toInt = id.toNat := by
    rw [BitVec.toInt_eq_toNat_cond, if_pos (by omega)]
  have hbits : 2 ^ p.xBits = 2 * 2 ^ (p.xBits - 1) := by
    rw [← Nat.pow_succ', Nat.succ_eq_add_one, Nat.sub_add_cancel (by have := p.two_le_xBits; omega)]
  rw [inRange_iff, element_eq, Nat.mod_eq_of_lt hlt, hbits, IdInRange, hint]
  constructor
  · intro h
    exact ⟨by omega, by exact_mod_cast (show id.toNat < 2 ^ (p.xBits - 1) by omega)⟩
  · rintro ⟨-, h⟩
    have h' : id.toNat < 2 ^ (p.xBits - 1) := by exact_mod_cast h
    omega

end HashParams

namespace CuckooTable

open HashParams

variable {t : CuckooTable} {ids : List (BitVec 32)}

/-- An identifier is read back from a cell of the table. -/
def Readable (t : CuckooTable) (id : BitVec 32) : Prop :=
  ∃ wa < 4, ∃ hwax < t.subtableSize, t.subtables wa hwax ≠ NULL_XR ∧
    t.recovered wa hwax (t.subtables wa hwax) = id

/-- What the encoding of a list of identifiers should do: the range check accepts no other than
those in range, no two of them share an element, and the accepted ones are read back, from their
own cells and from the tables of both builds. -/
structure EncodesIds (t : CuckooTable) (ids : List (BitVec 32)) : Prop where
  rejected : ∀ id ∈ ids, ¬t.IdInRange id → t.inRange (element id) = false
  accepted : ∀ id ∈ ids, t.IdInRange id → t.inRange (element id) = true
  injective : ∀ id ∈ ids, ∀ id' ∈ ids, t.inRange (element id) = true →
    t.inRange (element id') = true → element id = element id' → id = id'
  recovered : ∀ id ∈ ids, t.inRange (element id) = true → ∀ wa,
    t.recovered wa (t.cell wa (element id)) (t.splitR (element id)) = id
  alice : ∀ maxDepth t', t.buildAlice (some ids) maxDepth = (t', .ok ()) →
    ∀ id ∈ ids, t'.Readable id
  bob : ∀ maxDepth t', t.buildBob (some ids) maxDepth = (t', .ok ()) →
    ∀ id ∈ ids, t'.Readable id

/-- A stored identifier is readable when its own cell gives it back. -/
theorem readable_of_stores {t' : CuckooTable} (hp : t'.toHashParams = t.toHashParams)
    {id : BitVec 32} {wa : Nat} (hwa : wa < 4) (hrange : t.inRange (element id) = true)
    (hstores : t.Stores t'.subtables wa (element id))
    (hrecovered : t.recovered wa (t.cell wa (element id)) (t.splitR (element id)) = id) :
    t'.Readable id := by
  have hcell : t'.subtables wa (t.cell wa (element id)) = t.splitR (element id) := hstores
  refine ⟨wa, hwa, t.cell wa (element id), ?_, ?_, ?_⟩
  · rw [hp]
    exact t.cell_lt wa ((t.inRange_iff _).mp hrange)
  · rw [hcell]
    exact t.splitR_ne_null (element_even id)
  · rw [hcell, hp, hrecovered]

/-- The encoding works for a list of identifiers exactly when the range check accepts none of its
negative ones. -/
theorem encodesIds_iff (t : CuckooTable) (ids : List (BitVec 32)) :
    t.EncodesIds ids ↔ ∀ id ∈ ids, id.toInt < 0 → 2 ^ t.xBits ≤ (id * 2).toNat := by
  have hnegative : ∀ id : BitVec 32, t.inRange (element id) = false ↔
      2 ^ t.xBits ≤ (id * 2).toNat := by
    intro id
    rw [← Bool.not_eq_true, inRange_iff, Nat.not_lt, element]
  constructor
  · intro h id hid hneg
    rw [← hnegative]
    exact h.rejected id hid fun hrange ↦ absurd hrange.1 (Int.not_le.mpr hneg)
  · intro h
    have hnonneg : ∀ id ∈ ids, t.inRange (element id) = true → 0 ≤ id.toInt := by
      intro id hid hrange
      by_contra hneg
      have hout := (hnegative id).mpr (h id hid (Int.not_le.mp hneg))
      rw [hrange] at hout
      contradiction
    have hread : ∀ id ∈ ids, t.inRange (element id) = true → ∀ wa,
        t.recovered wa (t.cell wa (element id)) (t.splitR (element id)) = id :=
      fun id hid hrange ↦ recovered_of_nonneg hrange (hnonneg id hid hrange)
    constructor
    · intro id hid hout
      by_contra hrange
      rw [Bool.not_eq_false] at hrange
      exact hout ((inRange_element_iff (hnonneg id hid hrange)).mp hrange)
    · exact fun id _ hin ↦ (inRange_element_iff hin.1).mpr hin
    · intro id hid id' hid' hrange hrange' heq
      rw [← hread id hid hrange 0, ← hread id' hid' hrange' 0, heq]
    · exact hread
    · intro maxDepth t' hbuild id hid
      obtain ⟨hp, hadmitted, hsettled⟩ := buildAlice_ok hbuild
      have hx := List.mem_map_of_mem (f := element) hid
      obtain ⟨w, hw, hside⟩ := hsettled.exists_side hadmitted.nodup hadmitted.admissible hx
      have hrange := (t.inRange_iff _).mpr (hadmitted.admissible _ hx).1
      have hmem : w * 2 + 0 ∈ aliceSub w := by simp [aliceSub]
      exact readable_of_stores hp (by omega) hrange ((hside w hw _ hmem).mpr rfl)
        (hread id hid hrange _)
    · intro maxDepth t' hbuild id hid
      obtain ⟨hp, hadmitted, hsettled⟩ := buildBob_ok hbuild
      have hx := List.mem_map_of_mem (f := element) hid
      obtain ⟨w, hw, hside⟩ :=
        (hsettled 0 (by decide)).exists_side hadmitted.nodup hadmitted.admissible hx
      have hrange := (t.inRange_iff _).mpr (hadmitted.admissible _ hx).1
      have hmem : 0 * 2 + w ∈ bobSub 0 w := by simp [bobSub]
      exact readable_of_stores hp (by omega) hrange ((hside w hw _ hmem).mpr rfl)
        (hread id hid hrange _)

/-- The least `int` is accepted as if it were 0. -/
theorem not_encodesIds_minValue : ¬smallTable.EncodesIds [0x80000000#32] := by
  intro h
  have hrejected := h.rejected 0x80000000#32 (by simp) fun hrange ↦ absurd hrange.1 (by decide)
  exact absurd hrejected (by decide)

end CuckooTable
end Safrn.Cuckoo
