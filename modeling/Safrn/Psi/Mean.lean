import Safrn.Base.BigEndian
import Safrn.Psi.Run

/-!
# The means of a query

Models `BackServerRawHandler.java:2599-2635,3465-3475` and
`FrontServerHttpHandler.java:1105-1125,1210-1215,1284-1337`: the income server adds up its shares of
the executions with all group servers, each group server sends its own share, and the front server
adds up what they send in the order in which it arrives. A residue packs a count in its low 32 bits
and a sum in the bits above. What is printed is a quotient of floating point numbers; the two
integers that they are made of are modelled here.
-/

namespace Safrn.Psi

open Safrn.Base Safrn.Cuckoo

/-! ### Two numbers in one residue -/

/-- Unpacking gives the two numbers back exactly when neither of them leaves its bits. -/
theorem unpack_iff {m : Int} {count : Nat} {sum : Int} (hfits : |count + sum * 2 ^ 32| < m) :
    ((count + sum * 2 ^ 32) % m % 2 ^ 32 = count ∧
      ((count + sum * 2 ^ 32) % m) >>> (32 : Nat) = sum) ↔
      count < 2 ^ 32 ∧ 0 ≤ sum := by
  obtain ⟨hlo, hhi⟩ := abs_lt.mp hfits
  rw [Int.shiftRight_eq_div_pow]
  constructor
  · rintro ⟨hcount, hsum⟩
    have hres := Int.emod_nonneg (count + sum * 2 ^ 32) (show m ≠ 0 by omega)
    omega
  · rintro ⟨hcount, hsum⟩
    rw [Int.emod_eq_of_lt (by omega) hhi]
    omega

/-! ### The executions of one query -/

/-- The executions of one query: the income server and each of the group servers, on the way to
the end of the protocol or there. -/
structure MeanQuery where
  globals : Globals
  groupCount : Nat
  session : Nat → Session
  config : Nat → Config
  globals_eq : ∀ p < groupCount, (session p).globals = globals
  reachable : ∀ p < groupCount, (session p).machine.Reachable (config p)
  finished : ∀ p < groupCount, (config p).stage = .finished
  wColumnCount_pos : 0 < globals.wColumnCount

namespace MeanQuery

variable (Q : MeanQuery)

/-- `I_A_M_YI_2`: what the income server sends. -/
def I_A_M_YI_2 (row col : Nat) : Int :=
  ((List.range Q.groupCount).map fun p ↦ Session.out_S (Q.config p) row col).sum %
    Q.globals.modulus

/-- `G_A_M_YI_2`: what the group server `p` sends. -/
def G_A_M_YI_2 (p row col : Nat) : Int := Session.out_U (Q.config p) row col

/-- The summands of the back server `i`: the income server is the first one. -/
def summands : Nat → Nat → Nat → Int
  | 0 => Q.I_A_M_YI_2
  | p + 1 => Q.G_A_M_YI_2 p

/-- `userEventTriggered`: add the summands of a back server. -/
def userEventTriggered (sums : Nat → Nat → Int) (summands : Nat → Nat → Int) :
    Nat → Nat → Int := fun row col ↦ sums row col + summands row col

/-- The sums when the back servers have answered in a certain order. -/
def sums (order : List Nat) : Nat → Nat → Int :=
  order.foldl (fun sums i ↦ userEventTriggered sums (Q.summands i)) fun _ _ ↦ 0

end MeanQuery

/-- The dividend and the divisor of the mean of each column of an output row. -/
def means (modulus dvCount : Nat) (row : Nat → Int) : List (Int × Int) :=
  let row j := row j % modulus
  let count := row 0 % 2 ^ 32
  (List.range dvCount).map fun j ↦ (row j >>> (32 : Nat), count)

/-! ### The values that match -/

namespace Session

variable (P : Session)

theorem commonSum_eq (row col : Nat) :
    P.commonSum row col =
      (P.matched row).length + ((P.matched row).map fun a ↦ a.dv col).sum * 2 ^ 32 := by
  have hsum : ∀ rows : List AliceRow, (rows.map fun a ↦ 1 + a.dv col * 2 ^ 32).sum =
      rows.length + (rows.map fun a ↦ a.dv col).sum * 2 ^ 32 := by
    intro rows
    induction rows with
    | nil => rfl
    | cons a rows ih =>
      rw [List.map_cons, List.sum_cons, ih, List.map_cons, List.sum_cons, List.length_cons]
      push_cast
      ring
  exact hsum (P.matched row)

end Session

namespace MeanQuery

variable (Q : MeanQuery)

/-- The number of matched rows, over all group servers. -/
def count (row : Nat) : Nat :=
  ((List.range Q.groupCount).map fun p ↦ ((Q.session p).matched row).length).sum

/-- The sum of a column over the matched rows, over all group servers. -/
def sum (row col : Nat) : Int :=
  ((List.range Q.groupCount).map fun p ↦
    (((Q.session p).matched row).map fun a ↦ a.dv col).sum).sum

/-- The packed totals fit the modulus. -/
def Fits : Prop := ∀ row < Q.globals.rowCount, ∀ col < Q.globals.wColumnCount,
  |(Q.count row + Q.sum row col * 2 ^ 32 : Int)| < (Q.globals.modulus : Int)

variable {Q}

/-- The order of the answers does not matter. -/
private theorem sums_eq {order : List Nat} (horder : order.Perm (List.range (Q.groupCount + 1)))
    (row col : Nat) :
    Q.sums order row col = Q.I_A_M_YI_2 row col +
      ((List.range Q.groupCount).map fun p ↦ Q.G_A_M_YI_2 p row col).sum := by
  have hfold : ∀ (order : List Nat) (sums : Nat → Nat → Int),
      order.foldl (fun sums i ↦ userEventTriggered sums (Q.summands i)) sums row col =
        sums row col + (order.map fun i ↦ Q.summands i row col).sum := by
    intro order
    induction order with
    | nil => intro sums; simp
    | cons i order ih =>
      intro sums
      rw [List.foldl_cons, ih, List.map_cons, List.sum_cons, userEventTriggered, add_assoc]
  rw [sums, hfold, zero_add, (horder.map _).sum_eq, List.range_succ_eq_map, List.map_cons,
    List.sum_cons, List.map_map]
  rfl

/-- Sums of congruent numbers are congruent. -/
private theorem sum_modEq {m : Int} {n : Nat} {f g : Nat → Int}
    (h : ∀ p < n, f p ≡ g p [ZMOD m]) :
    ((List.range n).map f).sum ≡ ((List.range n).map g).sum [ZMOD m] := by
  induction n with
  | zero => rfl
  | succ n ih =>
    rw [List.range_succ, List.map_append, List.map_append, List.sum_append, List.sum_append]
    apply (ih fun p hp ↦ h p (Nat.lt_succ_of_lt hp)).add
    simpa using h n (Nat.lt_succ_self n)

/-- The residues reconstruct the packed totals. -/
theorem sums_modEq {order : List Nat} (horder : order.Perm (List.range (Q.groupCount + 1)))
    {row col : Nat} (hrow : row < Q.globals.rowCount) (hcol : col < Q.globals.wColumnCount) :
    Q.sums order row col ≡ Q.count row + Q.sum row col * 2 ^ 32 [ZMOD Q.globals.modulus] := by
  have hshares : ∀ p < Q.groupCount,
      Session.out_S (Q.config p) row col + Q.G_A_M_YI_2 p row col ≡
        (Q.session p).commonSum row col [ZMOD Q.globals.modulus] := by
    intro p hp
    have hfacts := (inv_reachable (Q.reachable p hp)).facts
    rw [Q.finished p hp] at hfacts
    have hglobals := Q.globals_eq p hp
    have hshare := hfacts row (by rwa [hglobals]) col (by rwa [hglobals])
    rwa [hglobals] at hshare
  have htotal : ((List.range Q.groupCount).map fun p ↦ (Q.session p).commonSum row col).sum =
      Q.count row + Q.sum row col * 2 ^ 32 := by
    rw [count, sum]
    induction Q.groupCount with
    | zero => rfl
    | succ n ih =>
      rw [List.range_succ, List.map_append, List.map_append, List.map_append, List.sum_append,
        List.sum_append, List.sum_append, ih]
      simp only [List.map_singleton, List.sum_singleton, Session.commonSum_eq]
      push_cast
      ring
  rw [sums_eq horder, ← htotal]
  have hmod : Q.I_A_M_YI_2 row col ≡
      ((List.range Q.groupCount).map fun p ↦ Session.out_S (Q.config p) row col).sum
        [ZMOD Q.globals.modulus] := Int.mod_modEq _ _
  apply (hmod.add_right _).trans
  rw [← List.sum_map_add]
  exact sum_modEq hshares

/-- **Means of a query.** In whatever order the back servers answer, the front server divides the
sums of all columns by the count if and only if the count has 32 bits and no column's sum is
negative. -/
theorem means_eq_iff {order : List Nat} (horder : order.Perm (List.range (Q.groupCount + 1)))
    (hfits : Q.Fits) :
    (∀ row < Q.globals.rowCount,
      means Q.globals.modulus Q.globals.wColumnCount (Q.sums order row) =
        (List.range Q.globals.wColumnCount).map fun col ↦ (Q.sum row col, (Q.count row : Int))) ↔
      ∀ row < Q.globals.rowCount, Q.count row < 2 ^ 32 ∧
        ∀ col < Q.globals.wColumnCount, 0 ≤ Q.sum row col := by
  apply forall₂_congr
  intro row hrow
  have hres : ∀ col < Q.globals.wColumnCount, Q.sums order row col % Q.globals.modulus =
      (Q.count row + Q.sum row col * 2 ^ 32) % Q.globals.modulus :=
    fun col hcol ↦ sums_modEq horder hrow hcol
  have hunpack := fun col hcol ↦ unpack_iff (hfits row hrow col hcol)
  have hpos := Q.wColumnCount_pos
  rw [means, List.map_inj_left]
  simp only [List.mem_range, Prod.mk.injEq]
  constructor
  · intro h
    have hcol : ∀ col < Q.globals.wColumnCount, Q.count row < 2 ^ 32 ∧ 0 ≤ Q.sum row col := by
      intro col hcol
      obtain ⟨hsum, hcount⟩ := h col hcol
      rw [hres col hcol] at hsum
      rw [hres 0 hpos] at hcount
      constructor
      · have hlt := Int.emod_lt_of_pos ((Q.count row + Q.sum row 0 * 2 ^ 32) % Q.globals.modulus)
          (show (0 : Int) < 2 ^ 32 by decide)
        rw [hcount] at hlt
        exact_mod_cast hlt
      · rw [← hsum, Int.shiftRight_eq_div_pow]
        apply Int.ediv_nonneg _ (by positivity)
        exact Int.emod_nonneg _ (by have := Q.globals.modulus_pos; omega)
    exact ⟨(hcol 0 hpos).1, fun col hcol' ↦ (hcol col hcol').2⟩
  · rintro ⟨hcount, hsum⟩ col hcol
    rw [hres col hcol, hres 0 hpos]
    exact ⟨((hunpack col hcol).mpr ⟨hcount, hsum col hcol⟩).2,
      ((hunpack 0 hpos).mpr ⟨hcount, hsum 0 hpos⟩).1⟩

end MeanQuery

/-! ### A small query -/

/-- Eight bytes to the element, in a buffer of its own. -/
def eightBytes (m : Nat) (hm : m ≤ 2 ^ 64) : BigArray fun v : Int ↦ 0 ≤ v ∧ v < m where
  capacities len := List.replicate len 8
  getBuffers len array := (List.range len).map fun i ↦
    (bigEndian 8 (BitVec.ofNat 64 (array i).toNat)).map UInt8.ofBitVec
  getValue _ buffers i := (ofBigEndian 8 ((buffers.getD i []).map UInt8.toBitVec)).toNat
  length_getBuffers len array := by
    rw [List.map_map, List.map_congr_left (g := fun _ ↦ 8) fun i _ ↦ by
      rw [Function.comp_apply, List.length_map, bigEndian_length], List.map_const',
      List.length_range]
  getValue_getBuffers len array hvalid i hi := by
    obtain ⟨hlo, hhi⟩ := hvalid i hi
    rw [List.getD_eq_getElem _ _ (by rwa [List.length_map, List.length_range]),
      List.getElem_map, List.getElem_range, List.map_map]
    have hid : (UInt8.toBitVec ∘ UInt8.ofBitVec) = id := rfl
    rw [hid, List.map_id, ofBigEndian_bigEndian, BitVec.toNat_ofNat, Nat.mod_eq_of_lt (by omega),
      Int.toNat_of_nonneg hlo]

/-- One row and one column, modulo `2 ^ 38`. -/
def pricedGlobals : Globals where
  hashParams := smallTable.toHashParams
  modulus := 2 ^ 38
  rowCount := 1
  wColumnCount := 1
  modulus_pos := by decide

/-- One identifier matches; its value is `dv`. -/
def pricedSession (dv : Int) : Session where
  globals := pricedGlobals
  bigBitArray := packedBits
  bigByteArray := oneByteEach _ UInt8.ofNat UInt8.toNat fun v hv ↦ UInt8.toNat_ofNat_of_lt' hv
  bigResidueArray := eightBytes (2 ^ 38) (by decide)
  sOt _ := smallOt Nat id 32
  uOt _ := smallOt Nat id 256
  wOt _ _ := smallOt Int Nat.cast 97
  rows := [⟨0, fun _ ↦ 10⟩, ⟨1, fun _ ↦ dv⟩, ⟨4, fun _ ↦ 30⟩]
  groups _ := [1, 2]
  aBytes _ c k := UInt8.ofNat (3 * c + k)
  randbuf _ c k := UInt8.ofNat (5 * c + k)
  r _ _ c := c
  sOt_dealt _ _ := smallOt_dealt id 32 _ fun v ↦ Nat.mod_lt v (by decide)
  uOt_dealt _ _ := smallOt_dealt id 256 _ fun v ↦ Nat.mod_lt v (by decide)
  wOt_dealt _ _ _ _ := smallOt_dealt Nat.cast 97 _ fun v ↦ by
    have hlt : v % 97 < 97 := Nat.mod_lt v (by decide)
    exact ⟨Int.natCast_nonneg _, by simp only [pricedGlobals]; omega⟩
  rows_nonneg := by simp
  groups_nonneg := by simp

/-- A query with one group server and the value 20 or -1. -/
private theorem exists_pricedQuery {dv : Int} (hdv : dv = 20 ∨ dv = -1) : ∃ Q : MeanQuery,
    Q.globals = pricedGlobals ∧ Q.groupCount = 1 ∧ ∀ p, Q.session p = pricedSession dv := by
  obtain ⟨s, hs⟩ : ∃ s, (pricedSession dv).I_G_M_YI_0 (pricedSession dv).newServerS = some s := by
    apply Option.isSome_iff_exists.mp
    rcases hdv with rfl | rfl <;> rfl
  obtain ⟨u, hu⟩ : ∃ u, (pricedSession dv).G_I_M_YI_1 (pricedSession dv).newServerU = some u := by
    apply Option.isSome_iff_exists.mp
    rcases hdv with rfl | rfl <;> rfl
  have hstart : (pricedSession dv).machine.Reachable
      ((pricedSession dv).send s u (fun _ ↦ []) .selbits) := ⟨_, [], ⟨s, u, hs, hu, rfl⟩, .nil _⟩
  obtain ⟨ns, c, hrun, hfin⟩ := exists_finished (inv_reachable hstart)
  have hc : (pricedSession dv).machine.Reachable c := ⟨_, ns, ⟨s, u, hs, hu, rfl⟩, hrun⟩
  exact ⟨⟨pricedGlobals, 1, fun _ ↦ pricedSession dv, fun _ ↦ c, fun _ _ ↦ rfl, fun _ _ ↦ hc,
    fun _ _ ↦ hfin, by decide⟩, rfl, rfl, fun _ ↦ rfl⟩

private theorem priced_count {dv : Int} {Q : MeanQuery} (hcount : Q.groupCount = 1)
    (hsession : ∀ p, Q.session p = pricedSession dv) (row : Nat) : Q.count row = 1 := by
  rw [MeanQuery.count, hcount]
  simp only [hsession]
  rfl

private theorem priced_sum {dv : Int} {Q : MeanQuery} (hcount : Q.groupCount = 1)
    (hsession : ∀ p, Q.session p = pricedSession dv) (row col : Nat) : Q.sum row col = dv := by
  rw [MeanQuery.sum, hcount]
  simp only [hsession]
  show dv + 0 + 0 = dv
  omega

theorem means_priced : ∃ Q : MeanQuery, Q.Fits ∧ Q.count 0 = 1 ∧ Q.sum 0 0 = 20 ∧
    ∀ row < Q.globals.rowCount,
      means Q.globals.modulus Q.globals.wColumnCount (Q.sums [1, 0] row) =
        (List.range Q.globals.wColumnCount).map fun col ↦
          (Q.sum row col, (Q.count row : Int)) := by
  obtain ⟨Q, hglobals, hgroups, hsession⟩ := exists_pricedQuery (.inl rfl)
  have hcount := priced_count hgroups hsession
  have hsum := priced_sum hgroups hsession
  have hfits : Q.Fits := by
    intro row _ col _
    rw [hcount, hsum, hglobals]
    decide
  have horder : [1, 0].Perm (List.range (Q.groupCount + 1)) := by
    rw [hgroups]
    decide
  refine ⟨Q, hfits, hcount 0, hsum 0 0, (MeanQuery.means_eq_iff horder hfits).mpr ?_⟩
  intro row _
  refine ⟨by rw [hcount]; decide, fun col _ ↦ ?_⟩
  rw [hsum]
  decide

/-- One matched row with the value -1: the sum that is divided is 63. -/
theorem means_negative : ∃ Q : MeanQuery, Q.Fits ∧ Q.count 0 = 1 ∧ Q.sum 0 0 = -1 ∧
    means Q.globals.modulus Q.globals.wColumnCount (Q.sums [0, 1] 0) = [(63, 1)] ∧
    ¬ ∀ row < Q.globals.rowCount,
      means Q.globals.modulus Q.globals.wColumnCount (Q.sums [0, 1] row) =
        (List.range Q.globals.wColumnCount).map fun col ↦
          (Q.sum row col, (Q.count row : Int)) := by
  obtain ⟨Q, hglobals, hgroups, hsession⟩ := exists_pricedQuery (.inr rfl)
  have hcount := priced_count hgroups hsession
  have hsum := priced_sum hgroups hsession
  have hfits : Q.Fits := by
    intro row _ col _
    rw [hcount, hsum, hglobals]
    decide
  have horder : [0, 1].Perm (List.range (Q.groupCount + 1)) := by
    rw [hgroups]
    decide
  have hres : Q.sums [0, 1] 0 0 % Q.globals.modulus = (1 + -1 * 2 ^ 32) % 2 ^ 38 := by
    have hrow : 0 < Q.globals.rowCount := by
      rw [hglobals]
      decide
    have hcol : 0 < Q.globals.wColumnCount := by
      rw [hglobals]
      decide
    have hmod := Q.sums_modEq horder hrow hcol
    rw [hcount, hsum, hglobals] at hmod
    rw [hglobals]
    exact hmod
  have hwidth : List.range Q.globals.wColumnCount = [0] := by
    rw [hglobals]
    rfl
  have hmeans : means Q.globals.modulus Q.globals.wColumnCount (Q.sums [0, 1] 0) =
      [(63, 1)] := by
    simp only [means, hwidth, List.map_cons, List.map_nil, hres]
    rfl
  refine ⟨Q, hfits, hcount 0, hsum 0 0, hmeans, fun h ↦ ?_⟩
  have hzero := h 0 (by rw [hglobals]; decide)
  rw [hmeans, hwidth, List.map_singleton, hsum] at hzero
  simp at hzero

end Safrn.Psi
