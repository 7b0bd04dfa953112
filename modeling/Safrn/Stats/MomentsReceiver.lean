import Mathlib.Algebra.BigOperators.Group.List.Basic
import Mathlib.Data.Int.ModEq
import Mathlib.Data.Rat.Cast.Order
import Mathlib.Tactic.Positivity
import Mathlib.Tactic.Ring

/-!
# The moments that the recipient prints

Models `MomentsReceiver::handleReceive` and `MomentsPrettyPrint`
(`recipient/MomentsReceiver.cpp:34-152`). The shares of all data owners are added modulo
`endModulus`, and the sums are cast down to 32 bits. `none` stands for a message that is too short,
for a shift of an `int` beyond its width and for a missing name.
-/

namespace Safrn.Stats

/-- `1 << s` of an `int`. -/
def shiftInt (s : Nat) : Option Nat := if s < 31 then some (1 <<< s) else none

/-- `static_cast<SmallNum>` of a `LargeNum`. -/
def toSmallNum (num : Nat) : Nat := num % 2 ^ 32

/-! ## Printing -/

/-- `moment_names`. -/
def momentNames : List String := ["Mean     ", "Variance ", "Skew     "]

/-- The first loop: moment `k` is divided by its scale. -/
def scaleMoments (bitsOfPrecision : Nat) : Nat → List Nat → Option (List ℚ)
  | _, [] => some []
  | k, res :: results => do
    let scale ← shiftInt ((k + 2) * bitsOfPrecision)
    let moments ← scaleMoments bitsOfPrecision (k + 1) results
    return res / scale :: moments

/-- The central moments of the raw ones. -/
def centralMoments (sqrt : ℚ → ℚ) : List ℚ → List ℚ
  | m₀ :: m₁ :: rest =>
    let variance := m₁ - m₀ * m₀
    m₀ :: variance :: match rest with
      | m₂ :: rest =>
        (m₂ - 3 * m₀ * variance - m₀ * m₀ * m₀) / sqrt (variance * variance * variance) :: rest
      | [] => []
  | moments => moments

/-- What is written: the count, the raw moments behind the table, and its rows. -/
structure Report where
  count : Option ℚ
  moments : List ℚ
  rows : List (String × ℚ)

/-- The second loop: every moment with its name. -/
def nameMoments (moments : List ℚ) : Option (List (String × ℚ)) :=
  if moments.length ≤ momentNames.length then some (momentNames.zip moments) else none

/-- `MomentsPrettyPrint`. -/
def momentsPrettyPrint (sqrt : ℚ → ℚ) (results : List Nat) (includeCount : Bool)
    (bitsOfPrecision : Nat) : Option Report := do
  let offset := includeCount.toNat
  let count ← if includeCount then (results[0]?).map fun res : Nat ↦ some (res : ℚ) else some none
  let moments ← scaleMoments bitsOfPrecision 0 (results.drop offset)
  let rows ← nameMoments (centralMoments sqrt moments)
  return ⟨count, moments, rows⟩

/-! ## Receiving -/

/-- The fields of `MomentsReceiver` that do not change. -/
structure MomentsReceiver where
  endModulus : Nat
  includeZerothMoment : Bool
  highestMoment : Nat
  bitsOfPrecision : Nat
  sqrt : ℚ → ℚ
  modAdd : Nat → Nat → Nat → Nat

/-- The fields that change. -/
structure MomentsReceiver.State where
  results : List Nat
  numDataowners : Nat
  report : Option Report

namespace MomentsReceiver

variable (r : MomentsReceiver)

/-- The number of results. -/
def numResults : Nat := r.highestMoment + r.includeZerothMoment.toNat

/-- The state after `init`. -/
def start (numDataowners : Nat) : State := ⟨List.replicate r.numResults 0, numDataowners, none⟩

/-- `handleReceive`. -/
def handleReceive (s : State) (imsg : List Nat) : Option State :=
  if imsg.length < s.results.length then none
  else
    let results := List.zipWith (fun res share ↦ r.modAdd res share r.endModulus) s.results imsg
    let numDataowners := s.numDataowners - 1
    if numDataowners = 0 then
      (momentsPrettyPrint r.sqrt (results.map toSmallNum) r.includeZerothMoment
        r.bitsOfPrecision).map fun report ↦ ⟨results, numDataowners, some report⟩
    else some ⟨results, numDataowners, s.report⟩

/-- The report after the messages of all data owners. -/
def receiveAll (messages : List (List Nat)) : Option Report :=
  (messages.foldlM r.handleReceive (r.start messages.length)).bind State.report

end MomentsReceiver

/-! ## What should be printed -/

/-- The moments that sums of powers stand for. -/
def trueMoments (bitsOfPrecision : Nat) : Nat → List Int → List ℚ
  | _, [] => []
  | k, z :: zs => z / 2 ^ ((k + 2) * bitsOfPrecision) :: trueMoments bitsOfPrecision (k + 1) zs

/-- The residue of a signed number. -/
def signedResidue (q : Nat) (z : Int) : Nat := (z % q).toNat

/-- A signed number comes out of the cast exactly when it has 32 bits and no sign. -/
theorem toSmallNum_signedResidue_iff {q : Nat} {z : Int} (hz : 2 * |z| < q) :
    (toSmallNum (signedResidue q z) : Int) = z ↔ 0 ≤ z ∧ z < 2 ^ 32 := by
  have hq : (0 : Int) < q := by
    have := abs_nonneg z
    omega
  have hres : ((z % q).toNat : Int) = z % q := Int.toNat_of_nonneg (Int.emod_nonneg z hq.ne')
  rw [toSmallNum, signedResidue, Int.natCast_mod, hres]
  show z % q % 2 ^ 32 = z ↔ _
  constructor
  · intro h
    rw [← h]
    exact ⟨Int.emod_nonneg _ (by decide), Int.emod_lt_of_pos _ (by decide)⟩
  · rintro ⟨h₀, h₁⟩
    rw [abs_of_nonneg h₀] at hz
    rw [Int.emod_eq_of_lt h₀ (by omega), Int.emod_eq_of_lt h₀ h₁]

theorem length_centralMoments (sqrt : ℚ → ℚ) (moments : List ℚ) :
    (centralMoments sqrt moments).length = moments.length := by
  match moments with
  | [] => rfl
  | [_] => rfl
  | [_, _] => rfl
  | _ :: _ :: _ :: _ => rfl

/-- The scaled results are the true moments exactly when every sum comes out of the cast and every
scale is an `int`. -/
theorem scaleMoments_iff {q b : Nat} {zs : List Int} (hzs : ∀ z ∈ zs, 2 * |z| < q) (k : Nat) :
    scaleMoments b k (zs.map fun z ↦ toSmallNum (signedResidue q z)) = some (trueMoments b k zs) ↔
      (∀ z ∈ zs, 0 ≤ z ∧ z < 2 ^ 32) ∧ (zs = [] ∨ (k + zs.length + 1) * b < 31) := by
  induction zs generalizing k with
  | nil => simp [scaleMoments, trueMoments]
  | cons z zs ih =>
    have hz := toSmallNum_signedResidue_iff (hzs z (by simp))
    have htail := ih (fun y hy ↦ hzs y (by simp [hy])) (k + 1)
    have hdiv : (toSmallNum (signedResidue q z) : ℚ) / 2 ^ ((k + 2) * b) = z / 2 ^ ((k + 2) * b) ↔
        (toSmallNum (signedResidue q z) : Int) = z := by
      rw [div_left_inj' (by positivity)]
      exact_mod_cast Iff.rfl
    have hmono : (k + 2) * b ≤ (k + (zs.length + 1) + 1) * b := Nat.mul_le_mul_right b (by omega)
    have hshape : (k + 1 + zs.length + 1) * b = (k + (zs.length + 1) + 1) * b := by ring
    rw [hshape] at htail
    simp only [List.map_cons, scaleMoments, trueMoments, shiftInt, List.length_cons]
    by_cases hshift : (k + 2) * b < 31
    · rw [if_pos hshift]
      cases hrest : scaleMoments b (k + 1) (zs.map fun z ↦ toSmallNum (signedResidue q z)) with
      | none =>
        rw [hrest] at htail
        have hfails : ¬((∀ z ∈ zs, 0 ≤ z ∧ z < 2 ^ 32) ∧
            (zs = [] ∨ (k + (zs.length + 1) + 1) * b < 31)) := by
          intro h
          exact absurd (htail.mpr h) (by simp)
        constructor
        · intro h
          contradiction
        · rintro ⟨hall, hlast⟩
          rw [List.forall_mem_cons] at hall
          refine absurd ⟨hall.2, ?_⟩ hfails
          exact .inr (hlast.resolve_left (by simp))
      | some rest =>
        rw [hrest, Option.some_inj] at htail
        simp only [Option.bind_eq_bind, Option.bind_some, pure, Option.some_inj, List.cons.injEq,
          Nat.one_shiftLeft, Nat.cast_pow, Nat.cast_ofNat, hdiv, hz, htail, List.forall_mem_cons]
        constructor
        · rintro ⟨hhead, hall, hlast⟩
          refine ⟨⟨hhead, hall⟩, .inr ?_⟩
          rcases hlast with rfl | hlast
          · exact (Nat.mul_comm _ _).symm ▸ hshift
          · exact hlast
        · rintro ⟨⟨hhead, hall⟩, hlast⟩
          exact ⟨hhead, hall, .inr (hlast.resolve_left (by simp))⟩
    · rw [if_neg hshift]
      constructor
      · intro h
        contradiction
      · rintro ⟨-, hlast⟩
        have := hlast.resolve_left (by simp)
        omega

theorem length_trueMoments (b k : Nat) (zs : List Int) : (trueMoments b k zs).length = zs.length := by
  induction zs generalizing k with
  | nil => rfl
  | cons z zs ih => rw [trueMoments, List.length_cons, ih, List.length_cons]

/-- The table has a row for every moment exactly when there are enough names. -/
theorem nameMoments_iff (moments : List ℚ) :
    nameMoments moments = some (momentNames.zip moments) ↔ moments.length ≤ 3 := by
  rw [nameMoments]
  show (if moments.length ≤ 3 then _ else _) = _ ↔ _
  split
  next h => simp [h]
  next h => simp [h]

/-- What should be written for a count and sums of powers. -/
def trueReport (sqrt : ℚ → ℚ) (bitsOfPrecision : Nat) (count : Option ℚ) (sums : List Int) :
    Report :=
  let moments := trueMoments bitsOfPrecision 0 sums
  ⟨count, moments, momentNames.zip (centralMoments sqrt moments)⟩

/-- What follows the count is right exactly when the sums come out of the cast, the scales are
`int`s and the names suffice. -/
theorem report_iff {sqrt : ℚ → ℚ} {q b : Nat} {zs : List Int} (hzs : ∀ z ∈ zs, 2 * |z| < q)
    (count count' : Option ℚ) :
    (do let moments ← scaleMoments b 0 (zs.map fun z ↦ toSmallNum (signedResidue q z))
        let rows ← nameMoments (centralMoments sqrt moments)
        return Report.mk count moments rows) = some (trueReport sqrt b count' zs) ↔
      count = count' ∧ (∀ z ∈ zs, 0 ≤ z ∧ z < 2 ^ 32) ∧ zs.length ≤ 3 ∧
        (zs = [] ∨ (zs.length + 1) * b < 31) := by
  have hscale := scaleMoments_iff (b := b) hzs 0
  have hname := nameMoments_iff (centralMoments sqrt (trueMoments b 0 zs))
  rw [length_centralMoments, length_trueMoments] at hname
  rw [Nat.zero_add] at hscale
  cases hrun : scaleMoments b 0 (zs.map fun z ↦ toSmallNum (signedResidue q z)) with
  | none =>
    rw [hrun] at hscale
    constructor
    · intro h
      contradiction
    · rintro ⟨-, hvalues, -, hscales⟩
      exact absurd (hscale.mpr ⟨hvalues, hscales⟩) (by simp)
  | some moments =>
    rw [hrun, Option.some_inj] at hscale
    constructor
    · intro h
      simp only [Option.bind_eq_bind, Option.bind_some, Option.bind_eq_some_iff] at h
      obtain ⟨rows, hrows, h⟩ := h
      have hreport := Option.some.inj h
      simp only [trueReport, Report.mk.injEq] at hreport
      obtain ⟨hcount, hmoments, rfl⟩ := hreport
      rw [hmoments] at hrows
      exact ⟨hcount, (hscale.mp hmoments).1, hname.mp hrows, (hscale.mp hmoments).2⟩
    · rintro ⟨rfl, hvalues, hnames, hscales⟩
      rw [hscale.mpr ⟨hvalues, hscales⟩, Option.bind_eq_bind, Option.bind_some, hname.mpr hnames]
      rfl

/-! ## Any order of the messages -/

namespace MomentsReceiver

variable {r : MomentsReceiver}

/-- The sums of the shares. -/
def sums (r : MomentsReceiver) (results : List Nat) (messages : List (List Nat)) : List Nat :=
  messages.foldl (List.zipWith fun res share ↦ r.modAdd res share r.endModulus) results

/-- The messages of all data owners lead to one report. -/
theorem foldlM_handleReceive {messages : List (List Nat)} (hne : messages ≠ [])
    {results : List Nat} (hlen : ∀ msg ∈ messages, msg.length = results.length) :
    messages.foldlM r.handleReceive ⟨results, messages.length, none⟩ =
      (momentsPrettyPrint r.sqrt ((r.sums results messages).map toSmallNum)
        r.includeZerothMoment r.bitsOfPrecision).map fun report ↦
          ⟨r.sums results messages, 0, some report⟩ := by
  induction messages generalizing results with
  | nil => contradiction
  | cons msg messages ih =>
    have hmsg : msg.length = results.length := hlen msg (by simp)
    have hshort : ¬msg.length < results.length := by omega
    rw [List.foldlM_cons, handleReceive, if_neg hshort]
    cases messages with
    | nil =>
      simp only [List.length_singleton, Nat.sub_self, ↓reduceIte, sums, List.foldl_cons,
        List.foldl_nil, List.foldlM_nil]
      exact bind_pure _
    | cons msg' messages =>
      rw [if_neg (by simp)]
      have hzip : ∀ other ∈ msg' :: messages, other.length =
          (List.zipWith (fun res share ↦ r.modAdd res share r.endModulus) results msg).length := by
        intro other hother
        rw [List.length_zipWith, hmsg, Nat.min_self]
        exact hlen other (by simp [hother])
      exact ih (by simp) hzip

section

variable (hadd : ∀ a b m, r.modAdd a b m = (a + b) % m)

include hadd

theorem getElem?_sums {results : List Nat} {messages : List (List Nat)} (hne : messages ≠ [])
    (hlen : ∀ msg ∈ messages, msg.length = results.length) {i : Nat} (hi : i < results.length) :
    (r.sums results messages)[i]? = some ((results.getD i 0 +
      (messages.map fun msg ↦ msg.getD i 0).sum) % r.endModulus) := by
  induction messages generalizing results with
  | nil => contradiction
  | cons msg messages ih =>
    have hmsg : msg.length = results.length := hlen msg (by simp)
    let next := List.zipWith (fun res share ↦ r.modAdd res share r.endModulus) results msg
    have hget : next[i]? = some ((results.getD i 0 + msg.getD i 0) % r.endModulus) := by
      have hi' : i < msg.length := by omega
      simp [next, hi, hi', hadd]
    have hlength : next.length = results.length := by
      simp [next, hmsg]
    show (r.sums next messages)[i]? = _
    cases messages with
    | nil => simpa [sums] using hget
    | cons msg' messages =>
      rw [ih (by simp) (fun other hother ↦ (hlen other (by simp [hother])).trans hlength.symm)
        (by omega), List.getD_eq_getElem?_getD (l := next), hget, Option.getD_some,
        Nat.mod_add_mod, Nat.add_assoc, ← List.sum_cons]
      rfl

end

theorem length_sums {results : List Nat} {messages : List (List Nat)}
    (hlen : ∀ msg ∈ messages, msg.length = results.length) :
    (r.sums results messages).length = results.length := by
  induction messages generalizing results with
  | nil => rfl
  | cons msg messages ih =>
    have hmsg : msg.length = results.length := hlen msg (by simp)
    have hzip : (List.zipWith (fun res share ↦ r.modAdd res share r.endModulus)
        results msg).length = results.length := by
      rw [List.length_zipWith, hmsg, Nat.min_self]
    show (r.sums (List.zipWith _ results msg) messages).length = _
    rw [ih (fun other hother ↦ (hlen other (by simp [hother])).trans hzip.symm), hzip]

/-! ## The report -/

variable {ι : Type}

/-- The data owners hold shares of signed numbers that `endModulus` can represent. -/
structure Shares (r : MomentsReceiver) (dataowners : List ι) (share : ι → List Nat)
    (values : List Int) : Prop where
  modAdd : ∀ a b m, r.modAdd a b m = (a + b) % m
  nonempty : dataowners ≠ []
  length_values : values.length = r.numResults
  length_share : ∀ p ∈ dataowners, (share p).length = r.numResults
  opens : ∀ i < r.numResults,
    (((dataowners.map fun p ↦ (share p).getD i 0).sum : Nat) : Int) ≡ values.getD i 0
      [ZMOD r.endModulus]
  representable : ∀ z ∈ values, 2 * |z| < r.endModulus

/-- The recipient writes the true count and the true moments. -/
def Reconstructs (r : MomentsReceiver) (messages : List (List Nat)) (values : List Int) : Prop :=
  r.receiveAll messages = some (trueReport r.sqrt r.bitsOfPrecision
    (if r.includeZerothMoment then (values[0]?).map fun z : Int ↦ (z : ℚ) else none)
    (values.drop r.includeZerothMoment.toNat))

/-- No number has a sign or more than 32 bits, every moment has a name, and every scale is an
`int`. -/
structure Printable (r : MomentsReceiver) (values : List Int) : Prop where
  values : ∀ z ∈ values, 0 ≤ z ∧ z < 2 ^ 32
  names : r.highestMoment ≤ 3
  scales : r.highestMoment = 0 ∨ (r.highestMoment + 1) * r.bitsOfPrecision < 31

/-- The sums of the shares are the residues of the numbers. -/
theorem sums_eq {dataowners order : List ι} {share : ι → List Nat} {values : List Int}
    (h : r.Shares dataowners share values) (horder : order.Perm dataowners) :
    r.sums (List.replicate r.numResults 0) (order.map share) =
      values.map (signedResidue r.endModulus) := by
  have hlen : ∀ msg ∈ order.map share,
      msg.length = (List.replicate r.numResults 0).length := by
    intro msg hmsg
    obtain ⟨p, hp, rfl⟩ := List.mem_map.mp hmsg
    rw [List.length_replicate]
    exact h.length_share p (horder.mem_iff.mp hp)
  have hne : order.map share ≠ [] := by
    intro hnil
    rw [List.map_eq_nil_iff.mp hnil] at horder
    exact h.nonempty horder.nil_eq.symm
  apply List.ext_getElem?
  intro i
  by_cases hi : i < r.numResults
  · have hv : i < values.length := by rw [h.length_values]; exact hi
    have hsum : (order.map fun p ↦ (share p).getD i 0).sum =
        (dataowners.map fun p ↦ (share p).getD i 0).sum := (horder.map _).sum_eq
    have hopens := h.opens i hi
    rw [getElem?_sums h.modAdd hne hlen (by rwa [List.length_replicate]), List.map_map,
      List.getElem?_map, List.getElem?_eq_getElem hv, Option.map_some, Option.some_inj]
    have hzero : (List.replicate r.numResults 0).getD i 0 = 0 := by
      simp [List.getD_eq_getElem?_getD, hi]
    have hvalue : values.getD i 0 = values[i] := by
      simp [List.getD_eq_getElem?_getD, hv]
    rw [hvalue] at hopens
    rw [hzero, Nat.zero_add, signedResidue, ← hopens.eq]
    show (order.map fun p ↦ (share p).getD i 0).sum % r.endModulus = _
    rw [hsum]
    rfl
  · have hout : (values.map (signedResidue r.endModulus)).length ≤ i := by
      rw [List.length_map, h.length_values]
      omega
    have hout' : (r.sums (List.replicate r.numResults 0) (order.map share)).length ≤ i := by
      rw [length_sums hlen, List.length_replicate]
      omega
    rw [List.getElem?_eq_none hout, List.getElem?_eq_none hout']

/-- The messages of all data owners, in any order, lead to the report of the numbers cast down. -/
theorem receiveAll_eq {dataowners order : List ι} {share : ι → List Nat} {values : List Int}
    (h : r.Shares dataowners share values) (horder : order.Perm dataowners) :
    r.receiveAll (order.map share) =
      momentsPrettyPrint r.sqrt (values.map fun z ↦ toSmallNum (signedResidue r.endModulus z))
        r.includeZerothMoment r.bitsOfPrecision := by
  have hne : order.map share ≠ [] := by
    intro hnil
    rw [List.map_eq_nil_iff.mp hnil] at horder
    exact h.nonempty horder.nil_eq.symm
  have hlen : ∀ msg ∈ order.map share, msg.length = (List.replicate r.numResults 0).length := by
    intro msg hmsg
    obtain ⟨p, hp, rfl⟩ := List.mem_map.mp hmsg
    rw [List.length_replicate]
    exact h.length_share p (horder.mem_iff.mp hp)
  rw [receiveAll, start, foldlM_handleReceive hne hlen, sums_eq h horder, List.map_map]
  show (Option.map _ (momentsPrettyPrint r.sqrt
    (values.map fun z ↦ toSmallNum (signedResidue r.endModulus z)) _ _)).bind _ = _
  cases momentsPrettyPrint r.sqrt (values.map fun z ↦ toSmallNum (signedResidue r.endModulus z))
    r.includeZerothMoment r.bitsOfPrecision <;> rfl

/-- The recipient writes the true count and moments exactly when the sums can be printed. -/
theorem reconstructs_iff {dataowners order : List ι} {share : ι → List Nat} {values : List Int}
    (h : r.Shares dataowners share values) (horder : order.Perm dataowners) :
    r.Reconstructs (order.map share) values ↔ r.Printable values := by
  rw [Reconstructs, receiveAll_eq h horder]
  have hlength := h.length_values
  have hrep := h.representable
  rw [numResults] at hlength
  cases hinclude : r.includeZerothMoment with
  | false =>
    rw [hinclude, Bool.toNat_false, Nat.add_zero] at hlength
    have hnil : values = [] ↔ r.highestMoment = 0 := by rw [← hlength, List.length_eq_zero_iff]
    apply (report_iff hrep none none).trans
    rw [hlength, hnil]
    exact ⟨fun ⟨_, hv, hn, hs⟩ ↦ ⟨hv, hn, hs⟩, fun ⟨hv, hn, hs⟩ ↦ ⟨rfl, hv, hn, hs⟩⟩
  | true =>
    rw [hinclude, Bool.toNat_true] at hlength
    cases values with
    | nil => contradiction
    | cons v rest =>
      have hrest : rest.length = r.highestMoment := by simpa using hlength
      have hnil : rest = [] ↔ r.highestMoment = 0 := by rw [← hrest, List.length_eq_zero_iff]
      have hv := toSmallNum_signedResidue_iff (hrep v (by simp))
      have hcount : some (toSmallNum (signedResidue r.endModulus v) : ℚ) = some (v : ℚ) ↔
          0 ≤ v ∧ v < 2 ^ 32 := by
        rw [Option.some_inj, ← hv]
        exact_mod_cast Iff.rfl
      apply (report_iff (fun z hz ↦ hrep z (by simp [hz])) _ _).trans
      rw [hrest, hnil]
      show some (toSmallNum (signedResidue r.endModulus v) : ℚ) = some (v : ℚ) ∧ _ ↔ _
      rw [hcount]
      constructor
      · rintro ⟨hcount, hvalues, hnames, hscales⟩
        exact ⟨List.forall_mem_cons.mpr ⟨hcount, hvalues⟩, hnames, hscales⟩
      · rintro ⟨hvalues, hnames, hscales⟩
        rw [List.forall_mem_cons] at hvalues
        exact ⟨hvalues.1, hvalues.2, hnames, hscales⟩

/-- The count and the mean of numbers with two bits, for a small modulus. -/
def countAndMean : MomentsReceiver where
  endModulus := 1009
  includeZerothMoment := true
  highestMoment := 1
  bitsOfPrecision := 2
  sqrt := fun x ↦ x
  modAdd := fun a b m ↦ (a + b) % m

/-- Two data owners, and the second answers first. -/
theorem reconstructs_positive : countAndMean.Reconstructs [[1000, 7], [12, 1006]] [3, 4] := by
  have hshares : countAndMean.Shares [0, 1] (fun p ↦ if p = 0 then [12, 1006] else [1000, 7])
      [3, 4] :=
    { modAdd := fun _ _ _ ↦ rfl
      nonempty := by decide
      length_values := rfl
      length_share := by decide
      opens := by decide
      representable := by decide }
  exact (reconstructs_iff hshares (by decide : [1, 0].Perm [0, 1])).mpr
    ⟨by decide, by decide, by decide⟩

/-- A negative sum is printed as its residue. -/
theorem not_reconstructs_negative :
    countAndMean.Shares [0] (fun _ ↦ [3, 1005]) [3, -4] ∧
      ¬countAndMean.Reconstructs ([0].map fun _ ↦ [3, 1005]) [3, -4] := by
  refine ⟨⟨fun _ _ _ ↦ rfl, by decide, rfl, by decide, by decide, by decide⟩, ?_⟩
  intro h
  have hmoments := congrArg (Option.map Report.moments) h
  revert hmoments
  decide +kernel

end MomentsReceiver

end Safrn.Stats
