import Safrn.Base.Accumulate
import Safrn.Setup.Displayed
import Safrn.Stats.MomentsReceiver
import Safrn.Stats.TableCell

/-!
# The results of a regression

Models the message in which a data owner sends its shares of the results
(`dataowner/Regression.cpp:1752-1791`), `RegressionReceiver` with `handleReceive`
(`recipient/RegressionReceiver.h:48-109`, `recipient/RegressionReceiver.cpp:188-296`) and what
`regressionPrettyPrint` writes to the page (`recipient/RegressionReceiver.cpp:100-186`). `none`
stands for a message that is too short, for an access out of range and for an assertion that fails.
A `double` is a rational number, and a page holds the numbers that are written to it. The name of
the file is left out.
-/

namespace Safrn.Setup

open Safrn.Base
open Safrn.Stats (Cell RegressionInfo castToDouble convertBytesToDouble droppedBits signedResidue)

/-! ## The message of a data owner -/

/-- The fields of a `Regression` that are sent to the recipients. -/
structure ResultShares where
  beta : List Nat
  meanSquareErrorShare : Nat
  rSquaredShare : Nat
  meanSquareErrorCoeffs : List Nat
  fPValue : List (BitVec 8)
  tPValues : List (List (BitVec 8))

/-- The items that are written to `omsg`. -/
def ResultShares.message (numIvs bytesInLookupTableCells : Nat) (s : ResultShares) :
    Option (List Cell) := do
  let beta ← collect numIvs fun i ↦ s.beta[i]?.map .number
  let meanSquareErrorCoeffs ← collect numIvs fun i ↦ s.meanSquareErrorCoeffs[i]?.map .number
  let fPValue ← collect bytesInLookupTableCells fun i ↦ s.fPValue[i]?.map .byte
  let tPValues ← collect numIvs fun i ↦ s.tPValues[i]?.bind fun tPValue ↦
    collect bytesInLookupTableCells fun j ↦ tPValue[j]?.map .byte
  return beta ++ ([.number s.meanSquareErrorShare] ++ ([.number s.rSquaredShare] ++
    (meanSquareErrorCoeffs ++ (fPValue ++ tPValues.flatten))))

/-! ## The page -/

/-- A row of the table. -/
structure Row where
  name : String
  coefficient : ℚ
  stdErr : ℚ
  pValue : ℚ
  deriving DecidableEq

/-- What is written to `regression-result-%zu.html`. -/
structure Page where
  rows : List Row
  rootMse : ℚ
  rSquared : ℚ
  pValue : ℚ
  deriving DecidableEq

/-- `regressionPrettyPrint`. -/
def regressionPrettyPrint (sqrt : ℚ → ℚ) (resultNames : List String) (results : List ℚ)
    (error rsquare : ℚ) (standardErrorCoeffs : List ℚ) (fPValue : ℚ) (tPValues : List ℚ) :
    Option Page :=
  if resultNames.length = results.length ∧ standardErrorCoeffs.length = results.length then do
    let rows ← collect results.length fun i ↦ do
      let name ← resultNames[i]?
      let result ← results[i]?
      let standardErrorCoeff ← standardErrorCoeffs[i]?
      let tPValue ← tPValues[i]?
      return ⟨name, result, sqrt standardErrorCoeff, tPValue⟩
    return ⟨rows, sqrt error, rsquare, fPValue⟩
  else none

/-! ## The recipient -/

/-- The fields of `RegressionReceiver` that do not change, with functions it calls. -/
structure RegressionReceiver where
  J : JoinedVerticals
  payloads : Payloads
  depVert : Nat
  fitIntercept : Bool
  info : RegressionInfo
  endModulus : Nat
  bytesInLookupTableCells : Nat
  bitsOfPrecision : Nat
  modAdd : Nat → Nat → Nat → Nat
  sqrt : ℚ → ℚ

namespace RegressionReceiver

/-- The fields that change. A data owner sends one message, so that the counter stays above zero
until the last of them. -/
structure State where
  results : List Nat
  standardErrorCoeffs : List Nat
  rootMse : Nat
  rsquare : Nat
  fPValue : List (BitVec 8)
  tPValues : List (List (BitVec 8))
  numDataowners : Nat
  page : Option Page

variable (r : RegressionReceiver)

/-- The state after `init`. -/
def start (numDataowners : Nat) : State where
  results := List.replicate r.info.numIvs 0
  standardErrorCoeffs := List.replicate r.info.numIvs 0
  rootMse := 0
  rsquare := 0
  fPValue := List.replicate r.bytesInLookupTableCells 0
  tPValues := List.replicate r.info.numIvs (List.replicate r.bytesInLookupTableCells 0)
  numDataowners
  page := none

/-- `imsg.read<LargeNum>`. -/
def readNumber : Reading Cell Nat
  | .number x :: imsg => some (x, imsg)
  | _ => none

/-- `imsg.read<Boolean_t>`. -/
def readByte : Reading Cell (BitVec 8)
  | .byte b :: imsg => some (b, imsg)
  | _ => none

/-- `x = modAdd(x, res, endModulus)` of what is read. -/
def addNumber (x : Nat) : Reading Cell Nat := do
  let res ← readNumber
  return r.modAdd x res r.endModulus

/-- `x ^= res` of what is read. -/
def xorByte (x : BitVec 8) : Reading Cell (BitVec 8) := do
  let res ← readByte
  return x ^^^ res

/-- What is printed when all data owners have answered. -/
def print (s : State) : Option Page := do
  let names ← r.J.findColumnNames r.payloads r.depVert r.fitIntercept
  let cast (bits num : Nat) := castToDouble num bits r.endModulus
  let convert (bytes : List (BitVec 8)) :=
    convertBytesToDouble (bytes.map BitVec.toNat) r.bytesInLookupTableCells
  regressionPrettyPrint r.sqrt names (s.results.map (cast r.bitsOfPrecision))
    (cast (5 * r.bitsOfPrecision) s.rootMse) (cast r.bitsOfPrecision s.rsquare)
    (s.standardErrorCoeffs.map (cast (4 * r.bitsOfPrecision))) (convert s.fPValue)
    (s.tPValues.map fun tPValue ↦ 2 * convert tPValue)

/-- The loops of `handleReceive`, which add the shares of a data owner to the sums. -/
def addShares (s : State) : Reading Cell State := do
  let results ← s.results.mapM r.addNumber
  let rootMse ← r.addNumber s.rootMse
  let rsquare ← r.addNumber s.rsquare
  let standardErrorCoeffs ← s.standardErrorCoeffs.mapM r.addNumber
  let fPValue ← s.fPValue.mapM xorByte
  let tPValues ← s.tPValues.mapM fun tPValue ↦ tPValue.mapM xorByte
  return ⟨results, standardErrorCoeffs, rootMse, rsquare, fPValue, tPValues,
    s.numDataowners - 1, s.page⟩

/-- `handleReceive`. -/
def handleReceive (s : State) : Reading Cell State := do
  let s ← r.addShares s
  if s.numDataowners = 0 then
    let page ← StateT.lift (r.print s)
    return { s with page := some page }
  else return s

/-- The state after a message. -/
def receive (s : State) (imsg : List Cell) : Option State :=
  ((r.handleReceive s).run imsg).map Prod.fst

end RegressionReceiver

/-! ## What should be printed -/

/-- The results that the data owners hold shares of. -/
structure Results where
  beta : List Int
  meanSquareError : Int
  rSquared : Int
  meanSquareErrorCoeffs : List Int
  fPValue : List (BitVec 8)
  tPValues : List (List (BitVec 8))

/-- The number that a fixed-point number stands for, without the bits that are dropped. -/
def decoded (bits : Nat) (z : Int) : ℚ :=
  let kept : ℚ := ((z.natAbs - droppedBits z.natAbs bits : Nat) : ℚ) / 2 ^ bits
  if z < 0 then -kept else kept

namespace RegressionReceiver

variable (r : RegressionReceiver)

/-- The numbers of a row. -/
def row (v : Results) (name : String) (i : Nat) : Row where
  name
  coefficient := decoded r.bitsOfPrecision (v.beta.getD i 0)
  stdErr := r.sqrt (decoded (4 * r.bitsOfPrecision) (v.meanSquareErrorCoeffs.getD i 0))
  pValue := 2 * convertBytesToDouble ((v.tPValues.getD i []).map BitVec.toNat)
    r.bytesInLookupTableCells

/-- The page with the results and the names of the variables. -/
def pageOf (v : Results) (names : List String) : Page where
  rows := names.mapIdx fun i name ↦ r.row v name i
  rootMse := r.sqrt (decoded (5 * r.bitsOfPrecision) v.meanSquareError)
  rSquared := decoded r.bitsOfPrecision v.rSquared
  pValue := convertBytesToDouble (v.fPValue.map BitVec.toNat) r.bytesInLookupTableCells

end RegressionReceiver

/-- The vectors of the results have an element for each variable, and the cells all their bytes. -/
structure ResultShares.Sized (s : ResultShares) (numIvs bytesInLookupTableCells : Nat) : Prop where
  beta : s.beta.length = numIvs
  meanSquareErrorCoeffs : s.meanSquareErrorCoeffs.length = numIvs
  fPValue : s.fPValue.length = bytesInLookupTableCells
  tPValues : s.tPValues.length = numIvs
  tPValue : ∀ tPValue ∈ s.tPValues, tPValue.length = bytesInLookupTableCells

/-- The numbers add up to a signed number that the modulus can represent, whose integer part fits 64
bits. -/
structure OpensNumber (endModulus bits : Nat) (shares : List Nat) (z : Int) : Prop where
  opens : (shares.sum : Int) ≡ z [ZMOD endModulus]
  representable : 2 * z.natAbs < endModulus
  fits : z.natAbs / 2 ^ bits < 2 ^ 64

/-- Decides the three bounds. -/
instance OpensNumber.instDecidable (endModulus bits : Nat) (shares : List Nat) (z : Int) :
    Decidable (OpensNumber endModulus bits shares z) :=
  decidable_of_iff (((shares.sum : Int) ≡ z [ZMOD endModulus]) ∧ 2 * z.natAbs < endModulus ∧
    z.natAbs / 2 ^ bits < 2 ^ 64) ⟨fun h ↦ ⟨h.1, h.2.1, h.2.2⟩, fun h ↦ ⟨h.1, h.2, h.3⟩⟩

/-- The exclusive or of the bytes is a byte. -/
def OpensByte (shares : List (BitVec 8)) (b : BitVec 8) : Prop := shares.foldl (· ^^^ ·) 0 = b

instance OpensByte.instDecidable (shares : List (BitVec 8)) (b : BitVec 8) :
    Decidable (OpensByte shares b) := inferInstanceAs (Decidable (_ = _))

theorem OpensNumber.perm {m bits : Nat} {shares shares' : List Nat} {z : Int}
    (h : OpensNumber m bits shares z) (hperm : shares'.Perm shares) :
    OpensNumber m bits shares' z where
  opens := by rw [hperm.sum_eq]; exact h.opens
  representable := h.representable
  fits := h.fits

theorem OpensByte.perm {shares shares' : List (BitVec 8)} {b : BitVec 8} (h : OpensByte shares b)
    (hperm : shares'.Perm shares) : OpensByte shares' b := by
  have hcomm : ∀ x y z : BitVec 8, x ^^^ y ^^^ z = x ^^^ z ^^^ y := by
    intro x y z
    rw [BitVec.xor_assoc, BitVec.xor_comm y, BitVec.xor_assoc]
  have : RightCommutative (fun x y : BitVec 8 ↦ x ^^^ y) := ⟨hcomm⟩
  rw [OpensByte, hperm.foldl_eq]
  exact h

/-- The shares of the data owners are shares of the results. -/
structure RegressionReceiver.Opens (r : RegressionReceiver) (shares : List ResultShares)
    (v : Results) : Prop where
  modAdd : ∀ a b, r.modAdd a b r.endModulus = (a + b) % r.endModulus
  nonempty : shares ≠ []
  sized : ∀ s ∈ shares, s.Sized r.info.numIvs r.bytesInLookupTableCells
  beta : ∀ i < r.info.numIvs, OpensNumber r.endModulus r.bitsOfPrecision
    (shares.map fun s ↦ s.beta.getD i 0) (v.beta.getD i 0)
  meanSquareError : OpensNumber r.endModulus (5 * r.bitsOfPrecision)
    (shares.map ResultShares.meanSquareErrorShare) v.meanSquareError
  rSquared : OpensNumber r.endModulus r.bitsOfPrecision
    (shares.map ResultShares.rSquaredShare) v.rSquared
  meanSquareErrorCoeffs : ∀ i < r.info.numIvs, OpensNumber r.endModulus (4 * r.bitsOfPrecision)
    (shares.map fun s ↦ s.meanSquareErrorCoeffs.getD i 0) (v.meanSquareErrorCoeffs.getD i 0)
  length_fPValue : v.fPValue.length = r.bytesInLookupTableCells
  fPValue : ∀ j < r.bytesInLookupTableCells,
    OpensByte (shares.map fun s ↦ s.fPValue.getD j 0) (v.fPValue.getD j 0)
  length_tPValue : ∀ i < r.info.numIvs, (v.tPValues.getD i []).length = r.bytesInLookupTableCells
  tPValues : ∀ i < r.info.numIvs, ∀ j < r.bytesInLookupTableCells,
    OpensByte (shares.map fun s ↦ (s.tPValues.getD i []).getD j 0) ((v.tPValues.getD i []).getD j 0)

/-! ## The message -/

section Message

variable {numIvs bytesInLookupTableCells : Nat} {s : ResultShares}

/-- The items of shares that have their lengths. -/
def ResultShares.items (s : ResultShares) : List Cell :=
  s.beta.map .number ++ ([.number s.meanSquareErrorShare] ++ ([.number s.rSquaredShare] ++
    (s.meanSquareErrorCoeffs.map .number ++ (s.fPValue.map .byte ++
      s.tPValues.flatMap fun tPValue ↦ tPValue.map .byte))))

theorem ResultShares.Sized.message (h : s.Sized numIvs bytesInLookupTableCells) :
    s.message numIvs bytesInLookupTableCells = some s.items := by
  have htPValues := collect_getElem?_bind h.tPValues fun tPValue hmem ↦
    collect_getElem?_map Cell.byte (h.tPValue tPValue hmem)
  simp only [ResultShares.message, collect_getElem?_map Cell.number h.beta,
    collect_getElem?_map Cell.number h.meanSquareErrorCoeffs,
    collect_getElem?_map Cell.byte h.fPValue, htPValues, Option.bind_eq_bind, Option.bind_some,
    items, List.flatMap_def]
  rfl

end Message

namespace RegressionReceiver

open ResultShares

variable {r : RegressionReceiver} {s : State}

theorem takes_readNumber (x : Nat) : Takes readNumber [.number x] x := fun _ ↦ rfl

theorem takes_readByte (b : BitVec 8) : Takes readByte [.byte b] b := fun _ ↦ rfl

theorem takes_addNumber (r : RegressionReceiver) (x res : Nat) :
    Takes (r.addNumber x) [.number res] (r.modAdd x res r.endModulus) :=
  (takes_readNumber res).map fun res ↦ r.modAdd x res r.endModulus

theorem takes_xorByte (x res : BitVec 8) : Takes (xorByte x) [.byte res] (x ^^^ res) :=
  (takes_readByte res).map fun res ↦ x ^^^ res

/-- The state has an element for each item of the shares. -/
structure State.Sized (s : State) (numIvs bytesInLookupTableCells : Nat) : Prop where
  results : s.results.length = numIvs
  standardErrorCoeffs : s.standardErrorCoeffs.length = numIvs
  fPValue : s.fPValue.length = bytesInLookupTableCells
  tPValues : s.tPValues.length = numIvs
  tPValue : ∀ tPValue ∈ s.tPValues, tPValue.length = bytesInLookupTableCells

/-- The sums with the shares of one more data owner. -/
def add (r : RegressionReceiver) (s : State) (share : ResultShares) : State where
  results := List.zipWith (fun x res ↦ r.modAdd x res r.endModulus) s.results share.beta
  standardErrorCoeffs := List.zipWith (fun x res ↦ r.modAdd x res r.endModulus)
    s.standardErrorCoeffs share.meanSquareErrorCoeffs
  rootMse := r.modAdd s.rootMse share.meanSquareErrorShare r.endModulus
  rsquare := r.modAdd s.rsquare share.rSquaredShare r.endModulus
  fPValue := List.zipWith (· ^^^ ·) s.fPValue share.fPValue
  tPValues := List.zipWith (List.zipWith (· ^^^ ·)) s.tPValues share.tPValues
  numDataowners := s.numDataowners - 1
  page := s.page

theorem State.Sized.add {numIvs bytes : Nat} {share : ResultShares} (hs : s.Sized numIvs bytes)
    (hshare : share.Sized numIvs bytes) : (r.add s share).Sized numIvs bytes where
  results := length_zipWith_eq hs.results hshare.beta
  standardErrorCoeffs := length_zipWith_eq hs.standardErrorCoeffs hshare.meanSquareErrorCoeffs
  fPValue := length_zipWith_eq hs.fPValue hshare.fPValue
  tPValues := length_zipWith_eq hs.tPValues hshare.tPValues
  tPValue := by
    intro tPValue h
    obtain ⟨i, hi, rfl⟩ := List.getElem_of_mem h
    simp only [RegressionReceiver.add, List.getElem_zipWith]
    exact length_zipWith_eq (hs.tPValue _ (List.getElem_mem _))
      (hshare.tPValue _ (List.getElem_mem _))

/-- The sums with the shares of a data owner are read from its message. -/
theorem takes_addShares {numIvs bytes : Nat} {share : ResultShares} (hs : s.Sized numIvs bytes)
    (hshare : share.Sized numIvs bytes) :
    Takes (r.addShares s) share.items (r.add s share) := by
  have htPValues : List.Forall₂ (fun xs ys ↦ Takes (xs.mapM xorByte) (ys.map Cell.byte)
      (List.zipWith (· ^^^ ·) xs ys)) s.tPValues share.tPValues := by
    refine List.forall₂_iff_zip.mpr ⟨hs.tPValues.trans hshare.tPValues.symm, fun hzip ↦ ?_⟩
    obtain ⟨hxs, hys⟩ := List.of_mem_zip hzip
    exact takes_mapM_map takes_xorByte ((hs.tPValue _ hxs).trans (hshare.tPValue _ hys).symm)
  have hbeta := takes_mapM_map r.takes_addNumber (hs.results.trans hshare.beta.symm)
  have hcoeffs := takes_mapM_map r.takes_addNumber
    (hs.standardErrorCoeffs.trans hshare.meanSquareErrorCoeffs.symm)
  have hfPValue := takes_mapM_map takes_xorByte (hs.fPValue.trans hshare.fPValue.symm)
  exact hbeta.bind ((r.takes_addNumber _ _).bind ((r.takes_addNumber _ _).bind (hcoeffs.bind
    (hfPValue.bind ((takes_mapM htPValues).map _)))))

/-- The state after the message of a data owner, which is printed if it is the last one. -/
theorem receive_items {numIvs bytes : Nat} {share : ResultShares} (hs : s.Sized numIvs bytes)
    (hshare : share.Sized numIvs bytes) : r.receive s share.items =
      if (r.add s share).numDataowners = 0 then
        (r.print (r.add s share)).map fun page ↦ { r.add s share with page := some page }
      else some (r.add s share) := by
  have hrun := takes_addShares (r := r) hs hshare []
  rw [List.append_nil] at hrun
  rw [receive, handleReceive, StateT.run_bind, hrun]
  simp only [Option.bind_eq_bind, Option.bind_some]
  split
  · rw [StateT.run_bind, StateT.run_lift]
    cases r.print (r.add s share) <;> rfl
  · rfl

/-! ## All messages -/

section Run

variable {numIvs bytes : Nat} {shares : List ResultShares}

/-- What the sums of several data owners hold for a field, where adding shares changes it by one of
theirs only. -/
theorem foldl_add {α β : Type} (field : State → α) (shareField : ResultShares → β) (op : α → β → α)
    (h : ∀ s share, field (r.add s share) = op (field s) (shareField share)) (s : State)
    (shares : List ResultShares) :
    field (shares.foldl r.add s) = (shares.map shareField).foldl op (field s) := by
  induction shares generalizing s with
  | nil => rfl
  | cons share shares ih => rw [List.foldl_cons, ih, h, List.map_cons, List.foldl_cons]

theorem numDataowners_foldl_add (s : State) (shares : List ResultShares) :
    (shares.foldl r.add s).numDataowners = s.numDataowners - shares.length := by
  induction shares generalizing s with
  | nil => rfl
  | cons share shares ih =>
    rw [List.foldl_cons, ih, List.length_cons]
    show s.numDataowners - 1 - shares.length = _
    omega

theorem page_foldl_add (s : State) (shares : List ResultShares) :
    (shares.foldl r.add s).page = s.page := by
  rw [foldl_add State.page id (fun page _ ↦ page) fun _ _ ↦ rfl, List.foldl_fixed]

theorem sized_foldl_add (hs : s.Sized numIvs bytes)
    (hshares : ∀ share ∈ shares, share.Sized numIvs bytes) :
    (shares.foldl r.add s).Sized numIvs bytes := by
  induction shares generalizing s with
  | nil => exact hs
  | cons share shares ih =>
    obtain ⟨hshare, hshares⟩ := List.forall_mem_cons.mp hshares
    exact ih (hs.add hshare) hshares

/-- Before the last message the shares are added up only. -/
theorem foldlM_receive_lt (hs : s.Sized numIvs bytes)
    (hshares : ∀ share ∈ shares, share.Sized numIvs bytes)
    (hlt : shares.length < s.numDataowners) :
    (shares.map items).foldlM r.receive s = some (shares.foldl r.add s) := by
  induction shares generalizing s with
  | nil => rfl
  | cons share shares ih =>
    obtain ⟨hshare, hshares⟩ := List.forall_mem_cons.mp hshares
    rw [List.length_cons] at hlt
    have hrest : shares.length < (r.add s share).numDataowners :=
      show shares.length < s.numDataowners - 1 by omega
    rw [List.map_cons, List.foldlM_cons, receive_items hs hshare,
      if_neg (Nat.ne_zero_of_lt hrest)]
    exact ih (hs.add hshare) hshares hrest

/-- The last message leads to the page. -/
theorem foldlM_receive (hs : s.Sized numIvs bytes)
    (hshares : ∀ share ∈ shares, share.Sized numIvs bytes) (hne : shares ≠ [])
    (hlength : shares.length = s.numDataowners) :
    (shares.map items).foldlM r.receive s = (r.print (shares.foldl r.add s)).map fun page ↦
      { shares.foldl r.add s with page := some page } := by
  -- only the last message finds a counter that it decreases to zero
  rcases List.eq_nil_or_concat' shares with rfl | ⟨front, last, rfl⟩
  · contradiction
  · rw [List.length_append, List.length_singleton] at hlength
    have hfront : ∀ share ∈ front, share.Sized numIvs bytes := fun share hshare ↦
      hshares share (List.mem_append_left _ hshare)
    have hlast : last.Sized numIvs bytes :=
      hshares last (List.mem_append_right _ List.mem_cons_self)
    have hzero : (r.add (front.foldl r.add s) last).numDataowners = 0 := by
      show (front.foldl r.add s).numDataowners - 1 = 0
      rw [numDataowners_foldl_add]
      omega
    rw [List.map_append, List.foldlM_append, foldlM_receive_lt hs hfront (by omega),
      List.foldl_append]
    show (List.foldlM r.receive (front.foldl r.add s) [last.items]) = _
    rw [List.foldlM_cons, receive_items (sized_foldl_add hs hfront) hlast, if_pos hzero]
    exact bind_pure _

end Run

/-! ## Sums -/

theorem castToDouble_signedResidue {m bits : Nat} {z : Int} (h : 2 * z.natAbs < m)
    (hfits : z.natAbs / 2 ^ bits < 2 ^ 64) :
    castToDouble (signedResidue m z) bits m = decoded bits z := by
  rw [decoded, signedResidue]
  obtain ⟨n, rfl | rfl⟩ := z.eq_nat_or_neg
  · rw [Int.natAbs_natCast] at h hfits ⊢
    have hresidue : ((n : Int) % m).toNat = n := by
      rw [← Int.natCast_mod, Int.toNat_natCast, Nat.mod_eq_of_lt (by omega)]
    rw [hresidue, if_neg (by omega), Stats.castToDouble_of_le h.le hfits]
  · rw [Int.natAbs_neg, Int.natAbs_natCast] at h hfits ⊢
    rcases Nat.eq_zero_or_pos n with rfl | hn
    · simp [Stats.castToDouble_of_le, droppedBits]
    · have hresidue : (-(n : Int) % m).toNat = m - n := by
        rw [← Int.add_emod_right, Int.emod_eq_of_lt (by omega) (by omega)]
        omega
      rw [hresidue, if_pos (by omega), Stats.castToDouble_sub h hfits]

/-- Shares that are added up are read as the number that they are shares of. -/
theorem castToDouble_foldl {modAdd : Nat → Nat → Nat → Nat} {m bits : Nat} {shares : List Nat}
    {z : Int} (hadd : ∀ a b, modAdd a b m = (a + b) % m) (hne : shares ≠ [])
    (h : OpensNumber m bits shares z) :
    castToDouble (shares.foldl (fun x res ↦ modAdd x res m) 0) bits m = decoded bits z := by
  have hresidue : (0 + shares.sum) % m = signedResidue m z := by
    rw [Nat.zero_add, signedResidue, ← h.opens.eq, ← Int.natCast_mod, Int.toNat_natCast]
  rw [foldl_modAdd hadd hne, hresidue, castToDouble_signedResidue h.representable h.fits]

/-- What is printed for a number is less than `2 ^ -64` away from it. -/
theorem decoded_near (bits : Nat) (z : Int) : |decoded bits z - z / 2 ^ bits| < 1 / 2 ^ 64 := by
  -- up to 64 bits nothing is dropped, and otherwise the bits below the first 64
  have hdropped : droppedBits z.natAbs bits * 2 ^ 64 < 2 ^ bits := by
    have hlt : droppedBits z.natAbs bits < 2 ^ (bits - 64) := Nat.mod_lt _ (Nat.two_pow_pos _)
    by_cases hbits : bits ≤ 64
    · rw [Nat.sub_eq_zero_of_le hbits, pow_zero, Nat.lt_one_iff] at hlt
      rw [hlt, Nat.zero_mul]
      exact Nat.two_pow_pos bits
    · calc droppedBits z.natAbs bits * 2 ^ 64 < 2 ^ (bits - 64) * 2 ^ 64 :=
            Nat.mul_lt_mul_of_pos_right hlt (Nat.two_pow_pos 64)
        _ = 2 ^ bits := by rw [← Nat.pow_add, Nat.sub_add_cancel (Nat.not_le.mp hbits).le]
  have hle : droppedBits z.natAbs bits ≤ z.natAbs := Nat.mod_le _ _
  have hcast : (droppedBits z.natAbs bits : ℚ) * 2 ^ 64 < 2 ^ bits := by exact_mod_cast hdropped
  have hbits : (0 : ℚ) < 2 ^ bits := by positivity
  have habs : |decoded bits z - z / 2 ^ bits| = droppedBits z.natAbs bits / 2 ^ bits := by
    have hd : (0 : ℚ) ≤ droppedBits z.natAbs bits / 2 ^ bits := by positivity
    rw [decoded, Nat.cast_sub hle]
    obtain ⟨n, rfl | rfl⟩ := z.eq_nat_or_neg
    · rw [if_neg (by omega), Int.natAbs_natCast] at *
      rw [Int.cast_natCast, ← sub_div, sub_sub_cancel_left, neg_div, abs_neg, abs_of_nonneg hd]
    · rw [Int.natAbs_neg, Int.natAbs_natCast] at *
      rcases Nat.eq_zero_or_pos n with rfl | hn
      · simp [droppedBits]
      · rw [if_pos (by omega), Int.cast_neg, Int.cast_natCast, neg_div, sub_neg_eq_add, sub_div,
          neg_sub, sub_add_cancel, abs_of_nonneg hd]
  rw [habs, div_lt_div_iff₀ hbits (by positivity), one_mul]
  exact hcast

/-! ## The page that is printed -/

section Print

variable {shares order : List ResultShares} {v : Results}

/-- The order of the data owners does not matter. -/
theorem Opens.perm (h : r.Opens shares v) (hperm : order.Perm shares) : r.Opens order v where
  modAdd := h.modAdd
  nonempty := fun hnil ↦ h.nonempty (List.nil_perm.mp (hnil ▸ hperm))
  sized := fun p hp ↦ h.sized p (hperm.mem_iff.mp hp)
  beta := fun i hi ↦ (h.beta i hi).perm (hperm.map _)
  meanSquareError := h.meanSquareError.perm (hperm.map _)
  rSquared := h.rSquared.perm (hperm.map _)
  meanSquareErrorCoeffs := fun i hi ↦ (h.meanSquareErrorCoeffs i hi).perm (hperm.map _)
  length_fPValue := h.length_fPValue
  fPValue := fun j hj ↦ (h.fPValue j hj).perm (hperm.map _)
  length_tPValue := h.length_tPValue
  tPValues := fun i hi j hj ↦ (h.tPValues i hi j hj).perm (hperm.map _)

theorem Opens.map_ne_nil {β : Type} (h : r.Opens shares v) (f : ResultShares → β) :
    shares.map f ≠ [] := fun hnil ↦ h.nonempty (List.map_eq_nil_iff.mp hnil)

/-- The sums of all shares. -/
def total (r : RegressionReceiver) (shares : List ResultShares) : State :=
  shares.foldl r.add (r.start shares.length)

theorem sized_start (r : RegressionReceiver) (numDataowners : Nat) :
    (r.start numDataowners).Sized r.info.numIvs r.bytesInLookupTableCells where
  results := List.length_replicate
  standardErrorCoeffs := List.length_replicate
  fPValue := List.length_replicate
  tPValues := List.length_replicate
  tPValue := fun tPValue h ↦ by rw [List.eq_of_mem_replicate h, List.length_replicate]

/-- The bytes of a cell. -/
theorem foldl_bytes {cells : List (List (BitVec 8))} {cell : List (BitVec 8)} {n : Nat}
    (hcells : ∀ c ∈ cells, c.length = n) (hlength : cell.length = n)
    (h : ∀ j < n, OpensByte (cells.map fun c ↦ c.getD j 0) (cell.getD j 0)) :
    cells.foldl (List.zipWith (· ^^^ ·)) (List.replicate n 0) = cell := by
  apply foldl_zipWith_eq 0
  · intro c hc
    rw [hcells c hc, List.length_replicate]
  · rw [hlength, List.length_replicate]
  · intro j x hx
    obtain ⟨hj, rfl⟩ := List.getElem?_eq_some_iff.mp hx
    rw [List.length_replicate] at hj
    rw [List.getElem_replicate, h j hj, List.getD_eq_getElem?_getD,
      List.getElem?_eq_getElem (hlength.symm ▸ hj), Option.getD_some]

/-- The numbers of a vector, as they are printed. -/
theorem getElem?_casts {vectors : List (List Nat)} {n bits i : Nat} {z : Int}
    (hadd : ∀ a b, r.modAdd a b r.endModulus = (a + b) % r.endModulus) (hne : vectors ≠ [])
    (hlength : ∀ ys ∈ vectors, ys.length = n) (hi : i < n)
    (h : OpensNumber r.endModulus bits (vectors.map fun ys ↦ ys.getD i 0) z) :
    ((vectors.foldl (List.zipWith fun x res ↦ r.modAdd x res r.endModulus)
        (List.replicate n 0)).map fun num ↦ castToDouble num bits r.endModulus)[i]? =
      some (decoded bits z) := by
  have hlength' : ∀ ys ∈ vectors, ys.length = (List.replicate n 0).length := fun ys hys ↦ by
    rw [hlength ys hys, List.length_replicate]
  rw [List.getElem?_map, getElem?_foldl_zipWith 0 hlength', List.getElem?_replicate, if_pos hi,
    Option.map_some, Option.map_some,
    castToDouble_foldl hadd (fun hnil ↦ hne (List.map_eq_nil_iff.mp hnil)) h]

/-- The rows of a page. -/
theorem regressionPrettyPrint_eq (rows : Nat → Row) {sqrt : ℚ → ℚ} {names : List String}
    {results coeffs ts : List ℚ} {error rsquare f : ℚ} (hresults : names.length = results.length)
    (hcoeffs : coeffs.length = results.length)
    (h : ∀ i < names.length, names[i]? = some (rows i).name ∧
      results[i]? = some (rows i).coefficient ∧
      (∃ coeff, coeffs[i]? = some coeff ∧ (rows i).stdErr = sqrt coeff) ∧
      ts[i]? = some (rows i).pValue) :
    regressionPrettyPrint sqrt names results error rsquare coeffs f ts =
      some ⟨(List.range names.length).map rows, sqrt error, rsquare, f⟩ := by
  rw [regressionPrettyPrint, if_pos ⟨hresults, hcoeffs⟩, ← hresults, collect_eq]
  · rfl
  · intro i hi
    obtain ⟨hname, hresult, ⟨coeff, hcoeff, hstdErr⟩, ht⟩ := h i hi
    simp only [hname, hresult, hcoeff, ht, Option.bind_eq_bind, Option.bind_some, ← hstdErr]
    rfl

/-- A vector of sums, as it is printed. -/
theorem getElem?_casts_total {field : State → List Nat} {shareField : ResultShares → List Nat}
    {bits i : Nat} {z : Int} (h : r.Opens shares v)
    (hadd : ∀ s share, field (r.add s share) =
      List.zipWith (fun x res ↦ r.modAdd x res r.endModulus) (field s) (shareField share))
    (hstart : field (r.start shares.length) = List.replicate r.info.numIvs 0)
    (hlength : ∀ s ∈ shares, (shareField s).length = r.info.numIvs) (hi : i < r.info.numIvs)
    (hopens : OpensNumber r.endModulus bits (shares.map fun s ↦ (shareField s).getD i 0) z) :
    ((field (r.total shares)).map fun num ↦ castToDouble num bits r.endModulus)[i]? =
      some (decoded bits z) := by
  rw [total, foldl_add field shareField _ hadd, hstart]
  refine getElem?_casts h.modAdd (h.map_ne_nil _) ?_ hi ?_
  · exact List.forall_mem_map.mpr hlength
  · rw [List.map_map]
    exact hopens

/-- A sum, as it is printed. -/
theorem castToDouble_total {field : State → Nat} {shareField : ResultShares → Nat} {bits : Nat}
    {z : Int} (h : r.Opens shares v)
    (hadd : ∀ s share, field (r.add s share) =
      r.modAdd (field s) (shareField share) r.endModulus)
    (hstart : field (r.start shares.length) = 0)
    (hopens : OpensNumber r.endModulus bits (shares.map shareField) z) :
    castToDouble (field (r.total shares)) bits r.endModulus = decoded bits z := by
  rw [total, foldl_add field shareField (fun x res ↦ r.modAdd x res r.endModulus) hadd, hstart]
  exact castToDouble_foldl h.modAdd (h.map_ne_nil _) hopens

theorem fPValue_total (h : r.Opens shares v) : (r.total shares).fPValue = v.fPValue := by
  rw [total, foldl_add State.fPValue ResultShares.fPValue (List.zipWith (· ^^^ ·))
    fun _ _ ↦ rfl]
  refine foldl_bytes ?_ h.length_fPValue fun j hj ↦ ?_
  · exact List.forall_mem_map.mpr fun s hs ↦ (h.sized s hs).fPValue
  · rw [List.map_map]
    exact h.fPValue j hj

theorem getElem?_tPValues_total {i : Nat} (h : r.Opens shares v) (hi : i < r.info.numIvs) :
    (r.total shares).tPValues[i]? = some (v.tPValues.getD i []) := by
  have hcells : ∀ cells ∈ shares.map ResultShares.tPValues, cells.length =
      (r.start shares.length).tPValues.length := by
    rw [(r.sized_start _).tPValues]
    exact List.forall_mem_map.mpr fun s hs ↦ (h.sized s hs).tPValues
  have hbytes : (shares.map fun s ↦ s.tPValues.getD i []).foldl (List.zipWith (· ^^^ ·))
      (List.replicate r.bytesInLookupTableCells 0) = v.tPValues.getD i [] := by
    refine foldl_bytes ?_ (h.length_tPValue i hi) fun j hj ↦ ?_
    · refine List.forall_mem_map.mpr fun s hs ↦ (h.sized s hs).tPValue _ ?_
      have hlt : i < s.tPValues.length := (h.sized s hs).tPValues ▸ hi
      rw [List.getD_eq_getElem?_getD, List.getElem?_eq_getElem hlt, Option.getD_some]
      exact List.getElem_mem hlt
    · rw [List.map_map]
      exact h.tPValues i hi j hj
  have hstart : (r.start shares.length).tPValues[i]? =
      some (List.replicate r.bytesInLookupTableCells 0) := by
    rw [start, List.getElem?_replicate, if_pos hi]
  rw [total, foldl_add State.tPValues ResultShares.tPValues
    (List.zipWith (List.zipWith (· ^^^ ·))) fun _ _ ↦ rfl, getElem?_foldl_zipWith [] hcells, hstart,
    Option.map_some, List.map_map, ← hbytes]
  rfl

theorem getElem?_getD {names : List String} {i : Nat} (hi : i < names.length) :
    names[i]? = some (names.getD i "") := by
  rw [List.getD_eq_getElem?_getD, List.getElem?_eq_getElem hi, Option.getD_some]

/-- The rows of the page are those of the names. -/
theorem map_row (names : List String) :
    (List.range names.length).map (fun i ↦ r.row v (names.getD i "") i) =
      (r.pageOf v names).rows := by
  apply List.ext_getElem?
  intro i
  rw [pageOf]
  by_cases hi : i < names.length
  · rw [List.getElem?_map, List.getElem?_range hi, List.getElem?_mapIdx, getElem?_getD hi]
    rfl
  · rw [List.getElem?_eq_none (by simpa using hi), List.getElem?_eq_none (by simpa using hi)]

/-- The page with the sums of all shares. -/
theorem print_total {names : List String} (h : r.Opens shares v)
    (hnames : r.J.findColumnNames r.payloads r.depVert r.fitIntercept = some names)
    (hlength : names.length = r.info.numIvs) :
    r.print (r.total shares) = some (r.pageOf v names) := by
  have hsized := sized_foldl_add (r := r) (sized_start r shares.length) h.sized
  have hrootMse : castToDouble (r.total shares).rootMse (5 * r.bitsOfPrecision) r.endModulus =
      decoded (5 * r.bitsOfPrecision) v.meanSquareError :=
    castToDouble_total h (fun _ _ ↦ rfl) rfl h.meanSquareError
  have hrsquare : castToDouble (r.total shares).rsquare r.bitsOfPrecision r.endModulus =
      decoded r.bitsOfPrecision v.rSquared :=
    castToDouble_total h (fun _ _ ↦ rfl) rfl h.rSquared
  rw [print, hnames]
  simp only [Option.bind_eq_bind, Option.bind_some, hrootMse, hrsquare, fPValue_total h]
  rw [regressionPrettyPrint_eq (fun i ↦ r.row v (names.getD i "") i), map_row]
  · rfl
  · rw [List.length_map, hlength]
    exact hsized.results.symm
  · rw [List.length_map, List.length_map]
    exact hsized.standardErrorCoeffs.trans hsized.results.symm
  · intro i hi
    have hi' : i < r.info.numIvs := hlength ▸ hi
    refine ⟨getElem?_getD hi, ?_, ⟨decoded (4 * r.bitsOfPrecision)
      (v.meanSquareErrorCoeffs.getD i 0), ?_, rfl⟩, ?_⟩
    · exact getElem?_casts_total h (fun _ _ ↦ rfl) rfl (fun s hs ↦ (h.sized s hs).beta) hi'
        (h.beta i hi')
    · exact getElem?_casts_total h (fun _ _ ↦ rfl) rfl
        (fun s hs ↦ (h.sized s hs).meanSquareErrorCoeffs) hi' (h.meanSquareErrorCoeffs i hi')
    · rw [List.getElem?_map, getElem?_tPValues_total h hi']
      rfl

/-- There is a name for each variable of the Gram matrix. -/
theorem exists_names {func : LinearRegressionFunction} {startModulus : Nat}
    (hne : r.J.leftVert ≠ r.J.rightVert)
    (hnames : ∀ var ∈ JoinedVerticals.allVars func, r.J.Names var)
    (hpayloads : r.payloads = (r.J.findPayloadRegression func).2)
    (hdepVert : r.depVert = func.depVar.vertical)
    (hinfo : r.info = r.J.setupRegressionInfo r.payloads r.depVert r.fitIntercept startModulus) :
    ∃ names, r.J.findColumnNames r.payloads r.depVert r.fitIntercept = some names ∧
      names.length = r.info.numIvs := by
  obtain ⟨first, second, hfound, hfirst, hsecond⟩ :=
    r.J.findColumnNames_eq hne hnames r.fitIntercept
  rw [hinfo, hpayloads, hdepVert]
  exact ⟨_, hfound,
    JoinedVerticals.length_columnNames hne hnames hfirst.length_eq.symm hsecond.length_eq.symm⟩

theorem mapM_message {numIvs bytes : Nat} (h : ∀ s ∈ order, s.Sized numIvs bytes) :
    order.mapM (message numIvs bytes) = some (order.map items) := by
  induction order with
  | nil => rfl
  | cons s order ih =>
    obtain ⟨hs, horder⟩ := List.forall_mem_cons.mp h
    rw [List.mapM_cons, hs.message, ih horder]
    rfl

/-- A recipient prints the page when the last data owner has answered, and nothing before it. -/
theorem page_of_messages (func : LinearRegressionFunction) (startModulus : Nat)
    (hne : r.J.leftVert ≠ r.J.rightVert)
    (hnames : ∀ var ∈ JoinedVerticals.allVars func, r.J.Names var)
    (hpayloads : r.payloads = (r.J.findPayloadRegression func).2)
    (hdepVert : r.depVert = func.depVar.vertical)
    (hinfo : r.info = r.J.setupRegressionInfo r.payloads r.depVert r.fitIntercept startModulus)
    (h : r.Opens shares v) (hperm : order.Perm shares) :
    ∃ names messages,
      r.J.findColumnNames r.payloads r.depVert r.fitIntercept = some names ∧
      names.length = r.info.numIvs ∧
      order.mapM (message r.info.numIvs r.bytesInLookupTableCells) = some messages ∧
      (∀ k < order.length, ∃ s,
        (messages.take k).foldlM r.receive (r.start order.length) = some s ∧ s.page = none) ∧
      ∃ s, messages.foldlM r.receive (r.start order.length) = some s ∧
        s.page = some (r.pageOf v names) := by
  have hopens := h.perm hperm
  have hstart := r.sized_start order.length
  obtain ⟨names, hfound, hlength⟩ :=
    exists_names hne hnames hpayloads hdepVert hinfo
  refine ⟨names, order.map items, hfound, hlength, mapM_message hopens.sized, ?_, ?_⟩
  · intro k hk
    have hsized : ∀ share ∈ order.take k,
        share.Sized r.info.numIvs r.bytesInLookupTableCells := fun share hshare ↦
      hopens.sized share (List.mem_of_mem_take hshare)
    have hlt : (order.take k).length < (r.start order.length).numDataowners := by
      rw [List.length_take_of_le hk.le]
      exact hk
    refine ⟨(order.take k).foldl r.add (r.start order.length), ?_, ?_⟩
    · rw [← List.map_take, foldlM_receive_lt hstart hsized hlt]
    · rw [page_foldl_add]
      rfl
  · refine ⟨{ r.total order with page := some (r.pageOf v names) }, ?_, rfl⟩
    rw [foldlM_receive hstart hopens.sized hopens.nonempty rfl]
    show (r.print (r.total order)).map _ = _
    rw [print_total hopens hfound hlength]
    rfl

end Print

/-! ## Two data owners -/

/-- A recipient of the regression with an intercept. -/
def pairReceiver : RegressionReceiver where
  J := joinVerticals
  payloads := (joinVerticals.findPayloadRegression variablesOf).2
  depVert := 1
  fitIntercept := true
  info := joinVerticals.setupRegressionInfo (joinVerticals.findPayloadRegression variablesOf).2 1
    true 1009
  endModulus := 1009
  bytesInLookupTableCells := 1
  bitsOfPrecision := 1
  modAdd a b m := (a + b) % m
  sqrt := id

/-- The coefficients `3 / 2`, `-1` and `1 / 2`. -/
def pairResults : Results where
  beta := [3, -2, 1]
  meanSquareError := 32
  rSquared := 1
  meanSquareErrorCoeffs := [16, 0, 16]
  fPValue := [128]
  tPValues := [[64], [32], [16]]

/-- The shares of the first data owner. -/
def firstOwner : ResultShares where
  beta := [500, 7, 1]
  meanSquareErrorShare := 30
  rSquaredShare := 1000
  meanSquareErrorCoeffs := [10, 9, 1000]
  fPValue := [240]
  tPValues := [[65], [34], [1]]

/-- The shares of the second one. -/
def secondOwner : ResultShares where
  beta := [512, 1000, 0]
  meanSquareErrorShare := 2
  rSquaredShare := 10
  meanSquareErrorCoeffs := [6, 1000, 25]
  fPValue := [112]
  tPValues := [[1], [2], [17]]

theorem opens_pairResults : pairReceiver.Opens [firstOwner, secondOwner] pairResults where
  modAdd := fun _ _ ↦ rfl
  nonempty := by simp
  sized := by
    have hfirst : firstOwner.Sized 3 1 := ⟨rfl, rfl, rfl, rfl, by decide⟩
    have hsecond : secondOwner.Sized 3 1 := ⟨rfl, rfl, rfl, rfl, by decide⟩
    exact List.forall_mem_cons.mpr ⟨hfirst, List.forall_mem_singleton.mpr hsecond⟩
  beta := by decide
  meanSquareError := by decide
  rSquared := by decide
  meanSquareErrorCoeffs := by decide
  length_fPValue := rfl
  fPValue := by decide
  length_tPValue := by decide
  tPValues := by decide

/-- The second data owner answers first. -/
theorem page_of_messages_pair :
    ∃ names messages,
      joinVerticals.findColumnNames (joinVerticals.findPayloadRegression variablesOf).2 1 true =
        some names ∧
      [secondOwner, firstOwner].mapM (message 3 1) = some messages ∧
      (∀ k < 2, ∃ s,
        (messages.take k).foldlM pairReceiver.receive (pairReceiver.start 2) = some s ∧
          s.page = none) ∧
      ∃ s, messages.foldlM pairReceiver.receive (pairReceiver.start 2) = some s ∧
        s.page = some (pairReceiver.pageOf pairResults names) := by
  have hnames : ∀ var ∈ JoinedVerticals.allVars variablesOf, joinVerticals.Names var := by
    simp [JoinedVerticals.allVars, variablesOf, JoinedVerticals.Names, JoinedVerticals.leftColumns,
      JoinedVerticals.rightColumns, joinVerticals, joinStudy]
  obtain ⟨names, messages, hfound, -, hmessages, hbefore, hpage⟩ :=
    page_of_messages variablesOf 1009 (by decide) hnames rfl rfl rfl opens_pairResults
      (List.Perm.swap firstOwner secondOwner [])
  exact ⟨names, messages, hfound, hmessages, hbefore, hpage⟩

end RegressionReceiver

end Safrn.Setup
