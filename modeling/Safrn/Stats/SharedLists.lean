import Mathlib.Data.List.Basic
import Safrn.Base.Loop
import Safrn.Stats.Peers

/-!
# The lists that two data owners share

Models the part that `Regression` and `Moments` have in common (`dataowner/Regression.cpp:153-166`,
`:183-249`, `:278-320`, `:391-428` and `dataowner/Moments.cpp:135-148`, `:165-232`, `:254-292`,
`:324-351`): the padding of the own list, the draws that mask it for every party of the other
verticals, the message with the masks and its receipt.
-/

namespace Safrn.Stats

open Safrn.Base

/-- `Observation`. -/
structure Observation where
  keyCols : List Nat
  arithmeticPayloadCols : List Nat
  xorPayloadCols : List (BitVec 8)
  deriving DecidableEq, Inhabited

/-- The column counts of the own list, and the fields of the info objects that the sharing reads.
`dataVertical` is `verticalDV` in a regression. -/
structure ListInfo where
  maxListSize : Nat
  numKeyCols : Nat
  numArithmeticPayloadCols : Nat
  numXorPayloadCols : Nat
  dataVertical : Nat
  keyModulus : Nat
  startModulus : Nat

/-- The values drawn by one party: the keys of its padding rows, and the masks of each column of
each row for each party of the other verticals. `keyMaskModulus` bounds the masks of the keys. -/
structure Draws (info : ListInfo) (keyMaskModulus : Nat) where
  padKey : Nat → Nat → Nat
  key : Nat → Nat → Nat → Nat
  arithmetic : Nat → Nat → Nat → Nat
  xor : Nat → Nat → Nat → BitVec 8
  padKey_lt : ∀ j k, padKey j k < info.keyModulus
  key_lt : ∀ i j k, key i j k < keyMaskModulus
  arithmetic_lt : ∀ i j k, arithmetic i j k < info.startModulus

/-- What a message carries: numbers and bytes. -/
inductive Cell where
  | number (x : Nat)
  | byte (b : BitVec 8)

section

variable (modSub : Nat → Nat → Nat → Nat) (info : ListInfo) {keyMaskModulus : Nat}
  (draws : Draws info keyMaskModulus)

/-- A padding row. -/
def padRow (j : Nat) : Observation where
  keyCols := (List.range info.numKeyCols).map (draws.padKey j)
  arithmeticPayloadCols := List.replicate info.numArithmeticPayloadCols 0
  xorPayloadCols := List.replicate info.numXorPayloadCols 0

/-- The rows that the padding appends: none when the list has reached `maxListSize`. -/
def padding (rows : List Observation) : List Observation :=
  (List.range (info.maxListSize - rows.length)).map (padRow info draws)

/-- The loop that pads the own list. -/
def padList (rows : List Observation) : List Observation := rows ++ padding info draws rows

/-- Row `j` for the cross party `i`: the draws, and what is left of the row. -/
def shareRow (i j : Nat) (row : Observation) : Option (Observation × Observation) := do
  let keys ← collect info.numKeyCols fun k ↦ do
    let value ← row.keyCols[k]?
    let rand_val := draws.key i j k
    some (rand_val, modSub value rand_val info.keyModulus)
  let arithmetic ← collect info.numArithmeticPayloadCols fun k ↦ do
    let value ← row.arithmeticPayloadCols[k]?
    let rand_val := draws.arithmetic i j k
    some (rand_val, modSub value rand_val info.startModulus)
  let xors ← collect info.numXorPayloadCols fun k ↦ do
    let value ← row.xorPayloadCols[k]?
    let rand_val := draws.xor i j k
    some (rand_val, value ^^^ rand_val)
  some (⟨keys.map Prod.fst, arithmetic.map Prod.fst, xors.map Prod.fst⟩,
    ⟨keys.map Prod.snd, arithmetic.map Prod.snd, xors.map Prod.snd⟩)

/-- An assignment to an element of a shared list. -/
def putRow (sharedList : List Observation) (slot : Nat) (row : Observation) :
    Option (List Observation) :=
  if slot < sharedList.length then some (sharedList.set slot row) else none

/-- One round of `setupCrossVerticalShares`: the shared list and the outgoing list for the cross
party `i`. -/
def setupCrossVerticalShare (selfVertical : Nat) (ownList : List Observation) (i : Nat) :
    Option (List Observation × List Observation) :=
  forRangeM (fun lists j ↦ do
    let row ← ownList[j]?
    let (o, o_my_share) ← shareRow modSub info draws i j row
    let sharedList ← putRow lists.1
      (j + info.maxListSize * (if selfVertical ≠ info.dataVertical then 1 else 0)) o_my_share
    some (sharedList, lists.2 ++ [o])) info.maxListSize
    (List.replicate (info.maxListSize * 2) default, [])

/-- `setupCrossVerticalShares`. -/
def setupCrossVerticalShares (selfVertical : Nat) (ownList : List Observation)
    (numCrossParties : Nat) : Option (List (List Observation × List Observation)) :=
  collect numCrossParties (setupCrossVerticalShare modSub info draws selfVertical ownList)

/-- The message of `shareWithCrossVerticalParties` for the cross party with this outgoing list. -/
def message (outgoing : List Observation) : Option (List Cell) :=
  forRangeM (fun omsg j ↦ do
    let o ← outgoing[j]?
    let keys ← collect info.numKeyCols fun k ↦ o.keyCols[k]?.map .number
    let arithmetic ← collect info.numArithmeticPayloadCols fun k ↦
      o.arithmeticPayloadCols[k]?.map .number
    let xors ← collect info.numXorPayloadCols fun k ↦ o.xorPayloadCols[k]?.map .byte
    some (omsg ++ (keys ++ (arithmetic ++ xors)))) info.maxListSize []

/-- Read `n` numbers. -/
def readNumbers : Nat → List Cell → Option (List Nat × List Cell)
  | 0, msg => some ([], msg)
  | n + 1, .number x :: msg => (readNumbers n msg).map fun r ↦ (x :: r.1, r.2)
  | _ + 1, _ => none

/-- Read `n` bytes. -/
def readBytes : Nat → List Cell → Option (List (BitVec 8) × List Cell)
  | 0, msg => some ([], msg)
  | n + 1, .byte b :: msg => (readBytes n msg).map fun r ↦ (b :: r.1, r.2)
  | _ + 1, _ => none

/-- Read one row of the sender's outgoing list. -/
def readRow (msg : List Cell) : Option (Observation × List Cell) := do
  let (keyCols, msg) ← readNumbers info.numKeyCols msg
  let (arithmeticPayloadCols, msg) ← readNumbers info.numArithmeticPayloadCols msg
  let (xorPayloadCols, msg) ← readBytes info.numXorPayloadCols msg
  some (⟨keyCols, arithmeticPayloadCols, xorPayloadCols⟩, msg)

/-- The loop of `handleReceive` that fills the other half of the shared list. -/
def receiveShare (selfVertical : Nat) (sharedList : List Observation) (msg : List Cell) :
    Option (List Observation) :=
  (forRangeM (fun (read : List Observation × List Cell) j ↦ do
    let (o, msg) ← readRow info read.2
    let sharedList ← putRow read.1
      (j + info.maxListSize * (if selfVertical = info.dataVertical then 1 else 0)) o
    some (sharedList, msg)) info.maxListSize (sharedList, msg)).map Prod.fst

/-! ## What the sharing computes -/

/-- The masks of a row. -/
def maskRow (i j : Nat) : Observation where
  keyCols := (List.range info.numKeyCols).map (draws.key i j)
  arithmeticPayloadCols := (List.range info.numArithmeticPayloadCols).map (draws.arithmetic i j)
  xorPayloadCols := (List.range info.numXorPayloadCols).map (draws.xor i j)

/-- What is left of a row. -/
def keptRow (i j : Nat) (row : Observation) : Observation where
  keyCols := (List.range info.numKeyCols).map fun k ↦
    modSub (row.keyCols.getD k 0) (draws.key i j k) info.keyModulus
  arithmeticPayloadCols := (List.range info.numArithmeticPayloadCols).map fun k ↦
    modSub (row.arithmeticPayloadCols.getD k 0) (draws.arithmetic i j k) info.startModulus
  xorPayloadCols := (List.range info.numXorPayloadCols).map fun k ↦
    row.xorPayloadCols.getD k 0 ^^^ draws.xor i j k

/-- The masks for a cross party. -/
def masks (i : Nat) : List Observation :=
  (List.range info.maxListSize).map (maskRow info draws i)

/-- The own half of the list shared with a cross party. -/
def kept (i : Nat) (ownList : List Observation) : List Observation :=
  (List.range info.maxListSize).map fun j ↦
    keptRow modSub info draws i j (ownList.getD j default)

/-- The row has the columns that are shared. -/
structure WellFormed (row : Observation) : Prop where
  keyCols : info.numKeyCols ≤ row.keyCols.length
  arithmeticPayloadCols : info.numArithmeticPayloadCols ≤ row.arithmeticPayloadCols.length
  xorPayloadCols : info.numXorPayloadCols ≤ row.xorPayloadCols.length

end

section

variable {modSub : Nat → Nat → Nat → Nat} {info : ListInfo} {keyMaskModulus : Nat}
  {draws : Draws info keyMaskModulus}

theorem wellFormed_padRow (j : Nat) : WellFormed info (padRow info draws j) := by
  constructor <;> simp [padRow]

theorem wellFormed_padList {rows : List Observation} (h : ∀ row ∈ rows, WellFormed info row) :
    ∀ row ∈ padList info draws rows, WellFormed info row := by
  intro row hrow
  rcases List.mem_append.mp hrow with hrow | hrow
  · exact h row hrow
  · obtain ⟨j, -, rfl⟩ := List.mem_map.mp hrow
    exact wellFormed_padRow j

theorem length_padList (rows : List Observation) :
    (padList info draws rows).length = max rows.length info.maxListSize := by
  simp only [padList, padding, List.length_append, List.length_map, List.length_range]
  omega

theorem length_masks (i : Nat) : (masks info draws i).length = info.maxListSize := by
  simp [masks]

theorem length_kept (i : Nat) (ownList : List Observation) :
    (kept modSub info draws i ownList).length = info.maxListSize := by
  simp [kept]

theorem shareRow_eq {row : Observation} (h : WellFormed info row) (i j : Nat) :
    shareRow modSub info draws i j row =
      some (maskRow info draws i j, keptRow modSub info draws i j row) := by
  have hkeys : ∀ k < info.numKeyCols, (row.keyCols[k]?.bind fun value ↦
      some (draws.key i j k, modSub value (draws.key i j k) info.keyModulus)) =
      some (draws.key i j k, modSub (row.keyCols.getD k 0) (draws.key i j k) info.keyModulus) := by
    intro k hk
    simp [Nat.lt_of_lt_of_le hk h.keyCols]
  have harithmetic : ∀ k < info.numArithmeticPayloadCols,
      (row.arithmeticPayloadCols[k]?.bind fun value ↦ some (draws.arithmetic i j k,
        modSub value (draws.arithmetic i j k) info.startModulus)) =
      some (draws.arithmetic i j k, modSub (row.arithmeticPayloadCols.getD k 0)
        (draws.arithmetic i j k) info.startModulus) := by
    intro k hk
    simp [Nat.lt_of_lt_of_le hk h.arithmeticPayloadCols]
  have hxors : ∀ k < info.numXorPayloadCols, (row.xorPayloadCols[k]?.bind fun value ↦
      some (draws.xor i j k, value ^^^ draws.xor i j k)) =
      some (draws.xor i j k, row.xorPayloadCols.getD k 0 ^^^ draws.xor i j k) := by
    intro k hk
    simp [Nat.lt_of_lt_of_le hk h.xorPayloadCols]
  simp only [shareRow, Option.bind_eq_bind, collect_eq hkeys, collect_eq harithmetic,
    collect_eq hxors, Option.bind_some, List.map_map, Function.comp_def]
  rfl

/-- The row that is written is the next one. -/
private theorem putRow_next (g : Nat → Observation) (pre post : List Observation)
    {mid : List Observation} {j : Nat} (hj : j < mid.length) :
    putRow (pre ++ ((List.range j).map g ++ (mid.drop j ++ post))) (j + pre.length) (g j) =
      some (pre ++ ((List.range (j + 1)).map g ++ (mid.drop (j + 1) ++ post))) := by
  have hdrop : mid.drop j = mid[j] :: mid.drop (j + 1) := List.drop_eq_getElem_cons hj
  have hlen : ((List.range j).map g).length = j := by simp
  rw [putRow, if_pos]
  · rw [hdrop, List.set_append_right _ _ (Nat.le_add_left _ _), Nat.add_sub_cancel,
      List.set_append_right _ _ (Nat.le_of_eq hlen), hlen, Nat.sub_self, List.range_succ]
    simp only [List.cons_append, List.set_cons_zero, List.map_append, List.map_cons, List.map_nil,
      List.append_assoc, List.nil_append]
  · simp only [List.length_append, List.length_drop, hlen]
    omega

/-- A loop that writes the rows of one half of a list. -/
private theorem forRangeM_putRow {σ : Type} {P : Prop} [Decidable P]
    {f : List Observation × σ → Nat → Option (List Observation × σ)} {n : Nat}
    {g : Nat → Observation} {t : Nat → σ} {lower upper : List Observation}
    (hlower : lower.length = n) (hupper : upper.length = n)
    (hf : ∀ j < n, ∀ sharedList, f (sharedList, t j) j =
      (putRow sharedList (j + n * (if P then 1 else 0)) (g j)).map fun list ↦
        (list, t (j + 1))) :
    forRangeM f n (lower ++ upper, t 0) =
      some (if P then lower ++ (List.range n).map g else (List.range n).map g ++ upper,
        t n) := by
  by_cases hP : P
  · have hloop : ∃ lists, forRangeM f n (lower ++ upper, t 0) = some lists ∧
        lists = (lower ++ ((List.range n).map g ++ (upper.drop n ++ [])), t n) := by
      apply forRangeM_invariant fun k lists ↦
        lists = (lower ++ ((List.range k).map g ++ (upper.drop k ++ [])), t k)
      · simp
      · rintro j hj _ rfl
        refine ⟨_, ?_, rfl⟩
        rw [hf j hj, if_pos hP, Nat.mul_one, ← hlower, putRow_next g lower [] (by omega),
          Option.map_some]
    obtain ⟨lists, hrun, rfl⟩ := hloop
    rw [hrun, if_pos hP, List.drop_of_length_le (Nat.le_of_eq hupper)]
    simp
  · have hloop : ∃ lists, forRangeM f n (lower ++ upper, t 0) = some lists ∧
        lists = ([] ++ ((List.range n).map g ++ (lower.drop n ++ upper)), t n) := by
      apply forRangeM_invariant fun k lists ↦
        lists = ([] ++ ((List.range k).map g ++ (lower.drop k ++ upper)), t k)
      · simp
      · rintro j hj _ rfl
        refine ⟨_, ?_, rfl⟩
        have hput := putRow_next g [] upper (hlower ▸ hj)
        rw [hf j hj, if_neg hP, Nat.mul_zero]
        exact congrArg (Option.map fun list ↦ (list, t (j + 1))) hput
    obtain ⟨lists, hrun, rfl⟩ := hloop
    rw [hrun, if_neg hP, List.drop_of_length_le (Nat.le_of_eq hlower)]
    simp

/-- `setupCrossVerticalShare` fills the own half and lists the masks. -/
theorem setupCrossVerticalShare_eq {ownList : List Observation}
    (hlen : info.maxListSize ≤ ownList.length) (h : ∀ row ∈ ownList, WellFormed info row)
    (selfVertical i : Nat) :
    setupCrossVerticalShare modSub info draws selfVertical ownList i =
      some (if selfVertical ≠ info.dataVertical then
          List.replicate info.maxListSize default ++ kept modSub info draws i ownList
        else kept modSub info draws i ownList ++ List.replicate info.maxListSize default,
        masks info draws i) := by
  have hempty : List.replicate (info.maxListSize * 2) (default : Observation) =
      List.replicate info.maxListSize default ++ List.replicate info.maxListSize default := by
    rw [List.replicate_append_replicate, Nat.mul_two]
  unfold setupCrossVerticalShare
  rw [hempty]
  apply forRangeM_putRow (P := selfVertical ≠ info.dataVertical)
    (t := fun k ↦ (List.range k).map (maskRow info draws i))
    (g := fun j ↦ keptRow modSub info draws i j (ownList.getD j default))
    List.length_replicate List.length_replicate
  intro j hj sharedList
  have hlt : j < ownList.length := by omega
  have hget : ownList[j]? = some ownList[j] := List.getElem?_eq_getElem hlt
  have hgetD : ownList.getD j default = ownList[j] := by simp [hlt]
  rw [hgetD, hget]
  simp only [Option.bind_eq_bind, Option.bind_some, shareRow_eq (h _ (List.getElem_mem hlt)),
    Option.map_eq_bind, List.range_succ, List.map_append, List.map_cons, List.map_nil]
  rfl

/-! ## The message -/

/-- The row as it is written. -/
private def encodeRow (o : Observation) : List Cell :=
  o.keyCols.map .number ++ (o.arithmeticPayloadCols.map .number ++ o.xorPayloadCols.map .byte)

private theorem readNumbers_append (xs : List Nat) (rest : List Cell) :
    readNumbers xs.length (xs.map .number ++ rest) = some (xs, rest) := by
  induction xs with
  | nil => rfl
  | cons x xs ih => simp [readNumbers, ih]

private theorem readBytes_append (bs : List (BitVec 8)) (rest : List Cell) :
    readBytes bs.length (bs.map .byte ++ rest) = some (bs, rest) := by
  induction bs with
  | nil => rfl
  | cons b bs ih => simp [readBytes, ih]

/-- A row of masks is read as it was written. -/
private theorem readRow_maskRow (i j : Nat) (rest : List Cell) :
    readRow info (encodeRow (maskRow info draws i j) ++ rest) =
      some (maskRow info draws i j, rest) := by
  have hkeys := readNumbers_append ((List.range info.numKeyCols).map (draws.key i j))
  have harithmetic :=
    readNumbers_append ((List.range info.numArithmeticPayloadCols).map (draws.arithmetic i j))
  have hxors := readBytes_append ((List.range info.numXorPayloadCols).map (draws.xor i j))
  simp only [List.length_map, List.length_range] at hkeys harithmetic hxors
  simp only [readRow, encodeRow, maskRow, List.append_assoc, Option.bind_eq_bind, hkeys,
    harithmetic, hxors, Option.bind_some]

private theorem message_masks (i : Nat) :
    message info (masks info draws i) =
      some ((List.range info.maxListSize).flatMap fun j ↦ encodeRow (maskRow info draws i j)) := by
  have hloop : ∃ omsg, message info (masks info draws i) = some omsg ∧
      omsg = (List.range info.maxListSize).flatMap fun j ↦ encodeRow (maskRow info draws i j) := by
    apply forRangeM_invariant fun k omsg ↦
      omsg = (List.range k).flatMap fun j ↦ encodeRow (maskRow info draws i j)
    · rfl
    · rintro j hj _ rfl
      refine ⟨_, ?_, rfl⟩
      have hget : (masks info draws i)[j]? = some (maskRow info draws i j) := by
        simp [masks, hj]
      have hkeys : ∀ k < info.numKeyCols,
          ((maskRow info draws i j).keyCols[k]?.map Cell.number) =
            some (.number (draws.key i j k)) := by
        intro k hk
        simp [maskRow, hk]
      have harithmetic : ∀ k < info.numArithmeticPayloadCols,
          ((maskRow info draws i j).arithmeticPayloadCols[k]?.map Cell.number) =
            some (.number (draws.arithmetic i j k)) := by
        intro k hk
        simp [maskRow, hk]
      have hxors : ∀ k < info.numXorPayloadCols,
          ((maskRow info draws i j).xorPayloadCols[k]?.map Cell.byte) =
            some (.byte (draws.xor i j k)) := by
        intro k hk
        simp [maskRow, hk]
      simp only [hget, Option.bind_eq_bind, Option.bind_some, collect_eq hkeys,
        collect_eq harithmetic, collect_eq hxors, List.range_succ, List.flatMap_append,
        List.flatMap_cons, List.flatMap_nil, List.append_nil]
      simp [encodeRow, maskRow, Function.comp_def]
  obtain ⟨omsg, hrun, rfl⟩ := hloop
  exact hrun

/-- The receipt of the message fills the other half with the sender's masks. -/
theorem receiveShare_masks {lower upper : List Observation} (hlower : lower.length = info.maxListSize)
    (hupper : upper.length = info.maxListSize) (selfVertical i : Nat) :
    (message info (masks info draws i)).bind (receiveShare info selfVertical (lower ++ upper)) =
      some (if selfVertical = info.dataVertical then lower ++ masks info draws i
        else masks info draws i ++ upper) := by
  have hread := forRangeM_putRow (P := selfVertical = info.dataVertical)
    (f := fun read j ↦ do
      let (o, msg) ← readRow info read.2
      let sharedList ← putRow read.1
        (j + info.maxListSize * (if selfVertical = info.dataVertical then 1 else 0)) o
      some (sharedList, msg))
    (t := fun k ↦ ((List.range info.maxListSize).drop k).flatMap fun j ↦
      encodeRow (maskRow info draws i j))
    (g := maskRow info draws i) hlower hupper (by
      intro j hj sharedList
      have hdrop : (List.range info.maxListSize).drop j =
          j :: (List.range info.maxListSize).drop (j + 1) := by
        rw [List.drop_eq_getElem_cons (by simpa using hj), List.getElem_range]
      simp only [hdrop, List.flatMap_cons, readRow_maskRow, Option.bind_eq_bind, Option.bind_some,
        Option.map_eq_bind]
      rfl)
  rw [message_masks, Option.bind_some, receiveShare]
  exact congrArg (Option.map Prod.fst) hread

end

end Safrn.Stats
