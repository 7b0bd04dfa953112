import Safrn.Stats.Ordering
import Safrn.Stats.Payload

/-!
# The later states of a regression and of the moments

Models the cases of `handleComplete` after `awaitingSISOSort`
(`dataowner/Regression.cpp:513-1782`, `dataowner/Moments.cpp:437-566`): what each draws from the
dispensers, which fronctocol it invokes and which state it enters, and what the patrons request
(`dataowner/RegressionPatron.cpp:41-76`, `dataowner/MomentsPatron.cpp:23-28`,
`dataowner/LookupPatron.cpp:36-42`).
-/

namespace Safrn.Stats

open Safrn.Base

variable {Stage Dispenser : Type} [DecidableEq Dispenser]

namespace Session

variable (requested : Dispenser → Nat) (d : Dispenser)

/-- A loop that draws one item for each of `n` children. -/
def gets (n : Nat) (s : Session Stage Dispenser) : Option (Session Stage Dispenser) :=
  forRangeM (fun s _ ↦ s.get requested d) n s

/-- A loop over the pairs `i ≤ j` below `n`. -/
def getsTriangle (n : Nat) (s : Session Stage Dispenser) : Option (Session Stage Dispenser) :=
  forRangeM (fun s i ↦ gets requested d (n - i) s) n s

/-- The invocation of a batch that the next state awaits. -/
def next (stage : Stage) (size : Nat) (s : Session Stage Dispenser) : Session Stage Dispenser :=
  (s.invoke (.later stage 0 size)).goto (.later stage)

end Session

/-- The number of children of a batch. -/
def Child.size : Child Stage → Nat
  | .later _ _ size => size
  | _ => 0

/-! ## Regression -/

inductive RegressionStage
  | awaitingZipReduce
  | awaitingBatchedModConvUp
  | awaitingMatrixMultiply
  | awaitingMatrixReveal
  | awaitingRegressionMultiply
  | awaitingFirstCompare
  | awaitingFirstTypeCastFromBit
  | awaitingNegativeCorrectionMultiply
  | awaitingDivision
  | awaitingNegativeRecorrectionMultiply
  | awaitingFirstMultiplyForErrorTerms
  | awaitingSecondMultiplyForErrorTerms
  | awaitingThirdMultiplyForErrorTerms
  | awaitingFourthMultiplyForErrorTerms
  | awaitingDivisionForErrorTerms
  | awaitingCompareForFtStatistics
  | awaitingBatchedTypeCastFromBit
  | awaitingCompareForFtStatisticsEndModulus
  | awaitingBatchedTypeCastFromBitLast
  | awaitingFifthMultiplyForErrorTerms
  | awaitingBatchedLookup
  deriving DecidableEq

/-- The dispensers of `RegressionRandomness`, those of the cross party `i` among them, and those of
the randomness of the lookup `k`. -/
inductive RegressionDispenser
  | modConvUp
  | divide
  | zipAdjacent (i : Nat)
  | beaverTripleForFactory (i : Nat)
  | beaverTripleForMatrixMultiply
  | randomMatrixAndDetInverse
  | beaverTripleForFinalMultiply
  | compareEndModulus
  | compare
  | typeCastFromBit
  | fLookup
  | tLookup
  | lookupTable (k : Nat)
  | lookupCompare (k : Nat)
  | lookupTypeCastFromBit (k : Nat)
  deriving DecidableEq

/-- A run of the regression: the number of cross parties and of rows of the tables. The fronctocols
of `ZipReduce` for a list of that length and the triples of `MatrixMult` are those of the library. -/
structure RegressionRun where
  info : RegressionInfo
  maxListSize : Nat
  numCrossParties : Nat
  fRows : Nat
  tRows : Nat
  zipReduceFronctocols : Nat → Nat
  matrixMultTriples : Nat → Nat → Nat → Nat

namespace RegressionRun

variable (r : RegressionRun)

/-- The triples that one `RegressionPayloadCompute` draws. -/
def payloadComputeTriples : Nat :=
  r.info.verticalNonDvNumIvs * (r.info.verticalDvNumIvs + 1)

/-- What `RegressionRandomnessPatron` requests for one regression, and `LookupRandomnessPatron` for
one lookup. -/
def requested : RegressionDispenser → Nat
  | .modConvUp => r.info.numIvs * r.info.numIvs + r.info.numIvs + 3
  | .divide => r.info.numIvs + 2 + r.info.numIvs + 1 + r.info.numIvs
  | .zipAdjacent i => if i < r.numCrossParties then 1 else 0
  | .beaverTripleForFactory i =>
    if i < r.numCrossParties then sizePred (2 * r.maxListSize) * r.payloadComputeTriples else 0
  | .beaverTripleForMatrixMultiply =>
    r.info.numIvs * r.info.numIvs * (r.info.numIvs + 1)
  | .randomMatrixAndDetInverse => 1
  | .beaverTripleForFinalMultiply =>
    r.info.numIvs + 2 * r.info.numIvs + r.info.numIvs * r.info.numIvs + 2 * r.info.numIvs + 2 +
      r.info.numIvs * r.info.numIvs + 3 * r.info.numIvs + r.info.numIvs + 2 + r.info.numIvs +
      r.info.numIvs + 1
  | .compareEndModulus => r.info.numIvs + 1 + r.info.numIvs
  | .compare => r.fRows + r.tRows
  | .typeCastFromBit => r.info.numIvs + r.fRows + r.tRows + 1 + r.info.numIvs
  | .fLookup => 1
  | .tLookup => r.info.numIvs
  | .lookupTable k | .lookupCompare k | .lookupTypeCastFromBit k =>
    if k < 1 + r.info.numIvs then 1 else 0

/-- `awaitingZipAdjacent`, when the last list is zipped: each `ZipReduce` has its own factory, which
draws the triples of each fronctocol that it generates. -/
def zipped (s : Session RegressionStage RegressionDispenser) :
    Option (Session RegressionStage RegressionDispenser) := do
  let s ← forRangeM (fun s i ↦ do
    let s ← s.gets r.requested (.beaverTripleForFactory i)
      (r.zipReduceFronctocols (2 * r.maxListSize) * r.payloadComputeTriples)
    some (s.invoke (.later .awaitingZipReduce i 0))) r.numCrossParties s
  some ((s.await r.numCrossParties).goto (.later .awaitingZipReduce))

/-- The randomness of the lookup `k`, from its constructor to its completion. -/
def lookup (k : Nat) (s : Session RegressionStage RegressionDispenser) :
    Option (Session RegressionStage RegressionDispenser) := do
  let s ← s.get r.requested (.lookupTable k)
  let s ← s.get r.requested (.lookupCompare k)
  s.get r.requested (.lookupTypeCastFromBit k)

/-- The later cases of `handleComplete`; those of the revealer and of the others draw the same. -/
def handleComplete (stage : RegressionStage) (f : Child RegressionStage)
    (s : Session RegressionStage RegressionDispenser) :
    Option (Session RegressionStage RegressionDispenser) :=
  let n := r.info.numIvs
  match stage with
  | .awaitingZipReduce =>
    let s := s.decrement
    if s.numPartiesAwaiting = 0 then do
      let s ← s.gets r.requested .modConvUp (n * n + n + 3)
      some (s.next .awaitingBatchedModConvUp (n * n + n + 3))
    else some s
  | .awaitingBatchedModConvUp => do
    let s ← s.get r.requested .randomMatrixAndDetInverse
    let s ← s.gets r.requested .beaverTripleForMatrixMultiply (r.matrixMultTriples n n (n + 1))
    some (s.next .awaitingMatrixMultiply 0)
  | .awaitingMatrixMultiply => some (s.next .awaitingMatrixReveal (n * n))
  | .awaitingMatrixReveal => do
    let s ← s.gets r.requested .beaverTripleForFinalMultiply n
    some (s.next .awaitingRegressionMultiply n)
  | .awaitingRegressionMultiply => do
    let s ← s.gets r.requested .compareEndModulus n
    some (s.next .awaitingFirstCompare n)
  | .awaitingFirstCompare => do
    let s ← s.gets r.requested .typeCastFromBit f.size
    some (s.next .awaitingFirstTypeCastFromBit f.size)
  | .awaitingFirstTypeCastFromBit => do
    let s ← s.gets r.requested .beaverTripleForFinalMultiply n
    some (s.next .awaitingNegativeCorrectionMultiply n)
  | .awaitingNegativeCorrectionMultiply => do
    let s ← s.gets r.requested .divide n
    some (s.next .awaitingDivision n)
  | .awaitingDivision => do
    let s ← s.gets r.requested .beaverTripleForFinalMultiply n
    some (s.next .awaitingNegativeRecorrectionMultiply n)
  | .awaitingNegativeRecorrectionMultiply => do
    let s ← s.getsTriangle r.requested .beaverTripleForFinalMultiply n
    let s ← s.getsTriangle r.requested .beaverTripleForFinalMultiply n
    let s ← s.gets r.requested .beaverTripleForFinalMultiply n
    let s ← s.get r.requested .beaverTripleForFinalMultiply
    let s ← s.get r.requested .beaverTripleForFinalMultiply
    some (s.next .awaitingFirstMultiplyForErrorTerms (n * (n + 1) + n + 2))
  | .awaitingFirstMultiplyForErrorTerms => do
    let s ← s.getsTriangle r.requested .beaverTripleForFinalMultiply n
    let s ← s.getsTriangle r.requested .beaverTripleForFinalMultiply n
    let s ← s.gets r.requested .beaverTripleForFinalMultiply n
    let s ← s.gets r.requested .beaverTripleForFinalMultiply n
    some (s.next .awaitingSecondMultiplyForErrorTerms (n * (n + 1) + n + n))
  | .awaitingSecondMultiplyForErrorTerms => do
    let s ← s.gets r.requested .beaverTripleForFinalMultiply n
    let s ← s.get r.requested .beaverTripleForFinalMultiply
    let s ← s.get r.requested .beaverTripleForFinalMultiply
    some (s.next .awaitingThirdMultiplyForErrorTerms (n + 2))
  | .awaitingThirdMultiplyForErrorTerms => do
    let s ← s.gets r.requested .beaverTripleForFinalMultiply n
    some (s.next .awaitingFourthMultiplyForErrorTerms n)
  | .awaitingFourthMultiplyForErrorTerms => do
    let s ← s.get r.requested .divide
    let s ← s.get r.requested .divide
    let s ← s.gets r.requested .divide n
    let s ← s.get r.requested .divide
    let s ← s.gets r.requested .divide n
    some (s.next .awaitingDivisionForErrorTerms (2 + n + 1 + n))
  | .awaitingDivisionForErrorTerms => do
    let s ← s.gets r.requested .compare (sizePred r.fRows)
    let s ← s.gets r.requested .compare (sizePred r.tRows)
    some (s.next .awaitingCompareForFtStatistics (sizePred r.fRows + sizePred r.tRows))
  | .awaitingCompareForFtStatistics => do
    let s ← s.gets r.requested .typeCastFromBit f.size
    some (s.next .awaitingBatchedTypeCastFromBit f.size)
  | .awaitingBatchedTypeCastFromBit => do
    let s ← s.get r.requested .compareEndModulus
    let s ← s.gets r.requested .compareEndModulus n
    some (s.next .awaitingCompareForFtStatisticsEndModulus (1 + n))
  | .awaitingCompareForFtStatisticsEndModulus => do
    let s ← s.gets r.requested .typeCastFromBit f.size
    some (s.next .awaitingBatchedTypeCastFromBitLast f.size)
  | .awaitingBatchedTypeCastFromBitLast => do
    let s ← s.get r.requested .beaverTripleForFinalMultiply
    let s ← s.gets r.requested .beaverTripleForFinalMultiply n
    some (s.next .awaitingFifthMultiplyForErrorTerms (1 + n))
  | .awaitingFifthMultiplyForErrorTerms => do
    let s ← s.get r.requested .fLookup
    let s ← s.gets r.requested .tLookup n
    let s ← forRangeM (fun s k ↦ r.lookup k s) (1 + n) s
    some (s.next .awaitingBatchedLookup (1 + n))
  | .awaitingBatchedLookup => some s.finish

/-- The regression. -/
def program : Program RegressionStage RegressionDispenser where
  numCrossParties := r.numCrossParties
  requested := r.requested
  zipAdjacentDispenser := .zipAdjacent
  zipped := r.zipped
  handleComplete := r.handleComplete

end RegressionRun

/-! ## Moments -/

inductive MomentsStage
  | awaitingBatchedModConvUp
  | awaitingDivision
  deriving DecidableEq

inductive MomentsDispenser
  | modConvUp
  | divide
  | zipAdjacent (i : Nat)
  deriving DecidableEq

/-- A run of the moments. -/
structure MomentsRun where
  payloadLength : Nat
  numCrossParties : Nat

namespace MomentsRun

variable (m : MomentsRun)

/-- What `MomentsRandomnessPatron` requests for one computation. -/
def requested : MomentsDispenser → Nat
  | .modConvUp => m.payloadLength
  | .divide => m.payloadLength
  | .zipAdjacent i => if i < m.numCrossParties then 1 else 0

/-- `awaitingZipAdjacent`, when the last list is zipped. -/
def zipped (s : Session MomentsStage MomentsDispenser) :
    Option (Session MomentsStage MomentsDispenser) := do
  let s ← s.gets m.requested .modConvUp m.payloadLength
  some (s.next .awaitingBatchedModConvUp m.payloadLength)

/-- The later cases of `handleComplete`. -/
def handleComplete (stage : MomentsStage) (_f : Child MomentsStage)
    (s : Session MomentsStage MomentsDispenser) :
    Option (Session MomentsStage MomentsDispenser) :=
  match stage with
  | .awaitingBatchedModConvUp => do
    let s ← s.gets m.requested .divide (m.payloadLength - 1)
    some (s.next .awaitingDivision (m.payloadLength - 1))
  | .awaitingDivision => some s.finish

/-- The moments. -/
def program : Program MomentsStage MomentsDispenser where
  numCrossParties := m.numCrossParties
  requested := m.requested
  zipAdjacentDispenser := .zipAdjacent
  zipped := m.zipped
  handleComplete := m.handleComplete

end MomentsRun
end Safrn.Stats
