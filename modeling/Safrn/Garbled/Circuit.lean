import Safrn.Base.Loop
import Safrn.Base.Numerals
import Safrn.Garbled.Gate
import Mathlib.Data.Fin.VecNotation
import Mathlib.Logic.Function.Basic

/-!
# Garbled five-bit equality circuits

Models `BackServerRawHandler.java:1938-1974,4250-4324`. Wires `0` to `4` are the inputs and
wires `5` to `8` the outputs of the gates; the maker labels the wires from the output back to
the inputs, the evaluator decodes them forwards. An array index outside the random buffer is an
exception, here `none`.
-/

namespace Safrn.Garbled

open Safrn.Base

/-- The width of the labels of each wire. -/
def seclens (j : Nat) : Nat := [3, 4, 4, 6, 4, 2, 3, 2, 1].getD j 0

/-- The two input wires of the gate whose output is wire `j`. -/
def wiring (j : Nat) : Nat × Nat :=
  [(0, 0), (1, 1), (2, 2), (3, 3), (4, 4), (0, 1), (2, 3), (6, 4), (5, 7)].getD j (0, 0)

/-- `randbuf.length`. -/
def randbufLength : Nat := 13000000

/-- The locals and outputs of `makeFullEqualityCircuits`. -/
structure Maker where
  randbuf : Nat → UInt8
  offset : Nat
  equalitytable : Nat → Nat → Nat
  outflip : Nat → Nat
  stufftosend : Nat → Nat

namespace Maker

/-- `randbuf[offset + k]`. -/
def read (st : Maker) (k : Nat) : Option Nat :=
  if st.offset + k < randbufLength then some (st.randbuf (st.offset + k)).toNat else none

/-- `Rand.bytes` of `n` bytes into the buffer; `fresh` is what the generator delivers. -/
def refill (st : Maker) (fresh : Nat → UInt8) (n : Nat) : Option Maker :=
  if n ≤ randbufLength then
    some { st with randbuf := fun k ↦ if k < n then fresh k else st.randbuf k, offset := 0 }
  else none

/-- `equalitytable[j][v] = label`. -/
def label (st : Maker) (j v label : Nat) : Maker :=
  let row := Function.update (st.equalitytable j) v label
  { st with equalitytable := Function.update st.equalitytable j row }

open Numerals in
/-- Garble the gate of wire `j`: an AND, so only `zsec[3]` is the label of the value 1. -/
def makeGate (st : Maker) (j : Nat) : Option Maker := do
  let zsec := ![st.equalitytable j 0, st.equalitytable j 0, st.equalitytable j 0,
    st.equalitytable j 1]
  let b ← st.read 0
  let R0 ← st.read 1
  let R1 ← st.read 2
  let osec := encodegate (seclens j) zsec b R0 R1
  let st := { st with offset := st.offset + 3 }
  return (((st.label (wiring j).1 0 (osec 0)).label (wiring j).1 1 (osec 1)).label
    (wiring j).2 0 (osec 2)).label (wiring j).2 1 (osec 3)

/-- `stufftosend.setValue((i * 5 + j) * 2 + v, (byte)equalitytable[j][v])` for `v = 0, 1`. -/
def send (i : Nat) (st : Maker) (j : Nat) : Maker :=
  let s := Function.update st.stufftosend ((i * 5 + j) * 2 + 0) (st.equalitytable j 0 % 256)
  { st with
    stufftosend := Function.update s ((i * 5 + j) * 2 + 1) (st.equalitytable j 1 % 256) }

/-- Draw the output flip of circuit `i` and label the output wire with it. -/
def flipOutput (i : Nat) (st : Maker) : Option Maker := do
  let r ← st.read 0
  let st := { st with
    outflip := Function.update st.outflip i (r &&& 1), offset := st.offset + 1 }
  return (st.label 8 0 (st.outflip i ^^^ 0)).label 8 1 (st.outflip i ^^^ 1)

/-- Refill the buffer when `i` starts a new one; `rand i` is what the generator delivers. -/
def refresh (rand : Nat → Nat → UInt8) (m i : Nat) (st : Maker) : Option Maker :=
  if i % (randbufLength / 13) = 0 then
    st.refill (rand i) (min (randbufLength / 13) (m - i) * 13)
  else some st

/-- `for (int j = 8; j != 4; --j)`. -/
def makeGates (st : Maker) : Option Maker := do
  let st ← st.makeGate 8
  let st ← st.makeGate 7
  let st ← st.makeGate 6
  st.makeGate 5

/-- One round of the maker's loop. -/
def makeCircuit (rand : Nat → Nat → UInt8) (m : Nat) (st : Maker) (i : Nat) :
    Option Maker := do
  let st ← st.refresh rand m i
  let st ← st.flipOutput i
  let st ← st.makeGates
  return forRange (send i) 5 st

end Maker

/-- The maker's loop over the first `n` of `m` circuits. -/
def makeCircuits (rand : Nat → Nat → UInt8) (m n : Nat) (st : Maker) : Option Maker :=
  forRangeM (Maker.makeCircuit rand m) n st

/-- `makeFullEqualityCircuits`, from the buffer content and arrays it starts with. -/
def makeFullEqualityCircuits (rand : Nat → Nat → UInt8) (m : Nat) (st : Maker) : Option Maker :=
  makeCircuits rand m m { st with offset := 0 }

/-- The locals and output of `evaluateFullEqualityCircuits`. -/
structure Evaluator where
  equalitytable : Nat → Nat
  output : Nat → Nat

namespace Evaluator

/-- Decode the gate of wire `j`. -/
def evaluateGate (st : Evaluator) (j : Nat) : Evaluator :=
  let wsec := ![st.equalitytable (wiring j).1, st.equalitytable (wiring j).2]
  { st with equalitytable := Function.update st.equalitytable j (decodegate (seclens j) wsec) }

/-- Load one input label. -/
def load (insec : Nat → Nat) (i : Nat) (st : Evaluator) (j : Nat) : Evaluator :=
  { st with equalitytable := Function.update st.equalitytable j (insec (i * 5 + j)) }

/-- One round of the evaluator's loop. -/
def evaluateCircuit (insec : Nat → Nat) (st : Evaluator) (i : Nat) : Evaluator :=
  let st := forRange (load insec i) 5 st
  let st := (((st.evaluateGate 5).evaluateGate 6).evaluateGate 7).evaluateGate 8
  { st with output := Function.update st.output i (st.equalitytable 8 &&& 1) }

end Evaluator

/-- `evaluateFullEqualityCircuits` of the first `m` circuits. -/
def evaluateFullEqualityCircuits (insec : Nat → Nat) (m : Nat) (st : Evaluator) : Evaluator :=
  forRange (Evaluator.evaluateCircuit insec) m st

/-- The labels `T` of all wires garble the AND of the five inputs, with `flip` on the output. -/
structure Garbles (T : Nat → Nat → Nat) (flip : Nat) : Prop where
  gate : ∀ j, 5 ≤ j → j < 9 → ∀ v w : Bool,
    decodegate (seclens j) ![T (wiring j).1 v.toNat, T (wiring j).2 w.toNat] =
      T j (v && w).toNat
  width : ∀ j < 9, ∀ v < 2, T j v < 2 ^ seclens j
  output : ∀ v < 2, T 8 v = flip ^^^ v
  flip_lt : flip < 2

end Safrn.Garbled
