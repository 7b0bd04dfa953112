import Safrn.Base.Grid
import Safrn.Cuckoo.ResultSet

/-!
# The loops of the private set intersection

Models the loops over the cells of one row in `I_G_M_YI_1` to `I_G_M_YI_3` and `G_I_M_YI_1` to
`G_I_M_YI_4` of `BackServerRawHandler.java:2719-3124,3552-3960`. An array is a function of its
index; a byte is kept as its unsigned pattern, since the loops mask or xor it.
-/

namespace Safrn.Psi

open Safrn.Base Safrn.Cuckoo

/-- `(x >> k) & 1`. -/
def bit (x k : Nat) : Nat := (x >>> k) &&& 1

/-- What both servers are configured with: `subtableBits`, `xBits`, `modulus`, and the counts of
rows and columns of the query. -/
structure Globals where
  hashParams : HashParams
  modulus : Nat
  rowCount : Nat
  wColumnCount : Nat
  modulus_pos : 0 < modulus

namespace Globals

variable (g : Globals)

/-- `this.globals.rightBits`. -/
def rightBits : Nat := g.hashParams.rightBits

/-- `this.globals.subtableSize`. -/
def subtableSize : Nat := g.hashParams.subtableSize

/-- The number of cells of a cuckoo table. -/
def cellCount : Nat := 4 * g.subtableSize

/-- `new CuckooTable(...)`. -/
def newCuckooTable : CuckooTable :=
  { toHashParams := g.hashParams, isClosed := false, subtables := fun _ _ ↦ 0 }

/-- A loop over the cells, where the bit `k` of a cell's value is hidden under the bit of a
transfer. -/
def selectionBits (width : Nat) (value : Nat → Nat → Nat) (b : Nat → Nat) : Nat → Nat :=
  forGrid (fun array i j ↦
    let c := value i j
    forRange (fun array k ↦
      let n := (i * g.subtableSize + j) * width + k
      Function.update array n (b n ^^^ bit c k)) width array) 4 g.subtableSize fun _ ↦ 0

/-- `selbits[row]`; `BackServerRawHandler.java:3585-3606`. -/
def selbits (table : CuckooTable) (b : Nat → Nat) : Nat → Nat :=
  g.selectionBits g.rightBits (fun i j ↦ table.subtables i j) b

/-- `cselbits[row]`; `BackServerRawHandler.java:3710-3731`. -/
def cselbits (C_U b : Nat → Nat) : Nat → Nat :=
  g.selectionBits 5 (fun i j ↦ C_U (i * g.subtableSize + j)) b

/-- `sendsec[row]` and `C_S[row]`. -/
structure Blinded where
  sendsec : Nat → Nat
  C_S : Nat → Nat

/-- The body of the loop over `k`; `BackServerRawHandler.java:2775-2797`. The state is
`sendsec[row]` and `sum`. -/
def blindBit (xR : Nat) (aBytes : Nat → UInt8) (s : Nat → Nat → Nat) (selbits : Nat → Nat)
    (cell : Nat) (st : (Nat → Nat) × Nat) (k : Nat) : (Nat → Nat) × Nat :=
  let x := bit xR k
  let a := (aBytes k).toNat &&& 0x1F
  let sum := (st.2 + a) % 32
  let n := cell * g.rightBits + k
  let z := selbits n
  (forRange (fun sendsec p ↦
    Function.update sendsec (n * 2 + p) ((a + (p ^^^ x) + s n (p ^^^ z)) % 32)) 2 st.1, sum)

/-- `sendsec[row]` and `C_S[row]`; `BackServerRawHandler.java:2767-2803`. -/
def blind (table : CuckooTable) (aBytes : Nat → Nat → UInt8) (s : Nat → Nat → Nat)
    (selbits : Nat → Nat) : Blinded :=
  forGrid (fun st i j ↦
    let cell := i * g.subtableSize + j
    let st' := forRange (g.blindBit (table.subtables i j) (aBytes cell) s selbits cell)
      g.rightBits (st.sendsec, 0)
    { sendsec := st'.1, C_S := Function.update st.C_S cell st'.2 }) 4 g.subtableSize
    { sendsec := fun _ ↦ 0, C_S := fun _ ↦ 0 }

/-- `C_U[row]`; `BackServerRawHandler.java:3669-3697`. -/
def unblind (table : CuckooTable) (sendsec u : Nat → Nat) : Nat → Nat :=
  forGrid (fun C_U i j ↦
    let xR := table.subtables i j
    let sum := forRange (fun (sum : Int) k ↦
      let n := (i * g.subtableSize + j) * g.rightBits + k
      let y := bit xR k
      let val := sendsec (n * 2 + y)
      let s := u n
      (sum + val - s + 32).tmod 32) g.rightBits 0
    Function.update C_U (i * g.subtableSize + j) sum.toNat) 4 g.subtableSize fun _ ↦ 0

/-- The second content of `csendsec[row]`; `BackServerRawHandler.java:2884-2921`. -/
def maskLabels (C_S cselbits : Nat → Nat) (s : Nat → Nat → Nat) (csendsec : Nat → Nat) :
    Nat → Nat :=
  forGrid (fun csendsec i j ↦
    let c := C_S (i * g.subtableSize + j)
    forRange (fun csendsec k ↦
      let n := (i * g.subtableSize + j) * 5 + k
      let x := bit c k
      let stuff := fun p ↦ csendsec (n * 2 + p)
      let cs := cselbits n
      forRange (fun csendsec p ↦
        Function.update csendsec (n * 2 + p)
          ((stuff ((1 - p) ^^^ x) ^^^ s n (p ^^^ cs)) % 256)) 2 csendsec) 5 csendsec)
    4 g.subtableSize csendsec

/-- `insec`; `BackServerRawHandler.java:3799-3826`. -/
def insec (C_U csendsec u insec : Nat → Nat) : Nat → Nat :=
  forGrid (fun insec i j ↦
    let c := C_U (i * g.subtableSize + j)
    forRange (fun insec k ↦
      let n := (i * g.subtableSize + j) * 5 + k
      let y := bit c k
      let val := csendsec (n * 2 + y)
      Function.update insec n ((val ^^^ u n) % 256)) 5 insec) 4 g.subtableSize insec

/-- `yselbits[row][col]`; `BackServerRawHandler.java:3852-3869`. -/
def yselbits (PSIShare_U b : Nat → Nat) : Nat → Nat :=
  forGrid (fun yselbits i j ↦
    let n := i * g.subtableSize + j
    Function.update yselbits n (b n ^^^ PSIShare_U n)) 4 g.subtableSize fun _ ↦ 0

/-- `maskedv[row][col]` and `out_S`. -/
structure Masked where
  maskedv : Nat → Int
  out_S : Int

/-- `temp[0]` and `temp[1]` before the exchange; `none` where the map has no value. -/
def contents (table : CuckooTable) (dvMap : Nat → Option Int) (i j : Nat) (r : Int) :
    Option (Int × Int) :=
  let xR := table.subtables i j
  if xR = NULL_XR then some (g.modulus - r, g.modulus - r)
  else (dvMap (table.unhash i j xR)).map fun dv ↦ (g.modulus - r, 1 + dv * 2 ^ 32 - r)

/-- `maskedv[row][col]` and `out_S`; `BackServerRawHandler.java:2999-3070`. -/
def mask (table : CuckooTable) (dvMap : Nat → Option Int) (PSIShare_S yselbits : Nat → Nat)
    (s : Nat → Nat → Int) (r : Nat → Int) : Option Masked :=
  forGridM (fun st i j ↦ do
    let n := i * g.subtableSize + j
    let r := r n
    let temp ← g.contents table dvMap i j r
    let temp := if PSIShare_S n = 1 then temp.swap else temp
    let y := yselbits n
    some {
      maskedv := forRange (fun maskedv k ↦
        Function.update maskedv (n * 2 + k)
          (((if k = 0 then temp.1 else temp.2) + s n (k ^^^ y)) % g.modulus)) 2 st.maskedv
      out_S := st.out_S + r }) 4 g.subtableSize { maskedv := fun _ ↦ 0, out_S := 0 }

/-- `out_U`; `BackServerRawHandler.java:3923-3944`. -/
def unmask (PSIShare_U : Nat → Nat) (maskedv u : Nat → Int) : Int :=
  forGrid (fun out_U i j ↦
    let n := i * g.subtableSize + j
    let p := PSIShare_U n
    let v := maskedv (n * 2 + p)
    let w := u n
    out_U + (v - w)) 4 g.subtableSize 0

end Globals
end Safrn.Psi
