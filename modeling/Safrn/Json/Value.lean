import Mathlib.Algebra.Group.Nat.Defs
import Mathlib.Data.Rat.Init

/-!
# JSON values as the parsers read them

Models the values of `nlohmann::json` and the operations that the classes of `JSON` use on constant
ones. A member that is not there is undefined to access; everything else that a value is not made
for throws. A `double` is an exact rational.
-/

namespace Safrn.Json

/-- Why a run ends without a result: what C++ leaves undefined, or an exception. -/
inductive Fault
  | undefinedBehaviour
  | typeError
  | invalidArgument
  | outOfRange
  | runtimeError (what : String)
  | notEnoughCoefficients
  | lastElementZero
  | notEnoughJoinOns
  | notEnoughIndepVars
  | notEnoughExpressions
  | tooManyPrefilters
  deriving DecidableEq

/-- A run that ends with an exception. -/
def Throws {α : Type} (run : Except Fault α) : Prop :=
  ∃ fault, run = .error fault ∧ fault ≠ .undefinedBehaviour

/-- `nlohmann::json`, an object by its members in the order of their keys. -/
inductive Value
  | null
  | boolean (b : Bool)
  | numberInteger (i : BitVec 64)
  | numberUnsigned (n : BitVec 64)
  | numberFloat (x : ℚ)
  | string (s : String)
  | array (items : List Value)
  | object (members : List (String × Value))

/-- `SIZE_MAX`, which is also `std::numeric_limits<size_t>::max()`. -/
def sizeMax : Nat := 2 ^ 64 - 1

namespace Value

/-- `find` of a key. -/
def member? (j : Value) (key : String) : Option Value :=
  match j with
  | object members => (members.find? fun m ↦ m.1 = key).map Prod.snd
  | _ => none

/-- `json_contains`, `Util/Utils.cpp:21-23`. -/
def contains (j : Value) (key : String) : Bool := (j.member? key).isSome

/-- `j[key]` of a constant value. -/
def member (j : Value) (key : String) : Except Fault Value :=
  match j with
  | object _ =>
    match j.member? key with
    | some value => .ok value
    | none => .error .undefinedBehaviour
  | _ => .error .typeError

/-- The conversion to `size_t`: a negative integer wraps around, a `double` is truncated. -/
def toSize (j : Value) : Except Fault Nat :=
  match j with
  | numberInteger i => .ok i.toNat
  | numberUnsigned n => .ok n.toNat
  | numberFloat x =>
    let truncated := x.num.tdiv x.den
    if 0 ≤ truncated ∧ truncated ≤ sizeMax then .ok truncated.toNat
    else .error .undefinedBehaviour
  | _ => .error .typeError

/-- The conversion to another integer type, which keeps the low bits and also takes a boolean. -/
def toArithmetic (j : Value) (w : Nat) (least greatest : Int) : Except Fault (BitVec w) :=
  match j with
  | boolean b => .ok (BitVec.ofNat w b.toNat)
  | numberInteger i => .ok (i.setWidth w)
  | numberUnsigned n => .ok (n.setWidth w)
  | numberFloat x =>
    let truncated := x.num.tdiv x.den
    if least ≤ truncated ∧ truncated ≤ greatest then .ok (BitVec.ofInt w truncated)
    else .error .undefinedBehaviour
  | _ => .error .typeError

/-- The conversion to `std::string`. -/
def toText (j : Value) : Except Fault String :=
  match j with
  | string s => .ok s
  | _ => .error .typeError

/-- The conversion to `bool`. -/
def toBool (j : Value) : Except Fault Bool :=
  match j with
  | boolean b => .ok b
  | _ => .error .typeError

/-- What a loop over the value goes through; a value that is no container is its only item. -/
def items (j : Value) : List Value :=
  match j with
  | null => []
  | array items => items
  | object members => members.map Prod.snd
  | j => [j]

end Value

/-! ### Runs -/

section Except

variable {α β : Type}

@[simp] theorem ok_bind (x : α) (f : α → Except Fault β) : (Except.ok x >>= f) = f x := rfl

@[simp] theorem error_bind (e : Fault) (f : α → Except Fault β) :
    (Except.error e >>= f) = .error e := rfl

/-- What ended well did so in each part. -/
theorem bind_eq_ok {x : Except Fault α} {f : α → Except Fault β} {y : β} :
    (x >>= f) = .ok y ↔ ∃ a, x = .ok a ∧ f a = .ok y := by
  cases x <;> simp

end Except

end Safrn.Json
