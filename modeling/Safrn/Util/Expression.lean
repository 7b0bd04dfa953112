import Safrn.Util.Scientific
import Safrn.Util.Stoi
import Safrn.Util.Terms

/-!
# Formulas

Models `Expression`, `GetExpressionString` and `ParseExpression`
(`Util/data_structures.h:1552-1607`, `Util/data_structures.cpp:5089-5215` and `:5508-6066`). An
expression is a constant, a variable, or an operation with as many terms as it has; the others that
the struct admits are not built. How `double`s are printed and read is a parameter.
-/

namespace Safrn.Util

/-- The operations of `MathOperation` with one term. -/
inductive UnaryOperation
  | abs
  | exp
  | factorial
  | log
  | sqrt
  | sin
  | cos
  | tan
  | indicator
  | gammaFn
  | phiFn
deriving DecidableEq

/-- The operations of `MathOperation` with two terms. -/
inductive BinaryOperation
  | add
  | sub
  | mult
  | div
  | pow
  | modulus
  | eq
  | neq
  | floatEq
  | gt
  | gte
  | lt
  | lte
  | incGammaFn
  | regIncGammaFn
deriving DecidableEq

inductive Expression (Double : Type)
  | constant (value : Double)
  | variable (varName : List Char)
  | unary (op : UnaryOperation) (subtermOne : Expression Double)
  | binary (op : BinaryOperation) (subtermOne subtermTwo : Expression Double)
deriving DecidableEq

/-- How numbers are printed (`Itoa`) and read (`Stod`), and the constant of a leading minus sign. -/
structure Doubles (Double : Type) where
  itoa : Double → List Char
  stod : List Char → Option Double
  minusOne : Double

/-! ### Printed formulas -/

/-- What is printed in front of the term, and behind it. `SQRT` is not reached in the source. -/
def UnaryOperation.text : UnaryOperation → List Char × List Char
  | .abs => (['|'], ['|'])
  | .gammaFn => (['G', 'a', 'm', 'm', 'a', '('], [')'])
  | .phiFn => (['P', 'h', 'i', '('], [')'])
  | .exp => (['e', 'x', 'p', '('], [')'])
  | .factorial => (['('], [')', '!'])
  | .log => (['l', 'o', 'g', '('], [')'])
  | .sqrt => (['s', 'q', 'r', 't', '('], [')'])
  | .sin => (['s', 'i', 'n', '('], [')'])
  | .cos => (['c', 'o', 's', '('], [')'])
  | .tan => (['t', 'a', 'n', '('], [')'])
  | .indicator => (['I', '('], [')'])

/-- What is printed in front of the terms, between them and behind them. -/
def BinaryOperation.text : BinaryOperation → List Char × List Char × List Char
  | .add => (['('], [' ', '+', ' '], [')'])
  | .incGammaFn => (['I', 'n', 'c', 'G', 'a', 'm', 'm', 'a', '('], [',', ' '], [')'])
  | .regIncGammaFn =>
    (['R', 'e', 'g', 'I', 'n', 'c', 'G', 'a', 'm', 'm', 'a', '('], [',', ' '], [')'])
  | .sub => (['('], [' ', '-', ' '], [')'])
  | .mult => (['('], [' ', '*', ' '], [')'])
  | .div => (['('], [' ', '/', ' '], [')'])
  | .pow => (['('], [')', '^', '('], [')'])
  | .modulus => (['('], [')', '%', '('], [')'])
  | .eq => (['('], [')', '=', '=', '('], [')'])
  | .neq => ([], [], [])
  | .floatEq => (['('], [')', '~', '=', '('], [')'])
  | .gt => (['('], [')', '>', '('], [')'])
  | .gte => (['('], [')', '>', '=', '('], [')'])
  | .lt => (['('], [')', '<', '('], [')'])
  | .lte => (['('], [')', '<', '=', '('], [')'])

/-- "ERROR: Unsupported operation: ", with the number of the operation. -/
def unsupported (op : List Char) : List Char :=
  ['E', 'R', 'R', 'O', 'R', ':', ' ', 'U', 'n', 's', 'u', 'p', 'p', 'o', 'r', 't', 'e', 'd', ' ',
    'o', 'p', 'e', 'r', 'a', 't', 'i', 'o', 'n', ':', ' '] ++ op

def getExpressionString {Double : Type} (D : Doubles Double) : Expression Double → List Char
  | .constant value => D.itoa value
  | .variable varName => varName
  -- neither list of operations has `SQRT` and `NEQ`
  | .unary .sqrt _ => unsupported ['5']
  | .binary .neq _ _ => unsupported ['1', '9']
  | .unary op e => op.text.1 ++ getExpressionString D e ++ op.text.2
  | .binary op e e' =>
    op.text.1 ++ getExpressionString D e ++ op.text.2.1 ++ getExpressionString D e' ++ op.text.2.2

def removeAllWhitespace (input : List Char) : List Char := input.filter fun c ↦ !isSpace c

/-! ### Formulas that are read -/

/-- `StripExtraneousParentheses`. -/
def stripLoop : ℕ → List Char → List Char
  | 0, input => input
  | fuel + 1, input =>
    if ['('].isPrefixOf input ∧ [')'].isSuffixOf input then
      stripLoop fuel ((input.drop 1).take (input.length - 2))
    else input

def stripExtraneousParentheses (input : List Char) : List Char := stripLoop input.length input

/-- The functions that a formula may call, in the order in which they are looked for. The names are
spelt in all the ways given. -/
inductive NamedFunction
  | unary (names : List (List Char)) (op : UnaryOperation)
  | binary (names : List (List Char)) (op : BinaryOperation)

def NamedFunction.names : NamedFunction → List (List Char)
  | .unary names _ => names
  | .binary names _ => names

def functions : List NamedFunction :=
  [.unary [['L', 'O', 'G', '('], ['L', 'o', 'g', '('], ['l', 'o', 'g', '(']] .log,
    .unary [['L', 'N', '('], ['L', 'n', '('], ['l', 'n', '(']] .log,
    .unary [['E', 'X', 'P', '('], ['E', 'x', 'p', '('], ['e', 'x', 'p', '(']] .exp,
    .unary [['A', 'B', 'S', '('], ['A', 'b', 's', '('], ['a', 'b', 's', '(']] .abs,
    .unary [['S', 'Q', 'R', 'T', '('], ['S', 'q', 'r', 't', '('], ['s', 'q', 'r', 't', '(']] .sqrt,
    .unary [['S', 'I', 'N', '('], ['S', 'i', 'n', '('], ['s', 'i', 'n', '(']] .sin,
    .unary [['C', 'O', 'S', '('], ['C', 'o', 's', '('], ['c', 'o', 's', '(']] .cos,
    .unary [['T', 'A', 'N', '('], ['T', 'a', 'n', '('], ['t', 'a', 'n', '(']] .tan,
    .unary [['I', '(']] .indicator,
    .unary [['P', 'h', 'i', '(']] .phiFn,
    .unary [['G', 'a', 'm', 'm', 'a', '(']] .gammaFn,
    .binary [['I', 'n', 'c', 'G', 'a', 'm', 'm', 'a', '(']] .incGammaFn,
    .binary [['R', 'e', 'g', 'I', 'n', 'c', 'G', 'a', 'm', 'm', 'a', '(']] .regIncGammaFn,
    .binary [['P', 'O', 'W', '('], ['P', 'o', 'w', '('], ['p', 'o', 'w', '(']] .pow]

/-- The first function that the formula starts with, with the length of the name. -/
def findFunction (termStr : List Char) : List NamedFunction → Option (NamedFunction × ℕ)
  | [] => none
  | f :: fs =>
    match f.names.find? (·.isPrefixOf termStr) with
    | some name => some (f, name.length)
    | none => findFunction termStr fs

/-- How the operator of `MathOperation` is chosen: the first of two inverts those behind it. -/
structure Chain where
  operation : BinaryOperation
  inverse : BinaryOperation

def additive : Chain := ⟨.add, .sub⟩

def multiplicative : Chain := ⟨.mult, .div⟩

section Parse

variable {Double : Type} (D : Doubles Double)

/-- The loop over terms; `inverted` is `prev_term_was_subtraction` or `last_term_was_division`. -/
def parseChain (C : Chain) (parse : List Char → Option (Expression Double)) :
    List Term → Bool → Option (Expression Double)
  | [], _ => none
  | [term], _ => parse term.1
  | term :: terms, inverted => do
    let isInverse : Bool := term.2 ≠ some 0
    let op := if isInverse = inverted then C.operation else C.inverse
    let subtermOne ← parse term.1
    let subtermTwo ← parseChain C parse terms (isInverse ^^ inverted)
    return .binary op subtermOne subtermTwo

def ComparisonOperation.operation : ComparisonOperation → BinaryOperation
  | .eq => .eq
  | .neq => .neq
  | .gte => .gte
  | .lte => .lte
  | .gt => .gt
  | .lt => .lt

/-- Both terms, if neither is empty. -/
def parseBoth (parse : List Char → Option (Expression Double)) (op : BinaryOperation)
    (firstTerm secondTerm : List Char) : Option (Expression Double) := do
  let subtermOne ← parse firstTerm
  let subtermTwo ← parse secondTerm
  return .binary op subtermOne subtermTwo

/-- A call of a function. -/
def parseFunction (parse : List Char → Option (Expression Double)) (termStr : List Char) :
    NamedFunction × ℕ → Option (Expression Double)
  | (f, length) =>
    if [')'].isSuffixOf termStr = false then none
    else
      let argument := (termStr.drop length).take (termStr.length - (length + 1))
      match f with
      | .unary _ op => (parse argument).map (.unary op)
      | .binary _ op => do
        let (firstTerm, secondTerm) ← getCommaTerms (stripExtraneousParentheses argument)
        parseBoth parse op firstTerm secondTerm

/-- A coefficient in front of a variable. The names are in the order of the set. -/
def parseCoefficient (parse : List Char → Option (Expression Double)) (termStr : List Char) :
    List (List Char) → Option (Option (Expression Double))
  | [] => none
  | varName :: varNames =>
    match find varName termStr with
    | none => parseCoefficient parse termStr varNames
    | some varPos => some do
      let value ← D.stod (termStr.take varPos)
      let subtermTwo ← parse (termStr.drop varPos)
      return .binary .mult (.constant value) subtermTwo

/-- What is left when there is no more reduction. -/
def parseAtom (enforceVarNames : Bool) (varNames : List (List Char))
    (parse : List Char → Option (Expression Double)) (termStr : List Char) :
    Option (Expression Double) :=
  if varNames.contains termStr then some (.variable termStr)
  else
    match parseCoefficient D parse termStr varNames with
    | some result => result
    | none =>
      match D.stod termStr with
      | some value => some (.constant value)
      | none => if enforceVarNames then none else some (.variable termStr)

/-- A single term: a function, a factorial, parentheses, a minus sign, or an atom. -/
def parseTerm (enforceVarNames : Bool) (varNames : List (List Char))
    (parse : List Char → Option (Expression Double)) (termStr : List Char) :
    Option (Expression Double) :=
  match findFunction termStr functions with
  | some f => parseFunction parse termStr f
  | none =>
    if ['!'].isSuffixOf termStr then
      if termStr.length < 2 then none
      else if termStr.getD (termStr.length - 2) ' ' = ')' then
        if ['('].isPrefixOf termStr = false then none
        else (parse ((termStr.drop 1).take (termStr.length - 3))).map (.unary .factorial)
      else (parse (termStr.take (termStr.length - 1))).map (.unary .factorial)
    else if ['('].isPrefixOf termStr then
      if [')'].isSuffixOf termStr = false then none
      else parse ((termStr.drop 1).take (termStr.length - 2))
    else if ['-'].isPrefixOf termStr then
      (parse (termStr.drop 1)).map (.binary .mult (.constant D.minusOne))
    else parseAtom D enforceVarNames varNames parse termStr

/-- The test for `~=`, which is no `ComparisonOperation`. -/
def parseFloatEq (enforceVarNames : Bool) (varNames : List (List Char))
    (parse : List Char → Option (Expression Double)) (termStr : List Char) :
    Option (Expression Double) := do
  match ← splitOnce termStr ['~', '='] with
  | some (firstTerm, secondTerm) =>
    if firstTerm = [] ∨ secondTerm = [] then none
    else parseBoth parse .floatEq firstTerm secondTerm
  | none => parseTerm D enforceVarNames varNames parse termStr

/-- The test for a comparison. -/
def parseComparison (enforceVarNames : Bool) (varNames : List (List Char))
    (parse : List Char → Option (Expression Double)) (termStr : List Char) :
    Option (Expression Double) := do
  match ← getComparisonTerms termStr with
  | some (op, firstTerm, secondTerm) =>
    if firstTerm = [] ∨ secondTerm = [] then none
    else parseBoth parse op.operation firstTerm secondTerm
  | none => parseFloatEq D enforceVarNames varNames parse termStr

/-- The test for a power. -/
def parsePower (enforceVarNames : Bool) (varNames : List (List Char))
    (parse : List Char → Option (Expression Double)) (termStr : List Char) :
    Option (Expression Double) := do
  match ← getExponentTerms termStr with
  | [base, exponent] => parseBoth parse .pow base.1 exponent.1
  | _ :: _ :: _ => none
  | _ => parseComparison D enforceVarNames varNames parse termStr

/-- The test for products. -/
def parseProduct (enforceVarNames : Bool) (varNames : List (List Char))
    (parse : List Char → Option (Expression Double)) (termStr : List Char) :
    Option (Expression Double) := do
  let terms ← getMultiplicativeTerms termStr
  if 1 < terms.length then parseChain multiplicative parse terms false
  else parsePower D enforceVarNames varNames parse termStr

/-- The body of `ParseExpression`, with the recursive calls as a parameter. -/
def parseBody (enforceVarNames : Bool) (varNames : List (List Char))
    (parse : List Char → Option (Expression Double)) (termStr : List Char) :
    Option (Expression Double) := do
  let terms ← getAdditiveTerms termStr
  if 1 < terms.length then parseChain additive parse terms false
  else parseProduct D enforceVarNames varNames parse termStr

/-- `ParseExpression` without cleaning; the recursive calls have shorter formulas. -/
def parseLoop (enforceVarNames : Bool) (varNames : List (List Char)) :
    ℕ → List Char → Option (Expression Double)
  | 0, _ => none
  | fuel + 1, termStr =>
    parseBody D enforceVarNames varNames (parseLoop enforceVarNames varNames fuel) termStr

/-- `ParseExpression`. -/
def parseExpression (cleanInput : Bool) (termStr : List Char) (enforceVarNames : Bool)
    (varNames : List (List Char)) : Option (Expression Double) :=
  if cleanInput then
    let cleaned := removeScientificNotation (fun s ↦ (D.stod s).isSome)
      (removeAllWhitespace termStr)
    parseLoop D enforceVarNames varNames (cleaned.length + 1) cleaned
  else parseLoop D enforceVarNames varNames (termStr.length + 1) termStr

end Parse

end Safrn.Util
