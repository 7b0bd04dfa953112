/-!
# Exceptions of the Java services

The statuses the back and front servers throw, as values. Only the ones a modelled operation
throws are listed; `java.lang` and `java.nio` exceptions come after the library's own statuses.
-/

namespace Safrn.Java

/-- Why a Java operation ended with an exception. -/
inductive Status
  | invalidArgument (message : String)
  | invalidOperation (message : String)
  | failure (message : String)
  | negativeArrayIndex (message : String)
  | oversizeArrayIndex (message : String)
  | negativeArraySize (message : String)
  | zeroArraySize (message : String)
  | nullPointer (message : String)
  | limitExceeded
  | missingCase
  | parseFailure
  | allocationImpossible
  | arithmeticException
  | indexOutOfBoundsException
  | negativeArraySizeException
  | numberFormatException
  | illegalArgumentException
  | bufferOverflowException
  | bufferUnderflowException
  | nullPointerException
  | ioException
  | outOfMemoryError
  deriving DecidableEq, Repr

section Except

variable {α β : Type}

@[simp] theorem ok_bind (x : α) (f : α → Except Status β) : (Except.ok x >>= f) = f x := rfl

@[simp] theorem error_bind (e : Status) (f : α → Except Status β) :
    (Except.error e >>= f) = .error e := rfl

/-- What ended well did so in each part. -/
theorem bind_eq_ok {x : Except Status α} {f : α → Except Status β} {y : β} :
    (x >>= f) = .ok y ↔ ∃ a, x = .ok a ∧ f a = .ok y := by
  cases x <;> simp

theorem map_eq_ok {x : Except Status α} {f : α → β} {y : β} :
    x.map f = .ok y ↔ ∃ a, x = .ok a ∧ f a = y := by
  cases x <;> simp [Except.map]

end Except

end Safrn.Java
