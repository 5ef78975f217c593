/-
  Error codes (`error.h`) and the ways a function of the simulator can fail.
-/
import Mathlib.Algebra.Group.Nat.Defs
import Mathlib.Data.Nat.Notation

namespace R10000

/-- The error codes that the modelled functions return. -/
inductive ErrorCode where
  | invalidFormat
  | invalidName
  | queueInit
  | queueFull
  | queueEmpty
  | queueInvalidIndex
  | bufferOverflow
  | memAlloc
  | invalidLogReg
  | invalidPhyReg
  deriving DecidableEq, Repr

/-- How a function fails: it returns an error code, or it does not return because an
    `assert` fails or because the behaviour is undefined (an array index out of bounds, a
    call through a null pointer, a string copied past its buffer). -/
inductive Fault where
  | err (e : ErrorCode)
  | assertion
  | undefined
  deriving DecidableEq, Repr

/-- `if (err != ERR_NONE) return err;` -/
def orReturn {ε σ α : Type} : Except ε α → EStateM ε σ α
  | .ok a => pure a
  | .error e => throw e

@[simp] theorem orReturn_ok {ε σ α : Type} (a : α) :
    (orReturn (.ok a) : EStateM ε σ α) = pure a := rfl
@[simp] theorem orReturn_error {ε σ α : Type} (e : ε) :
    (orReturn (.error e) : EStateM ε σ α) = throw e := rfl

end R10000
