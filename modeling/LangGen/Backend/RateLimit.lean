/-
Request rates of chat models: how often a limiter lets a request pass, and how often it looks.
-/
import LangGen.Decimal.Number

namespace LangGen.Backend

/-- A limiter that lets one request pass at a time. -/
structure RateLimit where
  perSecond : Number
  /-- How many seconds it waits before it looks again. -/
  checkEvery : Decimal.Binary64
  deriving DecidableEq, Repr

/-- How many requests a limiter saves up. -/
def RateLimit.burst : Nat := 1

/-- Why a rate has no limiter. -/
inductive RateError
  | zeroRate
  | rateTooLarge
  deriving DecidableEq, Repr

/-- The least time between looks: a tenth of a second. -/
def leastCheck : Decimal.Binary64 := .ofDecimal false 1 (-1)

/-- The limiter of a rate. It looks once for each request, but no more than ten times a second. -/
def RateLimit.ofRate (rate : Number) : Except RateError RateLimit :=
  if rate.isZero then .error .zeroRate
  else
    match rate.toFloat? with
    | none => .error .rateTooLarge
    | some x =>
      let period := x.reciprocal
      .ok ⟨rate, if leastCheck.less period then period else leastCheck⟩

end LangGen.Backend
