import DiiaApp.Js.Double
import DiiaApp.Js.Integer
import DiiaApp.ProtoSource

/-!
# Numbers out of strings

`Number(value)` takes white space off both ends of a string and reads what is left as a numeral.
Decimal numerals may have a sign, a fraction and an exponent; those with the prefix of another base
have none. A blank string gives zero. The number is the one nearest to what the numeral stands for.
-/

namespace DiiaApp

open Js

/-- What a string is to `Number`. -/
inductive NumberText
  | blank
  | decimal (q : ℚ)
  | based (n : ℕ)
  | infinity (negative : Bool)
  | other

/-- The digits after a dot, and what comes after them. -/
def splitFraction : JsString → JsString × JsString
  | [] => ([], [])
  | u :: s => if u = dot then (s.takeWhile isDigit, s.dropWhile isDigit) else ([], u :: s)

/-- The exponent of a numeral, its sign and digits after the letter. -/
def exponentOf (s : JsString) : ℤ :=
  if s.tail.head? = some 45 then -natOf s.tail.tail else natOf (dropSign s.tail)

/-- A decimal numeral without a sign, the digits before and after the dot together. -/
def unsignedDecimal (s : JsString) : Option ℚ :=
  let whole := s.takeWhile isDigit
  let (fraction, exponent) := splitFraction (s.dropWhile isDigit)
  if whole ++ fraction ≠ [] ∧ isExponent exponent then
    some (natOf (whole ++ fraction) * 10 ^ (exponentOf exponent - fraction.length))
  else none

def readDecimal (s : JsString) : NumberText :=
  let negative : Bool := s.head? = some 45
  if dropSign s = js "Infinity" then .infinity negative
  else
    match unsignedDecimal (dropSign s) with
    | some q => .decimal (if negative then -q else q)
    | none => .other

/-- The base of a letter after a zero. -/
def baseOf (u : CodeUnit) : Option ℕ :=
  if u = 120 ∨ u = 88 then some 16
  else if u = 111 ∨ u = 79 then some 8
  else if u = 98 ∨ u = 66 then some 2
  else none

/-- The value of a digit or a letter. -/
def digitValue (u : CodeUnit) : ℕ :=
  let n := u.toNat
  if isDigit u then n - 48
  else if 97 ≤ n ∧ n ≤ 102 then n - 87
  else if 65 ≤ n ∧ n ≤ 70 then n - 55
  else 16

def readBased (base : ℕ) (digits : JsString) : NumberText :=
  if digits ≠ [] ∧ digits.all fun u => digitValue u < base then
    .based (digits.foldl (fun n u => base * n + digitValue u) 0)
  else .other

def readNumber (value : JsString) : NumberText :=
  match trim value with
  | [] => .blank
  | [u] => readDecimal [u]
  | u :: v :: s =>
    match baseOf v with
    | some base => if u = 48 then readBased base s else readDecimal (u :: v :: s)
    | none => readDecimal (u :: v :: s)

/-- `Number(value)`, with nothing where that is not a number. -/
def toNumber (value : JsString) : Option Number :=
  match readNumber value with
  | .blank => some (.round 0)
  | .decimal q => some (.round q)
  | .based n => some (.round n)
  | .infinity negative => some (.infinity negative)
  | .other => none

end DiiaApp
