import DiiaApp.Js.Json

/-!
# Values of the language

A value as code hands it on: what `JSON.stringify` takes, with what it drops (`undefined`) and what
it throws on (a `bigint`, a reference back to an enclosing object). An object is its own enumerable
properties in order. Functions and symbols, which serialise as `undefined` does, are `undefined`.
-/

namespace Js

inductive Value (N : Type)
  | undefined
  | null
  | bool (b : Bool)
  | num (n : N)
  | bigint (n : ℤ)
  | str (s : JsString)
  | arr (xs : List (Value N))
  | obj (es : List (JsString × Value N))
  | cycle

/-- The decimal digits of a natural number. -/
def decimal (n : ℕ) : JsString := (Nat.toDigits 10 n).map fun c => UInt16.ofNat c.toNat

/-- The decimal text of an integer. -/
def intText (n : ℤ) : JsString := if n < 0 then 45 :: decimal n.natAbs else decimal n.natAbs

namespace Value

variable {N : Type} [JsNumber N]

def truthy : Value N → Bool
  | undefined => false
  | null => false
  | bool b => b
  | num n => !JsNumber.isZero n
  | bigint n => n ≠ 0
  | str s => s ≠ []
  | arr _ => true
  | obj _ => true
  | cycle => true

/-- `null` or `undefined`, on which reading a property throws. -/
def isNullish : Value N → Bool
  | undefined => true
  | null => true
  | _ => false

/-- An own property, `undefined` where there is none. -/
def prop (v : Value N) (k : JsString) : Value N :=
  match v with
  | obj es => (Map.find k es).getD undefined
  | _ => undefined

/-- `v` with the property `k` set. -/
def setProp (v : Value N) (k : JsString) (w : Value N) : Value N :=
  match v with
  | obj es => obj (Map.put k w es)
  | v => v

/-- `k in v` for the own properties of `v`. -/
def hasProp (v : Value N) (k : JsString) : Bool :=
  match v with
  | obj es => (Map.find k es).isSome
  | _ => false

def sepByComma : List JsString → JsString
  | [] => []
  | [s] => s
  | s :: ss => s ++ 44 :: sepByComma ss

mutual

/-- `String(v)`, `none` where an own `toString` that is no function makes it throw. -/
def toText : Value N → Option JsString
  | undefined => some (js "undefined")
  | null => some (js "null")
  | bool true => some (js "true")
  | bool false => some (js "false")
  | num n => some (JsNumber.toText n)
  | bigint n => some (intText n)
  | str s => some s
  | arr xs => (itemTexts xs).map sepByComma
  | obj es => if (Map.find (js "toString") es).isSome then none else some (js "[object Object]")
  | cycle => some []

/-- The texts of array elements, `null` and `undefined` leaving no text. -/
def itemTexts : List (Value N) → Option (List JsString)
  | [] => some []
  | x :: xs => (if isNullish x then some [] else toText x).bind fun t =>
      (itemTexts xs).map (t :: ·)

end

mutual

/-- The tree `JSON.stringify` writes: `none` where it throws, `some none` for `undefined`. -/
def toJson : Value N → Option (Option (Json N))
  | undefined => some none
  | null => some (some .null)
  | bool b => some (some (.bool b))
  | num n => some (some (.num n))
  | bigint _ => none
  | str s => some (some (.str s))
  | arr xs => (toItems xs).map fun ys => some (.arr ys)
  | obj es => (toEntries es).map fun fs => some (.obj fs)
  | cycle => none

def toItems : List (Value N) → Option (List (Json N))
  | [] => some []
  | x :: xs => (toJson x).bind fun y => (toItems xs).map ((y.getD .null) :: ·)

def toEntries : List (JsString × Value N) → Option (List (JsString × Json N))
  | [] => some []
  | (k, x) :: es => (toJson x).bind fun y => (toEntries es).map fun fs =>
      match y with
      | none => fs
      | some j => (k, j) :: fs

end

/-- `JSON.stringify`, `none` where it throws, `some none` for `undefined`. -/
def stringify (v : Value N) : Option (Option JsString) := v.toJson.map (Option.map Json.print)

mutual

/-- The value of a tree. -/
def ofJson : Json N → Value N
  | .null => null
  | .bool b => bool b
  | .num n => num n
  | .str s => str s
  | .arr xs => arr (ofItems xs)
  | .obj es => obj (ofEntries es)

def ofItems : List (Json N) → List (Value N)
  | [] => []
  | x :: xs => ofJson x :: ofItems xs

def ofEntries : List (JsString × Json N) → List (JsString × Value N)
  | [] => []
  | (k, x) :: es => (k, ofJson x) :: ofEntries es

end

variable (f : JsString → Option JsString)

mutual

/-- `f` on every string leaf, property names left alone; `none` where `f` fails on one or the
value refers back to itself. -/
def mapStrings : Value N → Option (Value N)
  | str s => (f s).map str
  | arr xs => (mapItems xs).map arr
  | obj es => (mapEntries es).map obj
  | cycle => none
  | v => some v

def mapItems : List (Value N) → Option (List (Value N))
  | [] => some []
  | x :: xs => (mapStrings x).bind fun y => (mapItems xs).map (y :: ·)

def mapEntries : List (JsString × Value N) → Option (List (JsString × Value N))
  | [] => some []
  | (k, x) :: es => (mapStrings x).bind fun y => (mapEntries es).map ((k, y) :: ·)

end

end Value

namespace Json

variable {N : Type} (f : JsString → Option JsString)

mutual

/-- `f` on every string leaf of a tree. -/
def mapStrings : Json N → Option (Json N)
  | str s => (f s).map str
  | arr xs => (mapItems xs).map arr
  | obj es => (mapEntries es).map obj
  | v => some v

def mapItems : List (Json N) → Option (List (Json N))
  | [] => some []
  | x :: xs => (mapStrings x).bind fun y => (mapItems xs).map (y :: ·)

def mapEntries : List (JsString × Json N) → Option (List (JsString × Json N))
  | [] => some []
  | (k, x) :: es => (mapStrings x).bind fun y => (mapEntries es).map ((k, y) :: ·)

end

end Json

end Js
