import DiiaApp.ExecuteAction
import DiiaApp.JsonSchemaGenerator

/-!
# Bodies of dynamic requests

`convertEnumValues` walks a body along the fields of its message type, before it is verified. It
puts the numbers of enum values in the place of their names, and what a scalar type makes of a
string in the place of the string (`coerceScalar`). It is the same for a map field and for a field
of the type of its values.

The walk goes down the body by one object at a time, counted here by `fuel`. Bodies come out of
JSON, so that nothing in them refers back to what it is in.
-/

namespace DiiaApp

open Js
open ActionExecutor (spread)

variable {N τ : Type}

/-- An enum with its `values`. What these give under a name that is not among them is left to
`inherited`. -/
structure EnumType (N : Type) where
  values : Js.Map JsString N
  inherited : JsString → Option (Value N)

/-- `enumType.values[name]` -/
def EnumType.value (e : EnumType N) (name : JsString) : Option (Value N) :=
  ((e.values.get name).map .num).or (e.inherited name)

/-- A builtin type by its name, or what the type of a field is resolved to. -/
inductive ResolvedType (N τ : Type)
  | scalar (name : JsString)
  | enum (e : EnumType N)
  | message (type : τ)

inductive Label
  | singular
  | repeated
  | map (keyType : JsString)
  deriving DecidableEq

/-- A field, the type of a map field being that of its values. -/
structure TypedField (N τ : Type) where
  label : Label
  type : ResolvedType N τ

/-- The message types `τ` with their fields by name. The fields are kept in an object, so that none
has the name `__proto__`. -/
structure TypeGraph (N τ : Type) where
  fields : τ → Js.Map JsString (TypedField N τ)
  named : ∀ type, js "__proto__" ∉ (fields type).keys

def numericTypes : List JsString :=
  ["double", "float", "int32", "int64", "uint32", "uint64", "sint32", "sint64", "fixed32",
    "fixed64", "sfixed32", "sfixed64"].map js

/-- `number` is `Number`, with nothing where that is not a number. -/
def coerceScalar (number : JsString → Option N) (fieldType value : JsString) : Value N :=
  if fieldType = js "bool" then .bool (value = js "true" ∨ value = js "1")
  else if fieldType ∈ numericTypes then
    match number value with
    | some num => .num num
    | none => .str value
  else .str value

def convertSingleEnumValue (e : EnumType N) : Value N → Value N
  | .str s => (e.value s).getD (.str s)
  | v => v

/-- `field.repeated && Array.isArray(value) ? value.map(convert) : convert(value)` -/
def convertEach (label : Label) (convert : Value N → Value N) : Value N → Value N
  | .arr xs => if label = .repeated then .arr (xs.map convert) else convert (.arr xs)
  | v => convert v

section Walk

variable (G : TypeGraph N τ) (number : JsString → Option N)

/-- What becomes of the value of a field. -/
def convertFieldValue (convert : τ → Value N → Value N) (field : TypedField N τ) (v : Value N) :
    Value N :=
  match field.type with
  | .scalar type =>
    match v with
    | .str s => coerceScalar number type s
    | v => v
  | .enum e => convertEach field.label (convertSingleEnumValue e) v
  | .message type => convertEach field.label (convert type) v

def ResolvedType.isScalar : ResolvedType N τ → Bool
  | scalar _ => true
  | _ => false

/-- A turn of the loop on the fields. Where a property is missing that every object inherits, its
value is a function, which becomes a property of its own unless the field is scalar. -/
def convertField (convert : τ → Value N → Value N) (result : List (JsString × Value N))
    (field : JsString × TypedField N τ) : List (JsString × Value N) :=
  match Js.Map.find field.1 result with
  | some v =>
    if v.isNullish then result
    else Js.Map.put field.1 (convertFieldValue number convert field.2 v) result
  | none =>
    if field.1 ∈ inheritedNames ∧ field.2.type.isScalar = false then
      Js.Map.put field.1 .undefined result
    else result

def isObject : Value N → Bool
  | .obj _ | .arr _ => true
  | _ => false

def convertLevels : ℕ → τ → Value N → Value N
  | 0, _, body => body
  | fuel + 1, type, body =>
    if isObject body then
      .obj ((G.fields type).entries.foldl (convertField number (convertLevels fuel)) (spread body))
    else body

mutual

/-- How many objects and arrays stand in one another in a value. -/
def bodyDepth : Value N → ℕ
  | .arr xs => itemsDepth xs + 1
  | .obj es => entriesDepth es + 1
  | _ => 0

def itemsDepth : List (Value N) → ℕ
  | [] => 0
  | x :: xs => max (bodyDepth x) (itemsDepth xs)

def entriesDepth : List (JsString × Value N) → ℕ
  | [] => 0
  | (_, x) :: es => max (bodyDepth x) (entriesDepth es)

end

def convertEnumValues (type : τ) (body : Value N) : Value N :=
  convertLevels G number (bodyDepth body) type body

end Walk

end DiiaApp
