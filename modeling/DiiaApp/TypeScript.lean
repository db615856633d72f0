import DiiaApp.Js.Value
import Mathlib.Data.Finset.Insert

/-!
# Types and syntax nodes of the TypeScript compiler

A type as the compiler tells of it, with what its checker answers about it. A type refers to others
by their place in a graph, so that it may lead back to itself. The nodes are the expressions that
the factory of the compiler makes, `undefined` standing where there is none.

The factory takes every expression and every number that is not negative. Whether it takes
`undefined` for an expression, and a negative number, is left open (`Factory`).
-/

namespace DiiaApp

open Js

inductive TypeFlag
  | any
  | unknown
  | string
  | number
  | boolean
  | enum
  | bigInt
  | stringLiteral
  | numberLiteral
  | booleanLiteral
  | enumLiteral
  | bigIntLiteral
  | esSymbol
  | uniqueESSymbol
  | void
  | undefined
  | null
  | never
  | typeParameter
  | object
  | union
  | intersection
  | index
  | indexedAccess
  | conditional
  | substitution
  | nonPrimitive
  | templateLiteral
  | stringMapping
  deriving DecidableEq

abbrev TypeFlags := Finset TypeFlag

namespace TypeFlags

def literal : TypeFlags := {.stringLiteral, .numberLiteral, .bigIntLiteral, .booleanLiteral}

def stringLike : TypeFlags := {.string, .stringLiteral, .templateLiteral, .stringMapping}

def numberLike : TypeFlags := {.number, .numberLiteral, .enum}

def booleanLike : TypeFlags := {.boolean, .booleanLiteral}

def enumLike : TypeFlags := {.enum, .enumLiteral}

/-- `flags & mask` -/
def meets (flags mask : TypeFlags) : Bool := (flags ∩ mask).Nonempty

end TypeFlags

/-- The numbers of literal types: how one is written, and what a numeral is read as. -/
class LiteralNumber (N : Type) where
  toText : N → JsString
  ofText : JsString → N

instance {N : Type} [JsNumber N] : LiteralNumber N := ⟨JsNumber.toText, JsNumber.ofText⟩

/-- The `value` of a literal type. -/
inductive LiteralValue (N : Type)
  | undefined
  | string (s : JsString)
  | number (n : N)
  | bigint (negative : Bool) (base10Value : JsString)
  deriving DecidableEq

structure Declaration where
  isMethod : Bool
  questionToken : Bool

/-- The `text` of a tag is the texts of its parts. -/
structure JsDocTag where
  name : JsString
  text : Option (List JsString)

/-- The symbol of a property. `typeAtDeclaration` is the type that the checker finds at the first
declaration. -/
structure TsProperty (τ : Type) where
  name : JsString
  declarations : Option (List Declaration)
  typeAtDeclaration : τ
  type : Option τ
  documentationComment : List JsString
  jsDocTags : List JsDocTag

/-- The symbol of a type, with the name of the file of its first declaration and whether that is
from an external library. -/
structure TsSymbol where
  name : JsString
  fileName : Option JsString
  fromExternalLibrary : Bool

/-- `typeString`, `isArrayType`, `isTupleType`, `properties` and the two index types are what the
checker answers. -/
structure TsType (τ N : Type) where
  flags : TypeFlags
  value : Option (LiteralValue N)
  intrinsicName : Option JsString
  types : List τ
  typeArguments : Option (List τ)
  symbol : Option TsSymbol
  aliasSymbol : Option JsString
  aliasTypeArguments : Option (List τ)
  typeString : JsString
  isArrayType : Bool
  isTupleType : Bool
  numberIndex : Option τ
  stringIndex : Option τ
  properties : List (TsProperty τ)

abbrev TsGraph (τ N : Type) := τ → TsType τ N

inductive Node (N : Type)
  | undefined
  | stringLiteral (text : LiteralValue N)
  | numericLiteral (value : N)
  | true
  | false
  | arrayLiteral (elements : List (Node N))
  | objectLiteral (properties : List (JsString × Node N))

/-- A string, a number or a truth value. -/
inductive Node.IsLiteral {N : Type} : Node N → Prop
  | stringLiteral (text : LiteralValue N) : IsLiteral (.stringLiteral text)
  | numericLiteral (value : N) : IsLiteral (.numericLiteral value)
  | true : IsLiteral .true
  | false : IsLiteral .false

/-- `escapedText` of an identifier: one underscore more where it begins with two. -/
def escapedText (name : JsString) : JsString :=
  if [95, 95].isPrefixOf name then 95 :: name else name

inductive ParserError
  /-- A property of `undefined` was read. -/
  | readOfUndefined
  /-- The factory was given a negative number. -/
  | negativeNumber

structure Factory where
  acceptsUndefined : Bool
  acceptsNegative : Bool

namespace Factory

variable {N : Type} (F : Factory)

/-- An expression handed to the factory, which reads its kind. -/
def expression : Node N → Except ParserError (Node N)
  | .undefined => if F.acceptsUndefined then .ok .undefined else .error .readOfUndefined
  | node => .ok node

def createPropertyAssignment (name : JsString) (initializer : Node N) :
    Except ParserError (JsString × Node N) :=
  (F.expression initializer).map fun node => (name, node)

def createArrayLiteralExpression (elements : List (Node N)) : Except ParserError (Node N) :=
  (elements.mapM F.expression).map .arrayLiteral

def createNumericLiteral [LiteralNumber N] (value : N) : Except ParserError (Node N) :=
  if (LiteralNumber.toText value).head? = some 45 ∧ ¬ F.acceptsNegative then
    .error .negativeNumber
  else .ok (.numericLiteral value)

end Factory

/-- `node.properties`, gone through. -/
def Node.propertiesOf {N : Type} : Node N → Except ParserError (List (JsString × Node N))
  | .objectLiteral properties => .ok properties
  | _ => .error .readOfUndefined

end DiiaApp
