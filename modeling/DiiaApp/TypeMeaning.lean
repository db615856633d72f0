import DiiaApp.Proofs.Intersections
import DiiaApp.Proofs.LiteralUnions
import DiiaApp.Shapes
import DiiaApp.Validity

/-!
# What types and schemas mean

The value of the literal that a node is the syntax of, and the values of a type, as trees: a type is
known by its shape, which says what its values are made of, and has a shape just where all its
values can be told by a schema of the parser.
-/

namespace DiiaApp

open Js LiteralNumber Shapes TypeFlags Validity

variable {τ N : Type}

/-- A name that can be written without quotes, or a numeral without a zero before it. -/
def isBareName (name : JsString) : Bool :=
  name ≠ [] ∧ name.all isWordUnit ∧ (name.head?.any isDigit → name.all isDigit ∧
    (name = [48] ∨ name.head? ≠ some 48))

/-- What may stand between quotes as it is. -/
def isQuotable (name : JsString) : Bool :=
  name.all fun u => u ≠ 34 ∧ u ≠ 92 ∧ u ≠ 10 ∧ u ≠ 13

/-- The name of a property that an assignment makes, nothing where it makes none: `__proto__` is no
property. -/
def propertyName (written : JsString) : Option JsString :=
  let name := if written.head? = some 34 then written.tail.dropLast else written
  if (isBareName written ∨ (written = quoted name ∧ isQuotable name)) ∧ name ≠ js "__proto__" then
    some name
  else none

namespace Node

mutual

/-- The value of a node, nothing where it is not known to be JSON. -/
def eval : Node N → Option (Json N)
  | .undefined => none
  | .stringLiteral text =>
    match text with
    | .string s => some (.str s)
    | _ => none
  | .numericLiteral value => some (.num value)
  | .true => some (.bool Bool.true)
  | .false => some (.bool Bool.false)
  | .arrayLiteral elements => (evalElements elements).map .arr
  | .objectLiteral properties =>
    (evalProperties properties).map fun es => .obj (Map.empty.setAll es).entries

def evalElements : List (Node N) → Option (List (Json N))
  | [] => some []
  | node :: nodes => node.eval.bind fun v => (evalElements nodes).map fun vs => v :: vs

def evalProperties : List (JsString × Node N) → Option (List (JsString × Json N))
  | [] => some []
  | (written, node) :: properties =>
    (propertyName written).bind fun name => node.eval.bind fun v =>
      (evalProperties properties).map fun es => (name, v) :: es

end

end Node

inductive ScalarKind
  | string
  | number
  | boolean
  | null
  deriving DecidableEq

namespace ScalarKind

def name : ScalarKind → JsString
  | string => js "string"
  | number => js "number"
  | boolean => js "boolean"
  | null => js "null"

abbrev Holds (s : ScalarKind) (v : Json N) : Prop := typeOf v = s.name

def flags : ScalarKind → TypeFlags
  | string => {.string}
  | number => {.number}
  | boolean => {.boolean, .union}
  | null => {.null}

end ScalarKind

/-- The values of the types of a graph, by the shapes of the types. -/
abbrev HasShapedType (shape : τ → Shape ScalarKind τ) : τ → Json N → Prop :=
  HasType ScalarKind.Holds shape

namespace TypeParser

variable (G : TsGraph τ N)

/-- No value of the type is left out where it stands. -/
def Definite (type : TsType τ N) : Prop := ∀ u ∈ type.types, (G u).typeString ≠ js "undefined"

/-- The name of an annotation, that a schema may have beside what it asks. -/
def IsAnnotation (name : JsString) : Prop :=
  propertyName name = some name ∧ name ∉ assertions

variable [LiteralNumber N]

/-- A literal type of a text that the parser does not take for anything else. -/
structure IsStringLiteral (type : TsType τ N) (s : JsString) : Prop where
  flags : type.flags = {.stringLiteral} ∨ type.flags = {.stringLiteral, .enumLiteral}
  value : type.value = some (.string s)
  text : ¬ IsReread s

/-- A primitive type with a name of its own. -/
structure IsNamedScalar (type : TsType τ N) (s : ScalarKind) : Prop where
  flags : type.flags = s.flags
  intrinsicName : type.intrinsicName = some s.name

structure IsListed (property : TsProperty τ) : Prop where
  name : propertyName (quotedName property.name) = some property.name
  tags : ∀ tag ∈ property.jsDocTags, IsAnnotation tag.name
  definite : isRequired property → Definite G (G property.typeAtDeclaration)

structure IsRecord (type : TsType τ N) : Prop extends IsInterface G type where
  declared : ∀ property ∈ type.properties, firstDeclaration property ≠ none
  listed : ∀ property ∈ listedProperties type, IsListed G property
  nonempty : listedProperties type ≠ []
  nodup : ((listedProperties type).map TsProperty.name).Nodup

def fieldOf (property : TsProperty τ) : RecordField τ where
  name := property.name
  required := isRequired property
  type := property.typeAtDeclaration

/-- A union of one type, or one that is neither of literals nor of primitives only. -/
structure IsUnion (type : TsType τ N) : Prop where
  flags : type.flags = {.union}
  nonempty : unionTypes G type ≠ []
  mixed : (unionTypes G type).length = 1 ∨
    ¬ (unionTypes G type).all (isLiteral G) ∧ ¬ (unionTypes G type).all (isNamed G)
  /-- A truth value does not come without the other. -/
  boolean : (unionTypes G type).any (isBooleanLiteral G) → ∀ name ∈ [js "true", js "false"],
    ∃ u ∈ type.types, isBooleanLiteral G u ∧ (G u).intrinsicName = some name

/-- A type of a shape, as the compiler tells of it. -/
inductive TakesShape : TsType τ N → Shape ScalarKind τ → Prop
  | primitive {type : TsType τ N} {s : ScalarKind} (flags : type.flags = s.flags)
    (typeString : type.typeString = s.name) (ne_null : s ≠ .null) : TakesShape type (.scalars [s])
  | text {type : TsType τ N} {symbol : TsSymbol} (flags : type.flags = {.object})
    (isArrayType : type.isArrayType = false) (isTupleType : type.isTupleType = false)
    (symbol_eq : type.symbol = some symbol)
    (name : symbol.name = js "ObjectId" ∨ symbol.name = js "Date") :
    TakesShape type (.scalars [.string])
  | literal {type : TsType τ N} {s : JsString} (h : IsStringLiteral type s) :
    TakesShape type (.literals [s])
  | enum {type : TsType τ N} {texts : List JsString} (flags : type.flags = {.enumLiteral, .union})
    (members : List.Forall₂ (fun u s => IsStringLiteral (G u) s) type.types texts) :
    TakesShape type (.literals texts)
  | array {type : TsType τ N} {element : τ} {rest : List τ} (flags : type.flags = {.object})
    (isArrayType : type.isArrayType = true)
    (typeArguments : type.typeArguments = some (element :: rest))
    (definite : Definite G (G element)) : TakesShape type (.array element)
  | dictionary {type : TsType τ N} {value : τ} (h : IndexedBy type value)
    (numberIndex : type.numberIndex = none) (properties : type.properties = [])
    (definite : Definite G (G value)) : TakesShape type (.dictionary value)
  | record {type : TsType τ N} (h : IsRecord G type) :
    TakesShape type (.record ((listedProperties type).map fieldOf))
  | literals {type : TsType τ N} {texts : List JsString} (flags : type.flags = {.union})
    (several : 2 ≤ texts.length)
    (members : List.Forall₂ (fun u s => IsStringLiteral (G u) s) (unionTypes G type) texts) :
    TakesShape type (.literals texts)
  | scalars {type : TsType τ N} {scalars : List ScalarKind} (flags : type.flags = {.union})
    (several : 2 ≤ scalars.length)
    (members : List.Forall₂ (fun u s => IsNamedScalar (G u) s) (unionTypes G type) scalars) :
    TakesShape type (.scalars scalars)
  | union {type : TsType τ N} (h : IsUnion G type) :
    TakesShape type (.union ((unionTypes G type).any (isBooleanLiteral G))
      ((unionTypes G type).filter fun u => ¬ isBooleanLiteral G u))

/-- All types that `t` leads to are of their shapes. -/
def ShapedFrom (shape : τ → Shape ScalarKind τ) (t : τ) : Prop :=
  ∀ u, Relation.ReflTransGen (fun t u => u ∈ (shape t).refs) t u → TakesShape G (G u) (shape u)

end TypeParser

end DiiaApp
