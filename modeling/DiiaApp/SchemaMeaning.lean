import DiiaApp.Proofs.SchemaDefinitions
import DiiaApp.Shapes
import DiiaApp.Validity

/-!
# What messages and their schemas mean

The trees of a message type: an object with the fields of the message, each of its own type, where a
field that is in no oneof and not repeated is never left out. A generated schema is read with its
own definitions.
-/

namespace DiiaApp

open Js Shapes Validity

variable {N : Type}

/-- The type of a field's value, scalars and objects of the root by name. -/
inductive ValueType
  | scalar (type : JsString)
  | object (typeName : JsString)
  | list (element : ValueType)
  | map (value : ValueType)

def jsonTypeOf (type : JsString) : JsString :=
  if type = js "double" ∨ type = js "float" then js "number"
  else if type = js "bool" then js "boolean"
  else if type = js "string" ∨ type = js "bytes" then js "string"
  else js "integer"

/-- The type of one value of a field. -/
def itemType (message : ProtoType) (field : ProtoField) : ValueType :=
  match protoToJsonType field.type with
  | some _ => .scalar field.type
  | none => .object (resolvedTypeName message field)

def valueType (message : ProtoType) (field : ProtoField) : ValueType :=
  if field.keyType.isSome then .map (itemType message field)
  else if field.repeated then .list (itemType message field)
  else itemType message field

def messageFields (message : ProtoType) : List (RecordField ValueType) :=
  message.fields.entries.map fun e =>
    ⟨e.1, e.2.partOf.isNone ∧ ¬ e.2.repeated, valueType message e.2⟩

/-- The trees of a message are records of its fields, those of an enum the names of its values. -/
def valueShape (root : ProtoRoot) : ValueType → Shape JsString ValueType
  | .scalar type => .scalars [jsonTypeOf type]
  | .object typeName =>
    match root.lookupType typeName with
    | some message => .record (messageFields message)
    | none => .literals ((root.lookupEnum typeName).elim [] fun e => e.values.keys)
  | .list element => .array element
  | .map value => .dictionary value

abbrev HasValueType (integral : N → Prop) (root : ProtoRoot) : ValueType → Json N → Prop :=
  HasType (IsOfType integral) (valueShape root)

/-- What a reference in a generated schema refers to. -/
def JsonSchema.definition (s : JsonSchema) (ref : JsString) : Option (Json N) :=
  Map.find ref (s.defs.entries.map fun e => (Schema.refText e.1, e.2.toJson))

/-- A tree is one that a generated schema admits, with its definitions. -/
def JsonSchema.AdmitsTree (integral : N → Prop) (s : JsonSchema) (v : Json N) : Prop :=
  Admits integral (Defined integral s.definition) s.toJson v

/-- Every field has its resolved type set, full names are found, no scalar has the name of what
every object inherits, and the only oneofs are those of optional fields. -/
structure Describable (root : ProtoRoot) : Prop where
  resolved : AllResolved root
  names : FindsFullNames root
  scalars : ∀ type ∈ root.types, ∀ e ∈ type.fields.entries, e.2.type ∉ inheritedNames
  oneofs : ∀ type ∈ root.types, ∀ e ∈ type.fields.entries, ∀ oneof, e.2.partOf = some oneof →
    oneof.head? = some 95

end DiiaApp
