import DiiaApp.UnaryCall

/-!
# Messages with oneofs

A message schema has fields, some of them in a oneof: a proto3-optional field `x` in one of its own
that is called `_x`. Decoding a message with `oneofs: true` writes its fields and, after a field of
a oneof, the name of the field under the name of the oneof.

`Marked` is such an object with its marks, those of the proto3-optional fields: `toValue true` has
them, `toValue false` does not.
-/

namespace DiiaApp

open Js

variable {N : Type}

inductive ScalarType
  | number
  | bool
  | text
  | bytes

/-- A scalar as it is decoded. Enums and 64-bit integers are texts too, and a message field that is
not set is `null`. -/
inductive Scalar (N : Type)
  | num (n : N)
  | bool (b : Bool)
  | text (s : JsString)
  | bytes (octets : List N)
  | null

inductive ElementType
  | scalar (type : ScalarType)
  | message (typeName : JsString)

/-- Whether a field is in a oneof: in none, in the one of a proto3-optional field, or in one that is
declared. -/
inductive Presence
  | plain
  | optional
  | oneof (name : JsString)

inductive FieldType
  | single (presence : Presence) (type : ElementType)
  | repeated (type : ElementType)
  | map (type : ElementType)

structure FieldSchema where
  name : JsString
  type : FieldType

namespace FieldSchema

def isOptional (field : FieldSchema) : Bool :=
  match field.type with
  | .single .optional _ => true
  | _ => false

/-- The declared oneof of a field. -/
def realOneof (field : FieldSchema) : Option JsString :=
  match field.type with
  | .single (.oneof name) _ => some name
  | _ => none

/-- The oneof of a field, which a proto3-optional one has for itself. -/
def oneofName (field : FieldSchema) : Option JsString :=
  if field.isOptional then some (95 :: field.name) else field.realOneof

end FieldSchema

/-- A message type. Its fields and oneofs have different names. -/
structure MessageSchema where
  fields : List FieldSchema
  nodup : (fields.map FieldSchema.name).Nodup
  oneofs : ∀ f ∈ fields, ∀ g ∈ fields, g.oneofName ≠ some f.name

/-- What a field holds. A message is the fields that are written, in their order. -/
inductive Content (N : Type)
  | scalar (s : Scalar N)
  | message (fields : List (FieldSchema × Content N))
  | repeated (items : List (Content N))
  | map (entries : List (JsString × Content N))

/-- A scalar of a type. -/
inductive Scalar.Is : ScalarType → Scalar N → Prop
  | num (n : N) : Is .number (.num n)
  | bool (b : Bool) : Is .bool (.bool b)
  | text (s : JsString) : Is .text (.text s)
  | bytes (octets : List N) : Is .bytes (.bytes octets)

/-- The content of a field of a type, over the message types by their names. A message has fields of
its type, none twice and no two of one oneof; a map has no key twice. -/
inductive Content.Fits (schemas : JsString → Option MessageSchema) : FieldType → Content N → Prop
  | scalar {presence : Presence} {type : ScalarType} {s : Scalar N} (h : s.Is type) :
      Fits schemas (.single presence (.scalar type)) (.scalar s)
  | unset {typeName : JsString} : Fits schemas (.single .plain (.message typeName)) (.scalar .null)
  | message {presence : Presence} {typeName : JsString} {schema : MessageSchema}
      {fields : List (FieldSchema × Content N)} (found : schemas typeName = some schema)
      (declared : ∀ e ∈ fields, e.1 ∈ schema.fields) (once : (fields.map Prod.fst).Nodup)
      (oneofs : (fields.filterMap fun e => e.1.oneofName).Nodup)
      (inner : ∀ e ∈ fields, Fits schemas e.1.type e.2) :
      Fits schemas (.single presence (.message typeName)) (.message fields)
  | repeated {type : ElementType} {items : List (Content N)}
      (inner : ∀ c ∈ items, Fits schemas (.single .plain type) c) :
      Fits schemas (.repeated type) (.repeated items)
  | map {type : ElementType} {entries : List (JsString × Content N)}
      (nodup : (entries.map Prod.fst).Nodup)
      (inner : ∀ e ∈ entries, Fits schemas (.single .plain type) e.2) :
      Fits schemas (.map type) (.map entries)

/-- Bytes are an object with the octets under their indexes. -/
def Scalar.toValue : Scalar N → Value N
  | num n => .num n
  | bool b => .bool b
  | text s => .str s
  | bytes octets => .obj (octets.mapIdx fun i octet => (decimal i, .num octet))
  | null => .null

/-- An object whose properties have marks or not, with what is in it. The mark of the property `x`
is the text `x` under `_x`, after it. -/
inductive Marked (N : Type)
  | leaf (s : Scalar N)
  | arr (xs : List (Marked N))
  | obj (ps : List (JsString × Bool × Marked N))

namespace Marked

def markOf (marked : Bool) (key : JsString) : List (JsString × Value N) :=
  if marked then [(95 :: key, .str key)] else []

mutual

/-- The value, with its marks or without. -/
def toValue (marks : Bool) : Marked N → Value N
  | leaf s => s.toValue
  | arr xs => .arr (toItems marks xs)
  | obj ps => .obj (toProps marks ps)

def toItems (marks : Bool) : List (Marked N) → List (Value N)
  | [] => []
  | m :: ms => toValue marks m :: toItems marks ms

def toProps (marks : Bool) : List (JsString × Bool × Marked N) → List (JsString × Value N)
  | [] => []
  | (key, marked, m) :: ps =>
    (key, toValue marks m) :: (markOf (marks && marked) key ++ toProps marks ps)

end

/-- The name of the set field under the name of its declared oneof. -/
def ofOneof (field : FieldSchema) : List (JsString × Bool × Marked N) :=
  match field.realOneof with
  | some name => [(name, false, leaf (.text field.name))]
  | none => []

end Marked

mutual

def Content.marked : Content N → Marked N
  | .scalar s => .leaf s
  | .message fields => .obj (markedFields fields)
  | .repeated items => .arr (markedItems items)
  | .map entries => .obj (markedEntries entries)

def markedFields : List (FieldSchema × Content N) → List (JsString × Bool × Marked N)
  | [] => []
  | (field, c) :: fields =>
    (field.name, field.isOptional, c.marked) :: (Marked.ofOneof field ++ markedFields fields)

def markedItems : List (Content N) → List (Marked N)
  | [] => []
  | c :: cs => c.marked :: markedItems cs

def markedEntries : List (JsString × Content N) → List (JsString × Bool × Marked N)
  | [] => []
  | (key, c) :: es => (key, false, c.marked) :: markedEntries es

end

namespace Content

/-- What decoding with `oneofs: true` gives. -/
def decoded (c : Content N) : Value N := c.marked.toValue true

/-- The same without the keys of the proto3-optional oneofs. -/
def withoutSynthetic (c : Content N) : Value N := c.marked.toValue false

end Content

end DiiaApp
