import DiiaApp.JsonSchema
import DiiaApp.ProtoSource

/-!
# The JSON schema generator

`generateSchema` describes a message type and puts the types its fields lead to in definitions. Each
of these gets a name when it is first met (`getDefinitionName`), and the search stops at a name that
has a definition and at a type whose full or short name is that of a type around it.

The search goes down by one type at a time, counted here by `fuel`. Its state keeps a history of the
calls of `resolveComplexType`, which nothing of the search reads.
-/

namespace DiiaApp

open Js

/-- What every object inherits: a plain object used as a table has a value under these names. -/
def inheritedNames : List JsString :=
  ["constructor", "hasOwnProperty", "isPrototypeOf", "propertyIsEnumerable", "toLocaleString",
    "toString", "valueOf", "__proto__", "__defineGetter__", "__defineSetter__", "__lookupGetter__",
    "__lookupSetter__"].map js

def integerTypes : List JsString :=
  ["int32", "int64", "uint32", "uint64", "sint32", "sint64", "fixed32", "fixed64", "sfixed32",
    "sfixed64"].map js

/-- `{ ...protoToJsonType[type] }`; what is inherited has no keys of its own. -/
def protoToJsonType (type : JsString) : Option Schema :=
  if type = js "double" ∨ type = js "float" then some (.primitive (js "number") none none)
  else if type ∈ integerTypes then some (.primitive (js "integer") none none)
  else if type = js "bool" then some (.primitive (js "boolean") none none)
  else if type = js "string" then some (.primitive (js "string") none none)
  else if type = js "bytes" then some (.primitive (js "string") (some (js "byte")) none)
  else if type ∈ inheritedNames then some (.any none)
  else none

/-- The types of `google.protobuf`, by the last part of their names. -/
def googleTypes : List (JsString × Schema) :=
  [(js "Timestamp", .primitive (js "string") (some (js "date-time"))
      (some (js "RFC 3339 formatted timestamp"))),
    (js "Duration", .primitive (js "string") none
      (some (js "Duration in seconds with up to 9 fractional digits, e.g. \"3.5s\""))),
    (js "Empty", .plainObject),
    (js "Any", .object [(js "@type", .primitive (js "string") none
        (some (js "Type URL of the serialized message")))]
      (some (js "Arbitrary serialized protocol buffer message")) none []),
    (js "Struct", .object [] (some (js "JSON object")) none []),
    (js "Value", .object [] (some (js "Represents any JSON value")) none []),
    (js "ListValue", .array .plainObject (some (js "JSON array"))),
    (js "FieldMask", .primitive (js "string") none (some (js "Comma-separated list of field paths"))),
    (js "BoolValue", .primitive (js "boolean") none (some (js "Nullable boolean"))),
    (js "BytesValue", .primitive (js "string") (some (js "byte")) (some (js "Nullable bytes"))),
    (js "DoubleValue", .primitive (js "number") none (some (js "Nullable double"))),
    (js "FloatValue", .primitive (js "number") none (some (js "Nullable float"))),
    (js "Int32Value", .primitive (js "integer") none (some (js "Nullable int32"))),
    (js "Int64Value", .primitive (js "integer") none (some (js "Nullable int64"))),
    (js "UInt32Value", .primitive (js "integer") none (some (js "Nullable uint32"))),
    (js "UInt64Value", .primitive (js "integer") none (some (js "Nullable uint64"))),
    (js "StringValue", .primitive (js "string") none (some (js "Nullable string")))]

def googleWellKnownTypes (typeName : JsString) : Option Schema :=
  Js.Map.find typeName (googleTypes.map fun e => (js "google.protobuf." ++ e.1, e.2))

/-- `parent.child` of a full name, or the name where it has no two parts. -/
def qualifiedName (fullName : JsString) : JsString :=
  let parts := fullName.splitOn dot
  if 2 ≤ parts.length then List.intercalate [dot] (parts.drop (parts.length - 2)) else fullName

/-- The name of a type, chosen where it has none yet. -/
def getDefinitionName (fullName shortName : JsString) (definitionNames : Js.Map JsString JsString)
    (isNestedType : Bool) : JsString × Js.Map JsString JsString :=
  match (definitionNames.get fullName).filter (· ≠ []) with
  | some existingName => (existingName, definitionNames)
  | none =>
    let name :=
      if isNestedType then qualifiedName fullName
      else if definitionNames.entries.any fun e => e.2 = shortName ∧ e.1 ≠ fullName then fullName
      else shortName
    (name, definitionNames.set fullName name)

/-- A call of `resolveComplexType`: the type, the name it has, and whether there is a definition of
that name and a type around the call has the full or short name. -/
structure TypeCall where
  typeName : JsString
  definitionName : JsString
  defined : Bool
  visited : Bool

structure GenState where
  definitions : Definitions
  definitionNames : Js.Map JsString JsString
  /-- History: the calls so far. -/
  calls : List TypeCall

/-- The schema of a type met with the names in `visited` around it. -/
abbrev Resolver := List JsString → JsString → GenState → Schema × GenState

variable (root : ProtoRoot) (comments : Comments)

/-- `fullName.replace(/^\./, '')` -/
def withoutDot : JsString → JsString
  | [] => []
  | u :: s => if u = dot then s else u :: s

def resolvedTypeName (parent : ProtoType) (field : ProtoField) : JsString :=
  match field.resolvedType with
  | some fullName => if withoutDot fullName ≠ [] then withoutDot fullName else field.type
  | none =>
    if dot ∈ field.type then field.type
    else
      match parent.nestedType field.type with
      | some nested => withoutDot nested.fullName
      | none => field.type

def addFieldDescription (schema : Schema) (fieldName parentTypeName : JsString) : Schema :=
  match getFieldComment comments fieldName parentTypeName with
  | some comment => schema.withDescription comment
  | none => schema

section Fields

variable (resolve : Resolver) (visited : List JsString) (parent : ProtoType)

/-- The schema of a field's type. -/
def typeSchema (field : ProtoField) (st : GenState) : Schema × GenState :=
  match protoToJsonType field.type with
  | some schema => (schema, st)
  | none => resolve visited (resolvedTypeName parent field) st

def mapFieldToSchema (name : JsString) (field : ProtoField) (st : GenState) : Schema × GenState :=
  let value := typeSchema resolve visited parent field st
  (addFieldDescription comments (.map value.1 none) name parent.name, value.2)

def fieldToSchema (name : JsString) (field : ProtoField) (st : GenState) : Schema × GenState :=
  if field.keyType.isSome then mapFieldToSchema comments resolve visited parent name field st
  else
    let value := typeSchema resolve visited parent field st
    let schema := addFieldDescription comments value.1 name parent.name
    (if field.repeated then .array schema none else schema, value.2)

/-- The properties of fields, one after the other. -/
def fieldsToSchema : List (JsString × ProtoField) → GenState → List (JsString × Schema) × GenState
  | [], st => ([], st)
  | e :: fields, st =>
    let property := fieldToSchema comments resolve visited parent e.1 e.2 st
    let rest := fieldsToSchema fields property.2
    ((e.1, property.1) :: rest.1, rest.2)

end Fields

/-- The fields that are neither optional nor repeated. -/
def requiredFields (type : ProtoType) : List JsString :=
  (type.fields.entries.filter fun e => ¬ isExplicitlyOptional e.2 ∧ ¬ e.2.repeated).map Prod.fst

/-- The name of a definition, with the comment on its type where there is one. -/
def definitionDescription (definitionName typeName : JsString) : JsString :=
  match commentAt comments.message (shortNameOf typeName) with
  | some comment => definitionName ++ [newLine] ++ comment
  | none => definitionName

/-- A message with its properties. -/
def messageSchema (type : ProtoType) (typeName definitionName : JsString)
    (properties : List (JsString × Schema)) : Schema :=
  .object properties (some (definitionDescription comments definitionName typeName))
    (some (generateMessageProtoSource comments [] type)) (requiredFields type)

def resolveMessageType (resolve : Resolver) (type : ProtoType) (typeName definitionName : JsString)
    (visited : List JsString) (st : GenState) : Schema × GenState :=
  let newVisited := shortNameOf typeName :: typeName :: visited
  -- a definition is there while the fields are processed
  let nested := fieldsToSchema comments resolve newVisited type type.fields.entries
    { st with definitions := st.definitions.set definitionName .plainObject }
  (.ref definitionName none,
    { nested.2 with
      definitions := nested.2.definitions.set definitionName
        (messageSchema comments type typeName definitionName nested.1) })

def enumSchema (e : ProtoEnum) (typeName definitionName : JsString) : Schema :=
  .enum e.values.keys (some (definitionDescription comments definitionName typeName))
    (generateEnumProtoSource comments e [])

def tryResolveEnumType (typeName definitionName : JsString) (st : GenState) : Schema × GenState :=
  match root.lookupEnum typeName with
  | some e =>
    (.ref definitionName none,
      { st with
        definitionNames := st.definitionNames.set typeName definitionName
        definitions := st.definitions.set definitionName
          (enumSchema comments e typeName definitionName) })
  | none => ((googleWellKnownTypes typeName).getD .plainObject, st)

/-- The call that `resolveComplexType` makes of its arguments. -/
def typeCall (visited : List JsString) (typeName : JsString) (st : GenState) : TypeCall where
  typeName := typeName
  definitionName := (getDefinitionName typeName (shortNameOf typeName) st.definitionNames
    (root.nestedInType typeName)).1
  defined := st.definitions.has (getDefinitionName typeName (shortNameOf typeName)
    st.definitionNames (root.nestedInType typeName)).1
  visited := typeName ∈ visited ∨ shortNameOf typeName ∈ visited

/-- The state with a name for the type and the call in its history. -/
def met (visited : List JsString) (typeName : JsString) (st : GenState) : GenState where
  definitions := st.definitions
  definitionNames := (getDefinitionName typeName (shortNameOf typeName) st.definitionNames
    (root.nestedInType typeName)).2
  calls := st.calls ++ [typeCall root visited typeName st]

/-- One level of the search. -/
def resolveStep (resolve : Resolver) : Resolver := fun visited typeName st =>
  let call := typeCall root visited typeName st
  let st := met root visited typeName st
  if call.defined ∨ call.definitionName ∈ inheritedNames then (.ref call.definitionName none, st)
  else if call.visited then (.ref call.definitionName none, st)
  else
    match root.lookupType typeName with
    | some type => resolveMessageType comments resolve type typeName call.definitionName visited st
    | none => tryResolveEnumType root comments typeName call.definitionName st

def resolveComplexType : ℕ → Resolver
  | 0 => fun _ _ st => (.plainObject, st)
  | fuel + 1 => resolveStep root comments (resolveComplexType fuel)

/-- The names of the fields' types. -/
def fieldTypeNames : List JsString :=
  root.types.flatMap fun type => type.fields.values.map (resolvedTypeName type)

/-- As many levels as the search can go down. -/
def searchDepth : ℕ := (fieldTypeNames root).length + 1

def initialState : GenState := ⟨Js.Map.empty, Js.Map.empty, []⟩

/-- The properties of a type with the state the search for them ends in. -/
def searchType (type : ProtoType) : List (JsString × Schema) × GenState :=
  fieldsToSchema comments (resolveComplexType root comments (searchDepth root)) [] type
    type.fields.entries initialState

def foundType (typeName : JsString) : Option ProtoType :=
  if typeName = [] then none else root.lookupType typeName

/-- The schema of a type found for `typeName`. -/
def typeToSchema (typeName : JsString) (type : ProtoType) : JsonSchema :=
  let search := searchType root comments type
  { properties := search.1
    protoSource := some (generateMessageProtoSource comments [] type)
    description := commentAt comments.message (shortNameOf typeName)
    required := requiredFields type
    definitions :=
      if search.2.definitions.entries = [] then none else some search.2.definitions }

def generateSchema (typeName : JsString) : JsonSchema :=
  match (if typeName = [] then none else root.lookupType typeName) with
  | some type => typeToSchema root comments typeName type
  | none => ⟨[], none, none, [], none⟩

end DiiaApp
