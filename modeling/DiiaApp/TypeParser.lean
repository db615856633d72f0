import DiiaApp.Descent
import DiiaApp.ProtoSource
import DiiaApp.TypeScript

/-!
# Schemas of TypeScript types

`TypeParser.parseType` makes the object literal that describes a type in the OpenAPI document. It
calls itself on the types that a type refers to; each function here takes that call for an argument
(`parse`), and `parseType` counts down how deep it goes.
-/

namespace DiiaApp

open Js Descent LiteralNumber TypeFlags

variable {τ N : Type} [LiteralNumber N]

/-- What a part of the parser gives. -/
abbrev Parsed (α : Type) := Except (Halt ParserError) α

namespace TypeParser

/-- `/^[+-]?(\d+(\.\d*)?|\.\d+)$/` -/
def isNumeral (value : JsString) : Bool :=
  let unsigned := if value.head? = some 43 ∨ value.head? = some 45 then value.tail else value
  let fraction := unsigned.dropWhile isDigit
  if unsigned.takeWhile isDigit ≠ [] then
    fraction = [] ∨ (fraction.head? = some dot ∧ fraction.tail.all isDigit)
  else fraction.head? = some dot ∧ fraction.tail ≠ [] ∧ fraction.tail.all isDigit

variable (F : Factory)

def createLiteral (value : LiteralValue N) : Except ParserError (Node N) :=
  match value with
  | .string s =>
    if s = js "true" then .ok .true
    else if s = js "false" then .ok .false
    else if isNumeral s then F.createNumericLiteral (ofText s)
    else .ok (.stringLiteral value)
  | .number n =>
    if isNumeral (toText n) then F.createNumericLiteral n else .ok (.stringLiteral value)
  | .undefined => .ok (.stringLiteral value)
  | .bigint _ _ => .ok (.stringLiteral value)

/-- A string literal of the source. -/
def text (s : String) : Node N := .stringLiteral (.string (js s))

/-- `{ type: 'string', enum: [values] }` -/
def enumSchema (values : List (Node N)) : Node N :=
  .objectLiteral [(js "type", text "string"), (js "enum", .arrayLiteral values)]

/-- `{ type: typeString }` -/
def typeSchema (typeString : JsString) : Node N :=
  .objectLiteral [(js "type", .stringLiteral (.string typeString))]

/-- `{ type: 'string', format: format }` -/
def formatSchema (format : String) : Node N :=
  .objectLiteral [(js "type", text "string"), (js "format", text format)]

def isNull (flags : TypeFlags) : Bool :=
  flags = {.null} ∨ flags = {.undefined} ∨ flags = {.never} ∨ flags = {.void}

def isPrimitive (flags : TypeFlags) : Bool :=
  meets flags stringLike ∨ meets flags numberLike ∨ meets flags booleanLike ∨ flags = {.any} ∨
    flags = {.unknown}

/-- The `value` of a type, where it has one. -/
def valueOf (type : TsType τ N) : LiteralValue N := type.value.getD .undefined

def parsePrimitive (type : TsType τ N) : Except ParserError (Node N) :=
  if meets type.flags literal then
    if type.value.isNone ∧ type.intrinsicName.isSome then
      .ok (enumSchema [if type.intrinsicName = some (js "true") then .true else .false])
    else (createLiteral F (valueOf type)).map fun l => enumSchema [l]
  else .ok (typeSchema (if type.typeString = js "unknown" then js "any" else type.typeString))

variable (G : TsGraph τ N)

def parseEnum (type : TsType τ N) : Except ParserError (Node N) :=
  (type.types.mapM fun u => createLiteral F (valueOf (G u))).map enumSchema

def createPropertyFromMetadata (propertyName text : JsString) :
    Except ParserError (JsString × Node N) :=
  (createLiteral F (.string text)).map fun l => (propertyName, l)

def addProperties (object : Node N) (combinedProperties : List (JsString × Node N)) :
    Except ParserError (Node N) :=
  match object with
  | .undefined => .error .readOfUndefined
  | .objectLiteral properties => .ok (.objectLiteral (combinedProperties ++ properties))
  | node => .ok node

/-- The name and each text of the tags that have any. -/
def tagTexts (docTags : List JsDocTag) : List (JsString × JsString) :=
  docTags.flatMap fun tag => (tag.text.getD []).map fun t => (tag.name, t)

def addDescription (property : TsProperty τ) (parsed : Node N) : Except ParserError (Node N) :=
  match property.documentationComment with
  | [] => .ok parsed
  | description :: _ => do
    let descriptionProperty ← createPropertyFromMetadata F (js "description") description
    addProperties parsed [descriptionProperty]

def tagProperties (docTags : List JsDocTag) : Except ParserError (List (JsString × Node N)) :=
  (tagTexts docTags).mapM fun t => createPropertyFromMetadata F t.1 t.2

def addTags (property : TsProperty τ) (parsed : Node N) : Except ParserError (Node N) := do
  let properties ← tagProperties F property.jsDocTags
  if property.jsDocTags ≠ [] then addProperties parsed properties else return parsed

def addMetadataToProperty (property : TsProperty τ) (parsed : Node N) :
    Except ParserError (Node N) := do
  let parsed ← addDescription F property parsed
  addTags F property parsed

/-- The first declaration of a property, where it has any. -/
def firstDeclaration (property : TsProperty τ) : Option Declaration :=
  (property.declarations.getD []).head?

/-- The properties that a schema lists. -/
def listedProperties (type : TsType τ N) : List (TsProperty τ) :=
  type.properties.filter fun property =>
    ((firstDeclaration property).isSome ∨ property.type.isSome) ∧
      ¬ (firstDeclaration property).any Declaration.isMethod

/-- The type that a property is parsed as. -/
def parsedType (property : TsProperty τ) : Option τ :=
  if property.declarations.isSome then some property.typeAtDeclaration else property.type

def isRequired (property : TsProperty τ) : Bool :=
  property.declarations.isSome ∧ ¬ (firstDeclaration property).any Declaration.questionToken

/-- The name of an assignment: `"name"`, with the quotes. -/
def quotedName (name : JsString) : JsString := quoted name

variable (parse : τ → Parsed (Node N))

/-- `parseType` on what may be `undefined`, the flags of which it would read. -/
def parseOrThrow : Option τ → Parsed (Node N)
  | some t => parse t
  | none => lift (.error .readOfUndefined)

def parseProperty (property : TsProperty τ) : Parsed (JsString × Node N) := do
  let parsed ← parseOrThrow parse (parsedType property)
  let parsed ← lift (addMetadataToProperty F property parsed)
  lift (F.createPropertyAssignment (quotedName property.name) parsed)

/-- The schema with the given assignments under `properties`. -/
def interfaceSchema (type : TsType τ N) (propertiesAssignments : List (JsString × Node N)) :
    Node N :=
  let requiredValues := ((listedProperties type).filter isRequired).map fun property =>
    .stringLiteral (.string property.name)
  if propertiesAssignments = [] then .objectLiteral []
  else .objectLiteral [(js "required", .arrayLiteral requiredValues), (js "type", text "object"),
    (js "properties", .objectLiteral propertiesAssignments)]

def parseInterface (type : TsType τ N) : Parsed (Node N) := do
  let propertiesAssignments ← (listedProperties type).mapM (parseProperty F parse)
  return interfaceSchema type propertiesAssignments

def parseArray (type : TsType τ N) : Parsed (Node N) :=
  match type.typeArguments with
  | some typeArguments => do
    let items ← parseOrThrow parse typeArguments.head?
    let items ← lift (F.createPropertyAssignment (js "items") items)
    return .objectLiteral [(js "type", text "array"), items]
  | none => return .objectLiteral [(js "type", text "array")]

/-- The number of elements, as a node. -/
def countNode (n : ℕ) : Node N := .numericLiteral (ofText (decimal n))

def tupleSchema (elements : ℕ) (tupleElements : List (JsString × Node N)) : Node N :=
  .objectLiteral [(js "type", text "object"), (js "properties", .objectLiteral tupleElements),
    (js "description", text "This is array response (tuple type)"),
    (js "minItems", countNode elements), (js "maxItems", countNode elements)]

def parseElement (element : τ × ℕ) : Parsed (JsString × Node N) := do
  let parsed ← parse element.1
  lift (F.createPropertyAssignment (decimal element.2) parsed)

def parseTuple (type : TsType τ N) : Parsed (Node N) :=
  match type.typeArguments with
  | some typeArguments => do
    let tupleElements ← typeArguments.zipIdx.mapM (parseElement F parse)
    return tupleSchema typeArguments.length tupleElements
  | none => parseArray F parse type

/-- The types that `parseUnion` keeps: of the boolean literals the first, and none that is written
`undefined`. -/
def keptTypes : (firstBoolean : Bool) → List τ → List τ
  | _, [] => []
  | firstBoolean, t :: ts =>
    if .booleanLiteral ∈ (G t).flags then
      if firstBoolean then t :: keptTypes false ts else keptTypes firstBoolean ts
    else if (G t).typeString = js "undefined" then keptTypes firstBoolean ts
    else t :: keptTypes firstBoolean ts

/-- The types of a union that it is parsed as. -/
def unionTypes (type : TsType τ N) : List τ := keptTypes G true type.types

def isLiteral (t : τ) : Bool := meets (G t).flags literal

/-- A union of these has the list of their names for a type. -/
def isNamed (t : τ) : Bool :=
  .number ∈ (G t).flags ∨ .string ∈ (G t).flags ∨ .boolean ∈ (G t).flags ∨ .null ∈ (G t).flags ∨
    .bigInt ∈ (G t).flags

def isBooleanLiteral (t : τ) : Bool := .booleanLiteral ∈ (G t).flags

def literalNode (t : τ) : Except ParserError (Node N) :=
  if isBooleanLiteral G t then
    .ok (if (G t).typeString = js "false" then .false else .true)
  else createLiteral F (valueOf (G t))

def intrinsicNode (t : τ) : Node N :=
  .stringLiteral ((G t).intrinsicName.elim .undefined .string)

/-- The title that a member of a union gets, where its symbol has a name of its own. -/
def titleOf (t : τ) : Option JsString :=
  ((G t).symbol.map TsSymbol.name).filter fun name => name ≠ js "__type"

/-- A member of `anyOf`, with its title. -/
def titled (t : τ) (mappedType : Node N) : Except ParserError (Node N) :=
  match titleOf G t with
  | some title => (mappedType.propertiesOf).map fun properties =>
    .objectLiteral (properties ++ [(js "title", .stringLiteral (.string title))])
  | none => .ok mappedType

def parseMember (t : τ) : Parsed (Node N) :=
  if isBooleanLiteral G t then return typeSchema (js "boolean")
  else do lift (titled G t (← parse t))

/-- A union of other than one type. -/
def parseSeveral (types : List τ) : Parsed (Node N) :=
  if types ≠ [] ∧ types.all (isLiteral G) then
    lift ((types.mapM (literalNode F G)).map enumSchema)
  else if types ≠ [] ∧ types.all (isNamed G) then
    return .objectLiteral [(js "type", .arrayLiteral (types.map (intrinsicNode G)))]
  else do
    let mappedTypes ← types.mapM (parseMember G parse)
    let anyOf ← lift (F.createArrayLiteralExpression mappedTypes)
    return .objectLiteral [(js "anyOf", anyOf)]

def parseUnion (type : TsType τ N) : Parsed (Node N) :=
  match unionTypes G type with
  | [t] => if isBooleanLiteral G t then return typeSchema (js "boolean") else parse t
  | types => parseSeveral F G parse types

/-- What the loops of `parseIntersection` gather. -/
structure Merge (N : Type) where
  combinedProperties : List (JsString × Node N)
  additionalProperties : List (JsString × Node N)
  unique : List JsString
  requiredValues : List JsString

def Merge.empty : Merge N := ⟨[], [], [], []⟩

/-- One entry of what a schema has under `identifier`. -/
def mergeEntry (identifier : JsString) (m : Merge N) (prop : JsString × Node N) : Merge N :=
  let id := escapedText prop.1
  let m := { m with requiredValues := m.requiredValues ++ [id] }
  if id ∈ m.unique then m
  else if identifier = js "properties" then
    { m with unique := m.unique ++ [id], combinedProperties := m.combinedProperties ++ [prop] }
  else { m with
    unique := m.unique ++ [id], additionalProperties := m.additionalProperties ++ [prop] }

def mergedNames : List JsString := [js "properties", js "additionalProperties"]

def mergeProperty (m : Merge N) (property : JsString × Node N) :
    Except ParserError (Merge N) :=
  let identifier := escapedText property.1
  if identifier ∈ mergedNames then
    property.2.propertiesOf.map fun props => props.foldl (mergeEntry identifier) m
  else .ok m

def mergeSchema (m : Merge N) (schema : Node N) : Except ParserError (Merge N) := do
  let properties ← schema.propertiesOf
  properties.foldlM mergeProperty m

def mergeSchemas (types : List (Node N)) : Except ParserError (Merge N) :=
  types.reverse.foldlM mergeSchema .empty

def Merge.toNode (m : Merge N) : Node N :=
  .objectLiteral ([
    (js "required", .arrayLiteral (m.requiredValues.map fun r => .stringLiteral (.string r))),
    (js "type", text "object"), (js "properties", .objectLiteral m.combinedProperties)]
    ++ if m.additionalProperties ≠ [] then
        [(js "additionalProperties", .objectLiteral m.additionalProperties)]
      else [])

def parseIntersection (type : TsType τ N) : Parsed (Node N) := do
  let types ← type.types.mapM parse
  lift ((mergeSchemas types).map Merge.toNode)

def recordValueType (type : TsType τ N) : Option τ := type.properties.head?.bind TsProperty.type

/-- The schema of the values of a record, with its keys for a description. -/
def describeKeys (type : TsType τ N) (additionalPropertiesObject : Node N) :
    Except ParserError (JsString × Node N) :=
  let keyNames := type.properties.map fun prop => escapedText prop.name
  let description := js "**Keys**: " ++ List.intercalate (js " | ") keyNames
  additionalPropertiesObject.propertiesOf.map fun properties =>
    (js "additionalProperties", .objectLiteral
      (properties ++ [(js "description", .stringLiteral (.string description))]))

def parseLongRecord (type : TsType τ N) : Parsed (Node N) := do
  let additionalPropertiesObject ← parseOrThrow parse (recordValueType type)
  let additionalProperties ← lift (describeKeys type additionalPropertiesObject)
  return .objectLiteral [(js "type", text "object"), additionalProperties]

/-- What comes after each `node_modules` of a path. -/
def packageNames : List JsString → List (Option JsString)
  | [] => []
  | part :: parts =>
    if part = js "node_modules" then parts.head? :: packageNames parts else packageNames parts

/-- The first of the packages that is not one of those that may be parsed. -/
def externalPackageName : List (Option JsString) → Except ParserError (Option JsString)
  | [] => .ok none
  | none :: _ => .error .readOfUndefined
  | some name :: names =>
    if (js "@diia").isPrefixOf name then externalPackageName names else .ok (some name)

def parseTypeFromExternalPackage (symbol : TsSymbol) : Except ParserError (Option (Node N)) :=
  (externalPackageName (packageNames ((symbol.fileName.getD []).splitOn 47))).map
    (Option.map fun name => typeSchema (name ++ js "." ++ symbol.name))

def isExternalPackage (symbol : TsSymbol) : Bool :=
  symbol.name ≠ js "__type" ∧ symbol.fileName.isSome ∧ symbol.fromExternalLibrary

/-- What stands for a type of another package, where it is not to be parsed. -/
def externalSchema (type : TsType τ N) : Except ParserError (Option (Node N)) :=
  match type.symbol with
  | none => .error .readOfUndefined
  | some symbol =>
    if isExternalPackage symbol then parseTypeFromExternalPackage symbol else .ok none

def isRecordWithManyKeys (type : TsType τ N) : Bool :=
  let firstArgument := (type.aliasTypeArguments.getD []).head?
  (type.aliasSymbol = some (js "Record") ∨ firstArgument.isSome) ∧
    firstArgument.bind (fun t => (G t).aliasSymbol) = some (js "Record") ∧
    (recordValueType type).isSome ∧ 5 < type.properties.length

def parseIndexedObject (indexType : τ) : Parsed (Node N) := do
  let additionalProperties ← parse indexType
  let additionalProperties ←
    lift (F.createPropertyAssignment (js "additionalProperties") additionalProperties)
  return .objectLiteral [(js "type", text "object"), additionalProperties]

/-- The schema of an object type that is known by its name. -/
def namedSchema (type : TsType τ N) : Option (Node N) :=
  match type.symbol.map TsSymbol.name with
  | none => none
  | some name =>
    if name = js "ObjectId" then some (typeSchema (js "string"))
    else if name = js "Date" then some (formatSchema "date-time")
    else if name = js "Buffer" then some (formatSchema "binary")
    else none

def parseObjectType (type : TsType τ N) : Parsed (Node N) :=
  if type.isArrayType then parseArray F parse type
  else if type.isTupleType then parseTuple F parse type
  else
    match namedSchema type with
    | some schema => return schema
    | none =>
      match type.numberIndex <|> type.stringIndex with
      | some indexType => parseIndexedObject F parse indexType
      | none => do
        match ← lift (externalSchema type) with
        | some external => return external
        | none =>
          if isRecordWithManyKeys G type then parseLongRecord parse type
          else parseInterface F parse type

/-- `parseType`, with the function that it calls itself by. -/
def parseTypeWith (type : TsType τ N) : Parsed (Node N) :=
  if isNull type.flags then return .undefined
  else if isPrimitive type.flags then lift (parsePrimitive F type)
  else if type.flags = {.object} then parseObjectType F G parse type
  else if type.flags = {.union} then parseUnion F G parse type
  else if type.flags = {.intersection} then parseIntersection parse type
  else if meets type.flags enumLike then lift (parseEnum F G type)
  else return .objectLiteral []

/-- `parseType`, at most `n` levels deep. -/
def parseType : ℕ → τ → Parsed (Node N)
  | 0, _ => .error .tooDeep
  | n + 1, t => parseTypeWith F G (parseType n) (G t)

end TypeParser

end DiiaApp
