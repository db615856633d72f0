import DiiaApp.Js.Json

/-!
# JSON schemas

The schemas the generator makes, and what `JSON.stringify` writes of them.
-/

namespace DiiaApp

open Js

/-- A schema of a property, `any` being `{}`. A message has its source and the fields it requires, a
plain object has neither. -/
inductive Schema
  | any (description : Option JsString)
  | ref (name : JsString) (description : Option JsString)
  | primitive (type : JsString) (format description : Option JsString)
  | enum (values : List JsString) (description : Option JsString) (protoSource : JsString)
  | array (items : Schema) (description : Option JsString)
  | map (additionalProperties : Schema) (description : Option JsString)
  | object (properties : List (JsString × Schema)) (description protoSource : Option JsString)
    (required : List JsString)

abbrev Definitions := Js.Map JsString Schema

/-- The schema of a message with the definitions it refers to, none where there are none. -/
structure JsonSchema where
  properties : List (JsString × Schema)
  protoSource : Option JsString
  description : Option JsString
  required : List JsString
  definitions : Option Definitions

namespace Schema

/-- `{ type: 'object', properties: {} }` -/
def plainObject : Schema := .object [] none none []

/-- `{ ...schema, description }` -/
def withDescription (description : JsString) : Schema → Schema
  | any _ => any description
  | ref name _ => ref name description
  | primitive type format _ => primitive type format description
  | enum values _ protoSource => enum values description protoSource
  | array items _ => array items description
  | map additionalProperties _ => map additionalProperties description
  | object properties _ protoSource required => object properties description protoSource required

mutual

/-- The names of the definitions a schema refers to. -/
def refs : Schema → List JsString
  | any _ => []
  | ref name _ => [name]
  | primitive _ _ _ => []
  | enum _ _ _ => []
  | array items _ => items.refs
  | map additionalProperties _ => additionalProperties.refs
  | object properties _ _ _ => refsAll properties

def refsAll : List (JsString × Schema) → List JsString
  | [] => []
  | (_, s) :: properties => s.refs ++ refsAll properties

end

variable {N : Type}

/-- A key of an object where it has a text. -/
def optional (k : JsString) (text : Option JsString) : List (JsString × Json N) :=
  match text with
  | some s => [(k, .str s)]
  | none => []

def typeEntry (type : String) : JsString × Json N := (js "type", .str (js type))

/-- `#/definitions/name` -/
def refText (name : JsString) : JsString := js "#/definitions/" ++ name

/-- The required fields, left out where there are none. -/
def requiredEntry (required : List JsString) : List (JsString × Json N) :=
  if required = [] then [] else [(js "required", .arr (required.map .str))]

mutual

def toJson : Schema → Json N
  | any description => .obj (optional (js "description") description)
  | ref name description =>
    .obj ((js "$ref", .str (refText name)) :: optional (js "description") description)
  | primitive type format description =>
    .obj ((js "type", .str type) :: (optional (js "format") format
      ++ optional (js "description") description))
  | enum values description protoSource =>
    .obj (typeEntry "string" :: (js "enum", .arr (values.map .str))
      :: (optional (js "description") description ++ [(js "protoSource", .str protoSource)]))
  | array items description =>
    .obj (typeEntry "array" :: (js "items", items.toJson)
      :: optional (js "description") description)
  | map additionalProperties description =>
    .obj (typeEntry "object" :: (js "additionalProperties", additionalProperties.toJson)
      :: optional (js "description") description)
  | object properties description protoSource required =>
    .obj (typeEntry "object" :: (js "properties", .obj (entriesToJson properties))
      :: (optional (js "description") description ++ optional (js "protoSource") protoSource
        ++ requiredEntry required))

def entriesToJson : List (JsString × Schema) → List (JsString × Json N)
  | [] => []
  | (k, s) :: properties => (k, s.toJson) :: entriesToJson properties

end

end Schema

namespace JsonSchema

/-- The definitions there are. -/
def defs (s : JsonSchema) : Definitions := s.definitions.getD Js.Map.empty

/-- The names that the schema or one of its definitions refers to. -/
def refs (s : JsonSchema) : List JsString :=
  Schema.refsAll s.properties ++ s.defs.values.flatMap Schema.refs

variable {N : Type}

/-- The tree of the schema without its definitions. -/
def toJson (s : JsonSchema) : Json N :=
  .obj (Schema.typeEntry "object" :: (js "properties", .obj (Schema.entriesToJson s.properties))
    :: (Schema.optional (js "protoSource") s.protoSource
      ++ Schema.optional (js "description") s.description ++ Schema.requiredEntry s.required))

end JsonSchema

/-- The tree of definitions. -/
def Definitions.toJson {N : Type} (definitions : Definitions) : Json N :=
  .obj (Schema.entriesToJson definitions.entries)

end DiiaApp
