import DiiaApp.JsonSchemaGenerator

/-!
# The schema reflection service

Methods are registered under their paths with the schemas of their types. `handleGetSchemas` answers
with the methods that have an action, their schemas without definitions, and the definitions of all
of them in one object; `transformResponse` is what the client reads of the answer.
-/

namespace DiiaApp

open Js

structure HttpMapping where
  method : JsString
  path : JsString

structure RegisteredMethod where
  grpcMethod : JsString
  requestSchema : JsonSchema
  responseSchema : JsonSchema
  requestTypeName : Option JsString
  responseTypeName : Option JsString
  httpMapping : Option HttpMapping
  description : Option JsString
  deprecated : Option Bool
  sessionType : Option JsString
  actionName : Option JsString
  requestStream : Option Bool
  responseStream : Option Bool

/-- The registered methods by their paths. -/
abbrev SchemaRegistry := Js.Map JsString RegisteredMethod

namespace SchemaRegistry

def register (registry : SchemaRegistry) (method : RegisteredMethod) : SchemaRegistry :=
  registry.set method.grpcMethod method

def setActionInfo (registry : SchemaRegistry) (grpcMethod actionName sessionType : JsString) :
    SchemaRegistry :=
  match registry.get grpcMethod with
  | some method =>
    registry.set grpcMethod
      { method with actionName := some actionName, sessionType := some sessionType }
  | none => registry

def getAll (registry : SchemaRegistry) : List RegisteredMethod := registry.values

end SchemaRegistry

structure ActionSchemaDto where
  name : JsString
  grpcMethod : JsString
  sessionType : JsString
  requestSchemaJson : JsString
  responseSchemaJson : JsString
  requestTypeName : Option JsString
  responseTypeName : Option JsString
  httpMapping : Option HttpMapping
  description : Option JsString
  deprecated : Option Bool
  requestStream : Option Bool
  responseStream : Option Bool

structure ServiceSchemaDto where
  serviceName : JsString
  version : JsString
  actions : List ActionSchemaDto
  definitionsJson : JsString

/-- `Object.assign(target, source)` -/
def assign (target source : Definitions) : Definitions :=
  source.entries.foldl (fun target e => target.set e.1 e.2) target

/-- `m.actionName` is there and not empty. -/
def RegisteredMethod.hasAction (m : RegisteredMethod) : Bool := m.actionName.any (· ≠ [])

/-- The definitions with those of a method. -/
def assignMethod (globalDefinitions : Definitions) (method : RegisteredMethod) : Definitions :=
  assign (assign globalDefinitions method.requestSchema.defs) method.responseSchema.defs

section Answer

variable (N : Type) [JsNumber N]

def actionOf (method : RegisteredMethod) : ActionSchemaDto where
  name := method.actionName.getD []
  grpcMethod := method.grpcMethod
  sessionType := method.sessionType.getD []
  requestSchemaJson := (method.requestSchema.toJson : Json N).print
  responseSchemaJson := (method.responseSchema.toJson : Json N).print
  requestTypeName := method.requestTypeName
  responseTypeName := method.responseTypeName
  httpMapping := method.httpMapping
  description := method.description
  deprecated := method.deprecated
  requestStream := method.requestStream
  responseStream := method.responseStream

def handleGetSchemas (serviceName version : JsString) (registry : SchemaRegistry) :
    ServiceSchemaDto :=
  let methods := registry.getAll.filter RegisteredMethod.hasAction
  { serviceName := serviceName
    version := version
    actions := methods.map (actionOf N)
    definitionsJson := ((methods.foldl assignMethod Js.Map.empty).toJson : Json N).print }

end Answer

structure DiscoveredAction (N : Type) where
  name : JsString
  grpcMethod : JsString
  sessionType : JsString
  requestSchema : Json N
  responseSchema : Json N
  requestTypeName : Option JsString
  responseTypeName : Option JsString
  httpMapping : Option HttpMapping
  description : Option JsString
  deprecated : Option Bool
  requestStream : Option Bool
  responseStream : Option Bool

structure DiscoveredSchema (N : Type) where
  serviceName : JsString
  version : JsString
  actions : List (DiscoveredAction N)
  definitions : Json N

section Client

variable {N : Type} [JsNumber N]

def parseJsonSafe (json : JsString) : Json N :=
  if json = [] then .obj [] else (Json.parse json).getD (.obj [])

def transformAction (action : ActionSchemaDto) : DiscoveredAction N where
  name := action.name
  grpcMethod := action.grpcMethod
  sessionType := action.sessionType
  requestSchema := parseJsonSafe action.requestSchemaJson
  responseSchema := parseJsonSafe action.responseSchemaJson
  requestTypeName := action.requestTypeName
  responseTypeName := action.responseTypeName
  httpMapping := action.httpMapping
  description := action.description
  deprecated := action.deprecated
  requestStream := action.requestStream
  responseStream := action.responseStream

def transformResponse (response : ServiceSchemaDto) : DiscoveredSchema N where
  serviceName := response.serviceName
  version := response.version
  actions := response.actions.map transformAction
  definitions :=
    parseJsonSafe (if response.definitionsJson = [] then js "\x7b\x7d" else response.definitionsJson)

end Client

/-- A method of a loaded package definition: `requestType` and `responseType` are the names of their
message types, without packages, where they have any. -/
structure GrpcMethodDefinition where
  path : JsString
  requestType : Option JsString
  responseType : Option JsString
  httpMapping : Option HttpMapping
  requestStream : Option Bool
  responseStream : Option Bool

/-- An entry of a loaded package definition: a method, an object with methods among its entries, or
anything else. -/
inductive DefinitionEntry
  | method (definition : GrpcMethodDefinition)
  | methods (definitions : List GrpcMethodDefinition)
  | other

def extractMethodsFromPkgDefs (pkgDefs : List DefinitionEntry) : List GrpcMethodDefinition :=
  pkgDefs.flatMap fun
    | .method definition => [definition]
    | .methods definitions => definitions
    | .other => []

/-- What the extractor reads of the protos besides the root. -/
structure ProtoMetadata where
  root : ProtoRoot
  comments : Comments
  methodDescriptions : Js.Map JsString JsString
  methodDeprecations : Js.Map JsString Bool

/-- A method as it is registered. -/
def registeredMethod (metadata : ProtoMetadata) (method : GrpcMethodDefinition) :
    RegisteredMethod where
  grpcMethod := method.path
  requestSchema := generateSchema metadata.root metadata.comments (method.requestType.getD [])
  responseSchema := generateSchema metadata.root metadata.comments (method.responseType.getD [])
  requestTypeName := some (method.requestType.getD [])
  responseTypeName := some (method.responseType.getD [])
  httpMapping := method.httpMapping
  description := metadata.methodDescriptions.get method.path
  deprecated := some ((metadata.methodDeprecations.get method.path).getD false)
  sessionType := none
  actionName := none
  requestStream := method.requestStream
  responseStream := method.responseStream

/-- The registry after `SchemaReflectionInitializer.initialize`. -/
def initializeSchemas (metadata : ProtoMetadata) (pkgDefs : List DefinitionEntry)
    (registry : SchemaRegistry) : SchemaRegistry :=
  (extractMethodsFromPkgDefs pkgDefs).foldl
    (fun registry method => registry.register (registeredMethod metadata method)) registry

end DiiaApp
