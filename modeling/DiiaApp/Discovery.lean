import DiiaApp.Dependencies
import DiiaApp.NameTree
import DiiaApp.SchemaService
import DiiaApp.ServiceMethods

/-!
# Services that can be discovered

When the server starts it registers the methods of its protos with their schemas and what is written
of them (`extractMethods`), looks its configured services up and provides their methods, telling the
registry of the actions of each. A client asks for what is registered with an action; the answer
goes through `schema-reflection.proto`, where a text that is left out comes as an empty one.
-/

namespace DiiaApp

open Js

/-- A name in a proto, free of what separates the parts of a path. -/
abbrev ProtoName := { s : JsString // s ≠ [] ∧ dot ∉ s ∧ pathSep ∉ s }

/-- A method with the comment on it and its option `deprecated`. -/
structure ProtoMethod where
  name : ProtoName
  comment : Option JsString
  deprecated : Bool

/-- A `namespace` is any object that can have others in it, but for services. -/
inductive NamespaceKind
  | service (methods : List ProtoMethod)
  | namespace
  | other

abbrev NamespaceObject := NameTree ProtoName NamespaceKind

structure MethodMetadata where
  fullPath : JsString
  description : Option JsString
  deprecated : Bool

/-- The ASCII letters in lower case. -/
def lowerUnit (u : CodeUnit) : CodeUnit := if 65 ≤ u.toNat ∧ u.toNat ≤ 90 then u + 32 else u

/-- `[\t ]*@deprecated\b` at the start of a line. -/
def isDeprecatedLine (line : JsString) : Bool :=
  let text := line.dropWhile fun u => u = 9 ∨ u = 32
  (text.take 11).map lowerUnit = js "@deprecated" ∧ ¬ (text.drop 11).head?.any isWordUnit

/-- `/^[\t ]*@deprecated\b/im` -/
def deprecatedPattern (comment : JsString) : Bool :=
  (comment.splitOnP isLineTerminator).any isDeprecatedLine

/-- The path of an object in one of a path, which is empty for the root. -/
def pathUnder (parentPath : JsString) (name : ProtoName) : JsString :=
  if parentPath = [] then name else parentPath ++ [dot] ++ name

def methodPath (servicePath : JsString) (method : ProtoName) : JsString :=
  [pathSep] ++ servicePath ++ [pathSep] ++ method

/-- The metadata of a method, with `extractDeprecation`. -/
def methodMetadata (servicePath : JsString) (method : ProtoMethod) : MethodMetadata :=
  let description := nonEmpty method.comment
  { fullPath := methodPath servicePath method.name
    description := description
    deprecated := method.deprecated || description.any deprecatedPattern }

mutual

def methodsOf (parentPath : JsString) : NamespaceObject → List MethodMetadata
  | .mk name (.service methods) _ => methods.map (methodMetadata (pathUnder parentPath name))
  | .mk name .namespace nested => methodsIn (pathUnder parentPath name) nested
  | .mk _ .other _ => []

/-- `processNamespace` for the methods. -/
def methodsIn (parentPath : JsString) : List NamespaceObject → List MethodMetadata
  | [] => []
  | o :: os => methodsOf parentPath o ++ methodsIn parentPath os

end

def extractMethods (nested : List NamespaceObject) : List MethodMetadata := methodsIn [] nested

def setDescription (descriptions : Js.Map JsString JsString) (method : MethodMetadata) :
    Js.Map JsString JsString :=
  match method.description with
  | some description => descriptions.set method.fullPath description
  | none => descriptions

def setDeprecation (deprecations : Js.Map JsString Bool) (method : MethodMetadata) :
    Js.Map JsString Bool :=
  if method.deprecated then deprecations.set method.fullPath true else deprecations

/-- What `extract` gives besides the methods, the comments of fields and messages given. -/
def protoMetadata (root : ProtoRoot) (comments : Comments) (nested : List NamespaceObject) :
    ProtoMetadata where
  root := root
  comments := comments
  methodDescriptions := (extractMethods nested).foldl setDescription .empty
  methodDeprecations := (extractMethods nested).foldl setDeprecation .empty

def HTTP_METHODS : List String := ["get", "post", "put", "delete", "patch"]

/-- `extractHttpMapping` of the `(google.api.http)` among the options of a method. -/
def extractHttpMapping (httpRule : Option (Js.Map JsString JsString)) : Option HttpMapping :=
  httpRule.bind fun httpRule =>
    HTTP_METHODS.findSome? fun method =>
      (nonEmpty (httpRule.get (js method))).map fun path => ⟨js method.toUpper, path⟩

inductive GrpcKind
  | namespace
  | service (definition : List MethodDefinition)
  | other

/-- A loaded package definition as `loadPackageDefinition` nests it. -/
abbrev GrpcObject := NameTree JsString GrpcKind

/-- One part of a service's path, looked up in the object so far, or in the root where there is
none. -/
def lookUpPart (serviceProto : GrpcObject) (serviceDefinition : Option GrpcObject)
    (part : JsString) : Option GrpcObject :=
  (serviceDefinition.getD serviceProto).child part

def lookUpPath (serviceProto : GrpcObject) (subpath : List JsString) : Option GrpcObject :=
  subpath.foldl (lookUpPart serviceProto) none

variable {N ι : Type}

def findService (serviceProto : GrpcObject) (service : JsString) :
    Except (Thrown N) (List MethodDefinition) :=
  match lookUpPath serviceProto (splitText (js ".") service) with
  | some (.mk _ (.service definition) _) => .ok definition
  | _ => throwNative .error (js "Unable to find service definition for " ++ service)

/-- The session types of an action: one or several. -/
abbrev SessionTypes := JsString ⊕ List JsString

def sessionTypeText : SessionTypes → JsString := Sum.elim id (List.intercalate (js ","))

/-- What is provided, and what the registry is told. -/
structure Started (ι : Type) where
  provided : Provided ι
  registry : SchemaRegistry

namespace AppActions

variable (a : AppActions ι) (sessionType : ι → SessionTypes)

/-- The registry told of each action of a name, under the path of its method. -/
def tellActions (originalName path : JsString) (registry : SchemaRegistry) : SchemaRegistry :=
  (a.actionList.filter fun i => a.name i = originalName).foldl
    (fun registry i => registry.setActionInfo path (a.name i) (sessionTypeText (sessionType i)))
    registry

variable [DecidableEq ι]

/-- A method provided where there is a registry. -/
def startMethod (started : Started ι) (method : MethodDefinition) :
    Except (Thrown N) (Started ι) :=
  (a.provideMethod started.provided method).map fun provided =>
    { provided := provided
      registry :=
        match method.originalName, method.path with
        | some originalName, some path =>
          a.tellActions sessionType originalName path started.registry
        | _, _ => started.registry }

/-- The configured services looked up and provided, one after the other. -/
def startServices (serviceProto : GrpcObject) (services : List JsString) (started : Started ι) :
    Except (Thrown N) (Started ι) :=
  services.foldlM (fun started service => do
    let definition ← findService serviceProto service
    definition.foldlM (a.startMethod sessionType) started) started

end AppActions

/-- An action as the client decodes it, with the defaults of its fields. -/
def ActionSchemaDto.decoded (action : ActionSchemaDto) : ActionSchemaDto :=
  { action with
    requestTypeName := some (action.requestTypeName.getD [])
    responseTypeName := some (action.responseTypeName.getD [])
    description := some (action.description.getD [])
    deprecated := some (action.deprecated.getD false)
    requestStream := some (action.requestStream.getD false)
    responseStream := some (action.responseStream.getD false) }

def ServiceSchemaDto.decoded (response : ServiceSchemaDto) : ServiceSchemaDto :=
  { response with actions := response.actions.map ActionSchemaDto.decoded }

/-- What `fetchSchema` gives where the service answers. -/
def fetchedSchema (N : Type) [JsNumber N] (serviceName version : JsString)
    (registry : SchemaRegistry) : DiscoveredSchema N :=
  transformResponse (handleGetSchemas N serviceName version registry).decoded

end DiiaApp
