import DiiaApp.Js.Map
import DiiaApp.ProtoTree

/-!
# The dynamic gRPC client

`getSchema` asks the reflection service of an address for the files of a service and builds a root
of their objects. `resolveAllTypes` then asks for each type that a field names and that is not
found, up to ten rounds, and puts a placeholder where a request fails. The root is kept, and `call`
takes the types of its request and its response from it.

What the reflection answers under a symbol is given by the call (`Reflection`), and `protobufjs`
by the functions the client uses of it (`Protobuf`).
-/

namespace DiiaApp

open Js

/-- `protobufjs` on the bytes `β` of file descriptors and the descriptors `φ` in them. Nothing
stands where it throws. -/
structure Protobuf (β φ : Type) where
  decode : β → Option φ
  fromDescriptor : List φ → Option ParsedRoot
  lookupTypeOrEnum : ProtoObject → DottedName → Option ProtoObject
  lookupType : ProtoObject → DottedName → Option ProtoObject
  lookupService : ProtoObject → DottedName → Option ProtoObject

/-- What `fetchFileDescriptors` gives for each symbol, nothing where it rejects. -/
abbrev Reflection (β : Type) := DottedName → Option (List β)

/-- A symbol that was asked for and what came. -/
structure Fetch (β : Type) where
  typeName : DottedName
  descriptors : Option (List β)

variable {β φ : Type} (pb : Protobuf β φ)

def mergeDescriptorsIntoRoot (root : ProtoObject) (fileDescriptors : List β) : ProtoObject :=
  match fileDescriptors.filterMap pb.decode with
  | [] => root
  | decoded =>
    match pb.fromDescriptor decoded with
    | some parsed => mergeAllInto root parsed.root.nested
    | none => root

def buildProtoRoot (fileDescriptors : List β) : ProtoObject :=
  mergeDescriptorsIntoRoot pb emptyRoot fileDescriptors

/-- The descriptors that came for a type in the root, or a placeholder for it. -/
def takeIn (root : ProtoObject) (fetch : Fetch β) : ProtoObject :=
  match fetch.descriptors with
  | some descriptors => mergeDescriptorsIntoRoot pb root descriptors
  | none => createPlaceholderType root fetch.typeName

def findUnresolvedTypes (root : ProtoObject) : List DottedName :=
  (checkNamespace root).eraseDups.filter fun typeName => (pb.lookupTypeOrEnum root typeName).isNone

/-- A root and the types asked for so far, `fetchedTypes`. -/
structure Resolution where
  root : ProtoObject
  fetchedTypes : List DottedName

def typesToFetch (r : Resolution) : List DottedName :=
  (findUnresolvedTypes pb r.root).filter fun typeName => typeName ∉ r.fetchedTypes

variable (reflection : Reflection β)

/-- The fetches of some types in turn. -/
def fetchesOf (typeNames : List DottedName) : List (Fetch β) :=
  typeNames.map fun typeName => ⟨typeName, reflection typeName⟩

/-- One round: the types that are to be fetched are, in turn. -/
def fetchRound (r : Resolution) : Resolution :=
  ⟨(fetchesOf reflection (typesToFetch pb r)).foldl (takeIn pb) r.root,
    r.fetchedTypes ++ typesToFetch pb r⟩

/-- At most `n` rounds, none once there is nothing to fetch. -/
def resolveAllTypes : ℕ → Resolution → Resolution
  | 0, r => r
  | n + 1, r => if typesToFetch pb r = [] then r else resolveAllTypes n (fetchRound pb reflection r)

def maxIterations : ℕ := 10

/-- The schema of a service that is not kept yet, nothing where its first request fails. -/
def loadSchema (serviceName : DottedName) : Option Resolution :=
  (reflection serviceName).map fun fileDescriptors =>
    resolveAllTypes pb reflection maxIterations ⟨buildProtoRoot pb fileDescriptors, []⟩

/-- `schemaCache`, by address and service. -/
structure DynamicClient where
  schemaCache : Js.Map JsString ProtoObject

/-- What a call asks of `getSchema`, and what the reflection answers while it does. -/
structure SchemaRequest (β : Type) where
  address : JsString
  serviceName : DottedName
  reflection : Reflection β

def SchemaRequest.cacheKey (request : SchemaRequest β) : JsString :=
  request.address ++ js ":" ++ List.intercalate (js ".") request.serviceName

namespace DynamicClient

/-- `new DynamicGrpcClient()` -/
def new : DynamicClient := ⟨.empty⟩

def getSchema (client : DynamicClient) (request : SchemaRequest β) :
    DynamicClient × Option ProtoObject :=
  match client.schemaCache.get request.cacheKey with
  | some cached => (client, some cached)
  | none =>
    match loadSchema pb request.reflection request.serviceName with
    | some r => (⟨client.schemaCache.set request.cacheKey r.root⟩, some r.root)
    | none => (client, none)

end DynamicClient

def ProtoKind.methods : ProtoKind → List ServiceMethod
  | .service methods => methods
  | _ => []

/-- `RequestType` and `ResponseType`. -/
structure MethodTypes where
  request : ProtoObject
  response : ProtoObject

def getMethodTypes (root : ProtoObject) (serviceName : DottedName) (methodName : JsString) :
    Option MethodTypes := do
  let service ← pb.lookupService root serviceName
  let methodDef ← service.data.methods.find? (·.name = methodName)
  let request ← pb.lookupType root methodDef.requestType
  let response ← pb.lookupType root methodDef.responseType
  return ⟨request, response⟩

/-- A call up to the types it encodes its request and decodes its response with, and the root that
they are of. Nothing stands where it throws before. -/
def DynamicClient.call (client : DynamicClient) (request : SchemaRequest β)
    (methodName : JsString) : DynamicClient × Option (ProtoObject × MethodTypes) :=
  let schema := client.getSchema pb request
  (schema.1, schema.2.bind fun root =>
    (getMethodTypes pb root request.serviceName methodName).map fun types => (root, types))

end DiiaApp
