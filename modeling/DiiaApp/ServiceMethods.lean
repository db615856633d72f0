import DiiaApp.Metadata

/-!
# Methods of the configured services

`GrpcService` provides an implementation for each method of a service: the actions of the method's
original name by their versions. It writes the method into these actions, which are the same objects
for the methods of one name in all services. The server takes the services in their order and leads
a call to what is provided for its path.
-/

namespace DiiaApp

open Js

variable {N ι : Type}

/-- A method of a loaded definition, `originalName` being empty where it is there but `undefined`.
-/
structure MethodDefinition where
  originalName : Option JsString
  path : Option JsString
  requestStream : Bool
  responseStream : Bool

inductive GrpcMethodType
  | unary
  | clientStream
  | serverStream
  | bidiStream
  deriving DecidableEq

def getMethodType (method : MethodDefinition) : GrpcMethodType :=
  if !method.requestStream && !method.responseStream then .unary
  else if !method.requestStream && method.responseStream then .serverStream
  else if method.requestStream && !method.responseStream then .clientStream
  else .bidiStream

/-- The actions of the application, each an object of its own. -/
structure AppActions (ι : Type) where
  actionList : List ι
  name : ι → JsString
  actionVersion : ι → Option ActionVersion

/-- The path of the `grpcMethod` of each action, and what is provided for each method's path. -/
structure Provided (ι : Type) where
  grpcMethods : ι → Option JsString
  implementations : List (JsString × Js.Map ActionVersion ι)

namespace AppActions

variable [DecidableEq ι] (a : AppActions ι)

/-- What `provideAppActions` writes: the method into each action of the name. -/
def setGrpcMethod (actionName path : JsString) (grpcMethods : ι → Option JsString) :
    ι → Option JsString :=
  fun i => if i ∈ a.actionList ∧ a.name i = actionName then some path else grpcMethods i

/-- One turn of the loop of `provideGrpcServiceImplementation`. -/
def provideMethod (provided : Provided ι) (method : MethodDefinition) :
    Except (Thrown N) (Provided ι) :=
  match method.originalName, method.path with
  | some originalName, some path =>
    if originalName = [] then
      throwNative .error (js "Original name in method object is undefined")
    else if getMethodType method = .clientStream then
      throwNative .error (js "Client streaming not supported")
    else
      (provideAppActions a.actionVersion (a.actionList.map fun i => (a.name i, i))
        originalName).map fun actions =>
          { grpcMethods := a.setGrpcMethod originalName path provided.grpcMethods
            implementations := provided.implementations ++ [(path, actions)] }
  | _, _ => .ok provided

/-- The services of the configuration, one after the other. -/
def provideServices (grpcMethods : ι → Option JsString) (services : List (List MethodDefinition)) :
    Except (Thrown N) (Provided ι) :=
  services.flatten.foldlM a.provideMethod ⟨grpcMethods, []⟩

end AppActions

end DiiaApp
