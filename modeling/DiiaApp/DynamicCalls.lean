import DiiaApp.Dependencies
import DiiaApp.DynamicClient
import DiiaApp.Pool
import DiiaApp.Steps

/-!
# Calls of the dynamic client at once

`DynamicGrpcClient.call` waits for the reflection service once for each symbol and for the response
at the end, and between any two of its waits other calls go on, or the client is closed. A call goes
from one wait to the next in one step; where it only awaits what is there already, that is a wait
too. The clients of an address are made when they are first asked for (`Pool`).
-/

namespace DiiaApp

open Js

structure MethodPath where
  serviceName : JsString
  methodName : JsString
  deriving DecidableEq

/-- `/^\/(.+)\/([^/]+)$/`, nothing where the path does not match and the call throws. -/
def parseMethodPath : JsString → Option MethodPath
  | [] => none
  | u :: rest =>
    if u = pathSep then
      match beforeLast pathSep rest with
      | none => none
      | some serviceName =>
        let methodName := afterLast pathSep rest
        if serviceName ≠ [] ∧ methodName ≠ [] ∧ ¬ serviceName.any isLineTerminator then
          some ⟨serviceName, methodName⟩
        else none
    else none

def MethodPath.cacheKey (path : MethodPath) (address : JsString) : JsString :=
  address ++ js ":" ++ path.serviceName

/-- The name of the service in parts, as it is asked for and looked up. -/
def MethodPath.service (path : MethodPath) : DottedName := splitText (js ".") path.serviceName

/-- A client of an address is one for its reflection service or one for its methods. -/
inductive ClientRole
  | reflection
  | methods
  deriving DecidableEq

/-- A request that was sent, over the client of its number. -/
structure SentRequest where
  role : ClientRole
  address : JsString
  client : ℕ
  deriving DecidableEq

/-- Where a call waits. -/
inductive CallState
  /-- For the descriptors of its service. -/
  | first
  /-- For the descriptors of a type, with the rest of its round and the rounds left. -/
  | fetching (r : Resolution) (rounds : ℕ) (typeName : DottedName) (rest : List DottedName)
  /-- For `resolveAllTypes`, which has ended. -/
  | resolved (root : ProtoObject)
  /-- For `getSchema`, which has a root. -/
  | ready (root : ProtoObject)
  /-- For the response. -/
  | sent (root : ProtoObject) (types : MethodTypes)
  /-- For nothing: the call has returned or thrown. -/
  | over

structure DynamicCall (β : Type) where
  address : JsString
  path : MethodPath
  /-- Whether `encodeRequest` takes the body. -/
  encodes : MethodTypes → Bool
  /-- The symbols that were asked for so far and what came. -/
  answers : List (Fetch β)
  state : CallState

structure DynamicSystem (β : Type) where
  schemaCache : Js.Map JsString ProtoObject
  reflectionClientCache : Pool JsString
  clientCache : Pool JsString
  calls : List (DynamicCall β)
  requests : List SentRequest

inductive DynamicEvent (β : Type)
  | call (address method : JsString) (encodes : MethodTypes → Bool)
  /-- The reflection answers a call, or fails it. -/
  | answer (i : ℕ) (descriptors : Option (List β))
  /-- A call that awaits what is there goes on. -/
  | resume (i : ℕ)
  | respond (i : ℕ)
  | close

variable {β φ : Type} (pb : Protobuf β φ)

/-- The symbol that a call waits for. -/
def DynamicCall.symbol? (call : DynamicCall β) : Option DottedName :=
  match call.state with
  | .first => some call.path.service
  | .fetching _ _ typeName _ => some typeName
  | _ => none

/-- `resolveAllTypes` before a round. -/
def beginRound (n : ℕ) (r : Resolution) : CallState :=
  match n with
  | 0 => .resolved r.root
  | n + 1 =>
    match typesToFetch pb r with
    | [] => .resolved r.root
    | typeName :: rest => .fetching ⟨r.root, r.fetchedTypes ++ [typeName]⟩ n typeName rest

/-- `resolveAllTypes` before a type of a round, or past the last. -/
def nextType (n : ℕ) (r : Resolution) : List DottedName → CallState
  | [] => beginRound pb n r
  | typeName :: rest => .fetching ⟨r.root, r.fetchedTypes ++ [typeName]⟩ n typeName rest

/-- Where a call waits once the symbol it waits for is answered. -/
def CallState.answered (descriptors : Option (List β)) : CallState → CallState
  | .first =>
    match descriptors with
    | some fileDescriptors => beginRound pb maxIterations ⟨buildProtoRoot pb fileDescriptors, []⟩
    | none => .over
  | .fetching r n typeName rest =>
    nextType pb n ⟨takeIn pb r.root ⟨typeName, descriptors⟩, r.fetchedTypes⟩ rest
  | state => state

namespace DynamicSystem

/-- `new DynamicGrpcClient()` -/
def new : DynamicSystem β := ⟨.empty, .empty, .empty, [], []⟩

def pool (s : DynamicSystem β) : ClientRole → Pool JsString
  | .reflection => s.reflectionClientCache
  | .methods => s.clientCache

/-- `getOrCreateReflectionClient`, and the request for a symbol over it. -/
def requestSymbol (s : DynamicSystem β) (address : JsString) : DynamicSystem β :=
  let acquired := s.reflectionClientCache.acquire address
  { s with
    reflectionClientCache := acquired.1
    requests := s.requests ++ [⟨.reflection, address, acquired.2⟩] }

/-- `executeCall` up to its wait: `getOrCreateClient`, and the request over it. -/
def requestMethod (s : DynamicSystem β) (address : JsString) : DynamicSystem β :=
  let acquired := s.clientCache.acquire address
  { s with
    clientCache := acquired.1
    requests := s.requests ++ [⟨.methods, address, acquired.2⟩] }

/-- A call asks for the symbol that it waits for next, if any. -/
def asking (s : DynamicSystem β) (call : DynamicCall β) : DynamicSystem β :=
  if call.symbol?.isSome then s.requestSymbol call.address else s

/-- A call that starts, where its path parses. -/
def started (s : DynamicSystem β) (address : JsString) (path : MethodPath)
    (encodes : MethodTypes → Bool) : DynamicCall β :=
  match s.schemaCache.get (path.cacheKey address) with
  | some cached => ⟨address, path, encodes, [], .ready cached⟩
  | none => ⟨address, path, encodes, [], .first⟩

def begin (s : DynamicSystem β) (call : DynamicCall β) : DynamicSystem β :=
  let s := s.asking call
  { s with calls := s.calls ++ [call] }

def goOn (s : DynamicSystem β) (i : ℕ) (call : DynamicCall β) : DynamicSystem β :=
  let s := s.asking call
  { s with calls := s.calls.set i call }

/-- A call that awaits what is there goes on; nothing where it awaits something else. -/
def resumed (s : DynamicSystem β) (i : ℕ) (call : DynamicCall β) : Option (DynamicSystem β) :=
  match call.state with
  | .resolved root =>
    let s := { s with schemaCache := s.schemaCache.set (call.path.cacheKey call.address) root }
    some (s.goOn i { call with state := .ready root })
  | .ready root =>
    match getMethodTypes pb root call.path.service call.path.methodName with
    | none => some (s.goOn i { call with state := .over })
    | some types =>
      if call.encodes types then
        some ((s.requestMethod call.address).goOn i { call with state := .sent root types })
      else some (s.goOn i { call with state := .over })
  | _ => none

/-- `close()` -/
def close (s : DynamicSystem β) : DynamicSystem β :=
  { s with
    schemaCache := .empty
    reflectionClientCache := s.reflectionClientCache.closeAll
    clientCache := s.clientCache.closeAll }

def step (s : DynamicSystem β) : DynamicEvent β → Option (DynamicSystem β)
  | .call address method encodes =>
    match parseMethodPath method with
    | none => some s
    | some path => some (s.begin (s.started address path encodes))
  | .answer i descriptors => do
    let call ← s.calls[i]?
    let symbol ← call.symbol?
    return s.goOn i { call with
      answers := call.answers ++ [⟨symbol, descriptors⟩]
      state := call.state.answered pb descriptors }
  | .resume i => do s.resumed pb i (← s.calls[i]?)
  | .respond i => do
    let call ← s.calls[i]?
    match call.state with
    | .sent _ _ => return s.goOn i { call with state := .over }
    | _ => none
  | .close => some s.close

end DynamicSystem

end DiiaApp
