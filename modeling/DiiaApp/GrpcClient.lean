import DiiaApp.Metadata
import Mathlib.Logic.Function.Basic

/-!
# The metadata of client calls

`GrpcClientFactory.metadataMiddleware` writes into the `Metadata` object its caller passes: the log
data of the async context where the object has no entry yet, and in any case the tracing of the call
and the name of the service. The object is held by reference, so calls may share it, and so may the
options that hold it; a heap says which do.
-/

namespace DiiaApp

open Js

variable {N : Type}

/-- What the `Metadata` of the client makes of a key, and what its `set` stores for a value, nothing
where it throws. -/
structure MetadataRules (N : Type) where
  normalizeKey : JsString → JsString
  stored : JsString → Value N → Option (List JsString)

abbrev OptionsRef := ℕ

abbrev MetadataRef := ℕ

/-- The options of calls and the metadata they hold. -/
structure ClientHeap where
  metadataOf : OptionsRef → Option MetadataRef
  objects : MetadataRef → Metadata
  next : MetadataRef
  allocated : ∀ o r, metadataOf o = some r → r < next

/-- A call of the client, `logData` being that of its own async context and `tracing` what is
injected for it. -/
structure ClientCall (N : Type) where
  options : OptionsRef
  logData : List (JsString × Value N)
  tracing : List (JsString × JsString)

/-- The metadata that the options hold, new where they hold none. -/
def ClientHeap.metadata (heap : ClientHeap) (o : OptionsRef) : Metadata :=
  match heap.metadataOf o with
  | some r => heap.objects r
  | none => Js.Map.empty

/-- The heap once the options hold the metadata `m`. -/
def ClientHeap.store (heap : ClientHeap) (o : OptionsRef) (m : Metadata) : ClientHeap :=
  match heap.metadataOf o with
  | some r => { heap with objects := Function.update heap.objects r m }
  | none =>
    { metadataOf := Function.update heap.metadataOf o (some heap.next)
      objects := Function.update heap.objects heap.next m
      next := heap.next + 1
      allocated := by
        intro o' r hr
        rw [Function.update_apply] at hr
        split_ifs at hr
        · exact Option.some.inj hr ▸ Nat.lt_succ_self _
        · exact Nat.lt_succ_of_lt (heap.allocated o' r hr) }

section Set

variable (rules : MetadataRules N)

def setMetadata (key : JsString) (value : Value N) (m : Metadata) :
    Except (Thrown N) Unit × Metadata :=
  match rules.stored key value with
  | some values => (.ok (), m.set (rules.normalizeKey key) values)
  | none => (throwNative .error (js "Metadata value contains illegal characters"), m)

/-- The values set in turn, until one throws. -/
def setAll : List (JsString × Value N) → Metadata → Except (Thrown N) Unit × Metadata
  | [], m => (.ok (), m)
  | (key, value) :: es, m =>
    match setMetadata rules key value m with
    | (.error err, m') => (.error err, m')
    | (.ok (), m') => setAll es m'

variable [JsNumber N]

/-- The log data set where the metadata has nothing under the key. -/
def setLogData : List (JsString × Value N) → Metadata → Except (Thrown N) Unit × Metadata
  | [], m => (.ok (), m)
  | (key, value) :: es, m =>
    if key ≠ js "actionVersion" ∧ value.truthy ∧ ¬ m.has (rules.normalizeKey key) then
      match setMetadata rules key value m with
      | (.error err, m') => (.error err, m')
      | (.ok (), m') => setLogData es m'
    else setLogData es m

end Set

variable (p : Packages N) (systemServiceName : JsString)

/-- A property of the injected tracing, where it is set and not empty. -/
def tracingProperty (call : ClientCall N) (key : JsString) : Option JsString :=
  nonEmpty (Js.Map.find key call.tracing)

/-- The entries set whatever the metadata has. -/
def ownEntries [JsNumber N] (call : ClientCall N) : List (JsString × Value N) :=
  [(p.grpcMetadataKeys .tracing,
      .str (Json.print (.obj (call.tracing.map fun e => (e.1, (.str e.2 : Json N))))))]
    ++ ((tracingProperty call (js "traceparent")).map fun text =>
        (p.grpcMetadataKeys .traceParent, Value.str text)).toList
    ++ ((tracingProperty call (js "tracestate")).map fun text =>
        (p.grpcMetadataKeys .traceState, Value.str text)).toList
    ++ [(p.grpcMetadataKeys .sentFrom, .str systemServiceName)]

variable [JsNumber N] (rules : MetadataRules N)

/-- The metadata of a call written, until a value throws. -/
def writeMetadata (call : ClientCall N) (m : Metadata) : Except (Thrown N) Unit × Metadata :=
  match setLogData rules call.logData m with
  | (.error err, m') => (.error err, m')
  | (.ok (), m') => setAll rules (ownEntries p systemServiceName call) m'

/-- What a call sends from the metadata it is given, nothing where a value throws. -/
def sentMetadata (call : ClientCall N) (m : Metadata) : Option Metadata :=
  match writeMetadata p systemServiceName rules call m with
  | (.error _, _) => none
  | (.ok (), m') => some m'

/-- The heap after a call. Metadata made for the call is put into its options only where no value
throws. -/
def metadataMiddleware (heap : ClientHeap) (call : ClientCall N) : ClientHeap :=
  match writeMetadata p systemServiceName rules call (heap.metadata call.options) with
  | (.error _, m) =>
    if (heap.metadataOf call.options).isSome then heap.store call.options m else heap
  | (.ok (), m) => heap.store call.options m

end DiiaApp
