import DiiaApp.Errors
import DiiaApp.Steps

/-!
# Calls to the reflection service

`fetchFileDescriptors` asks for the files of a symbol on a stream, with a timer running. What the
service sends, an error, the end of the stream and the timer come in any order and number. A promise
that has settled stays as it is, and a timer that was cleared or has fired fires no more.
-/

namespace DiiaApp

open Js

structure ErrorResponse where
  error_code : ℤ
  error_message : JsString

/-- `file_descriptor_response` is its `file_descriptor_proto`, nothing where either is missing. -/
structure FileDescriptorResponse (β : Type) where
  file_descriptor_response : Option (List β)
  error_response : Option ErrorResponse

/-- What happens on a call. -/
inductive ReflectionEvent (β : Type)
  | data (response : FileDescriptorResponse β)
  | error (err : NativeError)
  | end
  | timeout

/-- What a call asks for, and how long it waits. -/
structure ReflectionRequest where
  symbolName : JsString
  reflectionTimeoutMs : ℕ

structure ReflectionCall (β : Type) where
  fileDescriptors : List β
  /-- The timer is running. -/
  timeout : Bool
  /-- The client has ended its side of the stream. -/
  ended : Bool
  promise : Option (Except NativeError (List β))

variable {β : Type}

namespace ReflectionCall

/-- `new Promise`, with the timer set and the request written. -/
def start : ReflectionCall β := ⟨[], true, false, none⟩

def clearTimeout (call : ReflectionCall β) : ReflectionCall β := { call with timeout := false }

/-- `call.end()` -/
def endCall (call : ReflectionCall β) : ReflectionCall β := { call with ended := true }

/-- The promise settles, unless it has. -/
def settle (result : Except NativeError (List β)) (call : ReflectionCall β) : ReflectionCall β :=
  { call with promise := call.promise.or (some result) }

/-- `reject(new Error(message))` -/
def rejectWith (message : JsString) : ReflectionCall β → ReflectionCall β :=
  settle (.error ⟨.error, message⟩)

end ReflectionCall

namespace ReflectionRequest

open ReflectionCall

variable (request : ReflectionRequest)

def timeoutMessage : JsString :=
  js "Reflection timeout after " ++ decimal request.reflectionTimeoutMs ++ js "ms for symbol "
    ++ request.symbolName

def errorMessage (response : ErrorResponse) : JsString :=
  js "Reflection error: " ++ response.error_message

def emptyMessage : JsString :=
  js "No file descriptors received for symbol " ++ request.symbolName

def onTimeout (call : ReflectionCall β) : ReflectionCall β :=
  { call with timeout := false }.endCall.rejectWith request.timeoutMessage

def onData (response : FileDescriptorResponse β) (call : ReflectionCall β) : ReflectionCall β :=
  match response.error_response with
  | some err => call.clearTimeout.endCall.rejectWith (errorMessage err)
  | none =>
    match response.file_descriptor_response with
    | some descriptors =>
      { call with fileDescriptors := call.fileDescriptors ++ descriptors }.endCall
    | none => call

def onError (err : NativeError) (call : ReflectionCall β) : ReflectionCall β :=
  call.clearTimeout.settle (.error err)

def onEnd (call : ReflectionCall β) : ReflectionCall β :=
  if call.fileDescriptors = [] then call.clearTimeout.rejectWith request.emptyMessage
  else call.clearTimeout.settle (.ok call.fileDescriptors)

/-- One event. The timer fires only while it runs. -/
def fetchStep (call : ReflectionCall β) : ReflectionEvent β → Option (ReflectionCall β)
  | .data response => some (onData response call)
  | .error err => some (onError err call)
  | .end => some (request.onEnd call)
  | .timeout => if call.timeout then some (request.onTimeout call) else none

end ReflectionRequest

end DiiaApp
