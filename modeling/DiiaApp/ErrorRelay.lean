import DiiaApp.RpcError

/-!
# Errors over several services

An error thrown in one service reaches the service that called it over gRPC or over Moleculer, and
an action that throws on what it received sends it one hop further.
-/

namespace DiiaApp

open Js

variable {N : Type}

/-- How one service calls the next. Over gRPC the server has metadata of its own for the response,
and `reject` is what the channel throws for an error response. -/
inductive Hop (N : Type)
  | grpc (responseMetadata : Metadata) (reject : ServerErrorResponse → Thrown N)
  | moleculer

/-- What a caller whose error handler ends so throws. -/
def thrownBy : Except (Thrown N) (ApiError N) → Thrown N
  | .ok e => .api e
  | .error err => err

/-- What the caller throws for what the called service threw, nothing where it gets no answer. -/
def hopStep (p : Packages N) [JsNumber N] (thrown : Thrown N) : Hop N → Option (Thrown N)
  | .grpc responseMetadata reject =>
    match mapApiErrorToRpcError p (handleError p thrown) responseMetadata with
    | .error _ => none
    | .ok response =>
      some (thrownBy (errorHandlerMiddleware p (reject response) (some response.metadata)))
  | .moleculer => some (thrownBy (actCatch p thrown))

end DiiaApp
