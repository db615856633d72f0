import DiiaApp.Proofs.Sendable
import DiiaApp.StandIn
import DiiaApp.UnaryCall

/-!
# Unary calls are answered once

The callback of a unary call is called at most once, and with what the action made of the call; it is
called at all where the name of the service is a legal metadata value and the error that reached the
handler, if one did, is `Sendable`.
-/

namespace DiiaApp

open Js Metadata

variable {N : Type}

/-- The callback is called once: with the response, or with an error where there is none. -/
def AnsweredOnce (result : Except (Thrown N) (Value N)) (answers : List (Answer N)) : Prop :=
  match result with
  | .ok response => answers = [.response response]
  | .error _ => ∃ e, answers = [.error e]

variable [JsNumber N]

/-- A unary call is answered once, with the response exactly where its action resolved, if and only
if the service name is legal and the error to answer with is sendable. -/
theorem unary_answered {p : Packages N} (hl : p.Leafwise) (systemServiceName : JsString)
    (actions : Js.Map ActionVersion (UnaryAction N)) (input : UnaryInput N) :
    AnsweredOnce (unaryResponse p actions input)
        (provideGrpcMethodImplementation p systemServiceName actions input).1 ↔
      isLegal systemServiceName ∧
        ∀ err, unaryResponse p actions input = .error err → Sendable p (handleError p err) := by
  unfold provideGrpcMethodImplementation AnsweredOnce
  rcases hm : setChecked (N := N) Js.Map.empty (p.grpcMetadataKeys .handledBy) systemServiceName
    with e | m
  · -- the name of the service is refused before anything is tried
    have hname : ¬ isLegal systemServiceName := fun h => by
      have := hm.symm.trans (setChecked_ok.2 ⟨h, rfl⟩)
      simp at this
    rcases unaryResponse p actions input with err | response <;> simp [hname]
  have hname := (setChecked_ok.1 hm).1
  rcases unaryResponse p actions input with err | response
  · simp only [hname, true_and, Except.error.injEq, forall_eq',
      ← mapApiErrorToRpcError_ok hl (handleError p err) m]
    rcases mapApiErrorToRpcError p (handleError p err) m with e | rpcError <;> simp
  · simp [hname]

/-- A call to a service whose one action throws an error with the data `data`. -/
def callThrowing (data : Value ℤ) : Except (Thrown ℤ) (Value ℤ) × List (Answer ℤ) :=
  let actions := Js.Map.empty.set v1
    ⟨none, fun _ => .error (.api ⟨js "ApiError", js "no", 400, js "Operated", data⟩)⟩
  let input := ⟨Js.Map.empty, .obj [], js "t"⟩
  (unaryResponse standIn actions input,
    (provideGrpcMethodImplementation standIn (js "service") actions input).1)

theorem unary_answered_error :
    AnsweredOnce (callThrowing (.obj [])).1 (callThrowing (.obj [])).2 := by
  refine (unary_answered standIn_leafwise (js "service") _ _).2 ⟨by decide, ?_⟩
  rintro err h
  obtain rfl := Except.error.inj h
  exact ⟨by decide, fun h => absurd h (by decide), plain_of_units (by decide),
    .inl (encodable_iff.1 ⟨js "no", by decide⟩), plain_of_units (by decide), trivial,
    fun h => absurd h (by decide)⟩

/-- The data of the error holds a `bigint`, which `JSON.stringify` rejects. -/
theorem unary_unanswered :
    ¬ AnsweredOnce (callThrowing (.obj [(js "n", .bigint 1)])).1
      (callThrowing (.obj [(js "n", .bigint 1)])).2 := by
  have hnone : (callThrowing (.obj [(js "n", .bigint 1)])).2.length = 0 := by decide
  rintro ⟨e, h⟩
  rw [h] at hnone
  simp at hnone

end DiiaApp
