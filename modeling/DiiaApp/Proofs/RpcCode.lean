import DiiaApp.Proofs.Sendable
import DiiaApp.StandIn

/-!
# The code of an error response

A failure is sent with a failure code just where its own code is one of the listed failures, or is
not listed and its data has none or has one that is a listed failure (`mapped_code_iff`).
-/

namespace DiiaApp

open Js

/-- The codes that are sent as a success. -/
def successCodes : List ℤ := [102, 200, 201, 202, 204, 206]

/-- The codes with a failure code of their own. -/
def failureCodes : List ℤ := [400, 422, 401, 403, 404, 408, 429, 500, 501, 502, 503, 504, 0]

/-- An integer is written like a listed code just where it is that code. -/
def WritesIntegers (N : Type) [JsNumber N] : Prop :=
  ∀ k : ℤ, ∀ e ∈ httpCodeToGrpcCode, intText e.1 = JsNumber.toText (JsNumber.ofInt k : N) ↔ e.1 = k

/-- The `code` of the data of an error, where it has one, is an integer. -/
def HasDataCode {N : Type} [JsNumber N] (e : ApiError N) : Option ℤ → Prop
  | none => (e.data.prop (js "code")).isNullish
  | some k => e.data.prop (js "code") = .num (JsNumber.ofInt k)

theorem find_code {code : ℤ} {c : GrpcStatusCode} :
    Map.find code httpCodeToGrpcCode = some c ↔ (code, c) ∈ httpCodeToGrpcCode :=
  ⟨Map.mem_of_find, Map.find_of_mem (by decide)⟩

theorem find_failure {code : ℤ} :
    (∃ c, Map.find code httpCodeToGrpcCode = some c ∧ c ≠ .ok) ↔ code ∈ failureCodes := by
  simp only [find_code]
  constructor
  · rintro ⟨c, hm, hc⟩
    have hall : ∀ e ∈ httpCodeToGrpcCode, e.2 ≠ .ok → e.1 ∈ failureCodes := by decide
    exact hall _ hm hc
  · intro hm
    have hall : ∀ k ∈ failureCodes, ∃ e ∈ httpCodeToGrpcCode, e.1 = k ∧ e.2 ≠ .ok := by decide
    obtain ⟨e, he, rfl, hc⟩ := hall code hm
    exact ⟨e.2, he, hc⟩

theorem find_none {code : ℤ} :
    Map.find code httpCodeToGrpcCode = none ↔ code ∉ successCodes ∧ code ∉ failureCodes := by
  have hkeys : httpCodeToGrpcCode.map Prod.fst = successCodes ++ failureCodes := by decide
  rw [Map.find_eq_none, hkeys, List.mem_append, not_or]

section Response

variable {N : Type} [JsNumber N] {p : Packages N}

theorem response_code {e : ApiError N} {m : Metadata} {r : ServerErrorResponse}
    (h : mapApiErrorToRpcError p e m = .ok r) :
    rpcErrorCode e.code (e.data.prop (js "code")) = .ok r.code := by
  obtain ⟨_, -, h⟩ := bind_eq_ok.1 h
  obtain ⟨_, -, h⟩ := bind_eq_ok.1 h
  obtain ⟨_, -, h⟩ := bind_eq_ok.1 h
  obtain ⟨_, -, h⟩ := bind_eq_ok.1 h
  obtain ⟨c, hc, h⟩ := bind_eq_ok.1 h
  rw [hc, ← Except.ok.inj h]

/-- An unlisted code falls back on the code of the data, which is looked up as itself. -/
theorem rpcErrorCode_unlisted (hw : WritesIntegers N) {code k : ℤ}
    (h : Map.find code httpCodeToGrpcCode = none) :
    rpcErrorCode code (.num (JsNumber.ofInt k) : Value N) =
      .ok (Map.find k httpCodeToGrpcCode) := by
  have hname : grpcCodeOfName (JsNumber.toText (JsNumber.ofInt k : N)) =
    Map.find k httpCodeToGrpcCode := Map.find_map_key (hw k)
  rw [← hname, rpcErrorCode, h]
  rfl

/-- An error is sent with a failure code just where its code is a listed failure, or is not listed
and the code of its data, where it has one, is a listed failure. -/
theorem mapped_code_iff (hw : WritesIntegers N) {e : ApiError N} {dataCode : Option ℤ}
    (hd : HasDataCode e dataCode) {m : Metadata} {r : ServerErrorResponse}
    (h : mapApiErrorToRpcError p e m = .ok r) :
    (∃ c, r.code = some c ∧ c ≠ .ok) ↔ e.code ∈ failureCodes ∨
      e.code ∉ successCodes ∧ ∀ k, dataCode = some k → k ∈ failureCodes := by
  have hr := response_code h
  rcases hf : Map.find e.code httpCodeToGrpcCode with _ | c
  · obtain ⟨hs, hfail⟩ := find_none.1 hf
    rw [or_iff_right hfail, and_iff_right hs]
    cases dataCode with
    | none =>
      have hd : (e.data.prop (js "code")).isNullish := hd
      rw [rpcErrorCode, hf] at hr
      have hcode : r.code = some .unknown := Except.ok.inj (hr.symm.trans (if_pos hd))
      rw [hcode]
      simp
    | some k =>
      rw [show e.data.prop (js "code") = .num (JsNumber.ofInt k) from hd,
        rpcErrorCode_unlisted hw hf] at hr
      rw [← Except.ok.inj hr, find_failure]
      simp
  · rw [rpcErrorCode, hf] at hr
    rw [← Except.ok.inj hr, ← hf, find_failure]
    have hlisted : e.code ∉ successCodes → e.code ∈ failureCodes := fun hs => by
      by_contra hno
      rw [find_none.2 ⟨hs, hno⟩] at hf
      cases hf
    exact ⟨.inl, fun h => h.elim id fun h => hlisted h.1⟩

end Response

theorem writesIntegers_int : WritesIntegers ℤ := fun _ _ _ =>
  ⟨fun h => (Function.LeftInverse.injective intOf_intText) h, congrArg intText⟩

/-- An error with a code of its own in its data. -/
def businessError (code dataCode : ℤ) : ApiError ℤ :=
  ⟨js "ApiError", js "m", code, js "Operated", .obj [(js "code", .num dataCode)]⟩

theorem mapped_code_business : ∃ r, mapApiErrorToRpcError standIn (businessError 409 404) .empty =
    .ok r ∧ ∃ c, r.code = some c ∧ c ≠ .ok := by
  have hd : HasDataCode (businessError 409 404) (some 404) := rfl
  obtain ⟨r, hr⟩ : ∃ r, mapApiErrorToRpcError standIn (businessError 409 404) .empty = .ok r :=
    ⟨_, rfl⟩
  exact ⟨r, hr, (mapped_code_iff writesIntegers_int hd hr).2 (.inr (by decide))⟩

/-- An error whose codes are not listed is sent without a code. -/
theorem not_mapped_code : ¬ ∀ (e : ApiError ℤ) (dataCode : Option ℤ) (m : Metadata)
    (r : ServerErrorResponse), HasDataCode e dataCode → mapApiErrorToRpcError standIn e m = .ok r →
      ∃ c, r.code = some c ∧ c ≠ .ok := by
  intro h
  obtain ⟨c, hc, -⟩ := h (businessError 409 10001) (some 10001) .empty _ rfl rfl
  have hnone : (none : Option GrpcStatusCode) = some c := hc
  cases hnone

end DiiaApp
