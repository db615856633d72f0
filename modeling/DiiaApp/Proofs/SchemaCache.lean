import DiiaApp.DynamicClient

/-!
# The schemas that are kept

Over a run of requests a schema is loaded once for a key: by the first request of the key that finds
none kept and gets one. Every request of the key is answered with that root from then on
(`exists_loader`).
-/

namespace DiiaApp

open Js

variable {β φ : Type} {pb : Protobuf β φ}

/-- The client after some requests. -/
def clientAfter (pb : Protobuf β φ) (requests : List (SchemaRequest β)) : DynamicClient :=
  requests.foldl (fun client request => (client.getSchema pb request).1) .new

/-- The request of a run that loads the schema of a key: none is kept before, and one comes. -/
structure Loads (pb : Protobuf β φ) (requests : List (SchemaRequest β)) (key : JsString)
    (loader : SchemaRequest β) (r : Resolution) : Prop where
  sameKey : loader.cacheKey = key
  first : ∃ pre post, requests = pre ++ loader :: post ∧
    (clientAfter pb pre).schemaCache.get key = none
  loaded : loadSchema pb loader.reflection loader.serviceName = some r

variable {requests : List (SchemaRequest β)} {request : SchemaRequest β} {key : JsString}
  {root : ProtoObject}

theorem clientAfter_concat (requests : List (SchemaRequest β)) (request : SchemaRequest β) :
    clientAfter pb (requests ++ [request]) =
      ((clientAfter pb requests).getSchema pb request).1 := by
  rw [clientAfter, List.foldl_append]
  rfl

theorem Loads.append {loader : SchemaRequest β} {r : Resolution}
    (h : Loads pb requests key loader r) (more : List (SchemaRequest β)) :
    Loads pb (requests ++ more) key loader r := by
  obtain ⟨pre, post, rfl, hn⟩ := h.first
  exact ⟨h.sameKey, ⟨pre, post ++ more, by simp, hn⟩, h.loaded⟩

/-- A request is answered with what is kept, or loads what it is answered with. -/
theorem getSchema_cases {client : DynamicClient}
    (h : (client.getSchema pb request).2 = some root) :
    client.schemaCache.get request.cacheKey = some root ∨
      (client.schemaCache.get request.cacheKey = none ∧
        ∃ r, loadSchema pb request.reflection request.serviceName = some r ∧ r.root = root) := by
  unfold DynamicClient.getSchema at h
  rcases hc : client.schemaCache.get request.cacheKey with _ | cached
  · rw [hc] at h
    rcases hl : loadSchema pb request.reflection request.serviceName with _ | r
    · simp [hl] at h
    · rw [hl] at h
      exact .inr ⟨rfl, r, rfl, Option.some.inj h⟩
  · rw [hc] at h
    exact .inl h

/-- A request whose first answer comes is answered. -/
theorem getSchema_of_answer {client : DynamicClient}
    (h : request.reflection request.serviceName ≠ none) :
    ∃ root, (client.getSchema pb request).2 = some root := by
  obtain ⟨descriptors, hd⟩ := Option.ne_none_iff_exists'.1 h
  unfold DynamicClient.getSchema
  cases client.schemaCache.get request.cacheKey with
  | some cached => exact ⟨cached, rfl⟩
  | none =>
    rw [loadSchema, hd]
    exact ⟨_, rfl⟩

/-- A request changes what is kept under its own key, to what it is answered with. -/
theorem get_getSchema {client : DynamicClient}
    (h : (client.getSchema pb request).1.schemaCache.get key = some root) :
    client.schemaCache.get key = some root ∨
      (key = request.cacheKey ∧ (client.getSchema pb request).2 = some root) := by
  unfold DynamicClient.getSchema at h ⊢
  rcases hc : client.schemaCache.get request.cacheKey with _ | cached
  · rw [hc] at h
    rcases hl : loadSchema pb request.reflection request.serviceName with _ | r
    · rw [hl] at h
      exact .inl h
    · rw [hl] at h
      dsimp only at h ⊢
      rw [Js.Map.get_set] at h
      split_ifs at h with hk
      · exact .inr ⟨hk, h⟩
      · exact .inl h
  · rw [hc] at h
    exact .inl h

/-- What is kept after a run was loaded in it. -/
theorem exists_loader_of_kept (h : (clientAfter pb requests).schemaCache.get key = some root) :
    ∃ loader r, Loads pb requests key loader r ∧ r.root = root := by
  induction requests using List.reverseRecOn with
  | nil => cases h
  | append_singleton requests request ih =>
    rw [clientAfter_concat] at h
    rcases get_getSchema h with h | ⟨rfl, hroot⟩
    · obtain ⟨loader, r, hl, hr⟩ := ih h
      exact ⟨loader, r, hl.append [request], hr⟩
    rcases getSchema_cases hroot with hkept | ⟨hn, r, hl, hr⟩
    · obtain ⟨loader, r, hl, hr⟩ := ih hkept
      exact ⟨loader, r, hl.append [request], hr⟩
    · exact ⟨request, r, ⟨rfl, ⟨requests, [], rfl, hn⟩, hl⟩, hr⟩

/-- What a request is answered with in a run was loaded in it, for the same key. -/
theorem exists_loader (h : ((clientAfter pb requests).getSchema pb request).2 = some root) :
    ∃ loader r, Loads pb (requests ++ [request]) request.cacheKey loader r ∧ r.root = root := by
  rcases getSchema_cases h with h | ⟨hn, r, hl, hr⟩
  · obtain ⟨loader, r, hl, hr⟩ := exists_loader_of_kept h
    exact ⟨loader, r, hl.append [request], hr⟩
  · exact ⟨request, r, ⟨rfl, ⟨requests, [], rfl, hn⟩, hl⟩, hr⟩

end DiiaApp
