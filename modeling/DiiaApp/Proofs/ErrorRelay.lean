import DiiaApp.ErrorRelay
import DiiaApp.Proofs.Leaves
import DiiaApp.Proofs.Sendable
import DiiaApp.StandIn
import DiiaApp.Steps

/-!
# The data of an error, hop by hop

A hop hands on the data of the error, with the type of the error as `opOriginalError` where the data
has none yet (`relayedData`); data that has one is handed on as it is. A gRPC hop does so where the
error is `Relayable`: it can be sent, and its name and type survive a decoding that no encoding came
before.
-/

namespace DiiaApp

open Js Metadata

variable {N : Type}

/-- What the codec encodes it decodes again. -/
theorem Packages.AppliesCodec.inverse {p : Packages N} (h : p.AppliesCodec) : p.Inverse := by
  intro s t ht
  rw [h.encode] at ht
  rw [h.decode, decode_encode ht]

theorem encodedTree_ofJson (f : JsString → Option JsString) (j : Json N) :
    encodedTree f (.ofJson j) = (j.mapStrings f).map some := by
  rw [encodedTree, Value.mapStrings_ofJson]
  rcases j.mapStrings f with _ | j'
  · rfl
  · exact Value.toJson_ofJson j'

variable [JsNumber N]

/-- The data of an error with its type as the original error, where it has none. -/
def relayedData (e : ApiError N) : Value N :=
  if (e.data.prop (js "opOriginalError")).truthy then e.data
  else e.data.setProp (js "opOriginalError") (.obj [(js "type", .str e.type)])

/-- A gRPC hop can send the error, and decodes its name and its type to themselves as far as they
matter. -/
structure Relayable (p : Packages N) (e : ApiError N) : Prop where
  sendable : Sendable p e
  name : ∃ name, p.decodeLeaf e.name = some name
  type : if (e.data.prop (js "opOriginalError")).truthy then
      ∃ type, p.decodeLeaf e.type = some type
    else p.decodeLeaf e.type = some e.type

theorem orAssign_obj {v w : Value N} {es : List (JsString × Value N)} {k : JsString}
    (h : v = .obj es) :
    orAssign v k w = .ok (if (v.prop k).truthy then v else v.setProp k w) := by
  subst h
  rfl

/-- Setting a property to the truthy value it has changes nothing. -/
theorem setProp_prop {v : Value N} {k : JsString} (h : (v.prop k).truthy) :
    v.setProp k (v.prop k) = v := by
  rcases v with _ | _ | _ | _ | _ | _ | _ | es | _ <;> try rfl
  simp only [Value.prop, Value.setProp] at h ⊢
  rcases hf : Js.Map.find k es with _ | w
  · simp [hf, Value.truthy] at h
  · rw [Option.getD_some, Js.Map.put_of_find hf]

theorem relayedData_json {e : ApiError N} {es : List (JsString × Json N)}
    (hd : e.data = .ofJson (.obj es)) (hw : (Json.obj es).WellFormed) :
    ∃ es', relayedData e = .ofJson (.obj es') ∧ (Json.obj es').WellFormed := by
  unfold relayedData
  split_ifs
  · exact ⟨es, hd, hw⟩
  · refine ⟨Js.Map.put (js "opOriginalError") (.obj [(js "type", .str e.type)]) es, ?_, ?_⟩
    · rw [hd, Value.ofJson, Value.setProp, Value.ofJson, ← Value.put_ofEntries]
      rfl
    · have hj : (Json.obj [(js "type", (.str e.type : Json N))]).WellFormed :=
        ⟨List.nodup_singleton _, trivial, trivial⟩
      exact Json.wellFormed_put hj hw

/-- Data that has been relayed has an original error. -/
theorem relayedData_original {e : ApiError N} {es : List (JsString × Json N)}
    (hd : e.data = .ofJson (.obj es)) :
    ((relayedData e).prop (js "opOriginalError")).truthy := by
  unfold relayedData
  split_ifs with h
  · exact h
  · simp [hd, Value.ofJson, Value.setProp, Value.prop, Js.Map.find_put, Value.truthy]

theorem errorTree_wellFormed {e : ApiError N} {message : JsString} {data : Json N}
    (h : data.WellFormed) : (errorTree e message data).WellFormed :=
  ⟨by simp only [List.map_cons, List.map_nil]; decide, trivial, trivial, trivial, trivial, h,
    trivial⟩

/-- What the server writes into the trailer is the text of the error. -/
theorem trailer_text {p : Packages N} (hl : p.Leafwise) {e : ApiError N} {j : Json N}
    (hd : e.data = .ofJson j) {m : Metadata} {r : ServerErrorResponse}
    (h : mapApiErrorToRpcError p e m = .ok r) :
    ∃ message data, p.encodeLeaf e.message = some message ∧
      j.mapStrings p.encodeLeaf = some data ∧
      trailerValue p (some r.metadata) .originalError = some (errorTree e message data).print := by
  obtain ⟨processCode, h1, h⟩ := bind_eq_ok.1 h
  obtain ⟨m₁, -, h⟩ := bind_eq_ok.1 h
  obtain ⟨text, h3, h⟩ := bind_eq_ok.1 h
  obtain ⟨m₂, h4, h⟩ := bind_eq_ok.1 h
  obtain ⟨c, -, h⟩ := bind_eq_ok.1 h
  have hdata := not_undefined (getProp_ok.1 h1).1
  obtain ⟨message, data, hm, ht, rfl⟩ := (serializeApiError_ok hl hdata).1 h3
  obtain ⟨-, rfl⟩ := setChecked_ok.1 h4
  obtain rfl := Except.ok.inj h
  rw [hd, encodedTree_ofJson] at ht
  obtain ⟨data', hj, he⟩ := Option.map_eq_some_iff.1 ht
  obtain rfl := Option.some.inj he
  refine ⟨message, data', hm, hj, ?_⟩
  simp [trailerValue, metadataProperty, getAll]

theorem parseJson_print (p : Packages N) {j : Json N} (h : j.WellFormed) :
    parseJson p j.print = .ok (.ofJson j) := by
  rw [parseJson, Json.parse_print h]

/-- Decoding the leaves of the trailer gives the message and the data back, and decodes the name and
the type. -/
theorem errorTree_decode {p : Packages N} (hi : p.Inverse) {e : ApiError N} {message : JsString}
    {data j : Json N} (hm : p.encodeLeaf e.message = some message)
    (hj : j.mapStrings p.encodeLeaf = some data) :
    (errorTree e message data).mapStrings p.decodeLeaf
      = (p.decodeLeaf e.name).bind fun name => (p.decodeLeaf e.type).map fun type =>
          errorTree { e with name := name, type := type } e.message j := by
  have hd := Json.mapStrings_undo (fun {s t} => hi) hj
  simp only [errorTree, Json.mapStrings, Json.mapEntries, hi hm, hd, Option.map_some,
    Option.bind_some]
  rcases p.decodeLeaf e.name with _ | name
  · rfl
  · rcases p.decodeLeaf e.type with _ | type <;> rfl

/-- What the client makes of a trailer with the object of an error. -/
theorem errorHandlerMiddleware_data {p : Packages N} (hk : p.KeepsData) {e : ApiError N}
    {es : List (JsString × Json N)} (hd : e.data = .ofJson (.obj es)) {x : Thrown N}
    {trailer : Option Metadata}
    (ht : originalErrorOf p trailer = .ok (.ofJson (errorTree e e.message (.obj es)))) :
    ∃ e', errorHandlerMiddleware p x trailer = .ok e' ∧ e'.data = relayedData e := by
  have hprop : (Value.ofJson (errorTree e e.message (.obj es))).prop (js "data") = e.data := by
    rw [hd]
    rfl
  have htype : (Value.ofJson (errorTree e e.message (.obj es))).prop (js "type")
      = .str e.type := rfl
  have hor : orAssign (.ofJson (errorTree e e.message (.obj es))) (js "data") (.obj [])
      = .ok (.ofJson (errorTree e e.message (.obj es))) := by
    rw [orAssign_obj (by rw [errorTree, Value.ofJson]), hprop, hd]
    rfl
  have hor' : orAssign e.data (js "opOriginalError") (.obj [(js "type", .str e.type)])
      = .ok (relayedData e) := orAssign_obj (by rw [hd, Value.ofJson])
  refine ⟨p.newApiError (handleError p x).message
    (p.getHttpStatusCodeByGrpcCode (handleError p x).code) (relayedData e)
    ((relayedData e).prop (js "processCode")), ?_, ?_⟩
  · unfold errorHandlerMiddleware
    refine bind_eq_ok.2 ⟨_, ht, ?_⟩
    rw [if_pos (by rfl)]
    refine bind_eq_ok.2 ⟨_, hor, ?_⟩
    rw [hprop, htype]
    exact bind_eq_ok.2 ⟨_, hor', rfl⟩
  · rw [hk]
    split_ifs with hp
    · exact setProp_prop hp
    · rfl

/-- The original error of a trailer is the decoded tree of the error. -/
theorem originalErrorOf_sent {p : Packages N} {e : ApiError N} {j : Json N} (hj : j.WellFormed)
    {message : JsString} {data : Json N} (hdata : j.mapStrings p.encodeLeaf = some data)
    {trailer : Option Metadata}
    (ht : trailerValue p trailer .originalError = some (errorTree e message data).print) :
    originalErrorOf p trailer
      = p.decodeValuesWithIterator (.ofJson (errorTree e message data)) := by
  have hne : nonEmpty (some (errorTree e message data).print)
      = some (errorTree e message data).print := rfl
  have hwf : (errorTree e message data).WellFormed :=
    errorTree_wellFormed (Json.mapStrings_wellFormed hdata hj)
  unfold originalErrorOf
  rw [ht, hne]
  dsimp only
  rw [parseJson_print p hwf]
  rfl

theorem decode_sent {p : Packages N} (hl : p.Leafwise) (hi : p.Inverse) {e : ApiError N} {j : Json N}
    {message : JsString} {data : Json N} (hm : p.encodeLeaf e.message = some message)
    (hdata : j.mapStrings p.encodeLeaf = some data) {v : Value N} :
    p.decodeValuesWithIterator (.ofJson (errorTree e message data)) = .ok v ↔
      ∃ name type, p.decodeLeaf e.name = some name ∧ p.decodeLeaf e.type = some type ∧
        v = .ofJson (errorTree { e with name := name, type := type } e.message j) := by
  rw [decode_ok hl, Value.mapStrings_ofJson, errorTree_decode hi hm hdata]
  rcases p.decodeLeaf e.name with _ | name
  · simp
  · rcases p.decodeLeaf e.type with _ | type
    · simp
    · simp [eq_comm]

/-- A Moleculer hop hands on the data. -/
theorem moleculer_relays {p : Packages N} (hk : p.KeepsData) {e : ApiError N}
    {es : List (JsString × Json N)} (hd : e.data = .ofJson (.obj es)) :
    ∃ e', hopStep p (.api e) .moleculer = some (.api e') ∧ e'.data = relayedData e := by
  have hor : orAssign e.data (js "opOriginalError") (.obj [(js "type", .str e.type)])
      = .ok (relayedData e) := orAssign_obj (by rw [hd, Value.ofJson])
  have hact : actCatch p (.api e)
      = .ok (p.newApiError e.message e.code (relayedData e) .undefined) :=
    bind_eq_ok.2 ⟨_, hor, rfl⟩
  refine ⟨_, by rw [hopStep, hact]; rfl, ?_⟩
  rw [hk]
  rfl

/-- With another name and type, an error hands on the same data only where its type goes unused. -/
theorem relayedData_alike {e : ApiError N} {es : List (JsString × Json N)}
    (hd : e.data = .ofJson (.obj es)) (name type : JsString) :
    relayedData { e with name := name, type := type } = relayedData e ↔
      (e.data.prop (js "opOriginalError")).truthy ∨ type = e.type := by
  unfold relayedData
  split_ifs with hop
  · exact iff_of_true rfl (.inl hop)
  rw [or_iff_right hop]
  constructor
  · intro h
    have hprop := congrArg (fun v => (v.prop (js "opOriginalError")).prop (js "type")) h
    have heq : (Value.str type : Value N) = .str e.type := by
      simpa [hd, Value.ofJson, Value.setProp, Value.prop, Js.Map.find_put, Js.Map.find]
        using hprop
    exact Value.str.inj heq
  · rintro rfl
    rfl

/-- A gRPC hop hands on the data exactly where the error is relayable. -/
theorem grpc_relays {p : Packages N} (hl : p.Leafwise) (hi : p.Inverse) (hk : p.KeepsData)
    {e : ApiError N} {es : List (JsString × Json N)} (hd : e.data = .ofJson (.obj es))
    (hw : (Json.obj es).WellFormed) (m : Metadata) (reject : ServerErrorResponse → Thrown N) :
    (∃ e', hopStep p (.api e) (.grpc m reject) = some (.api e') ∧ e'.data = relayedData e) ↔
      Relayable p e := by
  simp only [hopStep, handleError]
  rcases hr : mapApiErrorToRpcError p e m with err | r
  · refine iff_of_false (by simp) fun h => ?_
    obtain ⟨r, hok⟩ := (mapApiErrorToRpcError_ok hl e m).2 h.sendable
    rw [hr] at hok
    simp at hok
  have hsend : Sendable p e := (mapApiErrorToRpcError_ok hl e m).1 ⟨r, hr⟩
  obtain ⟨message, data, hm, hdata, ht⟩ := trailer_text hl hd hr
  have horig := @originalErrorOf_sent N _ p e (.obj es) hw message data hdata (some r.metadata) ht
  constructor
  · rintro ⟨e', he', hdata'⟩
    have he' : thrownBy (errorHandlerMiddleware p (reject r) (some r.metadata)) = .api e' :=
      Option.some.inj he'
    rcases hdec : p.decodeValuesWithIterator (.ofJson (errorTree e message data)) with err | v
    · -- the client throws what the decoder threw
      obtain ⟨n, rfl⟩ := hl.native _ _ hdec
      rw [hdec] at horig
      have herr : errorHandlerMiddleware p (reject r) (some r.metadata) = .error (.native n) := by
        rw [errorHandlerMiddleware, horig]
        rfl
      rw [herr] at he'
      simp [thrownBy] at he'
    · obtain ⟨name, type, hn, hty, rfl⟩ := (decode_sent hl hi hm hdata).1 hdec
      obtain ⟨e₂, he₂, hd₂⟩ := errorHandlerMiddleware_data hk (x := reject r)
        (e := { e with name := name, type := type }) hd (horig.trans hdec)
      rw [he₂] at he'
      obtain rfl : e₂ = e' := Thrown.api.inj he'
      refine ⟨hsend, ⟨name, hn⟩, ?_⟩
      rcases (relayedData_alike hd name type).1 (hd₂.symm.trans hdata') with hop | rfl
      · rw [if_pos hop]
        exact ⟨type, hty⟩
      · split_ifs
        · exact ⟨e.type, hty⟩
        · exact hty
  · rintro ⟨-, ⟨name, hn⟩, hty⟩
    obtain ⟨type, hty, hused⟩ : ∃ type, p.decodeLeaf e.type = some type ∧
        ((e.data.prop (js "opOriginalError")).truthy ∨ type = e.type) := by
      split_ifs at hty with hop
      · obtain ⟨type, hty⟩ := hty
        exact ⟨type, hty, .inl hop⟩
      · exact ⟨e.type, hty, .inr rfl⟩
    have hrel := (relayedData_alike hd name type).2 hused
    have hdec := (decode_sent hl hi hm hdata).2 ⟨name, type, hn, hty, rfl⟩
    obtain ⟨e₂, he₂, hd₂⟩ := errorHandlerMiddleware_data hk (x := reject r)
      (e := { e with name := name, type := type }) hd (horig.trans hdec)
    exact ⟨e₂, congrArg (fun x => some (thrownBy x)) he₂, hd₂.trans hrel⟩

/-- A gRPC hop finds an error it can relay. -/
def RelayableAt (p : Packages N) (thrown : Thrown N) : Hop N → Prop
  | .grpc _ _ => Relayable p (handleError p thrown)
  | .moleculer => True

/-- The caller of the hop throws an error with the data `data`. -/
def HandsOn (p : Packages N) (data : Value N) (thrown : Thrown N) (hop : Hop N) : Prop :=
  ∃ e, hopStep p thrown hop = some (.api e) ∧ e.data = data

/-- Over a chain of hops, every caller sees the data of the first error, its original error set,
exactly where every gRPC hop finds an error it can relay. -/
theorem errors_relayed {p : Packages N} (hl : p.Leafwise) (hi : p.Inverse) (hk : p.KeepsData)
    {e₀ : ApiError N} {es : List (JsString × Json N)} (hd : e₀.data = .ofJson (.obj es))
    (hw : (Json.obj es).WellFormed) (hops : List (Hop N)) :
    Steps.Along (hopStep p) (HandsOn p (relayedData e₀)) (.api e₀) hops ↔
      Steps.Along (hopStep p) (RelayableAt p) (.api e₀) hops := by
  refine Steps.along_iff (fun thrown => ∃ e es, thrown = .api e ∧ e.data = .ofJson (.obj es) ∧
    (Json.obj es).WellFormed ∧ relayedData e = relayedData e₀) ?_ ?_ ⟨e₀, es, rfl, hd, hw, rfl⟩
  · rintro _ hop t ⟨e, es, rfl, hd, hw, hrel⟩ ⟨e', he', hd'⟩ ht
    rw [he'] at ht
    obtain rfl := Option.some.inj ht
    obtain ⟨es', hes', hw'⟩ := relayedData_json hd hw
    have hop := relayedData_original hd
    rw [hrel, ← hd'] at hes' hop
    exact ⟨e', es', rfl, hes', hw', by rw [relayedData, if_pos hop, hd']⟩
  · rintro _ hop ⟨e, es, rfl, hd, hw, hrel⟩
    rw [HandsOn, ← hrel]
    rcases hop with ⟨m, reject⟩ | _
    · exact grpc_relays hl hi hk hd hw m reject
    · exact iff_of_true (moleculer_relays hk hd) trivial

theorem standIn_inverse : standIn.Inverse := standIn_appliesCodec.inverse

/-- An error with a process code, thrown to a caller over gRPC. -/
def coded : ApiError ℤ :=
  ⟨js "ApiError", js "no", 400, js "Operated", .ofJson (.obj [(js "processCode", .num 7)])⟩

def overGrpc : Hop ℤ := .grpc Js.Map.empty fun _ => .native ⟨.error, js "INTERNAL: no"⟩

theorem coded_sendable : Sendable standIn coded :=
  ⟨by decide, fun _ => ⟨js "7", by decide, by decide⟩, plain_of_units (by decide),
    .inl (encodable_iff.1 ⟨js "no", by decide⟩), plain_of_units (by decide),
    ⟨fun _ => plain_of_units (by decide), trivial, trivial⟩, fun h => absurd h (by decide)⟩

theorem errors_relayed_coded :
    Steps.Along (hopStep standIn) (HandsOn standIn (relayedData coded)) (.api coded)
      [overGrpc, .moleculer] := by
  have hw : (Json.obj [(js "processCode", (.num 7 : Json ℤ))]).WellFormed :=
    ⟨List.nodup_singleton _, trivial, trivial⟩
  have hn : ¬ (coded.data.prop (js "opOriginalError")).truthy := by decide
  have hc : Relayable standIn coded := by
    refine ⟨coded_sendable, ⟨_, standIn_leafwise.decodes (decode_of_no_percent (by decide))⟩, ?_⟩
    rw [if_neg hn]
    exact standIn_leafwise.decodes (decode_of_no_percent (by decide))
  have ha : Steps.Along (hopStep standIn) (RelayableAt standIn) (.api coded)
      [overGrpc, .moleculer] := by
    simp only [Steps.Along, RelayableAt, overGrpc, handleError]
    exact ⟨hc, fun _ _ => ⟨trivial, fun _ _ => trivial⟩⟩
  exact (@errors_relayed ℤ _ standIn standIn_leafwise standIn_inverse standIn_keepsData coded _ rfl
    hw _).2 ha

/-- A name of the data that is no printable ASCII. -/
def foreignName : ApiError ℤ :=
  ⟨js "ApiError", js "no", 400, js "Operated", .ofJson (.obj [([0x457], .bool true)])⟩

theorem error_not_relayed :
    ¬ Steps.Along (hopStep standIn) (HandsOn standIn (relayedData foreignName)) (.api foreignName)
      [overGrpc] := by
  have h : (hopStep standIn (.api foreignName) overGrpc).isNone := by decide
  rintro ⟨⟨e, he, -⟩, -⟩
  rw [he] at h
  simp at h

end DiiaApp
