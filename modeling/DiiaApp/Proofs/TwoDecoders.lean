import DiiaApp.Proofs.ErrorRelay
import DiiaApp.Proofs.WholeText

/-!
# The original error read in two ways

The client of a service parses the trailer and decodes the string leaves, the action executor
decodes the whole text and parses what that gives. Without its escapes a text is lighter than the
tree it should be read as, or its names are shorter, so the second way gives the original error
exactly where there was nothing to escape (`decoders_agree`).
-/

namespace DiiaApp

open Js Metadata

variable {N : Type} [JsNumber N] {p : Packages N}

/-- The object an error is written as. -/
def originalErrorValue (e : ApiError N) : Value N :=
  .obj [(js "name", .str e.name), (js "message", .str e.message),
    (js "code", .num (JsNumber.ofInt e.code)), (js "type", .str e.type), (js "data", e.data)]

/-- Both decoders find nothing in the error to undo: no string of it needs an escape, and neither its
name and type nor a name of its data has a `%`. -/
structure Unambiguous (e : ApiError N) (data : Json N) : Prop where
  name : percent ∉ e.name
  message : Unescaped e.message
  type : percent ∉ e.type
  data : data.Direct

theorem originalErrorValue_json {e : ApiError N} {j : Json N} (hd : e.data = .ofJson j) :
    originalErrorValue e = .ofJson (errorTree e e.message j) := by
  rw [originalErrorValue, hd]
  rfl

/-- A text that is its own decoding has no `%`. -/
theorem decode_self {s : JsString} : decodeURIComponent s = some s ↔ percent ∉ s := by
  refine ⟨fun h => ?_, decode_of_no_percent⟩
  have hs := (decode_weight h).2 le_rfl
  have hp := (restore_length s).2 (congrArg List.length hs).ge
  rwa [← hs] at hp

theorem client_reads (hl : p.Leafwise) (hc : p.AppliesCodec) {e : ApiError N}
    {message : JsString} {j data : Json N} (hd : e.data = .ofJson j)
    (hm : encodeURIComponent e.message = some message)
    (hj : j.mapStrings encodeURIComponent = some data) :
    p.decodeValuesWithIterator (.ofJson (errorTree e message data)) = .ok (originalErrorValue e) ↔
      percent ∉ e.name ∧ percent ∉ e.type := by
  rw [← hc.encode] at hm hj
  rw [decode_sent hl hc.inverse hm hj, originalErrorValue_json hd, ← decode_self, ← decode_self,
    hc.decode]
  constructor
  · rintro ⟨name, type, hn, ht, he⟩
    have htree := Value.ofJson_inj he
    simp only [errorTree, Json.obj.injEq, List.cons.injEq, Prod.mk.injEq, Json.str.injEq, true_and,
      and_true] at htree
    obtain ⟨h1, h2⟩ := htree
    exact ⟨by rw [hn, h1], by rw [ht, h2]⟩
  · intro h
    exact ⟨e.name, e.type, h.1, h.2, rfl⟩

/-- The text of the trailer, decoded as a whole. -/
theorem errorTree_shrinks {e : ApiError N} {message : JsString} {j data : Json N} {d : JsString}
    (hm : encodeURIComponent e.message = some message)
    (hj : j.mapStrings encodeURIComponent = some data) (hn : percent ∉ e.name)
    (ht : percent ∉ e.type) (h : decodeURIComponent (errorTree e message data).print = some d) :
    Json.treeForm.Shrinks (errorTree e e.message j) d (Unescaped e.message ∧ j.Direct) := by
  obtain ⟨k₁, v₁, r₁, hk₁, hv₁, hr₁, rfl⟩ :=
    (Json.decode_entry (by decide) (js "name") (.str e.name) _).1 h
  obtain ⟨k₂, v₂, r₂, hk₂, hv₂, hr₂, rfl⟩ :=
    (Json.decode_entry (by decide) (js "message") (.str message) _).1 hr₁
  obtain ⟨k₃, v₃, r₃, hk₃, hv₃, hr₃, rfl⟩ :=
    (Json.decode_entry (by decide) (js "code") (.num (JsNumber.ofInt e.code)) _).1 hr₂
  obtain ⟨k₄, v₄, r₄, hk₄, hv₄, hr₄, rfl⟩ :=
    (Json.decode_entry (by decide) (js "type") (.str e.type) _).1 hr₃
  obtain rfl : quote e.name = v₁ := Option.some.inj ((decode_name hn).symm.trans hv₁)
  obtain rfl : quote e.type = v₄ := Option.some.inj ((decode_name ht).symm.trans hv₄)
  have hmessage : Json.mapStrings encodeURIComponent (.str e.message : Json N)
      = some (.str message) := by rw [Json.mapStrings, hm]; rfl
  have hdata : Json.mapEntries encodeURIComponent [(js "data", j)] = some [(js "data", data)] := by
    rw [Json.mapEntries, hj]
    rfl
  have hraw : ∀ s : JsString, (Json.treeForm (N := N)).Shrinks (.str s) (quote s) True := fun s =>
    Form.shrinks_text (F := Json.treeForm (N := N)) (a := .str s) (quote_weight s)
  have h₄ := Json.entry_shrinks (f := id) (by decide) (fun _ _ _ => ⟨rfl, rfl, rfl⟩)
    (name_shrinks hk₄) (hraw e.type) (Json.printEntries_shrinks hdata hr₄)
  have h₃ := Json.entry_shrinks (f := id) (by decide) (fun _ _ _ => ⟨rfl, rfl, rfl⟩)
    (name_shrinks hk₃) (Json.print_shrinks (j := .num _) rfl hv₃) h₄
  have h₂ := Json.entry_shrinks (f := id) (by decide) (fun _ _ _ => ⟨rfl, rfl, rfl⟩)
    (name_shrinks hk₂) (Json.print_shrinks hmessage hv₂) h₃
  have h₁ := Json.entry_shrinks (H := Json.treeForm) (f := .obj) (by decide)
    (fun _ _ _ => ⟨rfl, rfl, rfl⟩) (name_shrinks hk₁) (hraw e.name) h₂
  exact h₁.imp fun ⟨_, _, _, hmess, _, _, _, _, hdata⟩ => ⟨hmess, hdata.2.1⟩

theorem errorTree_decoded {e : ApiError N} {message : JsString} {j data : Json N}
    (hm : encodeURIComponent e.message = some message)
    (hj : j.mapStrings encodeURIComponent = some data) (hu : Unambiguous e j) :
    decodeURIComponent (errorTree e message data).print = some (errorTree e e.message j).print := by
  have hmessage : decodeURIComponent (quote message) = some (quote e.message) := by
    rw [decode_leaf hm, quote, quoteBody_unescaped hu.message (encodable_iff.1 ⟨message, hm⟩)]
  refine (Json.decode_entry (by decide) (js "name") (.str e.name) _).2
    ⟨_, _, _, decode_name (by decide), decode_name hu.name, ?_, rfl⟩
  refine (Json.decode_entry (by decide) (js "message") (.str message) _).2
    ⟨_, _, _, decode_name (by decide), hmessage, ?_, rfl⟩
  refine (Json.decode_entry (by decide) (js "code") (.num (JsNumber.ofInt e.code)) _).2
    ⟨_, _, _, decode_name (by decide), Json.number_decode _, ?_, rfl⟩
  refine (Json.decode_entry (by decide) (js "type") (.str e.type) _).2
    ⟨_, _, _, decode_name (by decide), decode_name hu.type, ?_, rfl⟩
  exact (Json.decode_entry (by decide) (js "data") data []).2
    ⟨_, _, _, decode_name (by decide), Json.decode_print hj hu.data, rfl, rfl⟩

/-- Among errors whose name and type have no `%`, the executor reads those that need no escape. -/
theorem executor_reads {e : ApiError N} {message : JsString} {j data : Json N}
    (hd : e.data = .ofJson j) (hw : j.WellFormed)
    (hm : encodeURIComponent e.message = some message)
    (hj : j.mapStrings encodeURIComponent = some data) (hn : percent ∉ e.name)
    (ht : percent ∉ e.type) :
    executorOriginalError (errorTree e message data).print = originalErrorValue e ↔
      Unescaped e.message ∧ j.Direct := by
  rw [originalErrorValue_json hd]
  constructor
  · intro h
    unfold executorOriginalError at h
    split at h
    · rename_i v hv
      obtain rfl := Value.ofJson_inj h
      obtain ⟨d, hdec, hparse⟩ := Option.bind_eq_some_iff.1 hv
      obtain ⟨w, hread, hmerged⟩ := Option.map_eq_some_iff.1 hparse
      obtain ⟨-, hs⟩ := errorTree_shrinks hm hj hn ht hdec
      have h1 := Json.read_weight hread
      have h2 := Json.merged_size strWeight Json.leafWeight w
      rw [hmerged] at h2
      obtain ⟨a, rfl, -, hc⟩ := hs (h2.trans h1)
      obtain rfl : w = a := Option.some.inj (hread.symm.trans (Json.read_print a))
      have h3 := Json.merged_size List.length (fun _ => 0) w
      rw [hmerged] at h3
      exact hc h3
    · simp [errorTree, Value.ofJson] at h
  · rintro ⟨h1, h2⟩
    have hwf : (errorTree e e.message j).WellFormed := errorTree_wellFormed hw
    rw [executorOriginalError, errorTree_decoded hm hj ⟨hn, h1, ht, h2⟩, Option.bind_some,
      Json.parse_print hwf]

/-- What `getMap` has under a key is the first value under it. -/
theorem executorErrorMetadata_find {trailer : Metadata} {text : JsString} {rest : List JsString}
    (h : trailer.get (js "original-error") = some (text :: rest)) :
    Js.Map.find (js "original-error") (executorErrorMetadata (N := N) trailer)
      = some (executorOriginalError text) := by
  have hfind : ∀ es : List (JsString × List JsString),
      Js.Map.find (js "original-error") es = some (text :: rest) →
        Js.Map.find (js "original-error") (es.filterMap fun e => e.2.head?.map fun value =>
          (e.1, if e.1 = js "original-error" then executorOriginalError (N := N) value
            else .str value)) = some (executorOriginalError text) := by
    intro es
    induction es with
    | nil => exact fun h => nomatch h
    | cons e es ih =>
      intro h
      rw [Js.Map.find] at h
      split_ifs at h with he
      · rw [List.filterMap_cons, Option.some.inj h]
        simp [Js.Map.find, he]
      · rw [List.filterMap_cons]
        rcases e.2.head? with _ | value
        · exact ih h
        · simpa [Js.Map.find, he] using ih h
  exact hfind trailer.entries h

/-- Both decoders make the original error of the trailer exactly where it is unambiguous. -/
theorem decoders_agree (hl : p.Leafwise) (hc : p.AppliesCodec)
    (hkey : p.grpcMetadataKeys .originalError = js "original-error") {e : ApiError N} {j : Json N}
    (hd : e.data = .ofJson j) (hw : j.WellFormed) {text : JsString}
    (hs : serializeApiError p e = .ok text) {trailer : Metadata} {rest : List JsString}
    (ht : trailer.get (js "original-error") = some (text :: rest)) :
    (Js.Map.find (js "original-error") (executorErrorMetadata trailer)
        = some (originalErrorValue e) ∧
      originalErrorOf p (some trailer) = .ok (originalErrorValue e)) ↔ Unambiguous e j := by
  have hundef : ¬ isUndefined e.data := by
    rw [hd]
    rcases j with _ | _ | _ | _ | _ | _ <;> exact Bool.false_ne_true
  obtain ⟨message, data, hm, hdata, rfl⟩ := (serializeApiError_ok hl hundef).1 hs
  rw [hc.encode] at hm hdata
  rw [hd, encodedTree_ofJson] at hdata
  obtain ⟨data', hj, he⟩ := Option.map_eq_some_iff.1 hdata
  obtain rfl := Option.some.inj he
  have htrailer : trailerValue p (some trailer) .originalError
      = some (errorTree e message data').print := by
    simp [trailerValue, metadataProperty, getAll, hkey, ht]
  rw [executorErrorMetadata_find ht, Option.some.injEq, originalErrorOf_sent hw
      (show j.mapStrings p.encodeLeaf = some data' by rw [hc.encode, hj]) htrailer,
    client_reads hl hc hd hm hj]
  constructor
  · rintro ⟨h, hn, hty⟩
    obtain ⟨h1, h2⟩ := (executor_reads hd hw hm hj hn hty).1 h
    exact ⟨hn, h1, hty, h2⟩
  · rintro ⟨hn, h1, hty, h2⟩
    exact ⟨(executor_reads hd hw hm hj hn hty).2 ⟨h1, h2⟩, hn, hty⟩

/-- A trailer with the text of an error. -/
def trailerOf (text : JsString) : Metadata := Js.Map.empty.set (js "original-error") [text]

/-- A `%` in a message is encoded and decoded again. -/
def hundred : ApiError ℤ := { coded with message := js "100%" }

theorem decoders_agree_hundred : ∃ text, serializeApiError standIn hundred = .ok text ∧
    Js.Map.find (js "original-error") (executorErrorMetadata (trailerOf text))
      = some (originalErrorValue hundred) ∧
    originalErrorOf standIn (some (trailerOf text)) = .ok (originalErrorValue hundred) := by
  have hs := (serializeApiError_ok (e := hundred) standIn_leafwise (by decide)).2
    ⟨js "100%25", .obj [(js "processCode", .num 7)], by decide, rfl, rfl⟩
  have hw : (Json.obj [(js "processCode", (.num 7 : Json ℤ))]).WellFormed :=
    ⟨List.nodup_singleton _, trivial, trivial⟩
  exact ⟨_, hs, (decoders_agree standIn_leafwise standIn_appliesCodec rfl rfl hw hs
    (Js.Map.get_set_self _ _ _)).2 ⟨by decide, unescaped_iff.2 (by decide), by decide, by decide,
      trivial, trivial⟩⟩

/-- A message that is a quotation mark. -/
def quoting : ApiError ℤ := { coded with message := [34] }

theorem decoders_disagree : ¬ ∀ (text : JsString) (trailer : Metadata) (rest : List JsString),
    serializeApiError standIn quoting = .ok text →
      trailer.get (js "original-error") = some (text :: rest) →
        Js.Map.find (js "original-error") (executorErrorMetadata trailer)
          = some (originalErrorValue quoting) ∧
        originalErrorOf standIn (some trailer) = .ok (originalErrorValue quoting) := by
  intro h
  have hm : encodeURIComponent quoting.message = some (js "%22") := by decide
  have hs := (serializeApiError_ok (e := quoting) standIn_leafwise (by decide)).2
    ⟨js "%22", .obj [(js "processCode", .num 7)], hm, rfl, rfl⟩
  have hw : (Json.obj [(js "processCode", (.num 7 : Json ℤ))]).WellFormed :=
    ⟨List.nodup_singleton _, trivial, trivial⟩
  have hget := Js.Map.get_set_self Js.Map.empty (js "original-error")
    [(errorTree quoting (js "%22") (.obj [(js "processCode", .num 7)])).print]
  obtain ⟨hfind, -⟩ := h _ _ [] hs hget
  rw [executorErrorMetadata_find hget, Option.some.injEq] at hfind
  obtain ⟨hmess, -⟩ := (executor_reads rfl hw hm rfl (by decide) (by decide)).1 hfind
  exact hmess 34 List.mem_cons_self (by decide)

end DiiaApp
