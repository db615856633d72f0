import DiiaApp.Proofs.Json
import DiiaApp.Proofs.SchemaDefinitions

/-!
# The trees of schemas

The tree of a generated schema gives no name twice (`generateSchema_wellFormed`), so it is read back
from its text, and it refers to what the schema refers to (`JsonSchema.refs_toJson`).
-/

namespace Js.Json

variable {N : Type}

/-- The name of the definition that an entry of an object refers to. -/
def refAt (k : JsString) : Json N → List JsString
  | .str s =>
    if k = js "$ref" ∧ js "#/definitions/" <+: s then [s.drop (js "#/definitions/").length] else []
  | _ => []

mutual

/-- The names of the definitions that a tree refers to. -/
def refs : Json N → List JsString
  | .null => []
  | .bool _ => []
  | .num _ => []
  | .str _ => []
  | .arr xs => itemsRefs xs
  | .obj es => entriesRefs es

def itemsRefs : List (Json N) → List JsString
  | [] => []
  | x :: xs => x.refs ++ itemsRefs xs

def entriesRefs : List (JsString × Json N) → List JsString
  | [] => []
  | e :: es => refAt e.1 e.2 ++ e.2.refs ++ entriesRefs es

end

/-- The value of an object under a key. -/
def entry (k : JsString) : Json N → Option (Json N)
  | .obj es => Map.find k es
  | _ => none

theorem entriesRefs_append : ∀ es fs : List (JsString × Json N),
    entriesRefs (es ++ fs) = entriesRefs es ++ entriesRefs fs
  | [], _ => rfl
  | e :: es, fs => by
    rw [List.cons_append, entriesRefs, entriesRefs, entriesRefs_append es fs, List.append_assoc,
      List.append_assoc, List.append_assoc]

theorem itemsRefs_strings : ∀ ss : List JsString, itemsRefs (ss.map (.str : JsString → Json N)) = []
  | [] => rfl
  | _ :: ss => by rw [List.map_cons, itemsRefs, itemsRefs_strings ss, refs, List.append_nil]

theorem itemsWellFormed_strings :
    ∀ ss : List JsString, ItemsWellFormed (ss.map (.str : JsString → Json N))
  | [] => trivial
  | _ :: ss => ⟨trivial, itemsWellFormed_strings ss⟩

theorem entriesWellFormed_append : ∀ {es fs : List (JsString × Json N)},
    EntriesWellFormed es → EntriesWellFormed fs → EntriesWellFormed (es ++ fs)
  | [], _, _, h => h
  | _ :: _, _, h, h' => ⟨h.1, entriesWellFormed_append h.2 h'⟩

end Js.Json

namespace DiiaApp

open Js

namespace Schema

variable {N : Type}

theorem refs_optional {k : JsString} (hk : k ≠ js "$ref") (text : Option JsString) :
    Json.entriesRefs (optional k text : List (JsString × Json N)) = [] := by
  rcases text with _ | s
  · rfl
  · simp [optional, Json.entriesRefs, Json.refAt, Json.refs, hk]

theorem refs_requiredEntry (required : List JsString) :
    Json.entriesRefs (requiredEntry required : List (JsString × Json N)) = [] := by
  unfold requiredEntry
  split_ifs
  · rfl
  · simp [Json.entriesRefs, Json.refAt, Json.refs, Json.itemsRefs_strings]

theorem refs_typeEntry (type : String) (es : List (JsString × Json N)) :
    Json.entriesRefs (typeEntry type :: es) = Json.entriesRefs es := by
  have hk : js "type" ≠ js "$ref" := by decide
  simp [typeEntry, Json.entriesRefs, Json.refAt, Json.refs, hk]

theorem refAt_toJson (k : JsString) (s : Schema) : Json.refAt k (s.toJson : Json N) = [] := by
  cases s <;> rw [toJson] <;> rfl

theorem refAt_refText (name : JsString) :
    Json.refAt (js "$ref") (.str (refText name) : Json N) = [name] := by
  rw [Json.refAt, if_pos ⟨rfl, List.prefix_append _ _⟩, refText, List.drop_left]

mutual

/-- The tree of a schema refers to what the schema refers to. -/
theorem refs_toJson : ∀ s : Schema, (s.toJson : Json N).refs = s.refs
  | any description => by
    rw [toJson, Json.refs, refs_optional (by decide), refs]
  | ref name description => by
    rw [toJson, Json.refs, Json.entriesRefs, refs_optional (by decide), refAt_refText, Json.refs,
      refs]
    rfl
  | primitive type format description => by
    have hk : js "type" ≠ js "$ref" := by decide
    rw [toJson, Json.refs, Json.entriesRefs, Json.entriesRefs_append, refs_optional (by decide),
      refs_optional (by decide), Json.refAt, if_neg fun h => hk h.1, Json.refs, refs]
    rfl
  | .enum values description protoSource => by
    have hk : js "protoSource" ≠ js "$ref" := by decide
    rw [toJson, Json.refs, refs_typeEntry, Json.entriesRefs, Json.entriesRefs_append,
      refs_optional (by decide), Json.refs, Json.itemsRefs_strings, refs, Json.entriesRefs,
      Json.refAt, if_neg fun h => hk h.1, Json.refs]
    rfl
  | array items description => by
    rw [toJson, Json.refs, refs_typeEntry, Json.entriesRefs, refs_optional (by decide),
      refAt_toJson, refs_toJson items, refs, List.nil_append, List.append_nil]
  | .map additionalProperties description => by
    rw [toJson, Json.refs, refs_typeEntry, Json.entriesRefs, refs_optional (by decide),
      refAt_toJson, refs_toJson additionalProperties, refs, List.nil_append, List.append_nil]
  | object properties description protoSource required => by
    rw [toJson, Json.refs, refs_typeEntry, Json.entriesRefs, Json.entriesRefs_append,
      Json.entriesRefs_append, refs_optional (by decide), refs_optional (by decide),
      refs_requiredEntry, Json.refs, refs_entriesToJson properties, refs]
    exact List.append_nil _

theorem refs_entriesToJson : ∀ properties : List (JsString × Schema),
    Json.entriesRefs (entriesToJson properties : List (JsString × Json N)) = refsAll properties
  | [] => rfl
  | (k, s) :: properties => by
    rw [entriesToJson, Json.entriesRefs, refAt_toJson, refs_toJson s, List.nil_append,
      refs_entriesToJson properties, refsAll]

end

mutual

/-- No properties of the schema give a name twice. -/
def WellFormed : Schema → Prop
  | array items _ => items.WellFormed
  | .map additionalProperties _ => additionalProperties.WellFormed
  | object properties _ _ _ => (properties.map Prod.fst).Nodup ∧ AllWellFormed properties
  | _ => True

def AllWellFormed : List (JsString × Schema) → Prop
  | [] => True
  | e :: properties => e.2.WellFormed ∧ AllWellFormed properties

end

/-- The keys that a schema has at most. -/
theorem keys_optional (k : JsString) (text : Option JsString) :
    ((optional k text : List (JsString × Json N)).map Prod.fst).Sublist [k] := by
  rcases text with _ | s
  · exact List.nil_sublist _
  · exact List.Sublist.refl _

theorem keys_requiredEntry (required : List JsString) :
    ((requiredEntry required : List (JsString × Json N)).map Prod.fst).Sublist [js "required"] := by
  unfold requiredEntry
  split_ifs
  · exact List.nil_sublist _
  · exact List.Sublist.refl _

theorem optional_wellFormed (k : JsString) (text : Option JsString) :
    Json.EntriesWellFormed (optional k text : List (JsString × Json N)) := by
  rcases text with _ | s
  · trivial
  · exact ⟨trivial, trivial⟩

theorem requiredEntry_wellFormed (required : List JsString) :
    Json.EntriesWellFormed (requiredEntry required : List (JsString × Json N)) := by
  unfold requiredEntry
  split_ifs
  · trivial
  · exact ⟨Json.itemsWellFormed_strings required, trivial⟩

theorem keys_entriesToJson : ∀ properties : List (JsString × Schema),
    (entriesToJson properties : List (JsString × Json N)).map Prod.fst = properties.map Prod.fst
  | [] => rfl
  | (k, s) :: properties => by
    rw [entriesToJson, List.map_cons, List.map_cons, keys_entriesToJson properties]

mutual

theorem toJson_wellFormed : ∀ {s : Schema}, s.WellFormed → (s.toJson : Json N).WellFormed
  | any description, _ => by
    rw [toJson]
    exact ⟨(keys_optional _ description).nodup (by decide), optional_wellFormed _ _⟩
  | ref name description, _ => by
    rw [toJson]
    exact ⟨((keys_optional _ description).cons_cons (js "$ref")).nodup (by decide),
      trivial, optional_wellFormed _ _⟩
  | primitive type format description, _ => by
    rw [toJson]
    refine ⟨?_, trivial, Json.entriesWellFormed_append (optional_wellFormed _ _)
      (optional_wellFormed _ _)⟩
    rw [List.map_cons, List.map_append]
    exact (((keys_optional _ format).append (keys_optional _ description)).cons_cons
      (js "type")).nodup (by decide)
  | .enum values description protoSource, _ => by
    rw [toJson]
    refine ⟨?_, trivial, Json.itemsWellFormed_strings values,
      Json.entriesWellFormed_append (optional_wellFormed _ _) ⟨trivial, trivial⟩⟩
    rw [List.map_cons, List.map_cons, List.map_append]
    exact ((((keys_optional _ description).append (List.Sublist.refl [js "protoSource"])).cons_cons
      (js "enum")).cons_cons (js "type")).nodup (by decide)
  | array items description, h => by
    rw [toJson]
    refine ⟨?_, trivial, toJson_wellFormed h, optional_wellFormed _ _⟩
    exact (((keys_optional _ description).cons_cons (js "items")).cons_cons (js "type")).nodup
      (by decide)
  | .map additionalProperties description, h => by
    rw [toJson]
    refine ⟨?_, trivial, toJson_wellFormed h, optional_wellFormed _ _⟩
    exact (((keys_optional _ description).cons_cons (js "additionalProperties")).cons_cons
      (js "type")).nodup (by decide)
  | object properties description protoSource required, h => by
    rw [toJson]
    refine ⟨?_, trivial, ⟨?_, entriesToJson_wellFormed h.2⟩, Json.entriesWellFormed_append
      (Json.entriesWellFormed_append (optional_wellFormed _ _) (optional_wellFormed _ _))
      (requiredEntry_wellFormed required)⟩
    · rw [List.map_cons, List.map_cons, List.map_append, List.map_append]
      exact ((((keys_optional _ description).append (keys_optional _ protoSource)).append
        (keys_requiredEntry required)).cons_cons (js "properties")).cons_cons (js "type")
        |>.nodup (by decide)
    · rw [keys_entriesToJson]
      exact h.1

theorem entriesToJson_wellFormed : ∀ {properties : List (JsString × Schema)},
    AllWellFormed properties →
      Json.EntriesWellFormed (entriesToJson properties : List (JsString × Json N))
  | [], _ => trivial
  | (_, _) :: _, h => ⟨toJson_wellFormed h.1, entriesToJson_wellFormed h.2⟩

end

end Schema

theorem withDescription_wellFormed {s : Schema} (h : s.WellFormed) (description : JsString) :
    (s.withDescription description).WellFormed := by
  cases s <;> exact h

theorem addFieldDescription_wellFormed (comments : Comments) {s : Schema} (h : s.WellFormed)
    (name parent : JsString) : (addFieldDescription comments s name parent).WellFormed := by
  unfold addFieldDescription
  split
  · exact withDescription_wellFormed h _
  · exact h

theorem protoToJsonType_wellFormed {type : JsString} {s : Schema}
    (h : protoToJsonType type = some s) : s.WellFormed := by
  unfold protoToJsonType at h
  split_ifs at h <;> rw [← Option.some.inj h] <;> trivial

theorem plainObject_wellFormed : Schema.plainObject.WellFormed := ⟨List.nodup_nil, trivial⟩

theorem googleWellKnownTypes_wellFormed (typeName : JsString) :
    ((googleWellKnownTypes typeName).getD .plainObject).WellFormed := by
  rcases hf : googleWellKnownTypes typeName with _ | s
  · exact plainObject_wellFormed
  · have hall : ∀ e ∈ googleTypes, e.2.WellFormed := by
      simp [googleTypes, Schema.WellFormed, Schema.AllWellFormed, Schema.plainObject]
    obtain ⟨e, he, heq⟩ := List.mem_map.1 (Map.mem_of_find hf)
    rw [Option.getD_some, ← (Prod.mk.inj heq).2]
    exact hall e he

/-- No definition gives a name twice. -/
def DefinitionsWellFormed (definitions : Definitions) : Prop :=
  Schema.AllWellFormed definitions.entries

theorem allWellFormed_put {k : JsString} {s : Schema} (hs : s.WellFormed) :
    ∀ {es : List (JsString × Schema)}, Schema.AllWellFormed es →
      Schema.AllWellFormed (Map.put k s es)
  | [], _ => ⟨hs, trivial⟩
  | e :: es, h => by
    rw [Map.put]
    split_ifs
    · exact ⟨hs, h.2⟩
    · exact ⟨h.1, allWellFormed_put hs h.2⟩

variable {root : ProtoRoot} {comments : Comments}

/-- The resolver makes well-formed schemas and definitions of well-formed definitions. -/
def KeepsForm (resolve : Resolver) : Prop :=
  ∀ visited n st, DefinitionsWellFormed st.definitions →
    (resolve visited n st).1.WellFormed ∧ DefinitionsWellFormed (resolve visited n st).2.definitions

theorem fieldsToSchema_wellFormed (comments : Comments) {resolve : Resolver}
    (h : KeepsForm resolve) (visited : List JsString) (parent : ProtoType) :
    ∀ (fields : List (JsString × ProtoField)) (st : GenState),
      DefinitionsWellFormed st.definitions →
      Schema.AllWellFormed (fieldsToSchema comments resolve visited parent fields st).1 ∧
        DefinitionsWellFormed
          (fieldsToSchema comments resolve visited parent fields st).2.definitions
  | [], _, hi => ⟨trivial, hi⟩
  | e :: fields, st, hi => by
    have ht : (typeSchema resolve visited parent e.2 st).1.WellFormed ∧
        DefinitionsWellFormed (typeSchema resolve visited parent e.2 st).2.definitions := by
      unfold typeSchema
      split
      · next s hs => exact ⟨protoToJsonType_wellFormed hs, hi⟩
      · exact h _ _ _ hi
    have hp : (fieldToSchema comments resolve visited parent e.1 e.2 st).1.WellFormed := by
      unfold fieldToSchema mapFieldToSchema
      split_ifs
      · exact addFieldDescription_wellFormed comments
          (show (Schema.map _ none).WellFormed from ht.1) _ _
      · exact addFieldDescription_wellFormed comments ht.1 _ _
      · exact addFieldDescription_wellFormed comments ht.1 _ _
    have hrest := fieldsToSchema_wellFormed comments h visited parent fields _ ht.2
    rw [fieldsToSchema]
    dsimp only
    rw [state_fieldToSchema]
    exact ⟨⟨hp, hrest.1⟩, hrest.2⟩

theorem resolveStep_wellFormed {resolve : Resolver} (h : KeepsForm resolve) :
    KeepsForm (resolveStep root comments resolve) := by
  intro visited n st hi
  unfold resolveStep
  dsimp only
  split_ifs
  · exact ⟨trivial, hi⟩
  · exact ⟨trivial, hi⟩
  · rcases root.lookupType n with _ | type
    · dsimp only
      unfold tryResolveEnumType
      rcases root.lookupEnum n with _ | e
      · exact ⟨googleWellKnownTypes_wellFormed n, hi⟩
      · exact ⟨trivial, allWellFormed_put (show (enumSchema comments e n _).WellFormed from trivial)
          hi⟩
    · have hf := fieldsToSchema_wellFormed comments h (shortNameOf n :: n :: visited) type
        type.fields.entries { met root visited n st with
          definitions := st.definitions.set (typeCall root visited n st).definitionName
            .plainObject } (allWellFormed_put plainObject_wellFormed hi)
      have hs : ∀ d, (messageSchema comments type n d
          (fieldsToSchema comments resolve (shortNameOf n :: n :: visited) type type.fields.entries
            { met root visited n st with
              definitions := st.definitions.set (typeCall root visited n st).definitionName
                .plainObject }).1).WellFormed := by
        refine fun d => ⟨?_, hf.1⟩
        rw [names_fieldsToSchema]
        exact type.fields.nodup
      exact ⟨trivial, allWellFormed_put (hs _) hf.2⟩

theorem resolveComplexType_wellFormed :
    ∀ fuel, KeepsForm (resolveComplexType root comments fuel)
  | 0 => fun _ _ _ hi => ⟨plainObject_wellFormed, hi⟩
  | fuel + 1 => resolveStep_wellFormed (resolveComplexType_wellFormed fuel)

namespace JsonSchema

variable {N : Type}

/-- No properties of a schema or its definitions give a name twice. -/
structure WellFormed (s : JsonSchema) : Prop where
  names : (s.properties.map Prod.fst).Nodup
  properties : Schema.AllWellFormed s.properties
  defs : DefinitionsWellFormed s.defs

theorem toJson_wellFormed {s : JsonSchema} (h : s.WellFormed) :
    (s.toJson : Json N).WellFormed := by
  rw [toJson]
  refine ⟨?_, trivial, ⟨?_, Schema.entriesToJson_wellFormed h.properties⟩,
    Json.entriesWellFormed_append (Json.entriesWellFormed_append (Schema.optional_wellFormed _ _)
      (Schema.optional_wellFormed _ _)) (Schema.requiredEntry_wellFormed _)⟩
  · rw [List.map_cons, List.map_cons, List.map_append, List.map_append]
    exact ((((Schema.keys_optional _ _).append (Schema.keys_optional _ _)).append
      (Schema.keys_requiredEntry _)).cons_cons (js "properties")).cons_cons (js "type")
      |>.nodup (by decide)
  · rw [Schema.keys_entriesToJson]
    exact h.names

theorem refs_toJson (s : JsonSchema) : (s.toJson : Json N).refs = Schema.refsAll s.properties := by
  rw [toJson, Json.refs, Schema.refs_typeEntry, Json.entriesRefs, Json.entriesRefs_append,
    Json.entriesRefs_append, Schema.refs_optional (by decide), Schema.refs_optional (by decide),
    Schema.refs_requiredEntry, Json.refs, Schema.refs_entriesToJson]
  exact List.append_nil _

end JsonSchema

theorem definitions_toJson_wellFormed {N : Type} {definitions : Definitions}
    (h : DefinitionsWellFormed definitions) : (definitions.toJson : Json N).WellFormed := by
  refine ⟨?_, Schema.entriesToJson_wellFormed h⟩
  rw [Schema.keys_entriesToJson]
  exact definitions.nodup

theorem generateSchema_wellFormed (typeName : JsString) :
    (generateSchema root comments typeName).WellFormed := by
  unfold generateSchema
  rcases (if typeName = [] then none else root.lookupType typeName) with _ | type
  · exact ⟨List.nodup_nil, trivial, trivial⟩
  · have hres : KeepsForm (resolveComplexType root comments (searchDepth root)) :=
      resolveComplexType_wellFormed _
    have h := fieldsToSchema_wellFormed comments hres [] type type.fields.entries initialState
      trivial
    refine ⟨?_, h.1, ?_⟩
    · exact (names_fieldsToSchema ..).symm ▸ type.fields.nodup
    · rw [defs_typeToSchema]
      exact h.2

end DiiaApp
