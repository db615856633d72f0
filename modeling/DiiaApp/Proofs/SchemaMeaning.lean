import DiiaApp.Proofs.DistinctNames
import DiiaApp.SchemaMeaning

/-!
# Generated schemas mean the messages

Where the type of every field is laid out, the schema of the message admits with its definitions
just the trees of the message (`generateSchema_admits_iff`), its types referring to each other in
any way.
-/

namespace DiiaApp

open Js Shapes Validity

variable {N : Type} {integral : N → Prop} {refs : JsString → Json N → Prop}

namespace Schema

theorem optional_annotates {name : String} {text : Option JsString} (h : js name ∉ assertions) :
    ∀ e ∈ (optional (js name) text : List (JsString × Json N)), e.1 ∉ assertions := by
  intro e he
  cases text with
  | none => exact absurd he List.not_mem_nil
  | some s => rwa [List.mem_singleton.1 he]

theorem description_annotates {text : Option JsString} :
    ∀ e ∈ (optional (js "description") text : List (JsString × Json N)), e.1 ∉ assertions :=
  optional_annotates (by decide)

theorem protoSource_annotates {text : Option JsString} :
    ∀ e ∈ (optional (js "protoSource") text : List (JsString × Json N)), e.1 ∉ assertions :=
  optional_annotates (by decide)

theorem admits_ref {name : JsString} {description : Option JsString} {v : Json N} :
    Admits integral refs (ref name description).toJson v ↔ refs (refText name) v := by
  rw [toJson, ← List.singleton_append, admits_append description_annotates, admits_obj]
  simp [Asks]

theorem admits_any {description : Option JsString} {v : Json N} :
    Admits integral refs (any description).toJson v := by
  rw [toJson, ← List.nil_append (optional _ _), admits_append description_annotates, admits_obj]
  simp

theorem admits_primitive {type : JsString} {format description : Option JsString} {v : Json N} :
    Admits integral refs (primitive type format description).toJson v ↔
      IsOfType integral type v := by
  have hformat : ∀ e ∈ (optional (js "format") format : List (JsString × Json N)),
      e.1 ∉ assertions := optional_annotates (by decide)
  rw [toJson, ← List.singleton_append,
    admits_append (List.forall_mem_append.2 ⟨hformat, description_annotates⟩), admits_type]

theorem admits_array {items : Schema} {description : Option JsString} {v : Json N} :
    Admits integral refs (array items description).toJson v ↔
      ∃ xs, v = .arr xs ∧ ∀ x ∈ xs, Admits integral refs items.toJson x := by
  rw [toJson]
  show Admits integral refs (.obj ([typeEntry "array", (js "items", items.toJson)]
    ++ optional (js "description") description)) v ↔ _
  rw [admits_append description_annotates]
  exact Validity.admits_array

theorem admits_map {values : Schema} {description : Option JsString} {v : Json N} :
    Admits integral refs (map values description).toJson v ↔
      ∃ es, v = .obj es ∧ ∀ e ∈ es, Admits integral refs values.toJson e.2 := by
  rw [toJson]
  show Admits integral refs (.obj ([typeEntry "object", (js "additionalProperties", values.toJson)]
    ++ optional (js "description") description)) v ↔ _
  rw [admits_append description_annotates]
  exact admits_dictionary

theorem admits_enum {values : List JsString} {description : Option JsString}
    {protoSource : JsString} {v : Json N} :
    Admits integral refs (enum values description protoSource).toJson v ↔
      ∃ name ∈ values, v = .str name := by
  have hsource : ∀ e ∈ [(js "protoSource", (.str protoSource : Json N))], e.1 ∉ assertions := by
    rw [List.forall_mem_singleton]
    show js "protoSource" ∉ assertions
    decide
  rw [toJson]
  show Admits integral refs (.obj ([typeEntry "string", (js "enum", .arr (values.map .str))]
    ++ (optional (js "description") description ++ [(js "protoSource", .str protoSource)]))) v ↔ _
  rw [admits_append (List.forall_mem_append.2 ⟨description_annotates, hsource⟩)]
  exact admits_texts

theorem asks_requiredEntry {schema : List (JsString × Json N)} {required : List JsString}
    {v : Json N} : (∀ e ∈ requiredEntry required, Asks integral refs schema e v) ↔
      HasNames required v := by
  unfold requiredEntry
  split_ifs with h
  · subst h
    cases v <;> simp [HasNames]
  · rw [List.forall_mem_singleton]
    simp [Asks, texts, elements, textOf, List.filterMap_map, Function.comp_def]

theorem asks_properties {v : Json N} :
    ∀ {properties : List (JsString × Schema)},
      (∀ p ∈ entriesToJson properties, ∀ w, (p.1, w) ∈ members v → Admits integral refs p.2 w) ↔
        ∀ p ∈ properties, ∀ w, (p.1, w) ∈ members v → Admits integral refs p.2.toJson w
  | [] => by simp [entriesToJson]
  | p :: properties => by
    rw [entriesToJson, List.forall_mem_cons, List.forall_mem_cons, asks_properties]

/-- A message, at the top or in a definition, `middle` being its source and description. -/
theorem admits_message {properties : List (JsString × Schema)} {required : List JsString}
    {middle : List (JsString × Json N)} (hm : ∀ e ∈ middle, e.1 ∉ assertions) {v : Json N} :
    Admits integral refs (.obj (typeEntry "object"
        :: (js "properties", .obj (entriesToJson properties))
        :: (middle ++ requiredEntry required))) v ↔
      ∃ es, v = .obj es ∧ (∀ name ∈ required, name ∈ es.map Prod.fst) ∧
        ∀ p ∈ properties, ∀ w, (p.1, w) ∈ es → Admits integral refs p.2.toJson w := by
  have hmiddle : ∀ schema, ∀ e ∈ middle, Asks integral refs schema e v := by
    intro schema e he
    simp only [Asks, ofName_eq_none (hm e he)]
  rw [admits_obj, List.forall_mem_cons, List.forall_mem_cons, List.forall_mem_append,
    asks_requiredEntry]
  simp only [Asks, typeEntry, ofName_type, ofName_properties, MeetsType, isOfType_object]
  constructor
  · rintro ⟨⟨es, rfl⟩, hp, -, hr⟩
    exact ⟨es, rfl, hr, (asks_properties (v := .obj es)).1 hp⟩
  · rintro ⟨es, rfl, hr, hp⟩
    exact ⟨⟨es, rfl⟩, (asks_properties (v := .obj es)).2 hp, hmiddle _, hr⟩

theorem admits_withDescription {s : Schema} {description : JsString} {v : Json N} :
    Admits integral refs (s.withDescription description).toJson v ↔
      Admits integral refs s.toJson v := by
  cases s with
  | any d => exact iff_of_true admits_any admits_any
  | ref name d => rw [withDescription, admits_ref, admits_ref]
  | primitive type format d => rw [withDescription, admits_primitive, admits_primitive]
  | enum values d protoSource => rw [withDescription, admits_enum, admits_enum]
  | array items d => rw [withDescription, admits_array, admits_array]
  | map values d => rw [withDescription, admits_map, admits_map]
  | object properties d protoSource required =>
    rw [withDescription, toJson, toJson,
      admits_message (List.forall_mem_append.2 ⟨description_annotates, protoSource_annotates⟩),
      admits_message (List.forall_mem_append.2 ⟨description_annotates, protoSource_annotates⟩)]

end Schema

variable {root : ProtoRoot} {comments : Comments}

theorem admits_addFieldDescription {s : Schema} {name parent : JsString} {v : Json N} :
    Admits integral refs (addFieldDescription comments s name parent).toJson v ↔
      Admits integral refs s.toJson v := by
  unfold addFieldDescription
  split
  · exact Schema.admits_withDescription
  · rfl

theorem protoToJsonType_primitive {type : JsString} {s : Schema}
    (hs : protoToJsonType type = some s) (hi : type ∉ inheritedNames) :
    ∃ format, s = .primitive (jsonTypeOf type) format none := by
  have hinteger : ∀ type ∈ integerTypes, jsonTypeOf type = js "integer" := by decide
  unfold protoToJsonType at hs
  split_ifs at hs with h1 h2 h3 h4 h5 <;> obtain rfl := Option.some.inj hs
  · exact ⟨none, by rw [jsonTypeOf, if_pos h1]⟩
  · exact ⟨none, by rw [hinteger type h2]⟩
  · subst h3
    exact ⟨none, rfl⟩
  · subst h4
    exact ⟨none, rfl⟩
  · subst h5
    exact ⟨_, rfl⟩

theorem hasValueType_iff {t : ValueType} {v : Json N} : HasValueType integral root t v ↔
    (valueShape root t).Holds (IsOfType integral) (HasValueType integral root) v := hasType_iff

theorem admits_scalar {type : JsString} {s : Schema} (hs : protoToJsonType type = some s)
    (hi : type ∉ inheritedNames) {v : Json N} :
    Admits integral refs s.toJson v ↔ HasValueType integral root (.scalar type) v := by
  obtain ⟨format, rfl⟩ := protoToJsonType_primitive hs hi
  rw [Schema.admits_primitive, hasValueType_iff]
  simp [valueShape, Shape.Holds]

/-- A field admits what its type has where its items do, on the trees that are no larger. -/
theorem admits_fieldSchemaOf {message : ProtoType} {name : JsString} {field : ProtoField}
    {item : Schema} {w : Json N} (h : ∀ u : Json N, sizeOf u ≤ sizeOf w →
      (Admits integral refs item.toJson u ↔
        HasValueType integral root (itemType message field) u)) :
    Admits integral refs (fieldSchemaOf comments message name field item).toJson w ↔
      HasValueType integral root (valueType message field) w := by
  unfold fieldSchemaOf valueType
  split_ifs
  · rw [admits_addFieldDescription, Schema.admits_map, hasValueType_iff]
    refine exists_congr fun es => and_congr_right ?_
    rintro rfl
    exact forall₂_congr fun e he => h e.2 (sizeOf_member he).le
  · rw [Schema.admits_array, hasValueType_iff]
    refine exists_congr fun xs => and_congr_right ?_
    rintro rfl
    exact forall₂_congr fun x hx => admits_addFieldDescription.trans (h x (sizeOf_element hx).le)
  · rw [admits_addFieldDescription]
    exact h w le_rfl

/-- A message admits what its shape does where its fields do, on smaller trees. -/
theorem admits_properties {calls : List TypeCall} {message : ProtoType}
    {properties : List (JsString × Schema)} (hd : Describable root) (hm : message ∈ root.types)
    (hp : List.Forall₂ (IsPropertySchema comments calls message) message.fields.entries properties)
    {v : Json N} (h : ∀ u : Json N, sizeOf u < sizeOf v → ∀ c ∈ calls,
      (refs (Schema.refText c.definitionName) u ↔
        HasValueType integral root (.object c.typeName) u)) :
    (∃ es, v = .obj es ∧ (∀ name ∈ requiredFields message, name ∈ es.map Prod.fst) ∧
        ∀ p ∈ properties, ∀ w, (p.1, w) ∈ es → Admits integral refs p.2.toJson w) ↔
      (Shape.record (messageFields message)).Holds (IsOfType integral)
        (HasValueType integral root) v := by
  refine exists_congr fun es => and_congr_right ?_
  rintro rfl
  refine and_congr ?_ ?_
  · have hrequired : ∀ e ∈ message.fields.entries,
        (¬ isExplicitlyOptional e.2 ∧ ¬ e.2.repeated ↔ e.2.partOf.isNone ∧ ¬ e.2.repeated) := by
      intro e he
      refine and_congr_left fun _ => ?_
      unfold isExplicitlyOptional
      rcases ho : e.2.partOf with _ | oneof
      · simp
      · simp [hd.oneofs message hm e he oneof ho]
    simp only [requiredFields, messageFields, List.mem_map, List.mem_filter, decide_eq_true_eq]
    constructor
    · rintro hr _ ⟨e, he, rfl⟩ hreq
      exact hr e.1 ⟨e, ⟨he, (hrequired e he).2 (by simpa using hreq)⟩, rfl⟩
    · rintro hr _ ⟨e, ⟨he, hreq⟩, rfl⟩
      exact hr _ ⟨e, he, rfl⟩ (by simpa using (hrequired e he).1 hreq)
  · rw [messageFields, List.forall_mem_map]
    refine (forall_mem_iff hp fun e he p hep => ?_).symm
    obtain ⟨hname, item, hitem, hschema⟩ := hep
    rw [← hname, hschema]
    refine forall_congr' fun w => imp_congr_right fun hw => (admits_fieldSchemaOf ?_).symm
    intro u hu
    have hlt : sizeOf u < sizeOf (Json.obj es) := hu.trans_lt (sizeOf_member hw)
    unfold itemType
    rcases hitem with hs | ⟨hs, c, hc, hn, rfl⟩
    · rw [hs]
      exact admits_scalar hs (hd.scalars message hm e he)
    · rw [hs, Schema.admits_ref, ← hn]
      exact h u hlt c hc

theorem definition_eq {s : JsonSchema} {d : JsString} {definition : Schema}
    (h : s.defs.get d = some definition) :
    s.definition (Schema.refText d) = some (definition.toJson : Json N) := by
  have hinj : ∀ e ∈ s.defs.entries, Schema.refText e.1 = Schema.refText d ↔ e.1 = d :=
    fun _ _ => List.append_right_inj _
  rw [JsonSchema.definition, Map.find_map_entry Schema.toJson hinj]
  exact congrArg (Option.map Schema.toJson) h

theorem met_found (hd : Describable root) {typeName : JsString} {c : TypeCall}
    (hc : c ∈ searchCalls root comments typeName) : c.Found root :=
  found_of_ledTo hd.resolved hd.names ((searchCalls_spec root comments typeName).1 c hc)

variable (integral) in
/-- References to the types that the search meets admit just the trees of the types. -/
theorem defined_definition_iff (hd : Describable root) {typeName : JsString} {type : ProtoType}
    (ht : foundType root typeName = some type) (hall : ExpandsAll root comments typeName) :
    ∀ (k : ℕ) (v : Json N), sizeOf v < k → ∀ c ∈ searchCalls root comments typeName,
      (Defined integral (generateSchema root comments typeName).definition
          (Schema.refText c.definitionName) v ↔
        HasValueType integral root (.object c.typeName) v)
  | 0, _, h, _, _ => absurd h (Nat.not_lt_zero _)
  | k + 1, v, hk, c, hc => by
    rw [defined_iff, hasValueType_iff]
    rcases hl : root.lookupType c.typeName with _ | message
    · have hfound := (met_found hd hc).resolve_left (by rw [hl]; exact Bool.false_ne_true)
      obtain ⟨e, he⟩ := Option.isSome_iff_exists.1 hfound
      rw [definition_eq (defs_enum hall hc hl he)]
      simp only [Option.some_inj, exists_eq_left', enumSchema, Schema.admits_enum, valueShape, hl,
        he, Option.elim_some, Shape.Holds]
    · obtain ⟨properties, hs, hp⟩ := defs_message hd.resolved hd.names ht hall hc hl
      rw [definition_eq hs]
      simp only [Option.some_inj, exists_eq_left', messageSchema, Schema.toJson, valueShape, hl]
      rw [Schema.admits_message
        (List.forall_mem_append.2 ⟨Schema.description_annotates, Schema.protoSource_annotates⟩)]
      exact admits_properties hd (root.lookupType_mem hl) hp fun u hu =>
        defined_definition_iff hd ht hall k u (hu.trans_le (Nat.le_of_lt_succ hk))

/-- The schema of a message admits with its definitions just the trees of the message, where the
type of every field is laid out below it in order. -/
theorem generateSchema_admits_iff (comments : Comments) (hd : Describable root)
    {typeName : JsString} {type : ProtoType} (ht : foundType root typeName = some type) {l : Layout}
    (h : l.InOrder root typeName) (hl : l.TypesLaidOut root typeName) (integral : N → Prop)
    (v : Json N) :
    (generateSchema root comments typeName).AdmitsTree integral v ↔
      HasValueType integral root (.object typeName) v := by
  have htype := lookupType_of_found ht
  obtain ⟨hcalls, hschema⟩ := searchCalls_of_found comments ht
  have hp := searchType_properties comments hd.resolved hd.names (root.lookupType_mem htype)
  rw [← hcalls] at hp
  have hall : ExpandsAll root comments typeName :=
    .of_layout ht (h.typesLaidOut (searchLayout_inOrder comments ht) hl)
  have hrefs := defined_definition_iff integral hd ht hall
  rw [JsonSchema.AdmitsTree, hasValueType_iff]
  have hjson : ((generateSchema root comments typeName).toJson : Json N) =
      .obj (Schema.typeEntry "object" :: (js "properties",
          .obj (Schema.entriesToJson (searchType root comments type).1))
        :: ((Schema.optional (js "protoSource") (some (generateMessageProtoSource comments [] type))
          ++ Schema.optional (js "description") (commentAt comments.message (shortNameOf typeName)))
          ++ Schema.requiredEntry (requiredFields type))) := by
    rw [hschema]
    rfl
  rw [hjson, Schema.admits_message
    (List.forall_mem_append.2 ⟨Schema.protoSource_annotates, Schema.description_annotates⟩)]
  simp only [valueShape, htype]
  exact admits_properties hd (root.lookupType_mem htype) hp fun u _ =>
    hrefs (sizeOf u + 1) u (Nat.lt_succ_self _)

theorem treeRoot_describable : Describable treeRoot where
  resolved := rootOf_allResolved (by decide)
  names := rootOf_findsFullNames (by decide)
  scalars := by decide
  oneofs := by
    have h : ∀ type ∈ treeRoot.types, ∀ e ∈ type.fields.entries, e.2.partOf = none := by decide
    intro type ht e he oneof ho
    rw [h type ht e he] at ho
    cases ho

def treeWith (colour : String) (children : List (Json ℤ)) : Json ℤ :=
  .obj [(js "colour", .str (js colour)), (js "children", .arr children)]

theorem hasValueType_treeWith {integral : ℤ → Prop} {colour : String} {children : List (Json ℤ)}
    (hc : colour = "RED" ∨ colour = "GREEN")
    (h : ∀ t ∈ children, HasValueType integral treeRoot (.object (js "app.Tree")) t) :
    HasValueType integral treeRoot (.object (js "app.Tree")) (treeWith colour children) := by
  have hcolour : HasValueType integral treeRoot (.object (js "app.Colour")) (.str (js colour)) := by
    refine hasValueType_iff.2 ⟨js colour, ?_, rfl⟩
    rcases hc with rfl | rfl <;> decide
  have hchildren : HasValueType integral treeRoot (.list (.object (js "app.Tree")))
      (.arr children) := hasValueType_iff.2 ⟨children, rfl, h⟩
  have hfields : messageFields treeType = [⟨js "colour", true, .object (js "app.Colour")⟩,
      ⟨js "children", false, .list (.object (js "app.Tree"))⟩] := rfl
  have hnames : js "colour" ≠ js "children" := by decide
  have hshape : valueShape treeRoot (.object (js "app.Tree")) = .record (messageFields treeType) :=
    rfl
  refine .record hshape ?_ ?_
  · rw [hfields]
    simp
  · rw [hfields]
    simp [hnames, hnames.symm, hcolour, hchildren]

theorem generateSchema_admits_iff_tree :
    (generateSchema treeRoot noComments (js "app.Tree")).AdmitsTree (fun _ => True)
      (treeWith "GREEN" [treeWith "RED" []]) := by
  have hd := treeRoot_describable
  have hdistinct : DistinctNames treeRoot := ⟨by decide, by decide, by decide⟩
  have ht : foundType treeRoot (js "app.Tree") = some treeType := rfl
  refine (generateSchema_admits_iff noComments hd ht (searchLayout_inOrder noComments ht)
    (hdistinct.typesLaidOut noComments hd.resolved hd.names ht) _ _).2 ?_
  refine hasValueType_treeWith (.inr rfl) fun t ht => ?_
  rw [List.mem_singleton.1 ht]
  exact hasValueType_treeWith (.inl rfl) fun t ht => absurd ht List.not_mem_nil

end DiiaApp
