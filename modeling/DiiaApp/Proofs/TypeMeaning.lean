import DiiaApp.TypeMeaning

/-!
# Schemas of types mean the types

The schema of a type of a shape, all types it leads to being of their shapes too, admits just the
values of the type.
-/

namespace DiiaApp

open Js Descent LiteralNumber Shapes TypeFlags Validity
open Node (evalElements evalProperties)

variable {τ N : Type}

/-- The schema admits just what `P` holds of, whatever references and integers there are. -/
def Means (schema : Json N) (P : Json N → Prop) : Prop :=
  ∀ (integral : N → Prop) (refs : JsString → Json N → Prop) (v : Json N),
    Admits integral refs schema v ↔ P v

/-- The node is written as an object that is a schema of what `P` holds of. -/
def Describes (node : Node N) (P : Json N → Prop) : Prop :=
  ∃ ps es, node = .objectLiteral ps ∧ evalProperties ps = some es ∧
    Means (.obj (Map.empty.setAll es).entries) P

theorem Describes.eval {node : Node N} {P : Json N → Prop} (h : Describes node P) :
    ∃ schema, node.eval = some schema ∧ Means schema P := by
  obtain ⟨ps, es, rfl, hes, hm⟩ := h
  exact ⟨_, by rw [Node.eval, hes, Option.map_some], hm⟩

theorem Describes.congr {node : Node N} {P Q : Json N → Prop} (h : Describes node P)
    (hPQ : ∀ v, P v ↔ Q v) : Describes node Q := by
  obtain ⟨ps, es, hps, hes, hm⟩ := h
  exact ⟨ps, es, hps, hes, fun integral refs v => (hm integral refs v).trans (hPQ v)⟩

/-! ## Entries -/

theorem setAll_of_nodup {es : List (JsString × Json N)} (h : (es.map Prod.fst).Nodup) :
    (Map.empty.setAll es).entries = es := by
  induction es using List.reverseRecOn with
  | nil => rfl
  | append_singleton es e ih =>
    rw [List.map_append, List.nodup_append] at h
    obtain ⟨hes, -, hnew⟩ := h
    have hget : (Map.empty.setAll es).get e.1 = none := by
      rw [Map.get, ih hes, Map.find_eq_none]
      exact fun hm => hnew _ hm e.1 (by simp) rfl
    rw [Map.setAll_append]
    show ((Map.empty.setAll es).set e.1 e.2).entries = es ++ [e]
    rw [Map.entries_set_of_new _ hget, ih hes]

theorem mem_setAll {es : List (JsString × Json N)} {k : JsString} {v : Json N} :
    (k, v) ∈ (Map.empty.setAll es).entries ↔
      ((es.filter fun e => e.1 = k).getLast?).map Prod.snd = some v := by
  rw [Map.mem_entries, Map.setAll, Map.get_foldl_put, Map.get_empty, Option.or_none]

/-- Entries whose names ask nothing, before and behind. -/
theorem Means.annotate {es front back : List (JsString × Json N)} {P : Json N → Prop}
    (h : Means (.obj (Map.empty.setAll es).entries) P) (hf : ∀ e ∈ front, e.1 ∉ assertions)
    (hb : ∀ e ∈ back, e.1 ∉ assertions) :
    Means (.obj (Map.empty.setAll (front ++ (es ++ back))).entries) P := by
  intro integral refs v
  rw [← h integral refs v]
  refine admits_congr fun e he => ?_
  obtain ⟨k, w⟩ := e
  have hnil : ∀ {l : List (JsString × Json N)}, (∀ e ∈ l, e.1 ∉ assertions) →
      l.filter (fun e => e.1 = k) = [] := by
    intro l hl
    rw [List.filter_eq_nil_iff]
    intro e hm hk
    have hnone := ofName_eq_none (hl e hm)
    rw [of_decide_eq_true hk] at hnone
    rw [hnone] at he
    exact Bool.noConfusion he
  rw [mem_setAll, mem_setAll, List.filter_append, List.filter_append, hnil hf, hnil hb,
    List.nil_append, List.append_nil]

theorem evalProperties_append {ps qs : List (JsString × Node N)} :
    evalProperties (ps ++ qs) =
      (evalProperties ps).bind fun es => (evalProperties qs).map fun fs => es ++ fs := by
  induction ps with
  | nil => simp [evalProperties]
  | cons p ps ih =>
    simp only [List.cons_append, evalProperties, ih]
    rcases propertyName p.1 with _ | name
    · rfl
    rcases p.2.eval with _ | v
    · rfl
    rcases evalProperties ps with _ | es
    · rfl
    rcases evalProperties qs with _ | fs <;> rfl

/-- An entry that asks nothing. -/
def Annotates (p : JsString × Node N) : Prop :=
  TypeParser.IsAnnotation p.1 ∧ ∃ v, p.2.eval = some v

theorem evalProperties_annotations {ps : List (JsString × Node N)} (h : ∀ p ∈ ps, Annotates p) :
    ∃ es, evalProperties ps = some es ∧ ∀ e ∈ es, e.1 ∉ assertions := by
  induction ps with
  | nil => exact ⟨[], rfl, by simp⟩
  | cons p ps ih =>
    rw [List.forall_mem_cons] at h
    obtain ⟨⟨⟨hname, ha⟩, v, hv⟩, hps⟩ := h
    obtain ⟨es, hes, hn⟩ := ih hps
    refine ⟨(p.1, v) :: es, ?_, List.forall_mem_cons.2 ⟨ha, hn⟩⟩
    simp [evalProperties, hname, hv, hes]

theorem Describes.annotate {ps : List (JsString × Node N)} {P : Json N → Prop}
    (h : Describes (.objectLiteral ps) P) {front back : List (JsString × Node N)}
    (hf : ∀ p ∈ front, Annotates p)
    (hb : ∀ p ∈ back, Annotates p) : Describes (.objectLiteral (front ++ (ps ++ back))) P := by
  obtain ⟨ps', es, heq, hes, hm⟩ := h
  obtain rfl := Node.objectLiteral.inj heq
  obtain ⟨fs, hfs, hfn⟩ := evalProperties_annotations hf
  obtain ⟨bs, hbs, hbn⟩ := evalProperties_annotations hb
  refine ⟨_, fs ++ (es ++ bs), rfl, ?_, hm.annotate hfn hbn⟩
  rw [evalProperties_append, evalProperties_append, hfs, hes, hbs]
  rfl

/-- Entries of different names are all there. -/
theorem describes_of_nodup {ps : List (JsString × Node N)} (es : List (JsString × Json N))
    {P : Json N → Prop} (hes : evalProperties ps = some es) (hn : (es.map Prod.fst).Nodup)
    (hm : Means (.obj es) P) : Describes (.objectLiteral ps) P :=
  ⟨ps, es, rfl, hes, by rwa [setAll_of_nodup hn]⟩

/-! ## Schemas without others -/

namespace TypeParser

@[simp] theorem propertyName_type : propertyName (js "type") = some (js "type") := by decide

@[simp] theorem propertyName_enum : propertyName (js "enum") = some (js "enum") := by decide

@[simp] theorem propertyName_items : propertyName (js "items") = some (js "items") := by decide

@[simp] theorem propertyName_anyOf : propertyName (js "anyOf") = some (js "anyOf") := by decide

@[simp] theorem propertyName_required : propertyName (js "required") = some (js "required") := by
  decide

@[simp] theorem propertyName_properties :
    propertyName (js "properties") = some (js "properties") := by decide

@[simp] theorem propertyName_additionalProperties :
    propertyName (js "additionalProperties") = some (js "additionalProperties") := by decide

theorem ScalarKind.isOfType {s : ScalarKind} {integral : N → Prop} {v : Json N} :
    IsOfType integral s.name v ↔ typeOf v = s.name :=
  isOfType_iff (by cases s <;> decide)

theorem describes_scalar (s : ScalarKind) :
    Describes (typeSchema s.name : Node N) fun v => ∃ s' ∈ [s], typeOf v = s'.name := by
  refine describes_of_nodup [(js "type", .str s.name)] ?_ (List.nodup_singleton _)
    fun integral refs v => ?_
  · simp [evalProperties, Node.eval]
  · rw [admits_type, ScalarKind.isOfType]
    simp

theorem evalElements_map {α : Type} {f : α → Node N} {g : α → Json N} {xs : List α}
    (h : ∀ a ∈ xs, (f a).eval = some (g a)) : evalElements (xs.map f) = some (xs.map g) := by
  induction xs with
  | nil => rfl
  | cons a xs ih =>
    rw [List.forall_mem_cons] at h
    simp [evalElements, h.1, ih h.2]

theorem describes_texts (texts : List JsString) :
    Describes (enumSchema (texts.map fun s => .stringLiteral (.string s)) : Node N)
      fun v => ∃ s ∈ texts, v = .str s := by
  refine describes_of_nodup
    [(js "type", .str (js "string")), (js "enum", .arr (texts.map .str))] ?_
    (show [js "type", js "enum"].Nodup by decide) fun integral refs v => admits_texts
  have hvalues : evalElements (texts.map fun s => (.stringLiteral (.string s) : Node N)) =
      some (texts.map .str) := evalElements_map fun s _ => by rw [Node.eval]
  simp [evalProperties, Node.eval, TypeParser.text, hvalues]

theorem describes_scalars (scalars : List ScalarKind) :
    Describes (.objectLiteral [(js "type",
        .arrayLiteral (scalars.map fun s => .stringLiteral (.string s.name)))] : Node N)
      fun v => ∃ s ∈ scalars, typeOf v = s.name := by
  refine describes_of_nodup [(js "type", .arr ((scalars.map ScalarKind.name).map .str))] ?_
    (List.nodup_singleton _) fun integral refs v => ?_
  · have hvalues : evalElements (scalars.map fun s => (.stringLiteral (.string s.name) : Node N)) =
        some ((scalars.map ScalarKind.name).map .str) := by
      rw [List.map_map]
      exact evalElements_map fun s _ => by rw [Node.eval]; rfl
    simp [evalProperties, Node.eval, hvalues]
  · rw [admits_types]
    simp [ScalarKind.isOfType]

/-! ## Schemas with others -/

theorem describes_array {node : Node N} {P : Json N → Prop} (h : Describes node P) :
    Describes (.objectLiteral [(js "type", TypeParser.text "array"), (js "items", node)])
      fun v => ∃ xs, v = .arr xs ∧ ∀ x ∈ xs, P x := by
  obtain ⟨schema, hs, hm⟩ := h.eval
  refine describes_of_nodup [(js "type", .str (js "array")), (js "items", schema)] ?_
    (show [js "type", js "items"].Nodup by decide) fun integral refs v => ?_
  · simp [evalProperties, Node.eval, TypeParser.text, hs]
  · simp only [admits_array, hm integral refs]

theorem describes_dictionary {node : Node N} {P : Json N → Prop} (h : Describes node P) :
    Describes (.objectLiteral [(js "type", TypeParser.text "object"),
        (js "additionalProperties", node)])
      fun v => ∃ es, v = .obj es ∧ ∀ e ∈ es, P e.2 := by
  obtain ⟨schema, hs, hm⟩ := h.eval
  refine describes_of_nodup
    [(js "type", .str (js "object")), (js "additionalProperties", schema)] ?_
    (show [js "type", js "additionalProperties"].Nodup by decide) fun integral refs v => ?_
  · simp [evalProperties, Node.eval, TypeParser.text, hs]
  · simp only [admits_dictionary, hm integral refs]

/-- Assignments of schemas to the names of fields. -/
theorem evalProperties_fields {P : τ → Json N → Prop} {fields : List (RecordField τ)}
    {assignments : List (JsString × Node N)} (h : List.Forall₂ (fun (f : RecordField τ) a =>
      propertyName a.1 = some f.name ∧ Describes a.2 (P f.type)) fields assignments) :
    ∃ es, evalProperties assignments = some es ∧
      List.Forall₂ (fun (f : RecordField τ) e => f.name = e.1 ∧ Means e.2 (P f.type)) fields
        es := by
  induction h with
  | nil => exact ⟨[], rfl, .nil⟩
  | @cons f a fields assignments h _ ih =>
    obtain ⟨es, hes, hall⟩ := ih
    obtain ⟨schema, hs, hm⟩ := h.2.eval
    exact ⟨(f.name, schema) :: es, by simp [evalProperties, h.1, hs, hes], .cons ⟨rfl, hm⟩ hall⟩

theorem describes_record {P : τ → Json N → Prop} {fields : List (RecordField τ)}
    {assignments : List (JsString × Node N)} (h : List.Forall₂ (fun (f : RecordField τ) a =>
      propertyName a.1 = some f.name ∧ Describes a.2 (P f.type)) fields assignments)
    (hn : (fields.map RecordField.name).Nodup) :
    Describes (.objectLiteral [(js "required", .arrayLiteral
        (((fields.filter RecordField.required).map RecordField.name).map
          fun s => .stringLiteral (.string s))),
        (js "type", TypeParser.text "object"), (js "properties", .objectLiteral assignments)])
      ((Shape.record fields).Holds ScalarKind.Holds P) := by
  obtain ⟨es, hes, hall⟩ := evalProperties_fields h
  have hnames : fields.map RecordField.name = es.map Prod.fst := by
    rw [← List.forall₂_eq_eq_eq, List.forall₂_map_left_iff, List.forall₂_map_right_iff]
    exact hall.imp fun _ _ h => h.1
  have hrequired : evalElements (((fields.filter RecordField.required).map RecordField.name).map
      fun s => (.stringLiteral (.string s) : Node N)) =
      some (((fields.filter RecordField.required).map RecordField.name).map .str) :=
    evalElements_map fun s _ => by rw [Node.eval]
  refine describes_of_nodup [(js "required",
      .arr (((fields.filter RecordField.required).map RecordField.name).map .str)),
      (js "type", .str (js "object")), (js "properties", .obj es)] ?_
    (show [js "required", js "type", js "properties"].Nodup by decide) fun integral refs v => ?_
  · simp only [evalProperties, Node.eval, TypeParser.text, hrequired, hes, Option.map_some,
      Option.bind_some, propertyName_required, propertyName_type, propertyName_properties,
      setAll_of_nodup (hnames ▸ hn)]
  · rw [admits_record]
    refine exists_congr fun object => and_congr_right fun _ => and_congr ?_ ?_
    · simp only [List.mem_map, List.mem_filter]
      constructor
      · exact fun hr f hf hreq => hr f.name ⟨f, ⟨hf, hreq⟩, rfl⟩
      · rintro hr _ ⟨f, ⟨hf, hreq⟩, rfl⟩
        exact hr f hf hreq
    · refine (forall_mem_iff hall fun f _ e hfe => ?_).symm
      rw [hfe.1]
      exact forall_congr' fun w => imp_congr_right fun _ => (hfe.2 integral refs w).symm

theorem describes_anyOf {α : Type} {P : α → Json N → Prop} {members : List α}
    {nodes : List (Node N)} (h : List.Forall₂ (fun u node => Describes node (P u)) members nodes) :
    Describes (.objectLiteral [(js "anyOf", .arrayLiteral nodes)])
      fun v => ∃ u ∈ members, P u v := by
  obtain ⟨schemas, hs, hall⟩ : ∃ schemas, evalElements nodes = some schemas ∧
      List.Forall₂ (fun u schema => Means schema (P u)) members schemas := by
    induction h with
    | nil => exact ⟨[], rfl, .nil⟩
    | cons h _ ih =>
      obtain ⟨schemas, hs, hall⟩ := ih
      obtain ⟨schema, hschema, hm⟩ := h.eval
      exact ⟨schema :: schemas, by simp [evalElements, hschema, hs], .cons hm hall⟩
  refine describes_of_nodup [(js "anyOf", .arr schemas)] ?_ (List.nodup_singleton _)
    fun integral refs v => ?_
  · simp [evalProperties, Node.eval, hs]
  · rw [admits_anyOf]
    exact (exists_mem_iff hall fun u schema hm => (hm integral refs v).symm).symm

/-! ## What the parser makes -/

variable [LiteralNumber N] {F : Factory} {G : TsGraph τ N} {parse : τ → Parsed (Node N)}

theorem createLiteral_eval {s : JsString} {node : Node N}
    (h : createLiteral F (.string s : LiteralValue N) = .ok node) : ∃ v, node.eval = some v := by
  unfold createLiteral Factory.createNumericLiteral at h
  simp only at h
  split_ifs at h <;> obtain rfl := Except.ok.inj h
  all_goals exact ⟨_, by rw [Node.eval]⟩

theorem createPropertyFromMetadata_annotates {name text : JsString} {x : JsString × Node N}
    (hn : IsAnnotation name) (h : createPropertyFromMetadata F name text = .ok x) :
    Annotates x := by
  obtain ⟨l, hl, rfl⟩ := map_eq_ok.1 h
  exact ⟨hn, createLiteral_eval hl⟩

theorem tagProperties_annotates {docTags : List JsDocTag} {ms : List (JsString × Node N)}
    (hn : ∀ tag ∈ docTags, IsAnnotation tag.name) (h : tagProperties F docTags = .ok ms) :
    ∀ m ∈ ms, Annotates m := by
  refine forall_mem_mapM h fun t ht x hx => createPropertyFromMetadata_annotates ?_ hx
  obtain ⟨tag, htag, ht⟩ := List.mem_flatMap.1 ht
  obtain ⟨text, -, rfl⟩ := List.mem_map.1 ht
  exact hn tag htag

theorem isAnnotation_description : IsAnnotation (js "description") := ⟨by decide, by decide⟩

theorem isAnnotation_title : IsAnnotation (js "title") := ⟨by decide, by decide⟩

theorem isAnnotation_format : IsAnnotation (js "format") := ⟨by decide, by decide⟩

omit [LiteralNumber N] in
theorem describes_addProperties {node x : Node N} {ms : List (JsString × Node N)}
    {P : Json N → Prop} (h : Describes node P) (hms : ∀ m ∈ ms, Annotates m)
    (hx : addProperties node ms = .ok x) : Describes x P := by
  have ⟨ps, _, hnode, _⟩ := h
  subst hnode
  obtain rfl := Except.ok.inj hx
  simpa using h.annotate hms (List.forall_mem_nil Annotates)

/-- The documentation of a property only annotates its schema. -/
theorem describes_addMetadata {property : TsProperty τ} {node x : Node N} {P : Json N → Prop}
    (h : Describes node P) (hn : ∀ tag ∈ property.jsDocTags, IsAnnotation tag.name)
    (hx : addMetadataToProperty F property node = .ok x) : Describes x P := by
  obtain ⟨described, hd, hx⟩ := bind_eq_ok.1 hx
  replace h : Describes described P := by
    unfold addDescription at hd
    split at hd
    · exact Except.ok.inj hd ▸ h
    · obtain ⟨m, hm, hd⟩ := bind_eq_ok.1 hd
      refine describes_addProperties h ?_ hd
      rw [List.forall_mem_singleton]
      exact createPropertyFromMetadata_annotates isAnnotation_description hm
  obtain ⟨tags, ht, hx⟩ := bind_eq_ok.1 hx
  split_ifs at hx
  · exact describes_addProperties h (tagProperties_annotates hn ht) hx
  · exact Except.ok.inj hx ▸ h

omit [LiteralNumber N] in
theorem describes_titled {u : τ} {node x : Node N} {P : Json N → Prop} (h : Describes node P)
    (hx : titled G u node = .ok x) : Describes x P := by
  unfold TypeParser.titled at hx
  split at hx
  · obtain ⟨ps, hps, rfl⟩ := map_eq_ok.1 hx
    rw [propertiesOf_eq_ok] at hps
    subst hps
    refine h.annotate (List.forall_mem_nil Annotates) ?_
    rw [List.forall_mem_singleton]
    exact ⟨isAnnotation_title, _, by rw [Node.eval]⟩
  · exact Except.ok.inj hx ▸ h

/-- What the parser makes of each type referred to is described. -/
def ParsesWell (parse : τ → Parsed (Node N)) (P : τ → Json N → Prop) (refs : List τ) : Prop :=
  ∀ u ∈ refs, ∀ node, parse u = .ok node → Describes node (P u)

variable {P : τ → Json N → Prop} {type : TsType τ N} {node : Node N}

theorem describes_primitive {s : ScalarKind} (hf : type.flags = s.flags)
    (ht : type.typeString = s.name) (hs : s ≠ .null)
    (h : parseTypeWith F G parse type = .ok node) :
    Describes node ((Shape.scalars [s]).Holds ScalarKind.Holds P) := by
  have hn : ¬ isNull type.flags := by
    rw [hf]
    cases s <;> first | decide | exact absurd rfl hs
  have hp : isPrimitive type.flags := by
    rw [hf]
    cases s <;> first | decide | exact absurd rfl hs
  have hl : ¬ meets type.flags literal := by
    rw [hf]
    cases s <;> decide
  have hu : s.name ≠ js "unknown" := by cases s <;> decide
  rw [parseTypeWith, if_neg hn, if_pos hp, lift_eq_ok, parsePrimitive, if_neg hl, ht,
    if_neg hu] at h
  obtain rfl := Except.ok.inj h
  exact describes_scalar s

theorem describes_named {symbol : TsSymbol} (hf : type.flags = {.object})
    (ha : type.isArrayType = false) (ht : type.isTupleType = false)
    (hs : type.symbol = some symbol) (hn : symbol.name = js "ObjectId" ∨ symbol.name = js "Date")
    (h : parseTypeWith F G parse type = .ok node) :
    Describes node ((Shape.scalars [.string]).Holds ScalarKind.Holds P) := by
  rw [parseTypeWith_object hf] at h
  have hstring := describes_scalar (N := N) .string
  rcases hn with hn | hn
  · have hnamed : namedSchema type = some (typeSchema (js "string") : Node N) := by
      simp [namedSchema, hs, hn]
    simp only [parseObjectType, ha, ht, hnamed, Bool.false_eq_true, if_false] at h
    exact Except.ok.inj h ▸ hstring
  · have hne : js "Date" ≠ js "ObjectId" := by decide
    have hnamed : namedSchema type = some (formatSchema "date-time" : Node N) := by
      simp [namedSchema, hs, hn, hne]
    simp only [parseObjectType, ha, ht, hnamed, Bool.false_eq_true, if_false] at h
    obtain rfl := Except.ok.inj h
    have hformat : ∀ p ∈ [(js "format", (TypeParser.text "date-time" : Node N))], Annotates p := by
      rw [List.forall_mem_singleton]
      exact ⟨isAnnotation_format, _, by rw [TypeParser.text, Node.eval]⟩
    exact hstring.annotate (List.forall_mem_nil Annotates) hformat

theorem IsStringLiteral.createLiteral {s : JsString} (h : IsStringLiteral type s) :
    createLiteral F (valueOf type) = .ok (.stringLiteral (.string s)) := by
  rw [valueOf, h.value]
  exact literalResult_string h.text

omit [LiteralNumber N] in
theorem literals_mapM_text {us : List τ} {texts : List JsString}
    {f : τ → Except ParserError (Node N)}
    (hf : ∀ u s, IsStringLiteral (G u) s → f u = .ok (.stringLiteral (.string s)))
    (h : List.Forall₂ (fun u s => IsStringLiteral (G u) s) us texts) :
    us.mapM f = .ok (texts.map fun s => .stringLiteral (.string s)) := by
  rw [mapM_eq_ok, List.forall₂_map_right_iff]
  exact h.imp hf

theorem describes_literal {s : JsString} (hs : IsStringLiteral type s)
    (h : parseTypeWith F G parse type = .ok node) :
    Describes node ((Shape.literals [s]).Holds ScalarKind.Holds P) := by
  have hflags : ¬ isNull type.flags ∧ isPrimitive type.flags ∧ meets type.flags literal := by
    rcases hs.flags with hf | hf <;> rw [hf] <;> decide
  have hvalue : ¬ (type.value.isNone ∧ type.intrinsicName.isSome) := by simp [hs.value]
  rw [parseTypeWith, if_neg hflags.1, if_pos hflags.2.1, lift_eq_ok, parsePrimitive,
    if_pos hflags.2.2, if_neg hvalue, hs.createLiteral] at h
  obtain rfl := Except.ok.inj h
  exact describes_texts [s]

theorem describes_enum {texts : List JsString} (hf : type.flags = {.enumLiteral, .union})
    (hm : List.Forall₂ (fun u s => IsStringLiteral (G u) s) type.types texts)
    (h : parseTypeWith F G parse type = .ok node) :
    Describes node ((Shape.literals texts).Holds ScalarKind.Holds P) := by
  have hflags : ¬ isNull type.flags ∧ ¬ isPrimitive type.flags ∧ type.flags ≠ {.object} ∧
      type.flags ≠ {.union} ∧ type.flags ≠ {.intersection} ∧ meets type.flags enumLike := by
    rw [hf]
    decide
  obtain ⟨hn, hp, ho, hu, hi, he⟩ := hflags
  rw [parseTypeWith, if_neg hn, if_neg hp, if_neg ho, if_neg hu, if_neg hi, if_pos he, lift_eq_ok,
    parseEnum, literals_mapM_text (fun u s hs => hs.createLiteral) hm] at h
  obtain rfl := Except.ok.inj h
  exact describes_texts texts

theorem describes_elements {element : τ} {rest : List τ} (hf : type.flags = {.object})
    (ha : type.isArrayType = true) (ht : type.typeArguments = some (element :: rest))
    (hp : ParsesWell parse P [element]) (h : parseTypeWith F G parse type = .ok node) :
    Describes node ((Shape.array element).Holds ScalarKind.Holds P) := by
  rw [parseTypeWith_object hf] at h
  simp only [parseObjectType, ha, if_true, parseArray, ht] at h
  obtain ⟨items, hitems, h⟩ := bind_eq_ok.1 h
  obtain ⟨x, hx, h⟩ := bind_eq_ok.1 h
  rw [lift_eq_ok] at hx
  obtain ⟨rfl, -⟩ := createPropertyAssignment_eq_ok.1 hx
  obtain rfl := Except.ok.inj h
  exact describes_array (hp element List.mem_cons_self items hitems)

theorem describes_indexed {value : τ} (hi : IndexedBy type value) (hp : ParsesWell parse P [value])
    (h : parseTypeWith F G parse type = .ok node) :
    Describes node ((Shape.dictionary value).Holds ScalarKind.Holds P) := by
  rw [parseTypeWith_indexed hi] at h
  obtain ⟨values, hvalues, h⟩ := bind_eq_ok.1 h
  obtain ⟨x, hx, h⟩ := bind_eq_ok.1 h
  rw [lift_eq_ok] at hx
  obtain ⟨rfl, -⟩ := createPropertyAssignment_eq_ok.1 hx
  obtain rfl := Except.ok.inj h
  exact describes_dictionary (hp value List.mem_cons_self values hvalues)

/-! ## Records -/

theorem parseProperty_describes {property : TsProperty τ} {x : JsString × Node N}
    (hd : property.declarations.isSome) (hl : IsListed G property)
    (hp : ParsesWell parse P [property.typeAtDeclaration])
    (h : parseProperty F parse property = .ok x) :
    propertyName x.1 = some property.name ∧ Describes x.2 (P property.typeAtDeclaration) := by
  obtain ⟨parsed, hparsed, h⟩ := bind_eq_ok.1 h
  obtain ⟨x', hx', h⟩ := bind_eq_ok.1 h
  rw [lift_eq_ok] at hx' h
  obtain ⟨rfl, -⟩ := createPropertyAssignment_eq_ok.1 h
  rw [parsedType, if_pos hd] at hparsed
  exact ⟨hl.name, describes_addMetadata (hp _ List.mem_cons_self parsed hparsed) hl.tags hx'⟩

theorem describes_interface (hr : IsRecord G type)
    (hp : ParsesWell parse P ((listedProperties type).map TsProperty.typeAtDeclaration))
    (h : parseTypeWith F G parse type = .ok node) :
    Describes node
      ((Shape.record ((listedProperties type).map fieldOf)).Holds ScalarKind.Holds P) := by
  rw [parseTypeWith_interface hr.toIsInterface] at h
  obtain ⟨assignments, ha, h⟩ := bind_eq_ok.1 h
  obtain rfl := Except.ok.inj h
  have hdeclared : ∀ property ∈ listedProperties type, property.declarations.isSome := by
    intro property hl
    rcases hn : property.declarations with _ | ds
    · refine absurd ?_ (hr.declared property (List.mem_of_mem_filter hl))
      rw [firstDeclaration, hn]
      rfl
    · rfl
  have hall : List.Forall₂ (fun property a => propertyName a.1 = some property.name ∧
      Describes a.2 (P property.typeAtDeclaration)) (listedProperties type) assignments := by
    refine List.forall₂_iff_zip.2 ⟨(mapM_eq_ok.1 ha).length_eq, fun {property a} hz => ?_⟩
    have hl := (List.of_mem_zip hz).1
    refine parseProperty_describes (hdeclared property hl) (hr.listed property hl) ?_
      ((List.forall₂_iff_zip.1 (mapM_eq_ok.1 ha)).2 hz)
    intro u hu
    rw [List.mem_singleton.1 hu]
    exact hp _ (List.mem_map_of_mem hl)
  have hne : assignments ≠ [] := by
    rintro rfl
    exact hr.nonempty (List.forall₂_nil_right_iff.1 hall)
  have hrequired : ((listedProperties type).filter isRequired).map (fun property =>
      (.stringLiteral (.string property.name) : Node N)) =
      ((((listedProperties type).map fieldOf).filter RecordField.required).map RecordField.name).map
        fun s => .stringLiteral (.string s) := by
    rw [List.filter_map, List.map_map, List.map_map]
    rfl
  rw [interfaceSchema, if_neg hne, hrequired]
  refine describes_record (List.forall₂_map_left_iff.2 hall) ?_
  rw [List.map_map]
  exact hr.nodup

/-! ## Unions -/

theorem parseTypeWith_union (h : type.flags = {.union}) :
    parseTypeWith F G parse type = parseUnion F G parse type := by
  have hflags : ¬ isNull type.flags ∧ ¬ isPrimitive type.flags ∧ type.flags ≠ {.object} := by
    rw [h]
    decide
  rw [parseTypeWith, if_neg hflags.1, if_neg hflags.2.1, if_neg hflags.2.2, if_pos h]

theorem parseUnion_several (h : (unionTypes G type).length ≠ 1) :
    parseUnion F G parse type = parseSeveral F G parse (unionTypes G type) := by
  unfold parseUnion
  split
  · next u hu => exact absurd (by rw [hu]; rfl) h
  · rfl

theorem ne_nil_of_forall₂ {α β : Type} {R : α → β → Prop} {xs : List α} {ys : List β}
    (h : List.Forall₂ R xs ys) (hl : 2 ≤ ys.length) : xs ≠ [] ∧ xs.length ≠ 1 := by
  have hlength := h.length_eq
  refine ⟨?_, by omega⟩
  rintro rfl
  rw [List.length_nil] at hlength
  omega

theorem describes_literals {texts : List JsString} (hf : type.flags = {.union})
    (hs : 2 ≤ texts.length)
    (hm : List.Forall₂ (fun u s => IsStringLiteral (G u) s) (unionTypes G type) texts)
    (h : parseTypeWith F G parse type = .ok node) :
    Describes node ((Shape.literals texts).Holds ScalarKind.Holds P) := by
  have hflags : ∀ {u s}, IsStringLiteral (G u) s → isLiteral G u ∧ ¬ isBooleanLiteral G u := by
    intro u s hu
    unfold isLiteral isBooleanLiteral
    rcases hu.flags with hf | hf <;> rw [hf] <;> decide
  have hall : (unionTypes G type).all (isLiteral G) := by
    rw [List.all_eq_true]
    intro u hu
    obtain ⟨s, -, hus⟩ := exists_of_mem hm hu
    exact (hflags hus).1
  have hnode : ∀ u s, IsStringLiteral (G u) s →
      literalNode F G u = .ok (.stringLiteral (.string s)) := by
    intro u s hu
    rw [literalNode, if_neg (hflags hu).2, hu.createLiteral]
  obtain ⟨hne, hone⟩ := ne_nil_of_forall₂ hm hs
  rw [parseTypeWith_union hf, parseUnion_several hone, parseSeveral, if_pos ⟨hne, hall⟩, lift_eq_ok,
    literals_mapM_text hnode hm] at h
  obtain rfl := Except.ok.inj h
  exact describes_texts texts

theorem describes_scalarUnion {scalars : List ScalarKind} (hf : type.flags = {.union})
    (hs : 2 ≤ scalars.length)
    (hm : List.Forall₂ (fun u s => IsNamedScalar (G u) s) (unionTypes G type) scalars)
    (h : parseTypeWith F G parse type = .ok node) :
    Describes node ((Shape.scalars scalars).Holds ScalarKind.Holds P) := by
  have hflags : ∀ {u s}, IsNamedScalar (G u) s → ¬ isLiteral G u ∧ isNamed G u := by
    intro u s hu
    unfold isLiteral isNamed
    rw [hu.flags]
    cases s <;> decide
  obtain ⟨hne, hone⟩ := ne_nil_of_forall₂ hm hs
  have hliteral : ¬ (unionTypes G type).all (isLiteral G) := by
    obtain ⟨u, hu⟩ := List.exists_mem_of_ne_nil _ hne
    obtain ⟨s, -, hus⟩ := exists_of_mem hm hu
    exact fun hall => (hflags hus).1 (List.all_eq_true.1 hall u hu)
  have hall : (unionTypes G type).all (isNamed G) := by
    rw [List.all_eq_true]
    intro u hu
    obtain ⟨s, -, hus⟩ := exists_of_mem hm hu
    exact (hflags hus).2
  have hnodes : (unionTypes G type).map (intrinsicNode G) =
      scalars.map fun s => (.stringLiteral (.string s.name) : Node N) := by
    rw [← List.forall₂_eq_eq_eq, List.forall₂_map_left_iff, List.forall₂_map_right_iff]
    refine hm.imp fun u s hu => ?_
    rw [intrinsicNode, hu.intrinsicName]
    rfl
  rw [parseTypeWith_union hf, parseUnion_several hone, parseSeveral, if_neg fun h => hliteral h.2,
    if_pos ⟨hne, hall⟩, hnodes] at h
  obtain rfl := Except.ok.inj h
  exact describes_scalars scalars

/-- The values of a member of a union, a truth value standing for both. -/
def MemberHolds (G : TsGraph τ N) (P : τ → Json N → Prop) (u : τ) (v : Json N) : Prop :=
  if isBooleanLiteral G u then ∃ b, v = .bool b else P u v

omit [LiteralNumber N] in
theorem describes_boolean :
    Describes (typeSchema (js "boolean") : Node N) fun v => ∃ b, v = .bool b := by
  refine (describes_scalar .boolean).congr fun v => ?_
  simp only [List.mem_singleton, exists_eq_left]
  cases v <;> simp [typeOf, ScalarKind.name] <;> decide

omit [LiteralNumber N] in
theorem parseMember_describes {us : List τ} (hp : ParsesWell parse P us) {u : τ}
    (hu : ¬ isBooleanLiteral G u → u ∈ us) {x : Node N} (h : parseMember G parse u = .ok x) :
    Describes x (MemberHolds G P u) := by
  unfold MemberHolds
  rw [parseMember] at h
  by_cases hb : isBooleanLiteral G u
  · rw [if_pos hb] at h
    obtain rfl := Except.ok.inj h
    simpa only [hb, if_true] using describes_boolean (N := N)
  · rw [if_neg hb] at h
    obtain ⟨mapped, hmapped, h⟩ := bind_eq_ok.1 h
    rw [lift_eq_ok] at h
    simpa only [hb, if_false, Bool.false_eq_true] using
      describes_titled (hp u (hu hb) mapped hmapped) h

omit [LiteralNumber N] in
theorem holds_union {us : List τ} {v : Json N} :
    (Shape.union (us.any (isBooleanLiteral G))
      (us.filter fun u => ¬ isBooleanLiteral G u)).Holds ScalarKind.Holds P v ↔
        ∃ u ∈ us, MemberHolds G P u v := by
  simp only [Shape.Holds, MemberHolds, List.any_eq_true, List.mem_filter, decide_not,
    Bool.not_eq_eq_eq_not, Bool.not_true, decide_eq_false_iff_not]
  constructor
  · rintro (⟨⟨u, hu, hb⟩, hv⟩ | ⟨u, ⟨hu, hb⟩, hv⟩)
    · exact ⟨u, hu, by rwa [if_pos hb]⟩
    · exact ⟨u, hu, by rwa [if_neg hb]⟩
  · rintro ⟨u, hu, hv⟩
    split_ifs at hv with hb
    · exact .inl ⟨⟨u, hu, hb⟩, hv⟩
    · exact .inr ⟨u, ⟨hu, hb⟩, hv⟩

theorem describes_union (hu : IsUnion G type)
    (hp : ParsesWell parse P ((unionTypes G type).filter fun u => ¬ isBooleanLiteral G u))
    (h : parseTypeWith F G parse type = .ok node) :
    Describes node ((Shape.union ((unionTypes G type).any (isBooleanLiteral G))
      ((unionTypes G type).filter fun u => ¬ isBooleanLiteral G u)).Holds ScalarKind.Holds P) := by
  refine Describes.congr (P := fun v => ∃ u ∈ unionTypes G type, MemberHolds G P u v) ?_
    fun v => holds_union.symm
  rw [parseTypeWith_union hu.flags] at h
  rcases hone : unionTypes G type with _ | ⟨u, _ | ⟨u', us⟩⟩
  · exact absurd hone hu.nonempty
  · simp only [parseUnion, hone] at h
    refine Describes.congr (P := MemberHolds G P u) ?_ fun v => by simp
    unfold MemberHolds
    by_cases hb : isBooleanLiteral G u
    · rw [if_pos hb] at h
      obtain rfl := Except.ok.inj h
      simpa only [hb, if_true] using describes_boolean (N := N)
    · rw [if_neg hb] at h
      simpa only [hb, if_false, Bool.false_eq_true] using
        hp u (by simpa [hone] using hb) node h
  · have hseveral : (unionTypes G type).length ≠ 1 := by
      rw [hone]
      simp
    obtain ⟨hliteral, hnamed⟩ := hu.mixed.resolve_left hseveral
    rw [parseUnion_several hseveral, parseSeveral, if_neg fun h => hliteral h.2,
      if_neg fun h => hnamed h.2] at h
    obtain ⟨mappedTypes, hmapped, h⟩ := bind_eq_ok.1 h
    obtain ⟨anyOf, hanyOf, h⟩ := bind_eq_ok.1 h
    rw [lift_eq_ok, createArrayLiteralExpression_eq_ok] at hanyOf
    obtain rfl := hanyOf.1
    obtain rfl := Except.ok.inj h
    rw [← hone]
    refine describes_anyOf (List.forall₂_iff_zip.2
      ⟨(mapM_eq_ok.1 hmapped).length_eq, fun {u x} hz => ?_⟩)
    refine parseMember_describes hp (fun hb => ?_)
      ((List.forall₂_iff_zip.1 (mapM_eq_ok.1 hmapped)).2 hz)
    rw [List.mem_filter]
    exact ⟨(List.of_mem_zip hz).1, by simpa using hb⟩

/-! ## All types -/

/-- One level of the parser makes of a type of a shape what holds of the shape. -/
theorem parseTypeWith_describes {shape : Shape ScalarKind τ} (hs : TakesShape G type shape)
    (hp : ParsesWell parse P shape.refs) (h : parseTypeWith F G parse type = .ok node) :
    Describes node (shape.Holds ScalarKind.Holds P) := by
  cases hs with
  | primitive flags typeString ne_null => exact describes_primitive flags typeString ne_null h
  | text flags isArrayType isTupleType symbol_eq name =>
    exact describes_named flags isArrayType isTupleType symbol_eq name h
  | literal hl => exact describes_literal hl h
  | enum flags members => exact describes_enum flags members h
  | array flags isArrayType typeArguments _ =>
    exact describes_elements flags isArrayType typeArguments hp h
  | dictionary hi _ _ _ => exact describes_indexed hi hp h
  | record hr =>
    refine describes_interface hr ?_ h
    rwa [Shape.refs, List.map_map] at hp
  | literals flags several members => exact describes_literals flags several members h
  | scalars flags several members => exact describes_scalarUnion flags several members h
  | union hu => exact describes_union hu hp h

omit [LiteralNumber N] in
theorem ShapedFrom.ref {shape : τ → Shape ScalarKind τ} {t u : τ} (h : ShapedFrom G shape t)
    (hu : u ∈ (shape t).refs) : ShapedFrom G shape u :=
  fun w hw => h w (hw.head hu)

theorem parseType_describes {shape : τ → Shape ScalarKind τ} : ∀ {n : ℕ} {t : τ} {node : Node N},
    ShapedFrom G shape t → parseType F G n t = .ok node → Describes node (HasShapedType shape t)
  | 0, _, _, _, h => nomatch h
  | n + 1, t, node, hs, h => by
    refine (parseTypeWith_describes (hs t .refl) (fun u hu node hn => ?_) h).congr
      fun v => hasType_iff.symm
    exact parseType_describes (hs.ref hu) hn

/-- `interface User` with an id, a role that may be missing and tags, and the types it leads to. -/
inductive UserType
  | user
  | string
  | roles
  | admin
  | guest
  | undefined
  | tags
  deriving DecidableEq

def userTypes : TsGraph UserType ℤ
  | .user =>
    { (bareType {.object} : TsType UserType ℤ) with
      symbol := some ⟨js "User", none, false⟩
      properties := [
        { plainProperty "id" .string with
          documentationComment := [js "Its id."]
          jsDocTags := [⟨js "example", some [js "7"]⟩] },
        { plainProperty "role" .roles with declarations := some [⟨false, true⟩] },
        plainProperty "tags" .tags] }
  | .string => { (bareType {.string} : TsType UserType ℤ) with typeString := js "string" }
  | .roles =>
    { (bareType {.union} : TsType UserType ℤ) with types := [.undefined, .admin, .guest] }
  | .admin =>
    { (bareType {.stringLiteral} : TsType UserType ℤ) with value := some (.string (js "admin")) }
  | .guest =>
    { (bareType {.stringLiteral} : TsType UserType ℤ) with value := some (.string (js "guest")) }
  | .undefined =>
    { (bareType {.undefined} : TsType UserType ℤ) with typeString := js "undefined" }
  | .tags =>
    { (bareType {.object} : TsType UserType ℤ) with
      isArrayType := true
      typeArguments := some [.string] }

def userShape : UserType → Shape ScalarKind UserType
  | .user => .record [⟨js "id", true, .string⟩, ⟨js "role", false, .roles⟩,
      ⟨js "tags", true, .tags⟩]
  | .roles => .literals [js "admin", js "guest"]
  | .tags => .array .string
  | _ => .scalars [.string]

theorem userTypes_literal {t : UserType} {s : String} (hs : ¬ IsReread (js s))
    (ht : userTypes t = { (bareType {.stringLiteral} : TsType UserType ℤ) with
      value := some (.string (js s)) }) : IsStringLiteral (userTypes t) (js s) where
  flags := .inl (by rw [ht]; rfl)
  value := by rw [ht]
  text := hs

theorem userTypes_isRecord : IsRecord userTypes (userTypes .user) where
  flags := rfl
  isArrayType := rfl
  isTupleType := rfl
  named := rfl
  index := rfl
  external := rfl
  short := rfl
  declared := by decide
  listed := by
    have hname : ∀ property ∈ (userTypes .user).properties,
        propertyName (quotedName property.name) = some property.name := by decide
    have hexample : IsAnnotation (js "example") := ⟨by decide, by decide⟩
    have htags : ∀ property ∈ (userTypes .user).properties, ∀ tag ∈ property.jsDocTags,
        tag.name = js "example" := by decide
    have hdefinite : ∀ property ∈ (userTypes .user).properties, isRequired property →
        ∀ u ∈ (userTypes property.typeAtDeclaration).types,
          (userTypes u).typeString ≠ js "undefined" := by decide
    intro property hp
    have hm := List.mem_of_mem_filter hp
    exact ⟨hname property hm, fun tag ht => htags property hm tag ht ▸ hexample,
      hdefinite property hm⟩
  nonempty := by decide
  nodup := by decide

theorem userTypes_shapedFrom : ShapedFrom userTypes userShape .user := by
  have hadmin : IsStringLiteral (userTypes .admin) (js "admin") :=
    userTypes_literal (by unfold IsReread; decide) rfl
  have hguest : IsStringLiteral (userTypes .guest) (js "guest") :=
    userTypes_literal (by unfold IsReread; decide) rfl
  have hshape : ∀ t ∈ [UserType.user, .string, .roles, .tags],
      TakesShape userTypes (userTypes t) (userShape t) := by
    simp only [List.forall_mem_cons, List.not_mem_nil, false_imp_iff, implies_true, and_true]
    refine ⟨.record userTypes_isRecord, .primitive rfl rfl (by decide), ?_,
      .array rfl rfl rfl fun _ hu => nomatch hu⟩
    exact .literals rfl (by decide) (.cons hadmin (.cons hguest .nil))
  have hclosed : ∀ t ∈ [UserType.user, .string, .roles, .tags], ∀ u ∈ (userShape t).refs,
      u ∈ [UserType.user, .string, .roles, .tags] := by decide
  intro t ht
  refine hshape t ?_
  induction ht with
  | refl => decide
  | tail _ hu ih => exact hclosed _ ih _ hu

end TypeParser

end DiiaApp
