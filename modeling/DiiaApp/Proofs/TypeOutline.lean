import DiiaApp.Errors
import DiiaApp.Proofs.TypePlans

/-!
# What parsing a type comes to

Only a type of no values, or a union of one such type, is parsed as `undefined` (`NullLike`), and
that is all the parser's way depends on: what is done with the schema of a property, the assignment
of it and the merging of an intersection go through or throw by the types alone. So each plan has an
outline (`typeOutline`, `outlines`).
-/

namespace DiiaApp

open Js Descent LiteralNumber TypeFlags

variable {τ N : Type}

/-- The entries under which a schema holds other schemas. -/
def schemaNames : List JsString :=
  [js "properties", js "items", js "additionalProperties", js "anyOf"]

mutual

/-- An object literal with an object literal for each schema within it. -/
inductive IsSchema : Node N → Prop
  | intro {entries : List (JsString × Node N)} (h : ∀ p ∈ entries, IsEntry p) :
    IsSchema (.objectLiteral entries)

/-- The schema of a property, behind its description and tags. -/
inductive IsProperty : Node N → Prop
  | intro {metadata entries : List (JsString × Node N)} (hm : ∀ p ∈ metadata, p.2.IsLiteral)
    (h : ∀ p ∈ entries, IsEntry p) : IsProperty (.objectLiteral (metadata ++ entries))

inductive IsEntry : JsString × Node N → Prop
  | properties {properties : List (JsString × Node N)} (h : ∀ p ∈ properties, IsProperty p.2) :
    IsEntry (js "properties", .objectLiteral properties)
  | items {node : Node N} (h : IsSchema node) : IsEntry (js "items", node)
  | additionalProperties {node : Node N} (h : IsSchema node) :
    IsEntry (js "additionalProperties", node)
  | anyOf {nodes : List (Node N)} (h : ∀ node ∈ nodes, IsSchema node) :
    IsEntry (js "anyOf", .arrayLiteral nodes)
  | literal {name : JsString} {node : Node N} (hname : name ∉ schemaNames) (h : node.IsLiteral) :
    IsEntry (name, node)
  | literals {name : JsString} {nodes : List (Node N)} (hname : name ∉ schemaNames)
    (h : ∀ node ∈ nodes, node.IsLiteral) : IsEntry (name, .arrayLiteral nodes)

end

variable [LiteralNumber N]

namespace TypeParser

variable (F : Factory) (G : TsGraph τ N)

/-- The type is one of no values, or a union that is parsed as one such type. -/
inductive NullLike : τ → Prop
  | null {t : τ} (h : isNull (G t).flags) : NullLike t
  | union {t u : τ} (ht : (G t).flags = {.union}) (hu : unionTypes G (G t) = [u])
    (hb : ¬ isBooleanLiteral G u) (h : NullLike u) : NullLike t

/-- An object type that is parsed by its index type. -/
structure IndexedBy (type : TsType τ N) (t : τ) : Prop where
  flags : type.flags = {.object}
  isArrayType : type.isArrayType = false
  isTupleType : type.isTupleType = false
  named : namedSchema type = none
  index : (type.numberIndex <|> type.stringIndex) = some t

/-- The index type has no schema, or the type is a union of one such type. -/
inductive NullIndexed : τ → Prop
  | index {t v : τ} (ht : IndexedBy (G t) v) (h : NullLike G v) : NullIndexed t
  | union {t u : τ} (ht : (G t).flags = {.union}) (hu : unionTypes G (G t) = [u])
    (hb : ¬ isBooleanLiteral G u) (h : NullIndexed u) : NullIndexed t

/-- The two entries that an intersection merges are object literals. -/
def Mergeable (properties : List (JsString × Node N)) : Prop :=
  ∀ p ∈ properties, escapedText p.1 ∈ mergedNames → ∃ props, p.2 = .objectLiteral props

/-- What is known of the schema of a type. -/
inductive Gives (t : τ) : Node N → Prop
  | undefined (h : NullLike G t) : Gives t .undefined
  | objectLiteral {properties : List (JsString × Node N)} (h : ¬ NullLike G t)
    (hm : Mergeable properties ↔ ¬ NullIndexed G t)
    (hc : F.acceptsUndefined = false → ∀ p ∈ properties, IsEntry p) :
    Gives t (.objectLiteral properties)

/-- The number that a literal is made of, where it is made of one. -/
def numberOf : LiteralValue N → Option N
  | .string s =>
    if s ≠ js "true" ∧ s ≠ js "false" ∧ isNumeral s then some (ofText s) else none
  | .number n => if isNumeral (toText n) then some n else none
  | .undefined => none
  | .bigint _ _ => none

/-- The factory takes the literal: it is not made of a negative number, or those are taken. -/
def TakesLiteral (value : LiteralValue N) : Prop :=
  ∀ n ∈ numberOf value, (toText n).head? = some 45 → F.acceptsNegative

/-- The factory takes the schema of the type. -/
def Takes (t : τ) : Prop := NullLike G t → F.acceptsUndefined

/-- What is done with the schema of a property goes through. -/
structure PropertyGoes (property : TsProperty τ) (t : τ) : Prop where
  description : ∀ text ∈ property.documentationComment.head?,
    TakesLiteral F (.string text : LiteralValue N)
  tags : ∀ tag ∈ tagTexts property.jsDocTags, TakesLiteral F (.string tag.2 : LiteralValue N)
  documented : NullLike G t → property.documentationComment = [] ∧ property.jsDocTags = []
  takes : Takes F G t

def propertyRef (property : TsProperty τ) : Option (τ × Prop) :=
  (parsedType property).map fun t => (t, PropertyGoes F G property t)

def leafOutline (closes : Prop) : Outline τ := ⟨[], closes⟩

def arrayOutline (type : TsType τ N) : Outline τ :=
  match type.typeArguments with
  | some [] => leafOutline False
  | some (t :: _) => ⟨[(t, Takes F G t)], True⟩
  | none => leafOutline True

def tupleOutline (type : TsType τ N) : Outline τ :=
  match type.typeArguments with
  | some ts => ⟨ts.map fun t => (t, Takes F G t), True⟩
  | none => arrayOutline F G type

def recordOutline (type : TsType τ N) : Outline τ :=
  match recordValueType type with
  | some t => ⟨[(t, ¬ NullLike G t)], True⟩
  | none => leafOutline False

def interfaceOutline (type : TsType τ N) : Outline τ :=
  ⟨(listedProperties type).filterMap (propertyRef F G), True⟩

/-- A member of `anyOf`, where it is parsed. -/
def memberRef (t : τ) : Option (τ × Prop) :=
  if isBooleanLiteral G t then none else some (t, (titleOf G t).isSome → ¬ NullLike G t)

def severalOutline (types : List τ) : Outline τ :=
  if types ≠ [] ∧ types.all (isLiteral G) then
    leafOutline (∀ t ∈ types, ¬ isBooleanLiteral G t → TakesLiteral F (valueOf (G t)))
  else if types ≠ [] ∧ types.all (isNamed G) then leafOutline True
  else ⟨types.filterMap (memberRef G), ∀ t ∈ types, ¬ isBooleanLiteral G t → Takes F G t⟩

def unionOutline (type : TsType τ N) : Outline τ :=
  match unionTypes G type with
  | [t] => if isBooleanLiteral G t then leafOutline True else ⟨[(t, True)], True⟩
  | types => severalOutline F G types

def intersectionOutline (type : TsType τ N) : Outline τ :=
  ⟨type.types.map fun t => (t, True), ∀ t ∈ type.types, ¬ NullLike G t ∧ ¬ NullIndexed G t⟩

def objectOutline (type : TsType τ N) : Outline τ :=
  if type.isArrayType then arrayOutline F G type
  else if type.isTupleType then tupleOutline F G type
  else
    match (namedSchema type : Option (Node N)) with
    | some _ => leafOutline True
    | none =>
      match type.numberIndex <|> type.stringIndex with
      | some t => ⟨[(t, Takes F G t)], True⟩
      | none =>
        match (externalSchema type : Except ParserError (Option (Node N))) with
        | .error _ => leafOutline False
        | .ok (some _) => leafOutline True
        | .ok none =>
          if isRecordWithManyKeys G type then recordOutline G type else interfaceOutline F G type

/-- A literal type is made of its value, unless it has a name only. -/
def PrimitiveGoes (type : TsType τ N) : Prop :=
  meets type.flags literal → (type.value.isNone → type.intrinsicName = none) →
    TakesLiteral F (valueOf type)

/-- The types that parsing a type goes down to, and what its own parts need to go through. -/
def typeOutline (type : TsType τ N) : Outline τ :=
  if isNull type.flags then leafOutline True
  else if isPrimitive type.flags then leafOutline (PrimitiveGoes F type)
  else if type.flags = {.object} then objectOutline F G type
  else if type.flags = {.union} then unionOutline F G type
  else if type.flags = {.intersection} then intersectionOutline G type
  else if meets type.flags enumLike then
    leafOutline (∀ u ∈ type.types, TakesLiteral F (valueOf (G u)))
  else leafOutline True

def outline (t : τ) : Outline τ := typeOutline F G (G t)

variable {F G}

theorem succeeds_createLiteral {value : LiteralValue N} :
    Succeeds (createLiteral F value) ↔ TakesLiteral F value := by
  have hnumber : ∀ n : N, Succeeds (F.createNumericLiteral n) ↔
      ((toText n).head? = some 45 → F.acceptsNegative) := by
    intro n
    unfold Factory.createNumericLiteral
    split_ifs with h
    · simp [h.1, h.2]
    · simpa using fun h1 => by simpa [h1] using h
  unfold createLiteral TakesLiteral numberOf
  split
  · split_ifs <;> simp_all
  · split_ifs <;> simp_all
  · simp
  · simp

theorem createLiteral_isLiteral {value : LiteralValue N} {node : Node N}
    (h : createLiteral F value = .ok node) : node.IsLiteral := by
  unfold createLiteral Factory.createNumericLiteral at h
  split at h <;> (try split_ifs at h) <;> obtain rfl := Except.ok.inj h
  all_goals constructor

omit [LiteralNumber N] in
theorem expression_eq_ok {node x : Node N} :
    F.expression node = .ok x ↔ node = x ∧ (node = .undefined → F.acceptsUndefined) := by
  cases node <;> simp [Factory.expression]
  split_ifs with h <;> simp [h]

omit [LiteralNumber N] in
theorem createPropertyAssignment_eq_ok {name : JsString} {node : Node N} {x : JsString × Node N} :
    F.createPropertyAssignment name node = .ok x ↔
      (name, node) = x ∧ (node = .undefined → F.acceptsUndefined) := by
  rw [Factory.createPropertyAssignment, map_eq_ok]
  simp only [expression_eq_ok]
  constructor
  · rintro ⟨_, ⟨rfl, h⟩, rfl⟩
    exact ⟨rfl, h⟩
  · rintro ⟨rfl, h⟩
    exact ⟨node, ⟨rfl, h⟩, rfl⟩

omit [LiteralNumber N] in
theorem createArrayLiteralExpression_eq_ok {nodes : List (Node N)} {x : Node N} :
    F.createArrayLiteralExpression nodes = .ok x ↔
      .arrayLiteral nodes = x ∧ ∀ node ∈ nodes, node = .undefined → F.acceptsUndefined := by
  have hmap : ∀ {xs : List (Node N)}, nodes.mapM F.expression = .ok xs ↔
      nodes = xs ∧ ∀ node ∈ nodes, node = .undefined → F.acceptsUndefined := by
    intro xs
    simp only [mapM_eq_ok, expression_eq_ok]
    constructor
    · intro h
      induction h with
      | nil => simp
      | cons h _ ih => exact ⟨by rw [h.1, ih.1], List.forall_mem_cons.2 ⟨h.2, ih.2⟩⟩
    · rintro ⟨rfl, h⟩
      exact List.forall₂_same.2 fun node hn => ⟨rfl, h node hn⟩
  rw [Factory.createArrayLiteralExpression, map_eq_ok]
  simp only [hmap]
  constructor
  · rintro ⟨xs, ⟨rfl, h⟩, rfl⟩
    exact ⟨rfl, h⟩
  · rintro ⟨rfl, h⟩
    exact ⟨nodes, ⟨rfl, h⟩, rfl⟩

omit [LiteralNumber N] in
theorem succeeds_createArrayLiteralExpression {nodes : List (Node N)} :
    Succeeds (F.createArrayLiteralExpression nodes) ↔
      ∀ node ∈ nodes, node = .undefined → F.acceptsUndefined := by
  simp [Succeeds, createArrayLiteralExpression_eq_ok]

omit [LiteralNumber N] in
theorem propertiesOf_eq_ok {node : Node N} {properties : List (JsString × Node N)} :
    node.propertiesOf = .ok properties ↔ node = .objectLiteral properties := by
  cases node <;> simp [Node.propertiesOf]

theorem createPropertyFromMetadata_isLiteral {name text : JsString} {x : JsString × Node N}
    (h : createPropertyFromMetadata F name text = .ok x) : x.2.IsLiteral := by
  obtain ⟨l, hl, rfl⟩ := map_eq_ok.1 h
  exact createLiteral_isLiteral hl

theorem tagProperties_isLiteral {docTags : List JsDocTag} {ms : List (JsString × Node N)}
    (h : tagProperties F docTags = .ok ms) : ∀ m ∈ ms, m.2.IsLiteral :=
  forall_mem_mapM h fun _ _ _ => createPropertyFromMetadata_isLiteral

theorem succeeds_tagProperties {docTags : List JsDocTag} :
    Succeeds (tagProperties F docTags : Except ParserError (List (JsString × Node N))) ↔
      ∀ tag ∈ tagTexts docTags, TakesLiteral F (.string tag.2 : LiteralValue N) := by
  simp only [tagProperties, succeeds_mapM, createPropertyFromMetadata, succeeds_map,
    succeeds_createLiteral]

omit [LiteralNumber N] in
theorem addProperties_undefined {ms : List (JsString × Node N)} {x : Node N} :
    addProperties .undefined ms ≠ .ok x := by
  simp [addProperties]

theorem addMetadata_undefined {property : TsProperty τ} {x : Node N} :
    addMetadataToProperty F property .undefined = .ok x ↔
      .undefined = x ∧ property.documentationComment = [] ∧ property.jsDocTags = [] := by
  unfold addMetadataToProperty addDescription addTags
  rcases hd : property.documentationComment with _ | ⟨d, ds⟩
  · rcases ht : property.jsDocTags with _ | ⟨tag, tags⟩
    · simp [tagProperties, tagTexts, pure, Except.pure, bind, Except.bind]
    · simp [bind_eq_ok, addProperties_undefined]
  · simp [bind_eq_ok, addProperties_undefined]

theorem addDescription_object {property : TsProperty τ} {ps : List (JsString × Node N)}
    {x : Node N} (h : addDescription F property (.objectLiteral ps) = .ok x) :
    ∃ ms, x = .objectLiteral (ms ++ ps) ∧ ∀ m ∈ ms, m.2.IsLiteral := by
  unfold addDescription at h
  split at h
  · exact ⟨[], (Except.ok.inj h).symm, by simp⟩
  · obtain ⟨m, hm, h⟩ := bind_eq_ok.1 h
    refine ⟨[m], (Except.ok.inj h).symm, ?_⟩
    rw [List.forall_mem_singleton]
    exact createPropertyFromMetadata_isLiteral hm

theorem addTags_object {property : TsProperty τ} {ps : List (JsString × Node N)} {x : Node N}
    (h : addTags F property (.objectLiteral ps) = .ok x) :
    ∃ ms, x = .objectLiteral (ms ++ ps) ∧ ∀ m ∈ ms, m.2.IsLiteral := by
  obtain ⟨tags, ht, h⟩ := bind_eq_ok.1 h
  split_ifs at h
  · exact ⟨tags, (Except.ok.inj h).symm, tagProperties_isLiteral ht⟩
  · exact ⟨[], (Except.ok.inj h).symm, by simp⟩

/-- What is added to a schema stands before it. -/
theorem addMetadata_object {property : TsProperty τ} {ps : List (JsString × Node N)} {x : Node N}
    (h : addMetadataToProperty F property (.objectLiteral ps) = .ok x) :
    ∃ ms, x = .objectLiteral (ms ++ ps) ∧ ∀ m ∈ ms, m.2.IsLiteral := by
  obtain ⟨parsed, hp, h⟩ := bind_eq_ok.1 h
  obtain ⟨ms, rfl, hms⟩ := addDescription_object hp
  obtain ⟨tags, rfl, htags⟩ := addTags_object h
  exact ⟨tags ++ ms, by rw [List.append_assoc], List.forall_mem_append.2 ⟨htags, hms⟩⟩

theorem succeeds_addDescription {property : TsProperty τ} {ps : List (JsString × Node N)} :
    Succeeds (addDescription F property (.objectLiteral ps)) ↔
      ∀ text ∈ property.documentationComment.head?,
        TakesLiteral F (.string text : LiteralValue N) := by
  unfold addDescription
  rcases property.documentationComment with _ | ⟨d, ds⟩
  · simp
  · simp only [succeeds_bind, addProperties, succeeds_ok, and_true, List.head?_cons,
      Option.mem_def, Option.some.injEq, forall_eq', ← succeeds_createLiteral]
    exact succeeds_map

theorem succeeds_addTags {property : TsProperty τ} {ps : List (JsString × Node N)} :
    Succeeds (addTags F property (.objectLiteral ps)) ↔
      ∀ tag ∈ tagTexts property.jsDocTags, TakesLiteral F (.string tag.2 : LiteralValue N) := by
  rw [← succeeds_tagProperties, addTags, succeeds_bind]
  constructor
  · exact fun ⟨ms, hms, _⟩ => ⟨ms, hms⟩
  · rintro ⟨ms, hms⟩
    refine ⟨ms, hms, ?_⟩
    split_ifs
    · exact ⟨_, rfl⟩
    · exact ⟨_, rfl⟩

theorem succeeds_addMetadata {property : TsProperty τ} {ps : List (JsString × Node N)} :
    Succeeds (addMetadataToProperty F property (.objectLiteral ps)) ↔
      (∀ text ∈ property.documentationComment.head?,
        TakesLiteral F (.string text : LiteralValue N)) ∧
      ∀ tag ∈ tagTexts property.jsDocTags, TakesLiteral F (.string tag.2 : LiteralValue N) := by
  rw [addMetadataToProperty, succeeds_bind, ← succeeds_addDescription (N := N)]
  constructor
  · rintro ⟨x, hx, h⟩
    obtain ⟨ms, rfl, -⟩ := addDescription_object hx
    exact ⟨⟨_, hx⟩, succeeds_addTags.1 h⟩
  · rintro ⟨⟨x, hx⟩, h⟩
    obtain ⟨ms, rfl, -⟩ := addDescription_object hx
    exact ⟨_, hx, succeeds_addTags.2 h⟩

end TypeParser

end DiiaApp
