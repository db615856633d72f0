import DiiaApp.Proofs.TypeCycles
import Mathlib.Data.List.MinMax

/-!
# Intersections

`parseIntersection` reads the schemas of the members once more: what stands under `properties` or
`additionalProperties` of any is required, by the identifier it has there, and the identifier of a
property has its quotes. So the longest name of a property is never the only one that is required
for it, and the schema is the exact merge only where there is nothing to merge
(`parseIntersection_exact_iff`).
-/

namespace DiiaApp

open Js Descent LiteralNumber TypeFlags

section Folds

variable {ε α β γ : Type} {f : β → α → Except ε β}

/-- A fold that appends to a part of its state. -/
theorem foldlM_append {proj : β → List γ} {g : α → List γ}
    (h : ∀ b a c, f b a = .ok c → proj c = proj b ++ g a) : ∀ {xs : List α} {b c : β},
      xs.foldlM f b = .ok c → proj c = proj b ++ xs.flatMap g
  | [], b, c, hc => by
    rw [← Except.ok.inj hc]
    simp
  | a :: xs, b, c, hc => by
    rw [List.foldlM_cons] at hc
    obtain ⟨d, hd, hc⟩ := bind_eq_ok.1 hc
    rw [foldlM_append h hc, h b a d hd, List.flatMap_cons, List.append_assoc]

end Folds

namespace TypeParser

variable {τ N : Type}

/-! ## Reading a schema -/

/-- The initializer of an entry. -/
def entryOf (name : String) : Node N → Option (Node N)
  | .objectLiteral entries => (entries.find? fun p => p.1 = js name).map Prod.snd
  | _ => none

def textOf : Node N → Option JsString
  | .stringLiteral (.string s) => some s
  | _ => none

/-- The entries under `properties`. -/
def listedEntries (schema : Node N) : List (JsString × Node N) :=
  match entryOf "properties" schema with
  | some (.objectLiteral entries) => entries
  | _ => []

/-- The texts under `required`. -/
def requiredNames (schema : Node N) : List JsString :=
  match entryOf "required" schema with
  | some (.arrayLiteral nodes) => nodes.filterMap textOf
  | _ => []

/-- What the last of the schemas that list a property has for it. -/
def lastListed (schemas : List (Node N)) (name : JsString) : Option (Node N) :=
  schemas.reverse.findSome? fun schema =>
    ((listedEntries schema).find? fun p => p.1 = name).map Prod.snd

variable (G : TsGraph τ N)

/-- The schema has each property of a member once, as the last member that lists it has it, and
requires each property once that a member requires. -/
structure MergesExactly (members : List τ) (schemas : List (Node N)) (schema : Node N) : Prop where
  once : ((listedEntries schema).map Prod.fst).Nodup
  listed : ∀ name node, (name, node) ∈ listedEntries schema ↔ lastListed schemas name = some node
  requiredOnce : (requiredNames schema).Nodup
  required : ∀ name, name ∈ requiredNames schema ↔
    ∃ u ∈ members, ∃ property ∈ listedProperties (G u), isRequired property ∧ property.name = name

/-- An object type that is parsed by its properties. -/
structure IsInterface (type : TsType τ N) : Prop where
  flags : type.flags = {.object}
  isArrayType : type.isArrayType = false
  isTupleType : type.isTupleType = false
  named : namedSchema type = none
  index : (type.numberIndex <|> type.stringIndex) = none
  external : externalSchema type = .ok none
  short : isRecordWithManyKeys G type = false

/-- A type with an empty schema: of a kind that the parser knows nothing of, or an interface
without properties, or a union of one such type. -/
inductive Bare : τ → Prop
  | other {t : τ} (hn : ¬ isNull (G t).flags) (hp : ¬ isPrimitive (G t).flags)
    (ho : (G t).flags ≠ {.object}) (hu : (G t).flags ≠ {.union})
    (hi : (G t).flags ≠ {.intersection}) (he : ¬ meets (G t).flags enumLike) : Bare t
  | interface {t : τ} (h : IsInterface G (G t)) (hl : listedProperties (G t) = []) : Bare t
  | union {t u : τ} (ht : (G t).flags = {.union}) (hu : unionTypes G (G t) = [u])
    (hb : ¬ isBooleanLiteral G u) (h : Bare u) : Bare t

variable {G}

theorem requiredNames_toNode (m : Merge N) : requiredNames m.toNode = m.requiredValues := by
  have hfirst : entryOf "required" m.toNode = some (.arrayLiteral
      (m.requiredValues.map fun r => .stringLiteral (.string r))) := by
    simp [entryOf, Merge.toNode]
  simp only [requiredNames, hfirst, List.filterMap_map]
  exact List.filterMap_some

theorem listedEntries_toNode (m : Merge N) : listedEntries m.toNode = m.combinedProperties := by
  have hrequired : js "required" ≠ js "properties" := by decide
  have htype : js "type" ≠ js "properties" := by decide
  simp [listedEntries, entryOf, Merge.toNode, hrequired, htype]

/-! ## What is required -/

/-- The entries that an intersection takes from an entry of a member. -/
def entriesUnder (p : JsString × Node N) : List (JsString × Node N) :=
  if escapedText p.1 ∈ mergedNames then
    match p.2 with
    | .objectLiteral entries => entries
    | _ => []
  else []

/-- The entries that an intersection takes from a member. -/
def mergedEntries : Node N → List (JsString × Node N)
  | .objectLiteral entries => entries.flatMap entriesUnder
  | _ => []

theorem mergeEntry_required (identifier : JsString) (m : Merge N) (p : JsString × Node N) :
    (mergeEntry identifier m p).requiredValues = m.requiredValues ++ [escapedText p.1] := by
  unfold mergeEntry
  simp only
  split_ifs <;> rfl

theorem foldl_mergeEntry_required (identifier : JsString) : ∀ (props : List (JsString × Node N))
    (m : Merge N), (props.foldl (mergeEntry identifier) m).requiredValues
      = m.requiredValues ++ props.map fun p => escapedText p.1
  | [], m => by simp
  | p :: props, m => by
    rw [List.foldl_cons, foldl_mergeEntry_required, mergeEntry_required, List.map_cons,
      List.append_assoc, List.singleton_append]

theorem mergeProperty_eq_ok {m m' : Merge N} {p : JsString × Node N}
    (h : mergeProperty m p = .ok m') :
    m' = (entriesUnder p).foldl (mergeEntry (escapedText p.1)) m := by
  unfold mergeProperty at h
  unfold entriesUnder
  simp only at h
  split_ifs at h ⊢
  · obtain ⟨props, hprops, rfl⟩ := map_eq_ok.1 h
    rw [propertiesOf_eq_ok.1 hprops]
  · exact (Except.ok.inj h).symm

theorem mergeSchemas_required {schemas : List (Node N)} {m : Merge N}
    (h : mergeSchemas schemas = .ok m) : m.requiredValues
      = (schemas.reverse.flatMap mergedEntries).map fun p => escapedText p.1 := by
  have hproperty : ∀ (m : Merge N) (p : JsString × Node N) m', mergeProperty m p = .ok m' →
      m'.requiredValues = m.requiredValues ++ (entriesUnder p).map fun p => escapedText p.1 := by
    intro m p m' hm
    rw [mergeProperty_eq_ok hm, foldl_mergeEntry_required]
  have hschema : ∀ (m : Merge N) (schema : Node N) m', mergeSchema m schema = .ok m' →
      m'.requiredValues
        = m.requiredValues ++ (mergedEntries schema).map fun p => escapedText p.1 := by
    intro m schema m' hm
    obtain ⟨entries, he, hm⟩ := bind_eq_ok.1 hm
    rw [propertiesOf_eq_ok.1 he, foldlM_append hproperty hm, mergedEntries, List.map_flatMap]
  rw [foldlM_append hschema h, List.map_flatMap]
  rfl

/-- Nothing comes of members without entries. -/
theorem mergeSchemas_empty {schemas : List (Node N)} {m : Merge N}
    (h : mergeSchemas schemas = .ok m) (he : ∀ schema ∈ schemas, mergedEntries schema = []) :
    m = .empty := by
  refine foldlM_inv (I := fun m => m = .empty) (fun schema hs m m' hm hm' => ?_) rfl h
  obtain ⟨entries, hentries, hm'⟩ := bind_eq_ok.1 hm'
  have hnone := he schema (List.mem_reverse.1 hs)
  rw [propertiesOf_eq_ok.1 hentries, mergedEntries, List.flatMap_eq_nil_iff] at hnone
  refine foldlM_inv (I := fun m => m = .empty) (fun p hp m m' hm hm' => ?_) hm hm'
  rw [mergeProperty_eq_ok hm', hnone p hp, hm]
  rfl

/-! ## The members -/

variable [LiteralNumber N] {F : Factory}

theorem parseTypeWith_object {parse : τ → Parsed (Node N)} {type : TsType τ N}
    (h : type.flags = {.object}) :
    parseTypeWith F G parse type = parseObjectType F G parse type := by
  have hn : ¬ isNull type.flags := by
    rw [h]
    decide
  have hp : ¬ isPrimitive type.flags := by
    rw [h]
    decide
  rw [parseTypeWith, if_neg hn, if_neg hp, if_pos h]

theorem parseTypeWith_interface {parse : τ → Parsed (Node N)} {type : TsType τ N}
    (h : IsInterface G type) : parseTypeWith F G parse type = parseInterface F parse type := by
  rw [parseTypeWith_object h.flags]
  simp only [parseObjectType, h.isArrayType, h.isTupleType, h.named, h.index, h.external, h.short,
    Bool.false_eq_true, if_false]
  rfl

theorem parseTypeWith_indexed {parse : τ → Parsed (Node N)} {type : TsType τ N} {v : τ}
    (h : IndexedBy type v) : parseTypeWith F G parse type = parseIndexedObject F parse v := by
  rw [parseTypeWith_object h.flags]
  simp only [parseObjectType, h.isArrayType, h.isTupleType, h.named, h.index,
    Bool.false_eq_true, if_false]

theorem parseProperty_name {parse : τ → Parsed (Node N)} {property : TsProperty τ}
    {x : JsString × Node N} (h : parseProperty F parse property = .ok x) :
    x.1 = quotedName property.name := by
  obtain ⟨parsed, -, h⟩ := bind_eq_ok.1 h
  obtain ⟨parsed, -, h⟩ := bind_eq_ok.1 h
  rw [lift_eq_ok] at h
  obtain ⟨rfl, -⟩ := createPropertyAssignment_eq_ok.1 h
  rfl

/-- An interface gives an entry for each property it lists, under the quoted name. -/
theorem mergedEntries_interface {n : ℕ} {u : τ} {schema : Node N} (h : IsInterface G (G u))
    (hs : parseType F G n u = .ok schema) : (mergedEntries schema).map Prod.fst
      = (listedProperties (G u)).map fun property => quotedName property.name := by
  rcases n with _ | n
  · cases hs
  rw [parseType, parseTypeWith_interface h] at hs
  obtain ⟨assignments, ha, hs⟩ := bind_eq_ok.1 hs
  obtain rfl := Except.ok.inj hs
  have hentries : mergedEntries (interfaceSchema (G u) assignments) = assignments := by
    have hrequired : escapedText (js "required") ∉ mergedNames := by decide
    have htype : escapedText (js "type") ∉ mergedNames := by decide
    have hproperties : escapedText (js "properties") ∈ mergedNames := by decide
    unfold interfaceSchema
    split_ifs with hnil
    · rw [hnil]
      rfl
    · simp [mergedEntries, entriesUnder, hrequired, htype, hproperties]
  rw [hentries]
  have hnames : List.Forall₂ (fun property x => x.1 = quotedName property.name)
      (listedProperties (G u)) assignments :=
    (mapM_eq_ok.1 ha).imp fun _ _ hx => parseProperty_name hx
  rw [← List.forall₂_eq_eq_eq, List.forall₂_map_left_iff, List.forall₂_map_right_iff]
  exact hnames.flip

theorem parseType_indexed {n : ℕ} {u v : τ} {schema : Node N} (h : IndexedBy (G u) v)
    (hs : parseType F G n u = .ok schema) : ∃ k node, parseType F G k v = .ok node ∧
      schema = .objectLiteral [(js "type", text "object"), (js "additionalProperties", node)] := by
  rcases n with _ | n
  · cases hs
  rw [parseType, parseTypeWith_indexed h] at hs
  obtain ⟨node, hnode, hs⟩ := bind_eq_ok.1 hs
  obtain ⟨x, hx, hs⟩ := bind_eq_ok.1 hs
  rw [lift_eq_ok] at hx
  obtain ⟨rfl, -⟩ := createPropertyAssignment_eq_ok.1 hx
  exact ⟨n, node, hnode, (Except.ok.inj hs).symm⟩

/-! ## Empty schemas -/

omit [LiteralNumber N] in
theorem run_eq_ok {parse : τ → Parsed (Node N)} {plan : TypePlan τ N} {node : Node N}
    (h : plan.run parse = .ok node) :
    ∃ pieces, plan.steps.length = pieces.length ∧ plan.finish pieces = .ok node := by
  obtain ⟨pieces, hp, h⟩ := bind_eq_ok.1 h
  exact ⟨pieces, (mapM_eq_ok.1 hp).length_eq, lift_eq_ok.1 h⟩

omit [LiteralNumber N] in
theorem arrayPlan_not_empty (type : TsType τ N) (pieces : List (JsString × Node N)) :
    (arrayPlan F type).finish pieces ≠ .ok (.objectLiteral []) := by
  unfold arrayPlan
  split <;> simp [leafPlan, assignPlan]

theorem tuplePlan_not_empty (type : TsType τ N) (pieces : List (JsString × Node N)) :
    (tuplePlan F type).finish pieces ≠ .ok (.objectLiteral []) := by
  unfold tuplePlan
  split
  · simp [tupleSchema]
  · exact arrayPlan_not_empty type pieces

omit [LiteralNumber N] in
theorem recordPlan_not_empty (type : TsType τ N) (pieces : List (JsString × Node N)) :
    (recordPlan type).finish pieces ≠ .ok (.objectLiteral []) := by
  unfold recordPlan
  split <;> simp [leafPlan, assignPlan]

omit [LiteralNumber N] in
theorem namedSchema_not_empty {type : TsType τ N} :
    namedSchema type ≠ some (.objectLiteral []) := by
  unfold namedSchema
  split
  · simp
  · split_ifs <;> simp [typeSchema, formatSchema]

/-- An object type with an empty schema is an interface without properties. -/
theorem objectPlan_empty {type : TsType τ N} {pieces : List (JsString × Node N)}
    (hf : type.flags = {.object}) (hp : (objectPlan F G type).steps.length = pieces.length)
    (h : (objectPlan F G type).finish pieces = .ok (.objectLiteral [])) :
    IsInterface G type ∧ listedProperties type = [] := by
  unfold objectPlan at h hp
  by_cases ha : type.isArrayType
  · simp only [ha, if_true] at h
    exact absurd h (arrayPlan_not_empty type pieces)
  by_cases ht : type.isTupleType
  · simp only [ha, ht, if_true] at h
    exact absurd h (tuplePlan_not_empty type pieces)
  simp only [ha, ht, if_false, Bool.false_eq_true] at h hp
  rcases hn : (namedSchema type : Option (Node N)) with _ | schema
  · rcases hx : type.numberIndex <|> type.stringIndex with _ | v
    · rcases he : (externalSchema type : Except ParserError (Option (Node N))) with err | _ | external
      · simp [hn, hx, he, leafPlan] at h
      · by_cases hr : isRecordWithManyKeys G type
        · simp only [hn, hx, he, hr, if_true] at h
          exact absurd h (recordPlan_not_empty type pieces)
        · simp only [hn, hx, he, hr, if_false, Bool.false_eq_true] at h hp
          refine ⟨⟨hf, by simpa using ha, by simpa using ht, hn, hx, he, by simpa using hr⟩, ?_⟩
          have hnil : pieces = [] := by
            by_contra hne
            simp [interfacePlan, interfaceSchema, hne] at h
          simpa [interfacePlan, hnil] using hp
      · obtain ⟨typeString, rfl⟩ := externalSchema_some he
        simp [hn, hx, he, leafPlan, typeSchema] at h
    · simp [hn, hx, assignPlan] at h
  · simp only [hn, leafPlan, Except.ok.injEq] at h
    exact absurd (h ▸ hn) namedSchema_not_empty

theorem severalPlan_not_empty (types : List τ) (pieces : List (JsString × Node N)) :
    (severalPlan F G types).finish pieces ≠ .ok (.objectLiteral []) := by
  intro h
  unfold severalPlan at h
  split_ifs at h
  · obtain ⟨values, -, hv⟩ := map_eq_ok.1 h
    simp [enumSchema] at hv
  · simp [leafPlan] at h
  · obtain ⟨anyOf, -, hv⟩ := map_eq_ok.1 h
    simp at hv

theorem parsePrimitive_not_empty (type : TsType τ N) :
    parsePrimitive F type ≠ .ok (.objectLiteral []) := by
  intro h
  unfold parsePrimitive at h
  split_ifs at h
  · simp [enumSchema] at h
  · simp [enumSchema] at h
  · obtain ⟨l, -, hl⟩ := map_eq_ok.1 h
    simp [enumSchema] at hl
  · simp [typeSchema] at h
  · simp [typeSchema] at h

theorem parseSeveral_not_empty {parse : τ → Parsed (Node N)} (types : List τ) :
    parseSeveral F G parse types ≠ .ok (.objectLiteral []) := by
  intro h
  rw [← severalPlan_run] at h
  obtain ⟨pieces, -, h⟩ := run_eq_ok h
  exact severalPlan_not_empty types pieces h

/-- A union with an empty schema is a union of one type that has it. -/
theorem parseUnion_empty {parse : τ → Parsed (Node N)} {type : TsType τ N}
    (h : parseUnion F G parse type = .ok (.objectLiteral [])) : ∃ u, unionTypes G type = [u] ∧
      ¬ isBooleanLiteral G u ∧ parse u = .ok (.objectLiteral []) := by
  rcases hu : unionTypes G type with _ | ⟨u, _ | ⟨v, us⟩⟩
  · simp only [parseUnion, hu] at h
    exact absurd h (parseSeveral_not_empty [])
  · simp only [parseUnion, hu] at h
    split_ifs at h with hb
    · cases h
    · exact ⟨u, rfl, hb, h⟩
  · simp only [parseUnion, hu] at h
    exact absurd h (parseSeveral_not_empty _)

theorem bare_of_empty : ∀ {n : ℕ} {t : τ}, parseType F G n t = .ok (.objectLiteral []) → Bare G t
  | 0, _, h => nomatch h
  | n + 1, t, h => by
    rw [parseType, ← planOf_run] at h
    unfold planOf at h
    split_ifs at h with hn hp ho hu hi he
    · cases h
    · rw [leafPlan_run, lift_eq_ok] at h
      exact absurd h (parsePrimitive_not_empty _)
    · obtain ⟨pieces, hp, h⟩ := run_eq_ok h
      obtain ⟨hint, hl⟩ := objectPlan_empty ho hp h
      exact .interface hint hl
    · rw [unionPlan_run] at h
      obtain ⟨u, hone, hb, h⟩ := parseUnion_empty h
      exact .union hu hone hb (bare_of_empty h)
    · obtain ⟨pieces, -, h⟩ := run_eq_ok h
      obtain ⟨m, -, hm⟩ := map_eq_ok.1 h
      simp [Merge.toNode] at hm
    · rw [leafPlan_run, lift_eq_ok] at h
      obtain ⟨values, -, hv⟩ := map_eq_ok.1 h
      simp [enumSchema] at hv
    · exact .other hn hp ho hu hi he

theorem interface_empty {parse : τ → Parsed (Node N)} {type : TsType τ N} {node : Node N}
    (hl : listedProperties type = []) (h : parseInterface F parse type = .ok node) :
    node = .objectLiteral [] := by
  rw [parseInterface, hl] at h
  obtain rfl := Except.ok.inj h
  rfl

theorem empty_of_bare {t : τ} (ht : Bare G t) : ∀ {n : ℕ} {node : Node N},
    parseType F G n t = .ok node → node = .objectLiteral [] := by
  induction ht with
  | other hn hp ho hu hi he =>
    rintro (_ | n) node h
    · cases h
    rw [parseType, parseTypeWith, if_neg hn, if_neg hp, if_neg ho, if_neg hu, if_neg hi,
      if_neg he] at h
    exact (Except.ok.inj h).symm
  | interface hint hl =>
    rintro (_ | n) node h
    · cases h
    rw [parseType, parseTypeWith_interface hint] at h
    exact interface_empty hl h
  | @union t u ht hu hb _ ih =>
    rintro (_ | n) node h
    · cases h
    have hn : ¬ isNull (G t).flags := by
      rw [ht]
      decide
    have hp : ¬ isPrimitive (G t).flags := by
      rw [ht]
      decide
    have ho : (G t).flags ≠ {.object} := by
      rw [ht]
      decide
    rw [parseType, parseTypeWith, if_neg hn, if_neg hp, if_neg ho, if_pos ht] at h
    simp only [parseUnion, hu, hb, Bool.false_eq_true, if_false] at h
    exact ih h

/-! ## The merge -/

variable (G) in
/-- An interface, or an index type without properties of its own. -/
def IsMember (u : τ) : Prop :=
  IsInterface G (G u) ∨ ((∃ v, IndexedBy (G u) v) ∧ (G u).properties = [])

omit [LiteralNumber N] in
theorem mergedEntries_indexed (node : Node N) : mergedEntries
    (.objectLiteral [(js "type", text "object"), (js "additionalProperties", node)])
      = entriesUnder (js "additionalProperties", node) := by
  have htype : escapedText (js "type") ∉ mergedNames := by decide
  simp [mergedEntries, entriesUnder, htype]

omit [LiteralNumber N] in
theorem listedEntries_indexed (node : Node N) : listedEntries
    (.objectLiteral [(js "type", text "object"), (js "additionalProperties", node)]) = [] := by
  have htype : js "type" ≠ js "properties" := by decide
  have hadditional : js "additionalProperties" ≠ js "properties" := by decide
  simp [listedEntries, entryOf, htype, hadditional]

/-- The longest name that is listed is not listed in quotes too. -/
theorem no_listed {properties : List (TsProperty τ)}
    (h : ∀ p ∈ properties, ∃ q ∈ properties, q.name = quotedName p.name) : properties = [] := by
  rcases hmax : properties.argmax fun p => p.name.length with _ | p
  · exact List.argmax_eq_none.1 hmax
  · obtain ⟨q, hq, hname⟩ := h p (List.argmax_mem hmax)
    have hle := List.le_of_mem_argmax hq hmax
    simp only [hname, quotedName, quoted, List.length_cons, List.length_append] at hle
    omega

omit [LiteralNumber N] in
theorem mem_requiredNames {schemas : List (Node N)} {m : Merge N}
    (h : mergeSchemas schemas = .ok m) (name : JsString) : name ∈ requiredNames m.toNode ↔
      ∃ s ∈ schemas, ∃ e ∈ mergedEntries s, escapedText e.1 = name := by
  rw [requiredNames_toNode, mergeSchemas_required h]
  simp only [List.mem_map, List.mem_flatMap, List.mem_reverse]
  constructor
  · rintro ⟨e, ⟨s, hs, he⟩, hname⟩
    exact ⟨s, hs, e, he, hname⟩
  · rintro ⟨s, hs, e, he, hname⟩
    exact ⟨e, ⟨s, hs, he⟩, hname⟩

omit [LiteralNumber N] in
theorem escapedText_quotedName (name : JsString) :
    escapedText (quotedName name) = quotedName name := by
  simp [escapedText, quotedName, quoted]

/-- A property that a member lists is required by its quoted name. -/
theorem quoted_required {n : ℕ} {u : τ} {s : Node N} {schemas : List (Node N)} {m : Merge N}
    (hm : mergeSchemas schemas = .ok m) (hu : IsMember G u) (hs : parseType F G n u = .ok s)
    (hmem : s ∈ schemas) {p : TsProperty τ} (hp : p ∈ listedProperties (G u)) :
    quotedName p.name ∈ requiredNames m.toNode := by
  rcases hu with hint | ⟨-, hnone⟩
  · have hname : quotedName p.name ∈ (mergedEntries s).map Prod.fst := by
      rw [mergedEntries_interface hint hs]
      exact List.mem_map_of_mem hp
    obtain ⟨e, he, hename⟩ := List.mem_map.1 hname
    exact (mem_requiredNames hm _).2 ⟨s, hmem, e, he, by rw [hename, escapedText_quotedName]⟩
  · simp [listedProperties, hnone] at hp

/-- Members without properties and with bare index types have no entries to merge. -/
theorem member_empty {n : ℕ} {u : τ} {s : Node N} (hu : IsMember G u)
    (hs : parseType F G n u = .ok s) (hl : listedProperties (G u) = [])
    (hb : ∀ v, IndexedBy (G u) v → Bare G v) : mergedEntries s = [] ∧ listedEntries s = [] := by
  rcases hu with hint | ⟨⟨v, hv⟩, -⟩
  · rcases n with _ | n
    · cases hs
    rw [parseType, parseTypeWith_interface hint] at hs
    rw [interface_empty hl hs]
    exact ⟨rfl, rfl⟩
  · obtain ⟨k, node, hnode, rfl⟩ := parseType_indexed hv hs
    rw [mergedEntries_indexed, listedEntries_indexed, empty_of_bare (hb v hv) hnode]
    exact ⟨by simp [entriesUnder], rfl⟩

/-- What is merged of an index type is the schema of the values. -/
theorem bare_of_unmerged {n : ℕ} {u v : τ} {s : Node N} {schemas : List (Node N)} {m : Merge N}
    (hm : mergeSchemas schemas = .ok m) (hv : IndexedBy (G u) v) (hs : parseType F G n u = .ok s)
    (hmem : s ∈ schemas) (hnone : mergedEntries s = []) : Bare G v := by
  obtain ⟨k, node, hnode, rfl⟩ := parseType_indexed hv hs
  obtain ⟨ps, hps, hmerge⟩ := succeeds_mergeSchemas.1 ⟨m, hm⟩ _ hmem
  cases hps
  have hname : escapedText (js "additionalProperties") ∈ mergedNames := by decide
  obtain ⟨es, rfl⟩ := hmerge (js "additionalProperties", node) (by simp) hname
  rw [mergedEntries_indexed, entriesUnder, if_pos hname] at hnone
  obtain rfl : es = [] := hnone
  exact bare_of_empty hnode

section Exact

variable {n : ℕ} {types : List τ} {schemas : List (Node N)} {m : Merge N}

theorem schema_of_member (hs : types.mapM (parseType F G n) = .ok schemas) {u : τ}
    (hu : u ∈ types) : ∃ s ∈ schemas, parseType F G n u = .ok s := by
  obtain ⟨s, hus⟩ := succeeds_mapM.1 ⟨schemas, hs⟩ u hu
  exact ⟨s, (mem_mapM_iff hs s).2 ⟨u, hu, hus⟩, hus⟩

/-- An exact merge is of nothing: what the schemas list is required under its quoted name. -/
theorem MergesExactly.bare (hmembers : ∀ u ∈ types, IsMember G u)
    (hs : types.mapM (parseType F G n) = .ok schemas) (hm : mergeSchemas schemas = .ok m)
    (hexact : MergesExactly G types schemas m.toNode) :
    (∀ u ∈ types, listedProperties (G u) = []) ∧
      ∀ u ∈ types, ∀ v, IndexedBy (G u) v → Bare G v := by
  have hnone : types.flatMap (fun u => listedProperties (G u)) = [] := by
    refine no_listed fun p hp => ?_
    obtain ⟨u, hu, hp⟩ := List.mem_flatMap.1 hp
    obtain ⟨s, hmem, hus⟩ := schema_of_member hs hu
    obtain ⟨v, hv, q, hq, -, hname⟩ :=
      (hexact.required _).1 (quoted_required hm (hmembers u hu) hus hmem hp)
    exact ⟨q, List.mem_flatMap.2 ⟨v, hv, hq⟩, hname⟩
  have hlisted := List.flatMap_eq_nil_iff.1 hnone
  refine ⟨hlisted, fun u hu v hv => ?_⟩
  obtain ⟨s, hmem, hus⟩ := schema_of_member hs hu
  refine bare_of_unmerged hm hv hus hmem (List.eq_nil_iff_forall_not_mem.2 fun e he => ?_)
  obtain ⟨w, hw, q, hq, -⟩ :=
    (hexact.required _).1 ((mem_requiredNames hm _).2 ⟨s, hmem, e, he, rfl⟩)
  exact List.not_mem_nil (hlisted w hw ▸ hq)

/-- Where there is nothing to merge, the merge is exact. -/
theorem mergesExactly_of_bare (hmembers : ∀ u ∈ types, IsMember G u)
    (hs : types.mapM (parseType F G n) = .ok schemas) (hm : mergeSchemas schemas = .ok m)
    (hlisted : ∀ u ∈ types, listedProperties (G u) = [])
    (hbare : ∀ u ∈ types, ∀ v, IndexedBy (G u) v → Bare G v) :
    MergesExactly G types schemas m.toNode := by
  have hempty : ∀ s ∈ schemas, mergedEntries s = [] ∧ listedEntries s = [] := by
    intro s hmem
    obtain ⟨u, hu, hus⟩ := (mem_mapM_iff hs s).1 hmem
    exact member_empty (hmembers u hu) hus (hlisted u hu) (hbare u hu)
  obtain rfl := mergeSchemas_empty hm fun s hmem => (hempty s hmem).1
  have hlast : ∀ name, lastListed schemas name = none := by
    intro name
    rw [lastListed, List.findSome?_eq_none_iff]
    intro s hmem
    rw [(hempty s (List.mem_reverse.1 hmem)).2]
    rfl
  refine ⟨?_, ?_, ?_, ?_⟩
  · simp [listedEntries_toNode, Merge.empty]
  · simp [listedEntries_toNode, Merge.empty, hlast]
  · simp [requiredNames_toNode, Merge.empty]
  · intro name
    rw [requiredNames_toNode]
    refine iff_of_false List.not_mem_nil ?_
    rintro ⟨u, hu, q, hq, -⟩
    exact List.not_mem_nil (hlisted u hu ▸ hq)

end Exact

theorem parseIntersection_exact_iff {n : ℕ} {type : TsType τ N} {schemas : List (Node N)}
    {schema : Node N} (hmembers : ∀ u ∈ type.types, IsMember G u)
    (hs : type.types.mapM (parseType F G n) = .ok schemas)
    (h : parseIntersection (parseType F G n) type = .ok schema) :
    MergesExactly G type.types schemas schema ↔
      (∀ u ∈ type.types, listedProperties (G u) = []) ∧
        ∀ u ∈ type.types, ∀ v, IndexedBy (G u) v → Bare G v := by
  obtain ⟨schemas', hs', h⟩ := bind_eq_ok.1 h
  obtain rfl := Except.ok.inj (hs.symm.trans hs')
  rw [lift_eq_ok] at h
  obtain ⟨m, hm, rfl⟩ := map_eq_ok.1 h
  constructor
  · exact fun hexact => hexact.bare hmembers hs hm
  · rintro ⟨hlisted, hbare⟩
    exact mergesExactly_of_bare hmembers hs hm hlisted hbare

/-- `interface Item {}` and `Record<string, object>` -/
def emptyGraph : TsGraph (Fin 3) ℤ
  | 0 => interfaceType "Item" []
  | 1 => { (bareType {.object} : TsType (Fin 3) ℤ) with stringIndex := some 2 }
  | 2 => { (bareType {.nonPrimitive} : TsType (Fin 3) ℤ) with typeString := js "object" }

def intersectionType (types : List (Fin 3)) : TsType (Fin 3) ℤ :=
  { bareType {.intersection} with types := types }

theorem parseIntersection_exact_iff_empty : ∃ schemas schema,
    [0, 1].mapM (parseType ⟨false, false⟩ emptyGraph 2) = .ok schemas ∧
    parseIntersection (parseType ⟨false, false⟩ emptyGraph 2) (intersectionType [0, 1])
      = .ok schema ∧
    MergesExactly emptyGraph [0, 1] schemas schema := by
  have hint : IsInterface emptyGraph (emptyGraph 0) := ⟨rfl, rfl, rfl, rfl, rfl, rfl, rfl⟩
  have hindexed : IndexedBy (emptyGraph 1) 2 := ⟨rfl, rfl, rfl, rfl, rfl⟩
  have hbare : Bare emptyGraph 2 := by
    refine .other ?_ ?_ ?_ ?_ ?_ ?_ <;> decide
  have hmembers : ∀ u ∈ (intersectionType [0, 1]).types, IsMember emptyGraph u := by
    intro u hu
    simp only [intersectionType, List.mem_cons, List.not_mem_nil, or_false] at hu
    rcases hu with rfl | rfl
    · exact .inl hint
    · exact .inr ⟨⟨2, hindexed⟩, rfl⟩
  refine ⟨_, _, rfl, rfl, (parseIntersection_exact_iff (F := ⟨false, false⟩) (n := 2) hmembers
    rfl rfl).2 ⟨?_, ?_⟩⟩
  · intro u hu
    simp only [intersectionType, List.mem_cons, List.not_mem_nil, or_false] at hu
    rcases hu with rfl | rfl <;> rfl
  · intro u hu v hv
    simp only [intersectionType, List.mem_cons, List.not_mem_nil, or_false] at hu
    rcases hu with rfl | rfl
    · exact absurd (hv.index.symm.trans hint.index) (by simp)
    · rwa [Option.some.inj (hv.index.symm.trans hindexed.index)]

/-- `interface Item { id: string }` and `interface Note { text?: string }` -/
def noteItemGraph : TsGraph (Fin 3) ℤ
  | 0 => interfaceType "Item" [plainProperty "id" 2]
  | 1 => interfaceType "Note"
      [{ plainProperty "text" (2 : Fin 3) with declarations := some [⟨false, true⟩] }]
  | 2 => stringType

/-- What is required of `Item & Note` is `"id"` and `"text"`, with their quotes. -/
theorem parseIntersection_requires_quoted : ∃ schemas schema,
    [0, 1].mapM (parseType ⟨false, false⟩ noteItemGraph 2) = .ok schemas ∧
    parseIntersection (parseType ⟨false, false⟩ noteItemGraph 2) (intersectionType [0, 1])
      = .ok schema ∧
    ¬ MergesExactly noteItemGraph [0, 1] schemas schema := by
  refine ⟨_, _, rfl, rfl, fun hexact => ?_⟩
  obtain ⟨u, hu, q, hq, -, hname⟩ := (hexact.required (quotedName (js "text"))).1 (by decide)
  simp only [List.mem_cons, List.not_mem_nil, or_false] at hu
  rcases hu with rfl | rfl
  · obtain rfl := List.mem_singleton.1 hq
    exact absurd hname (by decide)
  · obtain rfl := List.mem_singleton.1 hq
    exact absurd hname (by decide)

end TypeParser

end DiiaApp
