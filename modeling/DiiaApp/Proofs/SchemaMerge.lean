import DiiaApp.Js.Integer
import DiiaApp.Proofs.SchemaJson
import DiiaApp.SchemaService

/-!
# Definitions of all methods in one object

A generated schema refers to all its definitions, and each of its references is met when they are
followed. So the answer of the service keeps the meaning of the schemas exactly where, of each name
that one of them refers to, no other has a different definition (`merge_same_iff`).
-/

namespace DiiaApp

open Js

variable {root : ProtoRoot} {comments : Comments}

/-- A schema refers to what it defines, and what it refers to can be reached from it. -/
structure Closed (s : JsonSchema) : Prop where
  referred : ∀ {d v}, s.defs.get d = some v → d ∈ s.refs
  reached : ∀ {d}, d ∈ s.refs → Reaches s.defs (Schema.refsAll s.properties) d

theorem generateSchema_closed (typeName : JsString) :
    Closed (generateSchema root comments typeName) := by
  unfold generateSchema
  rcases (if typeName = [] then none else root.lookupType typeName) with _ | type
  · exact ⟨fun h => by simp [JsonSchema.defs] at h,
      fun h => by simp [JsonSchema.refs, JsonSchema.defs, Schema.refsAll, Map.empty, Map.values] at h⟩
  dsimp only
  have h := searchType_grows root comments type
  have hdefs := defs_typeToSchema root comments typeName type
  have hmem : ∀ {d}, d ∈ (typeToSchema root comments typeName type).refs ↔
      d ∈ Schema.refsAll (searchType root comments type).1 ∨
        ∃ e v, (searchType root comments type).2.definitions.get e = some v ∧ d ∈ v.refs := by
    intro d
    rw [JsonSchema.refs, hdefs, List.mem_append, List.mem_flatMap]
    refine or_congr Iff.rfl ⟨?_, ?_⟩
    · rintro ⟨v, hv, hd⟩
      obtain ⟨e, he⟩ := Map.mem_values.1 hv
      exact ⟨e, v, he, hd⟩
    · rintro ⟨e, v, he, hd⟩
      exact ⟨v, Map.mem_values.2 ⟨e, he⟩, hd⟩
  constructor
  · intro d v hd
    rw [hdefs] at hd
    rcases h.made hd with h0 | ⟨⟨c, hc, he, rfl⟩, -⟩
    · exact absurd h0 (by simp [initialState])
    · exact hmem.2 (h.refers hc (.inr (.inr he)))
  · intro d hd
    rw [hdefs]
    rcases hmem.1 hd with hd | ⟨e, v, he, hd⟩
    · exact ⟨d, hd, .refl⟩
    · obtain ⟨r, hr, hp⟩ := h.reached he rfl
      exact ⟨r, hr, hp.tail ⟨v, he, hd⟩⟩

variable {N : Type}

/-- The name `d` is met when the references of a tree are followed in definitions. -/
def LeadsBy (definitions schema : Json N) (d : JsString) : Prop :=
  ∃ r ∈ schema.refs, Relation.ReflTransGen
    (fun a b => ∃ s, definitions.entry a = some s ∧ b ∈ s.refs) r d

theorem entry_toJson (definitions : Definitions) (d : JsString) :
    (definitions.toJson : Json N).entry d = (definitions.get d).map Schema.toJson := by
  have hfind : ∀ es : List (JsString × Schema),
      Map.find d (Schema.entriesToJson es : List (JsString × Json N))
        = (Map.find d es).map Schema.toJson := by
    intro es
    induction es with
    | nil => rfl
    | cons e es ih =>
      rw [Schema.entriesToJson, Map.find, Map.find, ih]
      split_ifs <;> rfl
  exact hfind definitions.entries

/-- Following the references of a schema in its own definitions meets what it refers to. -/
theorem leadsBy_iff {s : JsonSchema} (hs : Closed s) (d : JsString) :
    LeadsBy (s.defs.toJson : Json N) s.toJson d ↔ d ∈ s.refs := by
  unfold LeadsBy
  rw [JsonSchema.refs_toJson]
  constructor
  · rintro ⟨r, hr, hp⟩
    induction hp with
    | refl => exact List.mem_append_left _ hr
    | tail _ hbc _ =>
      obtain ⟨v, hv, hc⟩ := hbc
      rw [entry_toJson] at hv
      obtain ⟨w, hw, rfl⟩ := Option.map_eq_some_iff.1 hv
      rw [Schema.refs_toJson] at hc
      exact List.mem_append_right _
        (List.mem_flatMap.2 ⟨w, Map.mem_values.2 ⟨_, hw⟩, hc⟩)
  · intro hd
    obtain ⟨r, hr, hp⟩ := hs.reached hd
    refine ⟨r, hr, Relation.ReflTransGen.mono ?_ _ _ hp⟩
    rintro a b ⟨w, hw, hb⟩
    exact ⟨w.toJson, by rw [entry_toJson, hw]; rfl, by rwa [Schema.refs_toJson]⟩

theorem assign_get (target source : Definitions) (d : JsString) :
    (assign target source).get d = (source.get d).or (target.get d) := by
  have hfold : ∀ (es : List (JsString × Schema)) (target : Definitions),
      (es.map Prod.fst).Nodup →
      (es.foldl (fun target e => target.set e.1 e.2) target).get d
        = (Map.find d es).or (target.get d) := by
    intro es
    induction es with
    | nil => exact fun _ _ => rfl
    | cons e es ih =>
      intro target hn
      rw [List.map_cons, List.nodup_cons] at hn
      rw [List.foldl_cons, ih _ hn.2, Map.find, Map.get_set]
      rcases eq_or_ne e.1 d with rfl | hne
      · rw [if_pos rfl, if_pos rfl, Map.find_eq_none.2 hn.1]
        rfl
      · rw [if_neg hne, if_neg hne.symm]
  exact hfold source.entries target source.nodup

/-- A name in the merged definitions is one of the schemas', if any has it. -/
theorem merged_get (d : JsString) : ∀ (schemas : List JsonSchema) (target : Definitions),
    (∃ s ∈ schemas, ∃ v, s.defs.get d = some v ∧
      (schemas.foldl (fun target s => assign target s.defs) target).get d = some v) ∨
    (∀ s ∈ schemas, s.defs.get d = none) ∧
      (schemas.foldl (fun target s => assign target s.defs) target).get d = target.get d
  | [], _ => .inr ⟨fun _ h => absurd h List.not_mem_nil, rfl⟩
  | s :: schemas, target => by
    rw [List.foldl_cons]
    rcases merged_get d schemas (assign target s.defs) with ⟨s', hs', v, hv, hm⟩ | ⟨hnone, hm⟩
    · exact .inl ⟨s', List.mem_cons_of_mem _ hs', v, hv, hm⟩
    · rw [assign_get] at hm
      rcases hd : s.defs.get d with _ | v
      · rw [hd, Option.none_or] at hm
        refine .inr ⟨fun s' hs' => ?_, hm⟩
        rcases List.mem_cons.1 hs' with rfl | hs'
        · exact hd
        · exact hnone s' hs'
      · rw [hd, Option.some_or] at hm
        exact .inl ⟨s, List.mem_cons_self .., v, hd, hm⟩

theorem assign_wellFormed {target source : Definitions} (ht : DefinitionsWellFormed target)
    (hs : DefinitionsWellFormed source) : DefinitionsWellFormed (assign target source) := by
  have hfold : ∀ (es : List (JsString × Schema)) (target : Definitions),
      Schema.AllWellFormed es → DefinitionsWellFormed target →
      DefinitionsWellFormed (es.foldl (fun target e => target.set e.1 e.2) target) := by
    intro es
    induction es with
    | nil => exact fun _ _ h => h
    | cons e es ih => exact fun _ he h => ih _ he.2 (allWellFormed_put he.1 h)
  exact hfold source.entries target hs ht

/-- The schemas of the methods that have an action. -/
def namedSchemas (registry : SchemaRegistry) : List JsonSchema :=
  (registry.getAll.filter RegisteredMethod.hasAction).flatMap fun m =>
    [m.requestSchema, m.responseSchema]

/-- All schemas of the registry come from the generator. -/
def Generated (root : ProtoRoot) (comments : Comments) (registry : SchemaRegistry) : Prop :=
  ∀ m ∈ registry.getAll, (∃ n, m.requestSchema = generateSchema root comments n) ∧
    ∃ n, m.responseSchema = generateSchema root comments n

theorem namedSchemas_generated {registry : SchemaRegistry} (h : Generated root comments registry)
    {s : JsonSchema} (hs : s ∈ namedSchemas registry) :
    ∃ n, s = generateSchema root comments n := by
  obtain ⟨m, hm, hs⟩ := List.mem_flatMap.1 hs
  obtain ⟨hreq, hres⟩ := h m (List.mem_of_mem_filter hm)
  rcases List.mem_cons.1 hs with rfl | hs
  · exact hreq
  · rw [List.mem_singleton.1 hs]
    exact hres

/-- The definitions of all named schemas in one object. -/
def mergedDefinitions (registry : SchemaRegistry) : Definitions :=
  (namedSchemas registry).foldl (fun target s => assign target s.defs) Map.empty

theorem foldl_assignMethod (methods : List RegisteredMethod) : ∀ target : Definitions,
    methods.foldl assignMethod target = (methods.flatMap fun m =>
      [m.requestSchema, m.responseSchema]).foldl (fun target s => assign target s.defs) target := by
  induction methods with
  | nil => exact fun _ => rfl
  | cons m methods ih =>
    intro target
    rw [List.foldl_cons, ih, List.flatMap_cons, List.foldl_append]
    rfl

/-- Following references in the merged definitions gives what following them in the own ones
gives. -/
def SameMeaning (own merged schema : Json N) : Prop :=
  ∀ d, LeadsBy own schema d → merged.entry d = own.entry d

theorem sameMeaning_iff (registry : SchemaRegistry) {s : JsonSchema} (hs : Closed s) :
    SameMeaning (s.defs.toJson : Json N) (mergedDefinitions registry).toJson s.toJson ↔
      ∀ d ∈ s.refs, ((mergedDefinitions registry).get d).map (Schema.toJson (N := N))
        = (s.defs.get d).map Schema.toJson := by
  unfold SameMeaning
  simp only [leadsBy_iff hs, entry_toJson]

section Answer

variable [JsNumber N]

/-- The text of a well-formed tree is read back. -/
theorem parseJsonSafe_print {j : Json N} (h : j.WellFormed) : parseJsonSafe j.print = j := by
  have hp := Json.parse_print h
  have hne : j.print ≠ [] := by
    intro h0
    rw [h0] at hp
    exact Option.some_ne_none _ hp.symm
  rw [parseJsonSafe, if_neg hne, hp, Option.getD_some]

theorem generated_set {registry : SchemaRegistry} (h : Generated root comments registry)
    {path : JsString} {m : RegisteredMethod}
    (hm : (∃ n, m.requestSchema = generateSchema root comments n) ∧
      ∃ n, m.responseSchema = generateSchema root comments n) :
    Generated root comments (registry.set path m) := by
  intro m' hm'
  obtain ⟨k, hk⟩ := Map.mem_values.1 hm'
  rw [Map.get_set] at hk
  split_ifs at hk
  · rwa [← Option.some.inj hk]
  · exact h m' (Map.mem_values.2 ⟨k, hk⟩)

/-- Registering the methods of a package definition keeps the schemas generated, -/
theorem generated_initializeSchemas (metadata : ProtoMetadata) (pkgDefs : List DefinitionEntry)
    {registry : SchemaRegistry} (h : Generated metadata.root metadata.comments registry) :
    Generated metadata.root metadata.comments (initializeSchemas metadata pkgDefs registry) := by
  have hfold : ∀ (methods : List GrpcMethodDefinition) (registry : SchemaRegistry),
      Generated metadata.root metadata.comments registry →
      Generated metadata.root metadata.comments (methods.foldl
        (fun registry method => registry.register (registeredMethod metadata method)) registry) := by
    intro methods
    induction methods with
    | nil => exact fun _ h => h
    | cons method methods ih => exact fun _ h => ih _ (generated_set h ⟨⟨_, rfl⟩, ⟨_, rfl⟩⟩)
  exact hfold _ _ h

/-- and so does giving them their actions. -/
theorem generated_setActionInfo {registry : SchemaRegistry} (h : Generated root comments registry)
    (path actionName sessionType : JsString) :
    Generated root comments (registry.setActionInfo path actionName sessionType) := by
  unfold SchemaRegistry.setActionInfo
  rcases hg : registry.get path with _ | m
  · exact h
  · exact generated_set h (h m (Map.mem_values.2 ⟨path, hg⟩))

/-- What the client makes of the answer. -/
def discovered (N : Type) [JsNumber N] (serviceName version : JsString)
    (registry : SchemaRegistry) : DiscoveredSchema N :=
  transformResponse (handleGetSchemas N serviceName version registry)

theorem discovered_definitions {registry : SchemaRegistry} (h : Generated root comments registry)
    (serviceName version : JsString) :
    (discovered N serviceName version registry).definitions
      = (mergedDefinitions registry).toJson := by
  have hwf : ∀ (schemas : List JsonSchema) (target : Definitions),
      (∀ s ∈ schemas, DefinitionsWellFormed s.defs) → DefinitionsWellFormed target →
      DefinitionsWellFormed (schemas.foldl (fun target s => assign target s.defs) target) := by
    intro schemas
    induction schemas with
    | nil => exact fun _ _ ht => ht
    | cons s schemas ih =>
      intro target hs ht
      exact ih _ (fun s' hs' => hs s' (List.mem_cons_of_mem _ hs'))
        (assign_wellFormed ht (hs s (List.mem_cons_self ..)))
  have hm : ((mergedDefinitions registry).toJson : Json N).WellFormed := by
    refine definitions_toJson_wellFormed (hwf _ _ (fun s hs => ?_) trivial)
    obtain ⟨n, rfl⟩ := namedSchemas_generated h hs
    exact (generateSchema_wellFormed n).defs
  have hp := parseJsonSafe_print hm
  have hne : ((mergedDefinitions registry).toJson : Json N).print ≠ [] := by
    intro h0
    have hparse := Json.parse_print hm
    rw [h0] at hparse
    exact Option.some_ne_none _ hparse.symm
  rw [discovered, transformResponse, handleGetSchemas]
  dsimp only
  rw [foldl_assignMethod, ← namedSchemas, ← mergedDefinitions, if_neg hne, hp]

/-- Every action of the answer refers to the definitions as its method does. -/
def MergeKeepsMeaning (N : Type) [JsNumber N] (serviceName version : JsString)
    (registry : SchemaRegistry) : Prop :=
  ∀ (i : ℕ) (m : RegisteredMethod),
    (registry.getAll.filter RegisteredMethod.hasAction)[i]? = some m →
    ∃ a, (discovered N serviceName version registry).actions[i]? = some a ∧
      SameMeaning m.requestSchema.defs.toJson
        (discovered N serviceName version registry).definitions a.requestSchema ∧
      SameMeaning m.responseSchema.defs.toJson
        (discovered N serviceName version registry).definitions a.responseSchema

theorem mergeKeepsMeaning_iff {registry : SchemaRegistry} (h : Generated root comments registry)
    (serviceName version : JsString) : MergeKeepsMeaning N serviceName version registry ↔
      ∀ s ∈ namedSchemas registry,
        SameMeaning (s.defs.toJson : Json N) (mergedDefinitions registry).toJson s.toJson := by
  have hparse : ∀ s ∈ namedSchemas registry,
      (parseJsonSafe (s.toJson : Json N).print : Json N) = s.toJson := by
    intro s hs
    obtain ⟨n, rfl⟩ := namedSchemas_generated h hs
    exact parseJsonSafe_print (JsonSchema.toJson_wellFormed (generateSchema_wellFormed n))
  have hactions : (discovered N serviceName version registry).actions
      = (registry.getAll.filter RegisteredMethod.hasAction).map fun m =>
        transformAction (actionOf N m) := by
    rw [discovered, transformResponse, handleGetSchemas, List.map_map]
    rfl
  have hmem : ∀ m ∈ registry.getAll.filter RegisteredMethod.hasAction,
      m.requestSchema ∈ namedSchemas registry ∧ m.responseSchema ∈ namedSchemas registry :=
    fun m hm => ⟨List.mem_flatMap.2 ⟨m, hm, by simp⟩, List.mem_flatMap.2 ⟨m, hm, by simp⟩⟩
  have hschemas : ∀ m ∈ registry.getAll.filter RegisteredMethod.hasAction,
      (transformAction (actionOf N m) : DiscoveredAction N).requestSchema
          = m.requestSchema.toJson ∧
        (transformAction (actionOf N m) : DiscoveredAction N).responseSchema
          = m.responseSchema.toJson := by
    intro m hm
    obtain ⟨hreq, hres⟩ := hmem m hm
    exact ⟨hparse _ hreq, hparse _ hres⟩
  rw [MergeKeepsMeaning, discovered_definitions h, hactions]
  constructor
  · intro hall s hs
    obtain ⟨m, hm, hsm⟩ := List.mem_flatMap.1 hs
    obtain ⟨i, hi⟩ := List.mem_iff_getElem?.1 hm
    obtain ⟨a, ha, hreq, hres⟩ := hall i m hi
    rw [List.getElem?_map, hi, Option.map_some, Option.some_inj] at ha
    subst ha
    rw [(hschemas m hm).1] at hreq
    rw [(hschemas m hm).2] at hres
    rcases List.mem_cons.1 hsm with rfl | hsm
    · exact hreq
    · rw [List.mem_singleton.1 hsm]
      exact hres
  · intro hall i m hm
    have hi := List.mem_of_getElem? hm
    refine ⟨_, by rw [List.getElem?_map, hm, Option.map_some], ?_⟩
    rw [(hschemas m hi).1, (hschemas m hi).2]
    exact ⟨hall _ (hmem m hi).1, hall _ (hmem m hi).2⟩

/-- The answer keeps the meaning of every schema exactly where no schema of it has another
definition of a name than a schema that refers to this name. -/
theorem merge_same_iff {registry : SchemaRegistry} (h : Generated root comments registry)
    (serviceName version : JsString) : MergeKeepsMeaning N serviceName version registry ↔
      ∀ s ∈ namedSchemas registry, ∀ s' ∈ namedSchemas registry, ∀ d ∈ s.refs, ∀ v,
        s'.defs.get d = some v →
        (s.defs.get d).map Schema.toJson = some (v.toJson : Json N) := by
  have hclosed : ∀ s ∈ namedSchemas registry, Closed s := by
    intro s hs
    obtain ⟨n, rfl⟩ := namedSchemas_generated h hs
    exact generateSchema_closed n
  rw [mergeKeepsMeaning_iff h]
  constructor
  · intro hall s hs s' hs' d hd v hv
    have h1 := (sameMeaning_iff registry (hclosed s hs)).1 (hall s hs) d hd
    have h2 := (sameMeaning_iff registry (hclosed s' hs')).1 (hall s' hs') d
      ((hclosed s' hs').referred hv)
    rw [← h1, h2, hv, Option.map_some]
  · intro hall s hs
    refine (sameMeaning_iff registry (hclosed s hs)).2 fun d hd => ?_
    rcases merged_get d (namedSchemas registry) Map.empty with ⟨s', hs', v, hv, hm⟩ | ⟨hnone, hm⟩
    · rw [mergedDefinitions, hm, hall s hs s' hs' d hd v hv, Option.map_some]
    · rw [mergedDefinitions, hm, hnone s hs]
      rfl

end Answer

/-- Messages `First` with an `a.Foo` that has a bar, and `Second` with a `b.Foo` that has none. -/
def twoFoos : ProtoRoot :=
  rootOf
    [.mk (js "First") (js ".First") (Map.empty.set (js "foo") (fieldOf "a.Foo" ".a.Foo")) [] [],
      .mk (js "Second") (js ".Second") (Map.empty.set (js "foo") (fieldOf "b.Foo" ".b.Foo")) [] [],
      .mk (js "Foo") (js ".a.Foo") (Map.empty.set (js "bar") (fieldOf "a.Bar" ".a.Bar")) [] [],
      .mk (js "Bar") (js ".a.Bar") Map.empty [] [], .mk (js "Foo") (js ".b.Foo") Map.empty [] []] []

def metadataOf (root : ProtoRoot) : ProtoMetadata := ⟨root, noComments, Map.empty, Map.empty⟩

/-- A method from a message to the same message. -/
def echo (path type : String) : DefinitionEntry :=
  .method ⟨js path, some (js type), some (js type), none, none, none⟩

/-- The registry of methods of `First` and of `a.Foo`, with actions. -/
def firstAndFoo : SchemaRegistry :=
  ((initializeSchemas (metadataOf twoFoos) [echo "/S/First" "First", echo "/S/Foo" "a.Foo"]
    Map.empty).setActionInfo (js "/S/First") (js "first") (js "None")).setActionInfo
      (js "/S/Foo") (js "foo") (js "None")

theorem firstAndFoo_generated : Generated twoFoos noComments firstAndFoo :=
  generated_setActionInfo (generated_setActionInfo (generated_initializeSchemas
    (metadataOf twoFoos) _ fun _ hm => absurd hm List.not_mem_nil) _ _ _) _ _ _

/-- The text of a definition. -/
def definitionText (s : JsonSchema) (d : JsString) : Option JsString :=
  (s.defs.get d).map fun v => (v.toJson : Json ℤ).print

theorem wellFormed_of_mem {s : Schema} {d : JsString} : ∀ {es : List (JsString × Schema)},
    Schema.AllWellFormed es → (d, s) ∈ es → s.WellFormed
  | e :: es, h, hm => by
    rcases List.mem_cons.1 hm with rfl | hm
    · exact h.1
    · exact wellFormed_of_mem h.2 hm

theorem definition_wellFormed {definitions : Definitions} (h : DefinitionsWellFormed definitions)
    {d : JsString} {s : Schema} (hd : definitions.get d = some s) : s.WellFormed :=
  wellFormed_of_mem h (Map.mem_entries.2 hd)

/-- Definitions that are written the same are the same. -/
theorem get_of_text {s s' : JsonSchema} {d : JsString} {v : Schema}
    (h : DefinitionsWellFormed s.defs) (h' : DefinitionsWellFormed s'.defs)
    (ht : definitionText s d = definitionText s' d) (hv : s'.defs.get d = some v) :
    (s.defs.get d).map Schema.toJson = some (v.toJson : Json ℤ) := by
  rw [definitionText, definitionText, hv, Option.map_some, Option.map_eq_some_iff] at ht
  obtain ⟨u, hu, hp⟩ := ht
  have hparse := Json.parse_print (Schema.toJson_wellFormed (definition_wellFormed h hu) :
    (u.toJson : Json ℤ).WellFormed)
  rw [hp, Json.parse_print (Schema.toJson_wellFormed (definition_wellFormed h' hv))] at hparse
  rw [hu, Option.map_some, Option.some.inj hparse]

/-- Both methods have the definition of `a.Bar`, and it is the same. -/
theorem merge_same_iff_firstAndFoo :
    MergeKeepsMeaning ℤ (js "service") (js "v1") firstAndFoo := by
  have hnamed : ∀ s ∈ namedSchemas firstAndFoo,
      s = generateSchema twoFoos noComments (js "First") ∨
        s = generateSchema twoFoos noComments (js "a.Foo") := by
    have hlist : namedSchemas firstAndFoo = [generateSchema twoFoos noComments (js "First"),
        generateSchema twoFoos noComments (js "First"),
        generateSchema twoFoos noComments (js "a.Foo"),
        generateSchema twoFoos noComments (js "a.Foo")] := rfl
    rw [hlist]
    simp
  have htext : ∀ d ∈ (generateSchema twoFoos noComments (js "First")).refs,
      (generateSchema twoFoos noComments (js "a.Foo")).defs.has d →
        definitionText (generateSchema twoFoos noComments (js "First")) d =
          definitionText (generateSchema twoFoos noComments (js "a.Foo")) d := by
    decide
  have hrefs : ∀ d ∈ (generateSchema twoFoos noComments (js "a.Foo")).refs,
      definitionText (generateSchema twoFoos noComments (js "a.Foo")) d =
        definitionText (generateSchema twoFoos noComments (js "First")) d := by
    decide
  have hwf : ∀ n, DefinitionsWellFormed (generateSchema twoFoos noComments n).defs :=
    fun n => (generateSchema_wellFormed n).defs
  refine (merge_same_iff firstAndFoo_generated _ _).2 fun s hs s' hs' d hd v hv => ?_
  rcases hnamed s hs with rfl | rfl
  · rcases hnamed s' hs' with rfl | rfl
    · rw [hv, Option.map_some]
    · exact get_of_text (hwf _) (hwf _) (htext d hd (by simp [Map.has, hv])) hv
  · rcases hnamed s' hs' with rfl | rfl
    · exact get_of_text (hwf _) (hwf _) (hrefs d hd) hv
    · rw [hv, Option.map_some]

/-- The registry of two methods with actions. -/
def twoActions : SchemaRegistry :=
  ((initializeSchemas (metadataOf twoFoos) [echo "/S/First" "First", echo "/S/Second" "Second"]
    Map.empty).setActionInfo (js "/S/First") (js "first") (js "None")).setActionInfo
      (js "/S/Second") (js "second") (js "None")

/-- The definition of `a.Foo` is overwritten by that of `b.Foo`. -/
theorem not_merge_same : Generated twoFoos noComments twoActions ∧
    ¬ MergeKeepsMeaning ℤ (js "service") (js "v1") twoActions := by
  have hgen : Generated twoFoos noComments twoActions :=
    generated_setActionInfo (generated_setActionInfo (generated_initializeSchemas
      (metadataOf twoFoos) _ fun _ hm => absurd hm List.not_mem_nil) _ _ _) _ _ _
  refine ⟨hgen, fun h => ?_⟩
  have hfirst : generateSchema twoFoos noComments (js "First") ∈ namedSchemas twoActions :=
    List.mem_cons_self ..
  have hfoo := (sameMeaning_iff twoActions (generateSchema_closed _)).1
    ((mergeKeepsMeaning_iff hgen _ _).1 h _ hfirst) (js "Foo") (by decide)
  exact absurd (congrArg (Option.map Json.refs) hfoo) (by decide)

end DiiaApp
