import DiiaApp.Proofs.SchemaMerge

/-!
# Schemas of a method's own types

A method's schemas are looked up by the names of its types without their packages. A lookup goes
through all packages and keeps the last object it meets, so the schemas are the method's own where
no later package has the names, or has the same types under them (`registered_own_iff`).
-/

namespace DiiaApp

open Js

/-- The names of types are not empty and have no dot. -/
def PlainNames (root : ProtoRoot) : Prop := ∀ t ∈ root.types, t.name ≠ [] ∧ dot ∉ t.name

/-- A method as both views have it: the loader's definition, and its message types in the root. The
loader names these without their packages. -/
structure LoadedMethod (root : ProtoRoot) where
  definition : GrpcMethodDefinition
  input : ProtoType
  output : ProtoType
  input_mem : input ∈ root.types
  output_mem : output ∈ root.types
  requestType : definition.requestType = some input.name
  responseType : definition.responseType = some output.name

variable {root : ProtoRoot} {tree : RootTree}

/-- The schema for a name without dots is that of the message type which the lookup meets. -/
theorem generateSchema_name (comments : Comments) (hr : root.Has tree) {n : JsString} (hn : n ≠ [])
    (hdot : dot ∉ n) : generateSchema root comments n =
      match (tree.lookup n).bind RootObject.type? with
      | some t => typeToSchema root comments n t
      | none => ⟨[], none, none, [], none⟩ := by
  have hl := hr.lookupType n hn hdot
  rcases h : (tree.lookup n).bind RootObject.type? with _ | t
  · simp only [generateSchema, if_neg hn, hl, h]
  · simp only [generateSchema, if_neg hn, hl, h]

/-- The schema of the type under its own name. -/
def schemaOf (metadata : ProtoMetadata) (type : ProtoType) : JsonSchema :=
  typeToSchema metadata.root metadata.comments type.name type

/-- What the last method registered under a path leaves there. -/
theorem initializeSchemas_get (metadata : ProtoMetadata) {pkgDefs : List DefinitionEntry}
    (registry : SchemaRegistry) {d : GrpcMethodDefinition}
    (hd : d ∈ extractMethodsFromPkgDefs pkgDefs)
    (hpath : ∀ e ∈ extractMethodsFromPkgDefs pkgDefs, e.path = d.path → e = d) :
    (initializeSchemas metadata pkgDefs registry).get d.path =
      some (registeredMethod metadata d) := by
  have hfold : ∀ (methods : List GrpcMethodDefinition) (registry : SchemaRegistry),
      (∀ e ∈ methods, e.path = d.path → e = d) →
      (d ∈ methods ∨ registry.get d.path = some (registeredMethod metadata d)) →
      (methods.foldl (fun registry method => registry.register (registeredMethod metadata method))
        registry).get d.path = some (registeredMethod metadata d) := by
    intro methods
    induction methods with
    | nil => exact fun _ _ h => h.resolve_left List.not_mem_nil
    | cons e methods ih =>
      intro registry hp h
      refine ih _ (fun e' he' => hp e' (List.mem_cons_of_mem _ he')) ?_
      by_cases he : e.path = d.path
      · obtain rfl := hp e (List.mem_cons_self ..) he
        exact .inr (Map.get_set_self ..)
      · refine h.imp (fun hm => ?_) fun hg => ?_
        · exact (List.mem_cons.1 hm).resolve_left fun h' => he (congrArg _ h'.symm)
        · exact (Map.get_set_of_ne _ _ (Ne.symm he)).trans hg
  exact hfold _ registry hpath (.inl hd)

/-- Under the name of a type without its package the lookup meets this type, or another that has
the same schema under that name. -/
def MeetsOwn (metadata : ProtoMetadata) (tree : RootTree) (t : ProtoType) : Prop :=
  ∃ u, tree.lookup t.name = some (.type u) ∧
    typeToSchema metadata.root metadata.comments t.name u = schemaOf metadata t

theorem type?_eq_some {o : RootObject} {t : ProtoType} : o.type? = some t ↔ o = .type t := by
  cases o with
  | type u => simp [RootObject.type?]
  | plain | enum | service | member => simp [RootObject.type?]

/-- A message type that a lookup meets is one of the tree. -/
theorem slot_of_lookup (ht : tree.Proper) {n : JsString} {t : ProtoType}
    (h : (tree.lookup n).bind RootObject.type? = some t) :
    ∃ p, tree.slot p = .taken (.type t) := by
  obtain ⟨o, ho, hot⟩ := Option.bind_eq_some_iff.1 h
  obtain rfl := type?_eq_some.1 hot
  obtain ⟨found, hfound, hdata⟩ := Option.map_eq_some_iff.1 ho
  rcases ht.taken_of_search _ hfound with hs | ⟨d, x, hown⟩
  · rwa [hdata] at hs
  · rw [hdata] at hown
    split_ifs at hown
    cases hown

/-- A type's schema is generated for its name without the package just where the lookup meets it or
another with this schema. -/
theorem generateSchema_own_iff {metadata : ProtoMetadata} (hr : metadata.root.Has tree)
    (hp : PlainNames metadata.root) {t : ProtoType} (ht : t ∈ metadata.root.types) :
    generateSchema metadata.root metadata.comments t.name = schemaOf metadata t ↔
      MeetsOwn metadata tree t := by
  obtain ⟨hne, hdot⟩ := hp t ht
  rw [generateSchema_name metadata.comments hr hne hdot]
  have hnone : (⟨[], none, none, [], none⟩ : JsonSchema) ≠ schemaOf metadata t := fun h =>
    absurd (congrArg JsonSchema.protoSource h) nofun
  rcases hu : tree.lookup t.name with _ | o
  · exact ⟨fun h => absurd h hnone, fun ⟨u, hm, _⟩ => by simp [hu] at hm⟩
  · rcases ho : o.type? with _ | u
    · rw [Option.bind_some, ho]
      refine ⟨fun h => absurd h hnone, fun ⟨u, hm, _⟩ => ?_⟩
      rw [hu, Option.some.injEq] at hm
      simp [hm, RootObject.type?] at ho
    · rw [Option.bind_some, ho]
      obtain rfl := type?_eq_some.1 ho
      simp [MeetsOwn, hu]

/-- The schemas registered for a method are those of its own types exactly where the lookups of
their unqualified names meet these types, or others with the same schemas. -/
theorem registered_own_iff (metadata : ProtoMetadata) (hr : metadata.root.Has tree)
    (hp : PlainNames metadata.root) (pkgDefs : List DefinitionEntry) (registry : SchemaRegistry)
    (m : LoadedMethod metadata.root) (hm : m.definition ∈ extractMethodsFromPkgDefs pkgDefs)
    (hpath : ∀ e ∈ extractMethodsFromPkgDefs pkgDefs,
      e.path = m.definition.path → e = m.definition) :
    (∃ r, (initializeSchemas metadata pkgDefs registry).get m.definition.path = some r ∧
      r.requestSchema = schemaOf metadata m.input ∧
      r.responseSchema = schemaOf metadata m.output) ↔
      MeetsOwn metadata tree m.input ∧ MeetsOwn metadata tree m.output := by
  rw [initializeSchemas_get metadata registry hm hpath]
  simp only [Option.some_inj, exists_eq_left']
  refine and_congr ?_ ?_
  · rw [registeredMethod, m.requestType]
    exact generateSchema_own_iff hr hp m.input_mem
  · rw [registeredMethod, m.responseType]
    exact generateSchema_own_iff hr hp m.output_mem

/-- A request of package `a` with a field. -/
def aReq : ProtoType :=
  .mk (js "Req") (js ".a.Req") (Map.empty.set (js "id") ⟨js "string", 1, none, false, none, none⟩) [] []

/-- A request of package `b` without fields. -/
def bReq : ProtoType := .mk (js "Req") (js ".b.Req") Map.empty [] []

/-- The packages with their requests, `a` before `b`. -/
def reqTree : RootTree :=
  .mk [] .plain
    [.mk (js "a") .plain [.mk (js "Req") (.type aReq) [], .mk (js "S") (.service [js "Get"]) []],
    .mk (js "b") .plain [.mk (js "Req") (.type bReq) [], .mk (js "S") (.service [js "Get"]) []]]

theorem reqTree_types {t : ProtoType} :
    t ∈ [aReq, bReq] ↔ ∃ p, reqTree.slot p = .taken (.type t) := by
  constructor
  · intro h
    simp only [List.mem_cons, List.not_mem_nil, or_false] at h
    rcases h with rfl | rfl
    · exact ⟨[js "a", js "Req"], rfl⟩
    · exact ⟨[js "b", js "Req"], rfl⟩
  · rintro ⟨p, hp⟩
    have hmem := NameTree.mem_paths hp
    have hpaths : reqTree.paths = [[], [js "a"], [js "a", js "Req"], [js "a", js "S"], [js "b"],
      [js "b", js "Req"], [js "b", js "S"]] := rfl
    rw [hpaths] at hmem
    simp only [List.mem_cons, List.not_mem_nil, or_false] at hmem
    rcases hmem with rfl | rfl | rfl | rfl | rfl | rfl | rfl
    · cases hp
    · cases hp
    · cases hp
      exact List.mem_cons_self
    · cases hp
    · cases hp
    · cases hp
      exact List.mem_cons_of_mem _ List.mem_cons_self
    · cases hp

/-- The root of the two requests. -/
def reqRoot : ProtoRoot where
  types := [aReq, bReq]
  enums := []
  lookupType n := (reqTree.lookup n).bind RootObject.type?
  lookupEnum _ := none
  nestedInType _ := false
  lookupType_mem h := reqTree_types.2 (slot_of_lookup (by decide) h)

theorem reqRoot_has : reqRoot.Has reqTree where
  types _ := reqTree_types
  lookupType _ _ _ := rfl

theorem reqRoot_plainNames : PlainNames reqRoot := by
  intro t ht
  rcases List.mem_cons.1 ht with rfl | ht
  · exact ⟨by decide, by decide⟩
  · rw [List.mem_singleton.1 ht]
    exact ⟨by decide, by decide⟩

def reqMethod (path : String) : GrpcMethodDefinition :=
  ⟨js path, some (js "Req"), some (js "Req"), none, none, none⟩

/-- The methods of services of the two packages, each with its own request. -/
def reqPkgDefs : List DefinitionEntry :=
  [.methods [reqMethod "/a.S/Get"], .methods [reqMethod "/b.S/Get"]]

theorem reqPkgDefs_paths (d : GrpcMethodDefinition)
    (hd : d ∈ extractMethodsFromPkgDefs reqPkgDefs) :
    ∀ e ∈ extractMethodsFromPkgDefs reqPkgDefs, e.path = d.path → e = d := by
  have hlist : extractMethodsFromPkgDefs reqPkgDefs = [reqMethod "/a.S/Get", reqMethod "/b.S/Get"] :=
    rfl
  have hne : (reqMethod "/a.S/Get").path ≠ (reqMethod "/b.S/Get").path := by decide
  rw [hlist] at hd ⊢
  simp only [List.mem_cons, List.not_mem_nil, or_false] at hd ⊢
  rintro e (rfl | rfl) he <;> rcases hd with rfl | rfl
  · rfl
  · exact absurd he hne
  · exact absurd he.symm hne
  · rfl

/-- A method of the two packages with its own request. -/
def reqLoaded (t : ProtoType) (ht : t ∈ reqRoot.types) (path : String) (hn : t.name = js "Req") :
    LoadedMethod reqRoot where
  definition := reqMethod path
  input := t
  output := t
  input_mem := ht
  output_mem := ht
  requestType := by rw [hn]; rfl
  responseType := by rw [hn]; rfl

theorem reqMethod_mem : reqMethod "/a.S/Get" ∈ extractMethodsFromPkgDefs reqPkgDefs ∧
    reqMethod "/b.S/Get" ∈ extractMethodsFromPkgDefs reqPkgDefs := by
  simp [extractMethodsFromPkgDefs, reqPkgDefs]

/-- The lookup of the name without its package meets the request of package `b`. -/
theorem reqTree_lookup : reqTree.lookup (js "Req") = some (.type bReq) := rfl

theorem registered_own_iff_b : ∃ r,
    (initializeSchemas (metadataOf reqRoot) reqPkgDefs Map.empty).get (js "/b.S/Get") = some r ∧
      r.requestSchema = schemaOf (metadataOf reqRoot) bReq ∧
      r.responseSchema = schemaOf (metadataOf reqRoot) bReq :=
  (registered_own_iff (metadataOf reqRoot) reqRoot_has reqRoot_plainNames reqPkgDefs Map.empty
    (reqLoaded bReq (by simp [reqRoot]) "/b.S/Get" rfl) reqMethod_mem.2
    (reqPkgDefs_paths _ reqMethod_mem.2)).2
    ⟨⟨bReq, reqTree_lookup, rfl⟩, ⟨bReq, reqTree_lookup, rfl⟩⟩

/-- The method of package `a` is registered with the request of package `b`. -/
theorem not_registered_own : reqRoot.Has reqTree ∧ PlainNames reqRoot ∧ aReq ∈ reqRoot.types ∧
    ∃ r, (initializeSchemas (metadataOf reqRoot) reqPkgDefs Map.empty).get (js "/a.S/Get")
        = some r ∧
      r.requestSchema.properties = [] ∧ aReq.fields.keys = [js "id"] ∧
      r.requestSchema ≠ schemaOf (metadataOf reqRoot) aReq := by
  have hget := initializeSchemas_get (metadataOf reqRoot) Map.empty reqMethod_mem.1
    (reqPkgDefs_paths _ reqMethod_mem.1)
  refine ⟨reqRoot_has, reqRoot_plainNames, by simp [reqRoot], _, hget, rfl, rfl, fun h => ?_⟩
  have hnames := congrArg (fun s : JsonSchema => s.properties.map Prod.fst) h
  exact absurd hnames (by decide)

end DiiaApp
