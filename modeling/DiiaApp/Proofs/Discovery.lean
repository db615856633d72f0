import DiiaApp.Discovery
import DiiaApp.Proofs.SchemaMerge
import DiiaApp.Proofs.ServiceMethods

/-!
# What a client discovers

The actions that a client finds are the methods of the protos that a configured service provides,
each once: under its own path, with its own schemas, what is written of that very method, and the
name and the session types of the action that it was provided with last (`discovered_actions`).
-/

namespace Js.Map

variable {κ ν : Type*} [DecidableEq κ]

/-- Where things of different keys set their values, if any, each finds its own. -/
theorem get_foldl_own {α : Type*} (key : α → κ) (own : α → Option ν) : ∀ {as : List α},
    (as.map key).Nodup → ∀ (m : Map κ ν) (k : κ),
      (as.foldl (fun m a => (own a).elim m (m.set (key a))) m).get k
        = ((as.find? (key · = k)).bind own).or (m.get k)
  | [], _, m, k => rfl
  | a :: as, hnd, m, k => by
    rw [List.map_cons, List.nodup_cons] at hnd
    rw [List.foldl_cons, get_foldl_own key own hnd.2]
    by_cases hk : key a = k
    · have hnone : as.find? (key · = k) = none := by
        rw [List.find?_eq_none]
        exact fun b hb he => hnd.1 (List.mem_map.2 ⟨b, hb, (of_decide_eq_true he).trans hk.symm⟩)
      rw [hnone, List.find?_cons_of_pos (by simpa using hk)]
      rcases ho : own a with _ | v
      · simp [ho]
      · simp [ho, hk]
    · rw [List.find?_cons_of_neg (by simpa using hk)]
      rcases own a with _ | v
      · rfl
      · rw [Option.elim_some, get_set_of_ne m v (Ne.symm hk)]

theorem find?_values {f : ν → κ} {m : Map κ ν} (h : ∀ k v, m.get k = some v → f v = k)
    (q : ν → Bool) (k : κ) : (m.values.filter q).find? (f · = k) = (m.get k).filter q := by
  rcases hg : (m.values.filter q).find? (f · = k) with _ | v
  · rw [List.find?_eq_none] at hg
    rcases hk : m.get k with _ | v
    · rfl
    · by_cases hq : q v = true
      · have hv : v ∈ m.values.filter q :=
          List.mem_filter.2 ⟨mem_values.2 ⟨k, hk⟩, hq⟩
        exact absurd (decide_eq_true (h k v hk)) (hg v hv)
      · rw [Option.filter_some, if_neg hq]
  · obtain ⟨hv, hq⟩ := List.mem_filter.1 (List.mem_of_find?_eq_some hg)
    obtain ⟨k', hk'⟩ := mem_values.1 hv
    obtain rfl : k' = k := (h k' v hk').symm.trans (by simpa using List.find?_some hg)
    rw [hk', Option.filter_some, if_pos hq]

theorem values_map_nodup {f : ν → κ} {m : Map κ ν} (h : ∀ k v, m.get k = some v → f v = k) :
    (m.values.map f).Nodup := by
  rw [values, List.map_map, List.map_congr_left (g := Prod.fst)]
  · exact m.nodup
  · exact fun e he => h e.1 e.2 (mem_entries.1 he)

end Js.Map

namespace DiiaApp

open Js

variable {N ι : Type}

/-! ## The path of a service -/

/-- The object at a path in one. -/
def objectAt (o : GrpcObject) (path : List JsString) : Option GrpcObject :=
  path.foldlM NameTree.child o

/-- A lookup starts again from the root after each part that it does not find. -/
theorem lookUpPath_eq_some {serviceProto : GrpcObject} {path : List JsString} {o : GrpcObject} :
    lookUpPath serviceProto path = some o ↔ ∃ lost found, path = lost ++ found ∧ found ≠ [] ∧
      lookUpPath serviceProto lost = none ∧ objectAt serviceProto found = some o := by
  have hsnoc (path : List JsString) (part : JsString) : lookUpPath serviceProto (path ++ [part])
      = ((lookUpPath serviceProto path).getD serviceProto).child part := by
    rw [lookUpPath, List.foldl_append]
    rfl
  have hat (path : List JsString) (part : JsString) : objectAt serviceProto (path ++ [part])
      = (objectAt serviceProto path).bind (·.child part) := by
    rw [objectAt, List.foldlM_append]
    simp [objectAt]
  induction path using List.reverseRecOn generalizing o with
  | nil =>
    refine iff_of_false nofun ?_
    rintro ⟨lost, found, he, hne, -⟩
    exact hne (List.append_eq_nil_iff.1 he.symm).2
  | append_singleton path part ih =>
    rw [hsnoc]
    constructor
    · intro h
      rcases hl : lookUpPath serviceProto path with _ | o'
      · rw [hl] at h
        exact ⟨path, [part], rfl, List.cons_ne_nil _ _, hl, (hat [] part).trans h⟩
      · rw [hl] at h
        obtain ⟨lost, found, rfl, -, hlost, hfound⟩ := ih.1 hl
        refine ⟨lost, found ++ [part], List.append_assoc .., by simp, hlost, ?_⟩
        rw [hat, hfound]
        exact h
    · rintro ⟨lost, found, he, hne, hlost, hfound⟩
      rcases found.eq_nil_or_concat with rfl | ⟨found, last, rfl⟩
      · exact absurd rfl hne
      rw [List.concat_eq_append, ← List.append_assoc] at he
      obtain ⟨rfl, hpart⟩ := List.append_inj' he rfl
      obtain rfl := List.singleton_inj.1 hpart
      rw [List.concat_eq_append, hat] at hfound
      obtain ⟨o', ho', hchild⟩ := Option.bind_eq_some_iff.1 hfound
      rcases found with _ | ⟨x, found⟩
      · obtain rfl := Option.some.inj ho'
        rw [List.append_nil, hlost]
        exact hchild
      · rw [ih.2 ⟨lost, x :: found, rfl, List.cons_ne_nil _ _, hlost, ho'⟩]
        exact hchild

def RegisteredMethod.withAction (actionName sessionType : JsString) (m : RegisteredMethod) :
    RegisteredMethod :=
  { m with actionName := some actionName, sessionType := some sessionType }

theorem get_setActionInfo (registry : SchemaRegistry) (path actionName sessionType P : JsString) :
    (registry.setActionInfo path actionName sessionType).get P
      = if P = path then (registry.get P).map (·.withAction actionName sessionType)
        else registry.get P := by
  unfold SchemaRegistry.setActionInfo
  split_ifs with hP
  · subst hP
    rcases h : registry.get P with _ | m
    · exact h
    · exact Map.get_set_self _ _ _
  · rcases registry.get path with _ | m
    · rfl
    · exact Map.get_set_of_ne _ _ hP

namespace AppActions

variable (a : AppActions ι) (sessionType : ι → SessionTypes)

/-- The last of the actions of a name. -/
def lastAction (name : JsString) : Option ι := (a.actionList.filter (a.name · = name)).getLast?

theorem name_lastAction {name : JsString} {i : ι} (h : a.lastAction name = some i) :
    a.name i = name :=
  of_decide_eq_true (List.mem_filter.1 (List.mem_of_getLast? h)).2

theorem get_tellActions (name path : JsString) (registry : SchemaRegistry) (P : JsString) :
    (a.tellActions sessionType name path registry).get P
      = if P = path then (registry.get P).map fun m =>
          (a.lastAction name).elim m fun i => m.withAction name (sessionTypeText (sessionType i))
        else registry.get P := by
  have htell : ∀ is : List ι, (is.foldl (fun registry i => SchemaRegistry.setActionInfo registry
      path (a.name i) (sessionTypeText (sessionType i))) registry).get P
        = if P = path then (registry.get P).map fun m => is.getLast?.elim m fun i =>
            m.withAction (a.name i) (sessionTypeText (sessionType i))
          else registry.get P := by
    intro is
    induction is using List.reverseRecOn with
    | nil => simp
    | append_singleton is i ih =>
      rw [List.foldl_append, List.foldl_cons, List.foldl_nil, get_setActionInfo, ih]
      split_ifs
      · rw [Option.map_map]
        refine congrArg (Option.map · _) (funext fun m => ?_)
        rw [List.getLast?_concat]
        cases is.getLast? <;> rfl
      · rfl
  rw [tellActions, htell]
  refine congrArg (ite _ · _) (congrArg (Option.map · _) (funext fun m => ?_))
  show (a.lastAction name).elim m _ = _
  rcases h : a.lastAction name with _ | i
  · rfl
  · rw [Option.elim_some, Option.elim_some, a.name_lastAction h]

/-- The name of the last method that is provided for a path. -/
def lastName (bound : List (JsString × JsString)) (P : JsString) : Option JsString :=
  ((bound.filter (·.2 = P)).getLast?).map Prod.fst

/-- What the registry has been told of a method. -/
def informed (bound : List (JsString × JsString)) (P : JsString) (m : RegisteredMethod) :
    RegisteredMethod :=
  (lastName bound P).elim m fun name =>
    (a.lastAction name).elim m fun i => m.withAction name (sessionTypeText (sessionType i))

theorem informed_snoc (bound : List (JsString × JsString)) (name path P : JsString)
    (m : RegisteredMethod) (hname : (a.lastAction name).isSome) :
    a.informed sessionType (bound ++ [(name, path)]) P m
      = if P = path then (a.lastAction name).elim (a.informed sessionType bound P m) fun i =>
          (a.informed sessionType bound P m).withAction name (sessionTypeText (sessionType i))
        else a.informed sessionType bound P m := by
  obtain ⟨i, hi⟩ := Option.isSome_iff_exists.1 hname
  split_ifs with hP
  · subst hP
    have hlast : lastName (bound ++ [(name, P)]) P = some name := by
      simp [lastName, List.filter_append]
    rw [informed, hlast, Option.elim_some, hi, Option.elim_some, Option.elim_some, informed]
    rcases lastName bound P with _ | name'
    · rfl
    · rw [Option.elim_some]
      cases a.lastAction name' <;> rfl
  · have hlast : lastName (bound ++ [(name, path)]) P = lastName bound P := by
      simp [lastName, List.filter_append, Ne.symm hP]
    rw [informed, hlast, informed]

theorem lastAction_isSome {name : JsString} {actions : Js.Map ActionVersion ι}
    (h : a.actionsOf (N := N) name = .ok actions) : (a.lastAction name).isSome := by
  rcases hl : a.lastAction name with _ | i
  · rw [lastAction, List.getLast?_eq_none_iff, List.filter_eq_nil_iff] at hl
    have hnone : ((a.actionList.map fun i => (a.name i, i)).filter fun action =>
        action.1 = name) = [] := by
      rw [List.filter_eq_nil_iff]
      rintro action hmem
      obtain ⟨i, hi, rfl⟩ := List.mem_map.1 hmem
      exact hl i hi
    rw [actionsOf, provideAppActions, hnone] at h
    cases h
  · rfl

variable [DecidableEq ι]

/-- What is provided, and what the registry has been told since it was `registry`. -/
structure Tells (N : Type) (registry : SchemaRegistry) (bound : List (JsString × JsString))
    (started : Started ι) : Prop where
  provides : a.Provides N bound started.provided
  get : ∀ P, started.registry.get P = (registry.get P).map (a.informed sessionType bound P)

variable {a sessionType} {registry : SchemaRegistry} {bound : List (JsString × JsString)}
  {started started' : Started ι}

theorem Tells.step {method : MethodDefinition} (h : a.Tells sessionType N registry bound started)
    (hs : a.startMethod (N := N) sessionType started method = .ok started') :
    a.Tells sessionType N registry (bound ++ method.bound.toList) started' := by
  rw [startMethod] at hs
  rcases hp : a.provideMethod (N := N) started.provided method with err | provided
  · rw [hp] at hs
    cases hs
  rw [hp] at hs
  obtain rfl := Except.ok.inj hs
  refine ⟨h.provides.step hp, fun P => ?_⟩
  rcases hb : method.bound with _ | ⟨name, path⟩
  · obtain ⟨originalName, path, _, _⟩ := method
    rw [Option.toList_none, List.append_nil]
    cases originalName <;> cases path <;> cases hb <;> exact h.get P
  obtain ⟨-, actions, ha, -⟩ := provideMethod_bound hb hp
  have hsome := a.lastAction_isSome ha
  obtain ⟨originalName, path', _, _⟩ := method
  cases originalName <;> cases path' <;> cases hb
  show (a.tellActions sessionType name path started.registry).get P = _
  rw [get_tellActions, h.get, Option.toList_some]
  split_ifs with hP
  · rw [Option.map_map]
    refine congrArg (Option.map · _) (funext fun m => ?_)
    rw [a.informed_snoc sessionType bound name path P m hsome, if_pos hP]
    rfl
  · refine congrArg (Option.map · _) (funext fun m => ?_)
    rw [a.informed_snoc sessionType bound name path P m hsome, if_neg hP]

theorem Tells.run {methods : List MethodDefinition} : ∀ {bound : List (JsString × JsString)}
    {started started' : Started ι}, a.Tells sessionType N registry bound started →
    methods.foldlM (a.startMethod (N := N) sessionType) started = .ok started' →
    a.Tells sessionType N registry (bound ++ methods.filterMap MethodDefinition.bound)
      started' := by
  induction methods with
  | nil =>
    intro bound started started' h hs
    rw [← Except.ok.inj hs, List.filterMap_nil, List.append_nil]
    exact h
  | cons method methods ih =>
    intro bound started started' h hs
    rw [List.foldlM_cons] at hs
    obtain ⟨next, hn, hs⟩ := bind_eq_ok.1 hs
    have hr := ih (h.step hn) hs
    rw [List.append_assoc] at hr
    rcases hb : method.bound with _ | b
    · rw [hb] at hr
      rw [List.filterMap_cons_none hb]
      exact hr
    · rw [hb] at hr
      rw [List.filterMap_cons_some hb]
      exact hr

/-- A start finds a definition for each service and provides them all in turn. -/
theorem startServices_ok {serviceProto : GrpcObject} : ∀ {services : List JsString}
    {started started' : Started ι},
    a.startServices (N := N) sessionType serviceProto services started = .ok started' →
    ∃ definitions : List (List MethodDefinition),
      services.map (findService (N := N) serviceProto) = definitions.map .ok ∧
      definitions.flatten.foldlM (a.startMethod (N := N) sessionType) started = .ok started'
  | [], started, started', h => ⟨[], rfl, h⟩
  | service :: services, started, started', h => by
    rw [startServices, List.foldlM_cons] at h
    obtain ⟨next, hn, h⟩ := bind_eq_ok.1 h
    obtain ⟨definition, hd, hn⟩ := bind_eq_ok.1 hn
    obtain ⟨definitions, hds, hrun⟩ := startServices_ok h
    refine ⟨definition :: definitions, by rw [List.map_cons, List.map_cons, hd, hds], ?_⟩
    rw [List.flatten_cons, List.foldlM_append]
    exact bind_eq_ok.2 ⟨next, hn, hrun⟩

theorem tells_startServices {serviceProto : GrpcObject} {services : List JsString}
    {grpcMethods : ι → Option JsString}
    (h : a.startServices (N := N) sessionType serviceProto services
      ⟨⟨grpcMethods, []⟩, registry⟩ = .ok started) :
    ∃ definitions : List (List MethodDefinition),
      services.map (findService (N := N) serviceProto) = definitions.map .ok ∧
      a.Tells sessionType N registry (boundMethods definitions) started := by
  obtain ⟨definitions, hds, hrun⟩ := startServices_ok h
  have h0 : a.Tells sessionType N registry [] ⟨⟨grpcMethods, []⟩, registry⟩ :=
    ⟨⟨by simp, by simp, by simp⟩, fun P => by rw [show a.informed sessionType [] P = id from rfl,
      Option.map_id, id]⟩
  exact ⟨definitions, hds, h0.run hrun⟩

end AppActions

/-! ## What is registered -/

variable {root : ProtoRoot} {comments : Comments} {nested : List NamespaceObject}

theorem get_methodDescriptions (h : ((extractMethods nested).map MethodMetadata.fullPath).Nodup)
    (P : JsString) : (protoMetadata root comments nested).methodDescriptions.get P
      = ((extractMethods nested).find? (·.fullPath = P)).bind MethodMetadata.description := by
  have hset : setDescription = fun descriptions method =>
      method.description.elim descriptions (descriptions.set method.fullPath) := by
    funext descriptions method
    unfold setDescription
    cases method.description <;> rfl
  have hget := Map.get_foldl_own MethodMetadata.fullPath MethodMetadata.description h Map.empty P
  rw [Map.get_empty, Option.or_none] at hget
  show ((extractMethods nested).foldl setDescription .empty).get P = _
  rw [hset]
  exact hget

theorem get_methodDeprecations (h : ((extractMethods nested).map MethodMetadata.fullPath).Nodup)
    (P : JsString) : ((protoMetadata root comments nested).methodDeprecations.get P).getD false
      = ((extractMethods nested).find? (·.fullPath = P)).any MethodMetadata.deprecated := by
  have hset : setDeprecation = fun deprecations method =>
      (if method.deprecated then some true else none : Option Bool).elim deprecations
        (deprecations.set method.fullPath) := by
    funext deprecations method
    unfold setDeprecation
    split_ifs <;> rfl
  have hget := Map.get_foldl_own MethodMetadata.fullPath
    (fun method => if method.deprecated then some true else none) h Map.empty P
  rw [Map.get_empty, Option.or_none] at hget
  show (((extractMethods nested).foldl setDeprecation .empty).get P).getD false = _
  rw [hset]
  have hany (found : Option MethodMetadata) : (found.bind fun method =>
      if method.deprecated then some true else none).getD false
        = found.any MethodMetadata.deprecated := by
    rcases found with _ | ⟨_, _, deprecated⟩
    · rfl
    · cases deprecated <;> rfl
  exact (congrArg (Option.getD · false) hget).trans (hany _)

/-- The last method of a path. -/
def lastDefinition (pkgDefs : List DefinitionEntry) (P : JsString) : Option GrpcMethodDefinition :=
  ((extractMethodsFromPkgDefs pkgDefs).filter (·.path = P)).getLast?

theorem path_lastDefinition {pkgDefs : List DefinitionEntry} {P : JsString}
    {method : GrpcMethodDefinition} (h : lastDefinition pkgDefs P = some method) :
    method.path = P :=
  of_decide_eq_true (List.mem_filter.1 (List.mem_of_getLast? h)).2

theorem get_initializeSchemas (metadata : ProtoMetadata) (pkgDefs : List DefinitionEntry)
    (P : JsString) : (initializeSchemas metadata pkgDefs .empty).get P
      = (lastDefinition pkgDefs P).map (registeredMethod metadata) := by
  have h := Map.get_foldl_put GrpcMethodDefinition.path (registeredMethod metadata)
    (extractMethodsFromPkgDefs pkgDefs) Map.empty P
  rw [Map.get_empty, Option.or_none] at h
  exact h

/-! ## What is discovered -/

theorem fetchedSchema_actions [JsNumber N] (serviceName version : JsString)
    (registry : SchemaRegistry) : (fetchedSchema N serviceName version registry).actions
      = (registry.values.filter RegisteredMethod.hasAction).map fun m =>
          transformAction (actionOf N m).decoded := by
  show List.map _ (List.map _ (List.map _ _)) = _
  rw [List.map_map, List.map_map]
  rfl

section Expected

variable (N) [JsNumber N] (root comments nested) (pkgDefs : List DefinitionEntry)
  (a : AppActions ι) (sessionType : ι → SessionTypes)

/-- The action that is to be found for a method that is provided with the action `i` of the name. -/
def describedAction (method : GrpcMethodDefinition) (name : JsString) (i : ι) :
    DiscoveredAction N :=
  let documented := (extractMethods nested).find? (·.fullPath = method.path)
  { name := name
    grpcMethod := method.path
    sessionType := sessionTypeText (sessionType i)
    requestSchema := (generateSchema root comments (method.requestType.getD [])).toJson
    responseSchema := (generateSchema root comments (method.responseType.getD [])).toJson
    requestTypeName := some (method.requestType.getD [])
    responseTypeName := some (method.responseType.getD [])
    httpMapping := method.httpMapping
    description := some ((documented.bind MethodMetadata.description).getD [])
    deprecated := some (documented.any MethodMetadata.deprecated)
    requestStream := some (method.requestStream.getD false)
    responseStream := some (method.responseStream.getD false) }

/-- The action to be found under a path, where the protos have a method of the path and one is
provided for it. -/
def expectedAction (bound : List (JsString × JsString)) (P : JsString) :
    Option (DiscoveredAction N) := do
  let method ← lastDefinition pkgDefs P
  let name ← AppActions.lastName bound P
  let i ← a.lastAction name
  return describedAction N root comments nested sessionType method name i

end Expected

theorem transformAction_informed [JsNumber N]
    (h : ((extractMethods nested).map MethodMetadata.fullPath).Nodup)
    (sessionType : ι → SessionTypes) (method : GrpcMethodDefinition) (name : JsString) (i : ι) :
    transformAction (actionOf N ((registeredMethod (protoMetadata root comments nested)
        method).withAction name (sessionTypeText (sessionType i)))).decoded
      = describedAction N root comments nested sessionType method name i := by
  have hjson (type : JsString) : parseJsonSafe
      (generateSchema root comments type).toJson.print
        = ((generateSchema root comments type).toJson : Json N) :=
    parseJsonSafe_print (JsonSchema.toJson_wellFormed (generateSchema_wellFormed type))
  unfold transformAction ActionSchemaDto.decoded actionOf RegisteredMethod.withAction
    registeredMethod describedAction
  dsimp only [Option.getD_some]
  rw [get_methodDescriptions h, get_methodDeprecations h]
  congr 1
  · exact hjson _
  · exact hjson _

theorem mem_of_lastName {bound : List (JsString × JsString)} {P name : JsString}
    (h : AppActions.lastName bound P = some name) : (name, P) ∈ bound := by
  obtain ⟨⟨name', P'⟩, hb, rfl⟩ := Option.map_eq_some_iff.1 h
  obtain ⟨hm, hP⟩ := List.mem_filter.1 (List.mem_of_getLast? hb)
  obtain rfl : P' = P := of_decide_eq_true hP
  exact hm

theorem informed_grpcMethod (a : AppActions ι) (sessionType : ι → SessionTypes)
    (bound : List (JsString × JsString)) (P : JsString) (m : RegisteredMethod) :
    (a.informed sessionType bound P m).grpcMethod = m.grpcMethod := by
  unfold AppActions.informed
  rcases AppActions.lastName bound P with _ | name
  · rfl
  · rw [Option.elim_some]
    cases a.lastAction name <;> rfl

variable [DecidableEq ι] {a : AppActions ι} {sessionType : ι → SessionTypes}

omit [DecidableEq ι] in
theorem expectedAction_eq_some [JsNumber N] {pkgDefs : List DefinitionEntry}
    {bound : List (JsString × JsString)} {P : JsString} {action : DiscoveredAction N}
    (h : expectedAction N root comments nested pkgDefs a sessionType bound P = some action) :
    action.grpcMethod = P ∧ (action.name, P) ∈ bound := by
  obtain ⟨method, hmethod, h⟩ := Option.bind_eq_some_iff.1 h
  obtain ⟨name, hname, h⟩ := Option.bind_eq_some_iff.1 h
  obtain ⟨i, -, h⟩ := Option.bind_eq_some_iff.1 h
  obtain rfl := Option.some.inj h
  exact ⟨path_lastDefinition hmethod, mem_of_lastName hname⟩

/-- What a client finds under a path is the method of the path as the protos and the services have
it, and it finds nothing twice. A call to the path comes to actions of the name that it finds. -/
theorem discovered_actions [JsNumber N] {pkgDefs : List DefinitionEntry}
    (hpaths : ((extractMethods nested).map MethodMetadata.fullPath).Nodup)
    {serviceProto : GrpcObject} {services : List JsString} {grpcMethods : ι → Option JsString}
    {started : Started ι}
    (h : a.startServices (N := N) sessionType serviceProto services
      ⟨⟨grpcMethods, []⟩, initializeSchemas (protoMetadata root comments nested) pkgDefs .empty⟩
        = .ok started) (serviceName version : JsString) :
    ∃ definitions : List (List MethodDefinition),
      services.map (findService (N := N) serviceProto) = definitions.map .ok ∧
      ((fetchedSchema N serviceName version started.registry).actions.map (·.grpcMethod)).Nodup ∧
      ∀ P, (fetchedSchema N serviceName version started.registry).actions.find? (·.grpcMethod = P)
        = expectedAction N root comments nested pkgDefs a sessionType (boundMethods definitions) P ∧
          ∀ action, expectedAction N root comments nested pkgDefs a sessionType
              (boundMethods definitions) P = some action →
            ∃ actions, (P, actions) ∈ started.provided.implementations ∧
              ∀ v i, actions.get v = some i → i ∈ a.actionList ∧ a.name i = action.name := by
  obtain ⟨definitions, hds, htells⟩ := AppActions.tells_startServices h
  have hget := htells.get
  simp only [get_initializeSchemas, Option.map_map] at hget
  have hkey : ∀ P m, started.registry.get P = some m → m.grpcMethod = P := by
    intro P m hm
    rw [hget] at hm
    obtain ⟨method, hmethod, rfl⟩ := Option.map_eq_some_iff.1 hm
    rw [Function.comp_apply, informed_grpcMethod]
    exact path_lastDefinition hmethod
  refine ⟨definitions, hds, ?_, fun P => ⟨?_, fun action hexp => ?_⟩⟩
  · rw [fetchedSchema_actions, List.map_map]
    exact ((List.filter_sublist).map RegisteredMethod.grpcMethod).nodup (Map.values_map_nodup hkey)
  · rw [fetchedSchema_actions, List.find?_map]
    have hfind := Map.find?_values hkey RegisteredMethod.hasAction P
    refine (congrArg (Option.map _) hfind).trans ?_
    rw [hget, expectedAction]
    rcases lastDefinition pkgDefs P with _ | method
    · rfl
    rw [Option.map_some, Function.comp_apply, AppActions.informed]
    rcases hname : AppActions.lastName (boundMethods definitions) P with _ | name
    · rfl
    · obtain ⟨hne, actions, hactions⟩ := htells.provides.named name P (mem_of_lastName hname)
      obtain ⟨i, hi⟩ := Option.isSome_iff_exists.1 (a.lastAction_isSome hactions)
      have hhas : ((registeredMethod (protoMetadata root comments nested) method).withAction name
          (sessionTypeText (sessionType i))).hasAction = true := by
        simp [RegisteredMethod.hasAction, RegisteredMethod.withAction, hne]
      rw [Option.elim_some, hi, Option.elim_some, Option.filter_some, if_pos hhas,
        Option.map_some, transformAction_informed hpaths]
      simp [hi]
  · have hbound := (expectedAction_eq_some hexp).2
    obtain ⟨-, actions, hactions⟩ := htells.provides.named action.name P hbound
    refine ⟨actions, (htells.provides.implementations P actions).2 ⟨_, hbound, hactions⟩, ?_⟩
    intro v i hi
    obtain ⟨hmem, hname, -⟩ := AppActions.mem_actionsOf hactions hi
    exact ⟨hmem, hname⟩

/-- A package with the service `S` of one method, `get`. -/
def oneService : GrpcObject :=
  .mk [] .namespace [.mk (js "p") .namespace
    [.mk (js "S") (.service [AppActions.getMethod (js "/p.S/get")]) []]]

/-- `@deprecated use find` stands above the method. -/
def documentedService : List NamespaceObject :=
  [.mk ⟨js "p", by decide⟩ .namespace [.mk ⟨js "S", by decide⟩
    (.service [⟨⟨js "get", by decide⟩, some (js "@deprecated use find"), false⟩]) []]]

theorem discovered_actions_one : ∃ started,
    AppActions.getAction.startServices (N := ℤ) (fun _ => .inl (js "None")) oneService [js "p.S"]
      ⟨⟨fun _ => none, []⟩, initializeSchemas (protoMetadata twoFoos noComments documentedService)
        [echo "/p.S/get" "First"] .empty⟩ = .ok started ∧
    ((fetchedSchema ℤ (js "service") (js "v1") started.registry).actions.map (·.grpcMethod)).Nodup ∧
    ∃ action, (fetchedSchema ℤ (js "service") (js "v1") started.registry).actions.find?
        (·.grpcMethod = js "/p.S/get") = some action ∧
      action.name = js "get" ∧ action.description = some (js "@deprecated use find") ∧
      action.deprecated = some true := by
  have h : AppActions.getAction.startServices (N := ℤ) (fun _ => .inl (js "None")) oneService
      [js "p.S"] ⟨⟨fun _ => none, []⟩, initializeSchemas
        (protoMetadata twoFoos noComments documentedService) [echo "/p.S/get" "First"] .empty⟩
      = .ok _ := rfl
  obtain ⟨definitions, hds, hnd, hfind⟩ :=
    discovered_actions (by decide) h (js "service") (js "v1")
  have hone : definitions = [[AppActions.getMethod (js "/p.S/get")]] := by
    rw [show [js "p.S"].map (findService (N := ℤ) oneService)
      = [[AppActions.getMethod (js "/p.S/get")]].map .ok from rfl] at hds
    exact List.map_injective_iff.2 (fun _ _ => Except.ok.inj) hds.symm
  subst hone
  exact ⟨_, h, hnd, _, (hfind _).1.trans rfl, by decide, by decide, by decide⟩

end DiiaApp
