import DiiaApp.TypeParser

/-!
# The parser as a descent

Each function of the parser calls `parseType` on types in turn, does something with each result
before the next call, and makes a schema of all in the end: it runs a plan, and `parseType` is the
descent along these plans (`parseType_eq_eval`).
-/

namespace DiiaApp

open Js Descent LiteralNumber TypeFlags

variable {τ N : Type} [LiteralNumber N]

/-- A plan of the parser. A piece is an assignment, or a schema without a name. -/
abbrev TypePlan (τ N : Type) := Plan τ (Node N) (JsString × Node N) ParserError

abbrev TypeStep (τ N : Type) := Step τ (Node N) (JsString × Node N) ParserError

namespace TypeParser

variable (F : Factory) (G : TsGraph τ N)

/-- What is done with the schema of a property. -/
def assignProperty (property : TsProperty τ) (parsed : Node N) :
    Except ParserError (JsString × Node N) := do
  let parsed ← addMetadataToProperty F property parsed
  F.createPropertyAssignment (quotedName property.name) parsed

def propertyStep (property : TsProperty τ) : TypeStep τ N :=
  match parsedType property with
  | some t => .call t (assignProperty F property)
  | none => .done ([], .undefined)

def assignStep (name : JsString) (t : τ) : TypeStep τ N :=
  .call t (F.createPropertyAssignment name)

/-- A schema taken as it is. -/
def plainStep (t : τ) : TypeStep τ N := .call t fun schema => .ok ([], schema)

def memberStep (t : τ) : TypeStep τ N :=
  if isBooleanLiteral G t then .done ([], typeSchema (js "boolean"))
  else .call t fun mappedType => (titled G t mappedType).map fun schema => ([], schema)

def leafPlan (x : Except ParserError (Node N)) : TypePlan τ N := ⟨[], fun _ => x⟩

/-- One assignment behind the type `object` or `array`. -/
def assignPlan (type : String) (step : TypeStep τ N) : TypePlan τ N :=
  ⟨[step], fun pieces => .ok (.objectLiteral ((js "type", text type) :: pieces))⟩

def interfacePlan (type : TsType τ N) : TypePlan τ N :=
  ⟨(listedProperties type).map (propertyStep F), fun pieces => .ok (interfaceSchema type pieces)⟩

def arrayPlan (type : TsType τ N) : TypePlan τ N :=
  match type.typeArguments with
  | some [] => leafPlan (.error .readOfUndefined)
  | some (t :: _) => assignPlan "array" (assignStep F (js "items") t)
  | none => leafPlan (.ok (.objectLiteral [(js "type", text "array")]))

def tuplePlan (type : TsType τ N) : TypePlan τ N :=
  match type.typeArguments with
  | some ts => ⟨ts.zipIdx.map fun e => assignStep F (decimal e.2) e.1,
      fun pieces => .ok (tupleSchema ts.length pieces)⟩
  | none => arrayPlan F type

def recordPlan (type : TsType τ N) : TypePlan τ N :=
  match recordValueType type with
  | some t => assignPlan "object" (.call t (describeKeys type))
  | none => leafPlan (.error .readOfUndefined)

def severalPlan (types : List τ) : TypePlan τ N :=
  if types ≠ [] ∧ types.all (isLiteral G) then
    leafPlan ((types.mapM (literalNode F G)).map enumSchema)
  else if types ≠ [] ∧ types.all (isNamed G) then
    leafPlan (.ok (.objectLiteral [(js "type", .arrayLiteral (types.map (intrinsicNode G)))]))
  else ⟨types.map (memberStep G), fun pieces =>
    (F.createArrayLiteralExpression (pieces.map Prod.snd)).map fun anyOf =>
      .objectLiteral [(js "anyOf", anyOf)]⟩

/-- A schema that is passed on. -/
def passPlan (t : τ) : TypePlan τ N :=
  ⟨[plainStep t], fun pieces => .ok ((pieces.map Prod.snd).headD .undefined)⟩

def unionPlan (type : TsType τ N) : TypePlan τ N :=
  match unionTypes G type with
  | [t] =>
    if isBooleanLiteral G t then leafPlan (.ok (typeSchema (js "boolean"))) else passPlan t
  | types => severalPlan F G types

def intersectionPlan (type : TsType τ N) : TypePlan τ N :=
  ⟨type.types.map plainStep, fun pieces =>
    (mergeSchemas (pieces.map Prod.snd)).map Merge.toNode⟩

def objectPlan (type : TsType τ N) : TypePlan τ N :=
  if type.isArrayType then arrayPlan F type
  else if type.isTupleType then tuplePlan F type
  else
    match namedSchema type with
    | some schema => leafPlan (.ok schema)
    | none =>
      match type.numberIndex <|> type.stringIndex with
      | some t => assignPlan "object" (assignStep F (js "additionalProperties") t)
      | none =>
        match externalSchema type with
        | .error err => leafPlan (.error err)
        | .ok (some external) => leafPlan (.ok external)
        | .ok none => if isRecordWithManyKeys G type then recordPlan type else interfacePlan F type

def planOf (type : TsType τ N) : TypePlan τ N :=
  if isNull type.flags then leafPlan (.ok .undefined)
  else if isPrimitive type.flags then leafPlan (parsePrimitive F type)
  else if type.flags = {.object} then objectPlan F G type
  else if type.flags = {.union} then unionPlan F G type
  else if type.flags = {.intersection} then intersectionPlan type
  else if meets type.flags enumLike then leafPlan (parseEnum F G type)
  else leafPlan (.ok (.objectLiteral []))

variable {F G} {parse : τ → Parsed (Node N)}

theorem lift_bind {α β : Type} (x : Except ParserError α) (f : α → Except ParserError β) :
    lift (x >>= f) = lift x >>= fun a => lift (f a) := by
  rcases x with err | a <;> rfl

theorem lift_map {α β : Type} (x : Except ParserError α) (f : α → β) :
    lift (x.map f) = f <$> lift x := by
  rcases x with err | a <;> rfl

omit [LiteralNumber N] in
theorem leafPlan_run (x : Except ParserError (Node N)) :
    (leafPlan x : TypePlan τ N).run parse = lift x := rfl

omit [LiteralNumber N] in
theorem mapM_run {α : Type} {step : α → TypeStep τ N} {f : α → Parsed (JsString × Node N)} :
    ∀ {xs : List α}, (∀ a ∈ xs, (step a).run parse = f a) →
      (xs.map step).mapM (Step.run parse) = xs.mapM f
  | [], _ => rfl
  | a :: xs, h => by
    rw [List.forall_mem_cons] at h
    rw [List.map_cons, List.mapM_cons, List.mapM_cons, h.1, mapM_run h.2]

omit [LiteralNumber N] in
/-- Steps that take schemas without a name. -/
theorem mapM_run_plain {α : Type} {step : α → TypeStep τ N} {f : α → Parsed (Node N)} :
    ∀ {xs : List α}, (∀ a ∈ xs, (step a).run parse = (fun schema => ([], schema)) <$> f a) →
      List.map Prod.snd <$> (xs.map step).mapM (Step.run parse) = xs.mapM f
  | [], _ => rfl
  | a :: xs, h => by
    rw [List.forall_mem_cons] at h
    rw [List.map_cons, List.mapM_cons, List.mapM_cons, h.1, ← mapM_run_plain h.2]
    simp [functor_norm]

omit [LiteralNumber N] in
theorem assignPlan_run (type : String) (step : TypeStep τ N) :
    (assignPlan type step).run parse
      = step.run parse >>= fun a => pure (.objectLiteral [(js "type", text type), a]) := by
  simp only [assignPlan, Plan.run, List.mapM_cons, List.mapM_nil, bind_assoc, pure_bind]
  rfl

omit [LiteralNumber N] in
theorem assignStep_run (name : JsString) (t : τ) : (assignStep F name t).run parse
    = parse t >>= fun parsed => lift (F.createPropertyAssignment name parsed) := rfl

omit [LiteralNumber N] in
/-- A property that is listed has a declaration or a type. -/
theorem parsedType_of_listed {type : TsType τ N} {property : TsProperty τ}
    (hp : property ∈ listedProperties type) : ∃ t, parsedType property = some t := by
  simp only [listedProperties, List.mem_filter] at hp
  rcases hd : property.declarations with _ | ds <;>
    simp [parsedType, firstDeclaration, hd] at hp ⊢
  exact Option.isSome_iff_exists.1 hp.2

theorem interfacePlan_run (type : TsType τ N) :
    (interfacePlan F type).run parse = parseInterface F parse type := by
  have hstep : ∀ property ∈ listedProperties type,
      (propertyStep F property).run parse = parseProperty F parse property := by
    intro property hp
    obtain ⟨t, ht⟩ := parsedType_of_listed hp
    simp [propertyStep, parseProperty, parseOrThrow, ht, Step.run, assignProperty, lift_bind]
  rw [interfacePlan, Plan.run, mapM_run hstep]
  rfl

omit [LiteralNumber N] in
theorem arrayPlan_run (type : TsType τ N) :
    (arrayPlan F type).run parse = parseArray F parse type := by
  rcases ht : type.typeArguments with _ | _ | ⟨t, ts⟩
  · simp only [arrayPlan, parseArray, ht, leafPlan_run]
    rfl
  · simp only [arrayPlan, parseArray, ht, leafPlan_run]
    rfl
  · simp only [arrayPlan, parseArray, ht, assignPlan_run, assignStep_run, bind_assoc]
    rfl

theorem tuplePlan_run (type : TsType τ N) :
    (tuplePlan F type).run parse = parseTuple F parse type := by
  rcases ht : type.typeArguments with _ | ts
  · simp only [tuplePlan, parseTuple, ht, arrayPlan_run]
  · have hstep : ∀ e ∈ ts.zipIdx, (assignStep F (decimal e.2) e.1).run parse
        = parseElement F parse e := fun _ _ => rfl
    simp only [tuplePlan, parseTuple, ht, Plan.run, mapM_run hstep]
    rfl

omit [LiteralNumber N] in
theorem recordPlan_run (type : TsType τ N) :
    (recordPlan type).run parse = parseLongRecord parse type := by
  rcases ht : recordValueType type with _ | t
  · simp only [recordPlan, parseLongRecord, ht, leafPlan_run]
    rfl
  · simp only [recordPlan, parseLongRecord, ht, assignPlan_run, Step.run, parseOrThrow, bind_assoc]

omit [LiteralNumber N] in
theorem memberStep_run (t : τ) : (memberStep G t).run parse
    = (fun schema => ([], schema)) <$> parseMember G parse t := by
  unfold memberStep parseMember
  split_ifs
  · rfl
  · simp only [Step.run, lift_map, map_bind]

omit [LiteralNumber N] in
theorem plainStep_run (t : τ) :
    (plainStep t : TypeStep τ N).run parse = (fun schema => ([], schema)) <$> parse t := by
  rw [plainStep, Step.run, map_eq_pure_bind]
  rfl

omit [LiteralNumber N] in
theorem passPlan_run (t : τ) : (passPlan t : TypePlan τ N).run parse = parse t := by
  simp only [passPlan, Plan.run, List.mapM_cons, List.mapM_nil, plainStep_run, bind_map_left,
    bind_assoc, pure_bind]
  exact bind_pure _

omit [LiteralNumber N] in
theorem intersectionPlan_run (type : TsType τ N) :
    (intersectionPlan type).run parse = parseIntersection parse type := by
  rw [intersectionPlan, Plan.run, parseIntersection,
    ← mapM_run_plain fun t _ => plainStep_run t, bind_map_left]

theorem severalPlan_run (types : List τ) :
    (severalPlan F G types).run parse = parseSeveral F G parse types := by
  unfold severalPlan parseSeveral
  split_ifs
  · rfl
  · rfl
  · rw [Plan.run, ← mapM_run_plain fun t _ => memberStep_run t, bind_map_left]
    simp only [lift_map, map_eq_pure_bind]

theorem unionPlan_run (type : TsType τ N) :
    (unionPlan F G type).run parse = parseUnion F G parse type := by
  rcases hu : unionTypes G type with _ | ⟨t, _ | ⟨u, us⟩⟩ <;> simp only [unionPlan, parseUnion, hu]
  · exact severalPlan_run []
  · split_ifs
    · rfl
    · exact passPlan_run t
  · exact severalPlan_run (t :: u :: us)

theorem objectPlan_run (type : TsType τ N) :
    (objectPlan F G type).run parse = parseObjectType F G parse type := by
  unfold objectPlan parseObjectType
  split_ifs
  · exact arrayPlan_run type
  · exact tuplePlan_run type
  all_goals
    rcases namedSchema type with _ | schema
    · rcases type.numberIndex <|> type.stringIndex with _ | t
      · rcases externalSchema type with err | _ | external
        · rfl
        · first
            | exact recordPlan_run type
            | exact interfacePlan_run type
        · rfl
      · simp only [assignPlan_run, assignStep_run, bind_assoc]
        rfl
    · rfl

theorem planOf_run (type : TsType τ N) :
    (planOf F G type).run parse = parseTypeWith F G parse type := by
  unfold planOf parseTypeWith
  split_ifs
  · rfl
  · rfl
  · exact objectPlan_run type
  · exact unionPlan_run type
  · exact intersectionPlan_run type
  · rfl
  · rfl

/-- `parseType` is the descent along the plans. -/
theorem parseType_eq_eval : ∀ (n : ℕ) (t : τ),
    parseType F G n t = eval (fun t => planOf F G (G t)) n t
  | 0, _ => rfl
  | n + 1, t => by
    rw [parseType, eval, ← planOf_run, funext (parseType_eq_eval n)]

end TypeParser

end DiiaApp
