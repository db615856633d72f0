import DiiaApp.Proofs.TypeCycles

/-!
# Schemas without `undefined`

A type of no values has no schema, and the parser hands on what it has of it: the factory of the
compiler refuses it, and reading an entry of it throws. A type is parsed as a whole schema just
where parsing it comes to no such type in the place of a schema (`parseType_isSchema`).
-/

namespace DiiaApp

open Js Descent LiteralNumber TypeFlags

variable {τ N : Type} [LiteralNumber N]

/-- The factory, where it refuses `undefined`. -/
def Factory.strict (F : Factory) : Factory := { F with acceptsUndefined := false }

namespace TypeParser

variable {F : Factory} {G : TsGraph τ N}

omit [LiteralNumber N] in
theorem strict_refuses {p : Prop} (h : F.strict.acceptsUndefined = true) : p := nomatch h

omit [LiteralNumber N] in
theorem createPropertyAssignment_admits (name : JsString) (node : Node N) :
    Admits (F.strict.createPropertyAssignment name node)
      (F.createPropertyAssignment name node) := by
  intro x hx
  obtain ⟨rfl, h⟩ := createPropertyAssignment_eq_ok.1 hx
  exact createPropertyAssignment_eq_ok.2 ⟨rfl, fun hn => strict_refuses (h hn)⟩

omit [LiteralNumber N] in
theorem assignPlan_admits (type : String) {step step' : TypeStep τ N} (h : step.Admits step') :
    (assignPlan type step).Admits (assignPlan type step') :=
  ⟨.cons h .nil, fun _ _ h => h⟩

omit [LiteralNumber N] in
theorem assignStep_admits (name : JsString) (t : τ) :
    (assignStep F.strict name t : TypeStep τ N).Admits (assignStep F name t) :=
  .call fun node => createPropertyAssignment_admits name node

theorem propertyStep_admits (property : TsProperty τ) :
    (propertyStep F.strict property : TypeStep τ N).Admits (propertyStep F property) := by
  unfold propertyStep
  split
  · exact .call fun node => Admits.bind (fun _ h => h)
      fun parsed => createPropertyAssignment_admits _ parsed
  · exact .refl _

omit [LiteralNumber N] in
theorem map_admits {α : Type} {step step' : α → TypeStep τ N} (h : ∀ a, (step a).Admits (step' a))
    (xs : List α) : List.Forall₂ Step.Admits (xs.map step) (xs.map step') := by
  rw [List.forall₂_map_left_iff, List.forall₂_map_right_iff]
  exact List.forall₂_same.2 fun a _ => h a

omit [LiteralNumber N] in
theorem arrayPlan_admits (type : TsType τ N) :
    (arrayPlan F.strict type).Admits (arrayPlan F type) := by
  unfold arrayPlan
  split
  · exact .refl _
  · exact assignPlan_admits _ (assignStep_admits _ _)
  · exact .refl _

theorem tuplePlan_admits (type : TsType τ N) :
    (tuplePlan F.strict type).Admits (tuplePlan F type) := by
  unfold tuplePlan
  split
  · exact ⟨map_admits (fun e => assignStep_admits _ _) _, fun _ _ h => h⟩
  · exact arrayPlan_admits type

theorem objectPlan_admits (type : TsType τ N) :
    (objectPlan F.strict G type).Admits (objectPlan F G type) := by
  unfold objectPlan
  split_ifs
  · exact arrayPlan_admits type
  · exact tuplePlan_admits type
  all_goals
    split
    · exact .refl _
    · split
      · exact assignPlan_admits _ (assignStep_admits _ _)
      · split
        · exact .refl _
        · exact .refl _
        · first
            | exact .refl _
            | exact ⟨map_admits propertyStep_admits _, fun _ _ h => h⟩

theorem severalPlan_admits (types : List τ) :
    (severalPlan F.strict G types).Admits (severalPlan F G types) := by
  unfold severalPlan
  split_ifs
  · exact .refl _
  · exact .refl _
  · refine ⟨map_admits (fun _ => .refl _) _, fun pieces x hx => ?_⟩
    obtain ⟨anyOf, hany, rfl⟩ := map_eq_ok.1 hx
    obtain ⟨rfl, h⟩ := createArrayLiteralExpression_eq_ok.1 hany
    exact map_eq_ok.2 ⟨_, createArrayLiteralExpression_eq_ok.2
      ⟨rfl, fun node hnode hn => strict_refuses (h node hnode hn)⟩, rfl⟩

theorem planOf_admits (type : TsType τ N) :
    (planOf F.strict G type).Admits (planOf F G type) := by
  unfold planOf
  split_ifs
  · exact .refl _
  · exact .refl _
  · exact objectPlan_admits type
  · unfold unionPlan
    split
    · exact .refl _
    · exact severalPlan_admits _
  · exact .refl _
  · exact .refl _
  · exact .refl _

variable (F G)

/-- Parsing the type returns a schema, with one in each place for a schema within it. -/
def HasSchema (t : τ) : Prop := ∃ n node, parseType F G n t = .ok node ∧ IsSchema node

/-- The type has values, and parsing it comes to nothing that goes wrong: where a schema goes there
is no type without values, and what is read off a schema is not read off `undefined`. -/
def IsWhole (t : τ) : Prop := ¬ NullLike G t ∧ Descent.Clean (outline F.strict G) t

theorem parseType_isSchema (t : τ) :
    (IsWhole F G t → HasSchema F G t) ∧
      (F.acceptsUndefined = false → HasSchema F G t → IsWhole F G t) := by
  constructor
  · rintro ⟨hn, hclean⟩
    obtain ⟨n, node, hnode⟩ := hclean.returns outlines
    have hgives := (eval_clean outlines hnode).1
    refine ⟨n, node, ?_, hgives.isSchema rfl fun hl => absurd hl hn⟩
    rw [parseType_eq_eval]
    exact eval_admits (fun u => planOf_admits (G u)) n t node hnode
  · rintro hF ⟨n, node, hnode, hschema⟩
    have hstrict : F = F.strict := by
      cases F
      subst hF
      rfl
    rw [hstrict, parseType_eq_eval] at hnode
    obtain ⟨hgives, hclean⟩ := eval_clean outlines hnode
    refine ⟨fun hl => ?_, hclean⟩
    rw [hgives.eq_undefined_iff.2 hl] at hschema
    cases hschema

theorem parseType_isSchema_nameGraph :
    HasSchema ⟨false, false⟩ nameGraph true ∧ IsWhole ⟨false, false⟩ nameGraph true := by
  have hname : IsProperty (typeSchema (js "string") : Node ℤ) :=
    IsSchema.isProperty (.intro (List.forall_mem_singleton.2 (.type _)))
  have hschema : HasSchema ⟨false, false⟩ nameGraph true := by
    refine ⟨2, .objectLiteral [
      (js "required", .arrayLiteral [.stringLiteral (.string (js "name"))]),
      (js "type", text "object"),
      (js "properties", .objectLiteral [(quotedName (js "name"), typeSchema (js "string"))])],
      rfl, .intro ?_⟩
    simp only [List.forall_mem_cons, List.not_mem_nil, false_imp_iff, implies_true, and_true]
    exact ⟨.literals (by decide) (List.forall_mem_singleton.2 (.stringLiteral _)), .type _,
      .properties (List.forall_mem_singleton.2 hname)⟩
  exact ⟨hschema, (parseType_isSchema _ _ true).2 rfl hschema⟩

/-- `interface Item { /** none */ note: null }` -/
def noteGraph : TsGraph Bool ℤ
  | true => interfaceType "Item"
      [{ plainProperty "note" false with documentationComment := [js "none"] }]
  | false => { bareType {.null} with typeString := js "null" }

/-- A description is added to the schema of `null`, which is `undefined`. -/
theorem parseType_noteGraph : ¬ HasSchema ⟨false, false⟩ noteGraph true := by
  rintro ⟨_ | _ | n, node, hnode, -⟩
  · cases hnode
  · cases hnode
  · have hthrown : parseType ⟨false, false⟩ noteGraph (n + 2) true
        = .error (.thrown .readOfUndefined) := rfl
    rw [hthrown] at hnode
    cases hnode

end TypeParser

end DiiaApp
