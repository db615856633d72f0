import DiiaApp.Proofs.TypeOutline

/-!
# The outline of a type

The outline of a type is one of its plan (`outlines`): the plan makes the calls of the outline, each
goes through where the outline says so, and the schema in the end is one of the type. One lemma
tells it of each kind of type.
-/

namespace DiiaApp

open Js Descent LiteralNumber TypeFlags

section Folds

variable {ε α β : Type} {f : β → α → Except ε β}

theorem succeeds_foldlM {P : α → Prop} (h : ∀ b a, Succeeds (f b a) ↔ P a) :
    ∀ {xs : List α} {b : β}, Succeeds (xs.foldlM f b) ↔ ∀ a ∈ xs, P a
  | [], b => by simp [pure, Except.pure]
  | a :: xs, b => by
    rw [List.foldlM_cons, succeeds_bind, List.forall_mem_cons, ← h b a]
    constructor
    · exact fun ⟨c, hc, hs⟩ => ⟨⟨c, hc⟩, (succeeds_foldlM h).1 hs⟩
    · exact fun ⟨⟨c, hc⟩, hs⟩ => ⟨c, hc, (succeeds_foldlM h).2 hs⟩

theorem foldlM_inv {I : β → Prop} : ∀ {xs : List α} {b c : β},
    (∀ a ∈ xs, ∀ b c, I b → f b a = .ok c → I c) → I b → xs.foldlM f b = .ok c → I c
  | [], b, c, _, hb, hc => Except.ok.inj hc ▸ hb
  | a :: xs, b, c, h, hb, hc => by
    rw [List.forall_mem_cons] at h
    rw [List.foldlM_cons] at hc
    obtain ⟨d, hd, hc⟩ := bind_eq_ok.1 hc
    exact foldlM_inv h.2 (h.1 b d hb hd) hc

end Folds

variable {τ N : Type}

/-! ## Entries -/

theorem IsEntry.type (value : LiteralValue N) : IsEntry (js "type", .stringLiteral value) :=
  .literal (by decide) (.stringLiteral value)

theorem IsSchema.isProperty {node : Node N} (h : IsSchema node) : IsProperty node := by
  cases h with
  | intro h => exact @IsProperty.intro N [] _ (by simp) h

theorem IsSchema.entries {entries : List (JsString × Node N)}
    (h : IsSchema (.objectLiteral entries)) : ∀ p ∈ entries, IsEntry p := by
  cases h
  assumption

namespace TypeParser

/-! ## Merging -/

theorem succeeds_mergeProperty (m : Merge N) (p : JsString × Node N) :
    Succeeds (mergeProperty m p) ↔
      (escapedText p.1 ∈ mergedNames → ∃ props, p.2 = .objectLiteral props) := by
  unfold mergeProperty
  simp only
  split_ifs with h
  · rw [succeeds_map]
    simp only [h, true_imp_iff, ← propertiesOf_eq_ok]
    rfl
  · simp [h]

theorem succeeds_mergeSchema (m : Merge N) (schema : Node N) :
    Succeeds (mergeSchema m schema) ↔ ∃ ps, schema = .objectLiteral ps ∧ Mergeable ps := by
  rw [mergeSchema, succeeds_bind]
  simp only [propertiesOf_eq_ok, succeeds_foldlM succeeds_mergeProperty]
  rfl

theorem succeeds_mergeSchemas {types : List (Node N)} : Succeeds (mergeSchemas types) ↔
    ∀ schema ∈ types, ∃ ps, schema = .objectLiteral ps ∧ Mergeable ps := by
  rw [mergeSchemas, succeeds_foldlM succeeds_mergeSchema]
  simp only [List.mem_reverse]

/-- What is gathered stands where it belongs. -/
structure Merge.IsWhole (m : Merge N) : Prop where
  combined : ∀ p ∈ m.combinedProperties, IsProperty p.2
  additional : ∀ p ∈ m.additionalProperties, IsEntry p

theorem mergeEntry_isWhole {identifier : JsString} {m : Merge N} {p : JsString × Node N}
    (hm : m.IsWhole) (hp : if identifier = js "properties" then IsProperty p.2 else IsEntry p) :
    (mergeEntry identifier m p).IsWhole := by
  unfold mergeEntry
  simp only
  by_cases hi : identifier = js "properties" <;> simp only [hi, if_true, if_false] at hp ⊢
  · split_ifs
    · exact ⟨hm.combined, hm.additional⟩
    · refine ⟨?_, hm.additional⟩
      simp only [List.forall_mem_append, List.forall_mem_singleton]
      exact ⟨hm.combined, hp⟩
  · split_ifs
    · exact ⟨hm.combined, hm.additional⟩
    · refine ⟨hm.combined, ?_⟩
      simp only [List.forall_mem_append, List.forall_mem_singleton]
      exact ⟨hm.additional, hp⟩

theorem foldl_mergeEntry_isWhole {identifier : JsString} :
    ∀ {props : List (JsString × Node N)} {m : Merge N},
      (∀ p ∈ props, if identifier = js "properties" then IsProperty p.2 else IsEntry p) →
      m.IsWhole → (props.foldl (mergeEntry identifier) m).IsWhole
  | [], _, _, hm => hm
  | p :: props, m, hp, hm => by
    rw [List.forall_mem_cons] at hp
    rw [List.foldl_cons]
    exact foldl_mergeEntry_isWhole hp.2 (mergeEntry_isWhole hm hp.1)

theorem mergeProperty_isWhole {m m' : Merge N} {p : JsString × Node N} (hp : IsEntry p)
    (hm : m.IsWhole) (h : mergeProperty m p = .ok m') : m'.IsWhole := by
  unfold mergeProperty at h
  simp only at h
  split_ifs at h with hname
  · obtain ⟨props, hprops, rfl⟩ := map_eq_ok.1 h
    rw [propertiesOf_eq_ok] at hprops
    cases hp with
    | properties hs =>
      cases hprops
      have hid : escapedText (js "properties") = js "properties" := by decide
      refine foldl_mergeEntry_isWhole (fun p hp => ?_) hm
      rw [if_pos hid]
      exact hs p hp
    | items =>
      have hid : escapedText (js "items") ∉ mergedNames := by decide
      exact absurd hname hid
    | additionalProperties hs =>
      cases hprops
      have hid : escapedText (js "additionalProperties") ≠ js "properties" := by decide
      refine foldl_mergeEntry_isWhole (fun p hp => ?_) hm
      rw [if_neg hid]
      exact hs.entries p hp
    | anyOf => cases hprops
    | literal _ hl =>
      cases hprops
      cases hl
    | literals => cases hprops
  · exact Except.ok.inj h ▸ hm

theorem mergeSchemas_isWhole {types : List (Node N)} {m : Merge N}
    (ht : ∀ schema ∈ types, IsSchema schema) (h : mergeSchemas types = .ok m) : m.IsWhole := by
  refine foldlM_inv (I := Merge.IsWhole) (fun schema hs m m' hm hm' => ?_)
    ⟨by simp [Merge.empty], by simp [Merge.empty]⟩ h
  obtain ⟨ps, hps, hm'⟩ := bind_eq_ok.1 hm'
  rw [propertiesOf_eq_ok] at hps
  have hcs := (hps ▸ ht schema (List.mem_reverse.1 hs)).entries
  exact foldlM_inv (I := Merge.IsWhole)
    (fun p hp m m' hm hm' => mergeProperty_isWhole (hcs p hp) hm hm') hm hm'

theorem toNode_isEntry {m : Merge N} (hm : m.IsWhole) {ps : List (JsString × Node N)}
    (hps : m.toNode = .objectLiteral ps) : ∀ p ∈ ps, IsEntry p := by
  cases hps
  intro p hp
  simp only [List.mem_append, List.mem_cons, List.not_mem_nil, or_false] at hp
  rcases hp with (rfl | rfl | rfl) | hp
  · refine .literals (by decide) fun e he => ?_
    obtain ⟨r, -, rfl⟩ := List.mem_map.1 he
    exact .stringLiteral _
  · exact .type _
  · exact .properties hm.combined
  · split_ifs at hp
    · obtain rfl := List.mem_singleton.1 hp
      exact .additionalProperties (.intro hm.additional)
    · exact absurd hp List.not_mem_nil

/-- Names under which a merge looks for no object literal. -/
def unmergedNames : List JsString :=
  [js "type", js "enum", js "required", js "items", js "anyOf", js "format", js "description",
    js "minItems", js "maxItems"]

theorem not_merged : ∀ name ∈ unmergedNames, escapedText name ∉ mergedNames := by decide

theorem mergeable_of_unmerged {ps : List (JsString × Node N)}
    (h : ∀ p ∈ ps, p.1 ∈ unmergedNames ∨ ∃ props, p.2 = .objectLiteral props) : Mergeable ps :=
  fun p hp hname => (h p hp).resolve_left fun hplain => not_merged _ hplain hname

theorem toNode_mergeable (m : Merge N) :
    ∃ ps, m.toNode = .objectLiteral ps ∧ Mergeable ps := by
  refine ⟨_, rfl, mergeable_of_unmerged fun p hp => ?_⟩
  simp only [List.mem_append, List.mem_cons, List.not_mem_nil, or_false] at hp
  rcases hp with (rfl | rfl | rfl) | hp
  · exact .inl (by simp [unmergedNames])
  · exact .inl (by simp [unmergedNames])
  · exact .inr ⟨_, rfl⟩
  · split_ifs at hp
    · obtain rfl := List.mem_singleton.1 hp
      exact .inr ⟨_, rfl⟩
    · exact absurd hp List.not_mem_nil

/-! ## Which types have no schema -/

variable [LiteralNumber N] {F : Factory} {G : TsGraph τ N}

omit [LiteralNumber N] in
theorem nullLike_iff {t : τ} (h : ¬ isNull (G t).flags) : NullLike G t ↔
    (G t).flags = {.union} ∧ ∃ u, unionTypes G (G t) = [u] ∧ ¬ isBooleanLiteral G u ∧
      NullLike G u := by
  constructor
  · rintro (hn | ⟨ht, hu, hb, hl⟩)
    · exact absurd hn h
    · exact ⟨ht, _, hu, hb, hl⟩
  · rintro ⟨ht, u, hu, hb, hl⟩
    exact .union ht hu hb hl

omit [LiteralNumber N] in
theorem not_nullLike {t : τ} (h : ¬ isNull (G t).flags) (hu : (G t).flags ≠ {.union}) :
    ¬ NullLike G t := fun hl => hu ((nullLike_iff h).1 hl).1

omit [LiteralNumber N] in
theorem not_nullIndexed {t : τ} (hu : (G t).flags ≠ {.union})
    (h : ∀ v, ¬ IndexedBy (G t) v) : ¬ NullIndexed G t := by
  rintro (⟨hv, -⟩ | ⟨ht, -⟩)
  · exact h _ hv
  · exact hu ht

omit [LiteralNumber N] in
/-- The schema of a type that is not parsed by an index. -/
theorem Gives.plain {t : τ} {ps : List (JsString × Node N)} (h : ¬ NullLike G t)
    (hi : ¬ NullIndexed G t) (hm : Mergeable ps)
    (hc : F.acceptsUndefined = false → ∀ p ∈ ps, IsEntry p) :
    Gives F G t (.objectLiteral ps) := .objectLiteral h (iff_of_true hm hi) hc

omit [LiteralNumber N] in
theorem Gives.eq_undefined_iff {t : τ} {node : Node N} (h : Gives F G t node) :
    node = .undefined ↔ NullLike G t := by
  cases h with
  | undefined h => simp [h]
  | objectLiteral h => simp [h]

omit [LiteralNumber N] in
/-- Where the factory refuses `undefined` it gets only schemas. -/
theorem Gives.isSchema {t : τ} {node : Node N} (h : Gives F G t node)
    (hF : F.acceptsUndefined = false) (ht : Takes F G t) : IsSchema node := by
  cases h with
  | undefined h => simp [ht h] at hF
  | objectLiteral _ _ hc => exact .intro (hc hF)

/-! ## The outline of each kind -/

omit [LiteralNumber N] in
theorem Gives.typeSchema {t : τ} (h : ¬ NullLike G t) (hi : ¬ NullIndexed G t)
    (typeString : JsString) : Gives F G t (typeSchema typeString) :=
  .plain h hi (mergeable_of_unmerged (by simp [unmergedNames])) fun _ => by
    simpa using IsEntry.type _

omit [LiteralNumber N] in
theorem Gives.enumSchema {t : τ} (h : ¬ NullLike G t) (hi : ¬ NullIndexed G t)
    {values : List (Node N)} (hv : ∀ v ∈ values, v.IsLiteral) :
    Gives F G t (enumSchema values) := by
  refine .plain h hi (mergeable_of_unmerged (by simp [unmergedNames])) fun _ => ?_
  simpa using ⟨IsEntry.type _, IsEntry.literals (by decide) hv⟩

omit [LiteralNumber N] in
theorem outlineOf_leaf {x : Except ParserError (Node N)} {closes : Prop} {Result : Node N → Prop}
    (hc : Succeeds x ↔ closes) (hr : ∀ r, x = .ok r → Result r) :
    OutlineOf (Gives F G) (leafPlan x) (leafOutline closes) Result :=
  ⟨.nil, fun _ _ => hc, fun _ r _ h => hr r h⟩

omit [LiteralNumber N] in
theorem outlineOf_leaf_ok {r : Node N} {Result : Node N → Prop} (hr : Result r) :
    OutlineOf (Gives F G) (leafPlan (.ok r)) (leafOutline True) Result :=
  outlineOf_leaf (by simp) fun _ h => Except.ok.inj h ▸ hr

omit [LiteralNumber N] in
theorem outlineOf_leaf_error {err : ParserError} {Result : Node N → Prop} :
    OutlineOf (Gives F G) (leafPlan (.error err)) (leafOutline False) Result :=
  outlineOf_leaf (by simp) fun _ h => nomatch h

omit [LiteralNumber N] in
/-- The factory takes the schema just where it takes the type. -/
theorem exists_assignment_iff {name : JsString} {t : τ} {node : Node N} (h : Gives F G t node) :
    (∃ x, F.createPropertyAssignment name node = .ok x) ↔ Takes F G t := by
  simp only [createPropertyAssignment_eq_ok, exists_and_right, exists_eq', true_and, Takes,
    h.eq_undefined_iff]

omit [LiteralNumber N] in
theorem assignment_isSchema {name : JsString} {t : τ} {node : Node N} {x : JsString × Node N}
    (h : Gives F G t node) (hx : F.createPropertyAssignment name node = .ok x)
    (hF : F.acceptsUndefined = false) : x.1 = name ∧ IsSchema x.2 := by
  obtain ⟨rfl, htakes⟩ := createPropertyAssignment_eq_ok.1 hx
  exact ⟨rfl, h.isSchema hF fun hn => htakes (h.eq_undefined_iff.2 hn)⟩

theorem primitive_outline {t : τ} (h : ¬ NullLike G t) (hi : ¬ NullIndexed G t) :
    OutlineOf (Gives F G) (leafPlan (parsePrimitive F (G t))) (leafOutline (PrimitiveGoes F (G t)))
      (Gives F G t) := by
  have hnamed : (G t).value.isNone ∧ (G t).intrinsicName.isSome → PrimitiveGoes F (G t) :=
    fun hv _ hnone => by simp [hnone hv.1] at hv
  unfold parsePrimitive
  split_ifs with hl hv hn htext
  · refine outlineOf_leaf (iff_of_true (succeeds_ok _) (hnamed hv)) fun r hr => ?_
    exact Except.ok.inj hr ▸ .enumSchema h hi (by simpa using Node.IsLiteral.true)
  · refine outlineOf_leaf (iff_of_true (succeeds_ok _) (hnamed hv)) fun r hr => ?_
    exact Except.ok.inj hr ▸ .enumSchema h hi (by simpa using Node.IsLiteral.false)
  · refine outlineOf_leaf ?_ fun r hr => ?_
    · rw [succeeds_map, succeeds_createLiteral, PrimitiveGoes]
      simp_all
    · obtain ⟨l, hl, rfl⟩ := map_eq_ok.1 hr
      exact .enumSchema h hi (by simpa using createLiteral_isLiteral hl)
  · refine outlineOf_leaf (by simp [PrimitiveGoes, hl]) fun r hr => ?_
    exact Except.ok.inj hr ▸ .typeSchema h hi _
  · refine outlineOf_leaf (by simp [PrimitiveGoes, hl]) fun r hr => ?_
    exact Except.ok.inj hr ▸ .typeSchema h hi _

theorem enum_outline {t : τ} (h : ¬ NullLike G t) (hi : ¬ NullIndexed G t) :
    OutlineOf (Gives F G) (leafPlan (parseEnum F G (G t)))
      (leafOutline (∀ u ∈ (G t).types, TakesLiteral F (valueOf (G u)))) (Gives F G t) := by
  refine outlineOf_leaf ?_ fun r hr => ?_
  · simp only [parseEnum, succeeds_map, succeeds_mapM, succeeds_createLiteral]
  · obtain ⟨values, hvalues, rfl⟩ := map_eq_ok.1 hr
    exact .enumSchema h hi (forall_mem_mapM hvalues fun _ _ _ => createLiteral_isLiteral)

omit [LiteralNumber N] in
theorem outlineOf_assign {t u : τ} {type : String} {goes : Prop}
    {handle : Node N → Except ParserError (JsString × Node N)}
    (hgoes : ∀ r, Gives F G u r → ((∃ x, handle r = .ok x) ↔ goes))
    (hgives : ∀ r x, Gives F G u r → handle r = .ok x →
      Gives F G t (.objectLiteral [(js "type", text type), x])) :
    OutlineOf (Gives F G) (assignPlan type (.call u handle)) ⟨[(u, goes)], True⟩ (Gives F G t) := by
  refine ⟨.call hgoes .nil, fun pieces _ => by simp [assignPlan], ?_⟩
  rintro pieces r (_ | ⟨⟨schema, hschema, hx⟩, _ | _⟩) hr
  exact Except.ok.inj hr ▸ hgives schema _ hschema hx

omit [LiteralNumber N] in
theorem array_outline {t : τ} (h : ¬ NullLike G t) (hi : ¬ NullIndexed G t) :
    OutlineOf (Gives F G) (arrayPlan F (G t)) (arrayOutline F G (G t)) (Gives F G t) := by
  unfold arrayPlan arrayOutline
  rcases (G t).typeArguments with _ | _ | ⟨u, us⟩
  · exact outlineOf_leaf_ok (.typeSchema h hi _)
  · exact outlineOf_leaf_error
  · refine outlineOf_assign (fun r hr => exists_assignment_iff hr) fun r x hr hx => ?_
    obtain ⟨rfl, -⟩ := createPropertyAssignment_eq_ok.1 hx
    refine .plain h hi (mergeable_of_unmerged (by simp [unmergedNames])) fun hF => ?_
    simpa using ⟨IsEntry.type _, IsEntry.items (assignment_isSchema hr hx hF).2⟩

omit [LiteralNumber N] in
theorem nullIndexed_iff {t v : τ} (h : IndexedBy (G t) v) : NullIndexed G t ↔ NullLike G v := by
  constructor
  · rintro (⟨hv, hl⟩ | ⟨ht, -⟩)
    · rwa [Option.some.inj (h.index.symm.trans hv.index)]
    · rw [h.flags] at ht
      exact absurd ht (by decide)
  · exact .index h

omit [LiteralNumber N] in
theorem index_outline {t v : τ} (h : ¬ NullLike G t) (hv : IndexedBy (G t) v) :
    OutlineOf (Gives F G) (assignPlan "object" (assignStep F (js "additionalProperties") v))
      ⟨[(v, Takes F G v)], True⟩ (Gives F G t) := by
  have htype : escapedText (js "type") ∉ mergedNames := by decide
  have hname : escapedText (js "additionalProperties") ∈ mergedNames := by decide
  refine outlineOf_assign (fun r hr => exists_assignment_iff hr) fun r x hr hx => ?_
  obtain ⟨rfl, -⟩ := createPropertyAssignment_eq_ok.1 hx
  refine .objectLiteral h ?_ fun hF => ?_
  · rw [nullIndexed_iff hv, ← hr.eq_undefined_iff]
    simp only [Mergeable, List.forall_mem_cons, htype, false_imp_iff, hname, true_imp_iff,
      List.not_mem_nil, implies_true, and_true, true_and]
    cases hr <;> simp
  · simpa using ⟨IsEntry.type _, IsEntry.additionalProperties (assignment_isSchema hr hx hF).2⟩

omit [LiteralNumber N] in
theorem record_outline {t : τ} (h : ¬ NullLike G t) (hi : ¬ NullIndexed G t) :
    OutlineOf (Gives F G) (recordPlan (G t)) (recordOutline G (G t)) (Gives F G t) := by
  unfold recordPlan recordOutline
  rcases recordValueType (G t) with _ | v
  · exact outlineOf_leaf_error
  · refine outlineOf_assign (fun r hr => ?_) fun r x hr hx => ?_
    · rw [← hr.eq_undefined_iff]
      cases hr <;> simp [describeKeys, Node.propertiesOf, Except.map]
    · obtain ⟨ps, hps, rfl⟩ := map_eq_ok.1 hx
      rw [propertiesOf_eq_ok] at hps
      subst hps
      refine .plain h hi (mergeable_of_unmerged (by simp [unmergedNames])) fun hF => ?_
      have hdescription : ∀ value : LiteralValue N,
          IsEntry (js "description", .stringLiteral value) :=
        fun value => .literal (by decide) (.stringLiteral value)
      cases hr with
      | objectLiteral _ _ hc =>
        refine List.forall_mem_cons.2 ⟨.type _, List.forall_mem_singleton.2 ?_⟩
        refine .additionalProperties (.intro (List.forall_mem_append.2 ⟨hc hF, ?_⟩))
        exact List.forall_mem_singleton.2 (hdescription _)

omit [LiteralNumber N] in
theorem made_assign_isSchema {t : τ} {name : JsString} {x : JsString × Node N}
    (h : Made (Gives F G) (assignStep F name t) x) (hF : F.acceptsUndefined = false) :
    IsSchema x.2 := by
  obtain ⟨r, hr, hx⟩ := h
  exact (assignment_isSchema hr hx hF).2

theorem tuple_outline {t : τ} (h : ¬ NullLike G t) (hi : ¬ NullIndexed G t) :
    OutlineOf (Gives F G) (tuplePlan F (G t)) (tupleOutline F G (G t)) (Gives F G t) := by
  unfold tuplePlan tupleOutline
  rcases hts : (G t).typeArguments with _ | ts
  · exact array_outline h hi
  · have hrefs : ts.map (fun u => (u, Takes F G u))
        = ts.zipIdx.map fun e => (e.1, Takes F G e.1) := by
      show _ = ts.zipIdx.map ((fun u => (u, Takes F G u)) ∘ Prod.fst)
      rw [← List.map_map, List.zipIdx_map_fst]
    refine ⟨?_, fun _ _ => by simp, fun pieces r hp hr => ?_⟩
    · show Descent.Follows _ (ts.zipIdx.map _) (ts.map _)
      rw [hrefs]
      exact .calls fun e _ r hr => exists_assignment_iff hr
    obtain rfl := Except.ok.inj hr
    refine .plain h hi ?_ fun hF => ?_
    · exact mergeable_of_unmerged (by simp [unmergedNames])
    · simp only [List.forall_mem_cons, List.not_mem_nil, false_imp_iff, implies_true, and_true]
      refine ⟨.type _, .properties fun x hx => ?_, .literal (by decide) (.stringLiteral _),
        .literal (by decide) (.numericLiteral _), .literal (by decide) (.numericLiteral _)⟩
      obtain ⟨step, hstep, hmade⟩ := made_of_mem hp x hx
      obtain ⟨e, -, rfl⟩ := List.mem_map.1 hstep
      exact (made_assign_isSchema hmade hF).isProperty

theorem exists_property_iff {property : TsProperty τ} {t : τ} {node : Node N}
    (h : Gives F G t node) : (∃ x, assignProperty F property node = .ok x) ↔
      PropertyGoes F G property t := by
  unfold assignProperty
  simp only [bind_eq_ok, createPropertyAssignment_eq_ok]
  constructor
  · rintro ⟨x, parsed, hparsed, rfl, htakes⟩
    cases h with
    | undefined hn =>
      obtain ⟨rfl, hd, ht⟩ := addMetadata_undefined.1 hparsed
      exact ⟨by simp [hd], by simp [ht, tagTexts], fun _ => ⟨hd, ht⟩, fun _ => htakes rfl⟩
    | objectLiteral hn =>
      obtain ⟨hd, ht⟩ := succeeds_addMetadata.1 ⟨parsed, hparsed⟩
      exact ⟨hd, ht, fun hl => absurd hl hn, fun hl => absurd hl hn⟩
  · intro hgoes
    cases h with
    | undefined hn =>
      exact ⟨_, .undefined, addMetadata_undefined.2 ⟨rfl, hgoes.documented hn⟩, rfl,
        fun _ => hgoes.takes hn⟩
    | objectLiteral hn =>
      obtain ⟨parsed, hparsed⟩ := succeeds_addMetadata.2 ⟨hgoes.description, hgoes.tags⟩
      obtain ⟨ms, rfl, -⟩ := addMetadata_object hparsed
      exact ⟨_, _, hparsed, rfl, fun hu => by cases hu⟩

theorem property_isProperty {property : TsProperty τ} {t : τ} {node : Node N}
    {x : JsString × Node N} (h : Gives F G t node) (hx : assignProperty F property node = .ok x)
    (hF : F.acceptsUndefined = false) : IsProperty x.2 := by
  obtain ⟨parsed, hparsed, hx⟩ := bind_eq_ok.1 hx
  obtain ⟨rfl, htakes⟩ := createPropertyAssignment_eq_ok.1 hx
  cases h with
  | undefined hn =>
    obtain ⟨rfl, -⟩ := addMetadata_undefined.1 hparsed
    exact absurd (htakes rfl) (by simp [hF])
  | objectLiteral hn _ hc =>
    obtain ⟨ms, rfl, hms⟩ := addMetadata_object hparsed
    exact .intro hms (hc hF)

theorem interface_outline {t : τ} (h : ¬ NullLike G t) (hi : ¬ NullIndexed G t) :
    OutlineOf (Gives F G) (interfacePlan F (G t)) (interfaceOutline F G (G t)) (Gives F G t) := by
  refine ⟨.of_forall fun property hp => .inr ?_,
    fun _ _ => by simp [interfacePlan, interfaceOutline], fun pieces r hp hr => ?_⟩
  · obtain ⟨u, hu⟩ := parsedType_of_listed hp
    exact ⟨u, assignProperty F property, PropertyGoes F G property u, by simp [propertyStep, hu],
      by simp [propertyRef, hu], fun r hr => exists_property_iff hr⟩
  · obtain rfl := Except.ok.inj hr
    have hpieces : F.acceptsUndefined = false → ∀ x ∈ pieces, IsProperty x.2 := by
      intro hF x hx
      obtain ⟨step, hstep, hmade⟩ := made_of_mem hp x hx
      obtain ⟨property, hl, rfl⟩ := List.mem_map.1 hstep
      obtain ⟨u, hu⟩ := parsedType_of_listed hl
      simp only [propertyStep, hu] at hmade
      obtain ⟨r, hr, hx⟩ := hmade
      exact property_isProperty hr hx hF
    unfold interfaceSchema
    split_ifs
    · exact .plain h hi (by simp [Mergeable]) fun _ => by simp
    · refine .plain h hi ?_ fun hF => ?_
      · exact mergeable_of_unmerged (by simp [unmergedNames])
      · simp only [List.forall_mem_cons, List.not_mem_nil, false_imp_iff, implies_true, and_true]
        refine ⟨.literals (by decide) fun e he => ?_, .type _, .properties (hpieces hF)⟩
        obtain ⟨property, -, rfl⟩ := List.mem_map.1 he
        exact .stringLiteral _

/-! ## Unions and intersections -/

theorem succeeds_literalNode {u : τ} : Succeeds (literalNode F G u) ↔
    (¬ isBooleanLiteral G u → TakesLiteral F (valueOf (G u))) := by
  unfold literalNode
  split_ifs with hb <;> simp [hb, succeeds_createLiteral]

theorem literalNode_isLiteral {u : τ} {node : Node N} (h : literalNode F G u = .ok node) :
    node.IsLiteral := by
  unfold literalNode at h
  split_ifs at h
  · exact Except.ok.inj h ▸ .false
  · exact Except.ok.inj h ▸ .true
  · exact createLiteral_isLiteral h

omit [LiteralNumber N] in
theorem exists_titled_iff {u : τ} {node : Node N} (h : Gives F G u node) :
    (∃ x : JsString × Node N, (titled G u node).map (fun schema => ([], schema)) = .ok x) ↔
      ((titleOf G u).isSome → ¬ NullLike G u) := by
  rw [← h.eq_undefined_iff]
  unfold titled
  rcases titleOf G u with _ | title
  · simp [Except.map]
  · cases h <;> simp [Except.map, Node.propertiesOf]

omit [LiteralNumber N] in
/-- A member is `undefined` where its type has no schema. -/
theorem made_member {u : τ} {x : JsString × Node N}
    (h : Made (Gives F G) (memberStep G u) x) :
    (x.2 = .undefined ↔ ¬ isBooleanLiteral G u ∧ NullLike G u) ∧
      (F.acceptsUndefined = false → x.2 ≠ .undefined → IsSchema x.2) := by
  unfold memberStep at h
  split_ifs at h with hb
  · obtain rfl := h
    exact ⟨by simp [hb, typeSchema], fun _ _ => .intro (by simpa using IsEntry.type _)⟩
  obtain ⟨r, hr, hx⟩ := h
  obtain ⟨node, hnode, rfl⟩ := map_eq_ok.1 hx
  rw [← hr.eq_undefined_iff]
  unfold titled at hnode
  split at hnode
  · obtain ⟨ps, hps, rfl⟩ := map_eq_ok.1 hnode
    rw [propertiesOf_eq_ok] at hps
    subst hps
    refine ⟨by simp, fun hF _ => .intro ?_⟩
    rw [List.forall_mem_append, List.forall_mem_singleton]
    exact ⟨(hr.isSchema hF fun hn => by simpa using hr.eq_undefined_iff.2 hn).entries,
      .literal (by decide) (.stringLiteral _)⟩
  · obtain rfl := Except.ok.inj hnode
    refine ⟨by simp [hb], fun hF hne => hr.isSchema hF fun hn => ?_⟩
    exact absurd (hr.eq_undefined_iff.2 hn) hne

omit [LiteralNumber N] in
theorem anyOf_outline {t : τ} (h : ¬ NullLike G t) (hi : ¬ NullIndexed G t) (types : List τ) :
    OutlineOf (Gives F G) ⟨types.map (memberStep G), fun pieces =>
        (F.createArrayLiteralExpression (pieces.map Prod.snd)).map fun anyOf =>
          .objectLiteral [(js "anyOf", anyOf)]⟩
      ⟨types.filterMap (memberRef G), ∀ u ∈ types, ¬ isBooleanLiteral G u → Takes F G u⟩
      (Gives F G t) := by
  refine ⟨.of_forall fun u _ => ?_, fun pieces hp => ?_, fun pieces r hp hr => ?_⟩
  · unfold memberStep memberRef
    split_ifs
    · exact .inl ⟨rfl, _, rfl⟩
    · exact .inr ⟨u, _, _, rfl, rfl, fun r hr => exists_titled_iff hr⟩
  · show Succeeds _ ↔ _
    rw [succeeds_map, succeeds_createArrayLiteralExpression, List.forall_mem_map]
    constructor
    · intro hx u hu hb hn
      obtain ⟨x, hxp, hmade⟩ := made_mem hp _ (List.mem_map_of_mem hu)
      exact hx x hxp ((made_member hmade).1.2 ⟨hb, hn⟩)
    · intro hu x hxp hx
      obtain ⟨step, hstep, hmade⟩ := made_of_mem hp x hxp
      obtain ⟨u, hut, rfl⟩ := List.mem_map.1 hstep
      obtain ⟨hb, hn⟩ := (made_member hmade).1.1 hx
      exact hu u hut hb hn
  · obtain ⟨anyOf, hany, rfl⟩ := map_eq_ok.1 hr
    obtain ⟨rfl, hx⟩ := createArrayLiteralExpression_eq_ok.1 hany
    refine .plain h hi (mergeable_of_unmerged (by simp [unmergedNames])) fun hF => ?_
    refine List.forall_mem_singleton.2 (.anyOf fun node hnode => ?_)
    obtain ⟨x, hxp, rfl⟩ := List.mem_map.1 hnode
    obtain ⟨step, hstep, hmade⟩ := made_of_mem hp x hxp
    obtain ⟨u, -, rfl⟩ := List.mem_map.1 hstep
    exact (made_member hmade).2 hF fun hu => by simp [hx _ hnode hu] at hF

theorem several_outline {t : τ} (h : ¬ NullLike G t) (hi : ¬ NullIndexed G t) (types : List τ) :
    OutlineOf (Gives F G) (severalPlan F G types) (severalOutline F G types) (Gives F G t) := by
  unfold severalPlan severalOutline
  split_ifs
  · refine outlineOf_leaf ?_ fun r hr => ?_
    · simp only [succeeds_map, succeeds_mapM, succeeds_literalNode]
    · obtain ⟨values, hvalues, rfl⟩ := map_eq_ok.1 hr
      exact .enumSchema h hi (forall_mem_mapM hvalues fun _ _ _ => literalNode_isLiteral)
  · refine outlineOf_leaf_ok
      (.plain h hi (mergeable_of_unmerged (by simp [unmergedNames])) fun _ => ?_)
    refine List.forall_mem_singleton.2 (.literals (by decide) fun node hnode => ?_)
    obtain ⟨u, -, rfl⟩ := List.mem_map.1 hnode
    exact .stringLiteral _
  · exact anyOf_outline h hi types

omit [LiteralNumber N] in
theorem Gives.pass {t u : τ} {node : Node N} (h : Gives F G u node)
    (hl : NullLike G t ↔ NullLike G u) (hi : NullIndexed G t ↔ NullIndexed G u) :
    Gives F G t node := by
  cases h with
  | undefined h => exact .undefined (hl.2 h)
  | objectLiteral h hm hc => exact .objectLiteral (by rwa [hl]) (by rwa [hi]) hc

omit [LiteralNumber N] in
theorem nullIndexed_iff_union {t : τ} (ht : (G t).flags = {.union}) : NullIndexed G t ↔
    ∃ u, unionTypes G (G t) = [u] ∧ ¬ isBooleanLiteral G u ∧ NullIndexed G u := by
  constructor
  · rintro (⟨hv, -⟩ | ⟨-, hu, hb, hi⟩)
    · rw [hv.flags] at ht
      exact absurd ht (by decide)
    · exact ⟨_, hu, hb, hi⟩
  · exact fun ⟨u, hu, hb, hi⟩ => .union ht hu hb hi

theorem union_outline {t : τ} (ht : (G t).flags = {.union}) :
    OutlineOf (Gives F G) (unionPlan F G (G t)) (unionOutline F G (G t)) (Gives F G t) := by
  have hnull : ¬ isNull (G t).flags := by
    rw [ht]
    decide
  have hl := nullLike_iff hnull
  have hi := nullIndexed_iff_union ht
  unfold unionPlan unionOutline
  rcases hu : unionTypes G (G t) with _ | ⟨u, _ | ⟨v, us⟩⟩ <;> rw [hu] at hl hi
  · exact several_outline (by simp [hl]) (by simp [hi]) []
  · simp only [ht, true_and, List.cons.injEq, and_true, exists_eq_left'] at hl hi
    show OutlineOf _ (if _ then _ else _) (if _ then _ else _) _
    split_ifs with hb
    · exact outlineOf_leaf_ok (.typeSchema (by simp [hl, hb]) (by simp [hi, hb]) _)
    · refine ⟨.call (fun r _ => by simp) .nil, fun pieces _ => by simp [passPlan], ?_⟩
      rintro pieces r (_ | ⟨⟨schema, hschema, hx⟩, _ | _⟩) hr
      obtain rfl := Except.ok.inj hx
      exact Except.ok.inj hr ▸ hschema.pass (by simp [hl, hb]) (by simp [hi, hb])
  · exact several_outline (by simp [hl]) (by simp [hi]) (u :: v :: us)

omit [LiteralNumber N] in
theorem Gives.mergeable_iff {u : τ} {node : Node N} (h : Gives F G u node) :
    (∃ ps, node = .objectLiteral ps ∧ Mergeable ps) ↔ ¬ NullLike G u ∧ ¬ NullIndexed G u := by
  cases h with
  | undefined h => simp [h]
  | objectLiteral h hm => simp [h, hm]

omit [LiteralNumber N] in
theorem intersection_outline {t : τ} (h : ¬ NullLike G t) (hi : ¬ NullIndexed G t) :
    OutlineOf (Gives F G) (intersectionPlan (G t)) (intersectionOutline G (G t))
      (Gives F G t) := by
  have hmade : ∀ {u : τ} {x : JsString × Node N}, Made (Gives F G) (plainStep u) x →
      Gives F G u x.2 := by
    rintro u x ⟨r, hr, hx⟩
    exact Except.ok.inj hx ▸ hr
  refine ⟨.calls fun u _ r _ => by simp, fun pieces hp => ?_, fun pieces r hp hr => ?_⟩
  · show Succeeds ((mergeSchemas _).map _) ↔ _
    rw [succeeds_map, succeeds_mergeSchemas, List.forall_mem_map]
    constructor
    · intro hx u hu
      obtain ⟨x, hxp, hm⟩ := made_mem hp _ (List.mem_map_of_mem hu)
      exact (hmade hm).mergeable_iff.1 (hx x hxp)
    · intro hu x hxp
      obtain ⟨step, hstep, hm⟩ := made_of_mem hp x hxp
      obtain ⟨u, hut, rfl⟩ := List.mem_map.1 hstep
      exact (hmade hm).mergeable_iff.2 (hu u hut)
  · obtain ⟨m, hm, rfl⟩ := map_eq_ok.1 hr
    refine .plain h hi ?_ fun hF => toNode_isEntry (mergeSchemas_isWhole ?_ hm) rfl
    · obtain ⟨ps, hps, hmerge⟩ := toNode_mergeable m
      cases hps
      exact hmerge
    · intro schema hschema
      obtain ⟨ps, rfl, -⟩ := succeeds_mergeSchemas.1 ⟨m, hm⟩ schema hschema
      obtain ⟨x, hxp, hx⟩ := List.mem_map.1 hschema
      obtain ⟨step, hstep, hmx⟩ := made_of_mem hp x hxp
      obtain ⟨u, -, rfl⟩ := List.mem_map.1 hstep
      have hg := hmade hmx
      rw [hx] at hg
      cases hg with
      | objectLiteral _ _ hc => exact .intro (hc hF)

/-! ## All types -/

omit [LiteralNumber N] in
theorem externalSchema_some {type : TsType τ N} {external : Node N}
    (h : externalSchema type = .ok (some external)) : ∃ s, external = typeSchema s := by
  unfold externalSchema at h
  split at h
  · cases h
  · split_ifs at h
    · obtain ⟨name, -, hname⟩ := map_eq_ok.1 h
      obtain ⟨n, -, rfl⟩ := Option.map_eq_some_iff.1 hname
      exact ⟨_, rfl⟩
    · simp at h

omit [LiteralNumber N] in
theorem namedSchema_gives {t : τ} {schema : Node N} (h : ¬ NullLike G t)
    (hi : ¬ NullIndexed G t) (hn : namedSchema (G t) = some schema) : Gives F G t schema := by
  have hformat : ∀ format, Gives F G t (formatSchema format) := by
    refine fun format => .plain h hi (mergeable_of_unmerged (by simp [unmergedNames])) fun _ => ?_
    simpa using ⟨IsEntry.type _, IsEntry.literal (by decide) (.stringLiteral _)⟩
  unfold namedSchema at hn
  split at hn
  · cases hn
  · split_ifs at hn
    · exact Option.some.inj hn ▸ .typeSchema h hi _
    · exact Option.some.inj hn ▸ hformat _
    · exact Option.some.inj hn ▸ hformat _

theorem object_outline {t : τ} (ht : (G t).flags = {.object}) :
    OutlineOf (Gives F G) (objectPlan F G (G t)) (objectOutline F G (G t)) (Gives F G t) := by
  have h : ¬ NullLike G t := by
    refine not_nullLike ?_ ?_ <;> rw [ht] <;> decide
  have hplain : (∀ v, ¬ IndexedBy (G t) v) → ¬ NullIndexed G t :=
    not_nullIndexed (by rw [ht]; decide)
  unfold objectPlan objectOutline
  split_ifs with ha htu
  · exact array_outline h (hplain fun v hv => by simp [hv.isArrayType] at ha)
  · exact tuple_outline h (hplain fun v hv => by simp [hv.isTupleType] at htu)
  all_goals
    rcases hn : (namedSchema (G t) : Option (Node N)) with _ | schema
    · rcases hx : (G t).numberIndex <|> (G t).stringIndex with _ | v
      · have hi := hplain fun v hv => nomatch hx.symm.trans hv.index
        rcases he : (externalSchema (G t) : Except ParserError (Option (Node N)))
          with err | _ | external
        · exact outlineOf_leaf_error
        · first
            | exact record_outline h hi
            | exact interface_outline h hi
        · obtain ⟨typeString, rfl⟩ := externalSchema_some he
          exact outlineOf_leaf_ok (.typeSchema h hi typeString)
      · exact index_outline h ⟨ht, by simpa using ha, by simpa using htu, hn, hx⟩
    · have hi := hplain fun v hv => nomatch hn.symm.trans hv.named
      exact outlineOf_leaf_ok (namedSchema_gives h hi hn)

theorem outlines : Outlines (fun t => planOf F G (G t)) (outline F G) (Gives F G) := by
  intro t
  have hplain : ¬ isNull (G t).flags → (G t).flags ≠ {.object} → (G t).flags ≠ {.union} →
      ¬ NullLike G t ∧ ¬ NullIndexed G t := fun hn ho hu =>
    ⟨not_nullLike hn hu, not_nullIndexed hu fun v hv => ho hv.flags⟩
  show OutlineOf _ (planOf F G (G t)) (typeOutline F G (G t)) _
  unfold planOf typeOutline
  split_ifs with hn hp ho hu hi he
  · exact outlineOf_leaf_ok (Gives.undefined (.null hn))
  · have hne : (G t).flags ≠ {.object} ∧ (G t).flags ≠ {.union} := by
      constructor <;> intro h <;> rw [h] at hp <;> exact absurd hp (by decide)
    exact primitive_outline (hplain hn hne.1 hne.2).1 (hplain hn hne.1 hne.2).2
  · exact object_outline ho
  · exact union_outline hu
  · exact intersection_outline (hplain hn ho hu).1 (hplain hn ho hu).2
  · exact enum_outline (hplain hn ho hu).1 (hplain hn ho hu).2
  · exact outlineOf_leaf_ok (.plain (hplain hn ho hu).1 (hplain hn ho hu).2
      (by simp [Mergeable]) fun _ => by simp)

end TypeParser

end DiiaApp
