import DiiaApp.Proofs.SchemaSearch
import Mathlib.Data.List.Pairwise

/-!
# The calls of a search and the definitions

The search goes down as far as there are names left (`searchType_eq`). Its definitions are those of
the names that calls expand (`defs_has_iff`), a type has one name in all of its calls, and the
definition of a call that expands its type describes it (`searchCalls_spec`).
-/

namespace DiiaApp

open Js

variable {root : ProtoRoot} {comments : Comments}

theorem fieldsToSchema_congr {resolve resolve' : Resolver} {visited : List JsString}
    {parent : ProtoType} : ∀ {fields : List (JsString × ProtoField)},
    (∀ e ∈ fields, ∀ st, resolve visited (resolvedTypeName parent e.2) st
      = resolve' visited (resolvedTypeName parent e.2) st) →
    ∀ st, fieldsToSchema comments resolve visited parent fields st
      = fieldsToSchema comments resolve' visited parent fields st
  | [], _, _ => rfl
  | e :: fields, h, st => by
    have he : ∀ st, typeSchema resolve visited parent e.2 st
        = typeSchema resolve' visited parent e.2 st := by
      intro st
      unfold typeSchema
      rw [h e (List.mem_cons_self ..) st]
    have hf : fieldToSchema comments resolve visited parent e.1 e.2 st
        = fieldToSchema comments resolve' visited parent e.1 e.2 st := by
      unfold fieldToSchema mapFieldToSchema
      rw [he]
    rw [fieldsToSchema, fieldsToSchema, hf,
      fieldsToSchema_congr fun e' he' => h e' (List.mem_cons_of_mem _ he')]

theorem resolvedTypeName_mem {type : ProtoType} (ht : type ∈ root.types)
    {e : JsString × ProtoField} (he : e ∈ type.fields.entries) :
    resolvedTypeName type e.2 ∈ fieldTypeNames root :=
  List.mem_flatMap.2 ⟨type, ht, List.mem_map.2 ⟨e.2, List.mem_map_of_mem he, rfl⟩⟩

/-- The search with `bottom` in the place of what is more than `fuel` levels down. -/
def resolveOver (root : ProtoRoot) (comments : Comments) (bottom : Resolver) : ℕ → Resolver
  | 0 => bottom
  | fuel + 1 => resolveStep root comments (resolveOver root comments bottom fuel)

theorem resolveComplexType_eq_over : ∀ fuel, resolveComplexType root comments fuel
    = resolveOver root comments (fun _ _ st => (.plainObject, st)) fuel
  | 0 => rfl
  | fuel + 1 => by rw [resolveComplexType, resolveOver, resolveComplexType_eq_over fuel]

/-- The names that can still be met with those in `visited` around. -/
def namesLeft (root : ProtoRoot) (visited : List JsString) : ℕ :=
  ((fieldTypeNames root).filter (· ∉ visited)).length

theorem namesLeft_lt {visited : List JsString} {typeName : JsString}
    (hn : typeName ∈ fieldTypeNames root) (hv : typeName ∉ visited) :
    namesLeft root (shortNameOf typeName :: typeName :: visited) < namesLeft root visited := by
  have hsub : (fieldTypeNames root).filter (· ∉ shortNameOf typeName :: typeName :: visited)
      = ((fieldTypeNames root).filter (· ∉ visited)).filter
        (· ∉ shortNameOf typeName :: typeName :: visited) := by
    rw [List.filter_filter]
    refine List.filter_congr fun n _ => ?_
    simp only [List.mem_cons, not_or, Bool.decide_and]
    rcases decide (n ∉ visited) <;> simp
  rw [namesLeft, hsub, namesLeft, List.length_filter_lt_length_iff_exists]
  exact ⟨typeName, List.mem_filter.2 ⟨hn, by simpa using hv⟩, by simp⟩

/-- With more levels than there are names left, what is further down is not met. -/
theorem resolveOver_congr {bottom bottom' : Resolver} :
    ∀ {fuel fuel' : ℕ} {visited : List JsString} {typeName : JsString},
      typeName ∈ fieldTypeNames root → namesLeft root visited < fuel →
      namesLeft root visited < fuel' → ∀ st,
        resolveOver root comments bottom fuel visited typeName st
          = resolveOver root comments bottom' fuel' visited typeName st
  | 0, _, _, _, _, h, _ => absurd h (Nat.not_lt_zero _)
  | _ + 1, 0, _, _, _, _, h => absurd h (Nat.not_lt_zero _)
  | fuel + 1, fuel' + 1, visited, typeName, hn, h, h' => fun st => by
    rw [resolveOver, resolveOver, resolveStep, resolveStep]
    split_ifs with hd hv
    · rfl
    · rfl
    · rcases ht : root.lookupType typeName with _ | type
      · rfl
      · have hnv : typeName ∉ visited := fun hm => hv (by simp [typeCall, hm])
        have hlt := namesLeft_lt hn hnv
        have hfields : ∀ st', fieldsToSchema comments (resolveOver root comments bottom fuel)
              (shortNameOf typeName :: typeName :: visited) type type.fields.entries st'
            = fieldsToSchema comments (resolveOver root comments bottom' fuel')
              (shortNameOf typeName :: typeName :: visited) type type.fields.entries st' :=
          fieldsToSchema_congr fun e he st' =>
            resolveOver_congr (resolvedTypeName_mem (root.lookupType_mem ht) he)
              (by omega) (by omega) st'
        dsimp only
        rw [resolveMessageType, resolveMessageType, hfields]

/-- What is further down than the search counts on does not matter. -/
theorem searchType_eq {type : ProtoType} (ht : type ∈ root.types) (bottom : Resolver)
    {fuel : ℕ} (hf : searchDepth root ≤ fuel) :
    fieldsToSchema comments (resolveOver root comments bottom fuel) [] type type.fields.entries
      initialState = searchType root comments type := by
  have hlt : namesLeft root [] < searchDepth root :=
    Nat.lt_succ_of_le (List.length_filter_le ..)
  refine fieldsToSchema_congr (fun e he st => ?_) _
  rw [resolveComplexType_eq_over]
  exact resolveOver_congr (resolvedTypeName_mem ht he) (hlt.trans_le hf) hlt st

variable (root comments)

def searchCalls (typeName : JsString) : List TypeCall :=
  match (if typeName = [] then none else root.lookupType typeName) with
  | some type => (searchType root comments type).2.calls
  | none => []

theorem searchType_grows (type : ProtoType) : Grows root comments initialState
    (searchType root comments type).2 (searchType root comments type).2.calls
    (Schema.refsAll (searchType root comments type).1) := by
  have hres : Growing root comments (resolveComplexType root comments (searchDepth root)) :=
    resolveComplexType_growing _
  obtain ⟨cs, h⟩ := fieldsToSchema_grows hres [] type type.fields.entries initialState
  have hcs : (searchType root comments type).2.calls = cs := h.calls
  rw [hcs]
  exact h

theorem defs_typeToSchema (typeName : JsString) (type : ProtoType) :
    (typeToSchema root comments typeName type).defs
      = (searchType root comments type).2.definitions := by
  rw [JsonSchema.defs, typeToSchema]
  dsimp only
  split_ifs with h
  · rcases hd : (searchType root comments type).2.definitions with ⟨es, hn⟩
    rw [hd] at h
    dsimp only at h
    subst h
    rfl
  · rfl

/-- The definitions are those of the names that calls expand. -/
theorem defs_has_iff (typeName d : JsString) :
    (generateSchema root comments typeName).defs.has d ↔
      ∃ c ∈ searchCalls root comments typeName, c.Expands root ∧ c.definitionName = d := by
  unfold generateSchema searchCalls
  rcases (if typeName = [] then none else root.lookupType typeName) with _ | type
  · simp [JsonSchema.defs, Map.has]
  have h := searchType_grows root comments type
  dsimp only
  rw [defs_typeToSchema]
  constructor
  · intro hd
    obtain ⟨s, hs⟩ := Option.isSome_iff_exists.1 hd
    rcases h.made hs with h0 | ⟨hc, -⟩
    · exact absurd h0 (by simp [initialState])
    · exact hc
  · rintro ⟨c, hc, he, rfl⟩
    obtain ⟨-, s, hs, -⟩ := h.expanded hc he
    exact Option.isSome_iff_exists.2 ⟨s, hs⟩

variable {root comments}

/-- The types that the fields of a message type lead to. -/
def LedTo (root : ProtoRoot) (typeName : JsString) : Prop :=
  ∃ type ∈ root.types, ∃ field ∈ type.fields.values,
    protoToJsonType field.type = none ∧ resolvedTypeName type field = typeName

/-- What the search keeps: it holds of the next state when a type is met, whatever the definitions
become, and when a type found as an enum is given its name again. -/
structure Kept (root : ProtoRoot) (I : GenState → Prop) : Prop where
  met : ∀ {visited n st}, LedTo root n → I st → I (met root visited n st)
  definitions : ∀ {st : GenState} {defs : Definitions}, I st → I { st with definitions := defs }
  named : ∀ {visited n st}, I (DiiaApp.met root visited n st) →
    I { DiiaApp.met root visited n st with
      definitionNames := (DiiaApp.met root visited n st).definitionNames.set n
        (typeCall root visited n st).definitionName }

section Kept

variable {I : GenState → Prop}

def KeptBy (root : ProtoRoot) (I : GenState → Prop) (resolve : Resolver) : Prop :=
  ∀ visited n st, LedTo root n → I st → I (resolve visited n st).2

theorem fieldsToSchema_keeps {resolve : Resolver} (h : KeptBy root I resolve)
    {visited : List JsString} {parent : ProtoType} (hp : parent ∈ root.types) :
    ∀ {fields : List (JsString × ProtoField)}, fields ⊆ parent.fields.entries → ∀ {st}, I st →
      I (fieldsToSchema comments resolve visited parent fields st).2
  | [], _, _, hi => hi
  | e :: fields, hs, st, hi => by
    rw [fieldsToSchema]
    dsimp only
    refine fieldsToSchema_keeps h hp (List.subset_of_cons_subset hs) ?_
    rw [state_fieldToSchema, typeSchema]
    split
    · exact hi
    · next hf =>
      exact h _ _ _ ⟨parent, hp, e.2, List.mem_map_of_mem (hs (List.mem_cons_self ..)), hf, rfl⟩ hi

theorem resolveStep_keeps (hk : Kept root I) {resolve : Resolver} (h : KeptBy root I resolve) :
    KeptBy root I (resolveStep root comments resolve) := by
  intro visited n st hn hi
  have hm : I (met root visited n st) := hk.met hn hi
  unfold resolveStep
  dsimp only
  split_ifs
  · exact hm
  · exact hm
  · rcases ht : root.lookupType n with _ | type
    · dsimp only
      unfold tryResolveEnumType
      rcases root.lookupEnum n with _ | e
      · exact hm
      · exact hk.definitions (hk.named hm)
    · exact hk.definitions (fieldsToSchema_keeps h (root.lookupType_mem ht) (List.Subset.refl _)
        (hk.definitions hm))

theorem resolveComplexType_keeps (hk : Kept root I) :
    ∀ fuel, KeptBy root I (resolveComplexType root comments fuel)
  | 0 => fun _ _ _ _ hi => hi
  | fuel + 1 => resolveStep_keeps hk (resolveComplexType_keeps hk fuel)

theorem searchType_keeps (hk : Kept root I) {type : ProtoType} (ht : type ∈ root.types)
    (h0 : I initialState) : I (searchType root comments type).2 :=
  fieldsToSchema_keeps (resolveComplexType_keeps hk _) ht (List.Subset.refl _) h0

end Kept

theorem shortNameOf_eq_nil {n : JsString} (h : shortNameOf n = []) : n = [] := by
  unfold shortNameOf at h
  split at h
  · exact h
  · exact h
  · next short hs hne => exact absurd h hs

theorem qualifiedName_eq_nil {n : JsString} (h : qualifiedName n = []) : n = [] := by
  unfold qualifiedName at h
  dsimp only at h
  split_ifs at h with hl
  · have hlen : ((n.splitOn dot).drop ((n.splitOn dot).length - 2)).length = 2 := by
      rw [List.length_drop]
      omega
    obtain ⟨a, b, hab⟩ := List.length_eq_two.1 hlen
    rw [hab] at h
    simp [List.intercalate] at h
  · exact h

/-- The name of a type is kept with it, and the names before it stay. -/
def Named (st : GenState) : Prop :=
  (∀ n, st.definitionNames.get n = some [] → n = []) ∧
    ∀ c ∈ st.calls, st.definitionNames.get c.typeName = some c.definitionName

section Named

variable {names : Map JsString JsString} {n : JsString} {isNestedType : Bool}

theorem getDefinitionName_get :
    (getDefinitionName n (shortNameOf n) names isNestedType).2.get n
      = some (getDefinitionName n (shortNameOf n) names isNestedType).1 := by
  unfold getDefinitionName
  rcases hg : (names.get n).filter (· ≠ []) with _ | d
  · exact Map.get_set_self ..
  · exact (Option.filter_eq_some_iff.1 hg).1

theorem getDefinitionName_ne_nil (hn : n ≠ []) :
    (getDefinitionName n (shortNameOf n) names isNestedType).1 ≠ [] := by
  unfold getDefinitionName
  rcases hg : (names.get n).filter (· ≠ []) with _ | d
  · dsimp only
    split_ifs
    · exact fun h => hn (qualifiedName_eq_nil h)
    · exact hn
    · exact fun h => hn (shortNameOf_eq_nil h)
  · simpa using (Option.filter_eq_some_iff.1 hg).2

theorem getDefinitionName_kept {m d : JsString} (hnil : ∀ n, names.get n = some [] → n = [])
    (h : names.get m = some d) :
    (getDefinitionName n (shortNameOf n) names isNestedType).2.get m = some d := by
  unfold getDefinitionName
  rcases hg : (names.get n).filter (· ≠ []) with _ | d'
  · dsimp only
    rcases eq_or_ne m n with rfl | hne
    · have hd : d = [] := by simpa [h] using hg
      subst hd
      obtain rfl := hnil m h
      rw [Map.get_set_self]
      split_ifs <;> rfl
    · rw [Map.get_set_of_ne _ _ hne, h]
  · exact h

/-- No type but one without a name is given the empty name. -/
theorem getDefinitionName_nil (hnil : ∀ n, names.get n = some [] → n = []) {m : JsString}
    (h : (getDefinitionName n (shortNameOf n) names isNestedType).2.get m = some []) : m = [] := by
  rcases eq_or_ne m n with rfl | hne
  · rw [getDefinitionName_get, Option.some_inj] at h
    by_contra hm
    exact getDefinitionName_ne_nil hm h
  · refine hnil m ?_
    unfold getDefinitionName at h
    rcases hg : (names.get n).filter (· ≠ []) with _ | d' <;> rw [hg] at h
    · exact (Map.get_set_of_ne _ _ hne).symm.trans h
    · exact h

end Named

/-- A type found as an enum is given the name that it has already. -/
theorem set_definitionName (visited : List JsString) (n : JsString) (st : GenState) :
    (met root visited n st).definitionNames.set n (typeCall root visited n st).definitionName
      = (met root visited n st).definitionNames := by
  have hn : (met root visited n st).definitionNames.get n
      = some (typeCall root visited n st).definitionName := getDefinitionName_get
  simp only [Map.set, Map.put_of_find hn]

theorem kept_of_met {I : GenState → Prop}
    (hm : ∀ {visited n st}, LedTo root n → I st → I (met root visited n st))
    (hd : ∀ {st : GenState} {defs : Definitions}, I st → I { st with definitions := defs }) :
    Kept root I where
  met := hm
  definitions := hd
  named {visited n st} hi := by
    rw [set_definitionName]
    exact hi

theorem named_kept : Kept root Named := by
  refine kept_of_met (fun {visited n st} _ hi => ?_) fun hi => hi
  refine ⟨fun m h => getDefinitionName_nil hi.1 h, fun c hc => ?_⟩
  rcases List.mem_append.1 hc with hc | hc
  · exact getDefinitionName_kept hi.1 (hi.2 c hc)
  · rw [List.mem_singleton.1 hc]
    exact getDefinitionName_get

theorem searchType_named {type : ProtoType} (ht : type ∈ root.types) :
    Named (searchType root comments type).2 :=
  searchType_keeps named_kept ht ⟨fun n h => by simp [initialState] at h, by simp [initialState]⟩

theorem ledTo_kept : Kept root fun st => ∀ c ∈ st.calls, LedTo root c.typeName where
  met hn hi c hc := by
    rcases List.mem_append.1 hc with hc | hc
    · exact hi c hc
    · rw [List.mem_singleton.1 hc]
      exact hn
  definitions hi := hi
  named hi := hi

/-- Every field has its resolved type set: the full name of a message or an enum of the root, where
it is not a scalar. -/
def AllResolved (root : ProtoRoot) : Prop :=
  ∀ type ∈ root.types, ∀ field ∈ type.fields.values, protoToJsonType field.type = none →
    ∃ fullName, field.resolvedType = some fullName ∧ withoutDot fullName ≠ [] ∧
      ((∃ t ∈ root.types, t.fullName = fullName) ∨ ∃ e ∈ root.enums, e.fullName = fullName)

/-- The lookups of a full name return the object with that name. -/
structure FindsFullNames (root : ProtoRoot) : Prop where
  type : ∀ t ∈ root.types, root.lookupType (withoutDot t.fullName) = some t
  enum : ∀ e ∈ root.enums, root.lookupEnum (withoutDot e.fullName) = some e ∧
    root.lookupType (withoutDot e.fullName) = none

theorem found_of_ledTo (hr : AllResolved root) (hf : FindsFullNames root) {c : TypeCall}
    (h : LedTo root c.typeName) : c.Found root := by
  obtain ⟨type, ht, field, hfield, hscalar, hn⟩ := h
  obtain ⟨fullName, hres, hne, hobj⟩ := hr type ht field hfield hscalar
  rw [resolvedTypeName, hres] at hn
  dsimp only at hn
  rw [if_pos hne] at hn
  rw [TypeCall.Found, ← hn]
  rcases hobj with ⟨t, ht, rfl⟩ | ⟨e, he, rfl⟩
  · exact .inl (Option.isSome_iff_exists.2 ⟨t, hf.type t ht⟩)
  · exact .inr (Option.isSome_iff_exists.2 ⟨e, (hf.enum e he).1⟩)

/-- What a search of a type leaves in its calls. -/
theorem searchCalls_spec (root : ProtoRoot) (comments : Comments) (typeName : JsString) :
    (∀ c ∈ searchCalls root comments typeName, LedTo root c.typeName) ∧
    (∀ c ∈ searchCalls root comments typeName, ∀ e ∈ searchCalls root comments typeName,
      c.typeName = e.typeName → c.definitionName = e.definitionName) ∧
    ∀ c ∈ searchCalls root comments typeName, c.Expands root →
      (∃ s, (generateSchema root comments typeName).defs.get c.definitionName = some s ∧
        c.Describes root comments s) ∧
      ∀ e ∈ searchCalls root comments typeName, e.Expands root →
        c.definitionName = e.definitionName → c = e := by
  unfold searchCalls generateSchema
  rcases ht : (if typeName = [] then none else root.lookupType typeName) with _ | type
  · simp
  dsimp only
  have hmem : type ∈ root.types := by
    split_ifs at ht
    exact root.lookupType_mem ht
  have h := searchType_grows root comments type
  have hnamed : Named (searchType root comments type).2 := searchType_named hmem
  refine ⟨searchType_keeps ledTo_kept hmem (by simp [initialState]), fun c hc e he heq => ?_,
    fun c hc hce => ⟨?_, fun e he hee heq => ?_⟩⟩
  · have hce := (hnamed.2 c hc).symm.trans (heq ▸ hnamed.2 e he)
    exact Option.some.inj hce
  · rw [defs_typeToSchema]
    exact (h.expanded hc hce).2
  · by_contra hne
    have hsymm : Std.Symm fun a b : TypeCall => a.Expands root → b.Expands root →
        a.definitionName ≠ b.definitionName := ⟨fun a b hab hb ha => (hab ha hb).symm⟩
    exact h.once.forall hc he hne hce hee heq

/-- The root with the given types and enums, which finds each by its full name. -/
def rootOf (types : List ProtoType) (enums : List ProtoEnum) : ProtoRoot where
  types := types
  enums := enums
  lookupType n := types.find? fun t => withoutDot t.fullName = n
  lookupEnum n := enums.find? fun e => withoutDot e.fullName = n
  nestedInType n := types.any fun t => t.nested.any fun
    | .type u => withoutDot u.fullName = n
    | .enum e => withoutDot e.fullName = n
  lookupType_mem h := List.mem_of_find?_eq_some h

/-- In a list where no two elements have one key, the search by key finds each. -/
theorem find_of_nodup {α β : Type} [DecidableEq β] {f : α → β} {a : α} :
    ∀ {l : List α}, (l.map f).Nodup → a ∈ l → l.find? (fun b => f b = f a) = some a
  | b :: l, hn, ha => by
    rw [List.map_cons, List.nodup_cons] at hn
    rcases List.mem_cons.1 ha with rfl | ha
    · simp
    · have hne : f b ≠ f a := fun h => hn.1 (h ▸ List.mem_map_of_mem ha)
      rw [List.find?_cons_of_neg (by simpa using hne), find_of_nodup hn.2 ha]

theorem rootOf_findsFullNames {types : List ProtoType} {enums : List ProtoEnum}
    (h : ((types.map fun t => withoutDot t.fullName) ++
      enums.map fun e => withoutDot e.fullName).Nodup) : FindsFullNames (rootOf types enums) where
  type t ht := find_of_nodup (f := fun t : ProtoType => withoutDot t.fullName)
    (List.nodup_append.1 h).1 ht
  enum e he := by
    refine ⟨find_of_nodup (f := fun e : ProtoEnum => withoutDot e.fullName)
      (List.nodup_append.1 h).2.1 he, List.find?_eq_none.2 fun t ht heq => ?_⟩
    exact (List.nodup_append.1 h).2.2 _ (List.mem_map_of_mem ht) _ (List.mem_map_of_mem he)
      (by simpa using heq)

theorem rootOf_allResolved {types : List ProtoType} {enums : List ProtoEnum}
    (h : (types.all fun type => type.fields.values.all fun field => field.resolvedType.any fun n =>
      withoutDot n ≠ [] ∧ n ∈ types.map ProtoType.fullName ++ enums.map ProtoEnum.fullName) = true) :
    AllResolved (rootOf types enums) := by
  intro type ht field hf _
  have hp := List.all_eq_true.1 (List.all_eq_true.1 h type ht) field hf
  rcases hn : field.resolvedType with _ | n
  · simp [hn] at hp
  · rw [hn, Option.any_some, decide_eq_true_eq, List.mem_append, List.mem_map, List.mem_map] at hp
    exact ⟨n, rfl, hp⟩

def fieldOf (type fullName : String) : ProtoField :=
  ⟨js type, 1, none, false, some (js fullName), none⟩

def noComments : Comments := ⟨Map.empty, Map.empty⟩

end DiiaApp
