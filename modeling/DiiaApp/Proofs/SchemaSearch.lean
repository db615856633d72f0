import DiiaApp.JsonSchemaGenerator
import Mathlib.Logic.Relation

/-!
# What a search for definitions leaves

A part of the search adds definitions and leaves those before it alone (`Grows`): each new one is
made by a call that expands its type, each reference is that of a call, and each new definition can
be reached from what the part returns.
-/

namespace DiiaApp

open Js

namespace TypeCall

variable (root : ProtoRoot) (c : TypeCall)

/-- The type is a message or an enum of the root. -/
def Found : Prop := (root.lookupType c.typeName).isSome ∨ (root.lookupEnum c.typeName).isSome

/-- The call makes the definition of its name. -/
def Expands : Prop :=
  c.defined = false ∧ c.definitionName ∉ inheritedNames ∧ c.visited = false ∧ c.Found root

/-- The call refers to its name though there is no definition of it. -/
def Stops : Prop := c.defined = false ∧ (c.definitionName ∈ inheritedNames ∨ c.visited = true)

/-- The call refers to its name. -/
def Refers : Prop := c.defined = true ∨ c.Stops ∨ c.Expands root

/-- The schema is the one of the call's type, a message with all its fields or an enum. -/
def Describes (comments : Comments) (s : Schema) : Prop :=
  (∃ type properties, root.lookupType c.typeName = some type ∧
    properties.map Prod.fst = type.fields.keys ∧
    s = messageSchema comments type c.typeName c.definitionName properties) ∨
  root.lookupType c.typeName = none ∧ ∃ e, root.lookupEnum c.typeName = some e ∧
    s = enumSchema comments e c.typeName c.definitionName

end TypeCall

theorem refs_addFieldDescription (comments : Comments) (s : Schema) (name parent : JsString) :
    (addFieldDescription comments s name parent).refs = s.refs := by
  unfold addFieldDescription
  split
  · cases s <;> simp [Schema.withDescription, Schema.refs]
  · rfl

theorem refs_protoToJsonType {type : JsString} {s : Schema} (h : protoToJsonType type = some s) :
    s.refs = [] := by
  unfold protoToJsonType at h
  split_ifs at h <;> simp [← Option.some.inj h, Schema.refs]

theorem refs_googleWellKnownTypes (typeName : JsString) :
    ((googleWellKnownTypes typeName).getD .plainObject).refs = [] := by
  rcases hf : googleWellKnownTypes typeName with _ | s
  · simp [Schema.plainObject, Schema.refs, Schema.refsAll]
  · have hall : ∀ e ∈ googleTypes, e.2.refs = [] := by
      simp [googleTypes, Schema.refs, Schema.refsAll, Schema.plainObject]
    obtain ⟨e, he, heq⟩ := List.mem_map.1 (Map.mem_of_find hf)
    rw [Option.getD_some, ← (Prod.mk.inj heq).2]
    exact hall e he

/-- The name `d` is reached from `start`, following definitions. -/
def Reaches (definitions : Definitions) (start : List JsString) (d : JsString) : Prop :=
  ∃ r ∈ start, Relation.ReflTransGen
    (fun a b => ∃ s, definitions.get a = some s ∧ b ∈ s.refs) r d

/-- From `st` to `st'` the calls `cs` are made, and `refs` are the references that the part of the
search returns. -/
structure Grows (root : ProtoRoot) (comments : Comments) (st st' : GenState) (cs : List TypeCall)
    (refs : List JsString) : Prop where
  calls : st'.calls = st.calls ++ cs
  kept : ∀ {d s}, st.definitions.get d = some s → st'.definitions.get d = some s
  made : ∀ {d s}, st'.definitions.get d = some s → st.definitions.get d = some s ∨
    (∃ c ∈ cs, c.Expands root ∧ c.definitionName = d) ∧
      ∀ r ∈ s.refs, ∃ c ∈ cs, c.Refers root ∧ c.definitionName = r
  expanded : ∀ {c}, c ∈ cs → c.Expands root → st.definitions.get c.definitionName = none ∧
    ∃ s, st'.definitions.get c.definitionName = some s ∧ c.Describes root comments s
  once : cs.Pairwise fun c c' => c.Expands root → c'.Expands root →
    c.definitionName ≠ c'.definitionName
  defined : ∀ {c}, c ∈ cs → c.defined = true → (st'.definitions.get c.definitionName).isSome
  referred : ∀ {r}, r ∈ refs → ∃ c ∈ cs, c.Refers root ∧ c.definitionName = r
  refers : ∀ {c}, c ∈ cs → c.Refers root → c.definitionName ∈ refs ∨
    ∃ d s, st'.definitions.get d = some s ∧ c.definitionName ∈ s.refs
  reached : ∀ {d s}, st'.definitions.get d = some s → st.definitions.get d = none →
    Reaches st'.definitions refs d

variable {root : ProtoRoot} {comments : Comments}

theorem Reaches.mono {defs defs' : Definitions} {start start' : List JsString} {d : JsString}
    (hd : ∀ {a s}, defs.get a = some s → s.refs ≠ [] → ∃ s', defs'.get a = some s' ∧
      s.refs ⊆ s'.refs)
    (hs : start ⊆ start') (h : Reaches defs start d) : Reaches defs' start' d := by
  obtain ⟨r, hr, hp⟩ := h
  refine ⟨r, hs hr, Relation.ReflTransGen.mono ?_ _ _ hp⟩
  rintro a b ⟨s, ha, hb⟩
  obtain ⟨s', ha', hsub⟩ := hd ha (List.ne_nil_of_mem hb)
  exact ⟨s', ha', hsub hb⟩

/-- Setting a definition that refers to nothing takes no reference away. -/
theorem refs_set {defs : Definitions} {d : JsString} (s : Schema) {s₀ : Schema}
    (hd : defs.get d = some s₀) (hs : s₀.refs = []) {a : JsString} {s' : Schema}
    (ha : defs.get a = some s') (hne : s'.refs ≠ []) :
    ∃ s'', (defs.set d s).get a = some s'' ∧ s'.refs ⊆ s''.refs := by
  by_cases had : a = d
  · rw [had, hd, Option.some_inj] at ha
    exact absurd (ha ▸ hs) hne
  · exact ⟨s', (Map.get_set_of_ne _ _ had).trans ha, List.Subset.refl _⟩

theorem Grows.refl (st : GenState) : Grows root comments st st [] [] where
  calls := (List.append_nil _).symm
  kept h := h
  made h := .inl h
  expanded h := absurd h List.not_mem_nil
  once := List.Pairwise.nil
  defined h := absurd h List.not_mem_nil
  referred h := absurd h List.not_mem_nil
  refers h := absurd h List.not_mem_nil
  reached h hn := absurd (hn.symm.trans h) (Option.some_ne_none _).symm

theorem Grows.trans {st st' st'' : GenState} {cs cs' : List TypeCall} {rs rs' : List JsString}
    (h : Grows root comments st st' cs rs) (h' : Grows root comments st' st'' cs' rs') :
    Grows root comments st st'' (cs ++ cs') (rs ++ rs') where
  calls := by rw [h'.calls, h.calls, List.append_assoc]
  kept hd := h'.kept (h.kept hd)
  made {d s} hd := by
    rcases h'.made hd with hd | ⟨⟨c, hc, he⟩, hr⟩
    · rcases h.made hd with hd | ⟨⟨c, hc, he⟩, hr⟩
      · exact .inl hd
      · refine .inr ⟨⟨c, List.mem_append_left _ hc, he⟩, fun r hrs => ?_⟩
        obtain ⟨c', hc', hc''⟩ := hr r hrs
        exact ⟨c', List.mem_append_left _ hc', hc''⟩
    · refine .inr ⟨⟨c, List.mem_append_right _ hc, he⟩, fun r hrs => ?_⟩
      obtain ⟨c', hc', hc''⟩ := hr r hrs
      exact ⟨c', List.mem_append_right _ hc', hc''⟩
  expanded {c} hc he := by
    rcases List.mem_append.1 hc with hc | hc
    · obtain ⟨hn, s, hs, hd⟩ := h.expanded hc he
      exact ⟨hn, s, h'.kept hs, hd⟩
    · obtain ⟨hn, hs⟩ := h'.expanded hc he
      refine ⟨?_, hs⟩
      rcases hg : st.definitions.get c.definitionName with _ | s
      · rfl
      · exact absurd (hn.symm.trans (h.kept hg)) (Option.some_ne_none _).symm
  once := by
    refine List.pairwise_append.2 ⟨h.once, h'.once, fun c hc c' hc' he he' heq => ?_⟩
    obtain ⟨-, s, hs, -⟩ := h.expanded hc he
    exact Option.some_ne_none _ (hs.symm.trans (heq ▸ (h'.expanded hc' he').1))
  defined {c} hc hd := by
    rcases List.mem_append.1 hc with hc | hc
    · obtain ⟨s, hs⟩ := Option.isSome_iff_exists.1 (h.defined hc hd)
      rw [h'.kept hs, Option.isSome_some]
    · exact h'.defined hc hd
  referred hr := by
    rcases List.mem_append.1 hr with hr | hr
    · obtain ⟨c, hc, hc'⟩ := h.referred hr
      exact ⟨c, List.mem_append_left _ hc, hc'⟩
    · obtain ⟨c, hc, hc'⟩ := h'.referred hr
      exact ⟨c, List.mem_append_right _ hc, hc'⟩
  refers hc hr := by
    rcases List.mem_append.1 hc with hc | hc
    · rcases h.refers hc hr with hm | ⟨d, s, hs, hm⟩
      · exact .inl (List.mem_append_left _ hm)
      · exact .inr ⟨d, s, h'.kept hs, hm⟩
    · exact (h'.refers hc hr).imp_left (List.mem_append_right _)
  reached {d s} hd hn := by
    rcases hg : st'.definitions.get d with _ | s'
    · exact (h'.reached hd hg).mono (fun ha _ => ⟨_, ha, List.Subset.refl _⟩)
        (List.subset_append_right _ _)
    · exact (h.reached hg hn).mono (fun ha _ => ⟨_, h'.kept ha, List.Subset.refl _⟩)
        (List.subset_append_left _ _)

section Step

variable {visited : List JsString} {typeName : JsString} {st : GenState}

theorem not_expands_of_refers {c : TypeCall} (h : c.defined = true ∨ c.Stops) :
    ¬ c.Expands root := by
  rintro ⟨hd, hi, hv, -⟩
  rcases h with h | ⟨-, h | h⟩
  · simp [hd] at h
  · exact hi h
  · simp [hv] at h

/-- A call that finds its name defined or stops refers to it. -/
theorem grows_refer (h : (typeCall root visited typeName st).defined = true ∨
      (typeCall root visited typeName st).Stops) :
    Grows root comments st (met root visited typeName st) [typeCall root visited typeName st]
      [(typeCall root visited typeName st).definitionName] where
  calls := rfl
  kept hd := hd
  made hd := .inl hd
  expanded hc he := absurd (List.mem_singleton.1 hc ▸ he) (not_expands_of_refers h)
  once := List.pairwise_singleton _ _
  defined hc hd := by
    obtain rfl := List.mem_singleton.1 hc
    exact hd
  referred hr := ⟨_, List.mem_singleton_self _, h.imp_right .inl, (List.mem_singleton.1 hr).symm⟩
  refers hc _ := .inl (by rw [List.mem_singleton.1 hc]; exact List.mem_singleton_self _)
  reached hd hn := absurd (hn.symm.trans hd) (Option.some_ne_none _).symm

/-- A call of a type that is not found refers to nothing. -/
theorem grows_unfound (h : ¬ (typeCall root visited typeName st).Refers root) :
    Grows root comments st (met root visited typeName st) [typeCall root visited typeName st] []
    where
  calls := rfl
  kept hd := hd
  made hd := .inl hd
  expanded hc he := absurd (.inr (.inr (List.mem_singleton.1 hc ▸ he))) h
  once := List.pairwise_singleton _ _
  defined hc hd := absurd (.inl (List.mem_singleton.1 hc ▸ hd)) h
  referred hr := absurd hr List.not_mem_nil
  refers hc hr := absurd (List.mem_singleton.1 hc ▸ hr) h
  reached hd hn := absurd (hn.symm.trans hd) (Option.some_ne_none _).symm

/-- A call that expands its type defines its name by what is found in it, after `cs`. -/
theorem grows_expand (names : Map JsString JsString) {st' : GenState} {cs : List TypeCall}
    {rs : List JsString} {s : Schema} (he : (typeCall root visited typeName st).Expands root)
    (hg : Grows root comments { met root visited typeName st with
        definitions := st.definitions.set (typeCall root visited typeName st).definitionName
          .plainObject } st' cs rs)
    (hs : (typeCall root visited typeName st).Describes root comments s) (hr : s.refs = rs) :
    Grows root comments st { st' with
        definitionNames := names
        definitions := st'.definitions.set (typeCall root visited typeName st).definitionName s }
      (typeCall root visited typeName st :: cs)
      [(typeCall root visited typeName st).definitionName] := by
  set c := typeCall root visited typeName st with hc
  set d := c.definitionName with hd
  have hnew : st.definitions.get d = none := by
    rw [← Option.not_isSome_iff_eq_none]
    exact fun h => Bool.false_ne_true (he.1.symm.trans h)
  have hplain : st'.definitions.get d = some .plainObject := hg.kept (Map.get_set_self ..)
  have hset : ∀ {e}, e ≠ d → (st'.definitions.set d s).get e = st'.definitions.get e :=
    fun h => Map.get_set_of_ne _ _ h
  have hmono : ∀ {a s'}, st'.definitions.get a = some s' → s'.refs ≠ [] →
      ∃ s'', (st'.definitions.set d s).get a = some s'' ∧ s'.refs ⊆ s''.refs :=
    refs_set s hplain rfl
  exact {
    calls := by
      rw [hg.calls]
      exact List.append_assoc _ _ _
    kept := fun {e s'} h => by
      have hne : e ≠ d := fun h' => Option.some_ne_none _ (h.symm.trans (h' ▸ hnew))
      exact (hset hne).trans (hg.kept ((Map.get_set_of_ne _ _ hne).trans h))
    made := fun {e s'} h => by
      rcases eq_or_ne e d with rfl | hne
      · rw [Map.get_set_self, Option.some_inj] at h
        refine .inr ⟨⟨c, List.mem_cons_self .., he, rfl⟩, fun r hrs => ?_⟩
        obtain ⟨c', hc', hc''⟩ := hg.referred (hr ▸ h ▸ hrs)
        exact ⟨c', List.mem_cons_of_mem _ hc', hc''⟩
      · rcases hg.made ((hset hne).symm.trans h) with h' | ⟨⟨c', hc', hc''⟩, hr'⟩
        · exact .inl ((Map.get_set_of_ne _ _ hne).symm.trans h')
        · refine .inr ⟨⟨c', List.mem_cons_of_mem _ hc', hc''⟩, fun r hrs => ?_⟩
          obtain ⟨c', hc', hc''⟩ := hr' r hrs
          exact ⟨c', List.mem_cons_of_mem _ hc', hc''⟩
    expanded := fun {c'} hc' he' => by
      rcases List.mem_cons.1 hc' with rfl | hc'
      · exact ⟨hnew, s, Map.get_set_self .., hs⟩
      · obtain ⟨hn, s', hs', hd'⟩ := hg.expanded hc' he'
        have hne : c'.definitionName ≠ d := fun h => by
          rw [h, Map.get_set_self] at hn
          exact Option.some_ne_none _ hn
        exact ⟨(Map.get_set_of_ne _ _ hne).symm.trans hn, s', (hset hne).trans hs', hd'⟩
    once := by
      refine List.pairwise_cons.2 ⟨fun c' hc' _ he' heq => ?_, hg.once⟩
      have hn := (hg.expanded hc' he').1
      rw [← heq, Map.get_set_self] at hn
      exact Option.some_ne_none _ hn
    defined := fun {c'} hc' hd' => by
      rcases List.mem_cons.1 hc' with rfl | hc'
      · exact absurd (he.1.symm.trans hd') Bool.false_ne_true
      · obtain ⟨s', hs'⟩ := Option.isSome_iff_exists.1 (hg.defined hc' hd')
        rcases eq_or_ne c'.definitionName d with h | hne
        · rw [h, Map.get_set_self, Option.isSome_some]
        · rw [hset hne, hs', Option.isSome_some]
    referred := fun hrs =>
      ⟨c, List.mem_cons_self .., .inr (.inr he), (List.mem_singleton.1 hrs).symm⟩
    refers := fun {c'} hc' hr' => by
      rcases List.mem_cons.1 hc' with rfl | hc'
      · exact .inl (List.mem_singleton_self _)
      · refine .inr ?_
        rcases hg.refers hc' hr' with hm | ⟨e, s', hs', hm⟩
        · exact ⟨d, s, Map.get_set_self .., hr.symm ▸ hm⟩
        · obtain ⟨s'', hs'', hsub⟩ := hmono hs' (List.ne_nil_of_mem hm)
          exact ⟨e, s'', hs'', hsub hm⟩
    reached := fun {e s'} h hn => by
      rcases eq_or_ne e d with rfl | hne
      · exact ⟨d, List.mem_singleton_self _, .refl⟩
      · obtain ⟨r, hrs, hp⟩ := (hg.reached ((hset hne).symm.trans h)
          ((Map.get_set_of_ne _ _ hne).trans hn)).mono hmono (List.Subset.refl _)
        exact ⟨d, List.mem_singleton_self _,
          .head ⟨s, Map.get_set_self .., hr.symm ▸ hrs⟩ hp⟩ }

end Step

/-- Every call of the resolver, and all it leads to, is a growth. -/
def Growing (root : ProtoRoot) (comments : Comments) (resolve : Resolver) : Prop :=
  ∀ visited typeName st, ∃ cs, Grows root comments st (resolve visited typeName st).2 cs
    (resolve visited typeName st).1.refs

variable {resolve : Resolver}

theorem typeSchema_grows (h : Growing root comments resolve) (visited : List JsString)
    (parent : ProtoType) (field : ProtoField) (st : GenState) :
    ∃ cs, Grows root comments st (typeSchema resolve visited parent field st).2 cs
      (typeSchema resolve visited parent field st).1.refs := by
  unfold typeSchema
  split
  · next s hs =>
    refine ⟨[], ?_⟩
    rw [refs_protoToJsonType hs]
    exact .refl st
  · exact h _ _ st

theorem refs_fieldToSchema (visited : List JsString) (parent : ProtoType) (name : JsString)
    (field : ProtoField) (st : GenState) :
    (fieldToSchema comments resolve visited parent name field st).1.refs
      = (typeSchema resolve visited parent field st).1.refs := by
  unfold fieldToSchema mapFieldToSchema
  split_ifs
  · rw [refs_addFieldDescription, Schema.refs]
  · rw [Schema.refs, refs_addFieldDescription]
  · rw [refs_addFieldDescription]

theorem state_fieldToSchema (visited : List JsString) (parent : ProtoType) (name : JsString)
    (field : ProtoField) (st : GenState) :
    (fieldToSchema comments resolve visited parent name field st).2
      = (typeSchema resolve visited parent field st).2 := by
  unfold fieldToSchema mapFieldToSchema
  split_ifs <;> rfl

theorem fieldsToSchema_grows (h : Growing root comments resolve) (visited : List JsString)
    (parent : ProtoType) : ∀ (fields : List (JsString × ProtoField)) (st : GenState),
    ∃ cs, Grows root comments st (fieldsToSchema comments resolve visited parent fields st).2 cs
      (Schema.refsAll (fieldsToSchema comments resolve visited parent fields st).1)
  | [], st => ⟨[], .refl st⟩
  | e :: fields, st => by
    obtain ⟨cs, hcs⟩ := typeSchema_grows h visited parent e.2 st
    obtain ⟨cs', hcs'⟩ := fieldsToSchema_grows h visited parent fields
      (typeSchema resolve visited parent e.2 st).2
    refine ⟨cs ++ cs', ?_⟩
    rw [fieldsToSchema]
    dsimp only
    rw [Schema.refsAll, refs_fieldToSchema, state_fieldToSchema]
    exact hcs.trans hcs'

theorem names_fieldsToSchema (visited : List JsString) (parent : ProtoType) :
    ∀ (fields : List (JsString × ProtoField)) (st : GenState),
      (fieldsToSchema comments resolve visited parent fields st).1.map Prod.fst
        = fields.map Prod.fst
  | [], _ => rfl
  | e :: fields, st => by
    rw [fieldsToSchema, List.map_cons, List.map_cons, names_fieldsToSchema visited parent fields]

theorem resolveStep_growing (h : Growing root comments resolve) :
    Growing root comments (resolveStep root comments resolve) := by
  intro visited typeName st
  unfold resolveStep
  dsimp only
  by_cases hd : (typeCall root visited typeName st).defined = true
  · rw [if_pos (.inl hd)]
    exact ⟨_, grows_refer (.inl hd)⟩
  by_cases hi : (typeCall root visited typeName st).definitionName ∈ inheritedNames
  · rw [if_pos (.inr hi)]
    exact ⟨_, grows_refer (.inr ⟨Bool.not_eq_true _ ▸ hd, .inl hi⟩)⟩
  rw [if_neg (not_or.2 ⟨hd, hi⟩)]
  by_cases hv : (typeCall root visited typeName st).visited = true
  · rw [if_pos hv]
    exact ⟨_, grows_refer (.inr ⟨Bool.not_eq_true _ ▸ hd, .inr hv⟩)⟩
  rw [if_neg hv]
  have he : (typeCall root visited typeName st).Found root →
      (typeCall root visited typeName st).Expands root :=
    fun hf => ⟨Bool.not_eq_true _ ▸ hd, hi, Bool.not_eq_true _ ▸ hv, hf⟩
  rcases ht : root.lookupType typeName with _ | type
  · dsimp only
    unfold tryResolveEnumType
    rcases hen : root.lookupEnum typeName with _ | e
    · refine ⟨[typeCall root visited typeName st], ?_⟩
      dsimp only
      rw [refs_googleWellKnownTypes]
      refine grows_unfound ?_
      rintro (h | ⟨-, h | h⟩ | ⟨-, -, -, h | h⟩)
      · exact hd h
      · exact hi h
      · exact hv h
      · exact Bool.false_ne_true ((congrArg Option.isSome ht).symm.trans h)
      · exact Bool.false_ne_true ((congrArg Option.isSome hen).symm.trans h)
    · refine ⟨[typeCall root visited typeName st], ?_⟩
      have hs : (typeCall root visited typeName st).Describes root comments
          (enumSchema comments e typeName (typeCall root visited typeName st).definitionName) :=
        .inr ⟨ht, e, hen, rfl⟩
      have hg := grows_expand ((met root visited typeName st).definitionNames.set typeName
        (typeCall root visited typeName st).definitionName)
        (he (.inr (Option.isSome_iff_exists.2 ⟨e, hen⟩))) (.refl _) hs rfl
      rw [Map.set_set] at hg
      exact hg
  · dsimp only
    unfold resolveMessageType
    obtain ⟨cs, hcs⟩ := fieldsToSchema_grows h (shortNameOf typeName :: typeName :: visited) type
      type.fields.entries { met root visited typeName st with
        definitions := st.definitions.set (typeCall root visited typeName st).definitionName
          .plainObject }
    exact ⟨_, grows_expand _ (he (.inl (Option.isSome_iff_exists.2 ⟨type, ht⟩))) hcs
      (.inl ⟨type, _, ht, names_fieldsToSchema .., rfl⟩) rfl⟩

theorem resolveComplexType_growing :
    ∀ fuel, Growing root comments (resolveComplexType root comments fuel)
  | 0 => fun _ _ st => ⟨[], .refl st⟩
  | fuel + 1 => resolveStep_growing (resolveComplexType_growing fuel)

end DiiaApp
