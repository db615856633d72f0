import DiiaApp.Proofs.SchemaPlaces

/-!
# The order of a search

The search meets types in the order of their paths. The calls in the history where a type is met are
those made at the paths before (`Meets.call_of_lt`, `Meets.earlier`). So a name is defined there
just where a call before expands it (`Meets.defined_iff`), and the name that a type is given where
it is met first is that of no type met before (`Meets.definitionName_first`).
-/

namespace DiiaApp

open Js

variable {root : ProtoRoot} {comments : Comments} {type : ProtoType}

/-- The fields of a message are looked at from the path on: those of the message that the search is
for, or of one that it expands. -/
inductive Looks (root : ProtoRoot) (comments : Comments) (type : ProtoType) :
    List ℕ → List JsString → ProtoType → GenState → Prop
  | own : Looks root comments type [] [] type initialState
  | inner {path : List ℕ} {visited : List JsString} {n : JsString} {st : GenState}
      {message : ProtoType} (hm : Meets root comments type path visited n st)
      (he : (typeCall root visited n st).ExpandsMessage root)
      (ht : root.lookupType n = some message) :
      Looks root comments type path (inside visited n) message (expansionStart root visited n st)

section Order

variable {path path' : List ℕ} {visited visited' : List JsString} {n n' : JsString}
  {st st' : GenState}

theorem meets_iff : Meets root comments type path visited n st ↔
    ∃ path₀ message st₀ before e after, Looks root comments type path₀ visited message st₀ ∧
      message.fields.entries = before ++ e :: after ∧ protoToJsonType e.2.type = none ∧
      path = path₀ ++ [before.length] ∧ n = resolvedTypeName message e.2 ∧
      st = afterFields root comments visited message before st₀ := by
  constructor
  · rintro (⟨h, hs⟩ | ⟨hm, he, ht, h, hs⟩)
    · exact ⟨_, _, _, _, _, _, .own, h, hs, rfl, rfl, rfl⟩
    · exact ⟨_, _, _, _, _, _, .inner hm he ht, h, hs, rfl, rfl, rfl⟩
  · rintro ⟨path₀, message, st₀, before, e, after, hl, h, hs, rfl, rfl, rfl⟩
    cases hl with
    | own => exact .own h hs
    | inner hm he ht => exact .inner hm he ht h hs

theorem Meets.ne_nil (h : Meets root comments type path visited n st) : path ≠ [] := by
  obtain ⟨path₀, _, _, before, _, _, _, _, _, rfl, _⟩ := meets_iff.1 h
  exact List.append_ne_nil_of_right_ne_nil _ (List.cons_ne_nil _ _)

theorem Looks.of_ne_nil {message : ProtoType}
    (h : Looks root comments type path visited message st) (hp : path ≠ []) :
    ∃ visited₀ n st₀, Meets root comments type path visited₀ n st₀ ∧
      (typeCall root visited₀ n st₀).ExpandsMessage root ∧ root.lookupType n = some message ∧
      visited = inside visited₀ n ∧ st = expansionStart root visited₀ n st₀ := by
  cases h with
  | own => exact absurd rfl hp
  | inner hm he ht => exact ⟨_, _, _, hm, he, ht, rfl, rfl⟩

theorem Looks.of_nil {message : ProtoType}
    (h : Looks root comments type [] visited message st) :
    visited = [] ∧ message = type ∧ st = initialState := by
  cases h with
  | own => exact ⟨rfl, rfl, rfl⟩
  | inner hm => exact absurd rfl hm.ne_nil

/-- From a path on the fields of one message are looked at, in one state. -/
theorem Looks.unique {message message' : ProtoType}
    (h : Looks root comments type path visited message st)
    (h' : Looks root comments type path visited' message' st') :
    visited = visited' ∧ message = message' ∧ st = st' := by
  induction path using List.reverseRecOn generalizing visited visited' message message' st st' with
  | nil =>
    obtain ⟨rfl, rfl, rfl⟩ := h.of_nil
    obtain ⟨rfl, rfl, rfl⟩ := h'.of_nil
    exact ⟨rfl, rfl, rfl⟩
  | append_singleton path i ih =>
    have hne : path ++ [i] ≠ [] := List.append_ne_nil_of_right_ne_nil _ (List.cons_ne_nil _ _)
    obtain ⟨v, n, s, hm, -, ht, rfl, rfl⟩ := h.of_ne_nil hne
    obtain ⟨v', n', s', hm', -, ht', rfl, rfl⟩ := h'.of_ne_nil hne
    obtain ⟨p, m, s₀, before, e, after, hl, hb, hs, hp, rfl, rfl⟩ := meets_iff.1 hm
    obtain ⟨p', m', s₀', before', e', after', hl', hb', hs', hp', rfl, rfl⟩ := meets_iff.1 hm'
    obtain ⟨rfl, hi⟩ := List.append_inj' hp rfl
    obtain ⟨rfl, hi'⟩ := List.append_inj' hp' rfl
    obtain ⟨rfl, rfl, rfl⟩ := ih hl hl'
    obtain ⟨rfl, rfl⟩ := split_unique (hb.symm.trans hb')
      (List.head_eq_of_cons_eq (hi.symm.trans hi'))
    exact ⟨rfl, Option.some.inj (ht.symm.trans ht'), rfl⟩

/-- Along a path one type is met, in one state. -/
theorem Meets.unique (h : Meets root comments type path visited n st)
    (h' : Meets root comments type path visited' n' st') :
    visited = visited' ∧ n = n' ∧ st = st' := by
  obtain ⟨p, m, s₀, before, e, after, hl, hb, hs, rfl, rfl, rfl⟩ := meets_iff.1 h
  obtain ⟨p', m', s₀', before', e', after', hl', hb', hs', hp, rfl, rfl⟩ := meets_iff.1 h'
  obtain ⟨rfl, hi⟩ := List.append_inj' hp rfl
  obtain ⟨rfl, rfl, rfl⟩ := hl.unique hl'
  obtain ⟨rfl, rfl⟩ := split_unique (hb.symm.trans hb') (List.head_eq_of_cons_eq hi)
  exact ⟨rfl, rfl, rfl⟩

/-- What is met at the beginnings of a path. -/
theorem Meets.of_append {rest : List ℕ} (h : Meets root comments type (path ++ rest) visited n st)
    (hrest : rest ≠ []) :
    ∃ visited₀ message st₀, Looks root comments type path visited₀ message st₀ := by
  induction rest using List.reverseRecOn generalizing visited n st with
  | nil => exact absurd rfl hrest
  | append_singleton rest i ih =>
    obtain ⟨p, m, s₀, before, e, after, hl, -, -, hp, -, -⟩ := meets_iff.1 h
    rw [← List.append_assoc] at hp
    obtain ⟨rfl, -⟩ := List.append_inj' hp rfl
    by_cases hr : rest = []
    · subst hr
      rw [List.append_nil] at hl
      exact ⟨_, _, _, hl⟩
    · obtain ⟨v, n, s, hm, -⟩ :=
        hl.of_ne_nil (List.append_ne_nil_of_right_ne_nil _ hr)
      exact ih hm hr

theorem calls_subset_afterFields (message : ProtoType) (fields : List (JsString × ProtoField)) :
    st.calls ⊆ (afterFields root comments visited message fields st).calls := by
  obtain ⟨cs, rs, hg⟩ := afterFields_grows root comments visited message fields st
  rw [hg.calls]
  exact List.subset_append_left _ _

/-- What is called for a field has been called after it. -/
theorem field_calls_subset {message : ProtoType} {before : List (JsString × ProtoField)}
    {e : JsString × ProtoField} (hs : protoToJsonType e.2.type = none)
    (after : List (JsString × ProtoField)) :
    (searchResolver root comments visited (resolvedTypeName message e.2)
      (afterFields root comments visited message before st)).2.calls ⊆
        (afterFields root comments visited message (before ++ e :: after) st).calls := by
  rw [afterFields_cons hs]
  exact calls_subset_afterFields message after

/-- What is called further on along a path is called where its beginning is met. -/
theorem Meets.calls_subset (htype : type ∈ root.types) {rest : List ℕ}
    (h : Meets root comments type path visited n st)
    (h' : Meets root comments type (path ++ rest) visited' n' st') :
    (searchResolver root comments visited' n' st').2.calls ⊆
      (searchResolver root comments visited n st).2.calls := by
  induction rest using List.reverseRecOn generalizing visited' n' st' with
  | nil =>
    rw [List.append_nil] at h'
    obtain ⟨rfl, rfl, rfl⟩ := h.unique h'
    exact List.Subset.refl _
  | append_singleton rest i ih =>
    obtain ⟨p, m, s₀, before, e, after, hl, hb, hs, hp, rfl, rfl⟩ := meets_iff.1 h'
    rw [← List.append_assoc] at hp
    obtain ⟨rfl, -⟩ := List.append_inj' hp rfl
    obtain ⟨v, n₁, s, hm, he, ht, rfl, rfl⟩ :=
      hl.of_ne_nil (List.append_ne_nil_of_left_ne_nil h.ne_nil _)
    refine List.Subset.trans ?_ (ih hm)
    rw [searchResolver_expands (hm.mem htype) he ht, hb]
    exact field_calls_subset hs after

theorem Meets.beginning {rest : List ℕ}
    (h : Meets root comments type (path ++ rest) visited n st) (hp : path ≠ []) :
    ∃ visited₀ n₀ st₀, Meets root comments type path visited₀ n₀ st₀ := by
  by_cases hr : rest = []
  · rw [hr, List.append_nil] at h
    exact ⟨_, _, _, h⟩
  · obtain ⟨v, m, s, hl⟩ := h.of_append hr
    obtain ⟨v₀, n₀, s₀, hm, -⟩ := hl.of_ne_nil hp
    exact ⟨v₀, n₀, s₀, hm⟩

theorem split_of_lt {α : Type} {before after before' after' : List α} {e : α}
    (h : before ++ e :: after = before' ++ after') (hi : before.length < before'.length) :
    ∃ mid, before' = before ++ e :: mid := by
  rcases List.append_eq_append_iff.1 h with ⟨_ | ⟨u, mid⟩, rfl, hr⟩ | ⟨mid, rfl, -⟩
  · simp at hi
  · obtain ⟨rfl, -⟩ := List.cons.inj hr
    exact ⟨mid, rfl⟩
  · rw [List.length_append] at hi
    omega

/-- What is called along a path from one of the first fields has been called after these. -/
theorem Looks.call_before (htype : type ∈ root.types) {message : ProtoType}
    {before after : List (JsString × ProtoField)} {i : ℕ} {rest : List ℕ}
    (h : Looks root comments type path visited message st)
    (hb : message.fields.entries = before ++ after) (hi : i < before.length)
    (hm : Meets root comments type (path ++ i :: rest) visited' n' st') :
    typeCall root visited' n' st' ∈
      (afterFields root comments visited message before st).calls := by
  have hpath : path ++ i :: rest = (path ++ [i]) ++ rest := by simp
  rw [hpath] at hm
  obtain ⟨v, n, s, hm₀⟩ :=
    hm.beginning (List.append_ne_nil_of_right_ne_nil path (List.cons_ne_nil i []))
  have hcall := hm₀.calls_subset htype hm (call_mem (hm.mem htype))
  obtain ⟨p, m, s₀, before₀, e, after₀, hl, hb₀, hs, hp, rfl, rfl⟩ := meets_iff.1 hm₀
  obtain ⟨rfl, hlen⟩ := List.append_inj' hp rfl
  obtain rfl := List.head_eq_of_cons_eq hlen
  obtain ⟨rfl, rfl, rfl⟩ := h.unique hl
  obtain ⟨mid, rfl⟩ := split_of_lt (hb₀.symm.trans hb) hi
  exact field_calls_subset hs mid hcall

/-- A call at a path before has been made. -/
theorem Meets.call_of_lt (htype : type ∈ root.types)
    (h' : Meets root comments type path' visited' n' st') :
    ∀ {path visited n st}, Meets root comments type path visited n st → path < path' →
      typeCall root visited n st ∈ st'.calls := by
  induction h' with
  | own h hs =>
    intro path visited n st hm hlt
    rcases lt_concat_iff.1 (show path < [] ++ [_] from hlt) with hlt | rfl | ⟨i, hi, rest, rfl⟩
    · exact absurd hlt (List.not_lt_nil _)
    · exact absurd rfl hm.ne_nil
    · exact Looks.own.call_before htype h hi hm
  | @inner path₀ v n₀ s message before e after hm₀ he ht h hs ih =>
    intro path visited n st hm hlt
    have hstart : (expansionStart root v n₀ s).calls ⊆ (afterFields root comments
        (inside v n₀) message before (expansionStart root v n₀ s)).calls :=
      calls_subset_afterFields message before
    rcases lt_concat_iff.1 hlt with hlt | rfl | ⟨i, hi, rest, rfl⟩
    · exact hstart (List.mem_append_left _ (ih hm hlt))
    · obtain ⟨rfl, rfl, rfl⟩ := hm₀.unique hm
      exact hstart (List.mem_append_right _ (List.mem_singleton_self _))
    · exact (Looks.inner hm₀ he ht).call_before htype h hi hm

/-- A call that has been made is one at a path before. -/
theorem Meets.earlier (htype : type ∈ root.types)
    (h : Meets root comments type path visited n st) : ∀ c ∈ st.calls, ∃ path' visited' st',
      Meets root comments type path' visited' c.typeName st' ∧
        typeCall root visited' c.typeName st' = c ∧ path' < path := by
  induction h with
  | own h hs =>
    intro c hc
    rcases calls_afterFields (callsFrom_own htype) _ _ h c hc with
      hc | ⟨i, hi, rest, v, s, hm, hcall⟩
    · simp [initialState] at hc
    · exact ⟨_, v, s, hm, hcall, by simpa using step_lt_concat [] rest hi⟩
  | @inner path visited n st message before e after hm he ht h hs ih =>
    intro c hc
    have hfrom : CallsFrom root comments type path (inside visited n) message
        (expansionStart root visited n st) :=
      fun _ _ _ h hs => (Meets.inner hm he ht h hs).calls htype
    rcases calls_afterFields hfrom _ _ h c hc with hc | ⟨i, hi, rest, v, s, hm', hcall⟩
    · rcases List.mem_append.1 hc with hc | hc
      · obtain ⟨path', v, s, hm', hcall, hlt⟩ := ih c hc
        exact ⟨path', v, s, hm', hcall, lt_concat_of_lt hlt _⟩
      · rw [List.mem_singleton.1 hc]
        exact ⟨path, visited, st, hm, rfl, lt_concat _ _⟩
    · refine ⟨_, v, s, hm', hcall, ?_⟩
      rw [List.append_assoc]
      exact step_lt_concat path rest hi

end Order

section States

variable {path path' : List ℕ} {visited visited' : List JsString} {n n' d : JsString}
  {st st' : GenState}

/-- The definitions are those of the names that calls expand. -/
def DefinedByCalls (root : ProtoRoot) (st : GenState) : Prop :=
  ∀ d, st.definitions.has d ↔ ∃ c ∈ st.calls, c.Expands root ∧ c.definitionName = d

theorem DefinedByCalls.grows {cs : List TypeCall} {refs : List JsString}
    (h : DefinedByCalls root st) (hg : Grows root comments st st' cs refs) :
    DefinedByCalls root st' := by
  intro d
  rw [hg.calls]
  constructor
  · intro hd
    obtain ⟨s, hs⟩ := Option.isSome_iff_exists.1 hd
    rcases hg.made hs with hs | ⟨⟨c, hc, he⟩, -⟩
    · obtain ⟨c, hc, he⟩ := (h d).1 (Option.isSome_of_eq_some hs)
      exact ⟨c, List.mem_append_left _ hc, he⟩
    · exact ⟨c, List.mem_append_right _ hc, he⟩
  · rintro ⟨c, hc, he, rfl⟩
    rcases List.mem_append.1 hc with hc | hc
    · obtain ⟨s, hs⟩ := Option.isSome_iff_exists.1 ((h c.definitionName).2 ⟨c, hc, he, rfl⟩)
      exact Option.isSome_of_eq_some (hg.kept hs)
    · obtain ⟨-, s, hs, -⟩ := hg.expanded hc he
      exact Option.isSome_of_eq_some hs

theorem DefinedByCalls.start (h : DefinedByCalls root st)
    (he : (typeCall root visited n st).Expands root) :
    DefinedByCalls root (expansionStart root visited n st) := by
  intro d
  have hcalls : (expansionStart root visited n st).calls
      = st.calls ++ [typeCall root visited n st] := rfl
  have hhas : (expansionStart root visited n st).definitions.has d ↔
      d = (typeCall root visited n st).definitionName ∨ st.definitions.has d := by
    rw [expansionStart, Map.has, Map.has]
    by_cases hd : d = (typeCall root visited n st).definitionName
    · simp [hd]
    · simp [Map.get_set_of_ne _ _ hd, hd]
  rw [hhas, h d, hcalls]
  constructor
  · rintro (rfl | ⟨c, hc, hd⟩)
    · exact ⟨_, List.mem_append_right _ (List.mem_singleton_self _), he, rfl⟩
    · exact ⟨c, List.mem_append_left _ hc, hd⟩
  · rintro ⟨c, hc, hce, hd⟩
    rcases List.mem_append.1 hc with hc | hc
    · exact .inr ⟨c, hc, hce, hd⟩
    · obtain rfl := List.mem_singleton.1 hc
      exact .inl hd.symm

theorem Meets.definedByCalls (h : Meets root comments type path visited n st) :
    DefinedByCalls root st := by
  have hfields : ∀ (v : List JsString) (message : ProtoType) (before : List (JsString × ProtoField))
      {s : GenState}, DefinedByCalls root s →
        DefinedByCalls root (afterFields root comments v message before s) := by
    intro v message before s hs
    obtain ⟨cs, rs, hg⟩ := afterFields_grows root comments v message before s
    exact hs.grows hg
  induction h with
  | own =>
    refine hfields _ _ _ fun d => ?_
    simp [initialState, Map.has]
  | inner _ he _ _ _ ih =>
    exact hfields _ _ _ (ih.start he.expands)

/-- The name of a type is defined just where a call before expands it. -/
theorem Meets.defined_iff (htype : type ∈ root.types)
    (h : Meets root comments type path visited n st) :
    (typeCall root visited n st).defined = true ↔ ∃ path' visited' n' st',
      Meets root comments type path' visited' n' st' ∧ path' < path ∧
        (typeCall root visited' n' st').Expands root ∧
        (typeCall root visited' n' st').definitionName
          = (typeCall root visited n st).definitionName := by
  refine (h.definedByCalls (typeCall root visited n st).definitionName).trans ⟨?_, ?_⟩
  · rintro ⟨c, hc, he, hd⟩
    obtain ⟨path', v, s, hm, hcall, hlt⟩ := h.earlier htype c hc
    exact ⟨path', v, _, s, hm, hlt, hcall.symm ▸ he, hcall.symm ▸ hd⟩
  · rintro ⟨path', v, n', s, hm, hlt, he, hd⟩
    exact ⟨_, h.call_of_lt htype hm hlt, he, hd⟩

/-- No two paths lead to calls that expand one name. -/
theorem Meets.path_eq (htype : type ∈ root.types)
    (h : Meets root comments type path visited n st)
    (h' : Meets root comments type path' visited' n' st')
    (he : (typeCall root visited n st).Expands root)
    (he' : (typeCall root visited' n' st').Expands root)
    (hd : (typeCall root visited n st).definitionName
      = (typeCall root visited' n' st').definitionName) : path = path' := by
  rcases lt_trichotomy path path' with hlt | heq | hlt
  · have hdef := (h'.defined_iff htype).2 ⟨path, _, _, _, h, hlt, he, hd⟩
    exact absurd (he'.1.symm.trans hdef) Bool.false_ne_true
  · exact heq
  · have hdef := (h.defined_iff htype).2 ⟨path', _, _, _, h', hlt, he', hd.symm⟩
    exact absurd (he.1.symm.trans hdef) Bool.false_ne_true

theorem Meets.ledTo (htype : type ∈ root.types) (h : Meets root comments type path visited n st) :
    LedTo root n := by
  have hfield : ∀ {message : ProtoType} {before after : List (JsString × ProtoField)}
      {e : JsString × ProtoField}, message ∈ root.types →
      message.fields.entries = before ++ e :: after → protoToJsonType e.2.type = none →
      LedTo root (resolvedTypeName message e.2) := fun hm h hs =>
    ⟨_, hm, _, List.mem_map_of_mem (h ▸ List.mem_append_right _ List.mem_cons_self), hs, rfl⟩
  cases h with
  | own h hs => exact hfield htype h hs
  | inner _ _ hl h hs => exact hfield (root.lookupType_mem hl) h hs

/-- What the search keeps holds where a type is met. -/
theorem Meets.keeps {I : GenState → Prop} (hk : Kept root I) (htype : type ∈ root.types)
    (h0 : I initialState) (h : Meets root comments type path visited n st) : I st := by
  have hfields : ∀ {v : List JsString} {message : ProtoType}
      {before after : List (JsString × ProtoField)}, message ∈ root.types →
      message.fields.entries = before ++ after → ∀ {s}, I s →
        I (afterFields root comments v message before s) := by
    intro v message before after hmessage hb s hs
    exact fieldsToSchema_keeps (resolveComplexType_keeps hk _) hmessage
      (hb ▸ List.subset_append_left _ _) hs
  induction h with
  | own h hs => exact hfields htype h h0
  | inner hm he ht h hs ih =>
    exact hfields (root.lookupType_mem ht) h (hk.definitions (hk.met (hm.ledTo htype) ih))

/-- The names are those of the types of the calls, the qualified one for a nested type. -/
structure NamedByCalls (root : ProtoRoot) (st : GenState) : Prop where
  called : ∀ n d, st.definitionNames.get n = some d →
    ∃ c ∈ st.calls, c.typeName = n ∧ c.definitionName = d
  nested : ∀ n d, st.definitionNames.get n = some d → root.nestedInType n = true →
    d = qualifiedName n

theorem getDefinitionName_nested {names : Map JsString JsString} {n : JsString}
    (h : ∀ d, names.get n = some d → d = qualifiedName n) :
    (getDefinitionName n (shortNameOf n) names true).1 = qualifiedName n := by
  unfold getDefinitionName
  rcases hg : (names.get n).filter (· ≠ []) with _ | d
  · rfl
  · exact h d (Option.filter_eq_some_iff.1 hg).1

theorem getDefinitionName_get_of_ne {names : Map JsString JsString} {n m : JsString} {nested : Bool}
    (h : m ≠ n) : (getDefinitionName n (shortNameOf n) names nested).2.get m = names.get m := by
  unfold getDefinitionName
  rcases (names.get n).filter (· ≠ []) with _ | d
  · exact Map.get_set_of_ne _ _ h
  · rfl

theorem namedByCalls_kept : Kept root (NamedByCalls root) := by
  refine kept_of_met (fun {visited n st} _ hi => ⟨fun m d hm => ?_, fun m d hm hnested => ?_⟩)
    fun hi => ⟨hi.called, hi.nested⟩
  · rcases eq_or_ne m n with rfl | hne
    · refine ⟨_, List.mem_append_right _ (List.mem_singleton_self _), rfl, ?_⟩
      exact Option.some.inj (getDefinitionName_get.symm.trans hm)
    · obtain ⟨c, hc, h⟩ := hi.called m d ((getDefinitionName_get_of_ne hne).symm.trans hm)
      exact ⟨c, List.mem_append_left _ hc, h⟩
  · rcases eq_or_ne m n with rfl | hne
    · rw [← Option.some.inj (getDefinitionName_get.symm.trans hm), hnested]
      exact getDefinitionName_nested fun d hd => hi.nested m d hd hnested
    · exact hi.nested m d ((getDefinitionName_get_of_ne hne).symm.trans hm) hnested

theorem Meets.namedByCalls (htype : type ∈ root.types)
    (h : Meets root comments type path visited n st) : NamedByCalls root st :=
  h.keeps namedByCalls_kept htype ⟨by simp [initialState], by simp [initialState]⟩

theorem Meets.definitionName_nested (htype : type ∈ root.types)
    (h : Meets root comments type path visited n st) (hn : root.nestedInType n = true) :
    (typeCall root visited n st).definitionName = qualifiedName n := by
  have hnames := (h.namedByCalls htype).nested n
  show (getDefinitionName n (shortNameOf n) st.definitionNames (root.nestedInType n)).1 = _
  rw [hn]
  exact getDefinitionName_nested fun d hd => hnames d hd hn

/-- Where a type is met first it is given its short name, if that is the name of no type that was
met before, and its full one otherwise. -/
theorem Meets.definitionName_first (htype : type ∈ root.types)
    (h : Meets root comments type path visited n st) (hn : root.nestedInType n = false)
    (hfirst : ∀ path' visited' st', Meets root comments type path' visited' n st' →
      ¬ path' < path) :
    (∃ path' visited' m st', Meets root comments type path' visited' m st' ∧ path' < path ∧
        (typeCall root visited' m st').definitionName = shortNameOf n) ∧
        (typeCall root visited n st).definitionName = n ∨
      (¬ ∃ path' visited' m st', Meets root comments type path' visited' m st' ∧ path' < path ∧
        (typeCall root visited' m st').definitionName = shortNameOf n) ∧
        (typeCall root visited n st).definitionName = shortNameOf n := by
  have hcalls := (h.namedByCalls htype).called
  have hnamed : Named st := h.keeps named_kept htype
    ⟨by simp [initialState], by simp [initialState]⟩
  have hnone : st.definitionNames.get n = none := by
    rw [Option.eq_none_iff_forall_ne_some]
    intro d hd
    obtain ⟨c, hc, rfl, -⟩ := hcalls n d hd
    obtain ⟨path', v, s, hm, -, hlt⟩ := h.earlier htype c hc
    exact hfirst path' v s hm hlt
  have hany : (st.definitionNames.entries.any fun e => e.2 = shortNameOf n ∧ e.1 ≠ n) = true ↔
      ∃ path' visited' m st', Meets root comments type path' visited' m st' ∧ path' < path ∧
        (typeCall root visited' m st').definitionName = shortNameOf n := by
    rw [List.any_eq_true]
    constructor
    · rintro ⟨⟨m, d⟩, he, hsame⟩
      obtain ⟨rfl, -⟩ := of_decide_eq_true hsame
      obtain ⟨c, hc, rfl, hd⟩ := hcalls m _ (Map.mem_entries.1 he)
      obtain ⟨path', v, s, hm, hcall, hlt⟩ := h.earlier htype c hc
      exact ⟨path', v, _, s, hm, hlt, hcall.symm ▸ hd⟩
    · rintro ⟨path', v, m, s, hm, hlt, hd⟩
      have hget := hnamed.2 _ (h.call_of_lt htype hm hlt)
      have hne : m ≠ n := fun heq => hfirst path' v s (heq ▸ hm) hlt
      exact ⟨(m, shortNameOf n), Map.mem_entries.2 (hd ▸ hget), decide_eq_true ⟨rfl, hne⟩⟩
  have hname : (typeCall root visited n st).definitionName =
      if (st.definitionNames.entries.any fun e => e.2 = shortNameOf n ∧ e.1 ≠ n) = true then n
      else shortNameOf n := by
    show (getDefinitionName n (shortNameOf n) st.definitionNames (root.nestedInType n)).1 = _
    rw [getDefinitionName, hnone, hn]
    rfl
  rw [← hany, hname]
  split_ifs with hc
  · exact .inl ⟨hc, rfl⟩
  · exact .inr ⟨hc, rfl⟩

end States

end DiiaApp
