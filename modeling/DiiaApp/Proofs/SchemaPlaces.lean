import DiiaApp.Proofs.RequiredFields
import DiiaApp.Proofs.SourceComments
import DiiaApp.Proofs.TypeLayout

/-!
# Where the search meets types

A type is met at a field of the message that the search is for, or of one that it expands (`Meets`),
with the names of the messages around. Each call of the search is made where its type is met
(`madeFrom`), and a message that is expanded there is left as a definition (`Meets.definition`).
-/

namespace DiiaApp

open Js

variable (root : ProtoRoot) (comments : Comments)

def searchResolver : Resolver := resolveComplexType root comments (searchDepth root)

/-- The names around the fields of a type. -/
def inside (visited : List JsString) (typeName : JsString) : List JsString :=
  shortNameOf typeName :: typeName :: visited

/-- The state in which the fields of a message are looked at for its definition. -/
def expansionStart (visited : List JsString) (typeName : JsString) (st : GenState) : GenState :=
  { met root visited typeName st with
    definitions := st.definitions.set (typeCall root visited typeName st).definitionName
      .plainObject }

/-- The state after some fields of a message. -/
def afterFields (visited : List JsString) (message : ProtoType)
    (fields : List (JsString × ProtoField)) (st : GenState) : GenState :=
  (fieldsToSchema comments (searchResolver root comments) visited message fields st).2

/-- In the search for the schema of `type` the type `typeName` is met in the state `st`, with the
names `visited` around, at the end of a path of fields, each given by its position. -/
inductive Meets (type : ProtoType) : List ℕ → List JsString → JsString → GenState → Prop
  | own {before : List (JsString × ProtoField)} {e : JsString × ProtoField}
      {after : List (JsString × ProtoField)} (h : type.fields.entries = before ++ e :: after)
      (hs : protoToJsonType e.2.type = none) :
      Meets type [before.length] [] (resolvedTypeName type e.2)
        (afterFields root comments [] type before initialState)
  | inner {path : List ℕ} {visited : List JsString} {typeName : JsString} {st : GenState}
      {message : ProtoType} {before : List (JsString × ProtoField)} {e : JsString × ProtoField}
      {after : List (JsString × ProtoField)} (hm : Meets type path visited typeName st)
      (he : (typeCall root visited typeName st).ExpandsMessage root)
      (ht : root.lookupType typeName = some message)
      (h : message.fields.entries = before ++ e :: after) (hs : protoToJsonType e.2.type = none) :
      Meets type (path ++ [before.length]) (inside visited typeName) (resolvedTypeName message e.2)
        (afterFields root comments (inside visited typeName) message before
          (expansionStart root visited typeName st))

variable {root comments}

theorem mem_fieldTypeNames {message : ProtoType} (hm : message ∈ root.types)
    {before after : List (JsString × ProtoField)} {e : JsString × ProtoField}
    (h : message.fields.entries = before ++ e :: after) :
    resolvedTypeName message e.2 ∈ fieldTypeNames root :=
  resolvedTypeName_mem hm (h ▸ List.mem_append_right _ (List.mem_cons_self ..))

theorem Meets.mem {type : ProtoType} (ht : type ∈ root.types) {path : List ℕ}
    {visited : List JsString} {typeName : JsString} {st : GenState} :
    Meets root comments type path visited typeName st → typeName ∈ fieldTypeNames root
  | .own h _ => mem_fieldTypeNames ht h
  | .inner _ _ hl h _ => mem_fieldTypeNames (root.lookupType_mem hl) h

/-- The calls are those of the recursion without an end. -/
theorem searchResolver_eq {typeName : JsString} (hn : typeName ∈ fieldTypeNames root)
    (visited : List JsString) (st : GenState) :
    searchResolver root comments visited typeName st
      = resolveStep root comments (searchResolver root comments) visited typeName st := by
  have hlt : namesLeft root visited < searchDepth root :=
    Nat.lt_succ_of_le (List.length_filter_le ..)
  rw [searchResolver, resolveComplexType_eq_over]
  exact resolveOver_congr hn hlt (hlt.trans (Nat.lt_succ_self _)) st

theorem searchResolver_growing : Growing root comments (searchResolver root comments) :=
  resolveComplexType_growing _

/-! ## Fields one after the other -/

section Fields

variable {resolve : Resolver} {visited : List JsString} {message : ProtoType}

theorem fieldsToSchema_append : ∀ (xs ys : List (JsString × ProtoField)) (st : GenState),
    fieldsToSchema comments resolve visited message (xs ++ ys) st
      = ((fieldsToSchema comments resolve visited message xs st).1
          ++ (fieldsToSchema comments resolve visited message ys
            (fieldsToSchema comments resolve visited message xs st).2).1,
        (fieldsToSchema comments resolve visited message ys
          (fieldsToSchema comments resolve visited message xs st).2).2)
  | [], ys, st => rfl
  | e :: xs, ys, st => by
    rw [List.cons_append, fieldsToSchema, fieldsToSchema, fieldsToSchema_append xs ys]
    rfl

theorem state_fieldToSchema_complex {name : JsString} {field : ProtoField}
    (hs : protoToJsonType field.type = none) (st : GenState) :
    (fieldToSchema comments resolve visited message name field st).2
      = (resolve visited (resolvedTypeName message field) st).2 := by
  rw [state_fieldToSchema, typeSchema, hs]

end Fields

theorem afterFields_cons {visited : List JsString} {message : ProtoType}
    {before after : List (JsString × ProtoField)} {e : JsString × ProtoField}
    (hs : protoToJsonType e.2.type = none) (st : GenState) :
    afterFields root comments visited message (before ++ e :: after) st
      = afterFields root comments visited message after
        (searchResolver root comments visited (resolvedTypeName message e.2)
          (afterFields root comments visited message before st)).2 := by
  rw [afterFields, fieldsToSchema_append]
  dsimp only
  rw [fieldsToSchema]
  dsimp only
  rw [state_fieldToSchema_complex hs]
  rfl

/-- The call adds a definition that is there at the end, and its history is in the one of the
search. -/
structure Lasts (st st' final : GenState) : Prop where
  made : ∀ {d s}, st.definitions.get d = none → st'.definitions.get d = some s →
    final.definitions.get d = some s
  calls : ∀ c ∈ st'.calls, c ∈ final.calls

variable (root comments) in
theorem afterFields_grows (visited : List JsString) (message : ProtoType)
    (fields : List (JsString × ProtoField)) (st : GenState) : ∃ cs rs,
      Grows root comments st (afterFields root comments visited message fields st) cs rs :=
  (fieldsToSchema_grows searchResolver_growing visited message fields st).imp fun _ h => ⟨_, h⟩

/-- The properties of a message looked at for its definition. -/
def expandedProperties (root : ProtoRoot) (comments : Comments) (visited : List JsString)
    (typeName : JsString) (message : ProtoType) (st : GenState) : List (JsString × Schema) :=
  (fieldsToSchema comments (searchResolver root comments) (inside visited typeName) message
    message.fields.entries (expansionStart root visited typeName st)).1

theorem searchResolver_expands {visited : List JsString} {typeName : JsString} {st : GenState}
    {message : ProtoType} (hn : typeName ∈ fieldTypeNames root)
    (he : (typeCall root visited typeName st).ExpandsMessage root)
    (ht : root.lookupType typeName = some message) :
    searchResolver root comments visited typeName st
      = (.ref (typeCall root visited typeName st).definitionName none,
        let inner := afterFields root comments (inside visited typeName) message
          message.fields.entries (expansionStart root visited typeName st)
        { inner with
          definitions := inner.definitions.set (typeCall root visited typeName st).definitionName
            (messageSchema comments message typeName
              (typeCall root visited typeName st).definitionName
              (expandedProperties root comments visited typeName message st)) }) := by
  obtain ⟨hd, hi, hv, -⟩ := he
  rw [searchResolver_eq hn, resolveStep]
  dsimp only
  rw [if_neg (not_or.2 ⟨by rw [hd]; exact Bool.false_ne_true, hi⟩),
    if_neg (by rw [hv]; exact Bool.false_ne_true), ht]
  rfl

theorem Meets.lasts {type : ProtoType} (htype : type ∈ root.types) {path : List ℕ}
    {visited : List JsString} {typeName : JsString} {st : GenState}
    (h : Meets root comments type path visited typeName st) :
    Lasts st (searchResolver root comments visited typeName st).2
      (searchType root comments type).2 := by
  induction h with
  | @own before e after h hs =>
    obtain ⟨cs, rs, hg⟩ := afterFields_grows root comments [] type after
      (searchResolver root comments [] (resolvedTypeName type e.2)
        (afterFields root comments [] type before initialState)).2
    have hfinal : (searchType root comments type).2
        = afterFields root comments [] type (before ++ e :: after) initialState := by
      rw [← h]
      rfl
    rw [hfinal, afterFields_cons hs]
    exact ⟨fun _ hd => hg.kept hd, fun c hc => hg.calls ▸ List.mem_append_left _ hc⟩
  | @inner path visited typeName st message before e after hm he ht h hs ih =>
    have hn := hm.mem htype
    set d := (typeCall root visited typeName st).definitionName
    obtain ⟨cs₀, rs₀, hg₀⟩ := afterFields_grows root comments
      (inside visited typeName) message before (expansionStart root visited typeName st)
    obtain ⟨cs, rs, hg⟩ := afterFields_grows root comments
      (inside visited typeName) message after
      (searchResolver root comments (inside visited typeName) (resolvedTypeName message e.2)
        (afterFields root comments (inside visited typeName) message before
          (expansionStart root visited typeName st))).2
    have hall : afterFields root comments (inside visited typeName) message message.fields.entries
        (expansionStart root visited typeName st) = _ := h ▸ afterFields_cons hs _
    rw [searchResolver_expands hn he ht] at ih
    dsimp only at ih
    rw [hall] at ih
    constructor
    · intro x s hnew hx
      have hstart : (expansionStart root visited typeName st).definitions.get x = none := by
        rcases hg : (expansionStart root visited typeName st).definitions.get x with _ | s'
        · rfl
        · rw [hg₀.kept hg] at hnew
          exact absurd hnew (Option.some_ne_none s')
      have hne : x ≠ d := by
        rintro rfl
        rw [expansionStart, Map.get_set_self] at hstart
        exact Option.some_ne_none _ hstart
      refine ih.made ?_ ?_
      · rwa [expansionStart, Map.get_set_of_ne _ _ hne] at hstart
      · dsimp only
        rw [Map.get_set_of_ne _ _ hne]
        exact hg.kept hx
    · intro c hc
      refine ih.calls c ?_
      exact hg.calls ▸ List.mem_append_left _ hc

/-! ## Calls and where they are made -/

/-- What the schema of a type is, and which calls come first. -/
theorem searchResolver_cases (comments : Comments) (visited : List JsString) {typeName : JsString}
    (st : GenState) (hn : typeName ∈ fieldTypeNames root) :
    (searchResolver root comments visited typeName st).2.calls
        = st.calls ++ [typeCall root visited typeName st] ∨
      ∃ message, root.lookupType typeName = some message ∧
        (typeCall root visited typeName st).ExpandsMessage root := by
  rw [searchResolver_eq hn, resolveStep]
  split_ifs with hd hv
  · exact .inl rfl
  · exact .inl rfl
  · rcases ht : root.lookupType typeName with _ | message
    · refine .inl ?_
      dsimp only
      unfold tryResolveEnumType
      split <;> rfl
    · rw [not_or, Bool.not_eq_true] at hd
      rw [Bool.not_eq_true] at hv
      exact .inr ⟨message, rfl, hd.1, hd.2, hv, Option.isSome_iff_exists.2 ⟨message, ht⟩⟩

theorem call_mem {visited : List JsString} {typeName : JsString} {st : GenState}
    (hn : typeName ∈ fieldTypeNames root) : typeCall root visited typeName st
      ∈ (searchResolver root comments visited typeName st).2.calls := by
  rcases searchResolver_cases comments visited st hn with h | ⟨message, ht, he⟩
  · rw [h]
    exact List.mem_append_right _ (List.mem_singleton_self _)
  · obtain ⟨cs, rs, hg⟩ := afterFields_grows root comments (inside visited typeName) message
      message.fields.entries (expansionStart root visited typeName st)
    rw [searchResolver_expands hn he ht]
    dsimp only
    rw [hg.calls]
    exact List.mem_append_left _ (List.mem_append_right _ (List.mem_singleton_self _))

/-- The call is made where the search meets its type, at the end of `path` or further on. -/
def MadeFrom (root : ProtoRoot) (comments : Comments) (type : ProtoType) (path : List ℕ)
    (c : TypeCall) : Prop :=
  ∃ rest visited st, Meets root comments type (path ++ rest) visited c.typeName st ∧
    typeCall root visited c.typeName st = c

theorem MadeFrom.of_append {type : ProtoType} {path rest : List ℕ} {c : TypeCall}
    (h : MadeFrom root comments type (path ++ rest) c) : MadeFrom root comments type path c := by
  obtain ⟨rest', visited, st, hm, hc⟩ := h
  exact ⟨rest ++ rest', visited, st, List.append_assoc path rest rest' ▸ hm, hc⟩

/-- The fields of a message are looked at, and each call for one is made at its path. -/
def CallsFrom (root : ProtoRoot) (comments : Comments) (type : ProtoType) (path : List ℕ)
    (visited : List JsString) (message : ProtoType) (st : GenState) : Prop :=
  ∀ before e after, message.fields.entries = before ++ e :: after →
    protoToJsonType e.2.type = none →
    ∀ c ∈ (searchResolver root comments visited (resolvedTypeName message e.2)
      (afterFields root comments visited message before st)).2.calls,
      c ∈ (afterFields root comments visited message before st).calls ∨
        MadeFrom root comments type (path ++ [before.length]) c

theorem afterFields_scalar {visited : List JsString} {message : ProtoType}
    {before : List (JsString × ProtoField)} {e : JsString × ProtoField} {s : Schema}
    (hs : protoToJsonType e.2.type = some s) (st : GenState) :
    afterFields root comments visited message (before ++ [e]) st
      = afterFields root comments visited message before st := by
  rw [afterFields, fieldsToSchema_append]
  dsimp only
  rw [fieldsToSchema]
  dsimp only
  rw [state_fieldToSchema, typeSchema, hs]
  rfl

/-- The calls made for some fields are made at the paths of these. -/
theorem calls_afterFields {type message : ProtoType} {path : List ℕ} {visited : List JsString}
    {st : GenState} (h : CallsFrom root comments type path visited message st)
    (fields : List (JsString × ProtoField)) : ∀ after, message.fields.entries = fields ++ after →
      ∀ c ∈ (afterFields root comments visited message fields st).calls, c ∈ st.calls ∨
        ∃ i < fields.length, MadeFrom root comments type (path ++ [i]) c := by
  induction fields using List.reverseRecOn with
  | nil => exact fun _ _ c hc => .inl hc
  | append_singleton before e ih =>
    intro after hb c hc
    have hb' : message.fields.entries = before ++ e :: after := by simpa using hb
    have hlen : before.length < (before ++ [e]).length := by simp
    have hbefore : c ∈ (afterFields root comments visited message before st).calls →
        c ∈ st.calls ∨ ∃ i < (before ++ [e]).length,
          MadeFrom root comments type (path ++ [i]) c := fun hc =>
      (ih _ hb' c hc).imp_right fun ⟨i, hi, hm⟩ => ⟨i, hi.trans hlen, hm⟩
    rcases hs : protoToJsonType e.2.type with _ | s
    · rw [afterFields_cons hs] at hc
      rcases h before e after hb' hs c hc with hc' | hm
      · exact hbefore hc'
      · exact .inr ⟨before.length, hlen, hm⟩
    · rw [afterFields_scalar hs] at hc
      exact hbefore hc

/-- The calls made where a type is met are made there or further on. -/
theorem calls_of_meets {type : ProtoType} (htype : type ∈ root.types) :
    ∀ (k : ℕ) {path : List ℕ} {visited : List JsString} {typeName : JsString} {st : GenState},
      namesLeft root visited < k → Meets root comments type path visited typeName st →
      ∀ c ∈ (searchResolver root comments visited typeName st).2.calls,
        c ∈ st.calls ∨ MadeFrom root comments type path c
  | 0, _, _, _, _, hk, _, _, _ => absurd hk (Nat.not_lt_zero _)
  | k + 1, path, visited, typeName, st, hk, hm, c, hc => by
    have hn := hm.mem htype
    have hself : ∀ {c}, c ∈ st.calls ++ [typeCall root visited typeName st] →
        c ∈ st.calls ∨ MadeFrom root comments type path c := by
      intro c hc
      refine (List.mem_append.1 hc).imp_right fun h => ?_
      rw [List.mem_singleton.1 h]
      exact ⟨[], visited, st, (List.append_nil path).symm ▸ hm, rfl⟩
    rcases searchResolver_cases comments visited st hn with h | ⟨message, ht, he⟩
    · exact hself (h ▸ hc)
    · have hlt : namesLeft root (inside visited typeName) < k := by
        have hnv : typeName ∉ visited := fun h => by
          have hv := he.2.2.1
          simp [typeCall, h] at hv
        exact (namesLeft_lt hn hnv).trans_le (Nat.le_of_lt_succ hk)
      have hinner : CallsFrom root comments type path (inside visited typeName) message
          (expansionStart root visited typeName st) := fun before e after h hs =>
        calls_of_meets htype k hlt (.inner hm he ht h hs)
      rw [searchResolver_expands hn he ht] at hc
      rcases calls_afterFields hinner _ [] (List.append_nil _).symm c hc with h | ⟨i, -, h⟩
      · exact hself h
      · exact .inr h.of_append

theorem Meets.calls {type : ProtoType} (htype : type ∈ root.types) {path : List ℕ}
    {visited : List JsString} {typeName : JsString} {st : GenState}
    (h : Meets root comments type path visited typeName st) :
    ∀ c ∈ (searchResolver root comments visited typeName st).2.calls,
      c ∈ st.calls ∨ MadeFrom root comments type path c :=
  calls_of_meets htype _ (Nat.lt_succ_self _) h

theorem callsFrom_own {type : ProtoType} (htype : type ∈ root.types) :
    CallsFrom root comments type [] [] type initialState :=
  fun _ _ _ h hs => (Meets.own h hs).calls htype

theorem madeFrom {type : ProtoType} (htype : type ∈ root.types) {c : TypeCall}
    (hc : c ∈ (searchType root comments type).2.calls) : MadeFrom root comments type [] c := by
  rcases calls_afterFields (callsFrom_own htype) type.fields.entries [] (List.append_nil _).symm c
    hc with h | ⟨i, -, h⟩
  · simp [initialState] at h
  · exact MadeFrom.of_append h

/-- The definition that an expansion leaves. -/
theorem Meets.definition {type : ProtoType} (htype : type ∈ root.types) {path : List ℕ}
    {visited : List JsString} {typeName : JsString} {st : GenState} {message : ProtoType}
    (h : Meets root comments type path visited typeName st)
    (he : (typeCall root visited typeName st).ExpandsMessage root)
    (ht : root.lookupType typeName = some message) :
    (searchType root comments type).2.definitions.get
        (typeCall root visited typeName st).definitionName
      = some (messageSchema comments message typeName
        (typeCall root visited typeName st).definitionName
        (expandedProperties root comments visited typeName message st)) := by
  refine (h.lasts htype).made (Map.not_has.1 (Bool.eq_false_iff.1 he.1)) ?_
  rw [searchResolver_expands (h.mem htype) he ht]
  exact Map.get_set_self ..

/-! ## What a field refers to -/

/-- A call refers to its name whether its type is found or not. -/
def TypeCall.RefersAnyway (c : TypeCall) : Prop :=
  c.defined = true ∨ c.definitionName ∈ inheritedNames ∨ c.visited = true

section Answers

variable {visited visited' : List JsString} {typeName : JsString} {st st' : GenState}

theorem answer_of_refers (hn : typeName ∈ fieldTypeNames root)
    (h : (typeCall root visited typeName st).RefersAnyway ∨
      (typeCall root visited typeName st).Found root) :
    (searchResolver root comments visited typeName st).1
      = .ref (typeCall root visited typeName st).definitionName none := by
  rw [searchResolver_eq hn, resolveStep]
  split_ifs with hd hv
  · rfl
  · rfl
  · have hfound : (typeCall root visited typeName st).Found root := by
      refine h.resolve_left ?_
      rintro (h | h | h)
      · exact hd (.inl h)
      · exact hd (.inr h)
      · exact hv h
    rcases ht : root.lookupType typeName with _ | message
    · rcases hen : root.lookupEnum typeName with _ | e
      · simp [TypeCall.Found, typeCall, ht, hen] at hfound
      · simp [tryResolveEnumType, hen]
    · rfl

theorem answer_of_not_refers (hn : typeName ∈ fieldTypeNames root)
    (h : ¬ (typeCall root visited typeName st).RefersAnyway)
    (hf : ¬ (typeCall root visited typeName st).Found root) :
    (searchResolver root comments visited typeName st).1
      = (googleWellKnownTypes typeName).getD .plainObject := by
  have hnone : root.lookupType typeName = none ∧ root.lookupEnum typeName = none := by
    simpa [TypeCall.Found, typeCall] using hf
  rw [searchResolver_eq hn, resolveStep, if_neg fun hd => h (hd.imp_right .inl),
    if_neg fun hv => h (.inr (.inr hv)), hnone.1]
  simp [tryResolveEnumType, hnone.2]

theorem refs_answer (hn : typeName ∈ fieldTypeNames root) :
    ((typeCall root visited typeName st).RefersAnyway ∨
      (typeCall root visited typeName st).Found root) ↔
      (searchResolver root comments visited typeName st).1.refs ≠ [] := by
  by_cases h : (typeCall root visited typeName st).RefersAnyway ∨
      (typeCall root visited typeName st).Found root
  · rw [answer_of_refers hn h, Schema.refs]
    exact iff_of_true h (List.cons_ne_nil _ _)
  · rw [answer_of_not_refers hn (not_or.1 h).1 (not_or.1 h).2, refs_googleWellKnownTypes]
    exact iff_of_false h fun hne => hne rfl

/-- Two calls of a type by one name are answered alike if both refer to it or neither does. -/
theorem answers_eq (hn : typeName ∈ fieldTypeNames root)
    (hname : (typeCall root visited typeName st).definitionName
      = (typeCall root visited' typeName st').definitionName)
    (h : (typeCall root visited typeName st).Found root ∨
      ((typeCall root visited typeName st).RefersAnyway ↔
        (typeCall root visited' typeName st').RefersAnyway)) :
    (searchResolver root comments visited typeName st).1
      = (searchResolver root comments visited' typeName st').1 := by
  by_cases hf : (typeCall root visited typeName st).Found root
  · have hf' : (typeCall root visited' typeName st').Found root := hf
    rw [answer_of_refers hn (.inr hf), answer_of_refers hn (.inr hf'), hname]
  · have hiff := h.resolve_left hf
    by_cases hr : (typeCall root visited typeName st).RefersAnyway
    · rw [answer_of_refers hn (.inl hr), answer_of_refers hn (.inl (hiff.1 hr)), hname]
    · rw [answer_of_not_refers hn hr hf, answer_of_not_refers hn (fun h => hr (hiff.2 h)) hf]

end Answers

section Properties

variable {visited visited' : List JsString} {message : ProtoType}

theorem fieldToSchema_congr {resolve : Resolver} {name : JsString} {field : ProtoField}
    {st st' : GenState}
    (h : (typeSchema resolve visited message field st).1
      = (typeSchema resolve visited' message field st').1) :
    (fieldToSchema comments resolve visited message name field st).1
      = (fieldToSchema comments resolve visited' message name field st').1 := by
  unfold fieldToSchema mapFieldToSchema
  split_ifs <;> simp only [h]

/-- Fields have the same properties in two runs if each has the same where it is looked at. -/
theorem properties_eq_iff : ∀ (fields : List (JsString × ProtoField)) (st st' : GenState),
    (fieldsToSchema comments (searchResolver root comments) visited message fields st).1
        = (fieldsToSchema comments (searchResolver root comments) visited' message fields st').1 ↔
      ∀ before e after, fields = before ++ e :: after →
        (fieldToSchema comments (searchResolver root comments) visited message e.1 e.2
          (afterFields root comments visited message before st)).1
        = (fieldToSchema comments (searchResolver root comments) visited' message e.1 e.2
          (afterFields root comments visited' message before st')).1
  | [], _, _ => by simp [fieldsToSchema]
  | f :: fields, st, st' => by
    have ih := properties_eq_iff fields
      (fieldToSchema comments (searchResolver root comments) visited message f.1 f.2 st).2
      (fieldToSchema comments (searchResolver root comments) visited' message f.1 f.2 st').2
    rw [fieldsToSchema, fieldsToSchema]
    dsimp only
    rw [List.cons.injEq, Prod.mk.injEq, and_iff_right rfl, ih]
    constructor
    · rintro ⟨hf, hrest⟩ before e after h
      rcases before with _ | ⟨f', before⟩
      · obtain ⟨rfl, -⟩ := List.cons.inj h
        exact hf
      · obtain ⟨rfl, hb⟩ := List.cons.inj h
        exact hrest before e after hb
    · intro h
      exact ⟨h [] f fields rfl, fun before e after hb => h (f :: before) e after (by rw [hb]; rfl)⟩

end Properties

/-! ## Types that a message leads to -/

theorem mem_complexTypeNames {n : JsString} : n ∈ complexTypeNames root ↔ LedTo root n := by
  simp only [complexTypeNames, LedTo, List.mem_flatMap, List.mem_map, List.mem_filter,
    Option.isNone_iff_eq_none, and_assoc]

section Leads

variable {typeName n : JsString} {type : ProtoType} {path : List ℕ} {visited : List JsString}
  {st : GenState}

variable (comments) in
theorem searchCalls_of_found (ht : foundType root typeName = some type) :
    searchCalls root comments typeName = (searchType root comments type).2.calls ∧
      generateSchema root comments typeName = typeToSchema root comments typeName type := by
  unfold foundType at ht
  unfold searchCalls generateSchema
  rw [ht]
  exact ⟨rfl, rfl⟩

theorem Leads.of_entry {message : ProtoType} (hl : root.lookupType n = some message)
    {before after : List (JsString × ProtoField)} {e : JsString × ProtoField}
    (h : message.fields.entries = before ++ e :: after) (hs : protoToJsonType e.2.type = none) :
    Leads root n (resolvedTypeName message e.2) := by
  have he : e ∈ message.fields.entries := h ▸ List.mem_append_right _ List.mem_cons_self
  exact ⟨message, hl, e.2, List.mem_map_of_mem he, hs, rfl⟩

/-- A type that is led to is that of a field. -/
theorem Leads.entry {m : JsString} (h : Leads root n m) : ∃ message before e after,
    root.lookupType n = some message ∧ message.fields.entries = before ++ e :: after ∧
      protoToJsonType e.2.type = none ∧ resolvedTypeName message e.2 = m := by
  obtain ⟨message, hl, field, hf, hs, hn⟩ := h
  obtain ⟨e, he, rfl⟩ := List.mem_map.1 hf
  obtain ⟨before, after, hsplit⟩ := List.append_of_mem he
  exact ⟨message, before, e, after, hl, hsplit, hs, hn⟩

theorem Leads.ledTo {m : JsString} (h : Leads root n m) : LedTo root m := by
  obtain ⟨message, hl, field, hf, hs, hn⟩ := h
  exact ⟨message, root.lookupType_mem hl, field, hf, hs, hn⟩

theorem Reached.ledTo {start : JsString} (h : Reached root start n) : LedTo root n := by
  cases h with
  | single h => exact h.ledTo
  | tail _ h => exact h.ledTo

/-- A type that is met is one that the message leads to. -/
theorem Meets.reached (ht : foundType root typeName = some type)
    (h : Meets root comments type path visited n st) : Reached root typeName n := by
  induction h with
  | own h hs => exact .single (.of_entry (lookupType_of_found ht) h hs)
  | inner _ _ hl h hs ih => exact ih.tail (.of_entry hl h hs)

theorem shortNameOf_shortNameOf (n : JsString) : shortNameOf (shortNameOf n) = shortNameOf n := by
  unfold shortNameOf
  rcases hl : (n.splitOn dot).getLast? with _ | ⟨_ | ⟨u, s⟩⟩
  · simp only [hl]
  · simp only [hl]
  · have hdot : dot ∉ u :: s := not_mem_of_mem_splitOn (List.mem_of_getLast? hl)
    simp only [List.splitOn_eq_singleton hdot, List.getLast?_singleton]

theorem mem_calls_of_meets (ht : foundType root typeName = some type)
    (h : Meets root comments type path visited n st) :
    typeCall root visited n st ∈ searchCalls root comments typeName := by
  have htype := root.lookupType_mem (lookupType_of_found ht)
  rw [(searchCalls_of_found comments ht).1]
  exact (h.lasts htype).calls _ (call_mem (h.mem htype))

end Leads

end DiiaApp
