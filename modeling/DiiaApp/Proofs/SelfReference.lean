import DiiaApp.Proofs.DefinedReferences

/-!
# The schema of a message and its definition

A message that is met again in the search for its own schema is turned into a schema twice: at the
top, with no type around it, and as a definition. The two agree where the message is laid out below
itself and each field of a type that is not found refers to a name in both or in none, and but for a
definition of another type under its name only there (`pathsAgree`).
-/

namespace DiiaApp

open Js

variable (root : ProtoRoot) (comments : Comments)

/-- A type is referred to under a name: the search meets it by this name, and there is a reference
to the name in the schema or in a definition. -/
def ReferredAs (start n d : JsString) : Prop :=
  (∃ c ∈ searchCalls root comments start, c.typeName = n ∧ c.definitionName = d) ∧
    d ∈ (generateSchema root comments start).refs

/-- A message is referred to in its own schema, and the definition under which it is has the
properties and the required fields of the schema. -/
def PathsAgree (start : JsString) : Prop :=
  (∃ d, ReferredAs root comments start start d) ∧ ∀ d, ReferredAs root comments start start d →
    ∃ description protoSource, (generateSchema root comments start).defs.get d =
      some (.object (generateSchema root comments start).properties description protoSource
        (generateSchema root comments start).required)

/-- Each field whose type is not found refers to a name where the message is expanded exactly if it
does so at the top. -/
def RefersAlike (type : ProtoType) (visited : List JsString) (typeName : JsString) (st : GenState) :
    Prop :=
  ∀ before e after, type.fields.entries = before ++ e :: after →
    protoToJsonType e.2.type = none → root.lookupType (resolvedTypeName type e.2) = none →
    root.lookupEnum (resolvedTypeName type e.2) = none →
    ((typeCall root [] (resolvedTypeName type e.2)
        (afterFields root comments [] type before initialState)).RefersAnyway ↔
      (typeCall root (inside visited typeName) (resolvedTypeName type e.2)
        (afterFields root comments (inside visited typeName) type before
          (expansionStart root visited typeName st))).RefersAnyway)

variable {root comments}

/-- The properties of a message at the top are those of its expansion just where its fields refer
alike. -/
theorem expandedProperties_eq_iff {typeName : JsString} {type : ProtoType}
    (ht : foundType root typeName = some type) {path : List ℕ} {visited : List JsString}
    {st : GenState} (hm : Meets root comments type path visited typeName st)
    (he : (typeCall root visited typeName st).ExpandsMessage root) :
    (searchType root comments type).1 = expandedProperties root comments visited typeName type st ↔
      RefersAlike root comments type visited typeName st := by
  show (fieldsToSchema comments (searchResolver root comments) [] type type.fields.entries
      initialState).1
    = (fieldsToSchema comments (searchResolver root comments) (inside visited typeName) type
      type.fields.entries (expansionStart root visited typeName st)).1 ↔ _
  have htype := mem_types_of_found ht
  rw [properties_eq_iff]
  constructor
  · intro hall before e after hb hs hnt hne
    have hn := mem_fieldTypeNames htype hb
    have hrefs := congrArg Schema.refs (hall before e after hb)
    rw [refs_fieldToSchema, refs_fieldToSchema, typeSchema, typeSchema, hs] at hrefs
    dsimp only at hrefs
    have hiff : ∀ {v : List JsString} {s : GenState},
        (typeCall root v (resolvedTypeName type e.2) s).RefersAnyway ↔
          (searchResolver root comments v (resolvedTypeName type e.2) s).1.refs ≠ [] := by
      intro v s
      rw [← refs_answer hn, or_iff_left]
      simp [TypeCall.Found, typeCall, hnt, hne]
    rw [hiff, hiff, hrefs]
  · intro hall before e after hb
    refine fieldToSchema_congr ?_
    rcases hs : protoToJsonType e.2.type with _ | s
    · rw [typeSchema, typeSchema, hs]
      refine answers_eq (mem_fieldTypeNames htype hb)
        (((Meets.own hb hs).nameGiven_eq ht).symm.trans
          ((Meets.inner hm he (lookupType_of_found ht) hb hs).nameGiven_eq ht)) ?_
      rw [or_iff_not_imp_left]
      intro hf
      have hnone : root.lookupType (resolvedTypeName type e.2) = none ∧
          root.lookupEnum (resolvedTypeName type e.2) = none := by
        simpa [TypeCall.Found, typeCall] using hf
      exact hall before e after hb hs hnone.1 hnone.2
    · rw [typeSchema, typeSchema, hs]

section Found

variable {start : JsString} {type : ProtoType} {path : List ℕ} {visited : List JsString}
  {st : GenState}

/-- The fields refer alike in the search where they do in its layout. -/
theorem refersAlike_iff (ht : foundType root start = some type)
    (hm : Meets root comments type path visited start st)
    (he : (typeCall root visited start st).ExpandsMessage root) :
    RefersAlike root comments type visited start st ↔
      (searchLayout root comments start type).RefersAlike root start type := by
  have hat : ExpandsAt root comments type start path := ⟨visited, st, hm, he.expands⟩
  have hplace := searchLayout_place ht hat
  have hl := lookupType_of_found ht
  constructor
  · intro h
    refine ⟨(mem_searchLayout ht).2 ⟨path, hat⟩, ?_⟩
    rintro ⟨i, n⟩ hf hin
    obtain ⟨before, e, after, hb, rfl, hs, rfl⟩ := mem_complexFields.1 hf
    obtain ⟨hnt, hne⟩ := not_inRoot_iff.1 hin
    rw [← refersAnyway_iff ht (.own hb hs), hplace, ← refersAnyway_iff ht (.inner hm he hl hb hs)]
    exact h before e after hb hs hnt hne
  · intro h before e after hb hs hnt hne
    rw [refersAnyway_iff ht (.own hb hs), refersAnyway_iff ht (.inner hm he hl hb hs), ← hplace]
    exact h.alike (before.length, _) (mem_complexFields.2 ⟨before, e, after, hb, rfl, hs, rfl⟩)
      (not_inRoot_iff.2 ⟨hnt, hne⟩)

/-- What a message is referred to as where it is expanded is its definition. -/
theorem definition_of_expands (ht : foundType root start = some type)
    (hm : Meets root comments type path visited start st)
    (he : (typeCall root visited start st).ExpandsMessage root) {d : JsString}
    (hd : ReferredAs root comments start start d) :
    (generateSchema root comments start).defs.get d = some (messageSchema comments type start d
      (expandedProperties root comments visited start type st)) := by
  obtain ⟨⟨c, hc, hn, rfl⟩, -⟩ := hd
  have hname : c.definitionName = (typeCall root visited start st).definitionName := by
    rw [← nameGiven_of_call hc, hn, hm.nameGiven_eq ht]
  rw [(searchCalls_of_found comments ht).2, defs_typeToSchema, hname,
    hm.definition (mem_types_of_found ht) he (lookupType_of_found ht)]

/-- The definition of a message has its properties just where its fields refer alike. -/
theorem expands_agree_iff (ht : foundType root start = some type)
    (hm : Meets root comments type path visited start st)
    (he : (typeCall root visited start st).ExpandsMessage root) :
    PathsAgree root comments start ↔ RefersAlike root comments type visited start st := by
  rw [← expandedProperties_eq_iff ht hm he]
  have hschema := (searchCalls_of_found comments ht).2
  have hcall := mem_calls_of_meets ht hm
  have hreferred : ReferredAs root comments start start
      (typeCall root visited start st).definitionName :=
    ⟨⟨_, hcall, rfl, rfl⟩, mem_refs_of_call ht hcall (.inr (.inr he.expands))⟩
  constructor
  · rintro ⟨-, hall⟩
    obtain ⟨description, protoSource, hdef⟩ := hall _ hreferred
    rw [definition_of_expands ht hm he hreferred, Option.some_inj] at hdef
    injection hdef with hprops
    rw [hprops, hschema]
    rfl
  · intro hprops
    refine ⟨⟨_, hreferred⟩, fun d hd => ⟨some (definitionDescription comments d start),
      some (generateMessageProtoSource comments [] type), ?_⟩⟩
    rw [definition_of_expands ht hm he hd, ← hprops, hschema]
    rfl

end Found

/-- The definition under which a message is referred to in its own schema has the properties and the
required fields of the schema, where the message is laid out below itself in order and its fields of
types that are nowhere refer alike. But for a definition of another type under its name, it has them
only there. -/
theorem pathsAgree (comments : Comments) {start : JsString} {type : ProtoType}
    (ht : foundType root start = some type) :
    ((∃ l : Layout, l.InOrder root start ∧ l.RefersAlike root start type) →
        PathsAgree root comments start) ∧
      (PathsAgree root comments start → ∃ l : Layout, l.InOrder root start ∧
        (l.RefersAlike root start type ∨ ∃ n ∈ l.types, n ≠ start ∧ l.name n = l.name start)) := by
  have hlayout := searchLayout_inOrder comments ht
  have hl := lookupType_of_found ht
  constructor
  · rintro ⟨l, h, hrefers⟩
    have halike := h.refersAlike hlayout ht hrefers
    obtain ⟨visited, st, hm, he⟩ := expandsAt_place ht halike.self
    have he' := he.message hl
    exact (expands_agree_iff ht hm he').2 ((refersAlike_iff ht hm he').2 halike)
  · rintro ⟨⟨d, hd⟩, hall⟩
    refine ⟨_, hlayout, ?_⟩
    obtain ⟨description, protoSource, hdef⟩ := hall d hd
    obtain ⟨⟨c, hc, hn, rfl⟩, -⟩ := id hd
    obtain ⟨path, visited, st, hm, hcall⟩ := meets_of_call ht hc
    rw [← hcall] at hdef
    obtain ⟨n, hmem, hname⟩ := (has_iff_type ht hm).1 (Option.isSome_of_eq_some hdef)
    rw [hn] at hname
    rcases eq_or_ne n start with rfl | hne
    · obtain ⟨v, s, hm', he⟩ := expandsAt_place ht hmem
      have he' := he.message hl
      refine .inl ((refersAlike_iff ht hm' he').1 ((expands_agree_iff ht hm' he').1 ?_))
      exact ⟨⟨_, hd⟩, hall⟩
    · exact .inr ⟨n, hmem, hne, hname⟩

def fooOfA : ProtoType :=
  .mk (js "Foo") (js ".a.Foo") (Map.empty.set (js "other") (fieldOf "b.Foo" ".b.Foo")) [] []

def fooOfB : ProtoType :=
  .mk (js "Foo") (js ".b.Foo") (Map.empty.set (js "back") (fieldOf "a.Foo" ".a.Foo")) [] []

/-- Two types `Foo`, each with one of the other. -/
def mutualFoos : ProtoRoot := rootOf [fooOfA, fooOfB] []

/-- `a.Foo` is reached from itself, but what it is referred to as has no definition. -/
theorem not_pathsAgree : Reached mutualFoos (js "a.Foo") (js "a.Foo") ∧
    ¬ PathsAgree mutualFoos noComments (js "a.Foo") := by
  constructor
  · have hother : Leads mutualFoos (js "a.Foo") (js "b.Foo") :=
      ⟨fooOfA, rfl, fieldOf "b.Foo" ".b.Foo", List.mem_cons_self, rfl, rfl⟩
    have hback : Leads mutualFoos (js "b.Foo") (js "a.Foo") :=
      ⟨fooOfB, rfl, fieldOf "a.Foo" ".a.Foo", List.mem_cons_self, rfl, rfl⟩
    exact .tail (.single hother) hback
  · rintro ⟨⟨d, hd⟩, hall⟩
    have hnone : ∀ c ∈ searchCalls mutualFoos noComments (js "a.Foo"),
        c.typeName = js "a.Foo" →
          (generateSchema mutualFoos noComments (js "a.Foo")).defs.get c.definitionName = none := by
      decide
    obtain ⟨description, protoSource, hget⟩ := hall d hd
    obtain ⟨⟨c, hc, hn, rfl⟩, -⟩ := hd
    rw [hnone c hc hn] at hget
    cases hget

/-- A cell with the next one and a value of a type that is nowhere. -/
def cellType : ProtoType :=
  .mk (js "Cell") (js ".app.Cell") ((Map.empty.set (js "next") (fieldOf "Cell" ".app.Cell")).set
    (js "value") { fieldOf "Value" "" with resolvedType := none }) [] []

def cellRoot : ProtoRoot := rootOf [cellType] []

/-- The cell stands at its field `next`. -/
def cellLayout : Layout where
  types := [js "app.Cell"]
  place _ := [0]
  name := shortNameOf

theorem cellLayout_inOrder : cellLayout.InOrder cellRoot (js "app.Cell") where
  field := by decide
  outside := by decide
  inRoot := by decide
  inherited := by decide
  distinct := by decide
  first := by decide
  named := by decide

theorem cellLayout_refersAlike : cellLayout.RefersAlike cellRoot (js "app.Cell") cellType :=
  ⟨by decide, by decide⟩

theorem pathsAgree_cell : PathsAgree cellRoot noComments (js "app.Cell") :=
  (pathsAgree noComments rfl).1 ⟨cellLayout, cellLayout_inOrder, cellLayout_refersAlike⟩

end DiiaApp
