import DiiaApp.Proofs.DefinedReferences

/-!
# References to the types themselves

Where the type of every field is laid out, each type that is met is expanded (`ExpandsAll`). So the
schema is the one that the fields of the types make under their names: every reference is to the
definition of its own type, and no two types share one. Conversely such a schema shows the name of
each type that is met, and that the definition of this name is its own (`refs_exact`).
-/

namespace DiiaApp

open Js

variable {root : ProtoRoot} {comments : Comments}

theorem inRoot_of_ledTo (hr : AllResolved root) (hf : FindsFullNames root) {n : JsString}
    (h : LedTo root n) : InRoot root n :=
  found_of_ledTo hr hf (c := ⟨n, n, false, false⟩) h

/-- The schema of one value of a field: that of its scalar type, or a reference by a call. -/
def IsItemSchema (calls : List TypeCall) (message : ProtoType) (field : ProtoField)
    (item : Schema) : Prop :=
  protoToJsonType field.type = some item ∨
    protoToJsonType field.type = none ∧ ∃ c ∈ calls,
      c.typeName = resolvedTypeName message field ∧ item = .ref c.definitionName none

/-- The schema of a field, by that of one value. -/
def fieldSchemaOf (comments : Comments) (message : ProtoType) (name : JsString)
    (field : ProtoField) (item : Schema) : Schema :=
  if field.keyType.isSome then addFieldDescription comments (.map item none) name message.name
  else if field.repeated then .array (addFieldDescription comments item name message.name) none
  else addFieldDescription comments item name message.name

/-- The property of a field. -/
def IsPropertySchema (comments : Comments) (calls : List TypeCall) (message : ProtoType)
    (e : JsString × ProtoField) (p : JsString × Schema) : Prop :=
  e.1 = p.1 ∧ ∃ item, IsItemSchema calls message e.2 item ∧
    p.2 = fieldSchemaOf comments message e.1 e.2 item

section Search

variable {type message : ProtoType} {path : List ℕ} {visited : List JsString} {st : GenState}

theorem fieldToSchema_eq {resolve : Resolver} {name : JsString} {field : ProtoField} :
    (fieldToSchema comments resolve visited message name field st).1 =
      fieldSchemaOf comments message name field
        (typeSchema resolve visited message field st).1 := by
  unfold fieldToSchema mapFieldToSchema fieldSchemaOf
  split_ifs <;> rfl

theorem isItemSchema_typeSchema (hr : AllResolved root) (hf : FindsFullNames root)
    (htype : type ∈ root.types) (hmessage : message ∈ root.types) {field : ProtoField}
    (hfield : field ∈ message.fields.values) (hm : protoToJsonType field.type = none →
      Meets root comments type path visited (resolvedTypeName message field) st) :
    IsItemSchema (searchType root comments type).2.calls message field
      (typeSchema (searchResolver root comments) visited message field st).1 := by
  unfold typeSchema
  rcases hs : protoToJsonType field.type with _ | s
  · have hmeets := hm hs
    have hn := hmeets.mem htype
    have hfound : (typeCall root visited (resolvedTypeName message field) st).Found root :=
      found_of_ledTo hr hf ⟨message, hmessage, field, hfield, hs, rfl⟩
    refine .inr ⟨hs, _, (hmeets.lasts htype).calls _ (call_mem hn), rfl, ?_⟩
    exact answer_of_refers hn (.inr hfound)
  · exact .inl hs

variable (path) in
theorem fieldsToSchema_isPropertySchema (hr : AllResolved root) (hf : FindsFullNames root)
    (htype : type ∈ root.types) (hmessage : message ∈ root.types)
    (hm : ∀ before e after, message.fields.entries = before ++ e :: after →
      protoToJsonType e.2.type = none → Meets root comments type (path ++ [before.length]) visited
        (resolvedTypeName message e.2) (afterFields root comments visited message before st)) :
    ∀ after before, message.fields.entries = before ++ after →
      List.Forall₂ (IsPropertySchema comments (searchType root comments type).2.calls message) after
        (fieldsToSchema comments (searchResolver root comments) visited message after
          (afterFields root comments visited message before st)).1
  | [], _, _ => .nil
  | e :: after, before, hb => by
    have hb' : message.fields.entries = (before ++ [e]) ++ after := by simpa using hb
    have hstate : (fieldToSchema comments (searchResolver root comments) visited message e.1 e.2
        (afterFields root comments visited message before st)).2 =
        afterFields root comments visited message (before ++ [e]) st := by
      rw [afterFields, afterFields, fieldsToSchema_append]
      rfl
    have hrest := fieldsToSchema_isPropertySchema hr hf htype hmessage hm after (before ++ [e]) hb'
    rw [← hstate] at hrest
    have hfield : e.2 ∈ message.fields.values :=
      List.mem_map_of_mem (hb ▸ List.mem_append_right _ List.mem_cons_self)
    refine .cons ⟨rfl, _, ?_, fieldToSchema_eq⟩ hrest
    exact isItemSchema_typeSchema hr hf htype hmessage hfield (hm before e after hb)

variable (comments) in
/-- The properties at the top. -/
theorem searchType_properties (hr : AllResolved root) (hf : FindsFullNames root)
    (htype : type ∈ root.types) :
    List.Forall₂ (IsPropertySchema comments (searchType root comments type).2.calls type)
      type.fields.entries (searchType root comments type).1 :=
  fieldsToSchema_isPropertySchema [] hr hf htype htype (fun _ _ _ h hs => .own h hs) _ [] rfl

/-- The properties in the definition of a message that is expanded. -/
theorem expandedProperties_properties (hr : AllResolved root) (hf : FindsFullNames root)
    (htype : type ∈ root.types) {n : JsString} (hm : Meets root comments type path visited n st)
    (he : (typeCall root visited n st).ExpandsMessage root)
    (hl : root.lookupType n = some message) :
    List.Forall₂ (IsPropertySchema comments (searchType root comments type).2.calls message)
      message.fields.entries (expandedProperties root comments visited n message st) :=
  fieldsToSchema_isPropertySchema path hr hf htype (root.lookupType_mem hl)
    (fun _ _ _ h hs => .inner hm he hl h hs) _ [] rfl

end Search

/-- Every type that the search meets is expanded at some field. -/
def ExpandsAll (root : ProtoRoot) (comments : Comments) (start : JsString) : Prop :=
  ∀ c ∈ searchCalls root comments start, ∃ e ∈ searchCalls root comments start,
    e.typeName = c.typeName ∧ e.Expands root

section Expanded

variable {start : JsString} {type : ProtoType}

/-- Where the type of every field is laid out, each type that is met is expanded. -/
theorem ExpandsAll.of_layout (ht : foundType root start = some type)
    (h : (searchLayout root comments start type).TypesLaidOut root start) :
    ExpandsAll root comments start := by
  intro c hc
  obtain ⟨path, visited, st, hm, -⟩ := meets_of_call ht hc
  have hmem := h _ ((mem_searchLayout_fields ht).2 ⟨visited, st, hm⟩)
  obtain ⟨v, s, hm', he⟩ := expandsAt_place ht hmem
  exact ⟨_, mem_calls_of_meets ht hm', rfl, he⟩

/-- Each field of a type that is met is looked at where the type is expanded. -/
theorem ExpandsAll.met (hall : ExpandsAll root comments start)
    (ht : foundType root start = some type) {n : JsString} (h : Reached root start n) :
    ∃ c ∈ searchCalls root comments start, c.typeName = n := by
  induction h with
  | single h =>
    obtain ⟨message, before, e, after, hl, hsplit, hs, rfl⟩ := h.entry
    obtain rfl := Option.some.inj ((lookupType_of_found ht).symm.trans hl)
    exact ⟨_, mem_calls_of_meets ht (.own hsplit hs), rfl⟩
  | tail _ h ih =>
    obtain ⟨message, before, e, after, hl, hsplit, hs, rfl⟩ := h.entry
    obtain ⟨c, hc, rfl⟩ := ih
    obtain ⟨x, hx, hn, hexp⟩ := hall c hc
    obtain ⟨path, visited, st, hm, hcall⟩ := meets_of_call ht hx
    rw [← hcall] at hexp
    rw [← hn] at hl
    exact ⟨_, mem_calls_of_meets ht (.inner hm (hexp.message hl) hl hsplit hs), rfl⟩

/-- The definition of a message that is met. -/
theorem defs_message (hr : AllResolved root) (hf : FindsFullNames root)
    (ht : foundType root start = some type) (hall : ExpandsAll root comments start) {c : TypeCall}
    (hc : c ∈ searchCalls root comments start) {message : ProtoType}
    (hl : root.lookupType c.typeName = some message) : ∃ properties,
      (generateSchema root comments start).defs.get c.definitionName =
        some (messageSchema comments message c.typeName c.definitionName properties) ∧
      List.Forall₂ (IsPropertySchema comments (searchCalls root comments start) message)
        message.fields.entries properties := by
  have htype := root.lookupType_mem (lookupType_of_found ht)
  obtain ⟨e, he, hn, hexp⟩ := hall c hc
  have hname := (searchCalls_spec root comments start).2.1 e he c hc hn
  obtain ⟨hcalls, hschema⟩ := searchCalls_of_found comments ht
  obtain ⟨path, visited, st, hm, hcall⟩ := meets_of_call ht he
  rw [← hn] at hl
  have hexpands : (typeCall root visited e.typeName st).ExpandsMessage root :=
    (hcall.symm ▸ hexp : (typeCall root visited e.typeName st).Expands root).message hl
  have hdef := hm.definition htype hexpands hl
  rw [hcall, hname] at hdef
  refine ⟨expandedProperties root comments visited e.typeName message st, ?_, ?_⟩
  · rw [hschema, defs_typeToSchema, ← hn]
    exact hdef
  · rw [hcalls]
    exact expandedProperties_properties hr hf htype hm hexpands hl

/-- The definition of an enum that is met. -/
theorem defs_enum (hall : ExpandsAll root comments start) {c : TypeCall}
    (hc : c ∈ searchCalls root comments start) (hn : root.lookupType c.typeName = none)
    {e : ProtoEnum} (he : root.lookupEnum c.typeName = some e) :
    (generateSchema root comments start).defs.get c.definitionName =
      some (enumSchema comments e c.typeName c.definitionName) := by
  obtain ⟨x, hx, hxn, hexp⟩ := hall c hc
  obtain ⟨-, hname, hspec⟩ := searchCalls_spec root comments start
  obtain ⟨⟨s, hs, hdescribes⟩, -⟩ := hspec x hx hexp
  rw [hname x hx c hc hxn] at hs
  rw [hs]
  rcases hdescribes with ⟨message, properties, hl, -⟩ | ⟨-, e', he', rfl⟩
  · rw [hxn, hn] at hl
    exact absurd hl (Option.some_ne_none message).symm
  · rw [hxn, he, Option.some_inj] at he'
    rw [hxn, hname x hx c hc hxn, he']

end Expanded

/-- The properties of a message where each field refers to the name of its type. -/
def propertiesUnder (comments : Comments) (name : JsString → JsString) (message : ProtoType) :
    List (JsString × Schema) :=
  message.fields.entries.map fun e => (e.1, fieldSchemaOf comments message e.1 e.2
    ((protoToJsonType e.2.type).getD (.ref (name (resolvedTypeName message e.2)) none)))

/-- In the schema of a message each field of it refers to the name of the field's own type, and so
does each in the definitions. Under the name of a type is the definition made of this type, and no
two types have one name. -/
structure RefersExactly (root : ProtoRoot) (comments : Comments) (start : JsString)
    (type : ProtoType) (name : JsString → JsString) : Prop where
  injective : ∀ n m, Reached root start n → Reached root start m → name n = name m → n = m
  properties : (generateSchema root comments start).properties = propertiesUnder comments name type
  message : ∀ n message, Reached root start n → root.lookupType n = some message →
    (generateSchema root comments start).defs.get (name n) =
      some (messageSchema comments message n (name n) (propertiesUnder comments name message))
  enum : ∀ n e, Reached root start n → root.lookupType n = none → root.lookupEnum n = some e →
    (generateSchema root comments start).defs.get (name n) =
      some (enumSchema comments e n (name n))

/-- Properties that refer by calls refer to the names given to the types. -/
theorem properties_eq_under {start : JsString} {message : ProtoType}
    {fields : List (JsString × ProtoField)} {properties : List (JsString × Schema)}
    (h : List.Forall₂ (IsPropertySchema comments (searchCalls root comments start) message) fields
      properties) : properties = fields.map fun e => (e.1, fieldSchemaOf comments message e.1 e.2
        ((protoToJsonType e.2.type).getD
          (.ref (nameGiven root comments start (resolvedTypeName message e.2)) none))) := by
  induction h with
  | nil => rfl
  | @cons e p fields properties hp _ ih =>
    obtain ⟨hname, item, hitem, hschema⟩ := hp
    rw [List.map_cons, ← ih]
    refine congrArg (· :: properties) (Prod.ext hname.symm (hschema.trans ?_))
    rcases hitem with hs | ⟨hs, c, hc, hn, rfl⟩
    · rw [hs, Option.getD_some]
    · rw [hs, Option.getD_none, ← hn, nameGiven_of_call hc]

theorem refs_fieldSchemaOf {message : ProtoType} {name : JsString} {field : ProtoField}
    {item : Schema} : (fieldSchemaOf comments message name field item).refs = item.refs := by
  unfold fieldSchemaOf
  split_ifs
  · rw [refs_addFieldDescription, Schema.refs]
  · rw [Schema.refs, refs_addFieldDescription]
  · rw [refs_addFieldDescription]

/-- The properties of a message show the names of its fields' types. -/
theorem name_eq_of_properties {name name' : JsString → JsString} {message : ProtoType}
    {before after : List (JsString × ProtoField)} {e : JsString × ProtoField}
    (h : propertiesUnder comments name message = propertiesUnder comments name' message)
    (hb : message.fields.entries = before ++ e :: after) (hs : protoToJsonType e.2.type = none) :
    name (resolvedTypeName message e.2) = name' (resolvedTypeName message e.2) := by
  have he : e ∈ message.fields.entries := hb ▸ List.mem_append_right _ List.mem_cons_self
  have hschema := congrArg (fun p => Schema.refs p.2) (List.map_inj_left.1 h e he)
  simpa [refs_fieldSchemaOf, hs, Schema.refs] using hschema

section Exact

variable {start : JsString} {type : ProtoType}

/-- Where the type of every field is laid out, the references are to the definitions of the types
themselves. -/
theorem refersExactly_of_layout (hr : AllResolved root) (hf : FindsFullNames root)
    (ht : foundType root start = some type)
    (h : (searchLayout root comments start type).TypesLaidOut root start) :
    RefersExactly root comments start type (nameGiven root comments start) := by
  have hall : ExpandsAll root comments start := .of_layout ht h
  have hlaid : ∀ {n}, Reached root start n →
      n ∈ (searchLayout root comments start type).types := by
    intro n hn
    obtain ⟨c, hc, rfl⟩ := hall.met ht hn
    obtain ⟨path, visited, st, hm, -⟩ := meets_of_call ht hc
    exact h _ ((mem_searchLayout_fields ht).2 ⟨visited, st, hm⟩)
  obtain ⟨hcalls, hschema⟩ := searchCalls_of_found comments ht
  refine ⟨fun n m hn hm heq => ?_, ?_, fun n message hn hl => ?_, fun n e hn hl he => ?_⟩
  · exact (searchLayout_inOrder comments ht).distinct n (hlaid hn) m (hlaid hm) heq
  · have hp := searchType_properties comments hr hf (mem_types_of_found ht)
    rw [← hcalls] at hp
    rw [hschema]
    exact properties_eq_under hp
  · obtain ⟨c, hc, rfl⟩ := hall.met ht hn
    obtain ⟨properties, hs, hp⟩ := defs_message hr hf ht hall hc hl
    rw [nameGiven_of_call hc, hs, properties_eq_under hp]
    rfl
  · obtain ⟨c, hc, rfl⟩ := hall.met ht hn
    rw [nameGiven_of_call hc, defs_enum hall hc hl he]

variable {name : JsString → JsString} {path : List ℕ} {visited : List JsString} {n : JsString}
  {st : GenState}

/-- The names that references have are those that the search gives. -/
theorem RefersExactly.nameGiven_eq (h : RefersExactly root comments start type name)
    (hr : AllResolved root) (hf : FindsFullNames root) (ht : foundType root start = some type)
    (hm : Meets root comments type path visited n st) :
    nameGiven root comments start n = name n := by
  have htype := mem_types_of_found ht
  obtain ⟨hcalls, hschema⟩ := searchCalls_of_found comments ht
  induction hm with
  | own hb hs =>
    have hp := searchType_properties comments hr hf htype
    rw [← hcalls] at hp
    have hprops := h.properties
    rw [hschema] at hprops
    exact name_eq_of_properties ((properties_eq_under hp).symm.trans hprops) hb hs
  | @inner path visited n st message before e after hm he hl hb hs ih =>
    -- the definition of the message around is the one of its own name
    have hp := expandedProperties_properties hr hf htype hm he hl
    rw [← hcalls] at hp
    have hdef := h.message n message (hm.reached ht) hl
    rw [← ih, hm.nameGiven_eq ht, hschema, defs_typeToSchema, hm.definition htype he hl,
      Option.some_inj] at hdef
    injection hdef with hprops
    exact name_eq_of_properties ((properties_eq_under hp).symm.trans hprops) hb hs

/-- Where the references are to the definitions of the types themselves, the type of every field is
laid out. -/
theorem RefersExactly.typesLaidOut (h : RefersExactly root comments start type name)
    (hr : AllResolved root) (hf : FindsFullNames root) (ht : foundType root start = some type) :
    (searchLayout root comments start type).TypesLaidOut root start := by
  rintro ⟨path, n⟩ hfield
  obtain ⟨visited, st, hm⟩ := (mem_searchLayout_fields ht).1 hfield
  have hreached := hm.reached ht
  have hhas : (generateSchema root comments start).defs.has
      (typeCall root visited n st).definitionName := by
    rw [← hm.nameGiven_eq ht, h.nameGiven_eq hr hf ht hm]
    have hin : InRoot root n := inRoot_of_ledTo hr hf hreached.ledTo
    rcases hl : root.lookupType n with _ | message
    · obtain ⟨e, he⟩ := Option.isSome_iff_exists.1 (hin.resolve_left (by simp [hl]))
      exact Option.isSome_of_eq_some (h.enum n e hreached hl he)
    · exact Option.isSome_of_eq_some (h.message n message hreached hl)
  obtain ⟨m, hmem, hname⟩ := (has_iff_type ht hm).1 hhas
  obtain ⟨v, s, hm', -⟩ := expandsAt_place ht hmem
  have heq : name m = name n := by
    rw [← h.nameGiven_eq hr hf ht hm', ← h.nameGiven_eq hr hf ht hm]
    exact hname
  rwa [← h.injective m n (hm'.reached ht) hreached heq]

end Exact

/-- Every reference in the schema of a message is to the definition made of its own type, and no two
types share one, just where the types can be laid out below the message in order so that the type of
every field is among them. -/
theorem refs_exact (comments : Comments) (hr : AllResolved root) (hf : FindsFullNames root)
    {start : JsString} {type : ProtoType} (ht : foundType root start = some type) :
    (∃ name, RefersExactly root comments start type name) ↔
      ∃ l : Layout, l.InOrder root start ∧ l.TypesLaidOut root start := by
  constructor
  · rintro ⟨name, h⟩
    exact ⟨_, searchLayout_inOrder comments ht, h.typesLaidOut hr hf ht⟩
  · rintro ⟨l, h, hl⟩
    exact ⟨_, refersExactly_of_layout hr hf ht
      (h.typesLaidOut (searchLayout_inOrder comments ht) hl)⟩

theorem bothFoosLayout_typesLaidOut :
    bothFoosLayout.TypesLaidOut bothFoosRoot (js "app.Root") := by
  unfold Layout.TypesLaidOut
  decide

/-- The two types `Foo` have a definition each. -/
theorem refs_exact_bothFoos :
    ∃ name, RefersExactly bothFoosRoot noComments (js "app.Root") bothFoos name :=
  (refs_exact noComments (rootOf_allResolved (by decide)) (rootOf_findsFullNames (by decide))
    rfl).2 ⟨bothFoosLayout, bothFoosLayout_inOrder, bothFoosLayout_typesLaidOut⟩

def nestedC (fullName : String) : ProtoType := .mk (js "C") (js fullName) Map.empty [] []

/-- `app.Root` with an `a.P.C` and a `b.P.C`. -/
def bothCs : ProtoType :=
  .mk (js "Root") (js ".app.Root") ((Map.empty.set (js "x") (fieldOf "a.P.C" ".a.P.C")).set
    (js "y") (fieldOf "b.P.C" ".b.P.C")) [] []

def sameNested : ProtoRoot :=
  rootOf
    [bothCs, .mk (js "P") (js ".a.P") Map.empty [] [.type (nestedC ".a.P.C")], nestedC ".a.P.C",
      .mk (js "P") (js ".b.P") Map.empty [] [.type (nestedC ".b.P.C")], nestedC ".b.P.C"] []

/-- The fields of the two nested types both refer to the definition `P.C`. -/
theorem not_refs_exact : AllResolved sameNested ∧ FindsFullNames sameNested ∧
    (generateSchema sameNested noComments (js "app.Root")).properties.map
      (fun p => (p.1, p.2.refs)) = [(js "x", [js "P.C"]), (js "y", [js "P.C"])] ∧
    ¬ ∃ name, RefersExactly sameNested noComments (js "app.Root") bothCs name := by
  have hrefs : (generateSchema sameNested noComments (js "app.Root")).properties.map
    (fun p => (p.1, p.2.refs)) = [(js "x", [js "P.C"]), (js "y", [js "P.C"])] := by decide
  refine ⟨rootOf_allResolved (by decide), rootOf_findsFullNames (by decide), hrefs, ?_⟩
  rintro ⟨name, h⟩
  have hunder : (propertiesUnder noComments name bothCs).map (fun p => (p.1, p.2.refs)) =
    [(js "x", [name (js "a.P.C")]), (js "y", [name (js "b.P.C")])] := rfl
  rw [h.properties, hunder] at hrefs
  simp only [List.cons.injEq, Prod.mk.injEq, true_and, and_true] at hrefs
  have hreached : ∀ e ∈ bothCs.fields.entries, protoToJsonType e.2.type = none →
      Reached sameNested (js "app.Root") (resolvedTypeName bothCs e.2) := fun e he hs =>
    .single ⟨bothCs, rfl, e.2, List.mem_map_of_mem he, hs, rfl⟩
  have hsame := h.injective (js "a.P.C") (js "b.P.C")
    (hreached (js "x", fieldOf "a.P.C" ".a.P.C") List.mem_cons_self rfl)
    (hreached (js "y", fieldOf "b.P.C" ".b.P.C") (List.mem_cons_of_mem _ List.mem_cons_self) rfl)
    (hrefs.1.trans hrefs.2.symm)
  exact absurd hsame (by decide)

end DiiaApp
