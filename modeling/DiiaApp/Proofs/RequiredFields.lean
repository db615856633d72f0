import DiiaApp.Proofs.SchemaDefinitions

/-!
# Expansions and required fields

The search for a schema ends and expands no name twice (`generateSchema_ends`). The fields that it
lists as required are those that no value of the message can lack just where the message has no
oneof but those of proto3-optional fields (`required_iff`).
-/

namespace DiiaApp

open Js

variable (root : ProtoRoot) (comments : Comments)

/-- The call runs `resolveMessageType`. -/
def TypeCall.ExpandsMessage (c : TypeCall) : Prop :=
  c.defined = false ∧ c.definitionName ∉ inheritedNames ∧ c.visited = false ∧
    (root.lookupType c.typeName).isSome

variable {root} in
theorem TypeCall.ExpandsMessage.expands {c : TypeCall} (h : c.ExpandsMessage root) :
    c.Expands root := ⟨h.1, h.2.1, h.2.2.1, .inl h.2.2.2⟩

variable {root} in
theorem TypeCall.Expands.message {c : TypeCall} (h : c.Expands root) {type : ProtoType}
    (ht : root.lookupType c.typeName = some type) : c.ExpandsMessage root :=
  ⟨h.1, h.2.1, h.2.2.1, Option.isSome_of_eq_some ht⟩

/-- The schema of a type found for `typeName`, with `bottom` in the place of what the search does more
than `fuel` levels down. -/
def typeToSchemaOver (bottom : Resolver) (fuel : ℕ) (typeName : JsString) (type : ProtoType) :
    JsonSchema :=
  let search := fieldsToSchema comments (resolveOver root comments bottom fuel) [] type
    type.fields.entries initialState
  { typeToSchema root comments typeName type with
    properties := search.1
    definitions :=
      if search.2.definitions.entries = [] then none else some search.2.definitions }

def generateSchemaOver (bottom : Resolver) (fuel : ℕ) (typeName : JsString) : JsonSchema :=
  match foundType root typeName with
  | some type => typeToSchemaOver root comments bottom fuel typeName type
  | none => ⟨[], none, none, [], none⟩

/-- Whatever the search did further down than `searchDepth` levels, the schema is the same, and of
the calls that expand a message no two have one name. -/
theorem generateSchema_ends (typeName : JsString) :
    (∀ (bottom : Resolver) (fuel : ℕ), searchDepth root ≤ fuel →
      generateSchemaOver root comments bottom fuel typeName
        = generateSchema root comments typeName ∧
      ∀ type, foundType root typeName = some type →
        fieldsToSchema comments (resolveOver root comments bottom fuel) [] type
          type.fields.entries initialState = searchType root comments type) ∧
    (searchCalls root comments typeName).Pairwise fun c c' =>
      c.ExpandsMessage root → c'.ExpandsMessage root → c.definitionName ≠ c'.definitionName := by
  have hmem : ∀ {type}, foundType root typeName = some type → type ∈ root.types := by
    intro type h
    unfold foundType at h
    split_ifs at h
    exact root.lookupType_mem h
  refine ⟨fun bottom fuel hf => ⟨?_, fun type h => searchType_eq (hmem h) bottom hf⟩, ?_⟩
  · rcases h : foundType root typeName with _ | type
    · rw [generateSchemaOver, h, generateSchema, ← foundType, h]
    · rw [generateSchemaOver, h, generateSchema, ← foundType, h]
      show typeToSchemaOver root comments bottom fuel typeName type = _
      rw [typeToSchemaOver, searchType_eq (hmem h) bottom hf]
      rfl
  · unfold searchCalls
    split
    · next type _ =>
      exact (searchType_grows root comments type).once.imp
        fun h hc hc' => h hc.expands hc'.expands
    · exact List.Pairwise.nil

def oneofOf (field : ProtoField) : Option JsString :=
  if field.repeated ∨ field.keyType.isSome then none else field.partOf

/-- A value of a message has the fields `present`: all that are in no oneof, and of each oneof at
most one member. -/
structure LegalValue (type : ProtoType) (present : List JsString) : Prop where
  always : ∀ e ∈ type.fields.entries, oneofOf e.2 = none → e.1 ∈ present
  once : ∀ e ∈ type.fields.entries, ∀ e' ∈ type.fields.entries, ∀ oneof,
    oneofOf e.2 = some oneof → oneofOf e'.2 = some oneof → e.1 ∈ present → e'.1 ∈ present → e = e'

/-- The message has no oneof but those of proto3-optional fields. -/
def OptionalOneofsOnly (type : ProtoType) : Prop :=
  ∀ e ∈ type.fields.entries, ∀ oneof, oneofOf e.2 = some oneof → oneof.head? = some 95

def alwaysPresent (type : ProtoType) : List JsString :=
  (type.fields.entries.filter fun e => oneofOf e.2 = none).map Prod.fst

theorem mem_alwaysPresent {type : ProtoType} {e : JsString × ProtoField}
    (he : e ∈ type.fields.entries) : e.1 ∈ alwaysPresent type ↔ oneofOf e.2 = none := by
  constructor
  · intro h
    obtain ⟨e₀, h₀, heq⟩ := List.mem_map.1 h
    rw [List.mem_filter, decide_eq_true_eq] at h₀
    have hf := Map.find_of_mem type.fields.nodup he
    rw [Map.find_of_mem type.fields.nodup (show (e.1, e₀.2) ∈ _ from heq ▸ h₀.1),
      Option.some_inj] at hf
    rw [← hf, h₀.2]
  · exact fun h => List.mem_map_of_mem (List.mem_filter.2 ⟨he, by simpa using h⟩)

theorem legalValue_alwaysPresent (type : ProtoType) : LegalValue type (alwaysPresent type) where
  always e he hn := (mem_alwaysPresent he).2 hn
  once e he e' _ oneof ho _ hp _ := by
    rw [(mem_alwaysPresent he).1 hp] at ho
    exact absurd ho.symm (Option.some_ne_none oneof)

theorem oneofOf_eq_some {field : ProtoField} {oneof : JsString} (h : oneofOf field = some oneof) :
    field.repeated = false ∧ field.partOf = some oneof := by
  unfold oneofOf at h
  split_ifs at h with hs
  rw [not_or, Bool.not_eq_true] at hs
  exact ⟨hs.1, h⟩

/-- Every value has the required fields. -/
def PresentInAll (type : ProtoType) (required : List JsString) : Prop :=
  ∀ present, LegalValue type present → ∀ n ∈ required, n ∈ present

theorem requiredFields_present_iff (type : ProtoType) :
    PresentInAll type (requiredFields type) ↔ OptionalOneofsOnly type := by
  constructor
  · intro h e he oneof ho
    by_contra hopt
    obtain ⟨hsingle, hpart⟩ := oneofOf_eq_some ho
    have hreq : e.1 ∈ requiredFields type :=
      List.mem_map_of_mem (List.mem_filter.2 ⟨he, by simp [isExplicitlyOptional, *]⟩)
    have hnone := (mem_alwaysPresent he).1 (h _ (legalValue_alwaysPresent type) _ hreq)
    exact Option.some_ne_none oneof (ho.symm.trans hnone)
  · intro h present hv n hn
    obtain ⟨e, he, rfl⟩ := List.mem_map.1 hn
    rw [List.mem_filter, decide_eq_true_eq] at he
    refine hv.always e he.1 ?_
    by_contra hne
    obtain ⟨oneof, ho⟩ := Option.ne_none_iff_exists'.1 hne
    exact he.2.1 (by simp [isExplicitlyOptional, (oneofOf_eq_some ho).2, h e he.1 oneof ho])

def Schema.required : Schema → List JsString
  | .object _ _ _ required => required
  | _ => []

/-- The definition of name `d` is made of a message type. -/
def MadeOf (typeName d : JsString) (type : ProtoType) : Prop :=
  ∃ c ∈ searchCalls root comments typeName, c.ExpandsMessage root ∧ c.definitionName = d ∧
    root.lookupType c.typeName = some type

/-- The required fields of the schema and of each definition are in all values of their message, and
a definition of no message requires none. -/
structure RequiredPresent (typeName : JsString) : Prop where
  ofType : ∀ type, foundType root typeName = some type →
    PresentInAll type (generateSchema root comments typeName).required
  ofMessage : ∀ d s, (generateSchema root comments typeName).defs.get d = some s →
    ∀ type, MadeOf root comments typeName d type → PresentInAll type s.required
  ofNone : ∀ d s, (generateSchema root comments typeName).defs.get d = some s →
    (∀ type, ¬ MadeOf root comments typeName d type) → s.required = []

theorem required_generateSchema {typeName : JsString} {type : ProtoType}
    (h : foundType root typeName = some type) :
    (generateSchema root comments typeName).required = requiredFields type := by
  unfold foundType at h
  rw [generateSchema, h]
  rfl

/-- What a call that expands a message leaves under its name. -/
theorem required_madeOf {typeName d : JsString} {type : ProtoType}
    (h : MadeOf root comments typeName d type) :
    ∃ s, (generateSchema root comments typeName).defs.get d = some s ∧
      s.required = requiredFields type := by
  obtain ⟨c, hc, ⟨hd, hi, hv, hs⟩, rfl, ht⟩ := h
  obtain ⟨⟨s, hget, hdesc⟩, -⟩ :=
    (searchCalls_spec root comments typeName).2.2 c hc ⟨hd, hi, hv, .inl hs⟩
  refine ⟨s, hget, ?_⟩
  rcases hdesc with ⟨type', properties, ht', -, rfl⟩ | ⟨hn, -⟩
  · obtain rfl := Option.some.inj (ht.symm.trans ht')
    rfl
  · exact absurd (ht.symm.trans hn) (Option.some_ne_none type)

/-- Every required field is in all values of its message just where neither the message nor one in a
definition has a oneof but those of proto3-optional fields. -/
theorem required_iff (typeName : JsString) : RequiredPresent root comments typeName ↔
    ∀ type, (foundType root typeName = some type ∨ ∃ d, MadeOf root comments typeName d type) →
      OptionalOneofsOnly type := by
  constructor
  · rintro h type (ht | ⟨d, hd⟩)
    · have hp := h.ofType type ht
      rwa [required_generateSchema root comments ht, requiredFields_present_iff] at hp
    · obtain ⟨s, hs, hreq⟩ := required_madeOf root comments hd
      have hp := h.ofMessage d s hs type hd
      rwa [hreq, requiredFields_present_iff] at hp
  · intro h
    refine ⟨fun type ht => ?_, fun d s hs type hd => ?_, fun d s hs hnone => ?_⟩
    · rw [required_generateSchema root comments ht, requiredFields_present_iff]
      exact h type (.inl ht)
    · obtain ⟨s', hs', hreq⟩ := required_madeOf root comments hd
      obtain rfl := Option.some.inj (hs.symm.trans hs')
      rw [hreq, requiredFields_present_iff]
      exact h type (.inr ⟨d, hd⟩)
    · obtain ⟨c, hc, he, rfl⟩ := (defs_has_iff root comments typeName d).1
        (Option.isSome_iff_exists.2 ⟨s, hs⟩)
      obtain ⟨⟨s', hs', hdesc⟩, -⟩ := (searchCalls_spec root comments typeName).2.2 c hc he
      obtain rfl := Option.some.inj (hs.symm.trans hs')
      rcases hdesc with ⟨type, -, ht, -⟩ | ⟨-, e, -, rfl⟩
      · exact absurd ⟨c, hc, he.message ht, rfl, ht⟩ (hnone type)
      · rfl

/-- `app.Order` with an oneof of two contacts. -/
def orderType : ProtoType :=
  .mk (js "Order") (js ".app.Order")
    ((Map.empty.set (js "email") ⟨js "string", 1, none, false, none, some (js "contact")⟩).set
      (js "phone") ⟨js "string", 2, none, false, none, some (js "contact")⟩)
    [⟨js "contact", [js "email", js "phone"]⟩] []

def orderRoot : ProtoRoot := rootOf [orderType] []

/-- An order without a contact lacks the phone that its schema requires. -/
theorem not_requiredPresent : ¬ RequiredPresent orderRoot noComments (js "app.Order") := by
  intro h
  have hreq : js "phone" ∈ (generateSchema orderRoot noComments (js "app.Order")).required := by
    decide
  have htype : foundType orderRoot (js "app.Order") = some orderType := rfl
  exact absurd (h.ofType orderType htype _ (legalValue_alwaysPresent orderType) _ hreq) (by decide)

end DiiaApp
