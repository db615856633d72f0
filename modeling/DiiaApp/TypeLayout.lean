import DiiaApp.JsonSchemaGenerator
import Mathlib.Data.List.Lex
import Mathlib.Logic.Relation

/-!
# Types that fields lead to

What the schema generator reads of a root is a graph: the fields of a message, in their order, lead
to the types that they are of. A layout puts types in a tree below a message, each at a field of the
message or of a type above. Its place is the path to this field, by positions, so that places are
ordered as the fields are, one inside of another after it. A layout is in order (`Layout.InOrder`)
where each type stands at the first field of its name that is not inside of a type of its short
name, and the names are given in this order.
-/

namespace DiiaApp

open Js

variable (root : ProtoRoot)

/-- A field of the message `n` is of the type `m`. -/
def Leads (n m : JsString) : Prop :=
  ∃ message, root.lookupType n = some message ∧ ∃ field ∈ message.fields.values,
    protoToJsonType field.type = none ∧ resolvedTypeName message field = m

/-- Fields lead from the message `start` to the type. -/
abbrev Reached (start n : JsString) : Prop := Relation.TransGen (Leads root) start n

/-- The type is a message or an enum of the root. -/
def InRoot (n : JsString) : Prop := (root.lookupType n).isSome ∨ (root.lookupEnum n).isSome

instance (n : JsString) : Decidable (InRoot root n) := inferInstanceAs (Decidable (_ ∨ _))

/-- The names of the messages and enums that fields lead to. -/
def complexTypeNames : List JsString :=
  root.types.flatMap fun type =>
    (type.fields.values.filter fun field => (protoToJsonType field.type).isNone).map
      (resolvedTypeName type)

/-- The name that a type is given where no other type has its short name. -/
def plainName (n : JsString) : JsString :=
  if root.nestedInType n then qualifiedName n else shortNameOf n

/-- The types of the fields differ in their short names and in the names they are given, none of
which every object inherits. -/
structure DistinctNames : Prop where
  short : ∀ n ∈ complexTypeNames root, ∀ m ∈ complexTypeNames root,
    shortNameOf n = shortNameOf m → n = m
  plain : ∀ n ∈ complexTypeNames root, ∀ m ∈ complexTypeNames root,
    plainName root n = plainName root m → n = m
  inherited : ∀ n ∈ complexTypeNames root, plainName root n ∉ inheritedNames

/-- The positions and types of the fields that are of no scalar type. -/
def complexFields (message : ProtoType) : List (ℕ × JsString) :=
  message.fields.entries.zipIdx.filterMap fun e =>
    if (protoToJsonType e.1.2.type).isNone then some (e.2, resolvedTypeName message e.1.2) else none

/-- The message whose fields are looked at: `start` itself, or one below. -/
def ownerMessage (start : JsString) : Option JsString → Option ProtoType
  | none => foundType root start
  | some n => root.lookupType n

/-- Types below a message, with the places where they stand and the names that types are given. -/
structure Layout where
  types : List JsString
  place : JsString → List ℕ
  name : JsString → JsString

namespace Layout

variable (start : JsString) (l : Layout)

/-- Where the fields of `start` and of the types laid out stand, and of which types they are. -/
def fields : List (List ℕ × JsString) :=
  (none :: l.types.map some).flatMap fun owner =>
    ((ownerMessage root start owner).elim [] complexFields).map fun f =>
      (owner.elim [] l.place ++ [f.1], f.2)

/-- One of the types over a field has the short name of the field's type. -/
def Inside (f : List ℕ × JsString) : Prop :=
  ∃ n ∈ l.types, l.place n <+: f.1.dropLast ∧ shortNameOf n = shortNameOf f.2

instance (f : List ℕ × JsString) : Decidable (l.Inside f) :=
  inferInstanceAs (Decidable (∃ _ ∈ _, _))

/-- The short name of the type is the name of another one, of which a field comes before all that
are of the type. -/
def Taken (n : JsString) : Prop :=
  ∃ f ∈ l.fields root start, f.2 ≠ n ∧ l.name f.2 = shortNameOf n ∧
    ∀ g ∈ l.fields root start, g.2 = n → f.1 < g.1

instance (n : JsString) : Decidable (l.Taken root start n) :=
  inferInstanceAs (Decidable (∃ _ ∈ _, _))

/-- Each type stands at a field of its own, not inside of a type of its short name, and it is found.
Their names are different, and none is one that every object inherits. No field that could be the
place of a type comes before the type of its name. -/
structure InOrder : Prop where
  field : ∀ n ∈ l.types, (l.place n, n) ∈ l.fields root start
  outside : ∀ n ∈ l.types, ¬ l.Inside (l.place n, n)
  inRoot : ∀ n ∈ l.types, InRoot root n
  inherited : ∀ n ∈ l.types, l.name n ∉ inheritedNames
  distinct : ∀ n ∈ l.types, ∀ m ∈ l.types, l.name n = l.name m → n = m
  first : ∀ f ∈ l.fields root start, InRoot root f.2 → l.name f.2 ∉ inheritedNames →
    ¬ l.Inside f → ∃ n ∈ l.types, l.name n = l.name f.2 ∧ l.place n ≤ f.1
  named : ∀ f ∈ l.fields root start, l.name f.2 =
    if root.nestedInType f.2 then qualifiedName f.2
    else if l.Taken root start f.2 then f.2
    else shortNameOf f.2

/-- No field is of a type whose name every object inherits, and where a field is inside of a type of
the short name of its own, a type laid out has the name. -/
structure NamesLaidOut : Prop where
  inherited : ∀ f ∈ l.fields root start, l.name f.2 ∉ inheritedNames
  inside : ∀ f ∈ l.fields root start, l.Inside f → ∃ n ∈ l.types, l.name n = l.name f.2

/-- The type of every field is laid out. -/
def TypesLaidOut : Prop := ∀ f ∈ l.fields root start, f.2 ∈ l.types

/-- A field of a type that is nowhere refers to a name: one of a type that stands before, one that
every object inherits, or that of a type of its short name around it. -/
def RefersAt (f : List ℕ × JsString) : Prop :=
  (∃ n ∈ l.types, l.name n = l.name f.2 ∧ l.place n < f.1) ∨ l.name f.2 ∈ inheritedNames ∨
    l.Inside f

instance (f : List ℕ × JsString) : Decidable (l.RefersAt f) := inferInstanceAs (Decidable (_ ∨ _))

/-- The message is laid out below itself, and there the fields of types that are nowhere refer to
their names just where they do at the top. -/
structure RefersAlike (type : ProtoType) : Prop where
  self : start ∈ l.types
  alike : ∀ f ∈ complexFields type, ¬ InRoot root f.2 →
    (l.RefersAt ([f.1], f.2) ↔ l.RefersAt (l.place start ++ [f.1], f.2))

end Layout

end DiiaApp
