import DiiaApp.Js.Map
import DiiaApp.Js.Text
import DiiaApp.NameTree

/-!
# Roots of the `protobufjs` reflection

The message types and enums of a root, as far as the schema generator reads them. How a root finds
an object by name is left to it (`ProtoRoot`); it finds no message type that is not among its own.
-/

namespace DiiaApp

open Js

/-- A field, a map field where it has a key type. `resolvedType` is the full name of the object its
type was resolved to, `partOf` the oneof it belongs to. -/
structure ProtoField where
  type : JsString
  id : ℕ
  keyType : Option JsString
  repeated : Bool
  resolvedType : Option JsString
  partOf : Option JsString

structure OneOf where
  name : JsString
  oneof : List JsString

structure ProtoEnum where
  name : JsString
  fullName : JsString
  values : Js.Map JsString ℤ

mutual

inductive ProtoType
  | mk (name fullName : JsString) (fields : Js.Map JsString ProtoField) (oneofs : List OneOf)
    (nested : List ProtoNested)

/-- What a message type declares inside. -/
inductive ProtoNested
  | type (t : ProtoType)
  | enum (e : ProtoEnum)

end

namespace ProtoType

def name : ProtoType → JsString
  | mk name _ _ _ _ => name

def fullName : ProtoType → JsString
  | mk _ fullName _ _ _ => fullName

def fields : ProtoType → Js.Map JsString ProtoField
  | mk _ _ fields _ _ => fields

def oneofs : ProtoType → List OneOf
  | mk _ _ _ oneofs _ => oneofs

def nested : ProtoType → List ProtoNested
  | mk _ _ _ _ nested => nested

/-- `type.nested[name]` where it is a message type. -/
def nestedType (t : ProtoType) (name : JsString) : Option ProtoType :=
  t.nested.findSome? fun
    | .type u => if u.name = name then some u else none
    | .enum _ => none

end ProtoType

/-- A root: its message types and enums, in the order of a depth-first walk of the namespaces, and
its lookups. `lookupType` and `lookupEnum` have nothing where they throw, and `nestedInType` tells
whether the object `lookup` finds stands in a message type. -/
structure ProtoRoot where
  types : List ProtoType
  enums : List ProtoEnum
  lookupType : JsString → Option ProtoType
  lookupEnum : JsString → Option ProtoEnum
  nestedInType : JsString → Bool
  lookupType_mem : ∀ {n t}, lookupType n = some t → t ∈ types

/-- What an object of a root is. A `plain` one is a namespace and nothing else, a `member` a field,
a oneof or a method. -/
inductive RootObject
  | plain
  | type (t : ProtoType)
  | enum (e : ProtoEnum)
  | service (methods : List JsString)
  | member

namespace RootObject

/-- `instanceof protobuf.Namespace`, which types and services are as well. -/
def isNamespace : RootObject → Bool
  | plain | type _ | service _ => true
  | enum _ | member => false

def memberNames : RootObject → List JsString
  | type t => t.fields.keys ++ t.oneofs.map OneOf.name
  | service methods => methods
  | _ => []

/-- The message type that an object is. -/
def type? : RootObject → Option ProtoType
  | type t => some t
  | _ => none

end RootObject

instance : NameTree.Opens JsString RootObject :=
  ⟨fun o x => o.isNamespace && !o.memberNames.contains x⟩

/-- The objects of a root, as they nest. -/
abbrev RootTree := NameTree JsString RootObject

/-- What `lookup` meets under a name without dots, of any kind: as `_lookupImpl` of `protobufjs`
goes, the object or member of the name where there is one, and otherwise the last one met in the
nested namespaces. -/
def RootTree.lookup (tree : RootTree) (name : JsString) : Option RootObject :=
  (tree.search (fun o x => if o.memberNames.contains x then some .member else none) [name]).map
    NameTree.data

/-- A root with the objects of a tree, which looks up names without dots in it. -/
structure ProtoRoot.Has (root : ProtoRoot) (tree : RootTree) : Prop where
  types : ∀ t, t ∈ root.types ↔ ∃ p, tree.slot p = .taken (.type t)
  lookupType : ∀ n, n ≠ [] → dot ∉ n →
    root.lookupType n = (RootTree.lookup tree n).bind RootObject.type?

end DiiaApp
