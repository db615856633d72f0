import DiiaApp.NameTree
import DiiaApp.ProtoSource

/-!
# Comments of a proto root

`extractFieldComments` and `extractMessageComments` walk the objects of a root. The comment on a
field goes under `Message.field` and under the path of the message with the field, the comment on a
message or an enum under its name. What is set last stands.
-/

namespace DiiaApp

open Js

/-- A name of the proto language. -/
abbrev Identifier := { s : JsString // s ≠ [] ∧ dot ∉ s }

/-- What an object is, with the comments on it and on its fields. A `plain` one is a namespace that
is neither a type nor a service. -/
inductive DocKind
  | type (comment : Option JsString) (fields : List (Identifier × Option JsString))
  | enum (comment : Option JsString)
  | plain
  | other

abbrev DocObject := NameTree Identifier DocKind

/-- The comment that a truth test lets through. -/
def ownComment (comment : Option JsString) : Option JsString := comment.filter (· ≠ [])

/-- The name after the path of a parent, where it has one. -/
def pathIn (parentPath : JsString) (name : Identifier) : JsString :=
  if parentPath = [] then name else parentPath ++ [dot] ++ name

def fieldKey (typePath : JsString) (field : Identifier) : JsString := typePath ++ [dot] ++ field

def setFieldComment (name typePath : JsString) (comments : Js.Map JsString JsString)
    (field : Identifier × Option JsString) : Js.Map JsString JsString :=
  match ownComment field.2 with
  | some comment =>
    (comments.set (fieldKey name field.1) comment).set (fieldKey typePath field.1) comment
  | none => comments

def setMessageComment (name : Identifier) (comment : Option JsString)
    (comments : Js.Map JsString JsString) : Js.Map JsString JsString :=
  match ownComment comment with
  | some comment => comments.set name comment
  | none => comments

mutual

def fieldCommentsOf (parentPath : JsString) (comments : Js.Map JsString JsString) :
    DocObject → Js.Map JsString JsString
  | .mk name (.type _ fields) nested =>
    let typePath := pathIn parentPath name
    fieldCommentsIn typePath (fields.foldl (setFieldComment name typePath) comments) nested
  | .mk name .plain nested => fieldCommentsIn (pathIn parentPath name) comments nested
  | .mk _ (.enum _) _ => comments
  | .mk _ .other _ => comments

/-- `processNamespace` for the comments on fields. -/
def fieldCommentsIn (parentPath : JsString) (comments : Js.Map JsString JsString) :
    List DocObject → Js.Map JsString JsString
  | [] => comments
  | o :: os => fieldCommentsIn parentPath (fieldCommentsOf parentPath comments o) os

end

def extractFieldComments (nested : List DocObject) : Js.Map JsString JsString :=
  fieldCommentsIn [] Js.Map.empty nested

mutual

def messageCommentsOf (comments : Js.Map JsString JsString) :
    DocObject → Js.Map JsString JsString
  | .mk name (.type comment _) nested =>
    messageCommentsIn (setMessageComment name comment comments) nested
  | .mk name (.enum comment) _ => setMessageComment name comment comments
  | .mk _ .plain nested => messageCommentsIn comments nested
  | .mk _ .other _ => comments

/-- `processNamespace` for the comments on messages and enums. -/
def messageCommentsIn (comments : Js.Map JsString JsString) :
    List DocObject → Js.Map JsString JsString
  | [] => comments
  | o :: os => messageCommentsIn (messageCommentsOf comments o) os

end

def extractMessageComments (nested : List DocObject) : Js.Map JsString JsString :=
  messageCommentsIn Js.Map.empty nested

/-- The comments that the schema generator is given. -/
def extractComments (nested : List DocObject) : Comments :=
  ⟨extractFieldComments nested, extractMessageComments nested⟩

/-- A message type or an enum with its path and the comments on it and on its fields. -/
structure Element where
  path : JsString
  name : Identifier
  isType : Bool
  comment : Option JsString
  fields : List (Identifier × Option JsString)

mutual

def elementsOf (parentPath : JsString) : DocObject → List Element
  | .mk name (.type comment fields) nested =>
    ⟨pathIn parentPath name, name, true, comment, fields⟩
      :: elementsIn (pathIn parentPath name) nested
  | .mk name (.enum comment) _ => [⟨pathIn parentPath name, name, false, comment, []⟩]
  | .mk name .plain nested => elementsIn (pathIn parentPath name) nested
  | .mk _ .other _ => []

/-- The message types and enums among objects and in them. -/
def elementsIn (parentPath : JsString) : List DocObject → List Element
  | [] => []
  | o :: os => elementsOf parentPath o ++ elementsIn parentPath os

end

namespace Element

variable (x : Element)

/-- The element is the message type. -/
def OfType (type : ProtoType) : Prop :=
  x.isType = true ∧ type.fullName = [dot] ++ x.path ∧ type.name = x.name ∧
    type.fields.keys = x.fields.map fun f => f.1.val

/-- The element is the enum. -/
def OfEnum (e : ProtoEnum) : Prop :=
  x.isType = false ∧ e.fullName = [dot] ++ x.path ∧ e.name = x.name

end Element

/-- A root with the objects that its comments are read from, of which no two have one path. Its
message types and enums are among them, and what it finds under a name has the last part of that for
a name. -/
structure DocumentedRoot where
  root : ProtoRoot
  nested : List DocObject
  paths : ((elementsIn [] nested).map Element.path).Nodup
  types : ∀ type ∈ root.types, ∃ x ∈ elementsIn [] nested, x.OfType type
  enums : ∀ {n e}, root.lookupEnum n = some e → ∃ x ∈ elementsIn [] nested, x.OfEnum e
  lookupType_name : ∀ {n type}, root.lookupType n = some type → shortNameOf n = type.name
  lookupEnum_name : ∀ {n e}, root.lookupEnum n = some e → shortNameOf n = e.name

namespace DocumentedRoot

variable (R : DocumentedRoot)

def elements : List Element := elementsIn [] R.nested

def comments : Comments := extractComments R.nested

/-- The element is the message type, or else the enum, that the root finds under a name. -/
def Finds (typeName : JsString) (x : Element) : Prop :=
  (∃ type, R.root.lookupType typeName = some type ∧ x.OfType type) ∨
    R.root.lookupType typeName = none ∧ ∃ e, R.root.lookupEnum typeName = some e ∧ x.OfEnum e

end DocumentedRoot

end DiiaApp
