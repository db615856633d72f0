import DiiaApp.Descriptors
import DiiaApp.NameTree

/-!
# Trees of `protobufjs` objects

The dynamic client builds one root of objects out of many: it merges the objects of a parsed root
into it (`mergeIntoNamespace`), puts empty types where it can get none (`createPlaceholderType`) and
collects the types that the fields of its messages name (`checkNamespace`).

Fields, oneofs and methods belong to what an object is; `get` finds them as the objects they are, in
which nothing can be nested.
-/

namespace DiiaApp

open Js

structure MessageField where
  name : JsString
  type : DottedName
  id : ℕ
  repeated : Bool
  deriving DecidableEq

structure ServiceMethod where
  name : JsString
  requestType : DottedName
  responseType : DottedName
  deriving DecidableEq

/-- What an object is. A `plain` one is a namespace and nothing else, a `member` a field, a oneof, a
method or an extension. -/
inductive ProtoKind
  | plain
  | type (fields : List MessageField) (oneofs : List JsString)
  | enum (values : List (JsString × ℤ))
  | service (methods : List ServiceMethod)
  | member
  deriving DecidableEq

namespace ProtoKind

/-- `instanceof protobuf.Namespace`, which types and services are as well. -/
def isNamespace : ProtoKind → Bool
  | plain | type .. | service _ => true
  | enum _ | member => false

/-- `instanceof protobuf.Type` -/
def isType : ProtoKind → Bool
  | type .. => true
  | _ => false

def isTypeOrEnum : ProtoKind → Bool
  | type .. | enum _ => true
  | _ => false

/-- `instanceof protobuf.Service` -/
def isService : ProtoKind → Bool
  | service _ => true
  | _ => false

def memberNames : ProtoKind → List JsString
  | type fields oneofs => fields.map MessageField.name ++ oneofs
  | service methods => methods.map ServiceMethod.name
  | _ => []

end ProtoKind

instance : NameTree.Opens JsString ProtoKind :=
  ⟨fun kind x => kind.isNamespace && !kind.memberNames.contains x⟩

abbrev ProtoObject := NameTree JsString ProtoKind

/-- An empty type, `new protobuf.Type(name)`. -/
def ProtoKind.empty : ProtoKind := .type [] []

/-- `new protobuf.Root()` -/
def emptyRoot : ProtoObject := .mk [] .plain []

/-- A parsed root. Its objects nest by name, so that none has two of one name. -/
structure ParsedRoot where
  root : ProtoObject
  proper : root.Proper

namespace ProtoObject

def get (o : ProtoObject) (x : JsString) : Option ProtoObject :=
  if o.data.memberNames.contains x then some (.mk x .member []) else o.child x

/-- What `lookup` meets from a root, of any kind: as `_lookupImpl` of `protobufjs` goes, the object
or member of a name where there is one, and otherwise the last one met in the nested namespaces. -/
def lookup (root : ProtoObject) (path : DottedName) : Option ProtoObject :=
  root.search (fun kind x => if kind.memberNames.contains x then some .member else none) path

end ProtoObject

mutual

/-- `source` in `target`: added where its name is free, and otherwise what is nested in it merged
into the object of its name, where both are namespaces. -/
def mergeIntoNamespace (target : ProtoObject) : ProtoObject → ProtoObject
  | .mk name kind nested =>
    match ProtoObject.get target name with
    | none => target.setChild (.mk name kind nested)
    | some existing =>
      if existing.data.isNamespace && kind.isNamespace then
        target.setChild (mergeAllInto existing nested)
      else target

def mergeAllInto (target : ProtoObject) : List ProtoObject → ProtoObject
  | [] => target
  | source :: sources => mergeAllInto (mergeIntoNamespace target source) sources

end

/-- An empty type at a path, with the namespaces on the way to it. Nothing is changed where
something is there, or stands in the way. -/
def placeAt (current : ProtoObject) : DottedName → ProtoObject
  | [] => current
  | [name] =>
    match ProtoObject.get current name with
    | none => current.setChild (.mk name .empty [])
    | some _ => current
  | part :: name :: rest =>
    match ProtoObject.get current part with
    | none => current.setChild (placeAt (.mk part .plain []) (name :: rest))
    | some next =>
      if next.data.isNamespace then current.setChild (placeAt next (name :: rest)) else current

def createPlaceholderType (root : ProtoObject) (typeName : DottedName) : ProtoObject :=
  if typeName.getLastD [] = [] then root else placeAt root typeName

def builtins : List JsString :=
  [js "double", js "float", js "int32", js "int64", js "uint32", js "uint64", js "sint32",
    js "sint64", js "fixed32", js "fixed64", js "sfixed32", js "sfixed64", js "bool", js "string",
    js "bytes"]

def isBuiltinType (typeName : DottedName) : Bool := (builtins.map fun b => [b]).contains typeName

/-- A name without its leading dot. -/
def fullTypeName (name : DottedName) : DottedName := if isAbsolute name then name.tail else name

/-- The types that the fields of a message name. -/
def fieldTypes : ProtoKind → List DottedName
  | .type fields _ =>
    (fields.filter fun f => !isBuiltinType f.type).map fun f => fullTypeName f.type
  | _ => []

mutual

def collectTypeRefs : ProtoObject → List DottedName
  | .mk _ kind nested => fieldTypes kind ++ collectNestedTypeRefs nested

def collectNestedTypeRefs : List ProtoObject → List DottedName
  | [] => []
  | o :: os => (if o.data.isType then collectTypeRefs o else []) ++ collectNestedTypeRefs os

end

mutual

def checkNamespace : ProtoObject → List DottedName
  | .mk _ _ nested => checkNested nested

def checkNested : List ProtoObject → List DottedName
  | [] => []
  | o :: os =>
    (if o.data.isType then collectTypeRefs o
      else if o.data.isNamespace then checkNamespace o else []) ++ checkNested os

end

end DiiaApp
