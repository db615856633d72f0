import DiiaApp.Js.Value
import DiiaApp.ProtoRoot
import Mathlib.Data.List.Sort

/-!
# The proto source in a schema

The text of a message or an enum as its schema quotes it, with the comments on it and its fields.
-/

namespace DiiaApp

open Js

/-- `fieldComments` by `Message.field`, `messageComments` by message. -/
structure Comments where
  field : Js.Map JsString JsString
  message : Js.Map JsString JsString

/-- The text under a key, where there is one that is not empty. -/
def commentAt (comments : Js.Map JsString JsString) (key : JsString) : Option JsString :=
  (comments.get key).filter (· ≠ [])

def dot : CodeUnit := 46

/-- `name.split('.').pop() || name` -/
def shortNameOf (name : JsString) : JsString :=
  match (name.splitOn dot).getLast? with
  | some [] | none => name
  | some short => short

/-- The white space that `trim` takes off. -/
def isWhiteSpace (u : CodeUnit) : Bool :=
  let n := u.toNat
  (9 ≤ n ∧ n ≤ 13) ∨ n = 0x20 ∨ n = 0xA0 ∨ n = 0x1680 ∨ (0x2000 ≤ n ∧ n ≤ 0x200A) ∨
    n = 0x2028 ∨ n = 0x2029 ∨ n = 0x202F ∨ n = 0x205F ∨ n = 0x3000 ∨ n = 0xFEFF

def trim (s : JsString) : JsString :=
  ((s.dropWhile isWhiteSpace).reverse.dropWhile isWhiteSpace).reverse

def newLine : CodeUnit := 10

def lines (ls : List JsString) : JsString := List.intercalate [newLine] ls

variable (comments : Comments)

def getFieldComment (fieldName parentTypeName : JsString) : Option JsString :=
  match commentAt comments.field (parentTypeName ++ [dot] ++ fieldName) with
  | some comment => some comment
  | none =>
    if dot ∈ parentTypeName then
      commentAt comments.field
        ((parentTypeName.splitOn dot).getLastD [] ++ [dot] ++ fieldName)
    else none

/-- A comment on one line. -/
def cleanComment (comment : JsString) : JsString :=
  List.intercalate (js "\x7b\x7bNL\x7d\x7d")
    (((comment.splitOn newLine).map trim).filter (· ≠ []))

/-- `field.partOf?.name?.startsWith('_')` -/
def isExplicitlyOptional (field : ProtoField) : Bool :=
  (field.partOf.getD []).head? = some 95

/-- `type`, `map<keyType, type>` for a map field. -/
def typePart (field : ProtoField) : JsString :=
  match field.keyType with
  | some keyType => js "map<" ++ keyType ++ js ", " ++ field.type ++ js ">"
  | none => field.type

/-- `part name = id;` with the comment on the field. -/
def protoLine (part : JsString) (name : JsString) (field : ProtoField) (parentTypeName : JsString) :
    JsString :=
  part ++ js " " ++ name ++ js " = " ++ decimal field.id ++ js ";"
    ++ match getFieldComment comments name parentTypeName with
      | some comment => js " // " ++ cleanComment comment
      | none => []

def generateOneofFieldProtoLine (name : JsString) (field : ProtoField)
    (parentTypeName : JsString) : JsString :=
  protoLine comments (typePart field) name field parentTypeName

def generateFieldProtoLine (name : JsString) (field : ProtoField) (parentTypeName : JsString) :
    JsString :=
  let modifier :=
    if field.keyType.isSome then []
    else if field.repeated then js "repeated "
    else if isExplicitlyOptional field then js "optional "
    else []
  protoLine comments (modifier ++ typePart field) name field parentTypeName

/-- The comment on a message or an enum, on a line of its own. -/
def commentLine (indent typeName : JsString) : List JsString :=
  match commentAt comments.message typeName with
  | some comment => [indent ++ js "// " ++ trim comment]
  | none => []

def innerIndent (indent : JsString) : JsString := indent ++ js "  "

def generateEnumProtoSource (e : ProtoEnum) (indent : JsString) : JsString :=
  lines (commentLine comments indent e.name ++ [indent ++ js "enum " ++ e.name ++ js " \x7b"]
    ++ ((e.values.entries.insertionSort fun a b => a.2 ≤ b.2).map fun v =>
      innerIndent indent ++ v.1 ++ js " = " ++ intText v.2 ++ js ";")
    ++ [indent ++ js "\x7d"])

/-- The oneofs that are not those of optional fields. -/
def realOneofs (oneofs : List OneOf) : List OneOf := oneofs.filter fun o => o.name.head? ≠ some 95

def oneofBlock (indent : JsString) (name : JsString) (fields : Js.Map JsString ProtoField)
    (oneof : OneOf) : List JsString :=
  [innerIndent indent ++ js "oneof " ++ oneof.name ++ js " \x7b"]
    ++ (oneof.oneof.filterMap fun fieldName => (fields.get fieldName).map fun field =>
      innerIndent (innerIndent indent)
        ++ generateOneofFieldProtoLine comments fieldName field name)
    ++ [innerIndent indent ++ js "\x7d"]

mutual

def generateMessageProtoSource (indent : JsString) : ProtoType → JsString
  | .mk name _ fields oneofs nested =>
    let fieldsInOneofs := (realOneofs oneofs).flatMap OneOf.oneof
    lines (commentLine comments indent name ++ [indent ++ js "message " ++ name ++ js " \x7b"]
      ++ nestedProtoSource (innerIndent indent) nested
      ++ (realOneofs oneofs).flatMap (oneofBlock comments indent name fields)
      ++ (fields.entries.filter fun e => e.1 ∉ fieldsInOneofs).map (fun e =>
        innerIndent indent ++ generateFieldProtoLine comments e.1 e.2 name)
      ++ [indent ++ js "\x7d"])

/-- Each nested type and an empty line after it. -/
def nestedProtoSource (indent : JsString) : List ProtoNested → List JsString
  | [] => []
  | .type t :: nested =>
    generateMessageProtoSource indent t :: [] :: nestedProtoSource indent nested
  | .enum e :: nested =>
    generateEnumProtoSource comments e indent :: [] :: nestedProtoSource indent nested

end

end DiiaApp
