import DiiaApp.Js.Text
import DiiaApp.Js.Value
import Mathlib.Data.Rat.Init

/-!
# File descriptors and the names in them

A file descriptor declares messages, which nest, and enums, and refers to types by name: from the
fields of its messages, from the methods of its services and from extensions. A name with a leading
dot is a full name. Any other is looked up from where it stands (`resolve`): in the innermost scope
that has its first part, the scopes being the enclosing messages and the packages around them.

What a descriptor has besides these stays as it is (an enum is its name, with the rest of it among
the other fields of what it stands in).

A dotted name is the list of its parts, the empty text having none; a leading dot makes the first
part empty.
-/

namespace DiiaApp

open Js

abbrev DottedName := List JsString

/-- Membership in a list of names goes by their equality. -/
instance : LawfulBEq DottedName := inferInstance

/-- `name.startsWith('.')` -/
def isAbsolute : DottedName → Bool
  | [] :: _ :: _ => true
  | _ => false

/-- The full name with its leading dot. -/
def dotted (name : DottedName) : DottedName := [] :: name

/-- What a descriptor has besides the fields that are named here, in order. -/
abbrev OtherFields := List (JsString × Value ℚ)

structure FieldDescriptor where
  name : JsString
  typeName : DottedName
  other : OtherFields := []

structure ExtensionDescriptor where
  name : JsString
  extendee : DottedName
  typeName : DottedName
  other : OtherFields := []

inductive MessageDescriptor
  | mk (name : JsString) (field : List FieldDescriptor) (nestedType : List MessageDescriptor)
    (enumType : List JsString) (extension : List ExtensionDescriptor) (other : OtherFields)

structure MethodDescriptor where
  name : JsString
  inputType : DottedName
  outputType : DottedName
  other : OtherFields := []

structure ServiceDescriptor where
  name : JsString
  method : List MethodDescriptor
  other : OtherFields := []

/-- A decoded file descriptor, its `package` without parts where it has none. -/
structure FileDescriptor where
  name : JsString
  package : DottedName
  messageType : List MessageDescriptor
  enumType : List JsString
  extension : List ExtensionDescriptor
  service : List ServiceDescriptor
  other : OtherFields := []

mutual

/-- The full names of a message and of the messages and enums in it. -/
def MessageDescriptor.declared (pre : DottedName) : MessageDescriptor → List DottedName
  | .mk name _ nestedType enumType _ _ =>
    (pre ++ [name]) :: (declaredAll (pre ++ [name]) nestedType
      ++ enumType.map fun e => pre ++ [name] ++ [e])

def declaredAll (pre : DottedName) : List MessageDescriptor → List DottedName
  | [] => []
  | m :: ms => m.declared pre ++ declaredAll pre ms

end

def FileDescriptor.declared (fd : FileDescriptor) : List DottedName :=
  declaredAll fd.package fd.messageType ++ fd.enumType.map fun e => fd.package ++ [e]

/-- The messages and enums that files declare. -/
def declaredTypes (files : List FileDescriptor) : List DottedName :=
  files.flatMap FileDescriptor.declared

/-- The name is one in which others can stand: a type, a package or a service. -/
def IsAggregate (files : List FileDescriptor) (name : DottedName) : Prop :=
  name ∈ declaredTypes files ∨ (∃ fd ∈ files, name <+: fd.package) ∨
    ∃ fd ∈ files, ∃ svc ∈ fd.service, name = fd.package ++ [svc.name]

instance (files : List FileDescriptor) (name : DottedName) : Decidable (IsAggregate files name) :=
  inferInstanceAs (Decidable (_ ∨ (∃ fd ∈ files, name <+: fd.package) ∨
    ∃ fd ∈ files, ∃ svc ∈ fd.service, name = fd.package ++ [svc.name]))

/-- A name looked up in the scopes, the innermost first. -/
def resolveIn (files : List FileDescriptor) (ref : DottedName) : List DottedName → Option DottedName
  | [] => none
  | scope :: scopes =>
    match ref with
    | [] => none
    | [x] =>
      if scope ++ [x] ∈ declaredTypes files then some (scope ++ [x])
      else resolveIn files ref scopes
    | x :: _ =>
      if IsAggregate files (scope ++ [x]) then
        if scope ++ ref ∈ declaredTypes files then some (scope ++ ref) else none
      else resolveIn files ref scopes

/-- The type a reference in `scope` means. -/
def resolve (files : List FileDescriptor) (scope ref : DottedName) : Option DottedName :=
  if isAbsolute ref then
    if ref.tail ∈ declaredTypes files then some ref.tail else none
  else resolveIn files ref scope.inits.reverse

/-- The kinds of places a reference stands in. -/
inductive Position
  | field
  | method
  | extension
  | nestedExtension
  deriving DecidableEq

structure Reference where
  position : Position
  scope : DottedName
  name : DottedName
  deriving DecidableEq

def ExtensionDescriptor.references (position : Position) (scope : DottedName)
    (ext : ExtensionDescriptor) : List Reference :=
  [⟨position, scope, ext.extendee⟩, ⟨position, scope, ext.typeName⟩]

mutual

def MessageDescriptor.references (pre : DottedName) : MessageDescriptor → List Reference
  | .mk name field nestedType _ extension _ =>
    (field.map fun f => ⟨.field, pre ++ [name], f.typeName⟩)
      ++ referencesAll (pre ++ [name]) nestedType
      ++ extension.flatMap (ExtensionDescriptor.references .nestedExtension (pre ++ [name]))

def referencesAll (pre : DottedName) : List MessageDescriptor → List Reference
  | [] => []
  | m :: ms => m.references pre ++ referencesAll pre ms

end

def ServiceDescriptor.references (pre : DottedName) (svc : ServiceDescriptor) : List Reference :=
  svc.method.flatMap fun method =>
    [⟨.method, pre ++ [svc.name], method.inputType⟩,
      ⟨.method, pre ++ [svc.name], method.outputType⟩]

/-- The references of a file, in order. -/
def FileDescriptor.references (fd : FileDescriptor) : List Reference :=
  referencesAll fd.package fd.messageType
    ++ fd.service.flatMap (ServiceDescriptor.references fd.package)
    ++ fd.extension.flatMap (ExtensionDescriptor.references .extension fd.package)

end DiiaApp
