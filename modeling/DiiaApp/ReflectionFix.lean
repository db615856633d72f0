import DiiaApp.Descriptors
import DiiaApp.Js.Index

/-!
# Fully qualified names for reflection

`fixReflectionTypeNames` rewrites the references of all file descriptors of a package definition. It
indexes the packages under their suffixes and the types under their simple names, and looks each
reference without a leading dot up in these two indexes.
-/

namespace DiiaApp

open Js

/-- Full names under a key: the packages that end in it, or the types with that simple name. -/
abbrev NameIndex (κ : Type) := Js.Map κ (List DottedName)

/-- The package under each of its proper suffixes. -/
def buildPackageMap (packageName : DottedName) (packageMap : NameIndex DottedName) :
    NameIndex DottedName :=
  (List.range' 1 (packageName.length - 1)).foldl
    (fun packageMap i => packageMap.pushNew (packageName.drop i) packageName) packageMap

def addToTypeMap (typeMap : NameIndex JsString) (simpleName : JsString) (fqn : DottedName) :
    NameIndex JsString := typeMap.pushNew simpleName fqn

mutual

def collectMessageTypes (pre : DottedName) (typeMap : NameIndex JsString) :
    MessageDescriptor → NameIndex JsString
  | .mk name _ nestedType _ _ _ =>
    collectAll (pre ++ [name]) (if name ≠ [] then addToTypeMap typeMap name (pre ++ [name])
      else typeMap) nestedType

def collectAll (pre : DottedName) (typeMap : NameIndex JsString) :
    List MessageDescriptor → NameIndex JsString
  | [] => typeMap
  | m :: ms => collectAll pre (collectMessageTypes pre typeMap m) ms

end

def collectTypes (fd : FileDescriptor) (typeMap : NameIndex JsString) : NameIndex JsString :=
  let packagePrefix := dotted fd.package
  fd.enumType.foldl
    (fun typeMap e => if e ≠ [] then addToTypeMap typeMap e (packagePrefix ++ [e]) else typeMap)
    (collectAll packagePrefix typeMap fd.messageType)

section Fix

variable (packageMap : NameIndex DottedName) (typeMap : NameIndex JsString)

def isKnownType (fqn : DottedName) : Bool := typeMap.values.any fun fqns => fqn ∈ fqns

/-- The packages in which a type is looked for, given the parts before its name: those that end in
the longest suffix of the parts that is indexed. -/
def fullPkgs : DottedName → Option (List DottedName)
  | [] => none
  | part :: parts =>
    match packageMap.get (part :: parts) with
    | some fullPkgs => some fullPkgs
    | none => fullPkgs parts

def fullyQualifyTypeName (typeName : DottedName) : DottedName :=
  if isAbsolute typeName then typeName
  else
    match typeName with
    | [simpleName] =>
      match typeMap.get simpleName with
      | some [fqn] => fqn
      | _ => typeName
    | _ =>
      let messageName := typeName.getLastD []
      match fullPkgs packageMap typeName.dropLast with
      | some pkgs =>
        -- a package that has the type, or else the first of them
        match pkgs.find? fun fullPkg => isKnownType typeMap (dotted fullPkg ++ [messageName]) with
        | some fullPkg => dotted fullPkg ++ [messageName]
        | none => dotted (pkgs.headD []) ++ [messageName]
      | none => dotted typeName

/-- A reference fixed, and whether that changed it. -/
def fixReference (name : DottedName) : DottedName × Bool :=
  if name ≠ [] ∧ ¬ isAbsolute name then
    let fixed := fullyQualifyTypeName packageMap typeMap name
    (fixed, fixed ≠ name)
  else (name, false)

def fixField (field : FieldDescriptor) : FieldDescriptor × Bool :=
  let fixed := fixReference packageMap typeMap field.typeName
  ({ field with typeName := fixed.1 }, fixed.2)

mutual

def fixMessageTypeNames : MessageDescriptor → MessageDescriptor × Bool
  | .mk name field nestedType enumType extension other =>
    let fields := field.map (fixField packageMap typeMap)
    let nested := fixAllTypeNames nestedType
    (.mk name (fields.map Prod.fst) nested.1 enumType extension other,
      fields.any Prod.snd || nested.2)

def fixAllTypeNames : List MessageDescriptor → List MessageDescriptor × Bool
  | [] => ([], false)
  | m :: ms =>
    let fixed := fixMessageTypeNames m
    let rest := fixAllTypeNames ms
    (fixed.1 :: rest.1, fixed.2 || rest.2)

end

def fixMethod (method : MethodDescriptor) : MethodDescriptor × Bool :=
  let input := fixReference packageMap typeMap method.inputType
  let output := fixReference packageMap typeMap method.outputType
  ({ method with inputType := input.1, outputType := output.1 }, input.2 || output.2)

def fixService (svc : ServiceDescriptor) : ServiceDescriptor × Bool :=
  let methods := svc.method.map (fixMethod packageMap typeMap)
  ({ svc with method := methods.map Prod.fst }, methods.any Prod.snd)

def fixExtension (ext : ExtensionDescriptor) : ExtensionDescriptor × Bool :=
  let extendee := fixReference packageMap typeMap ext.extendee
  let typeName := fixReference packageMap typeMap ext.typeName
  ({ ext with extendee := extendee.1, typeName := typeName.1 }, extendee.2 || typeName.2)

def applyFixes (fd : FileDescriptor) : FileDescriptor × Bool :=
  let messages := fixAllTypeNames packageMap typeMap fd.messageType
  let services := fd.service.map (fixService packageMap typeMap)
  let extensions := fd.extension.map (fixExtension packageMap typeMap)
  ({ fd with
      messageType := messages.1
      service := services.map Prod.fst
      extension := extensions.map Prod.fst },
    messages.2 || services.any Prod.snd || extensions.any Prod.snd)

end Fix

/-- An encoded file descriptor, by reference. -/
abbrev Buffer := ℕ

/-- The definitions of a package definition, each with its `fileDescriptorProtos` where it has
them. -/
abbrev PackageDefinition (β : Type) := Js.Map JsString (Option (List β))

/-- Each buffer of the definitions decoded once. -/
def decodedDescriptors (decode : Buffer → FileDescriptor) (pkgDefs : PackageDefinition Buffer) :
    Js.Map Buffer FileDescriptor :=
  (pkgDefs.values.flatMap fun protos => protos.getD []).foldl
    (fun decoded buf => if decoded.has buf then decoded else decoded.set buf (decode buf))
    Js.Map.empty

def packageIndex (files : List FileDescriptor) : NameIndex DottedName :=
  files.foldl (fun packageMap fd =>
    if fd.package ≠ [] then buildPackageMap fd.package packageMap else packageMap) Js.Map.empty

def typeIndex (files : List FileDescriptor) : NameIndex JsString :=
  files.foldl (fun typeMap fd =>
    if fd.package ≠ [] then collectTypes fd typeMap else typeMap) Js.Map.empty

/-- The buffers whose descriptors have changed. -/
def fixedBuffers (packageMap : NameIndex DottedName) (typeMap : NameIndex JsString)
    (decoded : Js.Map Buffer FileDescriptor) : List (Buffer × FileDescriptor) :=
  decoded.entries.filterMap fun e =>
    let fixed := applyFixes packageMap typeMap e.2
    if fixed.2 then some (e.1, fixed.1) else none

/-- The descriptors of the definitions with their references fixed. -/
def fixReflectionTypeNames (decode : Buffer → FileDescriptor)
    (pkgDefs : PackageDefinition Buffer) : PackageDefinition FileDescriptor :=
  let decoded := decodedDescriptors decode pkgDefs
  let packageMap := packageIndex decoded.values
  let typeMap := typeIndex decoded.values
  let fixedBuffers := fixedBuffers packageMap typeMap decoded
  ⟨pkgDefs.entries.map fun e => (e.1, e.2.map fun protos => protos.map fun buf =>
      (Js.Map.find buf fixedBuffers).getD (decode buf)),
    by rw [List.map_map]; exact pkgDefs.nodup⟩

end DiiaApp
