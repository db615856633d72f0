import DiiaApp.ReflectionBuffers
import DiiaApp.Proofs.ReflectionFix

/-!
# What the fix of references leaves

The indexes are of the names that the files declare, which no fix changes, and a fixed reference is
a full name or as it was, so a second fix changes nothing (`applyFixes_again`). Of the descriptors
the fix changes references without a leading dot only (`applyFixes_onlyReferences`), and of the
buffers it replaces those whose descriptors it has changed.
-/

namespace DiiaApp

open Js

/-! ## The indexes of fixed files -/

section Index

variable (packageMap : NameIndex DottedName) (typeMap : NameIndex JsString)

mutual

theorem collectMessageTypes_fix (pre : DottedName) : ∀ (m : MessageDescriptor)
    (index : NameIndex JsString),
    collectMessageTypes pre index (fixMessageTypeNames packageMap typeMap m).1
      = collectMessageTypes pre index m
  | .mk name field nestedType enumType extension other, index => by
    rw [fixMessageTypeNames, collectMessageTypes, collectMessageTypes,
      collectAll_fix (pre ++ [name]) nestedType]

theorem collectAll_fix (pre : DottedName) : ∀ (ms : List MessageDescriptor)
    (index : NameIndex JsString),
    collectAll pre index (fixAllTypeNames packageMap typeMap ms).1 = collectAll pre index ms
  | [], _ => rfl
  | m :: ms, index => by
    rw [fixAllTypeNames, collectAll, collectAll, collectMessageTypes_fix pre m,
      collectAll_fix pre ms]

end

theorem packageIndex_fix (files : List FileDescriptor) :
    packageIndex (files.map fun fd => (applyFixes packageMap typeMap fd).1)
      = packageIndex files := by
  rw [packageIndex, List.foldl_map]
  rfl

theorem typeIndex_fix (files : List FileDescriptor) :
    typeIndex (files.map fun fd => (applyFixes packageMap typeMap fd).1) = typeIndex files := by
  rw [typeIndex, List.foldl_map, typeIndex]
  congr 1
  funext index fd
  simp only [applyFixes, collectTypes, collectAll_fix]

end Index

/-! ## A second fix -/

section Again

variable {packageMap : NameIndex DottedName} {typeMap : NameIndex JsString}

/-- A reference that has been fixed once is as the fix leaves it. -/
def FixedOnce (packageMap : NameIndex DottedName) (typeMap : NameIndex JsString) : Prop :=
  ∀ name, (fixReference packageMap typeMap (fixReference packageMap typeMap name).1).2 = false

theorem any_snd_map_again {α : Type} {f : α → α × Bool} (hf : ∀ a, (f (f a).1).2 = false)
    (l : List α) : (((l.map f).map Prod.fst).map f).any Prod.snd = false := by
  rw [List.any_eq_false]
  simp [hf]

mutual

theorem fixMessageTypeNames_again (h : FixedOnce packageMap typeMap) : ∀ m : MessageDescriptor,
    (fixMessageTypeNames packageMap typeMap (fixMessageTypeNames packageMap typeMap m).1).2 = false
  | .mk name field nestedType enumType extension other => by
    rw [fixMessageTypeNames, fixMessageTypeNames,
      any_snd_map_again (fun f => h f.typeName) field, fixAllTypeNames_again h nestedType]
    rfl

theorem fixAllTypeNames_again (h : FixedOnce packageMap typeMap) : ∀ ms : List MessageDescriptor,
    (fixAllTypeNames packageMap typeMap (fixAllTypeNames packageMap typeMap ms).1).2 = false
  | [] => rfl
  | m :: ms => by
    rw [fixAllTypeNames, fixAllTypeNames, fixMessageTypeNames_again h m,
      fixAllTypeNames_again h ms]
    rfl

end

theorem fixMethod_again (h : FixedOnce packageMap typeMap) (method : MethodDescriptor) :
    (fixMethod packageMap typeMap (fixMethod packageMap typeMap method).1).2 = false := by
  simp [fixMethod, h method.inputType, h method.outputType]

theorem fixService_again (h : FixedOnce packageMap typeMap) (svc : ServiceDescriptor) :
    (fixService packageMap typeMap (fixService packageMap typeMap svc).1).2 = false :=
  any_snd_map_again (fixMethod_again h) svc.method

theorem fixExtension_again (h : FixedOnce packageMap typeMap) (ext : ExtensionDescriptor) :
    (fixExtension packageMap typeMap (fixExtension packageMap typeMap ext).1).2 = false := by
  simp [fixExtension, h ext.extendee, h ext.typeName]

theorem applyFixes_again (h : FixedOnce packageMap typeMap) (fd : FileDescriptor) :
    (applyFixes packageMap typeMap (applyFixes packageMap typeMap fd).1).2 = false := by
  rw [applyFixes, applyFixes, fixAllTypeNames_again h,
    any_snd_map_again (fixService_again h) fd.service,
    any_snd_map_again (fixExtension_again h) fd.extension]
  rfl

/-- What is reported as modified has changed. -/
theorem applyFixes_ne_of_modified (h : FixedOnce packageMap typeMap) {fd : FileDescriptor}
    (hm : (applyFixes packageMap typeMap fd).2 = true) :
    (applyFixes packageMap typeMap fd).1 ≠ fd := by
  intro hfd
  have hagain := applyFixes_again h fd
  rw [hfd, hm] at hagain
  exact Bool.noConfusion hagain

end Again

theorem fixReference_of_isAbsolute {packageMap : NameIndex DottedName}
    {typeMap : NameIndex JsString} {name : DottedName} (h : isAbsolute name) :
    fixReference packageMap typeMap name = (name, false) := by
  rw [fixReference, if_neg]
  exact fun hn => hn.2 h

theorem fixedOnce_index (files : List FileDescriptor) :
    FixedOnce (packageIndex files) (typeIndex files) := by
  intro name
  by_cases h : name ≠ [] ∧ ¬ isAbsolute name
  · obtain ⟨hn, ha⟩ := h
    have hfix : (fixReference (packageIndex files) (typeIndex files) name).1
        = fullyQualifyTypeName (packageIndex files) (typeIndex files) name := by
      rw [fixReference, if_pos ⟨hn, ha⟩]
    by_cases hl : name.length = 1
    · obtain ⟨x, rfl⟩ := List.length_eq_one_iff.1 hl
      rcases fullyQualifyTypeName_simple files x with ⟨U, hU, -, hq⟩ | ⟨-, hq⟩
      · have hU0 := ne_nil_of_declaredTypes (declared_of_indexed hU.1)
        rw [hfix, hq, fixReference_of_isAbsolute (isAbsolute_dotted hU0)]
      · rw [hfix, hq, fixReference, if_pos ⟨hn, ha⟩]
        simp [hq]
    · rw [hfix, fixReference_of_isAbsolute (isAbsolute_qualified files ha hn hl)]
  · have hname : fixReference (packageIndex files) (typeIndex files) name = (name, false) := by
      rw [fixReference, if_neg h]
    rw [hname]
    exact congrArg Prod.snd hname

/-! ## Descriptors that differ in references only -/

/-- A reference that may have become a full name. -/
def MayQualify (name name' : DottedName) : Prop := name = [] ∨ isAbsolute name → name' = name

def FieldDescriptor.OnlyReferences (field field' : FieldDescriptor) : Prop :=
  field' = { field with typeName := field'.typeName } ∧ MayQualify field.typeName field'.typeName

def MethodDescriptor.OnlyReferences (method method' : MethodDescriptor) : Prop :=
  method' = { method with inputType := method'.inputType, outputType := method'.outputType } ∧
    MayQualify method.inputType method'.inputType ∧ MayQualify method.outputType method'.outputType

def ServiceDescriptor.OnlyReferences (svc svc' : ServiceDescriptor) : Prop :=
  svc' = { svc with method := svc'.method } ∧
    List.Forall₂ MethodDescriptor.OnlyReferences svc.method svc'.method

def ExtensionDescriptor.OnlyReferences (ext ext' : ExtensionDescriptor) : Prop :=
  ext' = { ext with extendee := ext'.extendee, typeName := ext'.typeName } ∧
    MayQualify ext.extendee ext'.extendee ∧ MayQualify ext.typeName ext'.typeName

mutual

/-- Extensions in a message are as they were. -/
def MessageDescriptor.OnlyReferences : MessageDescriptor → MessageDescriptor → Prop
  | .mk name field nestedType enumType extension other,
      .mk name' field' nestedType' enumType' extension' other' =>
    (name' = name ∧ enumType' = enumType ∧ extension' = extension ∧ other' = other) ∧
      List.Forall₂ FieldDescriptor.OnlyReferences field field' ∧
        allOnlyReferences nestedType nestedType'

def allOnlyReferences : List MessageDescriptor → List MessageDescriptor → Prop
  | [], [] => True
  | m :: ms, m' :: ms' => m.OnlyReferences m' ∧ allOnlyReferences ms ms'
  | _, _ => False

end

/-- The same but for references of message fields, methods and the file's extensions that had no
leading dot. -/
def FileDescriptor.OnlyReferences (fd fd' : FileDescriptor) : Prop :=
  fd' = { fd with
      messageType := fd'.messageType
      service := fd'.service
      extension := fd'.extension } ∧
    allOnlyReferences fd.messageType fd'.messageType ∧
    List.Forall₂ ServiceDescriptor.OnlyReferences fd.service fd'.service ∧
    List.Forall₂ ExtensionDescriptor.OnlyReferences fd.extension fd'.extension

section Frame

variable (packageMap : NameIndex DottedName) (typeMap : NameIndex JsString)

theorem fixReference_mayQualify (name : DottedName) :
    MayQualify name (fixReference packageMap typeMap name).1 := by
  intro h
  rw [fixReference, if_neg]
  rintro ⟨hn, ha⟩
  exact h.elim hn ha

theorem forall₂_map_fst {α : Type} {f : α → α × Bool} {R : α → α → Prop} (h : ∀ a, R a (f a).1)
    (l : List α) : List.Forall₂ R l ((l.map f).map Prod.fst) := by
  rw [List.map_map, List.forall₂_map_right_iff]
  exact List.forall₂_same.2 fun a _ => h a

mutual

theorem fixMessageTypeNames_onlyReferences : ∀ m : MessageDescriptor,
    m.OnlyReferences (fixMessageTypeNames packageMap typeMap m).1
  | .mk name field nestedType enumType extension other => by
    rw [fixMessageTypeNames, MessageDescriptor.OnlyReferences]
    exact ⟨⟨rfl, rfl, rfl, rfl⟩,
      forall₂_map_fst (fun f => ⟨rfl, fixReference_mayQualify packageMap typeMap f.typeName⟩) field,
      fixAllTypeNames_onlyReferences nestedType⟩

theorem fixAllTypeNames_onlyReferences : ∀ ms : List MessageDescriptor,
    allOnlyReferences ms (fixAllTypeNames packageMap typeMap ms).1
  | [] => trivial
  | m :: ms => by
    rw [fixAllTypeNames, allOnlyReferences]
    exact ⟨fixMessageTypeNames_onlyReferences m, fixAllTypeNames_onlyReferences ms⟩

end

theorem fixMethod_onlyReferences (method : MethodDescriptor) :
    method.OnlyReferences (fixMethod packageMap typeMap method).1 :=
  ⟨rfl, fixReference_mayQualify _ _ _, fixReference_mayQualify _ _ _⟩

theorem fixService_onlyReferences (svc : ServiceDescriptor) :
    svc.OnlyReferences (fixService packageMap typeMap svc).1 :=
  ⟨rfl, forall₂_map_fst (fixMethod_onlyReferences packageMap typeMap) svc.method⟩

theorem fixExtension_onlyReferences (ext : ExtensionDescriptor) :
    ext.OnlyReferences (fixExtension packageMap typeMap ext).1 :=
  ⟨rfl, fixReference_mayQualify _ _ _, fixReference_mayQualify _ _ _⟩

theorem applyFixes_onlyReferences (fd : FileDescriptor) :
    fd.OnlyReferences (applyFixes packageMap typeMap fd).1 :=
  ⟨rfl, fixAllTypeNames_onlyReferences packageMap typeMap fd.messageType,
    forall₂_map_fst (fixService_onlyReferences packageMap typeMap) fd.service,
    forall₂_map_fst (fixExtension_onlyReferences packageMap typeMap) fd.extension⟩

end Frame

/-! ## The buffers of a run -/

/-- Buffers that are replaced one for one are decoded in the same order. -/
theorem foldl_decode_map {S : Buffer → Prop} {f : Buffer → Buffer}
    (hf : ∀ a b, S a → S b → f a = f b → a = b) {d d' : Buffer → FileDescriptor}
    {g : FileDescriptor → FileDescriptor} :
    ∀ (bufs : List Buffer) {m m' : Js.Map Buffer FileDescriptor},
      (∀ buf ∈ bufs, S buf ∧ d' (f buf) = g (d buf)) → (∀ e ∈ m.entries, S e.1) →
      m'.entries = m.entries.map (fun e => (f e.1, g e.2)) →
      ((bufs.map f).foldl (fun decoded buf => if decoded.has buf then decoded
          else decoded.set buf (d' buf)) m').entries
        = (bufs.foldl (fun decoded buf => if decoded.has buf then decoded
          else decoded.set buf (d buf)) m).entries.map fun e => (f e.1, g e.2)
  | [], _, _, _, _, h => h
  | buf :: bufs, m, m', hbufs, hm, h => by
    rw [List.forall_mem_cons] at hbufs
    have hget : m'.get (f buf) = (m.get buf).map g := by
      rw [Map.get, h]
      exact Map.find_map_entry g fun e he => ⟨hf e.1 buf (hm e he) hbufs.1.1, congrArg f⟩
    rw [List.map_cons, List.foldl_cons, List.foldl_cons]
    refine foldl_decode_map hf bufs hbufs.2 ?_ ?_
    · split_ifs with hb
      · exact hm
      · rw [Map.entries_set_of_new _ (Map.not_has.1 hb)]
        exact List.forall_mem_append.2 ⟨hm, List.forall_mem_singleton.2 hbufs.1.1⟩
    · rcases hb : m.get buf with _ | fd
      · rw [hb] at hget
        rw [if_neg (Map.not_has.2 hget), if_neg (Map.not_has.2 hb), Map.entries_set_of_new _ hget,
          Map.entries_set_of_new _ hb, h, hbufs.1.2, List.map_append]
        rfl
      · have hhas : m'.has (f buf) ∧ m.has buf := by simp [Map.has, hget, hb]
        rwa [if_pos hhas.1, if_pos hhas.2]

theorem decodedDescriptors_map {S : Buffer → Prop} {f : Buffer → Buffer}
    (hf : ∀ a b, S a → S b → f a = f b → a = b) {d d' : Buffer → FileDescriptor}
    {g : FileDescriptor → FileDescriptor} {pkgDefs pkgDefs' : PackageDefinition Buffer}
    (hbufs : ∀ buf ∈ pkgDefs.protos, S buf ∧ d' (f buf) = g (d buf))
    (hp : pkgDefs'.protos = pkgDefs.protos.map f) :
    (decodedDescriptors d' pkgDefs').values = (decodedDescriptors d pkgDefs).values.map g := by
  have hstart : (Map.empty : Js.Map Buffer FileDescriptor).entries
      = (Map.empty : Js.Map Buffer FileDescriptor).entries.map fun e => (f e.1, g e.2) := rfl
  have hfold := foldl_decode_map hf pkgDefs.protos hbufs (List.forall_mem_nil _) hstart
  rw [← hp] at hfold
  rw [Map.values, Map.values, decodedDescriptors, List.map_map]
  refine (congrArg (List.map Prod.snd) hfold).trans ?_
  rw [List.map_map]
  rfl

namespace LoadedPackages

variable {Bytes ω : Type} (decode : Bytes → FileDescriptor) (encode : FileDescriptor → Bytes)
  (p : LoadedPackages Bytes ω)

/-- The buffer that stands for another in what a call returns. -/
def replacement (buf : Buffer) : Buffer := ((p.encodeAll decode encode).2.get buf).getD buf

def packageMap : NameIndex DottedName := packageIndex (p.decodedDescriptors decode).values

def typeMap : NameIndex JsString := typeIndex (p.decodedDescriptors decode).values

theorem encodeAll_of_not_modified (h : ∀ e ∈ (p.decodedDescriptors decode).entries,
    (applyFixes (p.packageMap decode) (p.typeMap decode) e.2).2 = false) :
    p.encodeAll decode encode = (p.heap, Map.empty) := by
  refine List.foldlRecOn (motive := (· = (p.heap, Map.empty))) _ _ rfl fun st hst e he => ?_
  rw [encodeFixed, if_neg, hst]
  exact Bool.not_eq_true _ ▸ h e he

theorem fixReflectionTypeNames_eq_none_iff :
    p.fixReflectionTypeNames decode encode = none ↔
      ∀ e ∈ (p.decodedDescriptors decode).entries,
        (applyFixes (p.packageMap decode) (p.typeMap decode) e.2).2 = false := by
  have hall := p.encodeAll_encodedFrom decode encode
  rw [fixReflectionTypeNames]
  constructor
  · intro h e he
    by_contra hm
    have hhas := hall.modified e he (Bool.not_eq_false _ ▸ hm)
    have hempty : (p.encodeAll decode encode).2.entries = [] := by simpa using h
    simp [Map.has, Map.get, hempty, Map.find] at hhas
  · intro h
    simp [p.encodeAll_of_not_modified decode encode h, Map.empty]

theorem fileDescriptorProtos_eq_some {defn : AnyDefinition ω} {protos : List Buffer} :
    fileDescriptorProtos defn = some protos ↔ defn.get protosKey = some (.buffers protos) := by
  rw [fileDescriptorProtos]
  split
  · next bufs h => simp [h]
  · next h => simpa using h protos

theorem get_withProtos_of_ne (f : Buffer → Buffer) (defn : AnyDefinition ω) {k : JsString}
    (hk : k ≠ protosKey) : (withProtos f defn).get k = defn.get k := by
  rw [withProtos]
  split
  · exact Map.get_set_of_ne _ _ hk
  · rfl

theorem keys_withProtos (f : Buffer → Buffer) (defn : AnyDefinition ω) :
    (withProtos f defn).keys = defn.keys := by
  rw [withProtos]
  split
  · next protos h =>
    exact Map.keys_set_of_get (fileDescriptorProtos_eq_some.1 h)
  · rfl

theorem withProtos_id (defn : AnyDefinition ω) : withProtos id defn = defn := by
  rw [withProtos]
  split
  · next protos h =>
    rw [List.map_id]
    exact Map.ext_entries (Map.put_of_find (fileDescriptorProtos_eq_some.1 h))
  · rfl

theorem returned_heap : (p.returned decode encode).heap = (p.encodeAll decode encode).1 := by
  by_cases h : p.fixReflectionTypeNames decode encode = none
  · rw [p.encodeAll_of_not_modified decode encode
      ((p.fixReflectionTypeNames_eq_none_iff decode encode).1 h), returned, h]
    rfl
  · rw [returned]
    rw [fixReflectionTypeNames] at h ⊢
    split_ifs at h ⊢ with he
    · exact absurd rfl h
    · rfl

theorem returned_pkgDefs : (p.returned decode encode).pkgDefs
    = mapDefinitions (p.replacement decode encode) p.pkgDefs := by
  by_cases h : p.fixReflectionTypeNames decode encode = none
  · have hid : p.replacement decode encode = id := by
      funext buf
      rw [replacement, p.encodeAll_of_not_modified decode encode
        ((p.fixReflectionTypeNames_eq_none_iff decode encode).1 h)]
      rfl
    rw [returned, h, hid, mapDefinitions]
    simp [withProtos_id]
  · rw [returned]
    rw [fixReflectionTypeNames] at h ⊢
    split_ifs at h ⊢ with he
    · exact absurd rfl h
    · rfl

theorem lt_next_of_mem {buf : Buffer} (h : buf ∈ (protosOf p.pkgDefs).protos) :
    buf < p.heap.next := by
  obtain ⟨protos, hp, hb⟩ := List.mem_flatMap.1 h
  exact p.inUse protos hp buf hb

theorem replacement_injective {a b : Buffer} (ha : a < p.heap.next) (hb : b < p.heap.next)
    (h : p.replacement decode encode a = p.replacement decode encode b) : a = b := by
  have hall := p.encodeAll_encodedFrom decode encode
  rw [replacement, replacement] at h
  rcases hga : (p.encodeAll decode encode).2.get a with _ | a' <;>
    rcases hgb : (p.encodeAll decode encode).2.get b with _ | b' <;>
    simp only [hga, hgb, Option.getD_none, Option.getD_some] at h
  · exact h
  · exact absurd h (ha.trans_le (hall.fresh hgb).1).ne
  · exact absurd h (hb.trans_le (hall.fresh hga).1).ne'
  · exact hall.injective hga (h ▸ hgb)

/-- The descriptor of a buffer, with its references fixed. -/
def fixedIn (buf : Buffer) : FileDescriptor :=
  (applyFixes (p.packageMap decode) (p.typeMap decode) (p.descriptorIn decode buf)).1

variable (hcodec : ∀ fd, decode (encode fd) = fd)

include hcodec

/-- A buffer is replaced by one with its fixed descriptor, and only where that is another one. -/
theorem descriptorIn_replacement {buf : Buffer} (h : buf ∈ (protosOf p.pkgDefs).protos) :
    (p.returned decode encode).descriptorIn decode (p.replacement decode encode buf)
        = p.fixedIn decode buf ∧
      (p.replacement decode encode buf = buf ↔ p.fixedIn decode buf = p.descriptorIn decode buf) := by
  have hall := p.encodeAll_encodedFrom decode encode
  have hget : (p.decodedDescriptors decode).get buf = some (p.descriptorIn decode buf) :=
    (decodedDescriptors_get _ _ _).trans (if_pos h)
  have hlt := p.lt_next_of_mem h
  rw [descriptorIn, returned_heap, replacement]
  rcases hg : (p.encodeAll decode encode).2.get buf with _ | new
  · have hm : ¬ (applyFixes (p.packageMap decode) (p.typeMap decode)
        (p.descriptorIn decode buf)).2 := fun hm =>
      Map.not_has.2 hg (hall.modified _ (Map.mem_entries.2 hget) hm)
    have hsame := applyFixes_of_not_modified _ _ (Bool.not_eq_true _ ▸ hm)
    rw [Option.getD_none, hall.kept buf hlt]
    exact ⟨hsame.symm, iff_of_true rfl hsame⟩
  · obtain ⟨fd, hfd, hm, henc⟩ := hall.encoded hg
    obtain rfl : p.descriptorIn decode buf = fd :=
      Option.some.inj (hget.symm.trans (Map.mem_entries.1 hfd))
    rw [Option.getD_some, henc, hcodec]
    exact ⟨rfl, iff_of_false (hlt.trans_le (hall.fresh hg).1).ne'
      (applyFixes_ne_of_modified (fixedOnce_index _) hm)⟩

theorem values_decodedDescriptors_returned :
    ((p.returned decode encode).decodedDescriptors decode).values
      = (p.decodedDescriptors decode).values.map fun fd =>
        (applyFixes (p.packageMap decode) (p.typeMap decode) fd).1 := by
  refine decodedDescriptors_map (fun a b => p.replacement_injective decode encode)
    (fun buf hb => ⟨p.lt_next_of_mem hb, (p.descriptorIn_replacement decode encode hcodec hb).1⟩) ?_
  rw [returned_pkgDefs]
  exact PackageDefinition.protos_map (protosOf_mapDefinitions _ _)

/-- Decoded, what a call returns is the definitions with the references of their descriptors
fixed. -/
theorem decoded_returned :
    (protosOf (p.returned decode encode).pkgDefs).decoded
        ((p.returned decode encode).descriptorIn decode)
      = DiiaApp.fixReflectionTypeNames (p.descriptorIn decode) (protosOf p.pkgDefs) := by
  refine Map.ext_entries ?_
  have hprotos : (protosOf (p.returned decode encode).pkgDefs).entries
      = (protosOf p.pkgDefs).entries.map fun e =>
        (e.1, e.2.map (List.map (p.replacement decode encode))) := by
    rw [returned_pkgDefs]
    exact protosOf_mapDefinitions _ _
  refine (congrArg (List.map _) hprotos).trans ?_
  rw [fixReflectionTypeNames_entries, List.map_map]
  refine List.map_congr_left fun e he => ?_
  rcases hp : e.2 with _ | protos
  · simp [hp]
  · simp only [Function.comp_apply, hp, Option.map_some, List.map_map]
    refine congrArg (fun l => (e.1, some l)) (List.map_congr_left fun buf hb => ?_)
    refine (p.descriptorIn_replacement decode encode hcodec ?_).1
    exact List.mem_flatMap.2 ⟨e.2, List.mem_map_of_mem he, by rwa [hp]⟩

/-- A second call returns its argument. -/
theorem fixReflectionTypeNames_returned :
    (p.returned decode encode).fixReflectionTypeNames decode encode = none ∧
      (p.returned decode encode).returned decode encode = p.returned decode encode := by
  have hnone : (p.returned decode encode).fixReflectionTypeNames decode encode = none := by
    rw [fixReflectionTypeNames_eq_none_iff, packageMap, typeMap,
      p.values_decodedDescriptors_returned decode encode hcodec, packageIndex_fix, typeIndex_fix]
    intro e he
    have hval : e.2 ∈ ((p.returned decode encode).decodedDescriptors decode).values :=
      List.mem_map_of_mem he
    rw [p.values_decodedDescriptors_returned decode encode hcodec] at hval
    obtain ⟨fd, -, hfd⟩ := List.mem_map.1 hval
    rw [← hfd]
    exact applyFixes_again (fixedOnce_index _) fd
  exact ⟨hnone, by rw [returned, hnone]; rfl⟩

/-- A package definition with the descriptor of an order, as its own encoding. -/
def orders : LoadedPackages FileDescriptor Unit where
  heap := ⟨fun _ => orderFile, 1⟩
  pkgDefs := Map.empty.set (js "app.Order") ((Map.empty.set (js "format") (.other ())).set protosKey
    (.buffers [0]))
  inUse := by decide

omit hcodec in
theorem fixReflectionTypeNames_returned_orders :
    (orders.returned id id).fixReflectionTypeNames id id = none ∧
      (orders.returned id id).returned id id = orders.returned id id :=
  fixReflectionTypeNames_returned id id orders fun _ => rfl

/-- A call changes nothing but references without a leading dot, and replaces a buffer, everywhere it
occurs, only where these have changed. -/
theorem returned_changes_references :
    (p.returned decode encode).pkgDefs.keys = p.pkgDefs.keys ∧
    (∃ f : Buffer → Buffer,
      (∀ key defn, p.pkgDefs.get key = some defn →
        ∃ defn', (p.returned decode encode).pkgDefs.get key = some defn' ∧
          defn'.keys = defn.keys ∧
          (∀ k, k ≠ protosKey → defn'.get k = defn.get k) ∧
          (fileDescriptorProtos defn = none → defn' = defn) ∧
          fileDescriptorProtos defn' = (fileDescriptorProtos defn).map (List.map f)) ∧
      ∀ buf ∈ (protosOf p.pkgDefs).protos,
        (p.descriptorIn decode buf).OnlyReferences
          ((p.returned decode encode).descriptorIn decode (f buf)) ∧
        (f buf = buf ↔ (p.returned decode encode).descriptorIn decode (f buf)
          = p.descriptorIn decode buf)) ∧
    ∀ buf < p.heap.next, (p.returned decode encode).heap.contents buf = p.heap.contents buf := by
  have hall := p.encodeAll_encodedFrom decode encode
  refine ⟨?_, ⟨p.replacement decode encode, fun key defn h => ?_, fun buf h => ?_⟩, ?_⟩
  · rw [returned_pkgDefs, Map.keys, Map.keys, mapDefinitions, List.map_map]
    rfl
  · refine ⟨withProtos (p.replacement decode encode) defn, ?_, ?_, ?_, ?_, ?_⟩
    · rw [returned_pkgDefs, Map.get, mapDefinitions, Map.find_map, ← Map.get, h]
      rfl
    · exact keys_withProtos _ _
    · intro k hk
      exact get_withProtos_of_ne _ _ hk
    · intro hn
      rw [withProtos, hn]
    · exact fileDescriptorProtos_withProtos _ _
  · obtain ⟨hd, hf⟩ := p.descriptorIn_replacement decode encode hcodec h
    rw [hd]
    exact ⟨applyFixes_onlyReferences _ _ _, hf⟩
  · intro buf hb
    rw [returned_heap, hall.kept buf hb]

omit hcodec in
theorem returned_changes_references_orders :
    (orders.returned id id).pkgDefs.keys = [js "app.Order"] ∧
      (orders.returned id id).heap.contents 0 = orderFile :=
  have h := returned_changes_references id id orders fun _ => rfl
  ⟨h.1, h.2.2 0 (by decide)⟩

end LoadedPackages

end DiiaApp
