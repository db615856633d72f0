import DiiaApp.Proofs.ReflectionIndex

/-!
# What fixed references mean

The fix leaves the types and packages that the files declare as they are and rewrites each reference
by itself, except those of extensions inside messages (`references_applyFixes`).
-/

namespace DiiaApp

open Js

section Fix

variable (packageMap : NameIndex DottedName) (typeMap : NameIndex JsString)

/-- The fix of a reference by itself. -/
def fixed (r : Reference) : Reference :=
  if r.position = .nestedExtension then r
  else { r with name := (fixReference packageMap typeMap r.name).1 }

theorem fixReference_of_not_modified {name : DottedName}
    (h : (fixReference packageMap typeMap name).2 = false) :
    (fixReference packageMap typeMap name).1 = name := by
  unfold fixReference at h ⊢
  split_ifs with hn
  · rw [if_pos hn] at h
    simpa using h
  · rfl

theorem fixField_of_not_modified {f : FieldDescriptor}
    (h : (fixField packageMap typeMap f).2 = false) : (fixField packageMap typeMap f).1 = f := by
  rw [fixField, fixReference_of_not_modified _ _ h]

theorem map_fst_of_not_modified {α : Type} {f : α → α × Bool}
    (hf : ∀ a, (f a).2 = false → (f a).1 = a) {l : List α}
    (h : (l.map f).any Prod.snd = false) : (l.map f).map Prod.fst = l := by
  rw [List.any_map, List.any_eq_false] at h
  calc (l.map f).map Prod.fst = l.map id := by
        rw [List.map_map]
        exact List.map_congr_left fun a ha => hf a (by simpa using h a ha)
    _ = l := List.map_id l

mutual

theorem fixMessageTypeNames_of_not_modified : ∀ m : MessageDescriptor,
    (fixMessageTypeNames packageMap typeMap m).2 = false →
      (fixMessageTypeNames packageMap typeMap m).1 = m
  | .mk name field nestedType enumType extension other, h => by
    rw [fixMessageTypeNames, Bool.or_eq_false_iff] at h
    rw [fixMessageTypeNames, fixAllTypeNames_of_not_modified nestedType h.2,
      map_fst_of_not_modified (fun _ => fixField_of_not_modified packageMap typeMap) h.1]

theorem fixAllTypeNames_of_not_modified : ∀ ms : List MessageDescriptor,
    (fixAllTypeNames packageMap typeMap ms).2 = false →
      (fixAllTypeNames packageMap typeMap ms).1 = ms
  | [], _ => rfl
  | m :: ms, h => by
    rw [fixAllTypeNames, Bool.or_eq_false_iff] at h
    rw [fixAllTypeNames, fixMessageTypeNames_of_not_modified m h.1,
      fixAllTypeNames_of_not_modified ms h.2]

end

theorem fixMethod_of_not_modified {method : MethodDescriptor}
    (h : (fixMethod packageMap typeMap method).2 = false) :
    (fixMethod packageMap typeMap method).1 = method := by
  rw [fixMethod, Bool.or_eq_false_iff] at h
  rw [fixMethod, fixReference_of_not_modified _ _ h.1, fixReference_of_not_modified _ _ h.2]

theorem fixService_of_not_modified {svc : ServiceDescriptor}
    (h : (fixService packageMap typeMap svc).2 = false) :
    (fixService packageMap typeMap svc).1 = svc := by
  rw [fixService,
    map_fst_of_not_modified (fun _ => fixMethod_of_not_modified packageMap typeMap) h]

theorem fixExtension_of_not_modified {ext : ExtensionDescriptor}
    (h : (fixExtension packageMap typeMap ext).2 = false) :
    (fixExtension packageMap typeMap ext).1 = ext := by
  rw [fixExtension, Bool.or_eq_false_iff] at h
  rw [fixExtension, fixReference_of_not_modified _ _ h.1, fixReference_of_not_modified _ _ h.2]

/-- A descriptor that is not reported as modified is as it was. -/
theorem applyFixes_of_not_modified {fd : FileDescriptor}
    (h : (applyFixes packageMap typeMap fd).2 = false) :
    (applyFixes packageMap typeMap fd).1 = fd := by
  rw [applyFixes, Bool.or_eq_false_iff, Bool.or_eq_false_iff] at h
  rw [applyFixes, fixAllTypeNames_of_not_modified _ _ _ h.1.1,
    map_fst_of_not_modified (fun _ => fixService_of_not_modified packageMap typeMap) h.1.2,
    map_fst_of_not_modified (fun _ => fixExtension_of_not_modified packageMap typeMap) h.2]

/-! ## Declarations and references -/

mutual

theorem declared_fix (pre : DottedName) : ∀ m : MessageDescriptor,
    (fixMessageTypeNames packageMap typeMap m).1.declared pre = m.declared pre
  | .mk name field nestedType enumType extension other => by
    rw [fixMessageTypeNames, MessageDescriptor.declared, MessageDescriptor.declared,
      declaredAll_fix (pre ++ [name]) nestedType]

theorem declaredAll_fix (pre : DottedName) : ∀ ms : List MessageDescriptor,
    declaredAll pre (fixAllTypeNames packageMap typeMap ms).1 = declaredAll pre ms
  | [] => rfl
  | m :: ms => by
    rw [fixAllTypeNames, declaredAll, declaredAll, declared_fix pre m, declaredAll_fix pre ms]

end

theorem declared_applyFixes (fd : FileDescriptor) :
    (applyFixes packageMap typeMap fd).1.declared = fd.declared := by
  rw [FileDescriptor.declared, FileDescriptor.declared, applyFixes]
  dsimp only
  rw [declaredAll_fix]

mutual

theorem references_fix (pre : DottedName) : ∀ m : MessageDescriptor,
    (fixMessageTypeNames packageMap typeMap m).1.references pre
      = (m.references pre).map (fixed packageMap typeMap)
  | .mk name field nestedType enumType extension other => by
    rw [fixMessageTypeNames, MessageDescriptor.references, MessageDescriptor.references,
      referencesAll_fix (pre ++ [name]) nestedType, List.map_append, List.map_append]
    congr 1
    · simp [fixed, fixField]
    · rw [List.map_flatMap]
      simp only [ExtensionDescriptor.references, List.map_cons, List.map_nil, fixed, if_pos]
      rfl

theorem referencesAll_fix (pre : DottedName) : ∀ ms : List MessageDescriptor,
    referencesAll pre (fixAllTypeNames packageMap typeMap ms).1
      = (referencesAll pre ms).map (fixed packageMap typeMap)
  | [] => rfl
  | m :: ms => by
    rw [fixAllTypeNames, referencesAll, referencesAll, references_fix pre m,
      referencesAll_fix pre ms, List.map_append]

end

theorem references_applyFixes (fd : FileDescriptor) :
    (applyFixes packageMap typeMap fd).1.references
      = fd.references.map (fixed packageMap typeMap) := by
  rw [FileDescriptor.references, FileDescriptor.references, applyFixes]
  dsimp only
  rw [referencesAll_fix, List.map_append, List.map_append]
  simp only [List.map_flatMap, List.flatMap_map]
  simp [ServiceDescriptor.references, ExtensionDescriptor.references, fixService, fixMethod,
    fixExtension, fixed, List.map_flatMap, List.flatMap_map]

theorem find_fixedBuffers (decoded : Map Buffer FileDescriptor) (buf : Buffer) :
    Map.find buf (fixedBuffers packageMap typeMap decoded)
      = (decoded.get buf).bind fun fd =>
        if (applyFixes packageMap typeMap fd).2 then some (applyFixes packageMap typeMap fd).1
        else none := by
  rw [Map.get, ← Map.find_filterMap _ buf decoded.nodup, fixedBuffers]
  congr 2
  funext e
  dsimp only
  split_ifs <;> rfl

end Fix

/-! ## Package definitions -/

variable (decode : Buffer → FileDescriptor) (pkgDefs : PackageDefinition Buffer)

def PackageDefinition.protos {β : Type} (pkgDefs : PackageDefinition β) : List β :=
  pkgDefs.values.flatMap fun protos => protos.getD []

/-- The descriptors of a package definition, in the order they are decoded in. -/
def descriptors : List FileDescriptor := (decodedDescriptors decode pkgDefs).values

theorem decodedDescriptors_get (buf : Buffer) : (decodedDescriptors decode pkgDefs).get buf
    = if buf ∈ PackageDefinition.protos pkgDefs then some (decode buf) else none := by
  have hfold : ∀ (bufs : List Buffer) (m : Map Buffer FileDescriptor),
      (bufs.foldl (fun decoded buf => if decoded.has buf then decoded
        else decoded.set buf (decode buf)) m).get buf
      = (m.get buf).or (if buf ∈ bufs then some (decode buf) else none) := by
    intro bufs
    induction bufs with
    | nil => simp
    | cons b bufs ih =>
      intro m
      rw [List.foldl_cons, ih]
      rcases eq_or_ne buf b with rfl | hne
      · rcases hm : m.get buf with _ | fd <;> simp [Map.has, hm]
      · split_ifs <;> simp_all [Map.get_set_of_ne]
  exact (hfold _ Map.empty).trans (by simp [PackageDefinition.protos])

theorem mem_descriptors {fd : FileDescriptor} :
    fd ∈ descriptors decode pkgDefs ↔ ∃ buf ∈ PackageDefinition.protos pkgDefs, decode buf = fd := by
  simp [descriptors, Map.mem_values, decodedDescriptors_get]

/-- The descriptor that stands for a buffer afterwards. -/
def fixedDescriptor (buf : Buffer) : FileDescriptor :=
  (applyFixes (packageIndex (descriptors decode pkgDefs)) (typeIndex (descriptors decode pkgDefs))
    (decode buf)).1

theorem fixReflectionTypeNames_entries :
    (fixReflectionTypeNames decode pkgDefs).entries = pkgDefs.entries.map fun e =>
      (e.1, Option.map (List.map (fixedDescriptor decode pkgDefs)) e.2) := by
  refine List.map_congr_left fun e he => ?_
  rcases hp : e.2 with _ | protos
  · rfl
  · rw [Option.map_some, Option.map_some]
    refine congrArg (fun l => (e.1, some l)) (List.map_congr_left fun buf hb => ?_)
    have hbuf : buf ∈ PackageDefinition.protos pkgDefs :=
      List.mem_flatMap.2 ⟨e.2, List.mem_map_of_mem he, by rwa [hp]⟩
    rw [find_fixedBuffers, decodedDescriptors_get, if_pos hbuf, Option.bind_some]
    split_ifs with hm
    · rfl
    · exact (applyFixes_of_not_modified _ _ (Bool.not_eq_true _ ▸ hm)).symm

theorem fixReflectionTypeNames_get (key : JsString) :
    (fixReflectionTypeNames decode pkgDefs).get key
      = (pkgDefs.get key).map (Option.map (List.map (fixedDescriptor decode pkgDefs))) := by
  rw [Map.get, fixReflectionTypeNames_entries, Map.find_map, ← Map.get]

theorem PackageDefinition.protos_map {β γ : Type} {f : β → γ} {pkgDefs : PackageDefinition β}
    {pkgDefs' : PackageDefinition γ}
    (h : pkgDefs'.entries = pkgDefs.entries.map fun e => (e.1, Option.map (List.map f) e.2)) :
    PackageDefinition.protos pkgDefs' = (PackageDefinition.protos pkgDefs).map f := by
  rw [PackageDefinition.protos, PackageDefinition.protos, Map.values, Map.values, h, List.map_map,
    List.map_flatMap, List.flatMap_map, List.flatMap_map]
  refine List.flatMap_congr fun e _ => ?_
  rcases e with ⟨k, _ | protos⟩ <;> rfl

theorem protos_fix : PackageDefinition.protos (fixReflectionTypeNames decode pkgDefs)
    = (PackageDefinition.protos pkgDefs).map (fixedDescriptor decode pkgDefs) :=
  PackageDefinition.protos_map (fixReflectionTypeNames_entries decode pkgDefs)

/-! ## What a reference means afterwards -/

theorem resolveIn_congr {files files' : List FileDescriptor}
    (ht : ∀ n, n ∈ declaredTypes files ↔ n ∈ declaredTypes files')
    (ha : ∀ n, IsAggregate files n ↔ IsAggregate files' n) (ref : DottedName) :
    ∀ scopes, resolveIn files ref scopes = resolveIn files' ref scopes
  | [] => rfl
  | scope :: scopes => by
    have ih := resolveIn_congr ht ha ref scopes
    rcases ref with _ | ⟨x, _ | ⟨y, rest⟩⟩
    · rfl
    · simp only [resolveIn, ht, ih]
    · simp only [resolveIn, ht, ha, ih]

/-- What no fix changes holds of a file afterwards where it did before. -/
theorem exists_protos_fix {P : FileDescriptor → Prop}
    (hP : ∀ packageMap typeMap fd, P (applyFixes packageMap typeMap fd).1 ↔ P fd) :
    (∃ fd ∈ PackageDefinition.protos (fixReflectionTypeNames decode pkgDefs), P fd) ↔
      ∃ fd ∈ descriptors decode pkgDefs, P fd := by
  simp only [protos_fix, List.mem_map, mem_descriptors, exists_exists_and_eq_and, fixedDescriptor,
    hP]

theorem mem_declaredTypes_fix (n : DottedName) :
    n ∈ declaredTypes (PackageDefinition.protos (fixReflectionTypeNames decode pkgDefs)) ↔
      n ∈ declaredTypes (descriptors decode pkgDefs) := by
  simp only [declaredTypes, List.mem_flatMap]
  exact exists_protos_fix decode pkgDefs fun _ _ fd => by rw [declared_applyFixes]

theorem isAggregate_fix (n : DottedName) :
    IsAggregate (PackageDefinition.protos (fixReflectionTypeNames decode pkgDefs)) n ↔
      IsAggregate (descriptors decode pkgDefs) n := by
  refine or_congr (mem_declaredTypes_fix decode pkgDefs n) (or_congr ?_ ?_)
  · exact exists_protos_fix decode pkgDefs fun _ _ fd => Iff.rfl
  · exact exists_protos_fix decode pkgDefs fun _ _ fd => by simp [applyFixes, fixService]

theorem resolve_fix (scope ref : DottedName) :
    resolve (PackageDefinition.protos (fixReflectionTypeNames decode pkgDefs)) scope ref
      = resolve (descriptors decode pkgDefs) scope ref := by
  simp only [resolve, mem_declaredTypes_fix]
  rw [resolveIn_congr (mem_declaredTypes_fix decode pkgDefs) (isAggregate_fix decode pkgDefs)]

/-- The definitions as they are, decoded. -/
def PackageDefinition.decoded (decode : Buffer → FileDescriptor)
    (pkgDefs : PackageDefinition Buffer) : PackageDefinition FileDescriptor :=
  ⟨pkgDefs.entries.map fun e => (e.1, e.2.map (List.map decode)),
    by rw [List.map_map]; exact pkgDefs.nodup⟩

/-- The `i`-th reference of the `j`-th descriptor under `key`. -/
def PackageDefinition.reference (pkgDefs : PackageDefinition FileDescriptor) (key : JsString)
    (j i : ℕ) : Option Reference := do
  let protos ← (pkgDefs.get key).join
  let fd ← protos[j]?
  fd.references[i]?

theorem reference_fix (key : JsString) (j i : ℕ) :
    PackageDefinition.reference (fixReflectionTypeNames decode pkgDefs) key j i
      = (PackageDefinition.reference (pkgDefs.decoded decode) key j i).map
        (fixed (packageIndex (descriptors decode pkgDefs))
          (typeIndex (descriptors decode pkgDefs))) := by
  have hd : (pkgDefs.decoded decode).get key = (pkgDefs.get key).map (Option.map (List.map decode)) :=
    Map.find_map _ key pkgDefs.entries
  rw [PackageDefinition.reference, PackageDefinition.reference, fixReflectionTypeNames_get, hd]
  rcases pkgDefs.get key with _ | _ | protos
  · rfl
  · rfl
  · simp only [Option.map_some, Option.join_some, Option.bind_eq_bind, Option.bind_some,
      List.getElem?_map]
    rcases protos[j]? with _ | buf
    · rfl
    · simp only [Option.map_some, Option.bind_some, fixedDescriptor, references_applyFixes,
        List.getElem?_map]

/-- A full name resolves to the type it names, where there is one. -/
theorem resolve_dotted (files : List FileDescriptor) (scope : DottedName) {T : DottedName}
    (hT : T ≠ []) : resolve files scope (dotted T)
      = if T ∈ declaredTypes files then some T else none := by
  obtain ⟨x, T, rfl⟩ := List.exists_cons_of_ne_nil hT
  rfl

theorem mem_of_resolveIn {files : List FileDescriptor} {ref T : DottedName} :
    ∀ {scopes : List DottedName}, resolveIn files ref scopes = some T → T ∈ declaredTypes files
  | [], h => by simp [resolveIn] at h
  | scope :: scopes, h => by
    rcases ref with _ | ⟨x, _ | ⟨y, rest⟩⟩ <;> simp only [resolveIn] at h
    · simp at h
    · split_ifs at h with hd
      · exact Option.some.inj h ▸ hd
      · exact mem_of_resolveIn h
    · split_ifs at h with ha hd
      · exact Option.some.inj h ▸ hd
      · exact mem_of_resolveIn h

theorem mem_of_resolve {files : List FileDescriptor} {scope ref T : DottedName}
    (h : resolve files scope ref = some T) : T ∈ declaredTypes files := by
  unfold resolve at h
  split_ifs at h with ha hm
  · exact Option.some.inj h ▸ hm
  · exact mem_of_resolveIn h

/-! ## Where the fix is right -/

/-- A name that means `T` is not led to another type: a simple name is not that of only one type in
the index, unless this is `T`, and any other name leads to `T`. -/
def NotMisled (files : List FileDescriptor) (ref T : DottedName) : Prop :=
  if ref.length = 1 then ∀ U, OnlyNamed files U → simpleName U = simpleName ref → U = T
  else LeadsTo files ref T

theorem fixed_name (packageMap : NameIndex DottedName) (typeMap : NameIndex JsString)
    {r : Reference} (hp : r.position ≠ .nestedExtension) (ha : ¬ isAbsolute r.name)
    (hn : r.name ≠ []) : (fixed packageMap typeMap r).name
      = fullyQualifyTypeName packageMap typeMap r.name := by
  rw [fixed, if_neg hp, fixReference, if_pos ⟨hn, ha⟩]

theorem ne_nil_of_resolve {files : List FileDescriptor} {scope ref T : DottedName}
    (h : resolve files scope ref = some T) : ref ≠ [] := by
  rintro rfl
  have hnone : ∀ scopes, resolveIn files [] scopes = none := fun scopes => by
    cases scopes <;> rfl
  rw [resolve, if_neg (by decide), hnone] at h
  exact Option.some_ne_none _ h.symm

/-- The fix leaves a name as it is or makes it the full name of `T` exactly where it is not misled. -/
theorem notMisled_iff (files : List FileDescriptor) {ref T : DottedName} (ha : ¬ isAbsolute ref)
    (hn : ref ≠ []) :
    (fullyQualifyTypeName (packageIndex files) (typeIndex files) ref = ref ∨
      fullyQualifyTypeName (packageIndex files) (typeIndex files) ref = dotted T) ↔
      NotMisled files ref T := by
  unfold NotMisled
  split_ifs with hl
  · obtain ⟨x, rfl⟩ := List.length_eq_one_iff.1 hl
    rcases fullyQualifyTypeName_simple files x with ⟨U, hU, hx, hq⟩ | ⟨hno, hq⟩
    · have hne : dotted U ≠ [x] := by
        have hU0 := ne_nil_of_declaredTypes (declared_of_indexed hU.1)
        simp [dotted, hU0]
      rw [hq, dotted_inj]
      constructor
      · rintro (h | rfl) V hV hVx
        · exact absurd h hne
        · exact hU.2 V hV.1 (hVx.trans hx.symm)
      · exact fun h => .inr (h U hU hx)
    · rw [hq]
      exact iff_of_true (.inl rfl) fun U hU hx => absurd hx (hno U hU)
  · rw [← qualified_iff files ha hl, or_iff_right]
    exact fun h => ha (h ▸ isAbsolute_qualified files ha hn hl)

/-- A reference that means a type still means it after the fix exactly where it is not misled. -/
theorem keeps_type_iff {key : JsString} {j i : ℕ} {r : Reference} {T : DottedName}
    (hr : PackageDefinition.reference (pkgDefs.decoded decode) key j i = some r)
    (hp : r.position ≠ .nestedExtension) (ha : ¬ isAbsolute r.name)
    (hT : resolve (descriptors decode pkgDefs) r.scope r.name = some T) :
    (∃ r', PackageDefinition.reference (fixReflectionTypeNames decode pkgDefs) key j i = some r' ∧
      r'.scope = r.scope ∧ (r'.name = r.name ∨ r'.name = dotted T) ∧
      resolve (PackageDefinition.protos (fixReflectionTypeNames decode pkgDefs)) r.scope r'.name
        = some T) ↔
      NotMisled (descriptors decode pkgDefs) r.name T := by
  have hn : r.name ≠ [] := ne_nil_of_resolve hT
  have hname := fixed_name (packageIndex (descriptors decode pkgDefs))
    (typeIndex (descriptors decode pkgDefs)) hp ha hn
  have hmem := mem_of_resolve hT
  rw [← notMisled_iff _ ha hn, ← hname, reference_fix, hr]
  constructor
  · rintro ⟨r', hr', -, h, -⟩
    rwa [Option.some.inj hr']
  · intro h
    refine ⟨_, rfl, ?_, h, ?_⟩
    · rw [fixed, if_neg hp]
    · rw [resolve_fix]
      rcases h with h | h
      · rw [h, hT]
      · rw [h, resolve_dotted _ _ (ne_nil_of_declaredTypes hmem), if_pos hmem]

/-- An order of package `app` with a status, which is the enum in its message, and a message
`Status` next to it. -/
def orderFile : FileDescriptor where
  name := js "order.proto"
  package := [js "app"]
  messageType :=
    [.mk (js "Order") [{ name := js "status", typeName := [js "Status"] },
        { name := js "item", typeName := [js "Item"] }] [] [js "Status"] [] [],
      .mk (js "Status") [] [] [] [] [], .mk (js "Item") [] [] [] [] []]
  enumType := []
  extension := []
  service := []

/-- A package definition with one descriptor. -/
def oneFile : PackageDefinition Buffer := Map.empty.set (js "app.Orders") (some [0])

theorem keeps_type_iff_item :
    NotMisled (descriptors (fun _ => orderFile) oneFile) [js "Item"] [js "app", js "Item"] :=
  have hr : PackageDefinition.reference (oneFile.decoded fun _ => orderFile) (js "app.Orders") 0 1
      = some ⟨.field, [js "app", js "Order"], [js "Item"]⟩ := by decide
  (keeps_type_iff _ _ hr (by decide) (by decide) (by decide)).1
    ⟨⟨.field, [js "app", js "Order"], dotted [js "app", js "Item"]⟩, by decide, rfl, .inr rfl,
      by decide⟩

/-- The status of an order means the enum in its message before the fix and not after it. -/
theorem not_keeps_type :
    PackageDefinition.reference (oneFile.decoded fun _ => orderFile) (js "app.Orders") 0 0
        = some ⟨.field, [js "app", js "Order"], [js "Status"]⟩ ∧
      resolve (descriptors (fun _ => orderFile) oneFile) [js "app", js "Order"] [js "Status"]
        = some [js "app", js "Order", js "Status"] ∧
      ¬ ∃ r', PackageDefinition.reference (fixReflectionTypeNames (fun _ => orderFile) oneFile)
          (js "app.Orders") 0 0 = some r' ∧
        resolve (PackageDefinition.protos (fixReflectionTypeNames (fun _ => orderFile) oneFile))
          [js "app", js "Order"] r'.name = some [js "app", js "Order", js "Status"] := by
  refine ⟨by decide, by decide, ?_⟩
  rintro ⟨r', hr, hres⟩
  have hfix : PackageDefinition.reference (fixReflectionTypeNames (fun _ => orderFile) oneFile)
      (js "app.Orders") 0 0
      = some ⟨.field, [js "app", js "Order"], dotted [js "app", js "Status"]⟩ := by decide
  obtain rfl := Option.some.inj (hfix.symm.trans hr)
  exact absurd hres (by decide)

/-- A reference that ends the name of one type only becomes that name exactly where it is not in a
message's extension and its type, if the name is simple, is in the index or, if not, is what the
name leads to. -/
theorem qualifies_iff {key : JsString} {j i : ℕ} {r : Reference} {T : DottedName}
    (hr : PackageDefinition.reference (pkgDefs.decoded decode) key j i = some r)
    (ha : ¬ isAbsolute r.name) (hn : r.name ≠ [])
    (hT : T ∈ declaredTypes (descriptors decode pkgDefs)) (hs : r.name <:+ T)
    (honly : ∀ U ∈ declaredTypes (descriptors decode pkgDefs), r.name <:+ U → U = T) :
    (∃ r', PackageDefinition.reference (fixReflectionTypeNames decode pkgDefs) key j i = some r' ∧
      r'.name = dotted T) ↔
      r.position ≠ .nestedExtension ∧
        if r.name.length = 1 then T ∈ indexedTypes (descriptors decode pkgDefs)
        else LeadsTo (descriptors decode pkgDefs) r.name T := by
  have hne : r.name ≠ dotted T := fun h =>
    ha (h ▸ isAbsolute_dotted (ne_nil_of_declaredTypes hT))
  rw [reference_fix, hr, Option.map_some]
  simp only [Option.some_inj, exists_eq_left']
  by_cases hp : r.position = .nestedExtension
  · rw [fixed, if_pos hp]
    exact iff_of_false hne fun h => h.1 hp
  · rw [fixed_name _ _ hp ha hn, and_iff_right hp]
    split_ifs with hl
    · obtain ⟨x, hx⟩ := List.length_eq_one_iff.1 hl
      rw [hx] at hs hne honly ⊢
      have hTx := (singleton_suffix_iff (ne_nil_of_declaredTypes hT)).1 hs
      have hU : ∀ U ∈ indexedTypes (descriptors decode pkgDefs), simpleName U = x → U = T :=
        fun U hU hUx => honly U (declared_of_indexed hU)
          ((singleton_suffix_iff (ne_nil_of_declaredTypes (declared_of_indexed hU))).2 hUx)
      rcases fullyQualifyTypeName_simple (descriptors decode pkgDefs) x with
        ⟨V, hV, hVx, hq⟩ | ⟨hno, hq⟩
      · rw [hq, dotted_inj, ← hU V hV.1 hVx]
        exact iff_of_true rfl hV.1
      · rw [hq]
        exact iff_of_false hne fun hTi =>
          hno T ⟨hTi, fun U hUi hUT => hU U hUi (hUT.trans hTx)⟩ hTx
    · exact qualified_iff _ ha hl

/-- An account of package `app` with a state, which is the enum in its message. -/
def accountFile : FileDescriptor where
  name := js "account.proto"
  package := [js "app"]
  messageType :=
    [.mk (js "Account") [{ name := js "state", typeName := [js "State"] },
        { name := js "owner", typeName := [js "Owner"] }] [] [js "State"] [] [],
      .mk (js "Owner") [] [] [] [] []]
  enumType := []
  extension := []
  service := []

theorem qualifies_iff_owner : Position.field ≠ .nestedExtension ∧
    if [js "Owner"].length = 1 then
      [js "app", js "Owner"] ∈ indexedTypes (descriptors (fun _ => accountFile) oneFile)
    else LeadsTo (descriptors (fun _ => accountFile) oneFile) [js "Owner"]
      [js "app", js "Owner"] :=
  have hr : PackageDefinition.reference (oneFile.decoded fun _ => accountFile) (js "app.Orders") 0 1
      = some ⟨.field, [js "app", js "Account"], [js "Owner"]⟩ := by decide
  (qualifies_iff _ _ hr (by decide) (by decide) (by decide) (by decide) (by decide)).1
    ⟨⟨.field, [js "app", js "Account"], dotted [js "app", js "Owner"]⟩, by decide, rfl⟩

/-- The state of an account is a reference to one type only and is left as it is. -/
theorem not_qualifies :
    PackageDefinition.reference (oneFile.decoded fun _ => accountFile) (js "app.Orders") 0 0
        = some ⟨.field, [js "app", js "Account"], [js "State"]⟩ ∧
      (declaredTypes (descriptors (fun _ => accountFile) oneFile)).filter ([js "State"] <:+ ·)
        = [[js "app", js "Account", js "State"]] ∧
      ¬ ∃ r', PackageDefinition.reference (fixReflectionTypeNames (fun _ => accountFile) oneFile)
          (js "app.Orders") 0 0 = some r' ∧
        r'.name = dotted [js "app", js "Account", js "State"] := by
  refine ⟨by decide, by decide, ?_⟩
  rintro ⟨r', hr, hname⟩
  have hfix : PackageDefinition.reference (fixReflectionTypeNames (fun _ => accountFile) oneFile)
      (js "app.Orders") 0 0
      = some ⟨.field, [js "app", js "Account"], [js "State"]⟩ := by decide
  obtain rfl := Option.some.inj (hfix.symm.trans hr)
  exact absurd hname (by decide)

end DiiaApp
