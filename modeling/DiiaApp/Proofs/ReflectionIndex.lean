import DiiaApp.ReflectionFix

/-!
# Where fixed references point

The index of types has the messages at any depth and the enums of files, not those in messages, and
the index of packages has a package under what it properly ends in (`typeIndex_eq`,
`packageIndex_eq`). A simple name becomes the one type of the index that has it; any other is put in
the package that its qualifier ends with (`qualified_iff`).
-/

namespace DiiaApp

open Js

mutual

/-- The full names of a message and the messages in it, where they have a name. -/
def MessageDescriptor.indexed (pre : DottedName) : MessageDescriptor → List DottedName
  | .mk name _ nestedType _ _ _ =>
    (if name ≠ [] then [pre ++ [name]] else []) ++ indexedAll (pre ++ [name]) nestedType

def indexedAll (pre : DottedName) : List MessageDescriptor → List DottedName
  | [] => []
  | m :: ms => m.indexed pre ++ indexedAll pre ms

end

def FileDescriptor.indexed (fd : FileDescriptor) : List DottedName :=
  indexedAll fd.package fd.messageType
    ++ (fd.enumType.filter (· ≠ [])).map fun e => fd.package ++ [e]

/-- The messages at any depth and the enums outside messages, of the files with a package. -/
def indexedTypes (files : List FileDescriptor) : List DottedName :=
  (files.filter (·.package ≠ [])).flatMap FileDescriptor.indexed

/-- The packages that end in `s` and have more parts before it. -/
def packagesEnding (files : List FileDescriptor) (s : DottedName) : List DottedName :=
  (files.map FileDescriptor.package).filter fun pkg => s ≠ [] ∧ s <:+ pkg ∧ s ≠ pkg

def simpleName (name : DottedName) : JsString := name.getLastD []

/-- A type in the index. -/
def entry (name : DottedName) : JsString × DottedName := (simpleName name, dotted name)

theorem entry_concat (pre : DottedName) (x : JsString) :
    entry (pre ++ [x]) = (x, dotted pre ++ [x]) := by
  simp [entry, simpleName, dotted]

theorem singleton_suffix_iff {x : JsString} {name : DottedName} (hn : name ≠ []) :
    [x] <:+ name ↔ simpleName name = x := by
  obtain ⟨pre, y, rfl⟩ := (List.eq_nil_or_concat name).resolve_left hn
  rw [List.concat_eq_append, simpleName, List.getLastD_concat]
  constructor
  · rintro ⟨pre', he⟩
    exact (List.singleton_inj.1 (List.append_inj' he rfl).2).symm
  · rintro rfl
    exact List.suffix_append pre [y]

theorem dotted_inj {a b : DottedName} : dotted a = dotted b ↔ a = b := by simp [dotted]

mutual

theorem collectMessageTypes_eq (pre : DottedName) (typeMap : NameIndex JsString) :
    ∀ m : MessageDescriptor, collectMessageTypes (dotted pre) typeMap m
      = typeMap.file ((m.indexed pre).map entry)
  | .mk name _ nestedType _ _ _ => by
    rw [collectMessageTypes, MessageDescriptor.indexed, List.map_append, Map.file_append,
      ← collectAll_eq (pre ++ [name]) _ nestedType]
    congr 1
    split_ifs with h
    · rw [List.map_singleton, entry_concat]
      rfl
    · rfl

theorem collectAll_eq (pre : DottedName) (typeMap : NameIndex JsString) :
    ∀ ms : List MessageDescriptor, collectAll (dotted pre) typeMap ms
      = typeMap.file ((indexedAll pre ms).map entry)
  | [] => rfl
  | m :: ms => by
    rw [collectAll, indexedAll, List.map_append, Map.file_append, collectMessageTypes_eq,
      collectAll_eq]

end

theorem collectTypes_eq (fd : FileDescriptor) (typeMap : NameIndex JsString) :
    collectTypes fd typeMap = typeMap.file (fd.indexed.map entry) := by
  have henum : ∀ (es : List JsString) (m : NameIndex JsString),
      es.foldl (fun typeMap e =>
        if e ≠ [] then addToTypeMap typeMap e (dotted fd.package ++ [e]) else typeMap) m
      = m.file (((es.filter (· ≠ [])).map fun e => fd.package ++ [e]).map entry) := by
    intro es
    induction es with
    | nil => exact fun m => rfl
    | cons e es ih =>
      intro m
      rw [List.foldl_cons, ih]
      rcases eq_or_ne e [] with he | he
      · rw [if_neg (not_not.2 he), List.filter_cons_of_neg (by simpa using he)]
      · rw [if_pos he, List.filter_cons_of_pos (by simpa using he), List.map_cons, List.map_cons,
          entry_concat]
        rfl
  rw [collectTypes, henum, collectAll_eq, ← Map.file_append, ← List.map_append]
  rfl

theorem typeIndex_eq (files : List FileDescriptor) :
    typeIndex files = Map.empty.file ((indexedTypes files).map entry) := by
  rw [indexedTypes, List.map_flatMap, ← Map.file_flatMap, List.foldl_filter, typeIndex]
  congr 1
  funext m fd
  rw [collectTypes_eq]
  simp only [decide_eq_true_eq]

/-- A package under what it ends in. -/
def packageEntries (pkg : DottedName) : List (DottedName × DottedName) :=
  (List.range' 1 (pkg.length - 1)).map fun i => (pkg.drop i, pkg)

theorem packageIndex_eq (files : List FileDescriptor) :
    packageIndex files = Map.empty.file (files.flatMap fun fd => packageEntries fd.package) := by
  rw [← Map.file_flatMap, packageIndex]
  congr 1
  funext m fd
  have hb : buildPackageMap fd.package m = m.file (packageEntries fd.package) := by
    rw [packageEntries, Map.file, List.foldl_map, buildPackageMap]
  split_ifs with h
  · exact hb
  · rw [not_not.1 h]
    rfl

theorem mem_packageEntries {pkg s q : DottedName} :
    (s, q) ∈ packageEntries pkg ↔ q = pkg ∧ s ≠ [] ∧ s <:+ pkg ∧ s ≠ pkg := by
  simp only [packageEntries, List.mem_map, List.mem_range'_1, Prod.mk.injEq]
  constructor
  · rintro ⟨i, hi, rfl, rfl⟩
    refine ⟨rfl, ?_, List.drop_suffix i pkg, fun h => ?_⟩
    · rw [Ne, List.drop_eq_nil_iff]
      omega
    · have hl := congrArg List.length h
      rw [List.length_drop] at hl
      omega
  · rintro ⟨rfl, hs, ⟨pre, rfl⟩, hne⟩
    have hpre : 0 < pre.length := List.length_pos_iff.2 fun h => hne (by rw [h]; rfl)
    have hpos : 0 < s.length := List.length_pos_iff.2 hs
    exact ⟨pre.length, by rw [List.length_append]; omega, List.drop_left, rfl⟩

/-- A package comes at most once under what it ends in. -/
theorem under_packageEntries (s pkg : DottedName) :
    Map.under s (packageEntries pkg)
      = if s ≠ [] ∧ s <:+ pkg ∧ s ≠ pkg then [pkg] else [] := by
  have hn : ((packageEntries pkg).map Prod.fst).Nodup := by
    rw [packageEntries, List.map_map]
    refine List.Nodup.map_on (fun i hi j hj h => ?_) List.nodup_range'
    rw [List.mem_range'_1] at hi hj
    have hl : (pkg.drop i).length = (pkg.drop j).length := congrArg List.length h
    rw [List.length_drop, List.length_drop] at hl
    omega
  rw [Map.under_of_nodup hn]
  split_ifs with h
  · rw [Map.find_of_mem hn (mem_packageEntries.2 ⟨rfl, h⟩), Option.toList_some]
  · rcases hf : Map.find s (packageEntries pkg) with _ | q
    · rfl
    · exact absurd (mem_packageEntries.1 (Map.mem_of_find hf)).2 h

theorem under_packages (files : List FileDescriptor) (s : DottedName) :
    Map.under s (files.flatMap fun fd => packageEntries fd.package) = packagesEnding files s := by
  induction files with
  | nil => rfl
  | cons fd files ih =>
    have ha : ∀ es fs : List (DottedName × DottedName),
        Map.under s (es ++ fs) = Map.under s es ++ Map.under s fs := by simp [Map.under]
    rw [List.flatMap_cons, ha, ih, under_packageEntries, packagesEnding, packagesEnding,
      List.map_cons, List.filter_cons]
    split_ifs <;> simp_all

mutual

theorem MessageDescriptor.declared_of_indexed {pre T : DottedName} : ∀ {m : MessageDescriptor},
    T ∈ m.indexed pre → T ∈ m.declared pre
  | .mk name _ nestedType enumType _ _, h => by
    rw [MessageDescriptor.indexed, List.mem_append] at h
    rw [MessageDescriptor.declared, List.mem_cons, List.mem_append]
    refine h.imp (fun h => ?_) fun h => .inl (declaredAll_of_indexedAll h)
    split_ifs at h
    · exact List.mem_singleton.1 h
    · simp at h

theorem declaredAll_of_indexedAll {pre T : DottedName} : ∀ {ms : List MessageDescriptor},
    T ∈ indexedAll pre ms → T ∈ declaredAll pre ms
  | _ :: _, h => List.mem_append.2 ((List.mem_append.1 h).imp
      MessageDescriptor.declared_of_indexed declaredAll_of_indexedAll)

end

theorem declared_of_indexed {files : List FileDescriptor} {T : DottedName}
    (h : T ∈ indexedTypes files) : T ∈ declaredTypes files := by
  obtain ⟨fd, hfd, hT⟩ := List.mem_flatMap.1 h
  refine List.mem_flatMap.2 ⟨fd, List.mem_of_mem_filter hfd, List.mem_append.2 ?_⟩
  refine (List.mem_append.1 hT).imp declaredAll_of_indexedAll fun he => ?_
  obtain ⟨e, hmem, rfl⟩ := List.mem_map.1 he
  exact List.mem_map.2 ⟨e, List.mem_of_mem_filter hmem, rfl⟩

mutual

theorem MessageDescriptor.ne_nil_of_declared {pre T : DottedName} : ∀ {m : MessageDescriptor},
    T ∈ m.declared pre → T ≠ []
  | .mk name _ nestedType enumType _ _, h => by
    rw [MessageDescriptor.declared, List.mem_cons, List.mem_append, List.mem_map] at h
    rcases h with rfl | h | ⟨e, -, rfl⟩
    · simp
    · exact ne_nil_of_declaredAll h
    · simp

theorem ne_nil_of_declaredAll {pre T : DottedName} : ∀ {ms : List MessageDescriptor},
    T ∈ declaredAll pre ms → T ≠ []
  | _ :: _, h => (List.mem_append.1 h).elim MessageDescriptor.ne_nil_of_declared
      ne_nil_of_declaredAll

end

theorem ne_nil_of_declaredTypes {files : List FileDescriptor} {T : DottedName}
    (h : T ∈ declaredTypes files) : T ≠ [] := by
  obtain ⟨fd, -, hT⟩ := List.mem_flatMap.1 h
  rcases List.mem_append.1 hT with hT | hT
  · exact ne_nil_of_declaredAll hT
  · obtain ⟨e, -, rfl⟩ := List.mem_map.1 hT
    simp

variable (files : List FileDescriptor)

/-- `T` is the only type of the index with its simple name. -/
def OnlyNamed (T : DottedName) : Prop :=
  T ∈ indexedTypes files ∧ ∀ U ∈ indexedTypes files, simpleName U = simpleName T → U = T

theorem typeIndex_singleton {x : JsString} {fqn : DottedName} :
    (typeIndex files).get x = some [fqn] ↔
      ∃ T, OnlyNamed files T ∧ simpleName T = x ∧ dotted T = fqn := by
  have he : ∀ f, (x, f) ∈ (indexedTypes files).map entry ↔
      ∃ T ∈ indexedTypes files, simpleName T = x ∧ dotted T = f := by simp [entry]
  rw [typeIndex_eq, Map.get_eq_singleton]
  simp only [he]
  constructor
  · rintro ⟨⟨T, hT, hx, hd⟩, honly⟩
    exact ⟨T, ⟨hT, fun U hU hn => dotted_inj.1 ((honly _ ⟨U, hU, hn.trans hx, rfl⟩).trans hd.symm)⟩,
      hx, hd⟩
  · rintro ⟨T, ⟨hT, honly⟩, hx, hd⟩
    refine ⟨⟨T, hT, hx, hd⟩, ?_⟩
    rintro _ ⟨U, hU, hn, rfl⟩
    rw [honly U hU (hn.trans hx.symm), hd]

theorem isKnownType_iff (T : DottedName) :
    isKnownType (typeIndex files) (dotted T) = true ↔ T ∈ indexedTypes files := by
  simp only [isKnownType, List.any_eq_true, decide_eq_true_eq]
  rw [Map.exists_mem_values, typeIndex_eq]
  simp only [Map.mem_listOf, List.mem_map, entry, Prod.mk.injEq, dotted_inj]
  constructor
  · rintro ⟨-, U, hU, -, rfl⟩
    exact hU
  · exact fun hT => ⟨_, T, hT, rfl, rfl⟩

/-- `s` is the longest end of `q` that a package properly ends in. -/
structure LongestEnding (q s : DottedName) : Prop where
  suffix : s <:+ q
  ne_nil : packagesEnding files s ≠ []
  longest : ∀ s', s' <:+ q → packagesEnding files s' ≠ [] → s'.length ≤ s.length

theorem packageIndex_get_eq_none (s : DottedName) :
    (packageIndex files).get s = none ↔ packagesEnding files s = [] := by
  rw [packageIndex_eq, Map.get_eq_none, under_packages]

theorem packagesEnding_nil : packagesEnding files [] = [] := by simp [packagesEnding]

/-- The search for packages ends with the longest end of the qualifier. -/
theorem fullPkgs_cases : ∀ q : DottedName,
    fullPkgs (packageIndex files) q = none ∧ (∀ s, s <:+ q → packagesEnding files s = []) ∨
      ∃ s, LongestEnding files q s ∧
        fullPkgs (packageIndex files) q = (packageIndex files).get s
  | [] => .inl ⟨rfl, fun s hs => by rw [List.suffix_nil.1 hs, packagesEnding_nil]⟩
  | part :: parts => by
    rcases hg : (packageIndex files).get (part :: parts) with _ | pkgs
    · have he := (packageIndex_get_eq_none files _).1 hg
      rw [fullPkgs, hg]
      rcases fullPkgs_cases parts with ⟨hn, hs⟩ | ⟨s, hs, hn⟩
      · exact .inl ⟨hn, fun s h => (List.suffix_cons_iff.1 h).elim (fun h => h ▸ he) (hs s)⟩
      · refine .inr ⟨s, ⟨hs.suffix.trans (List.suffix_cons _ _), hs.ne_nil, fun s' h hne => ?_⟩, hn⟩
        exact (List.suffix_cons_iff.1 h).elim (fun h => absurd he (h ▸ hne))
          (fun h => hs.longest s' h hne)
    · refine .inr ⟨part :: parts, ⟨List.suffix_rfl, fun he => ?_, fun s' h _ => h.length_le⟩, ?_⟩
      · rw [(packageIndex_get_eq_none files _).2 he] at hg
        exact Option.some_ne_none _ hg.symm
      · rw [fullPkgs, hg]

/-- Of the packages `pkgs`, `P` is the first with an indexed type `x`, or where none has one the
first. -/
def TakenFor (x : JsString) (pkgs : List DottedName) (P : DottedName) : Prop :=
  ∃ before after, pkgs = before ++ P :: after ∧
    (∀ B ∈ before, B ++ [x] ∉ indexedTypes files) ∧
      (P ++ [x] ∈ indexedTypes files ∨
        before = [] ∧ ∀ A ∈ after, A ++ [x] ∉ indexedTypes files)

/-- A qualified name leads to `T`: in the package taken of those that end in the longest end of its
qualifier, or as its full name where no package ends in any. -/
def LeadsTo (ref T : DottedName) : Prop :=
  (∃ s P, LongestEnding files ref.dropLast s ∧
      TakenFor files (simpleName ref) (packagesEnding files s) P ∧ T = P ++ [simpleName ref]) ∨
    (∀ s, s <:+ ref.dropLast → packagesEnding files s = []) ∧ T = ref

theorem LongestEnding.unique {files : List FileDescriptor} {q s s' : DottedName}
    (h : LongestEnding files q s) (h' : LongestEnding files q s') : s = s' := by
  have hl : s.length = s'.length :=
    le_antisymm (h'.longest s h.suffix h.ne_nil) (h.longest s' h'.suffix h'.ne_nil)
  exact (List.suffix_of_suffix_length_le h.suffix h'.suffix hl.le).eq_of_length hl

theorem takenFor_iff {x : JsString} {pkgs : List DottedName} (hp : pkgs ≠ []) (P : DottedName) :
    TakenFor files x pkgs P ↔
      (pkgs.find? fun pkg => pkg ++ [x] ∈ indexedTypes files).getD (pkgs.headD []) = P := by
  rcases hf : pkgs.find? fun pkg => pkg ++ [x] ∈ indexedTypes files with _ | Q
  · have hno : ∀ pkg ∈ pkgs, pkg ++ [x] ∉ indexedTypes files := by simpa using hf
    obtain ⟨R, rest, rfl⟩ := List.exists_cons_of_ne_nil hp
    constructor
    · rintro ⟨before, after, he, -, hP | ⟨rfl, -⟩⟩
      · exact absurd hP (hno P (by simp [he]))
      · exact (List.cons.inj he).1
    · rintro rfl
      exact ⟨[], rest, rfl, by simp, .inr ⟨rfl, fun A hA => hno A (List.mem_cons_of_mem _ hA)⟩⟩
  · obtain ⟨hQ, before, after, rfl, hb⟩ := List.find?_eq_some_iff_append.1 hf
    simp only [decide_eq_true_eq] at hQ
    simp only [Bool.not_eq_true', decide_eq_false_iff_not] at hb
    constructor
    · rintro ⟨before', after', he, hb', hP⟩
      have hP' : P ++ [x] ∈ indexedTypes files := by
        rcases hP with hP | ⟨rfl, hA⟩
        · exact hP
        · have hmem : Q ∈ P :: after' := by
            rw [List.nil_append] at he
            simp [← he]
          rcases List.mem_cons.1 hmem with rfl | hQA
          · exact hQ
          · exact absurd hQ (hA Q hQA)
      have hf' : (before ++ Q :: after).find? (fun pkg => pkg ++ [x] ∈ indexedTypes files) = some P :=
        List.find?_eq_some_iff_append.2
          ⟨by simpa using hP', before', after', he, by simpa using hb'⟩
      rw [hf] at hf'
      exact Option.some.inj hf'
    · rintro rfl
      exact ⟨before, after, rfl, hb, .inl hQ⟩

theorem find_packages {s : DottedName} {pkgs : List DottedName}
    (h : (packageIndex files).get s = some pkgs) (p : DottedName → Bool) :
    pkgs.find? p = (packagesEnding files s).find? p := by
  have hf := Map.find_listOf (files.flatMap fun fd => packageEntries fd.package) s p
  rwa [← packageIndex_eq, under_packages, Map.listOf, h] at hf

theorem headD_eq_find (pkgs : List DottedName) :
    pkgs.headD [] = (pkgs.find? fun _ => true).getD [] := by
  rcases pkgs with _ | ⟨pkg, pkgs⟩ <;> rfl

/-- A simple name becomes the only type of the index that has it, if there is one. -/
theorem fullyQualifyTypeName_simple (x : JsString) :
    (∃ U, OnlyNamed files U ∧ simpleName U = x ∧
      fullyQualifyTypeName (packageIndex files) (typeIndex files) [x] = dotted U) ∨
    (∀ U, OnlyNamed files U → simpleName U ≠ x) ∧
      fullyQualifyTypeName (packageIndex files) (typeIndex files) [x] = [x] := by
  have hx : ¬ isAbsolute [x] := by simp [isAbsolute]
  rw [fullyQualifyTypeName.eq_def, if_neg hx]
  dsimp only
  split
  · next fqn hg =>
    obtain ⟨U, hU, hn, hd⟩ := (typeIndex_singleton files).1 hg
    exact .inl ⟨U, hU, hn, hd.symm⟩
  · next hg =>
    exact .inr ⟨fun U hU hn => hg _ ((typeIndex_singleton files).2 ⟨U, hU, hn, rfl⟩), rfl⟩

/-- What a name with several parts becomes: the name in the package taken of those found, or the
name from the root. -/
theorem fullyQualifyTypeName_qualified {ref : DottedName} (ha : ¬ isAbsolute ref)
    (hl : ref.length ≠ 1) : fullyQualifyTypeName (packageIndex files) (typeIndex files) ref
      = dotted (match fullPkgs (packageIndex files) ref.dropLast with
        | some pkgs => (pkgs.find? fun pkg => pkg ++ [simpleName ref] ∈ indexedTypes files).getD
            (pkgs.headD []) ++ [simpleName ref]
        | none => ref) := by
  have hk : (fun fullPkg => isKnownType (typeIndex files) (dotted fullPkg ++ [simpleName ref]))
      = fun pkg => decide (pkg ++ [simpleName ref] ∈ indexedTypes files) := by
    funext pkg
    rw [Bool.eq_iff_iff, decide_eq_true_eq]
    exact isKnownType_iff files (pkg ++ [simpleName ref])
  rw [fullyQualifyTypeName.eq_def, if_neg ha]
  split
  · simp at hl
  · rw [← simpleName]
    dsimp only
    rw [hk]
    rcases fullPkgs (packageIndex files) ref.dropLast with _ | pkgs
    · rfl
    · dsimp only
      rcases pkgs.find? fun pkg => decide (pkg ++ [simpleName ref] ∈ indexedTypes files) <;> rfl

theorem isAbsolute_dotted {T : DottedName} (hT : T ≠ []) : isAbsolute (dotted T) = true := by
  obtain ⟨x, T, rfl⟩ := List.exists_cons_of_ne_nil hT
  rfl

theorem isAbsolute_qualified {ref : DottedName} (ha : ¬ isAbsolute ref) (hn : ref ≠ [])
    (hl : ref.length ≠ 1) :
    isAbsolute (fullyQualifyTypeName (packageIndex files) (typeIndex files) ref) = true := by
  rw [fullyQualifyTypeName_qualified files ha hl, isAbsolute_dotted]
  rcases fullPkgs (packageIndex files) ref.dropLast with _ | pkgs
  · exact hn
  · simp

theorem qualified_iff {ref T : DottedName} (ha : ¬ isAbsolute ref) (hl : ref.length ≠ 1) :
    fullyQualifyTypeName (packageIndex files) (typeIndex files) ref = dotted T ↔
      LeadsTo files ref T := by
  rw [fullyQualifyTypeName_qualified files ha hl, dotted_inj]
  rcases fullPkgs_cases files ref.dropLast with ⟨hn, hs⟩ | ⟨s, hs, hn⟩
  · rw [hn]
    dsimp only
    rw [LeadsTo]
    constructor
    · rintro rfl
      exact .inr ⟨hs, rfl⟩
    · rintro (⟨s, P, hE, -⟩ | ⟨-, rfl⟩)
      · exact absurd (hs s hE.suffix) hE.ne_nil
      · rfl
  · have hne := hs.ne_nil
    rcases hg : (packageIndex files).get s with _ | pkgs
    · exact absurd ((packageIndex_get_eq_none files s).1 hg) hne
    · rw [hn, hg]
      dsimp only
      rw [headD_eq_find, find_packages files hg, find_packages files hg, ← headD_eq_find]
      rw [LeadsTo]
      constructor
      · rintro rfl
        exact .inl ⟨s, _, hs, (takenFor_iff files hne _).2 rfl, rfl⟩
      · rintro (⟨s', P, hE, hP, rfl⟩ | ⟨hs', -⟩)
        · obtain rfl := hs.unique hE
          rw [(takenFor_iff files hne P).1 hP]
        · exact absurd (hs' s hs.suffix) hne

end DiiaApp
