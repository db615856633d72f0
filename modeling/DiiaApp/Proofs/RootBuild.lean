import DiiaApp.DynamicClient
import DiiaApp.Proofs.ProtoTree

/-!
# What a root is built of

A root is built by the fetches that are taken into it, in any order and with any outcome. Each
leaves alone what the ones before it left, a placeholder like anything else (`fills_takeIn`), so at
a path stands what the first of them to have anything for it has. A message whose path a placeholder
took first is therefore not the message (`types_kept_iff`): it has the fields of the placeholder,
none. With the message first it is, so that the order decides.
-/

namespace DiiaApp

open Js NameTree

variable {β φ : Type} (pb : Protobuf β φ)

/-- The root that some fetches build in turn. -/
def built (fetches : List (Fetch β)) : ProtoObject := fetches.foldl (takeIn pb) emptyRoot

section Step

variable {pb} {root : ProtoObject} {fetch : Fetch β} {descriptors : List β} {p : DottedName}
  {kind : ProtoKind}

/-- What descriptors merge into a root: a parsed root, or nothing. -/
def parsed (pb : Protobuf β φ) (descriptors : List β) : Option ParsedRoot :=
  match descriptors.filterMap pb.decode with
  | [] => none
  | decoded => pb.fromDescriptor decoded

theorem mergeDescriptorsIntoRoot_eq (root : ProtoObject) (descriptors : List β) :
    mergeDescriptorsIntoRoot pb root descriptors =
      match parsed pb descriptors with
      | some parsed => mergeAllInto root parsed.root.nested
      | none => root := by
  unfold mergeDescriptorsIntoRoot parsed
  cases descriptors.filterMap pb.decode with
  | nil => rfl
  | cons d ds => rfl

theorem slot_emptyRoot (hp : p ≠ []) : emptyRoot.slot p = .free := slot_new opens_plain hp

theorem ne_nil_of_free (h : root.slot p = .free) : p ≠ [] := (isNamespace_of_free h).1

theorem keeps_mergeDescriptorsIntoRoot (h : root.slot p ≠ .free) :
    (mergeDescriptorsIntoRoot pb root descriptors).slot p = root.slot p := by
  rw [mergeDescriptorsIntoRoot_eq]
  cases parsed pb descriptors with
  | none => rfl
  | some parsed => exact keeps_mergeAllInto _ h

/-- At a free path descriptors leave what the parsed root has there. -/
theorem slot_mergeDescriptorsIntoRoot (h : root.slot p = .free) :
    (mergeDescriptorsIntoRoot pb root descriptors).slot p = .taken kind ↔
      ∃ files, parsed pb descriptors = some files ∧ files.root.slot p = .taken kind := by
  rw [mergeDescriptorsIntoRoot_eq]
  rcases hp : parsed pb descriptors with _ | files
  · simp [h]
  · obtain ⟨x, q, rfl⟩ := List.exists_cons_of_ne_nil (ne_nil_of_free h)
    have hin := slot_mergeAllInto (d := kind) files.proper.nodup
      (fun _ hs => files.proper.inner hs) h
    dsimp only
    rw [hin, ← files.proper.slot_cons_eq_taken]
    simp

theorem keeps_createPlaceholderType {typeName : DottedName} (h : root.slot p ≠ .free) :
    (createPlaceholderType root typeName).slot p = root.slot p := by
  unfold createPlaceholderType
  split_ifs
  · rfl
  · exact keeps_placeAt h

theorem slot_createPlaceholderType {typeName : DottedName} (h : root.slot p = .free) :
    (createPlaceholderType root typeName).slot p = .taken kind ↔
      typeName.getLastD [] ≠ [] ∧ p <+: typeName ∧ kind = placeholderKind p typeName := by
  unfold createPlaceholderType
  split_ifs with hl
  · rw [h]
    exact ⟨nofun, fun hk => absurd hl hk.1⟩
  · rw [slot_placeAt h]
    exact (and_iff_right hl).symm

/-- What a fetch has for a path: what its files have there, or, where it failed, an empty message at
the path of its type and namespaces on the way to it. -/
def Fetch.Has (pb : Protobuf β φ) (fetch : Fetch β) (p : DottedName) (kind : ProtoKind) : Prop :=
  match fetch.descriptors with
  | some descriptors =>
    ∃ files, parsed pb descriptors = some files ∧ files.root.slot p = .taken kind
  | none => fetch.typeName.getLastD [] ≠ [] ∧ p <+: fetch.typeName ∧
    kind = placeholderKind p fetch.typeName

theorem keeps_takeIn (h : root.slot p ≠ .free) : (takeIn pb root fetch).slot p = root.slot p := by
  unfold takeIn
  cases fetch.descriptors with
  | none => exact keeps_createPlaceholderType h
  | some descriptors => exact keeps_mergeDescriptorsIntoRoot h

variable (pb) in
theorem fills_takeIn : Fills (takeIn pb) (Fetch.Has pb) where
  keeps _ _ _ := keeps_takeIn
  fill root fetch p kind h := by
    unfold takeIn Fetch.Has
    cases fetch.descriptors with
    | none => exact slot_createPlaceholderType h
    | some descriptors => exact slot_mergeDescriptorsIntoRoot h

theorem takeIn_data : (takeIn pb root fetch).data = root.data := by
  have hs : root.slot [] ≠ .free := by simp
  have hk : (takeIn pb root fetch).slot [] = root.slot [] := keeps_takeIn hs
  simpa using hk

theorem proper_takeIn (hr : root.Proper) (h : root.data.isNamespace = true) :
    (takeIn pb root fetch).Proper := by
  unfold takeIn
  cases fetch.descriptors with
  | none =>
    dsimp only
    unfold createPlaceholderType
    split_ifs
    · exact hr
    · exact proper_placeAt hr h
  | some descriptors =>
    dsimp only
    rw [mergeDescriptorsIntoRoot_eq]
    cases parsed pb descriptors with
    | none => exact hr
    | some files => exact proper_mergeAllInto hr h fun _ hs => files.proper.inner hs

end Step

variable {pb}

theorem slot_foldl_takeIn {fetches : List (Fetch β)} {root : ProtoObject} {p : DottedName}
    {kind : ProtoKind} (h : root.slot p = .taken kind) :
    (fetches.foldl (takeIn pb) root).slot p = .taken kind := by
  rw [(fills_takeIn pb).slot_keeps fetches (by simp [h]), h]

theorem built_data (fetches : List (Fetch β)) : (built pb fetches).data = .plain := by
  have h : (built pb fetches).slot [] = .taken .plain :=
    slot_foldl_takeIn rfl
  simpa using h

theorem fetchRound_of_settled {reflection : Reflection β} {r : Resolution}
    (h : typesToFetch pb r = []) : fetchRound pb reflection r = r := by
  unfold fetchRound
  rw [h, List.append_nil]
  rfl

theorem resolveAllTypes_eq (reflection : Reflection β) : ∀ (n : ℕ) (r : Resolution),
    resolveAllTypes pb reflection n r = (fetchRound pb reflection)^[n] r
  | 0, r => rfl
  | n + 1, r => by
    rw [resolveAllTypes, Function.iterate_succ_apply]
    split_ifs with h
    · rw [fetchRound_of_settled h, ← resolveAllTypes_eq reflection n r]
      cases n with
      | zero => rfl
      | succ n => rw [resolveAllTypes, if_pos h]
    · exact resolveAllTypes_eq reflection n _

/-- What holds at first and over every round holds in the end. -/
theorem resolveAllTypes_induction {reflection : Reflection β} {P : Resolution → Prop} {n : ℕ}
    {r : Resolution} (start : P r) (step : ∀ r, P r → P (fetchRound pb reflection r)) :
    P (resolveAllTypes pb reflection n r) := by
  rw [resolveAllTypes_eq]
  exact Function.Iterate.rec P start step n

/-- The fetches of a schema: the one of the service and those of the types. -/
def schemaFetches (reflection : Reflection β) (serviceName : DottedName)
    (typeNames : List DottedName) : List (Fetch β) :=
  ⟨serviceName, reflection serviceName⟩ :: fetchesOf reflection typeNames

/-- The root of a schema is built by its fetches. -/
theorem loadSchema_root {reflection : Reflection β} {serviceName : DottedName} {r : Resolution}
    (h : loadSchema pb reflection serviceName = some r) :
    r.root = built pb (schemaFetches reflection serviceName r.fetchedTypes) := by
  obtain ⟨descriptors, hd, rfl⟩ := Option.map_eq_some_iff.1 h
  refine resolveAllTypes_induction
    (P := fun r => r.root = built pb (schemaFetches reflection serviceName r.fetchedTypes))
    ?_ fun r hr => ?_
  · rw [schemaFetches, hd]
    rfl
  · rw [fetchRound, hr]
    simp only [schemaFetches, fetchesOf, built, List.foldl_cons, List.map_append, List.foldl_append]

/-- A message type that has all of some fields. -/
def ProtoKind.HasFields (fields : List MessageField) : ProtoKind → Prop
  | .type own _ => fields ⊆ own
  | _ => False

/-- One of the fetches brought files with a message of these fields under the name. -/
def Brings (pb : Protobuf β φ) (fetches : List (Fetch β)) (typeName : DottedName)
    (fields : List MessageField) : Prop :=
  typeName ≠ [] ∧ ∃ fetch ∈ fetches, fetch.descriptors.isSome ∧
    ∃ oneofs, fetch.Has pb typeName (.type fields oneofs)

/-- Every message that came is in the root with all of its fields. -/
def KeepsTypes (pb : Protobuf β φ) (fetches : List (Fetch β)) : Prop :=
  ∀ typeName fields, Brings pb fetches typeName fields →
    ∃ kind, (built pb fetches).slot typeName = .taken kind ∧ kind.HasFields fields

/-- Of the fetches the first to have anything for the path of `typeName` has a message with all of
the fields, and the first to have anything for a path on the way to it has what it can be nested
in. -/
def ComesFirst (pb : Protobuf β φ) (fetches : List (Fetch β)) (typeName : DottedName)
    (fields : List MessageField) : Prop :=
  (∃ kind, FirstHas (Fetch.Has pb) fetches typeName kind ∧ kind.HasFields fields) ∧
    ∀ q x, q ++ [x] <+: typeName → q ≠ [] → ∀ kind, FirstHas (Fetch.Has pb) fetches q kind →
      opens kind x = true

theorem comesFirst_iff {fetches : List (Fetch β)} {typeName : DottedName}
    {fields : List MessageField} (hne : typeName ≠ []) :
    (∃ kind, (built pb fetches).slot typeName = .taken kind ∧ kind.HasFields fields) ↔
      ComesFirst pb fetches typeName fields := by
  have hfree : ∀ {q : DottedName}, emptyRoot.slot q = .free ↔ q ≠ [] :=
    ⟨ne_nil_of_free, slot_emptyRoot⟩
  simp only [built, (fills_takeIn pb).slot_foldl (slot_emptyRoot hne), hfree, ComesFirst]
  constructor
  · rintro ⟨kind, ⟨hfirst, hopen⟩, hf⟩
    exact ⟨⟨kind, hfirst, hf⟩, hopen⟩
  · rintro ⟨⟨kind, hfirst, hf⟩, hopen⟩
    exact ⟨kind, ⟨hfirst, hopen⟩, hf⟩

/-- A fetch has nothing for a path, nor on the way to it anything that it cannot be nested in. -/
def Fetch.LeavesFree (pb : Protobuf β φ) (fetch : Fetch β) (p : DottedName) : Prop :=
  p ≠ [] ∧ (∀ kind, ¬ fetch.Has pb p kind) ∧
    ∀ q x, q ++ [x] <+: p → q ≠ [] → ∀ kind, fetch.Has pb q kind → opens kind x = true

theorem leavesFree_iff {fetch : Fetch β} {p : DottedName} :
    (built pb [fetch]).slot p = .free ↔ fetch.LeavesFree pb p := by
  have hslot : ∀ {q kind}, q ≠ [] →
      ((built pb [fetch]).slot q = .taken kind ↔ fetch.Has pb q kind) := fun hq =>
    (fills_takeIn pb).fill emptyRoot fetch _ _ (slot_emptyRoot hq)
  constructor
  · intro h
    refine ⟨ne_nil_of_free h, fun kind hk => ?_, fun q x hq hne kind hk => ?_⟩
    · rw [(hslot (ne_nil_of_free h)).2 hk] at h
      cases h
    · obtain ⟨r, rfl⟩ := hq
      rw [List.append_assoc, List.singleton_append] at h
      by_contra ho
      rw [slot_eq_blocked.2 ⟨q, x, r, kind, rfl, (hslot hne).2 hk, ho⟩] at h
      cases h
  · rintro ⟨hne, hnone, hopen⟩
    rcases hs : (built pb [fetch]).slot p with _ | kind | _
    · rfl
    · exact absurd ((hslot hne).1 hs) (hnone kind)
    · obtain ⟨q, x, r, kind, rfl, hk, ho⟩ := slot_eq_blocked.1 hs
      rcases q with _ | ⟨y, q⟩
      · rw [slot_nil, built_data, Slot.taken.injEq] at hk
        exact absurd (hk ▸ opens_plain x) ho
      · exact absurd (hopen _ x ⟨r, by simp⟩ (List.cons_ne_nil y q) kind
          ((hslot (List.cons_ne_nil y q)).1 hk)) ho

/-- Any two of the fetches of types have the same for a path that the fetch of the service leaves
free. -/
def HaveAlike (pb : Protobuf β φ) (service : Fetch β) (fetches : List (Fetch β)) : Prop :=
  ∀ fetch ∈ fetches, ∀ fetch' ∈ fetches, ∀ p kind kind', service.LeavesFree pb p →
    fetch.Has pb p kind → fetch'.Has pb p kind' → kind = kind'

/-- Whatever is the order of the fetches and their outcomes, the messages that came are in the root
with all of their fields just where they come first: no placeholder before them, neither their own
nor the namespace of one for a type in them. The root does not depend on the order of the fetches of
types just where these have the same for each path. The root of a schema is one that its fetches
build. -/
theorem types_kept_iff (service : Fetch β) (fetches : List (Fetch β)) :
    (KeepsTypes pb (service :: fetches) ↔ ∀ typeName fields,
      Brings pb (service :: fetches) typeName fields →
        ComesFirst pb (service :: fetches) typeName fields) ∧
    ((∀ order : List (Fetch β), order.Perm fetches →
      (built pb (service :: order)).slot = (built pb (service :: fetches)).slot) ↔
        HaveAlike pb service fetches) ∧
    ∀ reflection serviceName r, loadSchema pb reflection serviceName = some r →
      r.root = built pb (schemaFetches reflection serviceName r.fetchedTypes) := by
  refine ⟨?_, ?_, fun _ _ _ => loadSchema_root⟩
  · exact forall₂_congr fun typeName fields => imp_congr_right fun hb => comesFirst_iff hb.1
  · have hperm := (fills_takeIn pb).perm_iff fetches (built pb [service])
    simp only [Fills.Alike, leavesFree_iff] at hperm
    exact hperm

/-- The path from the root that a name stands for, leading dots making no difference. -/
def pathOf (name : DottedName) : DottedName := name.dropWhile (· = [])

/-- `protobufjs` on one file at a time, already parsed. -/
def bySearch : Protobuf ParsedRoot ParsedRoot where
  decode := some
  fromDescriptor := List.head?
  lookupTypeOrEnum root name := (root.lookup (pathOf name)).filter (·.data.isTypeOrEnum)
  lookupType root name := (root.lookup (pathOf name)).filter (·.data.isType)
  lookupService root name := (root.lookup (pathOf name)).filter (·.data.isService)

/-- A file of the package `p`. -/
def fileOf (nested : List ProtoObject) : ProtoObject := .mk [] .plain [.mk (js "p") .plain nested]

def fieldNamed (name : String) (type : DottedName) (id : ℕ) : MessageField :=
  ⟨js name, type, id, false⟩

/-- `message Req { T t = 1; U u = 2; } service S { rpc M (Req) returns (Req); }` -/
def serviceFile : ParsedRoot where
  root := fileOf
    [.mk (js "Req") (.type [fieldNamed "t" [[], js "p", js "T"] 1,
      fieldNamed "u" [[], js "p", js "U"] 2] []) [],
    .mk (js "S") (.service [⟨js "M", [[], js "p", js "Req"], [[], js "p", js "Req"]⟩]) []]
  proper := by decide

/-- `message T { string name = 1; } message U {}` -/
def typesFile : ParsedRoot where
  root := fileOf
    [.mk (js "T") (.type [fieldNamed "name" [js "string"] 1] []) [], .mk (js "U") .empty []]
  proper := by decide

/-- The reflection of the two files, failing for `T`. -/
def failingForT : Reflection ParsedRoot := fun name =>
  if name = [js "p", js "S"] then some [serviceFile]
  else if name = [js "p", js "U"] then some [typesFile]
  else none

/-- `T` comes with the answer for `U`, but its own fetch has failed before, and it stays empty. With
the two fetches the other way round it is there. -/
theorem not_types_kept : ∃ r, loadSchema bySearch failingForT [js "p", js "S"] = some r ∧
    r.fetchedTypes = [[js "p", js "T"], [js "p", js "U"]] ∧
    r.root.slot [js "p", js "T"] = .taken .empty ∧
    ¬ KeepsTypes bySearch (schemaFetches failingForT [js "p", js "S"] r.fetchedTypes) ∧
    (built bySearch (schemaFetches failingForT [js "p", js "S"]
      [[js "p", js "U"], [js "p", js "T"]])).slot [js "p", js "T"] =
        .taken (.type [fieldNamed "name" [js "string"] 1] []) := by
  obtain ⟨r, hr⟩ : ∃ r, loadSchema bySearch failingForT [js "p", js "S"] = some r :=
    Option.isSome_iff_exists.1 (by decide)
  have hf : (loadSchema bySearch failingForT [js "p", js "S"]).map Resolution.fetchedTypes =
      some [[js "p", js "T"], [js "p", js "U"]] := by decide
  have ht : (loadSchema bySearch failingForT [js "p", js "S"]).map
      (fun r => r.root.slot [js "p", js "T"]) = some (.taken .empty) := by decide
  rw [hr, Option.map_some, Option.some.injEq] at hf ht
  refine ⟨r, hr, hf, ht, fun h => ?_, by decide⟩
  have hb : Brings bySearch (schemaFetches failingForT [js "p", js "S"] r.fetchedTypes)
      [js "p", js "T"] [fieldNamed "name" [js "string"] 1] := by
    refine ⟨List.cons_ne_nil _ _, ⟨[js "p", js "U"], some [typesFile]⟩, ?_, rfl, [], typesFile, rfl,
      by decide⟩
    rw [schemaFetches, hf]
    exact List.mem_cons_of_mem _ (List.mem_cons_of_mem _ List.mem_cons_self)
  obtain ⟨kind, hk, hfields⟩ := h _ _ hb
  rw [← loadSchema_root hr, ht, Slot.taken.injEq] at hk
  rw [← hk] at hfields
  exact absurd hfields (by simp [ProtoKind.HasFields, ProtoKind.empty])

end DiiaApp
