import DiiaApp.Proofs.RootBuild
import DiiaApp.Proofs.SchemaCache

/-!
# The types that a schema names

The loop asks for the types it sees named and does not find, and stops when there are none left or
after ten rounds. All types that a schema names are found in its root where each step of the load
goes well (`all_found`): a fetch brings the type it asks for, or a placeholder can be put for it,
the types of a method come with its service, and the rounds are enough. The loop does not ask for
the types of the methods, nor for those named in a message that it does not look into (`Hidden`).
-/

namespace DiiaApp

open Js NameTree

variable {β φ : Type} {pb : Protobuf β φ}

/-! ## The names that are collected -/

/-- On a path there is a message and, at it or below, something that is not a message. -/
def Hidden (stands : DottedName → ProtoKind → Prop) (p : DottedName) : Prop :=
  ∃ q r k k', q <+: r ∧ r <+: p ∧ stands q k ∧ k.isType = true ∧ stands r k' ∧ k'.isType = false

section Collect

variable {t : ProtoObject} {n : DottedName} {kind : ProtoKind}

theorem mem_collectNestedTypeRefs {os : List ProtoObject} : n ∈ collectNestedTypeRefs os ↔
    ∃ o ∈ os, o.data.isType = true ∧ n ∈ collectTypeRefs o := by
  induction os with
  | nil => simp [collectNestedTypeRefs]
  | cons o os ih =>
    rw [collectNestedTypeRefs, List.mem_append, ih]
    simp only [List.mem_cons, exists_eq_or_imp]
    refine or_congr_left ?_
    split_ifs with h
    · simp [h]
    · simp [h]

theorem mem_collectTypeRefs : n ∈ collectTypeRefs t ↔
    n ∈ fieldTypes t.data ∨ ∃ o ∈ t.nested, o.data.isType = true ∧ n ∈ collectTypeRefs o := by
  obtain ⟨name, kind, nested⟩ := t
  rw [collectTypeRefs, List.mem_append, mem_collectNestedTypeRefs]
  rfl

theorem mem_checkNested {os : List ProtoObject} : n ∈ checkNested os ↔
    ∃ o ∈ os, (o.data.isType = true ∧ n ∈ collectTypeRefs o) ∨
      (o.data.isType = false ∧ o.data.isNamespace = true ∧ n ∈ checkNamespace o) := by
  induction os with
  | nil => simp [checkNested]
  | cons o os ih =>
    rw [checkNested, List.mem_append, ih]
    simp only [List.mem_cons, exists_eq_or_imp]
    refine or_congr_left ?_
    cases o.data.isType with
    | true => simp
    | false =>
      cases o.data.isNamespace with
      | true => simp
      | false => simp

theorem mem_checkNamespace : n ∈ checkNamespace t ↔
    ∃ o ∈ t.nested, (o.data.isType = true ∧ n ∈ collectTypeRefs o) ∨
      (o.data.isType = false ∧ o.data.isNamespace = true ∧ n ∈ checkNamespace o) := by
  obtain ⟨name, kind, nested⟩ := t
  rw [checkNamespace, mem_checkNested]
  rfl

theorem isType_of_fieldTypes (h : n ∈ fieldTypes kind) : kind.isType = true := by
  cases kind with
  | type fields oneofs => rfl
  | plain => cases h
  | enum values => cases h
  | service methods => cases h
  | member => cases h

/-- Through messages alone every field is seen. -/
theorem mem_collectTypeRefs_of_slot (hn : n ∈ fieldTypes kind) : ∀ {p : DottedName}
    {t : ProtoObject}, t.slot p = .taken kind →
      (∀ x r k, x :: r <+: p → t.slot (x :: r) = .taken k → k.isType = true) →
      n ∈ collectTypeRefs t
  | [], t, h, _ => by
    rw [slot_nil, Slot.taken.injEq] at h
    exact mem_collectTypeRefs.2 (.inl (h ▸ hn))
  | x :: p, t, h, htypes => by
    obtain ⟨c, -, hc, hslot⟩ := exists_child_of_taken h
    have hty : c.data.isType = true := htypes x [] c.data (by simp) (by rw [hslot, slot_nil])
    refine mem_collectTypeRefs.2 (.inr ⟨c, mem_of_child hc, hty, ?_⟩)
    refine mem_collectTypeRefs_of_slot hn (hslot p ▸ h) fun y r k hr hk => ?_
    exact htypes x (y :: r) k (List.cons_prefix_cons.2 ⟨rfl, hr⟩) (by rw [hslot, hk])

/-- The fields of every message that is not hidden are seen. -/
theorem mem_checkNamespace_of_slot (hn : n ∈ fieldTypes kind) : ∀ {p : DottedName}
    {t : ProtoObject}, p ≠ [] → t.slot p = .taken kind →
      ¬ Hidden (fun q k => t.slot q = .taken k) p → n ∈ checkNamespace t
  | [], t, hp, _, _ => absurd rfl hp
  | x :: p, t, _, h, hhid => by
    obtain ⟨c, -, hc, hslot⟩ := exists_child_of_taken h
    rw [hslot] at h
    refine mem_checkNamespace.2 ⟨c, mem_of_child hc, ?_⟩
    by_cases hty : c.data.isType = true
    · refine .inl ⟨hty, mem_collectTypeRefs_of_slot hn h fun y r k hr hk => ?_⟩
      by_contra hk'
      have hpre : x :: y :: r <+: x :: p := List.cons_prefix_cons.2 ⟨rfl, hr⟩
      exact hhid ⟨[x], x :: y :: r, c.data, k, by simp, hpre, hslot [], hty,
        (hslot (y :: r)).trans hk, Bool.not_eq_true _ ▸ hk'⟩
    · rcases p with _ | ⟨y, p⟩
      · rw [slot_nil, Slot.taken.injEq] at h
        exact absurd (isType_of_fieldTypes (h ▸ hn)) hty
      · obtain ⟨-, ho, -, -⟩ := exists_child_of_taken h
        refine .inr ⟨Bool.not_eq_true _ ▸ hty, (opens_iff.1 ho).1, ?_⟩
        refine mem_checkNamespace_of_slot hn (List.cons_ne_nil y p) h fun hc => hhid ?_
        obtain ⟨q, r, k, k', hqr, hrp, hq, hk, hr, hk'⟩ := hc
        exact ⟨x :: q, x :: r, k, k', List.cons_prefix_cons.2 ⟨rfl, hqr⟩,
          List.cons_prefix_cons.2 ⟨rfl, hrp⟩, (hslot q).trans hq, hk, (hslot r).trans hr, hk'⟩

end Collect

/-! ## What the loop asks for -/

theorem mem_findUnresolvedTypes {root : ProtoObject} {n : DottedName} :
    n ∈ findUnresolvedTypes pb root ↔
      n ∈ checkNamespace root ∧ (pb.lookupTypeOrEnum root n).isNone = true := by
  rw [findUnresolvedTypes, List.mem_filter, List.mem_eraseDups]

theorem mem_typesToFetch {r : Resolution} {n : DottedName} : n ∈ typesToFetch pb r ↔
    n ∈ findUnresolvedTypes pb r.root ∧ n ∉ r.fetchedTypes := by
  simp [typesToFetch]

/-- Once there is nothing left to fetch, a name that is seen is found or was asked for. -/
theorem found_or_asked {r : Resolution} {n : DottedName} (hnone : typesToFetch pb r = [])
    (hseen : n ∈ checkNamespace r.root) :
    (pb.lookupTypeOrEnum r.root n).isSome = true ∨ n ∈ r.fetchedTypes := by
  by_cases hfound : (pb.lookupTypeOrEnum r.root n).isSome = true
  · exact .inl hfound
  · have hun : n ∈ findUnresolvedTypes pb r.root :=
      mem_findUnresolvedTypes.2 ⟨hseen, by simpa using hfound⟩
    by_cases hasked : n ∈ r.fetchedTypes
    · exact .inr hasked
    · have hm := mem_typesToFetch.2 ⟨hun, hasked⟩
      rw [hnone] at hm
      cases hm

/-! ## Steps that go well -/

theorem pathOf_fullTypeName : ∀ name : DottedName, pathOf (fullTypeName name) = pathOf name
  | [] => rfl
  | [_] => by rw [fullTypeName, if_neg (by simp [isAbsolute])]
  | [] :: _ :: _ => rfl
  | (_ :: _) :: _ :: _ => rfl

/-- There is a message or an enum at the path of a name. -/
def HasTypeAt (root : ProtoObject) (n : DottedName) : Prop :=
  ∃ kind, root.slot (pathOf n) = .taken kind ∧ kind.isTypeOrEnum = true

/-- The fetch leads to a message or an enum at the path of a name: there is one before, or the path
is free and the fetch has one for it. -/
def Fetch.Supplies (pb : Protobuf β φ) (root : ProtoObject) (fetch : Fetch β) (n : DottedName) :
    Prop :=
  HasTypeAt root n ∨ root.slot (pathOf n) = .free ∧
    ∃ kind, fetch.Has pb (pathOf n) kind ∧ kind.isTypeOrEnum = true

/-- Once the fetch is taken in there is a message or an enum at the path of a name, or the name is
seen in a field, of the root or of what the fetch has. -/
def Fetch.Covers (pb : Protobuf β φ) (root : ProtoObject) (fetch : Fetch β) (n : DottedName) :
    Prop :=
  fetch.Supplies pb root n ∨ ∃ p kind, fullTypeName n ∈ fieldTypes kind ∧
    (root.slot p = .taken kind ∨ root.slot p = .free ∧ fetch.Has pb p kind)

/-- What a fetch has for a service comes with the types of its methods, or with fields of them, and
what it has for a path in a message is a message or an enum. -/
structure TakesInWell (pb : Protobuf β φ) (serviceName : DottedName) (root : ProtoObject)
    (fetch : Fetch β) : Prop where
  methods : ∀ kind, root.slot (pathOf serviceName) = .free →
    fetch.Has pb (pathOf serviceName) kind → ∀ m ∈ kind.methods,
      fetch.Covers pb root m.requestType ∧ fetch.Covers pb root m.responseType
  nested : ∀ q p kind kind', q <+: p → q ≠ p →
    (root.slot q = .taken kind ∨ root.slot q = .free ∧ fetch.Has pb q kind) →
    root.slot p = .free → fetch.Has pb p kind' → kind.isType = true → kind'.isTypeOrEnum = true

/-- Each of some fetches meets a condition in the root that the ones before it have left. -/
def EachTakenIn (pb : Protobuf β φ) (G : ProtoObject → Fetch β → Prop) :
    ProtoObject → List (Fetch β) → Prop
  | _, [] => True
  | root, fetch :: fetches => G root fetch ∧ EachTakenIn pb G (takeIn pb root fetch) fetches

/-- Each fetch of the rounds meets a condition in the root before it, and the rounds end, with
nothing left to fetch, in a root that meets another. -/
def RoundsGo (pb : Protobuf β φ) (reflection : Reflection β) (G : ProtoObject → Fetch β → Prop)
    (E : ProtoObject → Prop) : ℕ → Resolution → Prop
  | 0, r => typesToFetch pb r = [] ∧ E r.root
  | n + 1, r => (typesToFetch pb r = [] ∧ E r.root) ∨
    (typesToFetch pb r ≠ [] ∧ EachTakenIn pb G r.root (fetchesOf reflection (typesToFetch pb r)) ∧
      RoundsGo pb reflection G E n (fetchRound pb reflection r))

/-- A load whose every step goes well, for the schema of a service: each answer is taken in well,
each type that is asked for is supplied, and the rounds are enough. -/
structure LoadsWell (pb : Protobuf β φ) (serviceName : DottedName) (loader : SchemaRequest β) :
    Prop where
  service : TakesInWell pb serviceName emptyRoot
    ⟨loader.serviceName, loader.reflection loader.serviceName⟩
  rounds : ∀ files, loader.reflection loader.serviceName = some files →
    RoundsGo pb loader.reflection
      (fun root fetch => fetch.Supplies pb root fetch.typeName ∧
        TakesInWell pb serviceName root fetch)
      (fun _ => True) maxIterations ⟨buildProtoRoot pb files, []⟩

section Steps

variable {root : ProtoObject} {fetch : Fetch β} {serviceName n : DottedName}

theorem HasTypeAt.takeIn (h : HasTypeAt root n) : HasTypeAt (takeIn pb root fetch) n := by
  obtain ⟨kind, hs, hk⟩ := h
  exact ⟨kind, by rw [keeps_takeIn (by simp [hs]), hs], hk⟩

theorem HasTypeAt.foldl_takeIn {fetches : List (Fetch β)} (h : HasTypeAt root n) :
    HasTypeAt (fetches.foldl (DiiaApp.takeIn pb) root) n := by
  obtain ⟨kind, hs, hk⟩ := h
  exact ⟨kind, slot_foldl_takeIn hs, hk⟩

theorem Fetch.Supplies.hasTypeAt (h : fetch.Supplies pb root n) :
    HasTypeAt (takeIn pb root fetch) n := by
  rcases h with h | ⟨hfree, kind, hhas, hk⟩
  · exact h.takeIn
  · exact ⟨kind, ((fills_takeIn pb).fill root fetch _ kind hfree).2 hhas, hk⟩

/-- What is at a path after a fetch was there, or the fetch has it for the free path. -/
theorem slot_takeIn_cases {p : DottedName} {kind : ProtoKind}
    (h : (takeIn pb root fetch).slot p = .taken kind) :
    root.slot p = .taken kind ∨ root.slot p = .free ∧ fetch.Has pb p kind := by
  by_cases hp : root.slot p = .free
  · exact .inr ⟨hp, ((fills_takeIn pb).fill root fetch p kind hp).1 h⟩
  · rw [keeps_takeIn hp] at h
    exact .inl h

/-- There is a message or an enum at the path of a name, or a field of the root has the name. -/
def Noticed (root : ProtoObject) (n : DottedName) : Prop :=
  HasTypeAt root n ∨ ∃ p kind, fullTypeName n ∈ fieldTypes kind ∧ root.slot p = .taken kind

theorem Noticed.takeIn (h : Noticed root n) : Noticed (takeIn pb root fetch) n := by
  rcases h with h | ⟨p, kind, hn, hs⟩
  · exact .inl h.takeIn
  · exact .inr ⟨p, kind, hn, by rw [keeps_takeIn (by simp [hs]), hs]⟩

theorem Fetch.Covers.noticed (h : fetch.Covers pb root n) : Noticed (takeIn pb root fetch) n := by
  rcases h with h | ⟨p, kind, hn, hs | ⟨hfree, hhas⟩⟩
  · exact .inl h.hasTypeAt
  · exact .inr ⟨p, kind, hn, by rw [keeps_takeIn (by simp [hs]), hs]⟩
  · exact .inr ⟨p, kind, hn, ((fills_takeIn pb).fill root fetch p kind hfree).2 hhas⟩

/-- A root in which nothing but messages and enums is in a message, and the types of the methods of
the service are noticed. -/
structure RootSound (serviceName : DottedName) (root : ProtoObject) : Prop where
  proper : root.Proper
  plain : root.data = .plain
  methods : ∀ kind, root.slot (pathOf serviceName) = .taken kind → ∀ m ∈ kind.methods,
    Noticed root m.requestType ∧ Noticed root m.responseType
  nested : ∀ q p kind kind', q <+: p → q ≠ p → root.slot q = .taken kind →
    root.slot p = .taken kind' → kind.isType = true → kind'.isTypeOrEnum = true

theorem rootSound_emptyRoot (serviceName : DottedName) : RootSound serviceName emptyRoot where
  proper := proper_new
  plain := rfl
  methods kind h m hm := by
    rcases eq_or_ne (pathOf serviceName) [] with hp | hp
    · rw [hp, slot_nil, Slot.taken.injEq] at h
      subst h
      cases hm
    · rw [slot_emptyRoot hp] at h
      cases h
  nested q p kind kind' hq hne _ hp _ := by
    rcases eq_or_ne p [] with rfl | hp'
    · exact absurd (List.prefix_nil.1 hq) hne
    · rw [slot_emptyRoot hp'] at hp
      cases hp

/-- A path of a taken one is taken. -/
theorem taken_of_prefix {q p : DottedName} {kind : ProtoKind} (hq : q <+: p)
    (h : root.slot p = .taken kind) : ∃ kind', root.slot q = .taken kind' := by
  obtain ⟨_ | ⟨x, r⟩, rfl⟩ := hq
  · exact ⟨kind, by rwa [List.append_nil] at h⟩
  · obtain ⟨kind', hk, -⟩ := opens_of_taken h
    exact ⟨kind', hk⟩

theorem RootSound.takeIn (h : RootSound serviceName root)
    (hw : TakesInWell pb serviceName root fetch) :
    RootSound serviceName (takeIn pb root fetch) where
  proper := proper_takeIn h.proper (by rw [h.plain]; rfl)
  plain := by rw [takeIn_data, h.plain]
  methods kind hk m hm := by
    rcases slot_takeIn_cases hk with hold | ⟨hfree, hhas⟩
    · obtain ⟨hreq, hres⟩ := h.methods kind hold m hm
      exact ⟨hreq.takeIn, hres.takeIn⟩
    · obtain ⟨hreq, hres⟩ := hw.methods kind hfree hhas m hm
      exact ⟨hreq.noticed, hres.noticed⟩
  nested q p kind kind' hq hne hsq hsp hk := by
    have hq' := slot_takeIn_cases hsq
    rcases slot_takeIn_cases hsp with hold | ⟨hfree, hhas⟩
    · refine h.nested q p kind kind' hq hne ?_ hold hk
      obtain ⟨k, hk'⟩ := taken_of_prefix hq hold
      rcases hq' with hq' | ⟨hq', -⟩
      · exact hq'
      · rw [hk'] at hq'
        cases hq'
    · exact hw.nested q p kind kind' hq hne hq' hfree hhas hk

/-- No message is hidden in a sound root. -/
theorem RootSound.not_hidden (h : RootSound serviceName root) {p : DottedName} {kind : ProtoKind}
    (hp : root.slot p = .taken kind) (hk : kind.isType = true) :
    ¬ Hidden (fun q k => root.slot q = .taken k) p := by
  rintro ⟨q, u, k, k', hqu, hup, hq, hkq, hu, hku⟩
  have hne : q ≠ u := by
    rintro rfl
    rw [hq, Slot.taken.injEq] at hu
    simp [hu, hku] at hkq
  have hten := h.nested q u k k' hqu hne hq hu hkq
  obtain ⟨_ | ⟨x, rest⟩, rfl⟩ := hup
  · rw [List.append_nil, hu, Slot.taken.injEq] at hp
    simp [hp, hk] at hku
  · obtain ⟨d, hd, ho⟩ := opens_of_taken hp
    rw [hu, Slot.taken.injEq] at hd
    subst hd
    have hns := (opens_iff.1 ho).1
    cases k' with
    | enum values => cases hns
    | type fields oneofs => cases hku
    | plain => cases hten
    | service methods => cases hten
    | member => cases hten

end Steps

/-! ## Loads that go well -/

section Loads

variable {reflection : Reflection β} {serviceName : DottedName} {r : Resolution}
  {G : ProtoObject → Fetch β → Prop} {E : ProtoObject → Prop}

/-- Over the fetches of some types a condition of the root is kept that each keeps where it meets
its own. -/
theorem eachTakenIn_keeps {P : ProtoObject → Prop}
    (hP : ∀ root fetch, fetch.descriptors = reflection fetch.typeName → P root → G root fetch →
      P (takeIn pb root fetch)) :
    ∀ (typeNames : List DottedName) (root : ProtoObject),
      EachTakenIn pb G root (fetchesOf reflection typeNames) → P root →
        P ((fetchesOf reflection typeNames).foldl (takeIn pb) root)
  | [], _, _, h => h
  | typeName :: typeNames, root, ⟨hg, hs⟩, h =>
    eachTakenIn_keeps hP typeNames (takeIn pb root ⟨typeName, reflection typeName⟩) hs
      (hP root _ rfl h hg)

/-- Each type that its own fetch supplies is there in the end. -/
theorem eachTakenIn_supplies (hG : ∀ root fetch, G root fetch →
      fetch.Supplies pb root fetch.typeName) :
    ∀ {fetches : List (Fetch β)} {root : ProtoObject}, EachTakenIn pb G root fetches →
      ∀ fetch ∈ fetches, HasTypeAt (fetches.foldl (takeIn pb) root) fetch.typeName
  | fetch :: fetches, root, ⟨hg, hs⟩, f, hf => by
    rw [List.foldl_cons]
    rcases List.mem_cons.1 hf with rfl | hf
    · exact (hG root f hg).hasTypeAt.foldl_takeIn
    · exact eachTakenIn_supplies hG hs f hf

/-- What the rounds keep holds in the end, where all types asked for are there and nothing is left
to fetch. -/
theorem roundsGo_end {P : ProtoObject → Prop}
    (hP : ∀ root fetch, fetch.descriptors = reflection fetch.typeName → P root → G root fetch →
      P (takeIn pb root fetch))
    (hG : ∀ root fetch, G root fetch → fetch.Supplies pb root fetch.typeName) :
    ∀ {n : ℕ} {r : Resolution}, RoundsGo pb reflection G E n r → P r.root →
      (∀ m ∈ r.fetchedTypes, HasTypeAt r.root m) →
      P (resolveAllTypes pb reflection n r).root ∧ E (resolveAllTypes pb reflection n r).root ∧
        (∀ m ∈ (resolveAllTypes pb reflection n r).fetchedTypes,
          HasTypeAt (resolveAllTypes pb reflection n r).root m) ∧
        typesToFetch pb (resolveAllTypes pb reflection n r) = []
  | 0, _, ⟨hnone, hE⟩, h, hasked => ⟨h, hE, hasked, hnone⟩
  | n + 1, r, .inl ⟨hnone, hE⟩, h, hasked => by
    rw [resolveAllTypes, if_pos hnone]
    exact ⟨h, hE, hasked, hnone⟩
  | n + 1, r, .inr ⟨hsome, heach, hrest⟩, h, hasked => by
    rw [resolveAllTypes, if_neg hsome]
    refine roundsGo_end hP hG hrest (eachTakenIn_keeps hP _ _ heach h) fun m hm => ?_
    rcases List.mem_append.1 hm with hm | hm
    · exact (hasked m hm).foldl_takeIn
    · exact eachTakenIn_supplies hG heach ⟨m, reflection m⟩ (List.mem_map_of_mem hm)

end Loads

/-! ## Complete schemas -/

/-- Lookups find what is at the path of a name where it is of the kind that is looked for, and a
leading dot makes no difference to them. -/
structure Protobuf.FindsAtPath (pb : Protobuf β φ) : Prop where
  typeOrEnum : ∀ {root name o}, root.objectAt (pathOf name) = some o →
    o.data.isTypeOrEnum = true → pb.lookupTypeOrEnum root name = some o
  type : ∀ {root name o}, root.objectAt (pathOf name) = some o → o.data.isType = true →
    pb.lookupType root name = some o
  service : ∀ {root name o}, root.objectAt (pathOf name) = some o → o.data.isService = true →
    pb.lookupService root name = some o
  absolute : ∀ root name,
    pb.lookupTypeOrEnum root (fullTypeName name) = pb.lookupTypeOrEnum root name

/-- Every type that a field of the root names is found, and so is every type that a method of the
service names. -/
structure AllFound (pb : Protobuf β φ) (root : ProtoObject) (serviceName : DottedName) : Prop where
  fields : ∀ p kind, root.slot p = .taken kind → ∀ n ∈ fieldTypes kind,
    (pb.lookupTypeOrEnum root n).isSome = true
  methods : ∀ kind, root.slot (pathOf serviceName) = .taken kind → ∀ m ∈ kind.methods,
    (pb.lookupTypeOrEnum root m.requestType).isSome = true ∧
      (pb.lookupTypeOrEnum root m.responseType).isSome = true

theorem Protobuf.FindsAtPath.isSome (hpb : pb.FindsAtPath) {root : ProtoObject} {n : DottedName}
    (h : HasTypeAt root n) : (pb.lookupTypeOrEnum root n).isSome = true := by
  obtain ⟨kind, hs, hk⟩ := h
  obtain ⟨o, ho, rfl⟩ := slot_eq_taken.1 hs
  exact Option.isSome_of_eq_some (hpb.typeOrEnum ho hk)

variable {loader : SchemaRequest β} {serviceName : DottedName} {r : Resolution}

theorem RootSound.pathOf_ne_nil {root : ProtoObject} {n : DottedName}
    (h : RootSound serviceName root) (hn : HasTypeAt root n) : pathOf n ≠ [] := by
  obtain ⟨kind, hs, hk⟩ := hn
  intro hnil
  rw [hnil, slot_nil, h.plain, Slot.taken.injEq] at hs
  rw [← hs] at hk
  cases hk

/-- The fields of a sound root are seen. -/
theorem RootSound.seen {root : ProtoObject} (h : RootSound serviceName root) {p n : DottedName}
    {kind : ProtoKind} (hp : root.slot p = .taken kind) (hn : n ∈ fieldTypes kind) :
    n ∈ checkNamespace root := by
  have hk := isType_of_fieldTypes hn
  refine mem_checkNamespace_of_slot hn ?_ hp (h.not_hidden hp hk)
  rintro rfl
  rw [slot_nil, h.plain, Slot.taken.injEq] at hp
  rw [← hp] at hk
  cases hk

/-- All is found in a sound root where the types that were asked for are there and none are left. -/
theorem RootSound.allFound (hpb : pb.FindsAtPath) (h : RootSound serviceName r.root)
    (hasked : ∀ n ∈ r.fetchedTypes, HasTypeAt r.root n) (hnone : typesToFetch pb r = []) :
    AllFound pb r.root serviceName := by
  have hfield : ∀ p kind, r.root.slot p = .taken kind → ∀ n ∈ fieldTypes kind,
      (pb.lookupTypeOrEnum r.root n).isSome = true := fun p kind hp n hn =>
    (found_or_asked hnone (h.seen hp hn)).elim id fun ha => hpb.isSome (hasked n ha)
  have hnoticed : ∀ n, Noticed r.root n → (pb.lookupTypeOrEnum r.root n).isSome = true := by
    rintro n (hn | ⟨p, kind, hn, hp⟩)
    · exact hpb.isSome hn
    · rw [← hpb.absolute]
      exact hfield p kind hp _ hn
  refine ⟨hfield, fun kind hk m hm => ?_⟩
  obtain ⟨hreq, hres⟩ := h.methods kind hk m hm
  exact ⟨hnoticed _ hreq, hnoticed _ hres⟩

theorem allFound_of_loadsWell (hpb : pb.FindsAtPath)
    (h : loadSchema pb loader.reflection loader.serviceName = some r)
    (hw : LoadsWell pb serviceName loader) : AllFound pb r.root serviceName := by
  obtain ⟨files, hfiles, rfl⟩ := Option.map_eq_some_iff.1 h
  have hfirst := (rootSound_emptyRoot serviceName).takeIn hw.service
  simp only [takeIn, hfiles] at hfirst
  obtain ⟨hsound, -, hasked, hnone⟩ := roundsGo_end
    (fun _ _ _ hr hg => RootSound.takeIn hr hg.2) (fun _ _ hg => hg.1)
    (hw.rounds files hfiles) hfirst fun m hm => absurd hm List.not_mem_nil
  exact hsound.allFound hpb hasked hnone

theorem bySearch_findsAtPath : bySearch.FindsAtPath where
  typeOrEnum h hk := by
    show ((ProtoObject.lookup _ _).filter _ : Option ProtoObject) = _
    rw [ProtoObject.lookup, search_of_objectAt _ h, Option.filter_some, if_pos hk]
  type h hk := by
    show ((ProtoObject.lookup _ _).filter _ : Option ProtoObject) = _
    rw [ProtoObject.lookup, search_of_objectAt _ h, Option.filter_some, if_pos hk]
  service h hk := by
    show ((ProtoObject.lookup _ _).filter _ : Option ProtoObject) = _
    rw [ProtoObject.lookup, search_of_objectAt _ h, Option.filter_some, if_pos hk]
  absolute root name := by
    show ((ProtoObject.lookup _ _).filter _ : Option ProtoObject) = _
    rw [pathOf_fullTypeName]
    rfl

theorem parsed_bySearch (files : List ParsedRoot) : parsed bySearch files = files.head? := by
  unfold parsed
  rw [show bySearch.decode = some from rfl, List.filterMap_some]
  cases files with
  | nil => rfl
  | cons file files => rfl

theorem has_bySearch {typeName p : DottedName} {file : ParsedRoot} {kind : ProtoKind} :
    Fetch.Has bySearch ⟨typeName, some [file]⟩ p kind ↔ file.root.slot p = .taken kind := by
  simp [Fetch.Has, parsed_bySearch]

/-- There is an object, and a condition holds of what it is. -/
def ProtoKind.At (holds : ProtoKind → Bool) : Slot ProtoKind → Bool
  | .taken kind => holds kind
  | _ => false

theorem hasTypeAt_iff {root : ProtoObject} {n : DottedName} :
    HasTypeAt root n ↔ ProtoKind.At ProtoKind.isTypeOrEnum (root.slot (pathOf n)) = true := by
  unfold HasTypeAt
  cases root.slot (pathOf n) with
  | free => simp [ProtoKind.At]
  | taken kind => simp [ProtoKind.At]
  | blocked => simp [ProtoKind.At]

/-- The second part of a fetch that is taken in well, by the paths of its file. -/
theorem nested_of_paths {root : ProtoObject} {typeName : DottedName} {file : ParsedRoot}
    (h : ∀ p ∈ file.root.paths, ∀ q ∈ p.inits, q ≠ p →
      (ProtoKind.At ProtoKind.isType (root.slot q) ||
        ProtoKind.At ProtoKind.isType (file.root.slot q)) = true →
      ProtoKind.At ProtoKind.isTypeOrEnum (file.root.slot p) = true) :
    ∀ q p kind kind', q <+: p → q ≠ p →
      (root.slot q = .taken kind ∨
        root.slot q = .free ∧ Fetch.Has bySearch ⟨typeName, some [file]⟩ q kind) →
      root.slot p = .free → Fetch.Has bySearch ⟨typeName, some [file]⟩ p kind' →
      kind.isType = true → kind'.isTypeOrEnum = true := by
  intro q p kind kind' hqp hne hq _ hp hk
  rw [has_bySearch] at hp
  have hp' := h p (mem_paths hp) q (List.mem_inits _ _ |>.2 hqp) hne
  rw [hp] at hp'
  refine hp' ?_
  rcases hq with hq | ⟨-, hq⟩
  · simp [hq, ProtoKind.At, hk]
  · rw [has_bySearch] at hq
    simp [hq, ProtoKind.At, hk]

/-- The reflection of the two files where no request fails. -/
def neverFailing : Reflection ParsedRoot := fun name =>
  if name = [js "p", js "S"] then some [serviceFile] else some [typesFile]

/-- A request for the schema of `S`. -/
def requestFor (reflection : Reflection ParsedRoot) : SchemaRequest ParsedRoot :=
  ⟨js "host", [js "p", js "S"], reflection⟩

theorem serviceFile_takesInWell : TakesInWell bySearch [js "p", js "S"] emptyRoot
    ⟨[js "p", js "S"], some [serviceFile]⟩ where
  methods kind _ hhas := by
    have hs : serviceFile.root.slot (pathOf [js "p", js "S"]) =
      .taken (.service [⟨js "M", [[], js "p", js "Req"], [[], js "p", js "Req"]⟩]) := by decide
    rw [has_bySearch, hs, Slot.taken.injEq] at hhas
    subst hhas
    obtain ⟨kind, hkind, hk⟩ : HasTypeAt serviceFile.root [[], js "p", js "Req"] :=
      hasTypeAt_iff.2 (by decide)
    have hreq : Fetch.Covers bySearch emptyRoot ⟨[js "p", js "S"], some [serviceFile]⟩
        [[], js "p", js "Req"] := .inl (.inr ⟨by decide, kind, has_bySearch.2 hkind, hk⟩)
    simpa [ProtoKind.methods] using hreq
  nested := nested_of_paths (by decide)

/-- Over the rounds with that reflection each fetch supplies its type and is taken in well. -/
theorem neverFailing_rounds {G : ProtoObject → Fetch ParsedRoot → Prop} {E : ProtoObject → Prop}
    (hG : ∀ root fetch, fetch.descriptors.isSome = true →
      fetch.Supplies bySearch root fetch.typeName →
      TakesInWell bySearch [js "p", js "S"] root fetch → G root fetch)
    (hE : E (fetchRound bySearch neverFailing ⟨buildProtoRoot bySearch [serviceFile], []⟩).root) :
    RoundsGo bySearch neverFailing G E maxIterations
      ⟨buildProtoRoot bySearch [serviceFile], []⟩ := by
  have hround : typesToFetch bySearch ⟨buildProtoRoot bySearch [serviceFile], []⟩ =
    [[js "p", js "T"], [js "p", js "U"]] := by decide
  have hdone : typesToFetch bySearch (fetchRound bySearch neverFailing
    ⟨buildProtoRoot bySearch [serviceFile], []⟩) = [] := by decide
  refine .inr ⟨by rw [hround]; exact List.cons_ne_nil _ _, ?_, .inl ⟨hdone, hE⟩⟩
  rw [hround]
  have hT : HasTypeAt typesFile.root [js "p", js "T"] := hasTypeAt_iff.2 (by decide)
  obtain ⟨kind, hkind, hk⟩ := hT
  refine ⟨hG _ _ rfl (.inr ⟨by decide, kind, has_bySearch.2 hkind, hk⟩)
    ⟨fun _ hfree => absurd hfree (by decide), nested_of_paths (by decide)⟩, ?_, trivial⟩
  exact hG _ _ rfl (.inl (hasTypeAt_iff.2 (by decide)))
    ⟨fun _ hfree => absurd hfree (by decide), nested_of_paths (by decide)⟩

theorem neverFailing_loadsWell :
    LoadsWell bySearch [js "p", js "S"] (requestFor neverFailing) where
  service := serviceFile_takesInWell
  rounds files hfiles := by
    obtain rfl : [serviceFile] = files := Option.some.inj hfiles
    exact neverFailing_rounds (fun _ _ _ hs hw => ⟨hs, hw⟩) trivial

/-- A schema that is asked for first is loaded by its request. -/
theorem loads_first {request loader : SchemaRequest β} {key : JsString} {r : Resolution}
    (h : Loads pb [request] key loader r) : loader = request := by
  obtain ⟨pre, post, hpre, -⟩ := h.first
  rcases pre with _ | ⟨x, pre⟩
  · exact (List.cons.inj hpre).1.symm
  · have hnil := (List.cons.inj hpre).2
    simp at hnil

/-- `service S { rpc M (Req) returns (Req); }` -/
def serviceOnlyFile : ParsedRoot where
  root := fileOf
    [.mk (js "S") (.service [⟨js "M", [[], js "p", js "Req"], [[], js "p", js "Req"]⟩]) []]
  proper := by decide

/-- `message Req {}` -/
def reqFile : ParsedRoot where
  root := fileOf [.mk (js "Req") .empty []]
  proper := by decide

/-- A request for the schema of `S`, with a reflection that answers each symbol with its file. -/
def methodRequest : SchemaRequest ParsedRoot where
  address := js "host"
  serviceName := [js "p", js "S"]
  reflection name := if name = [js "p", js "S"] then some [serviceOnlyFile] else some [reqFile]

theorem req_not_found : ∃ root, (DynamicClient.new.getSchema bySearch methodRequest).2 = some root ∧
    ¬ AllFound bySearch root [js "p", js "S"] := by
  obtain ⟨r, hr⟩ : ∃ r,
      loadSchema bySearch methodRequest.reflection methodRequest.serviceName = some r :=
    Option.isSome_iff_exists.1 (by decide)
  have hs : (loadSchema bySearch methodRequest.reflection methodRequest.serviceName).map
      (fun r => (r.root.slot (pathOf [js "p", js "S"]),
        (bySearch.lookupTypeOrEnum r.root [[], js "p", js "Req"]).isSome)) =
      some (.taken (.service [⟨js "M", [[], js "p", js "Req"], [[], js "p", js "Req"]⟩]),
        false) := by decide
  rw [hr, Option.map_some, Option.some.injEq, Prod.mk.injEq] at hs
  refine ⟨r.root, ?_, fun hall => ?_⟩
  · have hnew : DynamicClient.new.schemaCache.get methodRequest.cacheKey = none := rfl
    rw [DynamicClient.getSchema, hnew, hr]
  · have hreq := (hall.methods _ hs.1 _ List.mem_cons_self).1
    rw [hs.2] at hreq
    cases hreq

end DiiaApp
