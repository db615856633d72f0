import DiiaApp.Proofs.DynamicSchema

/-!
# Calls after a failed reflection request

A root that was built while requests of the reflection failed is kept like any other, and later
calls use the placeholders in it, whatever the reflection would answer them. In every run of calls
one whose server answers uses the real types of the server where the load of its schema went well
and the requests that failed put nothing where a type that the method needs stands
(`real_types`). A failure of the first request of a schema does no harm: nothing is kept then.
-/

namespace DiiaApp

open Js NameTree

variable {β φ : Type} {pb : Protobuf β φ}

/-- The client after some calls, each a request for the schema and a method. -/
def afterCalls (pb : Protobuf β φ) (calls : List (SchemaRequest β × JsString)) : DynamicClient :=
  calls.foldl (fun client call => (client.call pb call.1 call.2).1) .new

theorem afterCalls_eq (calls : List (SchemaRequest β × JsString)) :
    afterCalls pb calls = clientAfter pb (calls.map Prod.fst) := by
  rw [clientAfter, List.foldl_map]
  rfl

/-- What the reflection answers are objects of `world`, the real ones of the server. -/
def Serves (pb : Protobuf β φ) (world : ProtoObject) (reflection : Reflection β) : Prop :=
  ∀ n descriptors files, reflection n = some descriptors → parsed pb descriptors = some files →
    files.root.PartOf world

/-- The server has a method `m` of the name, and messages for its request and its response. -/
structure HasMethod (world : ProtoObject) (serviceName : DottedName) (methodName : JsString)
    (m : ServiceMethod) : Prop where
  named : pathOf serviceName ≠ []
  service : ∃ kind, world.slot (pathOf serviceName) = .taken kind ∧ kind.isService = true ∧
    kind.methods.find? (·.name = methodName) = some m
  request : ∃ kind, world.slot (pathOf m.requestType) = .taken kind ∧ kind.isType = true
  response : ∃ kind, world.slot (pathOf m.responseType) = .taken kind ∧ kind.isType = true

/-- A type and those that the server's messages need for it: the types of their fields. -/
inductive Uses (world : ProtoObject) (start : DottedName) : DottedName → Prop
  | start : Uses world start start
  | field {n n' : DottedName} {kind : ProtoKind} (used : Uses world start n)
    (hs : world.slot (pathOf n) = .taken kind) (hn : n' ∈ fieldTypes kind) : Uses world start n'

/-- A type that is needed to encode the requests of a method or to decode its responses. -/
def Needs (world : ProtoObject) (m : ServiceMethod) (n : DottedName) : Prop :=
  Uses world (fullTypeName m.requestType) n ∨ Uses world (fullTypeName m.responseType) n

/-- The types of a call are the server's for the method, and so is each type found for a field in
them. -/
structure UsesRealTypes (pb : Protobuf β φ) (world : ProtoObject) (m : ServiceMethod)
    (root : ProtoObject) (types : MethodTypes) : Prop where
  request : world.slot (pathOf m.requestType) = .taken types.request.data
  response : world.slot (pathOf m.responseType) = .taken types.response.data
  fields : ∀ n, Needs world m n → ∃ o, pb.lookupTypeOrEnum root n = some o ∧
    world.slot (pathOf n) = .taken o.data

/-- Where the fetch failed, what it puts at the free path of a type that the method needs is what
the server has there. -/
def Fetch.Harmless (pb : Protobuf β φ) (world : ProtoObject) (m : ServiceMethod)
    (root : ProtoObject) (fetch : Fetch β) : Prop :=
  fetch.descriptors = none → ∀ n kind, Needs world m n → root.slot (pathOf n) = .free →
    fetch.Has pb (pathOf n) kind → world.slot (pathOf n) = .taken kind

/-- A load in which every step goes well, no failed fetch does harm, the service comes with the
first answer and no needed type is taken for one of another path in the end. -/
structure LoadsReal (pb : Protobuf β φ) (world : ProtoObject) (serviceName : DottedName)
    (m : ServiceMethod) (loader : SchemaRequest β) : Prop where
  has : ∃ kind, Fetch.Has pb ⟨loader.serviceName, loader.reflection loader.serviceName⟩
    (pathOf serviceName) kind
  service : TakesInWell pb serviceName emptyRoot
    ⟨loader.serviceName, loader.reflection loader.serviceName⟩
  rounds : ∀ files, loader.reflection loader.serviceName = some files →
    RoundsGo pb loader.reflection
      (fun root fetch => fetch.Supplies pb root fetch.typeName ∧
        TakesInWell pb serviceName root fetch ∧ fetch.Harmless pb world m root)
      (fun root => ∀ n, Needs world m n → n ∈ checkNamespace root →
        (pb.lookupTypeOrEnum root n).isSome = true → HasTypeAt root n)
      maxIterations ⟨buildProtoRoot pb files, []⟩

/-- A sound root with the server's service and nothing at the path of a needed type that is not the
server's. -/
structure RootReal (world : ProtoObject) (serviceName : DottedName) (m : ServiceMethod)
    (root : ProtoObject) : Prop where
  sound : RootSound serviceName root
  service : root.slot (pathOf serviceName) = world.slot (pathOf serviceName)
  needed : ∀ n kind, Needs world m n → pathOf n ≠ [] → root.slot (pathOf n) = .taken kind →
    world.slot (pathOf n) = .taken kind

section Real

variable {world root : ProtoObject} {serviceName : DottedName} {methodName : JsString}
  {m : ServiceMethod} {fetch : Fetch β} {reflection : Reflection β}

/-- What an answer has for a path is the server's. -/
theorem Serves.has (hworld : Serves pb world reflection) {p : DottedName} {kind : ProtoKind}
    {descriptors : List β} (hf : fetch.descriptors = reflection fetch.typeName)
    (hd : fetch.descriptors = some descriptors) (h : fetch.Has pb p kind) :
    world.slot p = .taken kind := by
  unfold Fetch.Has at h
  rw [hd] at h
  obtain ⟨files, hfiles, hs⟩ := h
  exact hworld fetch.typeName descriptors files (hf ▸ hd) hfiles p kind hs

/-- What a fetch that does no harm leaves at the path of a needed type is the server's. -/
theorem needed_takeIn (hworld : Serves pb world reflection)
    (hf : fetch.descriptors = reflection fetch.typeName) (hharm : fetch.Harmless pb world m root)
    {n : DottedName} {kind : ProtoKind} (hn : Needs world m n)
    (hroot : ∀ kind, root.slot (pathOf n) = .taken kind → world.slot (pathOf n) = .taken kind)
    (h : (takeIn pb root fetch).slot (pathOf n) = .taken kind) :
    world.slot (pathOf n) = .taken kind := by
  rcases slot_takeIn_cases h with hold | ⟨hfree, hhas⟩
  · exact hroot kind hold
  · cases hd : fetch.descriptors with
    | none => exact hharm hd n kind hn hfree hhas
    | some descriptors => exact hworld.has hf hd hhas

theorem RootReal.takeIn (h : RootReal world serviceName m root)
    (hmethod : HasMethod world serviceName methodName m) (hworld : Serves pb world reflection)
    (hf : fetch.descriptors = reflection fetch.typeName)
    (hw : TakesInWell pb serviceName root fetch) (hharm : fetch.Harmless pb world m root) :
    RootReal world serviceName m (takeIn pb root fetch) where
  sound := h.sound.takeIn hw
  service := by
    obtain ⟨kind, hk, -⟩ := hmethod.service
    rw [keeps_takeIn (by simp [h.service, hk]), h.service]
  needed n kind hn hne :=
    needed_takeIn hworld hf hharm hn fun kind => h.needed n kind hn hne

end Real

section Calls

variable {world : ProtoObject} {serviceName : DottedName} {methodName : JsString}
  {m : ServiceMethod} {loader : SchemaRequest β} {r : Resolution}

/-- Where each needed type that a field of a real root names is there, so is each that is used from
one that is. -/
theorem hasTypeAt_of_uses {root : ProtoObject} {start : DottedName}
    (hreal : RootReal world serviceName m root)
    (hneeds : ∀ {n}, Uses world start n → Needs world m n)
    (hnamed : ∀ p kind n, root.slot p = .taken kind → n ∈ fieldTypes kind → Needs world m n →
      HasTypeAt root n) (hstart : HasTypeAt root start) {n : DottedName}
    (h : Uses world start n) : HasTypeAt root n := by
  induction h with
  | start => exact hstart
  | @field n n' kind used hs hn ih =>
    obtain ⟨own, hown, -⟩ := id ih
    have hw := hreal.needed n own (hneeds used) (hreal.sound.pathOf_ne_nil ih) hown
    rw [hs, Slot.taken.injEq] at hw
    exact hnamed _ own n' hown (hw ▸ hn) (hneeds (.field used hs hn))

/-- A load that does no harm ends in a real root with all types that the method needs. -/
theorem LoadsReal.root (hmethod : HasMethod world serviceName methodName m)
    (hworld : Serves pb world loader.reflection)
    (h : loadSchema pb loader.reflection loader.serviceName = some r)
    (hl : LoadsReal pb world serviceName m loader) :
    RootReal world serviceName m r.root ∧ ∀ n, Needs world m n → HasTypeAt r.root n := by
  obtain ⟨files, hfiles, hr⟩ := Option.map_eq_some_iff.1 h
  have hfirst : RootReal world serviceName m (buildProtoRoot pb files) := by
    have htake : takeIn pb emptyRoot ⟨loader.serviceName, loader.reflection loader.serviceName⟩ =
      buildProtoRoot pb files := by simp only [takeIn, hfiles, buildProtoRoot]
    obtain ⟨kind, hhas⟩ := hl.has
    have hfree := slot_emptyRoot hmethod.named
    rw [← htake]
    refine ⟨(rootSound_emptyRoot serviceName).takeIn hl.service, ?_, fun n kind hn hne hs => ?_⟩
    · rw [((fills_takeIn pb).fill _ _ _ kind hfree).2 hhas, hworld.has rfl hfiles hhas]
    · have hhas := ((fills_takeIn pb).fill _ _ _ kind (slot_emptyRoot hne)).1 hs
      exact hworld.has rfl hfiles hhas
  obtain ⟨hreal, hfound, hasked, hnone⟩ := roundsGo_end
    (fun _ _ hf hr hg => RootReal.takeIn hr hmethod hworld hf hg.2.1 hg.2.2) (fun _ _ hg => hg.1)
    (hl.rounds files hfiles) hfirst fun n hn => absurd hn List.not_mem_nil
  rw [hr] at hreal hfound hasked hnone
  have hnamed : ∀ p kind n, r.root.slot p = .taken kind → n ∈ fieldTypes kind → Needs world m n →
      HasTypeAt r.root n := fun p kind n hp hn hneeds => by
    have hseen := hreal.sound.seen hp hn
    exact (found_or_asked hnone hseen).elim (hfound n hneeds hseen) (hasked n)
  have hstart : ∀ n, Noticed r.root n → Needs world m (fullTypeName n) →
      HasTypeAt r.root (fullTypeName n) := by
    rintro n (hn | ⟨p, kind, hn, hp⟩) hneeds
    · rwa [HasTypeAt, pathOf_fullTypeName]
    · exact hnamed p kind _ hp hn hneeds
  obtain ⟨kind, hk, -, hm⟩ := hmethod.service
  rw [← hreal.service] at hk
  obtain ⟨hreq, hres⟩ := hreal.sound.methods kind hk m (List.mem_of_find?_eq_some hm)
  refine ⟨hreal, fun n hn => ?_⟩
  rcases hn with hn | hn
  · exact hasTypeAt_of_uses hreal .inl hnamed (hstart _ hreq (.inl .start)) hn
  · exact hasTypeAt_of_uses hreal .inr hnamed (hstart _ hres (.inr .start)) hn

/-- The types of a method in a real root are the server's. -/
theorem RootReal.getMethodTypes (hpb : pb.FindsAtPath)
    (hmethod : HasMethod world serviceName methodName m) {root : ProtoObject}
    (h : RootReal world serviceName m root) (hall : ∀ n, Needs world m n → HasTypeAt root n) :
    ∃ types, DiiaApp.getMethodTypes pb root serviceName methodName = some types ∧
      UsesRealTypes pb world m root types := by
  have hreal : ∀ n, Needs world m n → ∃ o, root.objectAt (pathOf n) = some o ∧
      o.data.isTypeOrEnum = true ∧ world.slot (pathOf n) = .taken o.data := fun n hn => by
    obtain ⟨kind, hs, hk⟩ := id (hall n hn)
    obtain ⟨o, ho, rfl⟩ := slot_eq_taken.1 hs
    exact ⟨o, ho, hk, h.needed n o.data hn (h.sound.pathOf_ne_nil (hall n hn)) hs⟩
  have hmessage : ∀ n, Needs world m (fullTypeName n) →
      (∃ kind, world.slot (pathOf n) = .taken kind ∧ kind.isType = true) →
      ∃ o, pb.lookupType root n = some o ∧ world.slot (pathOf n) = .taken o.data := by
    rintro n hn ⟨kind, hw, hk⟩
    obtain ⟨o, ho, -, hs⟩ := hreal _ hn
    rw [pathOf_fullTypeName] at ho hs
    rw [hw, Slot.taken.injEq] at hs
    exact ⟨o, hpb.type ho (hs ▸ hk), hs ▸ hw⟩
  obtain ⟨kind, hk, hservice, hm⟩ := hmethod.service
  rw [← h.service] at hk
  obtain ⟨service, ho, rfl⟩ := slot_eq_taken.1 hk
  obtain ⟨request, hreq, hreq'⟩ := hmessage m.requestType (.inl .start) hmethod.request
  obtain ⟨response, hres, hres'⟩ := hmessage m.responseType (.inr .start) hmethod.response
  refine ⟨⟨request, response⟩, ?_, hreq', hres', fun n hn => ?_⟩
  · simp [DiiaApp.getMethodTypes, hpb.service ho hservice, hm, hreq, hres]
  · obtain ⟨o, ho, hk, hs⟩ := hreal n hn
    exact ⟨o, hpb.typeOrEnum ho hk, hs⟩

/-- In every run of calls, one whose server answers every request of its reflection encodes its
request and decodes its response with the server's types, where the loads of its schema did no
harm. -/
theorem real_types (hpb : pb.FindsAtPath) {calls : List (SchemaRequest β × JsString)}
    {request : SchemaRequest β} (hmethod : HasMethod world request.serviceName methodName m)
    (hworld : ∀ call ∈ calls ++ [(request, methodName)], Serves pb world call.1.reflection)
    (hanswers : ∀ name, request.reflection name ≠ none)
    (hloads : ∀ loader r, Loads pb (calls.map Prod.fst ++ [request]) request.cacheKey loader r →
      LoadsReal pb world request.serviceName m loader) :
    ∃ root types, ((afterCalls pb calls).call pb request methodName).2 = some (root, types) ∧
      UsesRealTypes pb world m root types := by
  obtain ⟨root, hroot⟩ : ∃ root, ((afterCalls pb calls).getSchema pb request).2 = some root :=
    getSchema_of_answer (hanswers request.serviceName)
  rw [afterCalls_eq] at hroot
  obtain ⟨loader, r, hl, rfl⟩ := exists_loader hroot
  have hserves : Serves pb world loader.reflection := by
    obtain ⟨pre, post, hpre, -⟩ := hl.first
    have hm : loader ∈ (calls ++ [(request, methodName)]).map Prod.fst := by
      rw [List.map_append, List.map_singleton, hpre]
      exact List.mem_append_right _ List.mem_cons_self
    obtain ⟨call, hcall, rfl⟩ := List.mem_map.1 hm
    exact hworld call hcall
  obtain ⟨hreal, hall⟩ := (hloads loader r hl).root hmethod hserves hl.loaded
  obtain ⟨types, htypes, huses⟩ := hreal.getMethodTypes hpb hmethod hall
  refine ⟨r.root, types, ?_, huses⟩
  rw [DynamicClient.call, afterCalls_eq, hroot, Option.bind_some, htypes, Option.map_some]

end Calls

/-- The objects of the two files together. -/
def bothFiles : ProtoObject :=
  fileOf
    [.mk (js "Req") (.type [fieldNamed "t" [[], js "p", js "T"] 1,
      fieldNamed "u" [[], js "p", js "U"] 2] []) [],
    .mk (js "S") (.service [⟨js "M", [[], js "p", js "Req"], [[], js "p", js "Req"]⟩]) [],
    .mk (js "T") (.type [fieldNamed "name" [js "string"] 1] []) [], .mk (js "U") .empty []]

/-- A file is part of another of its package that has its objects. -/
theorem fileOf_partOf {nested all : List ProtoObject}
    (h : ∀ c ∈ nested, all.find? (·.name = c.name) = some c) :
    (fileOf nested).PartOf (fileOf all) := by
  refine PartOf.of_nested rfl fun p hp => ?_
  obtain rfl := List.mem_singleton.1 hp
  refine ⟨.mk (js "p") .plain all, by simp [fileOf, child], PartOf.of_nested rfl fun c hc => ?_⟩
  exact ⟨c, h c hc, .refl c⟩

theorem serviceFile_partOf : serviceFile.root.PartOf bothFiles := by
  refine fileOf_partOf fun c hc => ?_
  simp only [List.mem_cons, List.not_mem_nil, or_false] at hc
  rcases hc with rfl | rfl
  · rfl
  · rfl

theorem typesFile_partOf : typesFile.root.PartOf bothFiles := by
  refine fileOf_partOf fun c hc => ?_
  simp only [List.mem_cons, List.not_mem_nil, or_false] at hc
  rcases hc with rfl | rfl
  · rfl
  · rfl

theorem serves_bothFiles {reflection : Reflection ParsedRoot}
    (h : ∀ name, reflection name = none ∨ reflection name = some [serviceFile] ∨
      reflection name = some [typesFile]) : Serves bySearch bothFiles reflection := by
  intro name descriptors files hd hp
  rw [parsed_bySearch] at hp
  rcases h name with hn | hn | hn
  · rw [hn] at hd
    cases hd
  · rw [hn, Option.some.injEq] at hd
    rw [← hd, List.head?_cons, Option.some.injEq] at hp
    exact hp ▸ serviceFile_partOf
  · rw [hn, Option.some.injEq] at hd
    rw [← hd, List.head?_cons, Option.some.injEq] at hp
    exact hp ▸ typesFile_partOf

theorem serves_failingForT : Serves bySearch bothFiles failingForT := by
  refine serves_bothFiles fun name => ?_
  unfold failingForT
  split_ifs
  · exact .inr (.inl rfl)
  · exact .inr (.inr rfl)
  · exact .inl rfl

theorem serves_neverFailing : Serves bySearch bothFiles neverFailing := by
  refine serves_bothFiles fun name => ?_
  unfold neverFailing
  split_ifs
  · exact .inr (.inl rfl)
  · exact .inr (.inr rfl)


/-- `rpc M (Req) returns (Req);` -/
def methodM : ServiceMethod := ⟨js "M", [[], js "p", js "Req"], [[], js "p", js "Req"]⟩

theorem bothFiles_req : bothFiles.slot [js "p", js "Req"] =
    .taken (.type [fieldNamed "t" [[], js "p", js "T"] 1,
      fieldNamed "u" [[], js "p", js "U"] 2] []) := by decide

theorem bothFiles_hasMethod : HasMethod bothFiles [js "p", js "S"] (js "M") methodM where
  named := by decide
  service := ⟨.service [methodM], by decide, rfl, by decide⟩
  request := ⟨_, bothFiles_req, rfl⟩
  response := ⟨_, bothFiles_req, rfl⟩

theorem serves_noAnswer : Serves bySearch bothFiles fun _ => none := nofun

theorem neverFailing_answers (name : DottedName) : neverFailing name ≠ none := by
  unfold neverFailing
  split_ifs
  · exact Option.some_ne_none _
  · exact Option.some_ne_none _

theorem neverFailing_loadsReal :
    LoadsReal bySearch bothFiles [js "p", js "S"] methodM (requestFor neverFailing) where
  has := ⟨.service [methodM], has_bySearch.2 (by decide)⟩
  service := serviceFile_takesInWell
  rounds files hfiles := by
    obtain rfl : [serviceFile] = files := Option.some.inj hfiles
    refine neverFailing_rounds (fun _ fetch hd hs hw => ⟨hs, hw, fun hnone => ?_⟩) ?_
    · rw [hnone] at hd
      cases hd
    · have hall : ∀ n ∈ checkNamespace (fetchRound bySearch neverFailing
          ⟨buildProtoRoot bySearch [serviceFile], []⟩).root,
        ProtoKind.At ProtoKind.isTypeOrEnum ((fetchRound bySearch neverFailing
          ⟨buildProtoRoot bySearch [serviceFile], []⟩).root.slot (pathOf n)) = true := by decide
      exact fun n _ hn _ => hasTypeAt_iff.2 (hall n hn)

/-- After a call whose first request fails one with answers uses the server's types. -/
theorem real_types_neverFailing : ∃ root types,
    ((afterCalls bySearch [(requestFor fun _ => none, js "M")]).call bySearch
      (requestFor neverFailing) (js "M")).2 = some (root, types) ∧
    UsesRealTypes bySearch bothFiles methodM root types := by
  refine real_types bySearch_findsAtPath bothFiles_hasMethod ?_ neverFailing_answers ?_
  · simp only [List.forall_mem_cons, List.singleton_append]
    exact ⟨serves_noAnswer, serves_neverFailing, fun _ h => absurd h List.not_mem_nil⟩
  · intro loader r hl
    obtain ⟨pre, post, hpre, -⟩ := hl.first
    rw [List.map_singleton, List.singleton_append] at hpre
    have hm : loader ∈ [requestFor fun _ => none, requestFor neverFailing] :=
      hpre ▸ List.mem_append_right pre List.mem_cons_self
    rcases List.mem_cons.1 hm with rfl | hm
    · exact absurd hl.loaded nofun
    · obtain rfl := List.mem_singleton.1 hm
      exact neverFailing_loadsReal

/-- The second call has the placeholder of the first, though the reflection answers all of its
requests. As the first call it would have the message. -/
theorem not_real_types : (∀ name, neverFailing name ≠ none) ∧
    HasMethod bothFiles [js "p", js "S"] (js "M") methodM ∧
    Serves bySearch bothFiles failingForT ∧ Serves bySearch bothFiles neverFailing ∧
    (∃ root types, ((afterCalls bySearch [(requestFor failingForT, js "M")]).call bySearch
      (requestFor neverFailing) (js "M")).2 = some (root, types) ∧
      ¬ UsesRealTypes bySearch bothFiles methodM root types) ∧
    ((DynamicClient.new.call bySearch (requestFor neverFailing) (js "M")).2.map
      fun x => x.1.slot [js "p", js "T"]) =
        some (.taken (.type [fieldNamed "name" [js "string"] 1] [])) := by
  refine ⟨neverFailing_answers, bothFiles_hasMethod, serves_failingForT, serves_neverFailing, ?_,
    by decide⟩
  have hcall : (((afterCalls bySearch [(requestFor failingForT, js "M")]).call bySearch
      (requestFor neverFailing) (js "M")).2.map fun x =>
        (bySearch.lookupTypeOrEnum x.1 [js "p", js "T"]).map data) = some (some .empty) := by decide
  obtain ⟨⟨root, types⟩, hx, hlookup⟩ := Option.map_eq_some_iff.1 hcall
  refine ⟨root, types, hx, fun huses => ?_⟩
  have hneeds : Needs bothFiles methodM [js "p", js "T"] :=
    .inl (.field .start bothFiles_req (by decide))
  obtain ⟨o, ho, hs⟩ := huses.fields _ hneeds
  rw [ho, Option.map_some, Option.some.injEq] at hlookup
  rw [hlookup] at hs
  exact absurd hs (by decide)

end DiiaApp
