import DiiaApp.Proofs.RootBuild

/-!
# Merging in any order

Parsed roots that agree, where two have an object of one full name, are merged into one root that
has the objects of all of them and no others (`unites_mergeRoots`). It is therefore the same root in
whatever order they are merged, and however often each.
-/

namespace DiiaApp

open Js NameTree

/-- The root that parsed roots are merged into, one after another. -/
def mergeRoots (parsedRoots : List ParsedRoot) : ProtoObject :=
  parsedRoots.foldl (fun root parsed => mergeAllInto root parsed.root.nested) emptyRoot

/-- Where two of the parsed roots have an object of one full name, it is of one kind, with the same
content of its own. -/
def Agreeing (parsedRoots : List ParsedRoot) : Prop := Agree (parsedRoots.map ParsedRoot.root)

instance (parsedRoots : List ParsedRoot) : Decidable (Agreeing parsedRoots) :=
  inferInstanceAs (Decidable (Agree _))

variable {β φ : Type} {parsedRoots : List ParsedRoot}

/-- Fetches that all bring descriptors build the root that these are merged into. -/
theorem built_eq_mergeRoots {pb : Protobuf β φ} {fetches : List (Fetch β)}
    (h : fetches.map (fun fetch => fetch.descriptors.bind (parsed pb)) = parsedRoots.map some) :
    built pb fetches = mergeRoots parsedRoots := by
  unfold built mergeRoots
  generalize emptyRoot = root
  induction fetches generalizing parsedRoots root with
  | nil =>
    rw [List.map_nil, eq_comm, List.map_eq_nil_iff] at h
    rw [h]
    rfl
  | cons fetch fetches ih =>
    obtain ⟨files, rest, rfl, hfiles, hrest⟩ := List.map_eq_cons_iff.1 h.symm
    obtain ⟨descriptors, hd, hp⟩ := Option.bind_eq_some_iff.1 hfiles.symm
    have htake : takeIn pb root fetch = mergeAllInto root files.root.nested := by
      rw [takeIn, hd]
      dsimp only
      rw [mergeDescriptorsIntoRoot_eq, hp]
    rw [List.foldl_cons, List.foldl_cons, htake]
    exact ih hrest.symm _

theorem slot_mergeAllInto_parsed {root : ProtoObject} (files : ParsedRoot) {p : DottedName}
    (kind : ProtoKind) (h : root.slot p = .free) :
    (mergeAllInto root files.root.nested).slot p = .taken kind ↔
      files.root.slot p = .taken kind := by
  obtain ⟨x, q, rfl⟩ := List.exists_cons_of_ne_nil (ne_nil_of_free h)
  rw [slot_mergeAllInto files.proper.nodup (fun _ hs => files.proper.inner hs) h,
    ← files.proper.slot_cons_eq_taken]

/-- Merging one more parsed root adds its objects. -/
theorem unites_mergeAllInto {root : ProtoObject} {trees : List ProtoObject} {files : ParsedRoot}
    (hr : root.data = .plain) (h : root.Unites trees) (ha : Agree (files.root :: trees)) :
    (mergeAllInto root files.root.nested).Unites (files.root :: trees) :=
  h.add (fun x => hr ▸ opens_plain x) ha (fun _ => keeps_mergeAllInto _) fun _ kind =>
    slot_mergeAllInto_parsed files kind

theorem mergeRoots_append (parsedRoots : List ParsedRoot) (files : ParsedRoot) :
    mergeRoots (parsedRoots ++ [files]) = mergeAllInto (mergeRoots parsedRoots) files.root.nested :=
  List.foldl_concat ..

theorem mergeRoots_data (parsedRoots : List ParsedRoot) :
    (mergeRoots parsedRoots).data = .plain := by
  induction parsedRoots using List.reverseRecOn with
  | nil => rfl
  | append_singleton parsedRoots files ih =>
    rw [mergeRoots_append, (name_mergeAllInto _ _).2, ih]

theorem proper_mergeRoots (parsedRoots : List ParsedRoot) : (mergeRoots parsedRoots).Proper := by
  induction parsedRoots using List.reverseRecOn with
  | nil => exact proper_new
  | append_singleton parsedRoots files ih =>
    rw [mergeRoots_append]
    refine proper_mergeAllInto ih ?_ fun _ hs => files.proper.inner hs
    rw [mergeRoots_data]
    rfl

/-- The root that agreeing roots are merged into has their objects and no others. -/
theorem unites_mergeRoots (h : Agreeing parsedRoots) :
    (mergeRoots parsedRoots).Unites (parsedRoots.map ParsedRoot.root) := by
  induction parsedRoots using List.reverseRecOn with
  | nil =>
    intro p kind hp
    rw [mergeRoots, List.foldl_nil, slot_emptyRoot hp]
    simp
  | append_singleton parsedRoots files ih =>
    have hmem : ∀ tree : ProtoObject, tree ∈ files.root :: parsedRoots.map ParsedRoot.root ↔
        tree ∈ (parsedRoots ++ [files]).map ParsedRoot.root := by
      simp [or_comm]
    have hall : Agree (files.root :: parsedRoots.map ParsedRoot.root) :=
      Agree.of_subset h fun tree ht => (hmem tree).1 ht
    have hinit : Agreeing parsedRoots := hall.of_subset (List.subset_cons_self ..)
    rw [mergeRoots_append]
    exact (unites_mergeAllInto (mergeRoots_data parsedRoots) (ih hinit) hall).congr hmem

/-- Roots that agree are merged into one that has every object of theirs under its full name, with
what it is, and nothing else; merged in another order, or some of them more than once, they leave
the same under every full name. It is the root that is built from fetches which bring them. -/
theorem mergeRoots_agreeing (pb : Protobuf β φ) (h : Agreeing parsedRoots) :
    (mergeRoots parsedRoots).Proper ∧
      (∀ fullName kind, fullName ≠ [] → ((mergeRoots parsedRoots).slot fullName = .taken kind ↔
        ∃ files ∈ parsedRoots, files.root.slot fullName = .taken kind)) ∧
      (∀ others : List ParsedRoot, (∀ files, files ∈ others ↔ files ∈ parsedRoots) →
        (mergeRoots others).slot = (mergeRoots parsedRoots).slot) ∧
      ∀ fetches : List (Fetch β),
        fetches.map (fun fetch => fetch.descriptors.bind (parsed pb)) = parsedRoots.map some →
          built pb fetches = mergeRoots parsedRoots := by
  have hmem : ∀ others : List ParsedRoot, (∀ files, files ∈ others ↔ files ∈ parsedRoots) →
      ∀ tree : ProtoObject, tree ∈ others.map ParsedRoot.root ↔
        tree ∈ parsedRoots.map ParsedRoot.root := fun others hs tree => by
    simp only [List.mem_map, hs]
  refine ⟨proper_mergeRoots parsedRoots, fun fullName kind hne => ?_, fun others hs => ?_,
    fun fetches => built_eq_mergeRoots⟩
  · rw [unites_mergeRoots h fullName kind hne]
    simp
  · have hothers : Agreeing others :=
      Agree.of_subset h fun tree ht => (hmem others hs tree).1 ht
    refine (unites_mergeRoots hothers).slot_eq (unites_mergeRoots h) ?_ (hmem others hs)
    rw [mergeRoots_data, mergeRoots_data]

theorem mergeRoots_agreeing_two :
    Agreeing [serviceFile, typesFile] ∧ (mergeRoots [serviceFile, typesFile]).Proper ∧
      (mergeRoots [typesFile, serviceFile, typesFile]).slot =
        (mergeRoots [serviceFile, typesFile]).slot ∧
      built bySearch [⟨[js "p", js "S"], some [serviceFile]⟩, ⟨[js "p", js "U"], some [typesFile]⟩] =
        mergeRoots [serviceFile, typesFile] := by
  have h : Agreeing [serviceFile, typesFile] := by decide
  obtain ⟨hp, -, hsame, hbuilt⟩ := mergeRoots_agreeing bySearch h
  exact ⟨h, hp, hsame _ fun files => by simp; tauto, hbuilt _ rfl⟩

end DiiaApp
