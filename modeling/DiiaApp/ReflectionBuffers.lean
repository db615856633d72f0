import DiiaApp.ReflectionFix

/-!
# Package definitions over their buffers

The definitions of a package definition list the buffers that their file descriptors are encoded in,
some in the lists of many definitions. `fixReflectionTypeNames` decodes each buffer once and encodes
the descriptors it has changed into new buffers. Where it has changed none it returns the package
definition it was given, and otherwise a new one with the new buffers in the lists.
-/

namespace DiiaApp

open Js

section Heap

variable {Bytes : Type}

/-- What the buffers hold; those from `next` on are not in use. -/
structure Heap (Bytes : Type) where
  contents : Buffer → Bytes
  next : Buffer

/-- `Buffer.from(bytes)` -/
def Heap.alloc (heap : Heap Bytes) (bytes : Bytes) : Heap Bytes :=
  ⟨Function.update heap.contents heap.next bytes, heap.next + 1⟩

variable (encode : FileDescriptor → Bytes) (packageMap : NameIndex DottedName)
  (typeMap : NameIndex JsString)

/-- A decoded descriptor is fixed and, if that has changed it, encoded into a new buffer. -/
def encodeFixed (st : Heap Bytes × Js.Map Buffer Buffer) (e : Buffer × FileDescriptor) :
    Heap Bytes × Js.Map Buffer Buffer :=
  let modified := applyFixes packageMap typeMap e.2
  if modified.2 then (st.1.alloc (encode modified.1), st.2.set e.1 st.1.next) else st

/-- What is so of the heap and of the new buffers once the descriptors `done` have been fixed. -/
structure EncodedFrom (heap : Heap Bytes) (done : List (Buffer × FileDescriptor))
    (st : Heap Bytes × Js.Map Buffer Buffer) : Prop where
  next_le : heap.next ≤ st.1.next
  kept : ∀ buf < heap.next, st.1.contents buf = heap.contents buf
  fresh : ∀ {buf new}, st.2.get buf = some new → heap.next ≤ new ∧ new < st.1.next
  injective : ∀ {buf buf' new}, st.2.get buf = some new → st.2.get buf' = some new → buf = buf'
  encoded : ∀ {buf new}, st.2.get buf = some new → ∃ fd, (buf, fd) ∈ done ∧
    (applyFixes packageMap typeMap fd).2 ∧
      st.1.contents new = encode (applyFixes packageMap typeMap fd).1
  modified : ∀ e ∈ done, (applyFixes packageMap typeMap e.2).2 → st.2.has e.1

variable {encode packageMap typeMap}

theorem encodeFixed_encodedFrom {heap : Heap Bytes} {done : List (Buffer × FileDescriptor)}
    {st : Heap Bytes × Js.Map Buffer Buffer} (e : Buffer × FileDescriptor)
    (hst : EncodedFrom encode packageMap typeMap heap done st) (he : e.1 ∉ done.map Prod.fst) :
    EncodedFrom encode packageMap typeMap heap (done ++ [e])
      (encodeFixed encode packageMap typeMap st e) := by
  rw [encodeFixed]
  split_ifs with hm
  · have hold : ∀ {buf new}, st.2.get buf = some new → buf ≠ e.1 ∧ new ≠ st.1.next := by
      intro buf new h
      obtain ⟨fd, hfd, -⟩ := hst.encoded h
      exact ⟨fun hb => he (hb ▸ List.mem_map_of_mem hfd), (hst.fresh h).2.ne⟩
    have hget : ∀ {buf new}, (st.2.set e.1 st.1.next).get buf = some new →
        buf = e.1 ∧ new = st.1.next ∨ st.2.get buf = some new := by
      intro buf new h
      rw [Map.get_set] at h
      split_ifs at h with hb
      · exact .inl ⟨hb, (Option.some.inj h).symm⟩
      · exact .inr h
    have hnew : ∀ {new}, new ≠ st.1.next →
        (st.1.alloc (encode (applyFixes packageMap typeMap e.2).1)).contents new
          = st.1.contents new := fun hne => Function.update_of_ne hne _ _
    refine ⟨Nat.le_succ_of_le hst.next_le, ?_, ?_, ?_, ?_, ?_⟩
    · intro buf hb
      rw [hnew (hb.trans_le hst.next_le).ne, hst.kept buf hb]
    · intro buf new h
      rcases hget h with ⟨-, rfl⟩ | h
      · exact ⟨hst.next_le, Nat.lt_succ_self _⟩
      · exact ⟨(hst.fresh h).1, Nat.lt_succ_of_lt (hst.fresh h).2⟩
    · intro buf buf' new h h'
      rcases hget h with ⟨rfl, rfl⟩ | h <;> rcases hget h' with ⟨rfl, hn⟩ | h'
      · rfl
      · exact absurd rfl (hold h').2
      · exact absurd hn (hold h).2
      · exact hst.injective h h'
    · intro buf new h
      rcases hget h with ⟨rfl, rfl⟩ | h
      · exact ⟨e.2, by simp, hm, Function.update_self ..⟩
      · obtain ⟨fd, hfd, hf⟩ := hst.encoded h
        exact ⟨fd, List.mem_append_left _ hfd, hf.1, (hnew (hold h).2).trans hf.2⟩
    · intro e' he' hm'
      rw [Map.has_set]
      rcases List.mem_append.1 he' with h | h
      · exact .inr (hst.modified e' h hm')
      · exact .inl (by rw [List.mem_singleton.1 h])
  · refine ⟨hst.next_le, hst.kept, hst.fresh, hst.injective, fun h => ?_, fun e' he' hm' => ?_⟩
    · obtain ⟨fd, hfd, hf⟩ := hst.encoded h
      exact ⟨fd, List.mem_append_left _ hfd, hf⟩
    · rcases List.mem_append.1 he' with h | h
      · exact hst.modified e' h hm'
      · exact absurd (List.mem_singleton.1 h ▸ hm') hm

theorem foldl_encodedFrom {heap : Heap Bytes} (es : List (Buffer × FileDescriptor)) :
    ∀ {done : List (Buffer × FileDescriptor)} {st : Heap Bytes × Js.Map Buffer Buffer},
      EncodedFrom encode packageMap typeMap heap done st →
      ((done ++ es).map Prod.fst).Nodup →
      EncodedFrom encode packageMap typeMap heap (done ++ es)
        (es.foldl (encodeFixed encode packageMap typeMap) st) := by
  induction es with
  | nil =>
    intro done st hst _
    simpa using hst
  | cons e es ih =>
    intro done st hst hn
    have he : e.1 ∉ done.map Prod.fst := by
      rw [List.map_append, List.nodup_append] at hn
      exact fun h => hn.2.2 e.1 h e.1 (by simp) rfl
    rw [List.foldl_cons, List.append_cons] at *
    exact ih (encodeFixed_encodedFrom e hst he) hn

end Heap

section Definitions

variable {ω : Type}

/-- The value of a field of a definition: a list of buffers, or another. -/
inductive DefinitionField (ω : Type)
  | buffers (bufs : List Buffer)
  | other (v : ω)

abbrev AnyDefinition (ω : Type) := Js.Map JsString (DefinitionField ω)

def protosKey : JsString := js "fileDescriptorProtos"

/-- The list of a definition's `fileDescriptorProtos`, where that is one. -/
def fileDescriptorProtos (defn : AnyDefinition ω) : Option (List Buffer) :=
  match defn.get protosKey with
  | some (.buffers bufs) => some bufs
  | _ => none

/-- `{ ...def, fileDescriptorProtos: fixedProtos }`, for a definition with such a list. -/
def withProtos (f : Buffer → Buffer) (defn : AnyDefinition ω) : AnyDefinition ω :=
  match fileDescriptorProtos defn with
  | some protos => defn.set protosKey (.buffers (protos.map f))
  | none => defn

def protosOf (pkgDefs : Js.Map JsString (AnyDefinition ω)) : PackageDefinition Buffer :=
  ⟨pkgDefs.entries.map fun e => (e.1, fileDescriptorProtos e.2),
    by rw [List.map_map]; exact pkgDefs.nodup⟩

def mapDefinitions (f : Buffer → Buffer) (pkgDefs : Js.Map JsString (AnyDefinition ω)) :
    Js.Map JsString (AnyDefinition ω) :=
  ⟨pkgDefs.entries.map fun e => (e.1, withProtos f e.2),
    by rw [List.map_map]; exact pkgDefs.nodup⟩

theorem fileDescriptorProtos_withProtos (f : Buffer → Buffer) (defn : AnyDefinition ω) :
    fileDescriptorProtos (withProtos f defn) = (fileDescriptorProtos defn).map (List.map f) := by
  rcases h : fileDescriptorProtos defn with _ | protos
  · simp [withProtos, h]
  · rw [withProtos, h, fileDescriptorProtos]
    simp

theorem protosOf_mapDefinitions (f : Buffer → Buffer) (pkgDefs : Js.Map JsString (AnyDefinition ω)) :
    (protosOf (mapDefinitions f pkgDefs)).entries
      = (protosOf pkgDefs).entries.map fun e => (e.1, e.2.map (List.map f)) := by
  simp [protosOf, mapDefinitions, fileDescriptorProtos_withProtos]

end Definitions

/-- A package definition whose buffers are in use. -/
structure LoadedPackages (Bytes ω : Type) where
  heap : Heap Bytes
  pkgDefs : Js.Map JsString (AnyDefinition ω)
  inUse : ∀ protos ∈ (protosOf pkgDefs).values, ∀ buf ∈ protos.getD [], buf < heap.next

namespace LoadedPackages

variable {Bytes ω : Type} (decode : Bytes → FileDescriptor) (encode : FileDescriptor → Bytes)
  (p : LoadedPackages Bytes ω)

/-- The descriptor in a buffer. -/
def descriptorIn (buf : Buffer) : FileDescriptor := decode (p.heap.contents buf)

def decodedDescriptors : Js.Map Buffer FileDescriptor :=
  DiiaApp.decodedDescriptors (p.descriptorIn decode) (protosOf p.pkgDefs)

def encodeAll : Heap Bytes × Js.Map Buffer Buffer :=
  let decoded := p.decodedDescriptors decode
  decoded.entries.foldl
    (encodeFixed encode (packageIndex decoded.values) (typeIndex decoded.values))
    (p.heap, Js.Map.empty)

theorem encodeAll_encodedFrom :
    EncodedFrom encode (packageIndex (p.decodedDescriptors decode).values)
      (typeIndex (p.decodedDescriptors decode).values) p.heap (p.decodedDescriptors decode).entries
      (p.encodeAll decode encode) :=
  have hstart : EncodedFrom encode (packageIndex (p.decodedDescriptors decode).values)
      (typeIndex (p.decodedDescriptors decode).values) p.heap [] (p.heap, Map.empty) :=
    ⟨le_rfl, fun _ _ => rfl, by simp, by simp, by simp, by simp⟩
  foldl_encodedFrom _ hstart (p.decodedDescriptors decode).nodup

/-- The new package definition, or nothing where the one given is returned. -/
def fixReflectionTypeNames : Option (LoadedPackages Bytes ω) :=
  let fixed := p.encodeAll decode encode
  if fixed.2.entries.isEmpty then none
  else some
    { heap := fixed.1
      pkgDefs := mapDefinitions (fun buf => (fixed.2.get buf).getD buf) p.pkgDefs
      inUse := by
        have hfixed := p.encodeAll_encodedFrom decode encode
        rw [Map.values, protosOf_mapDefinitions]
        simp only [List.map_map, List.mem_map, forall_exists_index, and_imp]
        rintro _ e he rfl buf' hb'
        rcases hp : e.2 with _ | protos
        · simp [hp] at hb'
        · obtain ⟨buf, hb, rfl⟩ : ∃ buf ∈ protos, (fixed.2.get buf).getD buf = buf' := by
            simpa [hp] using hb'
          rcases hg : fixed.2.get buf with _ | new
          · exact (p.inUse e.2 (List.mem_map_of_mem he) buf (by rwa [hp])).trans_le hfixed.next_le
          · exact (hfixed.fresh hg).2 }

/-- The package definition that a call returns. -/
def returned : LoadedPackages Bytes ω := (p.fixReflectionTypeNames decode encode).getD p

end LoadedPackages

end DiiaApp
