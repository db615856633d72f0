import DiiaApp.ProtoImports

/-!
# Which proto files are parsed

The extractor ends, parses no file twice and parses those that the texts it takes for imports lead to
(`extract_parses`). These are the files that the import statements lead to just where neither leads
out of what the other reaches (`parsesStated_iff`).
-/

namespace DiiaApp

open Js

namespace ProtoFiles

variable (p : ProtoFiles)

/-- The file that a path leads to. -/
def imported (protoRelativePath : JsString) : Option JsString :=
  if isBuiltin protoRelativePath then none else p.resolveProtoPath protoRelativePath

/-- What a file has that looks like an import. -/
def found (path : JsString) : List JsString := importTexts 0 (p.content path)

def stated (path : JsString) : List JsString := importStatements (p.content path)

/-- All files parse. -/
def AllParse : Prop := ∀ path content, p.files.get path = some content → p.parses content

/-- A state in which each file seen has been parsed. -/
def allParsed (seen : List JsString) : Extraction := ⟨seen, seen⟩

variable {p}

theorem imported_mem {protoRelativePath path : JsString}
    (h : p.imported protoRelativePath = some path) : path ∈ p.files.keys := by
  unfold imported at h
  split_ifs at h
  have hhas := List.find?_some h
  exact Map.mem_keys.2 (Option.isSome_iff_exists.1 hhas)

theorem parses_content (hp : p.AllParse) {protoRelativePath path : JsString}
    (h : p.imported protoRelativePath = some path) : p.parses (p.content path) = true := by
  obtain ⟨text, ht⟩ := Map.mem_keys.1 (imported_mem h)
  rw [content, ht]
  exact hp path text ht

/-- Parsing a file and what it imports is a traversal of the files. -/
theorem parseProtoWithImports_eq_visit (hp : p.AllParse) :
    ∀ fuel protoRelativePath seen,
      p.parseProtoWithImports fuel protoRelativePath (allParsed seen)
        = (Traversal.visit p.imported p.found fuel protoRelativePath seen).map allParsed
  | 0, _, _ => rfl
  | fuel + 1, protoRelativePath, seen => by
    rw [parseProtoWithImports, Traversal.visit, imported]
    split_ifs with hb
    · rfl
    · rcases hr : p.resolveProtoPath protoRelativePath with _ | path
      · rfl
      · have hi : p.imported protoRelativePath = some path := by rw [imported, if_neg hb, hr]
        dsimp only
        rw [if_pos (parses_content hp hi)]
        by_cases hs : path ∈ seen
        · rw [if_pos hs, if_pos (show path ∈ (allParsed seen).parsedFiles from hs)]
          rfl
        · rw [if_neg hs, if_neg (show path ∉ (allParsed seen).parsedFiles from hs)]
          exact Traversal.followAll_map (parseProtoWithImports_eq_visit hp fuel) _ _

theorem extract_parses (hp : p.AllParse) {fuel : ℕ} (hf : p.files.keys.length < fuel)
    (protoPaths : List JsString) :
    ∃ st, p.extract fuel protoPaths = some st ∧ st.parsed.Nodup ∧
      ∀ path, path ∈ st.parsed ↔ Traversal.Reached p.imported p.found protoPaths path := by
  obtain ⟨out, hout, hn, hreach⟩ := Traversal.visitAll_reached
    (fun _ _ => imported_mem) hf protoPaths
  refine ⟨allParsed out, ?_, hn, hreach⟩
  rw [extract]
  exact (Traversal.followAll_map (parseProtoWithImports_eq_visit hp fuel) protoPaths []).trans
    (congrArg (Option.map allParsed) hout)

variable (p)

/-- The extractor ends and has parsed once each file that import statements lead to, and no other. -/
def ParsesStated (protoPaths : List JsString) : Prop :=
  ∀ fuel, p.files.keys.length < fuel → ∃ st, p.extract fuel protoPaths = some st ∧
    st.parsed.Nodup ∧
      ∀ path, path ∈ st.parsed ↔ Traversal.Reached p.imported p.stated protoPaths path

/-- The files parsed are those that import statements lead to just where, in these, nothing that only
looks like an import leads to others, and no statement of a file found leads to one not found. -/
theorem parsesStated_iff (hp : p.AllParse) (protoPaths : List JsString) :
    p.ParsesStated protoPaths ↔
      (∀ path, Traversal.Reached p.imported p.stated protoPaths path →
        ∀ text ∈ p.found path, ∀ path', p.imported text = some path' →
          Traversal.Reached p.imported p.stated protoPaths path') ∧
      ∀ path, Traversal.Reached p.imported p.found protoPaths path →
        ∀ statement ∈ p.stated path, ∀ path', p.imported statement = some path' →
          Traversal.Reached p.imported p.found protoPaths path' := by
  rw [← Traversal.reached_iff]
  constructor
  · intro h path
    obtain ⟨st, hst, -, hparsed⟩ := h _ (Nat.lt_succ_self _)
    obtain ⟨st', hst', -, hfound⟩ := extract_parses hp (Nat.lt_succ_self _) protoPaths
    obtain rfl := Option.some.inj (hst.symm.trans hst')
    rw [← hparsed, ← hfound]
  · intro h fuel hf
    obtain ⟨st, hst, hn, hfound⟩ := extract_parses hp hf protoPaths
    exact ⟨st, hst, hn, fun path => (hfound path).trans (h path)⟩

/-- Two files, the first with a text that leads to the second. -/
def twoFiles (text : JsString) : ProtoFiles where
  files := (Map.empty.set (js "p/a.proto") text).set (js "p/b.proto") []
  parses _ := true
  join dir path := dir ++ js "/" ++ path
  includeDirs := [js "p"]

theorem twoFiles_allParse (text : JsString) : (twoFiles text).AllParse := fun _ _ _ => rfl

def plainImport : JsString := js "import \"b.proto\";"

theorem parsesStated_iff_plain : (twoFiles plainImport).ParsesStated [js "a.proto"] := by
  have hsame : ∀ path, (twoFiles plainImport).found path = (twoFiles plainImport).stated path := by
    intro path
    rw [found, stated, content]
    simp only [twoFiles, Map.get_set]
    split_ifs
    · rfl
    · rfl
    · rfl
  refine (parsesStated_iff _ (twoFiles_allParse plainImport) _).2 ⟨?_, ?_⟩
  · exact fun path h text ht path' hr => .step h (hsame path ▸ ht) hr
  · exact fun path h text ht path' hr => .step h (hsame path ▸ ht) hr

def publicImport : JsString := js "import public \"b.proto\";"

/-- A file imported publicly is not parsed. -/
theorem not_parsesStated : (twoFiles publicImport).AllParse ∧
    ¬ (twoFiles publicImport).ParsesStated [js "a.proto"] := by
  refine ⟨twoFiles_allParse publicImport, fun h => ?_⟩
  obtain ⟨st, hst, -, hparsed⟩ := h 3 (by decide)
  have hrun : (twoFiles publicImport).extract 3 [js "a.proto"]
      = some ⟨[js "p/a.proto"], [js "p/a.proto"]⟩ := rfl
  obtain rfl := Option.some.inj (hrun.symm.trans hst)
  have hb : Traversal.Reached (twoFiles publicImport).imported (twoFiles publicImport).stated
      [js "a.proto"] (js "p/b.proto") := by
    have ha : Traversal.Reached (twoFiles publicImport).imported (twoFiles publicImport).stated
        [js "a.proto"] (js "p/a.proto") := .start (List.mem_singleton_self _) rfl
    have hstated : js "b.proto" ∈ (twoFiles publicImport).stated (js "p/a.proto") := by decide
    exact .step ha hstated rfl
  exact absurd ((hparsed _).2 hb) (by decide)

end ProtoFiles

end DiiaApp
