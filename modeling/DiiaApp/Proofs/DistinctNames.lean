import DiiaApp.Proofs.ExactReferences

/-!
# Roots whose types have distinct names

Where the types that fields lead to differ in their names, the search for a schema gives each type
its plain name, and there is a definition for each under this name (`generateSchema_definitions`).
-/

namespace DiiaApp

open Js

variable {root : ProtoRoot} {comments : Comments}

/-- The names given so far are plain. -/
def PlainlyGiven (root : ProtoRoot) (names : Map JsString JsString) : Prop :=
  ∀ n d, names.get n = some d → LedTo root n ∧ d = plainName root n

section Names

variable {names : Map JsString JsString} {n : JsString}

theorem getDefinitionName_plain (hd : DistinctNames root) (hnames : PlainlyGiven root names)
    (hn : LedTo root n) :
    (getDefinitionName n (shortNameOf n) names (root.nestedInType n)).1 = plainName root n := by
  unfold getDefinitionName
  rcases hg : (names.get n).filter (· ≠ []) with _ | d
  · dsimp only
    unfold plainName
    split_ifs with hnested hany
    · rfl
    · -- no other type has the short name
      obtain ⟨⟨m, d⟩, he, hsame⟩ := List.any_eq_true.1 hany
      obtain ⟨hshort, hne⟩ := of_decide_eq_true hsame
      obtain ⟨hm, hplain⟩ := hnames m d (Map.mem_entries.1 he)
      have hnplain : plainName root n = shortNameOf n := if_neg hnested
      have hmn := hd.plain m (mem_complexTypeNames.2 hm) n (mem_complexTypeNames.2 hn)
        (hplain.symm.trans (hshort.trans hnplain.symm))
      exact absurd hmn hne
    · rfl
  · exact (hnames n d (Option.filter_eq_some_iff.1 hg).1).2

theorem getDefinitionName_plainlyGiven (hd : DistinctNames root) (hnames : PlainlyGiven root names)
    (hn : LedTo root n) : PlainlyGiven root
      (getDefinitionName n (shortNameOf n) names (root.nestedInType n)).2 := by
  intro m d hm
  by_cases hmn : m = n
  · subst hmn
    rw [getDefinitionName_get, Option.some_inj] at hm
    exact ⟨hn, hm ▸ getDefinitionName_plain hd hnames hn⟩
  · exact hnames m d ((getDefinitionName_get_of_ne hmn).symm.trans hm)

end Names

/-- Every type has its plain name. -/
def PlainlyNamed (root : ProtoRoot) (st : GenState) : Prop :=
  PlainlyGiven root st.definitionNames ∧
    ∀ c ∈ st.calls, c.definitionName = plainName root c.typeName

theorem plainlyNamed_kept (hd : DistinctNames root) : Kept root (PlainlyNamed root) := by
  refine kept_of_met (fun {visited n st} hn hi => ?_) fun hi => hi
  refine ⟨getDefinitionName_plainlyGiven hd hi.1 hn, fun c hc => ?_⟩
  rcases List.mem_append.1 hc with hc | hc
  · exact hi.2 c hc
  · rw [List.mem_singleton.1 hc]
    exact getDefinitionName_plain hd hi.1 hn

section Search

variable {type : ProtoType}

variable (comments) in
theorem searchType_plainlyNamed (hd : DistinctNames root) (ht : type ∈ root.types) :
    PlainlyNamed root (searchType root comments type).2 :=
  searchType_keeps (plainlyNamed_kept hd) ht
    ⟨fun n d h => by simp [initialState] at h, by simp [initialState]⟩

end Search

section Layout

variable {start : JsString} {type : ProtoType}

theorem reached_of_call (ht : foundType root start = some type) {c : TypeCall}
    (hc : c ∈ searchCalls root comments start) : Reached root start c.typeName := by
  obtain ⟨_, _, _, hm, -⟩ := meets_of_call ht hc
  exact hm.reached ht

/-- Where names are distinct the type of every field is laid out. -/
theorem DistinctNames.typesLaidOut (comments : Comments) (hd : DistinctNames root)
    (hr : AllResolved root) (hf : FindsFullNames root) (ht : foundType root start = some type) :
    (searchLayout root comments start type).TypesLaidOut root start := by
  have hinOrder := searchLayout_inOrder comments ht
  have hfield : ∀ {path n}, (path, n) ∈ (searchLayout root comments start type).fields root start →
      LedTo root n ∧ (searchLayout root comments start type).name n = plainName root n := by
    intro path n hn
    obtain ⟨visited, st, hm⟩ := (mem_searchLayout_fields ht).1 hn
    have hplain := (searchType_plainlyNamed comments hd (mem_types_of_found ht)).2
    rw [← (searchCalls_of_found comments ht).1] at hplain
    exact ⟨hm.ledTo (mem_types_of_found ht),
      (hm.name_eq ht).trans (hplain _ (mem_calls_of_meets ht hm))⟩
  have htype : ∀ {m}, m ∈ (searchLayout root comments start type).types →
      LedTo root m ∧ (searchLayout root comments start type).name m = plainName root m :=
    fun hm => hfield (hinOrder.field _ hm)
  rintro ⟨path, n⟩ hn
  obtain ⟨hledTo, hname⟩ := hfield hn
  have hmem := mem_complexTypeNames.2 hledTo
  by_cases hi : (searchLayout root comments start type).Inside (path, n)
  · obtain ⟨m, hm, -, hshort⟩ := hi
    rwa [← hd.short m (mem_complexTypeNames.2 (htype hm).1) n hmem hshort]
  · obtain ⟨m, hm, hsame, -⟩ := hinOrder.first _ hn (inRoot_of_ledTo hr hf hledTo)
      (hname ▸ hd.inherited n hmem) hi
    have hplain : plainName root m = plainName root n :=
      (htype hm).2.symm.trans (hsame.trans hname)
    rwa [← hd.plain m (mem_complexTypeNames.2 (htype hm).1) n hmem hplain]

end Layout

variable (comments) in
/-- Where names are distinct, the definitions of a schema are those of the types that the message
leads to, each under its plain name, and every reference has its definition. -/
theorem generateSchema_definitions (hd : DistinctNames root) (hr : AllResolved root)
    (hf : FindsFullNames root) {typeName : JsString} {type : ProtoType}
    (ht : foundType root typeName = some type) :
    (∀ d, (generateSchema root comments typeName).defs.has d ↔
        ∃ m, Reached root typeName m ∧ plainName root m = d) ∧
      (∀ d ∈ (generateSchema root comments typeName).refs,
        (generateSchema root comments typeName).defs.has d) ∧
      ∀ m, Reached root typeName m →
        ∃ (c : TypeCall) (s : Schema), c.typeName = m ∧ c.definitionName = plainName root m ∧
          c.Describes root comments s ∧
          (generateSchema root comments typeName).defs.get (plainName root m) = some s := by
  have htype := root.lookupType_mem (lookupType_of_found ht)
  have hall : ExpandsAll root comments typeName := .of_layout ht (hd.typesLaidOut comments hr hf ht)
  obtain ⟨hcalls, -⟩ := searchCalls_of_found comments ht
  obtain ⟨-, -, hspec⟩ := searchCalls_spec root comments typeName
  have hplain : ∀ c ∈ searchCalls root comments typeName,
      c.definitionName = plainName root c.typeName := by
    rw [hcalls]
    exact (searchType_plainlyNamed comments hd htype).2
  have hhas : ∀ c ∈ searchCalls root comments typeName,
      (generateSchema root comments typeName).defs.has c.definitionName := by
    intro c hc
    obtain ⟨e, he, hn, hexp⟩ := hall c hc
    refine (defs_has_iff root comments typeName _).2 ⟨e, he, hexp, ?_⟩
    rw [hplain e he, hplain c hc, hn]
  refine ⟨fun d => ⟨fun h => ?_, ?_⟩, fun d h => ?_, fun m hm => ?_⟩
  · obtain ⟨c, hc, -, rfl⟩ := (defs_has_iff root comments typeName d).1 h
    exact ⟨c.typeName, reached_of_call ht hc, (hplain c hc).symm⟩
  · rintro ⟨m, hm, rfl⟩
    obtain ⟨c, hc, rfl⟩ := hall.met ht hm
    exact hplain c hc ▸ hhas c hc
  · obtain ⟨c, hc, -, rfl⟩ := call_of_ref h
    exact hhas c hc
  · obtain ⟨c, hc, rfl⟩ := hall.met ht hm
    obtain ⟨e, he, hn, hexp⟩ := hall c hc
    obtain ⟨⟨s, hs, hdescribes⟩, -⟩ := hspec e he hexp
    rw [hplain e he, hn] at hs
    exact ⟨e, s, hn, hn ▸ hplain e he, hdescribes, hs⟩

def treeType : ProtoType :=
  .mk (js "Tree") (js ".app.Tree")
    ((Map.empty.set (js "colour") (fieldOf "Colour" ".app.Colour")).set
      (js "children") { fieldOf "Tree" ".app.Tree" with repeated := true }) [] []

/-- Trees with a colour and trees inside. -/
def treeRoot : ProtoRoot :=
  rootOf [treeType]
    [⟨js "Colour", js ".app.Colour", (Map.empty.set (js "RED") 0).set (js "GREEN") 1⟩]

theorem generateSchema_definitions_tree :
    (generateSchema treeRoot noComments (js "app.Tree")).defs.has (js "Colour") := by
  have hd : DistinctNames treeRoot := ⟨by decide, by decide, by decide⟩
  have ht : foundType treeRoot (js "app.Tree") = some treeType := rfl
  have hcolour : Leads treeRoot (js "app.Tree") (js "app.Colour") :=
    ⟨treeType, rfl, fieldOf "Colour" ".app.Colour", List.mem_cons_self, rfl, rfl⟩
  have h := generateSchema_definitions noComments hd (rootOf_allResolved (by decide))
    (rootOf_findsFullNames (by decide)) ht
  exact (h.1 _).2 ⟨_, .single hcolour, rfl⟩

end DiiaApp
