import DiiaApp.Proofs.SearchLayout

/-!
# References and their definitions

A call of the search refers to its name where the name is defined, where its type is expanded, or
where it stops: at a name that every object inherits, or inside of a type of the short name. So the
references of a schema have their definitions just where the names at which it stops are those of
types that are laid out (`refs_defined`).
-/

namespace DiiaApp

open Js

variable {root : ProtoRoot} {comments : Comments}

/-- Every reference in a schema is one of a call. -/
theorem call_of_ref {start d : JsString} (h : d ∈ (generateSchema root comments start).refs) :
    ∃ c ∈ searchCalls root comments start, c.Refers root ∧ c.definitionName = d := by
  revert h
  unfold generateSchema searchCalls
  rcases (if start = [] then none else root.lookupType start) with _ | type
  · simp [JsonSchema.refs, JsonSchema.defs, Schema.refsAll, Map.empty, Map.values]
  dsimp only
  have hg := searchType_grows root comments type
  rw [JsonSchema.refs, defs_typeToSchema]
  intro h
  rcases List.mem_append.1 h with h | h
  · exact hg.referred h
  · obtain ⟨s, hs, hm⟩ := List.mem_flatMap.1 h
    obtain ⟨e, he⟩ := Map.mem_values.1 hs
    rcases hg.made he with h0 | ⟨-, hrefs⟩
    · exact absurd h0 (by simp [initialState])
    · exact hrefs d hm

section Found

variable {start : JsString} {type : ProtoType} {c : TypeCall}

/-- The name of a call that refers is one of the references in the schema. -/
theorem mem_refs_of_call (ht : foundType root start = some type)
    (hc : c ∈ searchCalls root comments start) (h : c.Refers root) :
    c.definitionName ∈ (generateSchema root comments start).refs := by
  obtain ⟨hcalls, hschema⟩ := searchCalls_of_found comments ht
  rw [hschema, JsonSchema.refs, defs_typeToSchema]
  rw [hcalls] at hc
  rw [List.mem_append]
  refine ((searchType_grows root comments type).refers hc h).imp_right ?_
  rintro ⟨d, s, hs, hm⟩
  exact List.mem_flatMap.2 ⟨s, Map.mem_values.2 ⟨d, hs⟩, hm⟩

/-- A call that finds its name defined leaves it so. -/
theorem has_of_defined (ht : foundType root start = some type)
    (hc : c ∈ searchCalls root comments start) (hd : c.defined = true) :
    (generateSchema root comments start).defs.has c.definitionName := by
  obtain ⟨hcalls, hschema⟩ := searchCalls_of_found comments ht
  rw [hschema, defs_typeToSchema]
  exact (searchType_grows root comments type).defined (hcalls ▸ hc) hd

variable (root) in
theorem refers_of_refersAnyway (h : c.RefersAnyway) : c.Refers root := by
  by_cases hd : c.defined = true
  · exact .inl hd
  · exact .inr (.inl ⟨Bool.not_eq_true _ ▸ hd, h.resolve_left hd⟩)

/-- Where every reference has its definition, the names of the types around and of what every object
inherits are laid out. -/
theorem searchLayout_namesLaidOut (ht : foundType root start = some type)
    (h : ∀ d ∈ (generateSchema root comments start).refs,
      (generateSchema root comments start).defs.has d) :
    (searchLayout root comments start type).NamesLaidOut root start := by
  have hlaid : ∀ f ∈ (searchLayout root comments start type).fields root start,
      (searchLayout root comments start type).RefersAt f →
      ∃ n ∈ (searchLayout root comments start type).types,
        (searchLayout root comments start type).name n
          = (searchLayout root comments start type).name f.2 := by
    rintro ⟨path, n⟩ hf hr
    obtain ⟨visited, st, hm⟩ := (mem_searchLayout_fields ht).1 hf
    have hrefers := refers_of_refersAnyway root ((refersAnyway_iff ht hm).2 hr)
    exact (has_iff_type ht hm).1 (h _ (mem_refs_of_call ht (mem_calls_of_meets ht hm) hrefers))
  refine ⟨fun f hf hi => ?_, fun f hf hi => hlaid f hf (.inr (.inr hi))⟩
  obtain ⟨n, hn, hname⟩ := hlaid f hf (.inr (.inl hi))
  exact (searchLayout_inOrder comments ht).inherited n hn (hname ▸ hi)

theorem has_of_refers (ht : foundType root start = some type)
    (h : (searchLayout root comments start type).NamesLaidOut root start)
    (hc : c ∈ searchCalls root comments start) (hr : c.Refers root) :
    (generateSchema root comments start).defs.has c.definitionName := by
  rcases hr with hd | ⟨-, hstops⟩ | he
  · exact has_of_defined ht hc hd
  · obtain ⟨path, visited, st, hm, hcall⟩ := meets_of_call ht hc
    have hf := (mem_searchLayout_fields ht).2 ⟨visited, st, hm⟩
    rw [← hcall] at hstops ⊢
    refine (has_iff_type ht hm).2 (h.inside _ hf ((visited_iff_inside ht hm).1 ?_))
    exact hstops.resolve_left fun hi => h.inherited _ hf ((hm.name_eq ht).symm ▸ hi)
  · exact (defs_has_iff root comments start _).2 ⟨c, hc, he, rfl⟩

end Found

/-- Nothing below a message. -/
def emptyLayout : Layout := ⟨[], fun _ => [], fun _ => []⟩

theorem emptyLayout_inOrder {start : JsString} (ht : foundType root start = none) :
    emptyLayout.InOrder root start ∧ emptyLayout.NamesLaidOut root start := by
  have hempty : ∀ f, f ∉ emptyLayout.fields root start := by
    simp [Layout.fields, emptyLayout, ownerMessage, ht]
  have hnone : ∀ n, n ∉ emptyLayout.types := fun _ => List.not_mem_nil
  constructor
  · exact ⟨fun n hn => absurd hn (hnone n), fun n hn => absurd hn (hnone n),
      fun n hn => absurd hn (hnone n), fun n hn => absurd hn (hnone n),
      fun n hn => absurd hn (hnone n), fun f hf => absurd hf (hempty f),
      fun f hf => absurd hf (hempty f)⟩
  · exact ⟨fun f hf => absurd hf (hempty f), fun f hf => absurd hf (hempty f)⟩

variable (root comments) in
/-- Every reference in a schema has its definition just where types can be laid out below the
message in order, no field being of a type with the name of what every object inherits, so that the
name of each type met inside of another of its short name is that of one laid out. -/
theorem refs_defined (start : JsString) :
    (∀ d ∈ (generateSchema root comments start).refs,
        (generateSchema root comments start).defs.has d) ↔
      ∃ l : Layout, l.InOrder root start ∧ l.NamesLaidOut root start := by
  rcases ht : foundType root start with _ | type
  · have hcalls : searchCalls root comments start = [] := by
      unfold foundType at ht
      rw [searchCalls, ht]
    refine iff_of_true (fun d hd => ?_) ⟨emptyLayout, emptyLayout_inOrder ht⟩
    obtain ⟨c, hc, -⟩ := call_of_ref hd
    exact absurd (hcalls ▸ hc) List.not_mem_nil
  · constructor
    · intro h
      exact ⟨_, searchLayout_inOrder comments ht, searchLayout_namesLaidOut ht h⟩
    · rintro ⟨l, h, hl⟩ d hd
      obtain ⟨c, hc, hr, rfl⟩ := call_of_ref hd
      exact has_of_refers ht (h.namesLaidOut (searchLayout_inOrder comments ht) hl) hc hr

/-- `app.Root` with an `a.Foo`, which has a `b.Foo`. -/
def sameShortName : ProtoRoot :=
  rootOf
    [.mk (js "Root") (js ".app.Root") (Map.empty.set (js "foo") (fieldOf "a.Foo" ".a.Foo")) [] [],
      fooOfPackageA, fooOfPackageB] []

/-- The reference to `b.Foo`, met inside `a.Foo`, has no definition. -/
theorem not_refs_defined :
    js "b.Foo" ∈ (generateSchema sameShortName noComments (js "app.Root")).refs ∧
    (generateSchema sameShortName noComments (js "app.Root")).defs.has (js "b.Foo") = false := by
  decide

end DiiaApp
