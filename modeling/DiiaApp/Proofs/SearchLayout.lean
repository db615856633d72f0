import DiiaApp.Proofs.SearchOrder

/-!
# The layout of a search

The types that a search expands, at the paths where it does, and the names that it gives are a
layout in order (`searchLayout_inOrder`). There is only one below a message, so its definitions are
those of the types of any layout in order (`generateSchema_layout`), and what a field refers to can
be read off the layout as well.
-/

namespace DiiaApp

open Js

variable (root : ProtoRoot) (comments : Comments)

instance (c : TypeCall) : Decidable (c.Expands root) :=
  inferInstanceAs (Decidable (_ ∧ _ ∧ _ ∧ (_ ∨ _)))

/-- The search meets the type at the path and expands it there. -/
def ExpandsAt (type : ProtoType) (n : JsString) (path : List ℕ) : Prop :=
  ∃ visited st, Meets root comments type path visited n st ∧
    (typeCall root visited n st).Expands root

/-- The name that the search gives to a type. -/
def nameGiven (start n : JsString) : JsString :=
  (((searchCalls root comments start).find? (·.typeName = n)).map TypeCall.definitionName).getD []

open Classical in
/-- The types that the search expands, and where it does. -/
noncomputable def searchLayout (start : JsString) (type : ProtoType) : Layout where
  types := ((searchCalls root comments start).filter (·.Expands root)).map TypeCall.typeName
  place n := if h : ∃ path, ExpandsAt root comments type n path then h.choose else []
  name := nameGiven root comments start

variable {root comments}

theorem nameGiven_of_call {start : JsString} {c : TypeCall}
    (hc : c ∈ searchCalls root comments start) :
    nameGiven root comments start c.typeName = c.definitionName := by
  rcases hfind : (searchCalls root comments start).find? (·.typeName = c.typeName) with _ | e
  · simpa using List.find?_eq_none.1 hfind c hc
  · rw [nameGiven, hfind]
    exact (searchCalls_spec root comments start).2.1 e (List.mem_of_find?_eq_some hfind) c hc
      (by simpa using List.find?_some hfind)

section Layout

variable {start n m : JsString} {type : ProtoType} {path path' : List ℕ}
  {visited visited' : List JsString} {st st' : GenState}

theorem mem_types_of_found (ht : foundType root start = some type) : type ∈ root.types :=
  root.lookupType_mem (lookupType_of_found ht)

theorem meets_of_call (ht : foundType root start = some type) {c : TypeCall}
    (hc : c ∈ searchCalls root comments start) : ∃ path visited st,
      Meets root comments type path visited c.typeName st ∧
        typeCall root visited c.typeName st = c := by
  rw [(searchCalls_of_found comments ht).1] at hc
  obtain ⟨rest, visited, st, hm, hcall⟩ := madeFrom (mem_types_of_found ht) hc
  exact ⟨_, visited, st, hm, hcall⟩

theorem mem_searchLayout (ht : foundType root start = some type) :
    n ∈ (searchLayout root comments start type).types ↔
      ∃ path, ExpandsAt root comments type n path := by
  simp only [searchLayout, List.mem_map, List.mem_filter, decide_eq_true_eq]
  constructor
  · rintro ⟨c, ⟨hc, he⟩, rfl⟩
    obtain ⟨path, visited, st, hm, hcall⟩ := meets_of_call ht hc
    exact ⟨path, visited, st, hm, hcall.symm ▸ he⟩
  · rintro ⟨path, visited, st, hm, he⟩
    exact ⟨_, ⟨mem_calls_of_meets ht hm, he⟩, rfl⟩

/-- The calls for a type have one name wherever it is met. -/
theorem Meets.nameGiven_eq (ht : foundType root start = some type)
    (hm : Meets root comments type path visited n st) :
    nameGiven root comments start n = (typeCall root visited n st).definitionName :=
  nameGiven_of_call (mem_calls_of_meets ht hm)

theorem Meets.name_eq (ht : foundType root start = some type)
    (hm : Meets root comments type path visited n st) :
    (searchLayout root comments start type).name n = (typeCall root visited n st).definitionName :=
  hm.nameGiven_eq ht

theorem ExpandsAt.path_eq (ht : foundType root start = some type)
    (h : ExpandsAt root comments type n path) (h' : ExpandsAt root comments type m path')
    (hname : (searchLayout root comments start type).name n
      = (searchLayout root comments start type).name m) : path = path' := by
  obtain ⟨visited, st, hm, he⟩ := h
  obtain ⟨visited', st', hm', he'⟩ := h'
  rw [hm.name_eq ht, hm'.name_eq ht] at hname
  exact hm.path_eq (mem_types_of_found ht) hm' he he' hname

theorem searchLayout_place (ht : foundType root start = some type)
    (h : ExpandsAt root comments type n path) :
    (searchLayout root comments start type).place n = path := by
  have hex : ∃ path, ExpandsAt root comments type n path := ⟨path, h⟩
  rw [searchLayout]
  dsimp only
  rw [dif_pos hex]
  exact hex.choose_spec.path_eq ht h rfl

theorem expandsAt_place (ht : foundType root start = some type)
    (h : n ∈ (searchLayout root comments start type).types) :
    ExpandsAt root comments type n ((searchLayout root comments start type).place n) := by
  obtain ⟨path, hpath⟩ := (mem_searchLayout ht).1 h
  rwa [searchLayout_place ht hpath]

/-- The fields of the layout are those whose types the search meets. -/
theorem mem_searchLayout_fields (ht : foundType root start = some type) :
    (path, n) ∈ (searchLayout root comments start type).fields root start ↔
      ∃ visited st, Meets root comments type path visited n st := by
  rw [Layout.mem_fields]
  constructor
  · rintro ⟨owner, message, i, ho, hmessage, hf, rfl⟩
    obtain ⟨before, e, after, hsplit, rfl, hs, rfl⟩ := mem_complexFields.1 hf
    rcases owner with _ | p
    · obtain rfl := Option.some.inj (ht.symm.trans hmessage)
      exact ⟨_, _, .own hsplit hs⟩
    · obtain ⟨visited, st, hm, he⟩ := expandsAt_place ht (ho p rfl)
      exact ⟨_, _, .inner hm (he.message hmessage) hmessage hsplit hs⟩
  · rintro ⟨visited, st, hm⟩
    cases hm with
    | own h hs =>
      exact ⟨none, type, _, by simp, ht, mem_complexFields.2 ⟨_, _, _, h, rfl, hs, rfl⟩, rfl⟩
    | @inner path₀ v p s message before e after hm he hl h hs =>
      have hat : ExpandsAt root comments type p path₀ := ⟨v, s, hm, he.expands⟩
      refine ⟨some p, message, _, ?_, hl, mem_complexFields.2 ⟨_, _, _, h, rfl, hs, rfl⟩, ?_⟩
      · rintro q ⟨⟩
        exact (mem_searchLayout ht).2 ⟨path₀, hat⟩
      · rw [← searchLayout_place ht hat]
        rfl

/-- What is around where a type is met are the names of the types over it. -/
theorem Meets.mem_visited (ht : foundType root start = some type)
    (hm : Meets root comments type path visited n st) {v : JsString} :
    v ∈ visited ↔ ∃ a ∈ (searchLayout root comments start type).types,
      (searchLayout root comments start type).place a <+: path.dropLast ∧
        (v = shortNameOf a ∨ v = a) := by
  induction hm with
  | own h hs =>
    simp only [List.not_mem_nil, false_iff, not_exists, not_and]
    intro a ha hp
    obtain ⟨_, _, hm, -⟩ := expandsAt_place ht ha
    exact absurd (List.prefix_nil.1 hp) hm.ne_nil
  | @inner path₀ visited p s message before e after hm he hl h hs ih =>
    have hat : ExpandsAt root comments type p path₀ := ⟨visited, s, hm, he.expands⟩
    have hp := (mem_searchLayout ht).2 ⟨path₀, hat⟩
    have hplace := searchLayout_place ht hat
    rw [List.dropLast_concat, inside, List.mem_cons, List.mem_cons, ih]
    constructor
    · rintro (hv | hv | ⟨a, ha, hpre, hv⟩)
      · exact ⟨p, hp, hplace ▸ List.prefix_rfl, .inl hv⟩
      · exact ⟨p, hp, hplace ▸ List.prefix_rfl, .inr hv⟩
      · exact ⟨a, ha, hpre.trans (List.dropLast_prefix path₀), hv⟩
    · rintro ⟨a, ha, hpre, hv⟩
      rw [← List.dropLast_concat_getLast hm.ne_nil, List.prefix_concat_iff,
        List.dropLast_concat_getLast hm.ne_nil] at hpre
      rcases hpre with heq | hpre
      · -- the type itself is the one expanded there
        obtain ⟨_, _, hma, -⟩ := expandsAt_place ht ha
        rw [heq] at hma
        obtain ⟨-, rfl, -⟩ := hma.unique hm
        exact hv.elim .inl fun h => .inr (.inl h)
      · exact .inr (.inr ⟨a, ha, hpre, hv⟩)

theorem visited_iff_inside (ht : foundType root start = some type)
    (hm : Meets root comments type path visited n st) :
    (typeCall root visited n st).visited = true ↔
      (searchLayout root comments start type).Inside (path, n) := by
  have hvisited : (typeCall root visited n st).visited = true ↔
      n ∈ visited ∨ shortNameOf n ∈ visited := decide_eq_true_iff
  rw [hvisited, hm.mem_visited ht, hm.mem_visited ht]
  constructor
  · rintro (⟨a, ha, hp, hv⟩ | ⟨a, ha, hp, hv⟩)
    · exact ⟨a, ha, hp, hv.elim (fun h => by rw [h, shortNameOf_shortNameOf]) fun h => by rw [h]⟩
    · exact ⟨a, ha, hp, hv.elim Eq.symm fun h => by rw [← h, shortNameOf_shortNameOf]⟩
  · rintro ⟨a, ha, hp, hshort⟩
    exact .inr ⟨a, ha, hp, .inl hshort.symm⟩

/-- A name is defined where a type before has it. -/
theorem defined_iff_before (ht : foundType root start = some type)
    (hm : Meets root comments type path visited n st) :
    (typeCall root visited n st).defined = true ↔
      ∃ m ∈ (searchLayout root comments start type).types,
        (searchLayout root comments start type).name m
            = (searchLayout root comments start type).name n ∧
          (searchLayout root comments start type).place m < path := by
  rw [hm.defined_iff (mem_types_of_found ht)]
  constructor
  · rintro ⟨path', v, m, s, hm', hlt, he, hd⟩
    have hat : ExpandsAt root comments type m path' := ⟨v, s, hm', he⟩
    refine ⟨m, (mem_searchLayout ht).2 ⟨path', hat⟩, ?_, searchLayout_place ht hat ▸ hlt⟩
    rw [hm'.name_eq ht, hm.name_eq ht, hd]
  · rintro ⟨m, hmem, hname, hlt⟩
    obtain ⟨v, s, hm', he⟩ := expandsAt_place ht hmem
    refine ⟨_, v, m, s, hm', hlt, he, ?_⟩
    rw [← hm'.name_eq ht, ← hm.name_eq ht, hname]

/-- The types of a search are a layout in order. -/
theorem searchLayout_inOrder (comments : Comments) (ht : foundType root start = some type) :
    (searchLayout root comments start type).InOrder root start where
  field n hn := by
    obtain ⟨visited, st, hm, -⟩ := expandsAt_place ht hn
    exact (mem_searchLayout_fields ht).2 ⟨visited, st, hm⟩
  outside n hn hi := by
    obtain ⟨visited, st, hm, he⟩ := expandsAt_place ht hn
    exact absurd (he.2.2.1.symm.trans ((visited_iff_inside ht hm).2 hi)) Bool.false_ne_true
  inRoot n hn := by
    obtain ⟨visited, st, hm, he⟩ := expandsAt_place ht hn
    exact he.2.2.2
  inherited n hn := by
    obtain ⟨visited, st, hm, he⟩ := expandsAt_place ht hn
    rw [hm.name_eq ht]
    exact he.2.1
  distinct n hn m hm hname := by
    have hn' := expandsAt_place ht hn
    have hm' := expandsAt_place ht hm
    have hpath := hn'.path_eq ht hm' hname
    obtain ⟨_, _, hmn, -⟩ := hn'
    obtain ⟨_, _, hmm, -⟩ := hm'
    exact (hmn.unique (hpath ▸ hmm)).2.1
  first := by
    rintro ⟨path, n⟩ hf hin hinherited hout
    obtain ⟨visited, st, hm⟩ := (mem_searchLayout_fields ht).1 hf
    by_cases hd : (typeCall root visited n st).defined = true
    · obtain ⟨m, hmem, hname, hlt⟩ := (defined_iff_before ht hm).1 hd
      exact ⟨m, hmem, hname, hlt.le⟩
    · have hat : ExpandsAt root comments type n path := by
        refine ⟨visited, st, hm, Bool.not_eq_true _ ▸ hd, hm.name_eq ht ▸ hinherited, ?_, hin⟩
        rw [← Bool.not_eq_true, visited_iff_inside ht hm]
        exact hout
      exact ⟨n, (mem_searchLayout ht).2 ⟨path, hat⟩, rfl, (searchLayout_place ht hat).le⟩
  named := by
    rintro ⟨path, n⟩ hf
    dsimp only
    obtain ⟨first, hfirst, hmin⟩ := Layout.exists_first hf
    obtain ⟨visited, st, hm⟩ := (mem_searchLayout_fields ht).1 hfirst
    rw [hm.name_eq ht]
    by_cases hn : root.nestedInType n = true
    · rw [if_pos hn, hm.definitionName_nested (mem_types_of_found ht) hn]
    · have hbefore : (searchLayout root comments start type).Taken root start n ↔
          ∃ path' visited' m st', Meets root comments type path' visited' m st' ∧ path' < first ∧
            (typeCall root visited' m st').definitionName = shortNameOf n := by
        rw [Layout.taken_iff_first hfirst hmin]
        constructor
        · rintro ⟨⟨path', m⟩, hg, hname, hlt⟩
          obtain ⟨v, s, hm'⟩ := (mem_searchLayout_fields ht).1 hg
          exact ⟨path', v, m, s, hm', hlt, (hm'.name_eq ht).symm.trans hname⟩
        · rintro ⟨path', v, m, s, hm', hlt, hname⟩
          exact ⟨(path', m), (mem_searchLayout_fields ht).2 ⟨v, s, hm'⟩,
            (hm'.name_eq ht).trans hname, hlt⟩
      rw [if_neg hn]
      rcases hm.definitionName_first (mem_types_of_found ht) (Bool.not_eq_true _ ▸ hn)
        (fun path' v s hm' => (hmin (path', n)
          ((mem_searchLayout_fields ht).2 ⟨v, s, hm'⟩) rfl).not_gt) with ⟨htaken, hd⟩ | ⟨hfree, hd⟩
      · rw [if_pos (hbefore.2 htaken), hd]
      · rw [if_neg (hfree ∘ hbefore.1), hd]

theorem refersAnyway_iff (ht : foundType root start = some type)
    (hm : Meets root comments type path visited n st) :
    (typeCall root visited n st).RefersAnyway ↔
      (searchLayout root comments start type).RefersAt (path, n) := by
  rw [TypeCall.RefersAnyway, Layout.RefersAt, defined_iff_before ht hm, visited_iff_inside ht hm,
    hm.name_eq ht]

/-- There is a definition of a name that a type of the layout has. -/
theorem has_iff_type (ht : foundType root start = some type)
    (hm : Meets root comments type path visited n st) :
    (generateSchema root comments start).defs.has (typeCall root visited n st).definitionName ↔
      ∃ m ∈ (searchLayout root comments start type).types,
        (searchLayout root comments start type).name m
          = (searchLayout root comments start type).name n := by
  rw [defs_has_iff]
  constructor
  · rintro ⟨c, hc, he, hd⟩
    obtain ⟨path', v, s, hm', hcall⟩ := meets_of_call ht hc
    refine ⟨c.typeName, (mem_searchLayout ht).2 ⟨path', v, s, hm', hcall.symm ▸ he⟩, ?_⟩
    rw [hm'.name_eq ht, hm.name_eq ht, hcall, hd]
  · rintro ⟨m, hmem, hname⟩
    obtain ⟨v, s, hm', he⟩ := expandsAt_place ht hmem
    refine ⟨_, mem_calls_of_meets ht hm', he, ?_⟩
    rw [← hm'.name_eq ht, ← hm.name_eq ht, hname]

end Layout

/-- There is one layout in order below a message, and the definitions of its schema are those of the
types laid out, each under its name. -/
theorem generateSchema_layout (comments : Comments) {start : JsString} {type : ProtoType}
    (ht : foundType root start = some type) : ∃ l : Layout, l.InOrder root start ∧
      (∀ l' : Layout, l'.InOrder root start → l'.types ⊆ l.types ∧ l.types ⊆ l'.types ∧
        ∀ n ∈ l.types, l'.place n = l.place n ∧ l'.name n = l.name n) ∧
      (∀ d, (generateSchema root comments start).defs.has d ↔ ∃ n ∈ l.types, l.name n = d) ∧
      ∀ n ∈ l.types, ∃ (c : TypeCall) (s : Schema), c.typeName = n ∧ c.definitionName = l.name n ∧
        c.Describes root comments s ∧
        (generateSchema root comments start).defs.get (l.name n) = some s := by
  have hlayout := searchLayout_inOrder comments ht
  refine ⟨searchLayout root comments start type, hlayout, fun l' h' => ?_, fun d => ?_,
    fun n hn => ?_⟩
  · exact ⟨h'.types_subset hlayout, hlayout.types_subset h',
      fun n hn => ⟨(hlayout.place_eq h' hn).symm, (hlayout.type_name_eq h' hn).symm⟩⟩
  · rw [defs_has_iff]
    constructor
    · rintro ⟨c, hc, he, rfl⟩
      obtain ⟨path, visited, st, hm, hcall⟩ := meets_of_call ht hc
      exact ⟨c.typeName, (mem_searchLayout ht).2 ⟨path, visited, st, hm, hcall.symm ▸ he⟩,
        nameGiven_of_call hc⟩
    · rintro ⟨n, hn, rfl⟩
      obtain ⟨visited, st, hm, he⟩ := expandsAt_place ht hn
      exact ⟨_, mem_calls_of_meets ht hm, he, (hm.name_eq ht).symm⟩
  · obtain ⟨visited, st, hm, he⟩ := expandsAt_place ht hn
    obtain ⟨⟨s, hs, hdescribes⟩, -⟩ :=
      (searchCalls_spec root comments start).2.2 _ (mem_calls_of_meets ht hm) he
    rw [← hm.name_eq ht] at hs
    exact ⟨_, s, rfl, (hm.name_eq ht).symm, hdescribes, hs⟩

/-- `a.Foo`, which has a `b.Foo`. -/
def fooOfPackageA : ProtoType :=
  .mk (js "Foo") (js ".a.Foo") (Map.empty.set (js "other") (fieldOf "b.Foo" ".b.Foo")) [] []

def fooOfPackageB : ProtoType := .mk (js "Foo") (js ".b.Foo") Map.empty [] []

/-- `app.Root` with an `a.Foo` and a `b.Foo`. -/
def bothFoos : ProtoType :=
  .mk (js "Root") (js ".app.Root") ((Map.empty.set (js "foo") (fieldOf "a.Foo" ".a.Foo")).set
    (js "other") (fieldOf "b.Foo" ".b.Foo")) [] []

/-- The second `Foo` is met inside of the first, but at the top as well. -/
def bothFoosRoot : ProtoRoot := rootOf [bothFoos, fooOfPackageA, fooOfPackageB] []

def bothFoosLayout : Layout where
  types := [js "a.Foo", js "b.Foo"]
  place n := if n = js "a.Foo" then [0] else [1]
  name n := if n = js "a.Foo" then js "Foo" else js "b.Foo"

theorem bothFoosLayout_inOrder : bothFoosLayout.InOrder bothFoosRoot (js "app.Root") where
  field := by decide
  outside := by decide
  inRoot := by decide
  inherited := by decide
  distinct := by decide
  first := by decide
  named := by decide

theorem generateSchema_layout_bothFoos :
    (generateSchema bothFoosRoot noComments (js "app.Root")).defs.has (js "Foo") ∧
      (generateSchema bothFoosRoot noComments (js "app.Root")).defs.has (js "b.Foo") := by
  obtain ⟨l, -, hunique, hhas, -⟩ := generateSchema_layout noComments
    (show foundType bothFoosRoot (js "app.Root") = some bothFoos from rfl)
  obtain ⟨hsub, hsup, hsame⟩ := hunique _ bothFoosLayout_inOrder
  have hnamed : ∀ n ∈ bothFoosLayout.types, (generateSchema bothFoosRoot noComments
      (js "app.Root")).defs.has (bothFoosLayout.name n) := fun n hn =>
    (hhas _).2 ⟨n, hsub hn, (hsame n (hsub hn)).2.symm⟩
  exact ⟨hnamed (js "a.Foo") (by decide), hnamed (js "b.Foo") (by decide)⟩

end DiiaApp
