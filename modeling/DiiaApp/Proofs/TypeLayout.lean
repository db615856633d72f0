import DiiaApp.TypeLayout
import Mathlib.Data.Set.Finite.Lemmas
import Mathlib.Order.WellFoundedSet

/-!
# Layouts in order

A root has one layout in order below a message, but for names and places of types that are no type
of a field (`Layout.InOrder.agree`). What decides a field's type, its name and whether the type
stands there are the fields before, which are finitely many.
-/

namespace DiiaApp

open Js

section Paths

variable {α : Type} [LinearOrder α] {i j : α}

/-- What comes before one more step is before the path, is the path, or takes an earlier step. -/
theorem lt_concat_iff : ∀ {p q : List α},
    p < q ++ [j] ↔ p < q ∨ p = q ∨ ∃ i < j, ∃ r, p = q ++ i :: r
  | [], [] => by simp
  | [], b :: q => by simp
  | a :: p, [] => by simp [List.cons_lt_cons_iff]
  | a :: p, b :: q => by
    rw [List.cons_append, List.cons_lt_cons_iff, List.cons_lt_cons_iff, lt_concat_iff (p := p)]
    constructor
    · rintro (h | ⟨rfl, h | rfl | ⟨i, hi, r, rfl⟩⟩)
      · exact .inl (.inl h)
      · exact .inl (.inr ⟨rfl, h⟩)
      · exact .inr (.inl rfl)
      · exact .inr (.inr ⟨i, hi, r, rfl⟩)
    · rintro ((h | ⟨rfl, h⟩) | h | ⟨i, hi, r, h⟩)
      · exact .inl h
      · exact .inr ⟨rfl, .inl h⟩
      · obtain ⟨rfl, rfl⟩ := List.cons.inj h
        exact .inr ⟨rfl, .inr (.inl rfl)⟩
      · obtain ⟨rfl, rfl⟩ := List.cons.inj h
        exact .inr ⟨rfl, .inr (.inr ⟨i, hi, r, rfl⟩)⟩

theorem lt_concat (p : List α) (j : α) : p < p ++ [j] := lt_concat_iff.2 (.inr (.inl rfl))

theorem lt_concat_of_lt {p q : List α} (h : p < q) (j : α) : p < q ++ [j] :=
  lt_concat_iff.2 (.inl h)

theorem step_lt_concat (p r : List α) (h : i < j) : p ++ i :: r < p ++ [j] :=
  lt_concat_iff.2 (.inr (.inr ⟨i, h, r, rfl⟩))

theorem le_of_beginning {p q : List α} (h : p <+: q) : p ≤ q := by
  obtain ⟨r, rfl⟩ := h
  induction r using List.reverseRecOn with
  | nil => rw [List.append_nil]
  | append_singleton r j ih =>
    rw [← List.append_assoc]
    exact ih.trans (lt_concat _ j).le

end Paths

/-- One entry is at a position of a list. -/
theorem split_unique {α : Type} {before after before' after' : List α} {e e' : α}
    (h : before ++ e :: after = before' ++ e' :: after') (hlen : before.length = before'.length) :
    before = before' ∧ e = e' := by
  obtain ⟨rfl, hrest⟩ := List.append_inj h hlen
  exact ⟨rfl, (List.cons.inj hrest).1⟩

variable {root : ProtoRoot}

theorem lookupType_of_found {typeName : JsString} {type : ProtoType}
    (ht : foundType root typeName = some type) : root.lookupType typeName = some type := by
  unfold foundType at ht
  split_ifs at ht
  exact ht

theorem not_inRoot_iff {n : JsString} :
    ¬ InRoot root n ↔ root.lookupType n = none ∧ root.lookupEnum n = none := by
  simp [InRoot]

theorem mem_complexFields {message : ProtoType} {i : ℕ} {n : JsString} :
    (i, n) ∈ complexFields message ↔ ∃ before e after,
      message.fields.entries = before ++ e :: after ∧ before.length = i ∧
        protoToJsonType e.2.type = none ∧ resolvedTypeName message e.2 = n := by
  rw [complexFields, List.mem_filterMap]
  constructor
  · rintro ⟨⟨e, j⟩, he, hf⟩
    obtain ⟨hj, he⟩ := List.mem_zipIdx' he
    split_ifs at hf with hs
    obtain ⟨rfl, rfl⟩ := Prod.mk.inj (Option.some.inj hf)
    refine ⟨message.fields.entries.take j, e, message.fields.entries.drop (j + 1), ?_, ?_,
      Option.isNone_iff_eq_none.1 hs, rfl⟩
    · rw [he, ← List.drop_eq_getElem_cons hj, List.take_append_drop]
    · rw [List.length_take, Nat.min_eq_left hj.le]
  · rintro ⟨before, e, after, h, rfl, hs, rfl⟩
    refine ⟨(e, before.length), ?_, if_pos (Option.isNone_iff_eq_none.2 hs)⟩
    rw [h, List.mem_zipIdx_iff_getElem?, List.getElem?_append_right le_rfl, Nat.sub_self,
      List.getElem?_cons_zero]

theorem complexFields_unique {message : ProtoType} {i : ℕ} {n m : JsString}
    (hn : (i, n) ∈ complexFields message) (hm : (i, m) ∈ complexFields message) : n = m := by
  obtain ⟨before, e, after, h, hi, -, rfl⟩ := mem_complexFields.1 hn
  obtain ⟨before', e', after', h', hi', -, rfl⟩ := mem_complexFields.1 hm
  obtain ⟨-, rfl⟩ := split_unique (h.symm.trans h') (hi.trans hi'.symm)
  rfl

namespace Layout

variable {start : JsString} {l l' : Layout} {f : List ℕ × JsString} {n m : JsString} {path : List ℕ}

theorem mem_fields : (path, n) ∈ l.fields root start ↔ ∃ owner message i,
    (∀ p ∈ owner, p ∈ l.types) ∧ ownerMessage root start owner = some message ∧
      (i, n) ∈ complexFields message ∧ path = owner.elim [] l.place ++ [i] := by
  simp only [fields, List.mem_flatMap, List.mem_map]
  constructor
  · rintro ⟨owner, ho, ⟨i, m⟩, hf, heq⟩
    obtain ⟨rfl, rfl⟩ := Prod.mk.inj heq
    rcases hm : ownerMessage root start owner with _ | message
    · rw [hm] at hf
      exact absurd hf List.not_mem_nil
    · refine ⟨owner, message, i, ?_, hm, by rwa [hm] at hf, rfl⟩
      rcases List.mem_cons.1 ho with rfl | ho
      · simp
      · obtain ⟨p, hp, rfl⟩ := List.mem_map.1 ho
        simpa using hp
  · rintro ⟨owner, message, i, ho, hm, hf, hpath⟩
    refine ⟨owner, ?_, (i, n), by rwa [hm], Prod.ext hpath.symm rfl⟩
    rcases owner with _ | p
    · exact List.mem_cons_self
    · exact List.mem_cons_of_mem _ (List.mem_map_of_mem (ho p rfl))

theorem InOrder.place_ne_nil (h : l.InOrder root start) (hn : n ∈ l.types) : l.place n ≠ [] := by
  obtain ⟨_, _, _, -, -, -, hp⟩ := mem_fields.1 (h.field n hn)
  rw [hp]
  exact List.append_ne_nil_of_right_ne_nil _ (List.cons_ne_nil _ _)

/-- One field stands at a place. -/
theorem InOrder.unique (h : l.InOrder root start) (hn : (path, n) ∈ l.fields root start)
    (hm : (path, m) ∈ l.fields root start) : n = m := by
  induction path using List.reverseRecOn generalizing n m with
  | nil =>
    obtain ⟨_, _, _, -, -, -, hp⟩ := mem_fields.1 hn
    exact absurd hp.symm (List.append_ne_nil_of_right_ne_nil _ (List.cons_ne_nil _ _))
  | append_singleton path i ih =>
    obtain ⟨o, message, j, ho, hmessage, hf, hp⟩ := mem_fields.1 hn
    obtain ⟨o', message', j', ho', hmessage', hf', hp'⟩ := mem_fields.1 hm
    obtain ⟨rfl, hj⟩ := List.append_inj' hp rfl
    obtain ⟨hplace, hj'⟩ := List.append_inj' hp' rfl
    obtain rfl := List.head_eq_of_cons_eq hj
    obtain rfl := List.head_eq_of_cons_eq hj'
    have howner : o = o' := by
      rcases o with _ | p <;> rcases o' with _ | p'
      · rfl
      · exact absurd hplace.symm (h.place_ne_nil (ho' p' rfl))
      · exact absurd hplace (h.place_ne_nil (ho p rfl))
      · have hfield := h.field p' (ho' p' rfl)
        rw [← show l.place p = l.place p' from hplace] at hfield
        rw [ih (h.field p (ho p rfl)) hfield]
    subst howner
    obtain rfl := Option.some.inj (hmessage.symm.trans hmessage')
    exact complexFields_unique hf hf'

theorem exists_first (hf : (path, n) ∈ l.fields root start) : ∃ first,
    (first, n) ∈ l.fields root start ∧ ∀ g ∈ l.fields root start, g.2 = n → first ≤ g.1 := by
  have hfinite : {g | g ∈ l.fields root start ∧ g.2 = n}.Finite :=
    (List.finite_toSet (l.fields root start)).subset fun _ hg => hg.1
  obtain ⟨⟨first, m⟩, ⟨hfirst, rfl⟩, hmin⟩ :=
    Set.exists_min_image _ Prod.fst hfinite ⟨(path, n), hf, rfl⟩
  exact ⟨first, hfirst, fun g hg hn => hmin g ⟨hg, hn⟩⟩

theorem taken_iff_first {first : List ℕ} (hf : (first, n) ∈ l.fields root start)
    (hmin : ∀ g ∈ l.fields root start, g.2 = n → first ≤ g.1) :
    l.Taken root start n ↔
      ∃ g ∈ l.fields root start, l.name g.2 = shortNameOf n ∧ g.1 < first := by
  constructor
  · rintro ⟨g, hg, -, hname, hall⟩
    exact ⟨g, hg, hname, hall _ hf rfl⟩
  · rintro ⟨g, hg, hname, hlt⟩
    exact ⟨g, hg, fun hn => (hmin g hg hn).not_gt hlt, hname, fun k hk hn =>
      hlt.trans_le (hmin k hk hn)⟩

/-- A field of one layout is a field of the other, of the same name, and the type stands there in
both or in none. -/
structure SharesField (root : ProtoRoot) (start : JsString) (l l' : Layout)
    (f : List ℕ × JsString) : Prop where
  field : f ∈ l'.fields root start
  name : l.name f.2 = l'.name f.2
  place : f.2 ∈ l.types → l.place f.2 = f.1 → f.2 ∈ l'.types ∧ l'.place f.2 = f.1

/-- The layouts share the fields at a path. -/
def Shares (root : ProtoRoot) (start : JsString) (l l' : Layout) (path : List ℕ) : Prop :=
  ∀ n, (path, n) ∈ l.fields root start → SharesField root start l l' (path, n)

section Agree

variable (h : l.InOrder root start) (h' : l'.InOrder root start)
  (hbefore : ∀ p < path, Shares root start l l' p ∧ Shares root start l' l p)

include hbefore

theorem shares_taken (hf : (path, n) ∈ l.fields root start)
    (hfirst : ∀ p < path, (p, n) ∉ l.fields root start) (ht : l.Taken root start n) :
    l'.Taken root start n := by
  obtain ⟨⟨p, m⟩, hm, hne, hname, hall⟩ := ht
  have hlt : p < path := hall (path, n) hf rfl
  have hshared := (hbefore p hlt).1 m hm
  refine ⟨(p, m), hshared.field, hne, hshared.name ▸ hname, ?_⟩
  rintro ⟨q, k⟩ hg rfl
  rcases lt_or_ge q path with hq | hq
  · exact absurd ((hbefore q hq).2 _ hg).field (hfirst q hq)
  · exact hlt.trans_le hq

include h

theorem shares_type (hn : n ∈ l.types) (hlt : l.place n < path) :
    n ∈ l'.types ∧ l'.place n = l.place n :=
  ((hbefore _ hlt).1 n (h.field n hn)).place hn rfl

theorem shares_field (hf : (path, n) ∈ l.fields root start) : (path, n) ∈ l'.fields root start := by
  obtain ⟨owner, message, i, ho, hm, hn, hp⟩ := mem_fields.1 hf
  refine mem_fields.2 ⟨owner, message, i, ?_, hm, hn, ?_⟩
  · rintro p hp'
    obtain rfl : owner = some p := hp'
    exact (shares_type h hbefore (ho p rfl) (hp ▸ lt_concat _ i)).1
  · rcases owner with _ | p
    · exact hp
    · rw [hp]
      exact congrArg (· ++ [i]) (shares_type h hbefore (ho p rfl) (hp ▸ lt_concat _ i)).2.symm

theorem shares_inside (hf : (path, n) ∈ l.fields root start) (hi : l.Inside (path, n)) :
    l'.Inside (path, n) := by
  obtain ⟨m, hm, hp, hshort⟩ := hi
  obtain ⟨o, _, i, -, -, -, hpath⟩ := mem_fields.1 hf
  have hlt : l.place m < path := by
    refine (le_of_beginning hp).trans_lt ?_
    rw [show path = _ from hpath, List.dropLast_concat]
    exact lt_concat _ i
  obtain ⟨hm', hplace⟩ := shares_type h hbefore hm hlt
  exact ⟨m, hm', hplace ▸ hp, hshort⟩

include h' in
theorem shares_name (hf : (path, n) ∈ l.fields root start) : l.name n = l'.name n := by
  by_cases hearlier : ∃ p < path, (p, n) ∈ l.fields root start
  · obtain ⟨p, hlt, hp⟩ := hearlier
    exact ((hbefore p hlt).1 n hp).name
  · have hfirst : ∀ p < path, (p, n) ∉ l.fields root start :=
      fun p hlt hp => hearlier ⟨p, hlt, hp⟩
    have hfirst' : ∀ p < path, (p, n) ∉ l'.fields root start :=
      fun p hlt hp => hfirst p hlt ((hbefore p hlt).2 n hp).field
    have hf' := shares_field h hbefore hf
    have htaken : l.Taken root start n ↔ l'.Taken root start n :=
      ⟨shares_taken hbefore hf hfirst,
        shares_taken (fun p hlt => (hbefore p hlt).symm) hf' hfirst'⟩
    rw [h.named _ hf, h'.named _ hf']
    simp only [htaken]

include h' in
theorem shares_place (hf : (path, n) ∈ l.fields root start) (hn : n ∈ l.types)
    (hp : l.place n = path) : n ∈ l'.types ∧ l'.place n = path := by
  have hname := shares_name h h' hbefore hf
  have hsymm : ∀ p < path, Shares root start l' l p ∧ Shares root start l l' p :=
    fun p hlt => (hbefore p hlt).symm
  have hf' := shares_field h hbefore hf
  have hout : ¬ l'.Inside (path, n) := fun hi =>
    h.outside n hn (hp.symm ▸ shares_inside h' hsymm hf' hi)
  obtain ⟨m, hm, hmn, hle⟩ := h'.first _ hf' (h.inRoot n hn) (hname ▸ h.inherited n hn) hout
  rcases hle.lt_or_eq with hlt | heq
  · -- a type of its name stands before in both
    obtain ⟨hm', hplace⟩ := shares_type h' hsymm hm hlt
    have hmname := ((hbefore _ hlt).2 m (h'.field m hm)).name
    obtain rfl := h.distinct m hm' n hn (hmname.symm.trans (hmn.trans hname.symm))
    exact absurd (hplace.symm.trans hp) hlt.ne
  · have hfield := h'.field m hm
    rw [show l'.place m = path from heq] at hfield
    obtain rfl := h'.unique hfield hf'
    exact ⟨hm, heq⟩

include h' in
theorem shares_of_before : Shares root start l l' path := fun _ hf =>
  ⟨shares_field h hbefore hf, shares_name h h' hbefore hf, shares_place h h' hbefore hf⟩

end Agree

/-- Layouts in order share all fields. -/
theorem InOrder.shares (h : l.InOrder root start) (h' : l'.InOrder root start) (path : List ℕ) :
    Shares root start l l' path ∧ Shares root start l' l path := by
  have hstep : ∀ path, (∀ p < path, Shares root start l l' p ∧ Shares root start l' l p) →
      Shares root start l l' path ∧ Shares root start l' l path := fun path hbefore =>
    ⟨shares_of_before h h' hbefore, shares_of_before h' h fun p hlt => (hbefore p hlt).symm⟩
  -- the induction is on the paths of fields: where no field stands there is nothing to share
  set paths := {p | p ∈ (l.fields root start ++ l'.fields root start).map Prod.fst}
  have hmem : ∀ {p n}, (p, n) ∈ l.fields root start ∨ (p, n) ∈ l'.fields root start → p ∈ paths :=
    fun {p n} hf => List.mem_map.2 ⟨(p, n), List.mem_append.2 hf, rfl⟩
  have hempty : ∀ p ∉ paths, Shares root start l l' p ∧ Shares root start l' l p := fun p hp =>
    ⟨fun n hf => absurd (hmem (.inl hf)) hp, fun n hf => absurd (hmem (.inr hf)) hp⟩
  have hfinite : paths.WellFoundedOn (· < ·) := (List.finite_toSet _).wellFoundedOn
  by_cases hpath : path ∈ paths
  · refine hfinite.induction (P := fun p => Shares root start l l' p ∧ Shares root start l' l p)
      hpath fun p _ ih => hstep p fun q hlt => ?_
    by_cases hq : q ∈ paths
    · exact ih q hq hlt
    · exact hempty q hq
  · exact hempty path hpath

theorem InOrder.field_iff (h : l.InOrder root start) (h' : l'.InOrder root start) :
    f ∈ l.fields root start ↔ f ∈ l'.fields root start :=
  ⟨fun hf => ((h.shares h' f.1).1 f.2 hf).field, fun hf => ((h.shares h' f.1).2 f.2 hf).field⟩

theorem InOrder.name_eq (h : l.InOrder root start) (h' : l'.InOrder root start)
    (hf : f ∈ l.fields root start) : l.name f.2 = l'.name f.2 := ((h.shares h' f.1).1 f.2 hf).name

theorem InOrder.types_subset (h : l.InOrder root start) (h' : l'.InOrder root start) :
    l.types ⊆ l'.types :=
  fun n hn => (((h.shares h' _).1 n (h.field n hn)).place hn rfl).1

theorem InOrder.place_eq (h : l.InOrder root start) (h' : l'.InOrder root start)
    (hn : n ∈ l.types) : l.place n = l'.place n :=
  (((h.shares h' _).1 n (h.field n hn)).place hn rfl).2.symm

section Transfer

variable (h : l.InOrder root start) (h' : l'.InOrder root start)

include h h'

theorem InOrder.inside (hi : l.Inside f) : l'.Inside f := by
  obtain ⟨n, hn, hp, hshort⟩ := hi
  exact ⟨n, h.types_subset h' hn, h.place_eq h' hn ▸ hp, hshort⟩

theorem InOrder.type_name_eq (hn : n ∈ l.types) : l.name n = l'.name n :=
  h.name_eq h' (h.field n hn)

theorem InOrder.refersAt (hf : f ∈ l.fields root start) (hr : l.RefersAt f) : l'.RefersAt f := by
  have hname := h.name_eq h' hf
  rcases hr with ⟨n, hn, hnf, hlt⟩ | hi | hi
  · refine .inl ⟨n, h.types_subset h' hn, ?_, h.place_eq h' hn ▸ hlt⟩
    rw [← h.type_name_eq h' hn, ← hname, hnf]
  · exact .inr (.inl (hname ▸ hi))
  · exact .inr (.inr (h.inside h' hi))

theorem InOrder.refersAt_iff (hf : f ∈ l.fields root start) : l.RefersAt f ↔ l'.RefersAt f :=
  ⟨h.refersAt h' hf, h'.refersAt h ((h.field_iff h').1 hf)⟩

theorem InOrder.namesLaidOut (hl : l.NamesLaidOut root start) : l'.NamesLaidOut root start where
  inherited f hf := by
    have hf' := (h.field_iff h').2 hf
    rw [← h.name_eq h' hf']
    exact hl.inherited f hf'
  inside f hf hi := by
    have hf' := (h.field_iff h').2 hf
    obtain ⟨n, hn, hname⟩ := hl.inside f hf' (h'.inside h hi)
    exact ⟨n, h.types_subset h' hn, by rw [← h.type_name_eq h' hn, ← h.name_eq h' hf', hname]⟩

theorem InOrder.typesLaidOut (hl : l.TypesLaidOut root start) : l'.TypesLaidOut root start :=
  fun f hf => h.types_subset h' (hl f ((h.field_iff h').2 hf))

theorem InOrder.refersAlike {type : ProtoType} (ht : foundType root start = some type)
    (hl : l.RefersAlike root start type) : l'.RefersAlike root start type where
  self := h.types_subset h' hl.self
  alike f hf hin := by
    have htop : ([f.1], f.2) ∈ l.fields root start :=
      mem_fields.2 ⟨none, type, f.1, by simp, ht, hf, rfl⟩
    have hbelow : (l.place start ++ [f.1], f.2) ∈ l.fields root start :=
      mem_fields.2 ⟨some start, type, f.1, by simpa using hl.self, lookupType_of_found ht, hf,
        rfl⟩
    rw [← h.refersAt_iff h' htop, ← h.place_eq h' hl.self, ← h.refersAt_iff h' hbelow]
    exact hl.alike f hf hin

end Transfer

end Layout

end DiiaApp
