import DiiaApp.ProtoTree

/-!
# What merging and placeholders leave at a path

Both leave alone what is not free. At a free path a merge leaves what the source has there
(`slot_mergeAllInto`), and a placeholder an empty type at its own path and namespaces on the way
(`slot_placeAt`).
-/

namespace DiiaApp

open Js NameTree

variable {o : ProtoObject} {x : JsString}

theorem opens_iff {kind : ProtoKind} :
    opens kind x = true ↔ kind.isNamespace = true ∧ kind.memberNames.contains x = false := by
  rw [show opens kind x = (kind.isNamespace && !kind.memberNames.contains x) from rfl,
    Bool.and_eq_true, Bool.not_eq_true']

/-- Nothing is found under a name that is not there. -/
theorem child_of_get_none (h : ProtoObject.get o x = none) : o.child x = none := by
  unfold ProtoObject.get at h
  split_ifs at h
  exact h

/-- A namespace that is found is nested. -/
theorem child_of_get {e : ProtoObject} (h : ProtoObject.get o x = some e)
    (he : e.data.isNamespace = true) :
    o.child x = some e ∧ o.data.memberNames.contains x = false := by
  unfold ProtoObject.get at h
  split_ifs at h with hx
  · obtain ⟨rfl⟩ := h
    cases he
  · exact ⟨h, Bool.not_eq_true _ ▸ hx⟩

/-- What is found under a name that opens is nested. -/
theorem child_of_opens {e : ProtoObject} (h : ProtoObject.get o x = some e)
    (hx : opens o.data x = true) : o.child x = some e := by
  rwa [ProtoObject.get, if_neg (by rw [(opens_iff.1 hx).2]; decide)] at h

/-- Only in a namespace is a place free. -/
theorem isNamespace_of_free {p : DottedName} (h : o.slot p = .free) :
    p ≠ [] ∧ o.data.isNamespace = true := by
  rcases p with _ | ⟨x, p⟩
  · rw [slot_nil] at h
    cases h
  · by_cases hx : opens o.data x
    · exact ⟨List.cons_ne_nil x p, (opens_iff.1 hx).1⟩
    · rw [slot_cons_of_not_opens hx] at h
      cases h

theorem slot_of_get_none (h : ProtoObject.get o x = none) (hx : opens o.data x) (p : DottedName) :
    o.slot (x :: p) = .free := slot_cons_of_none hx (child_of_get_none h) p

mutual

theorem name_mergeIntoNamespace (target : ProtoObject) : ∀ source : ProtoObject,
    (mergeIntoNamespace target source).name = target.name ∧
      (mergeIntoNamespace target source).data = target.data
  | .mk name kind nested => by
    rw [mergeIntoNamespace]
    rcases ProtoObject.get target name with _ | existing
    · exact ⟨rfl, rfl⟩
    · dsimp only
      split_ifs
      · exact ⟨rfl, rfl⟩
      · exact ⟨rfl, rfl⟩

theorem name_mergeAllInto (target : ProtoObject) : ∀ sources : List ProtoObject,
    (mergeAllInto target sources).name = target.name ∧
      (mergeAllInto target sources).data = target.data
  | [] => ⟨rfl, rfl⟩
  | source :: sources => by
    rw [mergeAllInto]
    have h := name_mergeIntoNamespace target source
    have hs := name_mergeAllInto (mergeIntoNamespace target source) sources
    exact ⟨hs.1.trans h.1, hs.2.trans h.2⟩

end

theorem slot_mergeIntoNamespace_of_ne {target source : ProtoObject} (h : x ≠ source.name)
    (p : DottedName) : (mergeIntoNamespace target source).slot (x :: p) = target.slot (x :: p) := by
  obtain ⟨name, kind, nested⟩ := source
  rw [mergeIntoNamespace]
  rcases hg : ProtoObject.get target name with _ | existing
  · dsimp only
    rw [slot_setChild, if_neg fun hx => h hx.1]
  · dsimp only
    split_ifs with hn
    · rw [Bool.and_eq_true] at hn
      have hname := (name_mergeAllInto existing nested).1
      rw [name_of_child (child_of_get hg hn.1).1] at hname
      rw [slot_setChild, hname, if_neg fun hx => h hx.1]
    · rfl

theorem slot_mergeAllInto_of_ne {p : DottedName} : ∀ {sources : List ProtoObject}
    {target : ProtoObject}, (∀ source ∈ sources, x ≠ source.name) →
      (mergeAllInto target sources).slot (x :: p) = target.slot (x :: p)
  | [], _, _ => rfl
  | source :: sources, target, h => by
    rw [mergeAllInto,
      slot_mergeAllInto_of_ne fun s hs => h s (List.mem_cons_of_mem _ hs),
      slot_mergeIntoNamespace_of_ne (h source List.mem_cons_self)]

/-- Where both are namespaces, what is under the name is the merge of the two. -/
theorem slot_mergeIntoNamespace_of_get {target existing : ProtoObject} {name : JsString}
    {kind : ProtoKind} (nested : List ProtoObject)
    (hg : ProtoObject.get target name = some existing) (he : existing.data.isNamespace = true)
    (hk : kind.isNamespace = true) (ho : opens target.data name) (p : DottedName) :
    (mergeIntoNamespace target (.mk name kind nested)).slot (name :: p) =
      (mergeAllInto existing nested).slot p := by
  have hname := (name_mergeAllInto existing nested).1
  rw [name_of_child (child_of_get hg he).1] at hname
  rw [mergeIntoNamespace, hg]
  dsimp only
  rw [he, hk, Bool.and_self, if_pos rfl, slot_setChild, hname, if_pos ⟨rfl, ho⟩]

mutual

/-- What is not free stays. -/
theorem keeps_mergeIntoNamespace {target : ProtoObject} : ∀ (source : ProtoObject)
    {p : DottedName}, target.slot p ≠ .free →
      (mergeIntoNamespace target source).slot p = target.slot p
  | source, [], _ => by
    rw [slot_nil, slot_nil, (name_mergeIntoNamespace target source).2]
  | .mk name kind nested, x :: p, h => by
    by_cases hx : x = name
    swap
    · exact slot_mergeIntoNamespace_of_ne hx p
    subst hx
    by_cases ho : opens target.data x
    swap
    · rw [slot_cons_of_not_opens ho, slot_cons_of_not_opens]
      rwa [(name_mergeIntoNamespace target _).2]
    rcases hg : ProtoObject.get target x with _ | existing
    · exact absurd (slot_of_get_none hg ho p) h
    · by_cases hn : existing.data.isNamespace = true ∧ kind.isNamespace = true
      · have hs := slot_cons_of_child ho (child_of_get hg hn.1).1 p
        rw [slot_mergeIntoNamespace_of_get nested hg hn.1 hn.2 ho, hs]
        exact keeps_mergeAllInto nested (hs ▸ h)
      · rw [mergeIntoNamespace, hg]
        dsimp only
        rw [if_neg (by rwa [Bool.and_eq_true])]

theorem keeps_mergeAllInto {target : ProtoObject} : ∀ (sources : List ProtoObject)
    {p : DottedName}, target.slot p ≠ .free →
      (mergeAllInto target sources).slot p = target.slot p
  | [], _, _ => rfl
  | source :: sources, p, h => by
    have hs := keeps_mergeIntoNamespace source h
    rw [mergeAllInto, keeps_mergeAllInto sources (hs ▸ h), hs]

end

mutual

/-- At a free path through its name a source leaves what it has there. -/
theorem slot_mergeIntoNamespace {target : ProtoObject} {d : ProtoKind} : ∀ {source : ProtoObject},
    source.Proper → ∀ {p : DottedName}, target.slot (source.name :: p) = .free →
      ((mergeIntoNamespace target source).slot (source.name :: p) = .taken d ↔
        source.slot p = .taken d)
  | .mk x kind nested, hp, p, h => by
    rw [name_mk] at h ⊢
    by_cases ho : opens target.data x
    swap
    · rw [slot_cons_of_not_opens ho] at h
      cases h
    rcases hg : ProtoObject.get target x with _ | existing
    · rw [mergeIntoNamespace, hg]
      dsimp only
      rw [slot_setChild, if_pos ⟨rfl, ho⟩]
    · have hf := h
      rw [slot_cons_of_child ho (child_of_opens hg ho)] at hf
      obtain ⟨hne, he⟩ := isNamespace_of_free hf
      obtain ⟨y, q, rfl⟩ := List.exists_cons_of_ne_nil hne
      by_cases hk : kind.isNamespace = true
      · have hn : (nested.map name).Nodup := hp.nodup
        have hin : ∀ s ∈ nested, s.Proper := fun _ hs => hp.inner hs
        rw [slot_mergeIntoNamespace_of_get nested hg he hk ho, slot_mergeAllInto hn hin hf,
          hp.slot_cons_eq_taken]
        rfl
      · rw [mergeIntoNamespace, hg]
        dsimp only
        rw [if_neg (by rw [Bool.and_eq_true]; exact fun hn => hk hn.2), h,
          slot_cons_of_not_opens fun hy : opens kind y = true => hk (opens_iff.1 hy).1]
        simp

/-- At a free path sources with different names leave what one of them has there. -/
theorem slot_mergeAllInto {d : ProtoKind} : ∀ {sources : List ProtoObject} {target : ProtoObject},
    (sources.map name).Nodup → (∀ s ∈ sources, s.Proper) → ∀ {x : JsString} {p : DottedName},
      target.slot (x :: p) = .free →
      ((mergeAllInto target sources).slot (x :: p) = .taken d ↔
        ∃ s ∈ sources, s.name = x ∧ s.slot p = .taken d)
  | [], target, _, _, x, p, h => by
    rw [mergeAllInto, h]
    simp
  | source :: sources, target, hn, hp, x, p, h => by
    rw [List.map_cons, List.nodup_cons] at hn
    rw [mergeAllInto]
    by_cases hx : source.name = x
    · subst hx
      have hs : ∀ s ∈ sources, source.name ≠ s.name := fun s hs hx =>
        hn.1 (hx ▸ List.mem_map_of_mem hs)
      rw [slot_mergeAllInto_of_ne hs, slot_mergeIntoNamespace (hp source List.mem_cons_self) h]
      constructor
      · exact fun hd => ⟨source, List.mem_cons_self, rfl, hd⟩
      · rintro ⟨s, hm, hx, hd⟩
        rcases List.mem_cons.1 hm with rfl | hm
        · exact hd
        · exact absurd hx.symm (hs s hm)
    · have hf : (mergeIntoNamespace target source).slot (x :: p) = target.slot (x :: p) :=
        slot_mergeIntoNamespace_of_ne (Ne.symm hx) p
      rw [slot_mergeAllInto hn.2 (fun s hs => hp s (List.mem_cons_of_mem _ hs)) (hf.trans h)]
      simp [hx]

end

/-- An object that is not found can be put into a namespace. -/
theorem opens_of_get_none (h : ProtoObject.get o x = none) (ho : o.data.isNamespace = true) :
    opens o.data x = true := by
  unfold ProtoObject.get at h
  split_ifs at h with hx
  exact opens_iff.2 ⟨ho, Bool.not_eq_true _ ▸ hx⟩

mutual

theorem proper_mergeIntoNamespace {target : ProtoObject} (ht : target.Proper)
    (hd : target.data.isNamespace = true) : ∀ {source : ProtoObject}, source.Proper →
      (mergeIntoNamespace target source).Proper
  | .mk x kind nested, hp => by
    rw [mergeIntoNamespace]
    rcases hg : ProtoObject.get target x with _ | existing
    · exact ht.setChild hp (opens_of_get_none hg hd)
    · dsimp only
      split_ifs with hn
      · rw [Bool.and_eq_true] at hn
        obtain ⟨hc, hx⟩ := child_of_get hg hn.1
        have hm := name_mergeAllInto existing nested
        refine ht.setChild (proper_mergeAllInto (ht.child hc) hn.1 fun s hs => hp.inner hs) ?_
        rw [hm.1, name_of_child hc]
        exact opens_iff.2 ⟨hd, hx⟩
      · exact ht

theorem proper_mergeAllInto {target : ProtoObject} (ht : target.Proper)
    (hd : target.data.isNamespace = true) : ∀ {sources : List ProtoObject},
      (∀ s ∈ sources, s.Proper) → (mergeAllInto target sources).Proper
  | [], _ => by
    rw [mergeAllInto]
    exact ht
  | source :: sources, hp => by
    rw [mergeAllInto]
    have hm := proper_mergeIntoNamespace ht hd (hp source List.mem_cons_self)
    refine proper_mergeAllInto hm ?_ fun s hs => hp s (List.mem_cons_of_mem _ hs)
    rw [(name_mergeIntoNamespace target source).2, hd]

end

theorem name_placeAt : ∀ (o : ProtoObject) (typeName : DottedName),
    (placeAt o typeName).name = o.name ∧ (placeAt o typeName).data = o.data
  | o, [] => ⟨rfl, rfl⟩
  | o, [name] => by
    rw [placeAt]
    cases ProtoObject.get o name with
    | none => exact ⟨rfl, rfl⟩
    | some existing => exact ⟨rfl, rfl⟩
  | o, part :: name :: rest => by
    rw [placeAt]
    cases ProtoObject.get o part with
    | none => exact ⟨rfl, rfl⟩
    | some next =>
      dsimp only
      split_ifs
      · exact ⟨rfl, rfl⟩
      · exact ⟨rfl, rfl⟩

/-- The object that `placeAt` goes on into: the one under the name, or a new namespace. -/
def nextOf (o : ProtoObject) (part : JsString) : ProtoObject :=
  (ProtoObject.get o part).getD (.mk part .plain [])

theorem slot_placeAt_of_ne {part : JsString} {typeName : DottedName} (hx : x ≠ part)
    (p : DottedName) : (placeAt o (part :: typeName)).slot (x :: p) = o.slot (x :: p) := by
  rcases typeName with _ | ⟨name, rest⟩
  · rw [placeAt]
    cases ProtoObject.get o part with
    | none => exact (slot_setChild ..).trans (if_neg fun hn => hx hn.1)
    | some existing => rfl
  · rw [placeAt]
    rcases hg : ProtoObject.get o part with _ | next
    · refine (slot_setChild ..).trans (if_neg fun hn => hx ?_)
      rw [hn.1, (name_placeAt _ _).1, name_mk]
    · dsimp only
      split_ifs with hk
      · refine (slot_setChild ..).trans (if_neg fun hn => hx ?_)
        rw [hn.1, (name_placeAt _ _).1, name_of_child (child_of_get hg hk).1]
      · rfl

theorem slot_placeAt_of_last (ho : opens o.data x = true) (p : DottedName) :
    (placeAt o [x]).slot (x :: p) =
      if ProtoObject.get o x = none then (mk x .empty [] : ProtoObject).slot p
      else o.slot (x :: p) := by
  rw [placeAt]
  cases ProtoObject.get o x with
  | none => exact (slot_setChild ..).trans (if_pos ⟨rfl, ho⟩)
  | some existing => rfl

theorem slot_placeAt_of_next {name : JsString} {rest : DottedName} (ho : opens o.data x = true)
    (hn : (nextOf o x).data.isNamespace = true) (p : DottedName) :
    (placeAt o (x :: name :: rest)).slot (x :: p) =
      (placeAt (nextOf o x) (name :: rest)).slot p := by
  rw [placeAt]
  unfold nextOf at hn ⊢
  rcases hg : ProtoObject.get o x with _ | next
  · refine (slot_setChild ..).trans (if_pos ⟨?_, ho⟩)
    rw [(name_placeAt _ _).1, name_mk]
  · rw [hg, Option.getD_some] at hn
    dsimp only
    rw [if_pos hn]
    refine (slot_setChild ..).trans (if_pos ⟨?_, ho⟩)
    rw [(name_placeAt _ _).1, name_of_child (child_of_get hg hn).1]

/-- In a new object that is a namespace every path is free. -/
theorem slot_new {kind : ProtoKind} (hk : ∀ y : JsString, opens kind y = true) :
    ∀ {p : DottedName}, p ≠ [] → (mk x kind [] : ProtoObject).slot p = .free
  | [], h => absurd rfl h
  | y :: p, _ => slot_cons_of_none (hk y) rfl p

theorem opens_plain (y : JsString) : opens ProtoKind.plain y = true := rfl

theorem opens_empty (y : JsString) : opens ProtoKind.empty y = true := rfl

/-- What is not free stays. -/
theorem keeps_placeAt : ∀ {typeName : DottedName} {o : ProtoObject} {p : DottedName},
    o.slot p ≠ .free → (placeAt o typeName).slot p = o.slot p
  | typeName, o, [], _ => by rw [slot_nil, slot_nil, (name_placeAt o typeName).2]
  | [], o, x :: p, _ => rfl
  | part :: typeName, o, x :: p, h => by
    by_cases hx : part = x
    swap
    · exact slot_placeAt_of_ne (Ne.symm hx) p
    subst hx
    by_cases ho : opens o.data part = true
    swap
    · rw [slot_cons_of_not_opens ho, slot_cons_of_not_opens]
      rwa [(name_placeAt o _).2]
    rcases hg : ProtoObject.get o part with _ | next
    · exact absurd (slot_of_get_none hg ho p) h
    have hs := slot_cons_of_child ho (child_of_opens hg ho) p
    rcases typeName with _ | ⟨name, rest⟩
    · rw [slot_placeAt_of_last ho, if_neg (by rw [hg]; simp)]
    · have hnext : nextOf o part = next := by rw [nextOf, hg, Option.getD_some]
      by_cases hn : next.data.isNamespace = true
      · rw [slot_placeAt_of_next ho (hnext ▸ hn), hnext, hs]
        exact keeps_placeAt (hs ▸ h)
      · rw [placeAt, hg]
        dsimp only
        rw [if_neg hn]

/-- What a placeholder is at a path on the way to it. -/
def placeholderKind (p typeName : DottedName) : ProtoKind :=
  if p = typeName then .empty else .plain

@[simp] theorem placeholderKind_cons (x : JsString) (p typeName : DottedName) :
    placeholderKind (x :: p) (x :: typeName) = placeholderKind p typeName := by
  simp [placeholderKind]

@[simp] theorem placeholderKind_self (p : DottedName) : placeholderKind p p = .empty := if_pos rfl

@[simp] theorem placeholderKind_nil (x : JsString) (typeName : DottedName) :
    placeholderKind [] (x :: typeName) = .plain := rfl

/-- At a free path a placeholder leaves an empty type, on the way to it namespaces, and elsewhere
nothing. -/
theorem slot_placeAt {d : ProtoKind} : ∀ {typeName : DottedName} {o : ProtoObject}
    {p : DottedName}, o.slot p = .free → ((placeAt o typeName).slot p = .taken d ↔
      p <+: typeName ∧ d = placeholderKind p typeName)
  | typeName, o, [], h => by
    rw [slot_nil] at h
    cases h
  | [], o, x :: p, h => by
    rw [placeAt, h]
    simp
  | part :: typeName, o, x :: p, h => by
    by_cases hx : part = x
    swap
    · rw [slot_placeAt_of_ne (Ne.symm hx), h]
      simp [Ne.symm hx]
    subst hx
    by_cases ho : opens o.data part = true
    swap
    · rw [slot_cons_of_not_opens ho] at h
      cases h
    have hp : part :: p <+: part :: typeName ↔ p <+: typeName := by simp
    rw [hp, placeholderKind_cons]
    rcases typeName with _ | ⟨name, rest⟩
    · rw [slot_placeAt_of_last ho, List.prefix_nil]
      rcases hg : ProtoObject.get o part with _ | next
      · rw [if_pos rfl]
        by_cases hp : p = []
        · subst hp
          simp [eq_comm]
        · rw [slot_new opens_empty hp]
          simp [hp]
      · rw [if_neg (by simp), h]
        rw [slot_cons_of_child ho (child_of_opens hg ho)] at h
        simp [(isNamespace_of_free h).1]
    · rcases hg : ProtoObject.get o part with _ | next
      · have hnext : nextOf o part = mk part .plain [] := by rw [nextOf, hg, Option.getD_none]
        rw [slot_placeAt_of_next ho (by rw [hnext]; rfl), hnext]
        by_cases hp : p = []
        · subst hp
          rw [slot_nil, (name_placeAt _ _).2]
          simp [eq_comm]
        · exact slot_placeAt (slot_new opens_plain hp)
      · have hnext : nextOf o part = next := by rw [nextOf, hg, Option.getD_some]
        rw [slot_cons_of_child ho (child_of_opens hg ho)] at h
        rw [slot_placeAt_of_next ho (hnext ▸ (isNamespace_of_free h).2), hnext]
        exact slot_placeAt h

theorem proper_new {kind : ProtoKind} : (mk x kind [] : ProtoObject).Proper :=
  .mk List.nodup_nil (by simp) (by simp)

theorem proper_placeAt : ∀ {typeName : DottedName} {o : ProtoObject}, o.Proper →
    o.data.isNamespace = true → (placeAt o typeName).Proper
  | [], o, ho, _ => by
    rw [placeAt]
    exact ho
  | [name], o, ho, hd => by
    rw [placeAt]
    rcases hg : ProtoObject.get o name with _ | existing
    · exact ho.setChild proper_new (opens_of_get_none hg hd)
    · exact ho
  | part :: name :: rest, o, ho, hd => by
    rw [placeAt]
    rcases hg : ProtoObject.get o part with _ | next
    · refine ho.setChild (proper_placeAt proper_new rfl) ?_
      rw [(name_placeAt _ _).1]
      exact opens_of_get_none hg hd
    · dsimp only
      split_ifs with hn
      · obtain ⟨hc, hx⟩ := child_of_get hg hn
        refine ho.setChild (proper_placeAt (ho.child hc) hn) ?_
        rw [(name_placeAt _ _).1, name_of_child hc]
        exact opens_iff.2 ⟨hd, hx⟩
      · exact ho

end DiiaApp
