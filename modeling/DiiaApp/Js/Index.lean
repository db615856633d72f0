import DiiaApp.Js.Map

/-!
# Indexes

A map from keys to lists without repetitions, filled one pair at a time: what is filed under a key
stands in the order it first came in. Searching it is searching the pairs (`find_listOf`).
-/

namespace Js.Map

variable {κ ν : Type*} [DecidableEq κ]

/-- What is filed under a key. -/
def listOf (m : Map κ (List ν)) (k : κ) : List ν := (m.get k).getD []

/-- The values that come under a key. -/
def under (k : κ) (es : List (κ × ν)) : List ν := (es.filter fun e => e.1 = k).map Prod.snd

theorem under_cons (k : κ) (e : κ × ν) (es : List (κ × ν)) :
    under k (e :: es) = (if e.1 = k then [e.2] else []) ++ under k es := by
  unfold under
  split_ifs with h <;> simp [h]

/-- Where no key comes twice, a key has at most one value. -/
theorem under_of_nodup {k : κ} : ∀ {es : List (κ × ν)}, (es.map Prod.fst).Nodup →
    under k es = (find k es).toList
  | [], _ => rfl
  | e :: es, h => by
    rw [List.map_cons, List.nodup_cons] at h
    rw [under_cons, under_of_nodup h.2, find]
    split_ifs with he
    · rw [find_eq_none.2 (he ▸ h.1)]
      rfl
    · rfl

theorem exists_mem_values {m : Map κ (List ν)} {v : ν} :
    (∃ l ∈ m.values, v ∈ l) ↔ ∃ k, v ∈ m.listOf k := by
  simp only [mem_values, listOf]
  constructor
  · rintro ⟨l, ⟨k, hk⟩, hv⟩
    exact ⟨k, by rwa [hk]⟩
  · rintro ⟨k, hv⟩
    rcases hk : m.get k with _ | l
    · simp [hk] at hv
    · exact ⟨l, ⟨k, hk⟩, by rwa [hk] at hv⟩

variable [DecidableEq ν]

/-- One more value under a key, where it is not there yet. -/
def pushNew (m : Map κ (List ν)) (k : κ) (v : ν) : Map κ (List ν) :=
  match m.get k with
  | some existing => if v ∈ existing then m else m.set k (existing ++ [v])
  | none => m.set k [v]

/-- The index with the pairs `es` filed in turn. -/
def file (m : Map κ (List ν)) (es : List (κ × ν)) : Map κ (List ν) :=
  es.foldl (fun m e => m.pushNew e.1 e.2) m

theorem file_append (m : Map κ (List ν)) (es fs : List (κ × ν)) :
    m.file (es ++ fs) = (m.file es).file fs := List.foldl_append

theorem file_flatMap {ι : Type*} (f : ι → List (κ × ν)) : ∀ (l : List ι) (m : Map κ (List ν)),
    l.foldl (fun m i => m.file (f i)) m = m.file (l.flatMap f)
  | [], m => rfl
  | i :: l, m => by rw [List.foldl_cons, file_flatMap f l, List.flatMap_cons, file_append]

theorem listOf_pushNew (m : Map κ (List ν)) (k k' : κ) (v : ν) :
    (m.pushNew k v).listOf k' = m.listOf k'
      ++ if k = k' ∧ v ∉ m.listOf k' then [v] else [] := by
  unfold pushNew listOf
  rcases hm : m.get k with _ | l
  · dsimp only
    rw [get_set]
    rcases eq_or_ne k k' with rfl | hk
    · simp [hm]
    · simp [hk, hk.symm]
  · dsimp only
    rcases eq_or_ne k k' with rfl | hk
    · by_cases hv : v ∈ l <;> simp [hv, hm]
    · by_cases hv : v ∈ l <;> simp [hv, hk, get_set_of_ne _ _ hk.symm]

/-- No empty list is filed. -/
theorem pushNew_ne_nil {m : Map κ (List ν)} {k : κ} {v : ν} (h : ∀ k l, m.get k = some l → l ≠ [])
    {k' : κ} {l : List ν} (hl : (m.pushNew k v).get k' = some l) : l ≠ [] := by
  unfold pushNew at hl
  rcases hm : m.get k with _ | x <;> simp only [hm] at hl
  · rw [get_set] at hl
    split_ifs at hl
    · simp [← Option.some.inj hl]
    · exact h _ _ hl
  · split_ifs at hl
    · exact h _ _ hl
    · rw [get_set] at hl
      split_ifs at hl
      · simp [← Option.some.inj hl]
      · exact h _ _ hl

theorem file_induction {P : Map κ (List ν) → Prop} {m : Map κ (List ν)} (h : P m)
    (hs : ∀ m k v, P m → P (m.pushNew k v)) : ∀ es : List (κ × ν), P (m.file es)
  | [] => h
  | e :: es => file_induction (hs m e.1 e.2 h) hs es

theorem mem_file {k : κ} {v : ν} : ∀ {es : List (κ × ν)} {m : Map κ (List ν)},
    v ∈ (m.file es).listOf k ↔ v ∈ m.listOf k ∨ (k, v) ∈ es
  | [], m => by simp [file]
  | e :: es, m => by
    rw [file, List.foldl_cons, ← file, mem_file, listOf_pushNew, List.mem_cons, List.mem_append]
    rcases e with ⟨k', v'⟩
    split_ifs with h
    · obtain ⟨rfl, -⟩ := h
      simp [or_assoc]
    · rw [not_and_not_right] at h
      simp only [List.not_mem_nil, or_false, Prod.mk.injEq]
      constructor
      · rintro (hv | hv)
        · exact .inl hv
        · exact .inr (.inr hv)
      · rintro (hv | ⟨rfl, rfl⟩ | hv)
        · exact .inl hv
        · exact .inl (h rfl)
        · exact .inr hv

/-- A search of what is filed under a key is one of the values that came under it. -/
theorem find_file (k : κ) (p : ν → Bool) : ∀ (es : List (κ × ν)) (m : Map κ (List ν)),
    ((m.file es).listOf k).find? p = (m.listOf k ++ under k es).find? p
  | [], m => by simp [file, under]
  | e :: es, m => by
    rw [file, List.foldl_cons, ← file, find_file k p es, listOf_pushNew, under_cons]
    rcases e with ⟨k', v⟩
    dsimp only
    by_cases hk : k' = k
    · by_cases hv : v ∈ m.listOf k
      · -- filed already: it is found before the second place it stands in
        rw [if_neg fun h => h.2 hv, if_pos hk, List.append_nil, List.find?_append,
          List.find?_append, List.find?_append]
        rcases hf : (m.listOf k).find? p with _ | x
        · have hpv : ¬ p v := List.find?_eq_none.1 hf v hv
          simp [hpv]
        · rfl
      · rw [if_pos ⟨hk, hv⟩, if_pos hk, List.append_assoc]
    · rw [if_neg fun h => hk h.1, if_neg hk, List.append_nil, List.nil_append]

section Empty

variable (es : List (κ × ν)) (k : κ)

theorem mem_listOf {v : ν} : v ∈ ((empty : Map κ (List ν)).file es).listOf k ↔ (k, v) ∈ es := by
  rw [mem_file]
  simp [listOf]

theorem find_listOf (p : ν → Bool) :
    (((empty : Map κ (List ν)).file es).listOf k).find? p = (under k es).find? p := by
  rw [find_file]
  rfl

theorem nodup_listOf : (((empty : Map κ (List ν)).file es).listOf k).Nodup := by
  refine file_induction (P := fun m => ∀ k, (m.listOf k).Nodup) (fun _ => by simp [listOf]) ?_ es k
  intro m k v h k'
  rw [listOf_pushNew]
  split_ifs with hk
  · exact (h k').append (List.nodup_singleton v) (by simpa using hk.2)
  · rw [List.append_nil]
    exact h k'

/-- A key is there where something came under it. -/
theorem get_eq_none : ((empty : Map κ (List ν)).file es).get k = none ↔ under k es = [] := by
  have hne : ∀ k l, ((empty : Map κ (List ν)).file es).get k = some l → l ≠ [] :=
    file_induction (P := fun m => ∀ k l, m.get k = some l → l ≠ []) (fun _ _ h => by simp at h)
      (fun _ _ _ h _ _ hl => pushNew_ne_nil h hl) es
  have hall := find_listOf es k fun _ => true
  unfold listOf at hall
  rcases hg : ((empty : Map κ (List ν)).file es).get k with _ | l <;> rw [hg] at hall
  · simpa [List.find?_eq_none, List.eq_nil_iff_forall_not_mem] using hall.symm
  · refine iff_of_false (by simp) fun hu => hne k l hg ?_
    rw [hu] at hall
    simpa [List.eq_nil_iff_forall_not_mem] using hall

/-- Nothing but one value came under the key. -/
theorem get_eq_singleton {v : ν} : ((empty : Map κ (List ν)).file es).get k = some [v] ↔
    (k, v) ∈ es ∧ ∀ w, (k, w) ∈ es → w = v := by
  have hn := nodup_listOf es k
  have hm : ∀ w, w ∈ ((empty : Map κ (List ν)).file es).listOf k ↔ (k, w) ∈ es :=
    fun w => mem_listOf es k
  simp only [← hm]
  unfold listOf at hn ⊢
  rcases hg : ((empty : Map κ (List ν)).file es).get k with _ | l
  · simp
  · rw [hg, Option.getD_some] at hn
    rw [Option.getD_some, Option.some_inj]
    constructor
    · rintro rfl
      simp
    · rintro ⟨hv, hw⟩
      exact List.perm_singleton.1 ((List.perm_ext_iff_of_nodup hn (List.nodup_singleton v)).2
        fun w => ⟨fun h => List.mem_singleton.2 (hw w h), fun h => List.mem_singleton.1 h ▸ hv⟩)

end Empty

end Js.Map
