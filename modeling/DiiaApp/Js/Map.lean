import Mathlib.Data.List.Induction
import Mathlib.Data.List.Nodup
import Mathlib.Data.List.Perm.Basic

/-!
# Insertion-ordered maps

The `Map` of the language: its entries stand in the order their keys were first set, `set` on a
key already there changes the value in place, and no key occurs twice.
-/

namespace Js

/-- A map with its entries in insertion order. -/
structure Map (κ ν : Type*) where
  entries : List (κ × ν)
  nodup : (entries.map Prod.fst).Nodup

namespace Map

variable {κ ν : Type*}

theorem ext_entries {m m' : Map κ ν} (h : m.entries = m'.entries) : m = m' := by
  cases m
  cases m'
  congr

/-- The map of `new Map()`. -/
def empty : Map κ ν := ⟨[], List.nodup_nil⟩

def keys (m : Map κ ν) : List κ := m.entries.map Prod.fst

def values (m : Map κ ν) : List ν := m.entries.map Prod.snd

variable [DecidableEq κ]

/-- The value the entry list `l` holds under `k`. -/
def find (k : κ) : List (κ × ν) → Option ν
  | [] => none
  | e :: l => if e.1 = k then some e.2 else find k l

/-- `l` with the value under `k` replaced, or a new last entry. -/
def put (k : κ) (v : ν) : List (κ × ν) → List (κ × ν)
  | [] => [(k, v)]
  | e :: l => if e.1 = k then (k, v) :: l else e :: put k v l

theorem mem_put_keys (k : κ) (v : ν) {k' : κ} :
    ∀ {l : List (κ × ν)}, k' ∈ (put k v l).map Prod.fst ↔ k' = k ∨ k' ∈ l.map Prod.fst
  | [] => by simp [put]
  | e :: l => by
    simp only [put]
    split_ifs with h
    · subst h; simp
    · simp only [List.map_cons, List.mem_cons, mem_put_keys k v (l := l)]
      tauto

theorem nodup_put (k : κ) (v : ν) :
    ∀ {l : List (κ × ν)}, (l.map Prod.fst).Nodup → ((put k v l).map Prod.fst).Nodup
  | [], _ => by simp [put]
  | e :: l, h => by
    simp only [List.map_cons, List.nodup_cons] at h
    simp only [put]
    split_ifs with hk
    · subst hk; simpa using h
    · simp only [List.map_cons, List.nodup_cons, mem_put_keys]
      exact ⟨by rintro (h1 | h1) <;> [exact hk h1; exact h.1 h1], nodup_put k v h.2⟩

/-- A key that is not there is added at the end. -/
theorem put_of_not_mem {k : κ} {v : ν} :
    ∀ {l : List (κ × ν)}, k ∉ l.map Prod.fst → put k v l = l ++ [(k, v)]
  | [], _ => rfl
  | e :: l, h => by
    rw [List.map_cons, List.mem_cons, not_or] at h
    rw [put, if_neg (Ne.symm h.1), put_of_not_mem h.2, List.cons_append]

/-- A key that is there keeps its place. -/
theorem map_fst_put {k : κ} {v w : ν} :
    ∀ {l : List (κ × ν)}, find k l = some w → (put k v l).map Prod.fst = l.map Prod.fst
  | [], h => by simp [find] at h
  | e :: l, h => by
    simp only [find] at h
    simp only [put]
    split_ifs at h ⊢ with he
    · rw [List.map_cons, List.map_cons, he]
    · rw [List.map_cons, List.map_cons, map_fst_put h]

/-- A key that is there once has its value replaced. -/
theorem put_eq_map {k : κ} {v w : ν} : ∀ {l : List (κ × ν)}, (l.map Prod.fst).Nodup →
    find k l = some w → put k v l = l.map fun e => if e.1 = k then (k, v) else e
  | [], _, h => by simp [find] at h
  | e :: l, hn, h => by
    rw [List.map_cons, List.nodup_cons] at hn
    rw [find] at h
    rw [put, List.map_cons]
    split_ifs at h ⊢ with he
    · have hl : l.map (fun e => if e.1 = k then (k, v) else e) = l.map id :=
        List.map_congr_left fun e' he' =>
          if_neg fun hk => hn.1 (List.mem_map.2 ⟨e', he', hk.trans he.symm⟩)
      rw [hl, List.map_id]
    · rw [put_eq_map hn.2 h]

/-- Setting a key to the value it has changes nothing. -/
theorem put_of_find {k : κ} {v : ν} : ∀ {l : List (κ × ν)}, find k l = some v → put k v l = l
  | [], h => by simp [find] at h
  | e :: l, h => by
    simp only [find] at h
    simp only [put]
    split_ifs at h ⊢ with he
    · obtain ⟨rfl⟩ := h
      rw [← he]
    · rw [put_of_find h]

def get (m : Map κ ν) (k : κ) : Option ν := find k m.entries

def has (m : Map κ ν) (k : κ) : Bool := (m.get k).isSome

def set (m : Map κ ν) (k : κ) (v : ν) : Map κ ν :=
  ⟨put k v m.entries, nodup_put k v m.nodup⟩

def delete (m : Map κ ν) (k : κ) : Map κ ν :=
  ⟨m.entries.filter fun e => e.1 ≠ k,
    m.nodup.sublist (List.filter_sublist.map _)⟩

theorem find_put (k k' : κ) (v : ν) :
    ∀ l : List (κ × ν), find k' (put k v l) = if k' = k then some v else find k' l
  | [] => by simp only [put, find, eq_comm]
  | e :: l => by
    simp only [put]
    split_ifs with h1 h2 h2
    · simp [find, h2]
    · simp [find, h1, Ne.symm h2]
    · subst h2; simp [find, h1, find_put]
    · simp [find, find_put, h2]

theorem find_filter_ne (k k' : κ) :
    ∀ l : List (κ × ν), find k' (l.filter fun e => e.1 ≠ k) = if k' = k then none else find k' l
  | [] => by simp [find]
  | e :: l => by
    have ih := find_filter_ne k k' l
    by_cases h1 : e.1 = k
    · rw [List.filter_cons_of_neg (by simp [h1]), ih, find]
      split_ifs with h2 h3
      · rfl
      · exact absurd (h3.symm.trans h1) h2
      · rfl
    · rw [List.filter_cons_of_pos (by simp [h1]), find, find, ih]
      split_ifs with h2 h3
      · exact absurd (h2.trans h3) h1
      all_goals rfl

theorem mem_of_find {k : κ} {v : ν} : ∀ {l : List (κ × ν)}, find k l = some v → (k, v) ∈ l
  | [], h => by simp [find] at h
  | e :: l, h => by
    simp only [find] at h
    split_ifs at h with he
    · obtain ⟨rfl⟩ := h; subst he; simp
    · exact List.mem_cons_of_mem _ (mem_of_find h)

theorem find_of_mem {k : κ} {v : ν} :
    ∀ {l : List (κ × ν)}, (l.map Prod.fst).Nodup → (k, v) ∈ l → find k l = some v
  | [], _, h => by simp at h
  | e :: l, hn, h => by
    simp only [List.map_cons, List.nodup_cons] at hn
    rcases List.mem_cons.1 h with rfl | h
    · simp [find]
    · have hne : e.1 ≠ k := fun he => hn.1 (he ▸ List.mem_map.2 ⟨_, h, rfl⟩)
      simp [find, hne, find_of_mem hn.2 h]

theorem find_eq_none {k : κ} :
    ∀ {l : List (κ × ν)}, find k l = none ↔ k ∉ l.map Prod.fst
  | [] => by simp [find]
  | e :: l => by
    rw [find, List.map_cons, List.mem_cons, not_or]
    split_ifs with h
    · simp [h]
    · rw [find_eq_none]
      exact ⟨fun hl => ⟨Ne.symm h, hl⟩, And.right⟩

/-- Other keys find the same where they stand for the same. -/
theorem find_map_entry {κ' μ : Type*} [DecidableEq κ'] {f : κ → κ'} (g : ν → μ) {k : κ} {k' : κ'}
    {l : List (κ × ν)} (h : ∀ e ∈ l, f e.1 = k' ↔ e.1 = k) :
    find k' (l.map fun e => (f e.1, g e.2)) = (find k l).map g := by
  induction l with
  | nil => rfl
  | cons e l ih =>
    rw [List.forall_mem_cons] at h
    rw [List.map_cons, find, find, ih h.2]
    simp only [h.1]
    split_ifs <;> rfl

theorem find_map_key {κ' : Type*} [DecidableEq κ'] {f : κ → κ'} {k : κ} {k' : κ'}
    {l : List (κ × ν)} (h : ∀ e ∈ l, f e.1 = k' ↔ e.1 = k) :
    find k' (l.map fun e => (f e.1, e.2)) = find k l :=
  (find_map_entry id h).trans Option.map_id_apply

theorem find_map {μ : Type*} (g : ν → μ) (k : κ) (l : List (κ × ν)) :
    find k (l.map fun e => (e.1, g e.2)) = (find k l).map g :=
  find_map_entry (f := id) g fun _ _ => Iff.rfl

/-- Values that are changed by their keys. -/
theorem find_map_value {μ : Type*} (g : κ → ν → μ) (k : κ) : ∀ l : List (κ × ν),
    find k (l.map fun e => (e.1, g e.1 e.2)) = (find k l).map (g k)
  | [] => rfl
  | e :: l => by
    rw [List.map_cons, find, find, find_map_value g k l]
    split_ifs with h
    · rw [h, Option.map_some]
    · rfl

theorem find_append_of_find {k : κ} {v : ν} (l' : List (κ × ν)) :
    ∀ {l : List (κ × ν)}, find k l = some v → find k (l ++ l') = some v
  | [], h => by simp [find] at h
  | e :: l, h => by
    rw [find] at h
    rw [List.cons_append, find]
    split_ifs at h ⊢
    · exact h
    · exact find_append_of_find l' h

theorem find_filterMap {μ : Type*} (g : ν → Option μ) (k : κ) :
    ∀ {l : List (κ × ν)}, (l.map Prod.fst).Nodup →
      find k (l.filterMap fun e => (g e.2).map fun v => (e.1, v)) = (find k l).bind g
  | [], _ => rfl
  | e :: l, h => by
    rw [List.map_cons, List.nodup_cons] at h
    have ih := find_filterMap g k h.2
    rw [find]
    split_ifs with he
    · have hn : find k l = none := find_eq_none.2 (he ▸ h.1)
      rw [hn] at ih
      rcases hg : g e.2 with _ | v
      · rw [List.filterMap_cons_none (by simp [hg]), ih, Option.bind_some, hg]
        rfl
      · rw [List.filterMap_cons_some (b := (e.1, v)) (by simp [hg]), find, if_pos he,
          Option.bind_some, hg]
    · rcases hg : g e.2 with _ | v
      · rw [List.filterMap_cons_none (by simp [hg]), ih]
      · rw [List.filterMap_cons_some (b := (e.1, v)) (by simp [hg]), find, if_neg he, ih]

@[simp] theorem get_empty (k : κ) : (empty : Map κ ν).get k = none := rfl

theorem get_set (m : Map κ ν) (k k' : κ) (v : ν) :
    (m.set k v).get k' = if k' = k then some v else m.get k' := find_put k k' v m.entries

@[simp] theorem get_set_self (m : Map κ ν) (k : κ) (v : ν) : (m.set k v).get k = some v := by
  simp [get_set]

theorem keys_set_of_get {m : Map κ ν} {k : κ} {v w : ν} (h : m.get k = some w) :
    (m.set k v).keys = m.keys := map_fst_put h

theorem entries_set_of_new {m : Map κ ν} {k : κ} (v : ν) (h : m.get k = none) :
    (m.set k v).entries = m.entries ++ [(k, v)] := put_of_not_mem (find_eq_none.1 h)

theorem not_has {m : Map κ ν} {k : κ} : ¬ m.has k ↔ m.get k = none := by
  rw [has, Bool.not_eq_true, Option.isSome_eq_false_iff, Option.isNone_iff_eq_none]

theorem has_set {m : Map κ ν} {k k' : κ} {v : ν} : (m.set k v).has k' ↔ k' = k ∨ m.has k' := by
  rw [has, get_set]
  split_ifs with h
  · simp [h]
  · simp [h, has]

theorem put_put (k : κ) (v w : ν) : ∀ l : List (κ × ν), put k w (put k v l) = put k w l
  | [] => by simp [put]
  | e :: l => by
    simp only [put]
    split_ifs with h
    · simp [put]
    · simp [put, h, put_put k v w l]

/-- What is set last stands. -/
theorem set_set (m : Map κ ν) (k : κ) (v w : ν) : (m.set k v).set k w = m.set k w := by
  simp only [set, put_put]

theorem get_set_of_ne (m : Map κ ν) {k k' : κ} (v : ν) (h : k' ≠ k) :
    (m.set k v).get k' = m.get k' := by simp [get_set, h]

/-- Of what is set one after the other, the last value of a key is there. -/
theorem get_foldl_put {α : Type*} (key : α → κ) (value : α → ν) (as : List α) (m : Map κ ν) (k : κ) :
    (as.foldl (fun m a => m.set (key a) (value a)) m).get k =
      (((as.filter fun a => key a = k).getLast?).map value).or (m.get k) := by
  induction as using List.reverseRecOn with
  | nil => rfl
  | append_singleton as a ih =>
    rw [List.foldl_append, List.foldl_cons, List.foldl_nil, get_set, List.filter_append,
      List.getLast?_append, ih]
    by_cases hk : k = key a
    · simp [hk]
    · simp [hk, Ne.symm hk]

theorem get_foldl_set (key : ν → κ) (vs : List ν) (m : Map κ ν) (k : κ) :
    (vs.foldl (fun m v => m.set (key v) v) m).get k =
      ((vs.filter fun v => key v = k).getLast?).or (m.get k) := by
  have h := get_foldl_put key id vs m k
  rwa [Option.map_id] at h

/-- Entries set one after the other. -/
def setAll (m : Map κ ν) (es : List (κ × ν)) : Map κ ν := es.foldl (fun m e => m.set e.1 e.2) m

theorem setAll_append (m : Map κ ν) (es es' : List (κ × ν)) :
    m.setAll (es ++ es') = (m.setAll es).setAll es' := List.foldl_append

theorem mem_of_get_setAll {es : List (κ × ν)} {k : κ} {v : ν}
    (h : (empty.setAll es).get k = some v) : (k, v) ∈ es := by
  rw [setAll, get_foldl_put, get_empty, Option.or_none, Option.map_eq_some_iff] at h
  obtain ⟨e, he, rfl⟩ := h
  obtain ⟨hm, hk⟩ := List.mem_filter.1 (List.mem_of_getLast? he)
  rwa [← of_decide_eq_true hk]

theorem not_mem_of_get_setAll {es : List (κ × ν)} {k : κ} {v : ν}
    (h : (empty.setAll es).get k = none) : (k, v) ∉ es := by
  rw [setAll, get_foldl_put, get_empty, Option.or_none, Option.map_eq_none_iff,
    List.getLast?_eq_none_iff, List.filter_eq_nil_iff] at h
  exact fun hm => h _ hm (decide_eq_true rfl)

/-- Where entries are set for things that may have a value, each thing finds its own value, or none,
just where no two things of one key differ in it. -/
theorem get_setAll_iff {α : Type*} {things : List α} {key : α → κ} {own : α → Option ν}
    {es : List (κ × ν)} (hes : ∀ a ∈ things, ∀ v,
      (key a, v) ∈ es ↔ ∃ b ∈ things, key b = key a ∧ own b = some v) :
    (∀ a ∈ things, (empty.setAll es).get (key a) = own a) ↔
      ∀ a ∈ things, ∀ b ∈ things, key a = key b → own a = own b := by
  constructor
  · intro h a ha b hb hk
    rw [← h a ha, ← h b hb, hk]
  · intro h a ha
    rcases hg : (empty.setAll es).get (key a) with _ | v
    · by_contra hne
      obtain ⟨v, hv⟩ := Option.ne_none_iff_exists'.1 (Ne.symm hne)
      exact not_mem_of_get_setAll hg ((hes a ha v).2 ⟨a, ha, rfl, hv⟩)
    · obtain ⟨b, hb, hk, hv⟩ := (hes a ha v).1 (mem_of_get_setAll hg)
      rw [h a ha b hb hk.symm, hv]

theorem get_delete (m : Map κ ν) (k k' : κ) :
    (m.delete k).get k' = if k' = k then none else m.get k' := find_filter_ne k k' m.entries

theorem mem_entries {m : Map κ ν} {k : κ} {v : ν} : (k, v) ∈ m.entries ↔ m.get k = some v :=
  ⟨find_of_mem m.nodup, mem_of_find⟩

theorem mem_values {m : Map κ ν} {v : ν} : v ∈ m.values ↔ ∃ k, m.get k = some v := by
  simp only [values, List.mem_map, Prod.exists, exists_eq_right, mem_entries]

theorem mem_keys {m : Map κ ν} {k : κ} : k ∈ m.keys ↔ ∃ v, m.get k = some v := by
  simp only [keys, List.mem_map, Prod.exists, exists_and_right, exists_eq_right, mem_entries]

end Map

end Js
