import DiiaApp.Js.Map

/-!
# One open handle a key

A pool keeps a handle for each key it has been asked for: `acquire` gives the one it keeps or makes
one, and `closeAll` closes those it keeps and forgets them. What is open is what is kept, whatever
was done (`kept_iff`), and no handle is closed twice.
-/

variable {κ : Type*} [DecidableEq κ]

/-- Handles are numbered as they are made. -/
structure Pool (κ : Type*) [DecidableEq κ] where
  kept : Js.Map κ ℕ
  /-- The key each handle was made for. -/
  made : List κ
  closed : List ℕ
  kept_iff : ∀ k h, kept.get k = some h ↔ made[h]? = some k ∧ h ∉ closed
  closed_nodup : closed.Nodup
  closed_lt : ∀ h ∈ closed, h < made.length

namespace Pool

def empty : Pool κ where
  kept := .empty
  made := []
  closed := []
  kept_iff := by simp
  closed_nodup := List.nodup_nil
  closed_lt := nofun

/-- The handle has been made and not closed. -/
def IsOpen (p : Pool κ) (h : ℕ) : Prop := h < p.made.length ∧ h ∉ p.closed

theorem isOpen_iff {p : Pool κ} {h : ℕ} : p.IsOpen h ↔ ∃ k, p.kept.get k = some h := by
  simp only [p.kept_iff, exists_and_right]
  refine and_congr_left fun _ => ⟨fun hl => ⟨_, List.getElem?_eq_getElem hl⟩, fun ⟨k, hk⟩ => ?_⟩
  exact (List.getElem?_eq_some_iff.1 hk).1

/-- A handle for a key that none is kept for. -/
def make (p : Pool κ) (k : κ) (hk : p.kept.get k = none) : Pool κ where
  kept := p.kept.set k p.made.length
  made := p.made ++ [k]
  closed := p.closed
  kept_iff := by
    have hnew : p.made.length ∉ p.closed := fun h => Nat.lt_irrefl _ (p.closed_lt _ h)
    intro k' h
    rw [Js.Map.get_set]
    split_ifs with hkk
    · subst hkk
      constructor
      · intro he
        obtain rfl := Option.some.inj he
        exact ⟨by simp, hnew⟩
      · rintro ⟨hm, ho⟩
        rcases Nat.lt_or_ge h p.made.length with hl | hl
        · -- one made before would be kept
          rw [List.getElem?_append_left hl] at hm
          exact absurd ((p.kept_iff k' h).2 ⟨hm, ho⟩) (by simp [hk])
        · rw [List.getElem?_append_right hl, List.getElem?_singleton] at hm
          split_ifs at hm with hz
          rw [show h = p.made.length by omega]
    · rw [p.kept_iff]
      refine and_congr_left fun _ => ?_
      rcases Nat.lt_or_ge h p.made.length with hl | hl
      · rw [List.getElem?_append_left hl]
      · rw [List.getElem?_append_right hl, List.getElem?_eq_none hl, List.getElem?_singleton]
        split_ifs
        · simp [Ne.symm hkk]
        · rfl
  closed_nodup := p.closed_nodup
  closed_lt h hh := by simpa using Nat.lt_succ_of_lt (p.closed_lt h hh)

def acquire (p : Pool κ) (k : κ) : Pool κ × ℕ :=
  match hk : p.kept.get k with
  | some h => (p, h)
  | none => (p.make k hk, p.made.length)

theorem kept_values_nodup (p : Pool κ) : p.kept.values.Nodup := by
  refine List.Nodup.map_on ?_ (List.Nodup.of_map _ p.kept.nodup)
  rintro ⟨k, h⟩ hk ⟨k', h'⟩ hk' (rfl : h = h')
  have h1 := ((p.kept_iff k h).1 (Js.Map.mem_entries.1 hk)).1
  have h2 := ((p.kept_iff k' h).1 (Js.Map.mem_entries.1 hk')).1
  rw [Option.some.inj (h1.symm.trans h2)]

def closeAll (p : Pool κ) : Pool κ where
  kept := .empty
  made := p.made
  closed := p.closed ++ p.kept.values
  kept_iff k h := by
    refine iff_of_false (by simp) fun ⟨hm, ho⟩ => ?_
    rw [List.mem_append, not_or] at ho
    exact ho.2 (Js.Map.mem_values.2 ⟨k, (p.kept_iff k h).2 ⟨hm, ho.1⟩⟩)
  closed_nodup := by
    refine List.nodup_append'.2 ⟨p.closed_nodup, p.kept_values_nodup, fun h hc hk => ?_⟩
    obtain ⟨k, hk⟩ := Js.Map.mem_values.1 hk
    exact ((p.kept_iff k h).1 hk).2 hc
  closed_lt h hh := by
    rcases List.mem_append.1 hh with hc | hk
    · exact p.closed_lt h hc
    · obtain ⟨k, hk⟩ := Js.Map.mem_values.1 hk
      exact (List.getElem?_eq_some_iff.1 ((p.kept_iff k h).1 hk).1).1

/-- What is kept once a handle is acquired: as before, and the handle under its key. -/
theorem get_acquire (p : Pool κ) (k k' : κ) :
    (p.acquire k).1.kept.get k' = if k' = k then some (p.acquire k).2 else p.kept.get k' := by
  unfold acquire
  split
  · rename_i h hk
    split_ifs with he
    · rw [he, hk]
    · rfl
  · rename_i hk
    exact Js.Map.get_set _ _ _ _

@[simp] theorem get_acquire_self (p : Pool κ) (k : κ) :
    (p.acquire k).1.kept.get k = some (p.acquire k).2 := by
  rw [get_acquire, if_pos rfl]

/-- A handle that is kept stays kept. -/
theorem get_acquire_of_get {p : Pool κ} {k' : κ} {h : ℕ} (hk : p.kept.get k' = some h) (k : κ) :
    (p.acquire k).1.kept.get k' = some h := by
  rw [get_acquire]
  split_ifs with he
  · subst he
    unfold acquire
    split
    · rename_i h' hk'
      exact hk'.symm.trans hk
    · rename_i hk'
      cases hk'.symm.trans hk
  · exact hk

theorem get_acquire_iff {p : Pool κ} {k k' : κ} {h : ℕ} :
    (p.acquire k).1.kept.get k' = some h ↔
      p.kept.get k' = some h ∨ (k' = k ∧ h = (p.acquire k).2) := by
  refine ⟨fun hk => ?_, ?_⟩
  · rw [get_acquire] at hk
    split_ifs at hk with he
    · exact .inr ⟨he, (Option.some.inj hk).symm⟩
    · exact .inl hk
  · rintro (hk | ⟨rfl, rfl⟩)
    · exact get_acquire_of_get hk k
    · exact get_acquire_self p k'

end Pool
