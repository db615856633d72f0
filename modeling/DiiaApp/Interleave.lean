import DiiaApp.Steps
import Mathlib.Algebra.BigOperators.Group.Finset.Piecewise
import Mathlib.Algebra.Order.BigOperators.Group.Finset

/-!
# Systems side by side

Any number of copies of a system, each begun in a state of its own, take their steps in any order. A
run of them all is a run of each (`runs_movesOf`), and where no copy takes more than so many steps,
they do not take more than so many together (`length_le`).
-/

namespace Interleave

open Steps

variable {σ ε : Type}

inductive Event (σ ε : Type)
  | spawn (s : σ)
  | move (i : ℕ) (e : ε)

/-- The state a copy is begun in. -/
def Event.spawned : Event σ ε → Option σ
  | .spawn s => some s
  | .move _ _ => none

/-- A step of the `i`-th copy. -/
def Event.moveOf (i : ℕ) : Event σ ε → Option ε
  | .spawn _ => none
  | .move j e => if j = i then some e else none

def spawned (es : List (Event σ ε)) : List σ := es.filterMap Event.spawned

def movesOf (i : ℕ) (es : List (Event σ ε)) : List ε := es.filterMap (Event.moveOf i)

variable (next : σ → ε → Option σ)

def step (ss : List σ) : Event σ ε → Option (List σ)
  | .spawn s => some (ss ++ [s])
  | .move i e => ss[i]?.bind fun s => (next s e).map fun t => ss.set i t

variable {next} {es : List (Event σ ε)} {ss : List σ}

@[simp] theorem spawned_snoc_spawn (s : σ) : spawned (es ++ [.spawn s]) = spawned es ++ [s] := by
  simp [spawned, Event.spawned]

@[simp] theorem spawned_snoc_move (i : ℕ) (e : ε) : spawned (es ++ [.move i e]) = spawned es := by
  simp [spawned, Event.spawned]

@[simp] theorem movesOf_snoc_spawn (i : ℕ) (s : σ) :
    movesOf i (es ++ [.spawn s]) = movesOf i es := by simp [movesOf, Event.moveOf]

theorem movesOf_snoc_move (i j : ℕ) (e : ε) :
    movesOf i (es ++ [.move j e]) = if j = i then movesOf i es ++ [e] else movesOf i es := by
  by_cases h : j = i <;> simp [movesOf, Event.moveOf, h]

/-- Each copy has come to its state by its own steps. -/
structure Separate (next : σ → ε → Option σ) (es : List (Event σ ε)) (ss : List σ) : Prop where
  length : (spawned es).length = ss.length
  begun : ∀ i, ss.length ≤ i → movesOf i es = []
  runs : ∀ {i t}, ss[i]? = some t →
    ∃ s, (spawned es)[i]? = some s ∧ Runs next s (movesOf i es) t

theorem step_separate {ts : List σ} {e : Event σ ε} (h : Separate next es ss)
    (ht : step next ss e = some ts) : Separate next (es ++ [e]) ts := by
  cases e with
  | spawn s =>
    obtain rfl := Option.some.inj ht
    refine ⟨by simp [h.length], fun i hi => ?_, fun {i t} hi => ?_⟩
    · rw [movesOf_snoc_spawn]
      exact h.begun i (by simp at hi; omega)
    · rw [spawned_snoc_spawn, movesOf_snoc_spawn]
      rcases Nat.lt_or_ge i ss.length with hlt | hge
      · rw [List.getElem?_append_left hlt] at hi
        rw [List.getElem?_append_left (h.length.symm ▸ hlt)]
        exact h.runs hi
      · -- the new copy has taken no step
        rw [List.getElem?_append_right hge, List.getElem?_singleton] at hi
        rw [List.getElem?_append_right (h.length.symm ▸ hge), List.getElem?_singleton, h.length,
          h.begun i hge]
        exact ⟨t, hi, runs_nil.2 rfl⟩
  | move j e =>
    obtain ⟨s, hs, ht⟩ := Option.bind_eq_some_iff.1 ht
    obtain ⟨t, hnext, rfl⟩ := Option.map_eq_some_iff.1 ht
    have hj : j < ss.length := (List.getElem?_eq_some_iff.1 hs).1
    refine ⟨by simp [h.length], fun i hi => ?_, fun {i u} hi => ?_⟩
    · rw [List.length_set] at hi
      rw [movesOf_snoc_move, if_neg (by omega)]
      exact h.begun i hi
    · rw [spawned_snoc_move, movesOf_snoc_move]
      by_cases hij : j = i
      · subst hij
        rw [List.getElem?_set_self hj] at hi
        obtain rfl := Option.some.inj hi
        obtain ⟨s₀, hs₀, hr⟩ := h.runs hs
        rw [if_pos rfl]
        exact ⟨s₀, hs₀, runs_snoc.2 ⟨s, hr, hnext⟩⟩
      · rw [List.getElem?_set_ne hij] at hi
        rw [if_neg hij]
        exact h.runs hi

theorem runs_separate (h : Runs (step next) [] es ss) : Separate next es ss :=
  h.hist (Separate next) ⟨rfl, fun _ _ => rfl, nofun⟩
    fun _ _ _ _ _ ih ht => step_separate ih ht

/-- A run of the copies is a run of each. -/
theorem runs_movesOf (h : Runs (step next) [] es ss) {t : σ} (ht : t ∈ ss) :
    ∃ s ∈ spawned es, ∃ fs, Runs next s fs t := by
  obtain ⟨i, hi⟩ := List.getElem?_of_mem ht
  obtain ⟨s, hs, hr⟩ := (runs_separate h).runs hi
  exact ⟨s, List.mem_of_getElem? hs, _, hr⟩

theorem length_eq : ∀ {n : ℕ} {es : List (Event σ ε)}, (∀ i, n ≤ i → movesOf i es = []) →
    es.length = (spawned es).length + ∑ i ∈ Finset.range n, (movesOf i es).length := by
  intro n es
  induction es with
  | nil => simp [spawned, movesOf]
  | cons e es ih =>
    intro h
    cases e with
    | spawn s =>
      have hs : ∀ i, movesOf i (.spawn s :: es) = movesOf i es := fun i => rfl
      simp only [hs] at h ⊢
      have hlen : (spawned (.spawn s :: es)).length = (spawned es).length + 1 := rfl
      rw [List.length_cons, ih h, hlen]
      omega
    | move j e =>
      have hm : ∀ i, (movesOf i (.move j e :: es)).length =
          (movesOf i es).length + if i = j then 1 else 0 := by
        intro i
        by_cases hij : j = i
        · simp [movesOf, Event.moveOf, hij]
        · simp [movesOf, Event.moveOf, hij, Ne.symm hij]
      have hes : ∀ i, n ≤ i → movesOf i es = [] := by
        intro i hi
        have hzero := hm i
        rw [h i hi, List.length_nil] at hzero
        exact List.eq_nil_of_length_eq_zero (by omega)
      have hj : j < n := by
        by_contra hj
        have hzero := hm j
        rw [h j (by omega), List.length_nil, if_pos rfl] at hzero
        omega
      have hlen : (spawned (.move j e :: es)).length = (spawned es).length := rfl
      rw [List.length_cons, ih hes, hlen]
      simp only [hm, Finset.sum_add_distrib, Finset.sum_ite_eq', Finset.mem_range, if_pos hj]
      omega

/-- Where no copy takes more than `bound` steps, all of them take no more than that each. -/
theorem length_le {bound : ℕ} (h : Runs (step next) [] es ss)
    (hb : ∀ s ∈ spawned es, ∀ fs t, Runs next s fs t → fs.length ≤ bound) :
    es.length ≤ ss.length * (bound + 1) := by
  have hs := runs_separate h
  rw [length_eq hs.begun, hs.length, Nat.mul_succ, Nat.add_comm]
  refine Nat.add_le_add_right ?_ _
  have hsum := Finset.sum_le_card_nsmul (Finset.range ss.length)
    (fun i => (movesOf i es).length) bound fun i hi => ?_
  · simpa using hsum
  · obtain ⟨s, hmem, hr⟩ := hs.runs (List.getElem?_eq_getElem (Finset.mem_range.1 hi))
    exact hb s (List.mem_of_getElem? hmem) _ _ hr

end Interleave
