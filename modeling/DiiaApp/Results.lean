import Mathlib.Data.List.Forall2

/-!
# Results

What an `Except` that is run step by step comes to: a step that goes on has a value for the next
one, and the same over all items of a list.
-/

namespace DiiaApp

variable {ε α β : Type}

def Succeeds (x : Except ε α) : Prop := ∃ a, x = .ok a

@[simp] theorem succeeds_ok (a : α) : Succeeds (.ok a : Except ε α) := ⟨a, rfl⟩

@[simp] theorem not_succeeds_error (err : ε) : ¬ Succeeds (.error err : Except ε α) :=
  fun ⟨_, h⟩ => nomatch h

theorem bind_eq_ok {x : Except ε α} {f : α → Except ε β} {b : β} :
    x >>= f = .ok b ↔ ∃ a, x = .ok a ∧ f a = .ok b := by
  rcases x with e | a
  · exact ⟨(nomatch ·), fun ⟨_, h, _⟩ => (nomatch h)⟩
  · exact ⟨fun h => ⟨a, rfl, h⟩, fun ⟨_, h, hf⟩ => Except.ok.inj h ▸ hf⟩

theorem map_eq_ok {x : Except ε α} {f : α → β} {b : β} :
    x.map f = .ok b ↔ ∃ a, x = .ok a ∧ f a = b := by
  rcases x with err | a <;> simp [Except.map]

@[simp] theorem succeeds_map {x : Except ε α} {f : α → β} : Succeeds (x.map f) ↔ Succeeds x := by
  rcases x with err | a <;> simp [Except.map]

theorem succeeds_bind {x : Except ε α} {f : α → Except ε β} :
    Succeeds (x >>= f) ↔ ∃ a, x = .ok a ∧ Succeeds (f a) := by
  rcases x with err | a <;> simp [bind, Except.bind]

theorem mapM_eq_ok {f : α → Except ε β} : ∀ {xs : List α} {ys : List β},
    xs.mapM f = .ok ys ↔ List.Forall₂ (fun x y => f x = .ok y) xs ys
  | [], ys => by rcases ys with _ | ⟨y, ys⟩ <;> simp [pure, Except.pure]
  | x :: xs, ys => by
    rw [List.mapM_cons, bind_eq_ok]
    constructor
    · rintro ⟨y, hy, h⟩
      obtain ⟨ys', hys, h⟩ := bind_eq_ok.1 h
      obtain rfl := Except.ok.inj h
      exact .cons hy (mapM_eq_ok.1 hys)
    · rintro (_ | ⟨hy, hys⟩)
      exact ⟨_, hy, bind_eq_ok.2 ⟨_, mapM_eq_ok.2 hys, rfl⟩⟩

theorem mem_mapM_iff {f : α → Except ε β} {xs : List α} {ys : List β} (h : xs.mapM f = .ok ys)
    (y : β) : y ∈ ys ↔ ∃ x ∈ xs, f x = .ok y := by
  induction mapM_eq_ok.1 h with
  | nil => simp
  | cons hxy htail ih =>
    simp only [List.mem_cons, exists_eq_or_imp, ih (mapM_eq_ok.2 htail), hxy, Except.ok.injEq]
    exact or_congr_left eq_comm

theorem forall_mem_mapM {f : α → Except ε β} {P : β → Prop} {xs : List α} {ys : List β}
    (h : xs.mapM f = .ok ys) (hf : ∀ x ∈ xs, ∀ y, f x = .ok y → P y) : ∀ y ∈ ys, P y := by
  intro y hy
  obtain ⟨x, hx, hxy⟩ := (mem_mapM_iff h y).1 hy
  exact hf x hx y hxy

theorem succeeds_mapM {f : α → Except ε β} : ∀ {xs : List α},
    Succeeds (xs.mapM f) ↔ ∀ x ∈ xs, Succeeds (f x)
  | [] => by simp [pure, Except.pure]
  | x :: xs => by
    rw [List.mapM_cons, succeeds_bind, List.forall_mem_cons, ← succeeds_mapM]
    constructor
    · rintro ⟨y, hy, h⟩
      obtain ⟨ys, hys, -⟩ := succeeds_bind.1 h
      exact ⟨⟨y, hy⟩, ys, hys⟩
    · rintro ⟨⟨y, hy⟩, ys, hys⟩
      exact ⟨y, hy, succeeds_bind.2 ⟨ys, hys, ⟨_, rfl⟩⟩⟩

end DiiaApp
