import Mathlib.Data.List.Induction

/-!
# Runs of a step function

A system is a function that takes a state and an event to the next state, or to nothing where the
event cannot happen. A run is a list of events each of which can happen in turn. What every step
keeps, every run keeps (`Runs.inv`); the rule comes also for runs all of whose steps meet a guard
(`Runs.inv_of`), for what ties the state to the events so far (`Runs.hist`) and for a second
system that follows the first (`Runs.simulate`).
-/

namespace Steps

variable {σ τ ε : Type*}

/-- The events `es` lead from `s` to `t`. -/
def Runs (step : σ → ε → Option σ) (s : σ) (es : List ε) (t : σ) : Prop :=
  es.foldlM step s = some t

/-- Along `es` from `s`, every step starts from a state and takes an event that `G` allows. -/
def Along (step : σ → ε → Option σ) (G : σ → ε → Prop) : σ → List ε → Prop
  | _, [] => True
  | s, e :: es => G s e ∧ ∀ t, step s e = some t → Along step G t es

variable {step : σ → ε → Option σ}

theorem runs_nil {s t : σ} : Runs step s [] t ↔ s = t := by simp [Runs]

theorem runs_cons {s t : σ} {e : ε} {es : List ε} :
    Runs step s (e :: es) t ↔ ∃ u, step s e = some u ∧ Runs step u es t := by
  simp [Runs, List.foldlM_cons, Option.bind_eq_some_iff]

theorem runs_append {s t : σ} {es fs : List ε} :
    Runs step s (es ++ fs) t ↔ ∃ u, Runs step s es u ∧ Runs step u fs t := by
  simp [Runs, List.foldlM_append, Option.bind_eq_some_iff]

theorem runs_snoc {s t : σ} {e : ε} {es : List ε} :
    Runs step s (es ++ [e]) t ↔ ∃ u, Runs step s es u ∧ step u e = some t := by
  simp only [runs_append, runs_cons, runs_nil, exists_eq_right]

theorem along_append {G : σ → ε → Prop} :
    ∀ {es fs : List ε} {s : σ}, Along step G s (es ++ fs) ↔
      Along step G s es ∧ ∀ t, Runs step s es t → Along step G t fs
  | [], fs, s => by simp [Along, runs_nil]
  | e :: es, fs, s => by
    simp only [List.cons_append, Along, along_append, runs_cons]
    constructor
    · rintro ⟨h1, h2⟩
      exact ⟨⟨h1, fun t ht => (h2 t ht).1⟩, fun t ⟨u, hu, hr⟩ => (h2 u hu).2 t hr⟩
    · rintro ⟨⟨h1, h2⟩, h3⟩
      exact ⟨h1, fun t ht => ⟨h2 t ht, fun u hu => h3 u ⟨t, ht, hu⟩⟩⟩

/-- A guard holds along a list of events where it holds of each after the run of those before. -/
theorem along_iff_forall {G : σ → ε → Prop} :
    ∀ {es : List ε} {s : σ}, Along step G s es ↔
      ∀ es₁ e es₂ t, es = es₁ ++ e :: es₂ → Runs step s es₁ t → G t e
  | [], s => by simp [Along]
  | e :: es, s => by
    constructor
    · rintro ha es₁ e' es₂ t he hr
      rw [he, along_append] at ha
      exact (ha.2 t hr).1
    · intro h
      refine ⟨h [] e es s rfl (runs_nil.2 rfl), fun t ht => along_iff_forall.2 ?_⟩
      intro es₁ e' es₂ u he hr
      exact h (e :: es₁) e' es₂ u (he ▸ rfl) (runs_cons.2 ⟨t, ht, hr⟩)

theorem along_ne {x : ε} :
    ∀ {es : List ε} {s : σ}, x ∉ es → Along step (fun _ e => e ≠ x) s es
  | [], _, _ => trivial
  | e :: es, s, h => by
    rw [List.mem_cons, not_or] at h
    exact ⟨fun he => h.1 he.symm, fun t _ => along_ne h.2⟩

/-- Two guards that agree wherever an invariant holds allow the same runs. -/
theorem along_iff {G H : σ → ε → Prop} (I : σ → Prop)
    (hs : ∀ s e t, I s → G s e → step s e = some t → I t) (hg : ∀ s e, I s → (G s e ↔ H s e)) :
    ∀ {es : List ε} {s : σ}, I s → (Along step G s es ↔ Along step H s es)
  | [], _, _ => Iff.rfl
  | e :: es, s, h => by
    constructor
    · exact fun ⟨hG, ha⟩ => ⟨(hg s e h).1 hG, fun t ht =>
        (along_iff I hs hg (hs s e t h hG ht)).1 (ha t ht)⟩
    · exact fun ⟨hH, ha⟩ => ⟨(hg s e h).2 hH, fun t ht =>
        (along_iff I hs hg (hs s e t h ((hg s e h).2 hH) ht)).2 (ha t ht)⟩

/-- What ties the state to the events that led to it, kept by one more step. -/
theorem Runs.hist (I : List ε → σ → Prop) {s₀ : σ} (h0 : I [] s₀)
    (hs : ∀ es s e t, Runs step s₀ es s → I es s → step s e = some t → I (es ++ [e]) t) :
    ∀ {es : List ε} {t : σ}, Runs step s₀ es t → I es t := by
  intro es
  induction es using List.reverseRecOn with
  | nil => intro t h; rw [runs_nil] at h; exact h ▸ h0
  | append_singleton es e ih =>
    intro t h
    obtain ⟨u, hu, ht⟩ := runs_snoc.1 h
    exact hs es u e t hu (ih hu) ht

/-- An invariant every allowed step keeps holds after every run of allowed steps. -/
theorem Runs.inv_of {G : σ → ε → Prop} (I : σ → Prop) {s₀ : σ} (h0 : I s₀)
    (hs : ∀ s e t, I s → G s e → step s e = some t → I t) :
    ∀ {es : List ε} {t : σ}, Runs step s₀ es t → Along step G s₀ es → I t := by
  intro es t h
  refine Runs.hist (fun es t => Along step G s₀ es → I t) (fun _ => h0) ?_ h
  intro es s e t hr ih ht ha
  obtain ⟨h1, h2⟩ := along_append.1 ha
  exact hs s e t (ih h1) (h2 s hr).1 ht

/-- An invariant every step keeps holds after every run. -/
theorem Runs.inv (I : σ → Prop) {s₀ : σ} (h0 : I s₀)
    (hs : ∀ s e t, I s → step s e = some t → I t) {es : List ε} {t : σ}
    (h : Runs step s₀ es t) : I t :=
  Runs.hist (fun _ t => I t) h0 (fun _ s e t _ ih ht => hs s e t ih ht) h

/-- A system whose every allowed step `next` follows, keeping `R`, is followed through every run of
allowed steps. -/
theorem Runs.simulate {G : σ → ε → Prop} (R : σ → τ → Prop) (next : τ → ε → τ) {s₀ : σ} {a₀ : τ}
    (h0 : R s₀ a₀) (hs : ∀ s a e t, R s a → G s e → step s e = some t → R t (next a e))
    {es : List ε} {t : σ} (h : Runs step s₀ es t) (hg : Along step G s₀ es) :
    R t (es.foldl next a₀) := by
  refine Runs.hist (fun es t => Along step G s₀ es → R t (es.foldl next a₀)) (fun _ => h0) ?_ h hg
  intro es s e t hr ih ht ha
  obtain ⟨h1, h2⟩ := along_append.1 ha
  rw [List.foldl_append]
  exact hs s _ e t (ih h1) (h2 s hr).1 ht

end Steps
