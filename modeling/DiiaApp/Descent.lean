import Mathlib.Data.Fintype.EquivFin
import Mathlib.Data.List.Forall2
import Mathlib.Logic.Relation

/-!
# Recursive descents

A function that calls itself on what its argument refers to, and may throw. For each node its plan
has the calls in order, each with what is done with its result before the next one, and what is made
of all in the end. How deep it may go is counted down (`eval`).

An outline tells the same of a plan without any results: the nodes that are called, whether what is
done with the result goes through, and whether the end does. From it follow where the descent
returns (`eval_clean`, `Clean.returns`) and where it ends at all (`terminates_iff`, `terminates_iff_no_cycle`): the
next call of a node is the first that something is wrong with, or one before it.
-/

namespace Descent

/-- Why a descent has no result. -/
inductive Halt (ε : Type)
  | tooDeep
  | thrown (err : ε)

variable {τ ρ σ ε : Type}

def lift {α : Type} : Except ε α → Except (Halt ε) α
  | .ok x => .ok x
  | .error err => .error (.thrown err)

inductive Step (τ ρ σ ε : Type)
  | done (piece : σ)
  | call (node : τ) (handle : ρ → Except ε σ)

structure Plan (τ ρ σ ε : Type) where
  steps : List (Step τ ρ σ ε)
  finish : List σ → Except ε ρ

def Step.run (call : τ → Except (Halt ε) ρ) : Step τ ρ σ ε → Except (Halt ε) σ
  | .done piece => .ok piece
  | .call node handle => call node >>= fun r => lift (handle r)

def Plan.run (call : τ → Except (Halt ε) ρ) (plan : Plan τ ρ σ ε) : Except (Halt ε) ρ :=
  plan.steps.mapM (Step.run call) >>= fun pieces => lift (plan.finish pieces)

variable (plan : τ → Plan τ ρ σ ε)

/-- The descent, at most `n` levels deep. -/
def eval : ℕ → τ → Except (Halt ε) ρ
  | 0, _ => .error .tooDeep
  | n + 1, t => (plan t).run (eval n)

/-- With enough levels the descent ends, with a result or by throwing. -/
def Terminates (t : τ) : Prop := ∃ n, eval plan n t ≠ .error .tooDeep

/-- `y` is what `x` is with more levels. -/
def Extends {α : Type} (x y : Except (Halt ε) α) : Prop := x ≠ .error .tooDeep → y = x

theorem Extends.bind {α β : Type} {x y : Except (Halt ε) α} {f g : α → Except (Halt ε) β}
    (h : Extends x y) (hf : ∀ a, Extends (f a) (g a)) : Extends (x >>= f) (y >>= g) := by
  intro hne
  rcases x with (_ | err) | a
  · exact absurd rfl hne
  · rw [h (by simp)]
    rfl
  · rw [h (by simp)]
    exact hf a hne

theorem Step.run_extends {call call' : τ → Except (Halt ε) ρ}
    (h : ∀ t, Extends (call t) (call' t)) (s : Step τ ρ σ ε) :
    Extends (s.run call) (s.run call') := by
  cases s with
  | done piece => exact fun _ => rfl
  | call node handle => exact (h node).bind fun _ _ => rfl

theorem mapM_extends {call call' : τ → Except (Halt ε) ρ}
    (h : ∀ t, Extends (call t) (call' t)) : ∀ steps : List (Step τ ρ σ ε),
      Extends (steps.mapM (Step.run call)) (steps.mapM (Step.run call'))
  | [] => fun _ => rfl
  | s :: steps => by
    rw [List.mapM_cons, List.mapM_cons]
    exact (s.run_extends h).bind fun _ => (mapM_extends h steps).bind fun _ _ => rfl

variable {plan}

theorem eval_extends : ∀ {n m : ℕ}, n ≤ m → ∀ t, Extends (eval plan n t) (eval plan m t)
  | 0, _, _, _ => fun h => absurd rfl h
  | _ + 1, 0, h, _ => absurd h (Nat.not_succ_le_zero _)
  | _ + 1, _ + 1, h, t =>
    (mapM_extends (eval_extends (Nat.le_of_succ_le_succ h)) (plan t).steps).bind fun _ _ => rfl

/-- A result stands with more levels. -/
theorem eval_mono {n m : ℕ} {t : τ} {r : ρ} (h : eval plan n t = .ok r) (hm : n ≤ m) :
    eval plan m t = .ok r := by
  rw [eval_extends hm t (by simp [h]), h]

/-- There is one result. -/
theorem eval_unique {n m : ℕ} {t : τ} {r : ρ} {x : Except (Halt ε) ρ}
    (h : eval plan n t = .ok r) (h' : eval plan m t = x) (hx : x ≠ .error .tooDeep) :
    x = .ok r := by
  subst h'
  rcases le_total n m with hm | hm
  · exact eval_mono h hm
  · exact (eval_extends hm t hx).symm.trans h

/-- `y` has every result of `x`. -/
def Admits {ε α : Type} (x y : Except ε α) : Prop := ∀ a, x = .ok a → y = .ok a

inductive Step.Admits : Step τ ρ σ ε → Step τ ρ σ ε → Prop
  | done (piece : σ) : Admits (.done piece) (.done piece)
  | call {node : τ} {handle handle' : ρ → Except ε σ}
    (h : ∀ r, Descent.Admits (handle r) (handle' r)) :
    Admits (.call node handle) (.call node handle')

structure Plan.Admits (plan plan' : Plan τ ρ σ ε) : Prop where
  steps : List.Forall₂ Step.Admits plan.steps plan'.steps
  finish : ∀ pieces, Descent.Admits (plan.finish pieces) (plan'.finish pieces)

theorem Step.Admits.refl (s : Step τ ρ σ ε) : s.Admits s := by
  cases s with
  | done piece => exact .done piece
  | call node handle => exact .call fun _ _ h => h

theorem Plan.Admits.refl (plan : Plan τ ρ σ ε) : plan.Admits plan :=
  ⟨List.forall₂_same.2 fun s _ => .refl s, fun _ _ h => h⟩

theorem Admits.bind {ε α β : Type} {x y : Except ε α} {f g : α → Except ε β} (h : Admits x y)
    (hf : ∀ a, Admits (f a) (g a)) : Admits (x >>= f) (y >>= g) := by
  intro b hb
  rcases x with err | a
  · cases hb
  · rw [h a rfl]
    exact hf a b hb

theorem Admits.lift {α : Type} {x y : Except ε α} (h : Admits x y) :
    Admits (lift x) (lift y) := by
  intro a ha
  rcases x with err | b
  · cases ha
  · rw [h b rfl]
    exact ha

theorem Step.Admits.run {s s' : Step τ ρ σ ε} (h : s.Admits s') {call call' : τ → Except (Halt ε) ρ}
    (hcall : ∀ t, Descent.Admits (call t) (call' t)) :
    Descent.Admits (s.run call) (s'.run call') := by
  cases h with
  | done piece => exact fun _ h => h
  | call h => exact (hcall _).bind fun r => (h r).lift

theorem mapM_admits {call call' : τ → Except (Halt ε) ρ} (hcall : ∀ t, Admits (call t) (call' t))
    {steps steps' : List (Step τ ρ σ ε)} (h : List.Forall₂ Step.Admits steps steps') :
    Admits (steps.mapM (Step.run call)) (steps'.mapM (Step.run call')) := by
  induction h with
  | nil => exact fun _ h => h
  | cons h _ ih =>
    rw [List.mapM_cons, List.mapM_cons]
    exact (h.run hcall).bind fun _ => ih.bind fun _ _ h => h

theorem eval_admits {plan' : τ → Plan τ ρ σ ε} (h : ∀ t, (plan t).Admits (plan' t)) :
    ∀ (n : ℕ) (t : τ), Admits (eval plan n t) (eval plan' n t)
  | 0, _ => fun _ h => nomatch h
  | n + 1, t =>
    (mapM_admits (eval_admits h n) (h t).steps).bind fun pieces => ((h t).finish pieces).lift

/-- The nodes that are called, each with whether what is done with its result goes through, and
whether what is made of all does. -/
structure Outline (τ : Type) where
  refs : List (τ × Prop)
  closes : Prop

variable (outline : τ → Outline τ)

/-- Nothing goes wrong in the descent from a node, and it has an end. -/
inductive Clean : τ → Prop
  | intro {t : τ} (goes : ∀ ref ∈ (outline t).refs, ref.2)
    (clean : ∀ ref ∈ (outline t).refs, Clean ref.1) (closes : (outline t).closes) : Clean t

/-- The descent from `t` comes to `u`: nothing goes wrong with the calls before. -/
def ComesTo (t u : τ) : Prop :=
  ∃ before goes after, (outline t).refs = before ++ (u, goes) :: after ∧
    ∀ ref ∈ before, ref.2 ∧ Clean outline ref.1

/-- The steps make the calls of the outline. What is done with a result goes through as it says,
whatever result of the node (`Gives`) it is. -/
inductive Follows (Gives : τ → ρ → Prop) : List (Step τ ρ σ ε) → List (τ × Prop) → Prop
  | nil : Follows Gives [] []
  | done {piece : σ} {steps : List (Step τ ρ σ ε)} {refs : List (τ × Prop)}
    (h : Follows Gives steps refs) : Follows Gives (.done piece :: steps) refs
  | call {node : τ} {handle : ρ → Except ε σ} {goes : Prop} {steps : List (Step τ ρ σ ε)}
    {refs : List (τ × Prop)} (hgoes : ∀ r, Gives node r → ((∃ x, handle r = .ok x) ↔ goes))
    (h : Follows Gives steps refs) :
    Follows Gives (.call node handle :: steps) ((node, goes) :: refs)

/-- A piece that a step may make. -/
def Made (Gives : τ → ρ → Prop) : Step τ ρ σ ε → σ → Prop
  | .done piece, x => x = piece
  | .call node handle, x => ∃ r, Gives node r ∧ handle r = .ok x

/-- Steps made of a list follow what the same list gives for an outline. -/
theorem Follows.of_forall {Gives : τ → ρ → Prop} {α : Type} {step : α → Step τ ρ σ ε}
    {ref : α → Option (τ × Prop)} : ∀ {xs : List α},
      (∀ a ∈ xs, (ref a = none ∧ ∃ piece, step a = .done piece) ∨
        ∃ node handle goes, step a = .call node handle ∧ ref a = some (node, goes) ∧
          ∀ r, Gives node r → ((∃ x, handle r = .ok x) ↔ goes)) →
      Follows Gives (xs.map step) (xs.filterMap ref)
  | [], _ => .nil
  | a :: xs, h => by
    rw [List.forall_mem_cons] at h
    rcases h.1 with ⟨hr, piece, hs⟩ | ⟨node, handle, goes, hs, hr, hgoes⟩
    · rw [List.map_cons, hs, List.filterMap_cons_none hr]
      exact .done (of_forall h.2)
    · rw [List.map_cons, hs, List.filterMap_cons_some hr]
      exact .call hgoes (of_forall h.2)

/-- Steps that are all calls. -/
theorem Follows.calls {Gives : τ → ρ → Prop} {α : Type} {node : α → τ}
    {handle : α → ρ → Except ε σ} {goes : α → Prop} : ∀ {xs : List α},
      (∀ a ∈ xs, ∀ r, Gives (node a) r → ((∃ x, handle a r = .ok x) ↔ goes a)) →
      Follows Gives (xs.map fun a => .call (node a) (handle a)) (xs.map fun a => (node a, goes a))
  | [], _ => .nil
  | a :: xs, h => by
    rw [List.forall_mem_cons] at h
    exact .call h.1 (calls h.2)

theorem made_of_mem {Gives : τ → ρ → Prop} {steps : List (Step τ ρ σ ε)} {pieces : List σ}
    (h : List.Forall₂ (Made Gives) steps pieces) :
    ∀ piece ∈ pieces, ∃ s ∈ steps, Made Gives s piece := by
  induction h with
  | nil => simp
  | cons h _ ih =>
    rw [List.forall_mem_cons]
    exact ⟨⟨_, List.mem_cons_self, h⟩, fun piece hp =>
      (ih piece hp).imp fun s hs => ⟨List.mem_cons_of_mem _ hs.1, hs.2⟩⟩

theorem made_mem {Gives : τ → ρ → Prop} {steps : List (Step τ ρ σ ε)} {pieces : List σ}
    (h : List.Forall₂ (Made Gives) steps pieces) :
    ∀ s ∈ steps, ∃ piece ∈ pieces, Made Gives s piece := by
  induction h with
  | nil => simp
  | cons h _ ih =>
    rw [List.forall_mem_cons]
    exact ⟨⟨_, List.mem_cons_self, h⟩, fun s hs =>
      (ih s hs).imp fun piece hp => ⟨List.mem_cons_of_mem _ hp.1, hp.2⟩⟩

/-- The outline of a plan, with what its results are known to be. -/
structure OutlineOf (Gives : τ → ρ → Prop) (plan : Plan τ ρ σ ε) (outline : Outline τ)
    (Result : ρ → Prop) : Prop where
  follows : Follows Gives plan.steps outline.refs
  closes : ∀ pieces, List.Forall₂ (Made Gives) plan.steps pieces →
    ((∃ r, plan.finish pieces = .ok r) ↔ outline.closes)
  gives : ∀ pieces r, List.Forall₂ (Made Gives) plan.steps pieces →
    plan.finish pieces = .ok r → Result r

variable (plan) in
def Outlines (Gives : τ → ρ → Prop) : Prop :=
  ∀ t, OutlineOf Gives (plan t) (outline t) (Gives t)

variable {outline} {Gives : τ → ρ → Prop}

theorem lift_eq_ok {α : Type} {x : Except ε α} {a : α} : lift x = .ok a ↔ x = .ok a := by
  rcases x with err | b <;> simp [lift]

theorem mapM_clean {call : τ → Except (Halt ε) ρ}
    (hcall : ∀ t r, call t = .ok r → Gives t r ∧ Clean outline t)
    {steps : List (Step τ ρ σ ε)} {refs : List (τ × Prop)} (hf : Follows Gives steps refs) :
    ∀ {pieces : List σ}, steps.mapM (Step.run call) = .ok pieces →
      List.Forall₂ (Made Gives) steps pieces ∧ ∀ ref ∈ refs, ref.2 ∧ Clean outline ref.1 := by
  induction hf with
  | nil =>
    rintro pieces ⟨⟩
    exact ⟨.nil, by simp⟩
  | @done piece steps refs hf ih =>
    intro pieces h
    rcases hm : steps.mapM (Step.run call) with err | xs
    · simp [List.mapM_cons, Step.run, hm, bind, Except.bind] at h
    · obtain ⟨⟩ : piece :: xs = pieces := by
        simpa [List.mapM_cons, Step.run, hm, bind, Except.bind, pure, Except.pure] using h
      exact ⟨.cons rfl (ih hm).1, (ih hm).2⟩
  | @call node handle goes steps refs hgoes hf ih =>
    intro pieces h
    rcases hc : call node with err | r
    · simp [List.mapM_cons, Step.run, hc, bind, Except.bind] at h
    rcases hr : handle r with err | x
    · simp [List.mapM_cons, Step.run, hc, hr, lift, bind, Except.bind] at h
    rcases hm : steps.mapM (Step.run call) with err | xs
    · simp [List.mapM_cons, Step.run, hc, hr, hm, lift, bind, Except.bind] at h
    obtain ⟨⟩ : x :: xs = pieces := by
      simpa [List.mapM_cons, Step.run, hc, hr, hm, lift, bind, Except.bind, pure, Except.pure]
        using h
    obtain ⟨hg, hclean⟩ := hcall node r hc
    refine ⟨.cons ⟨r, hg, hr⟩ (ih hm).1, ?_⟩
    rw [List.forall_mem_cons]
    exact ⟨⟨(hgoes r hg).1 ⟨x, hr⟩, hclean⟩, (ih hm).2⟩

/-- A result is one of the node, and nothing went wrong. -/
theorem eval_clean (ho : Outlines plan outline Gives) :
    ∀ {n : ℕ} {t : τ} {r : ρ}, eval plan n t = .ok r → Gives t r ∧ Clean outline t
  | 0, _, _, h => by simp [eval] at h
  | n + 1, t, r, h => by
    rw [eval, Plan.run] at h
    rcases hm : (plan t).steps.mapM (Step.run (eval plan n)) with err | pieces
    · simp [hm, bind, Except.bind] at h
    obtain ⟨hp, hrefs⟩ := mapM_clean (fun _ _ => eval_clean ho) (ho t).follows hm
    have hr : (plan t).finish pieces = .ok r := by
      simpa [hm, bind, Except.bind, lift_eq_ok] using h
    exact ⟨(ho t).gives pieces r hp hr, .intro (fun ref h => (hrefs ref h).1)
      (fun ref h => (hrefs ref h).2) (((ho t).closes pieces hp).1 ⟨r, hr⟩)⟩

theorem mapM_mono {n m : ℕ} {steps : List (Step τ ρ σ ε)} {pieces : List σ}
    (h : steps.mapM (Step.run (eval plan n)) = .ok pieces) (hm : n ≤ m) :
    steps.mapM (Step.run (eval plan m)) = .ok pieces := by
  rw [mapM_extends (eval_extends hm) steps (by simp [h]), h]

theorem mapM_returns (ho : Outlines plan outline Gives) {steps : List (Step τ ρ σ ε)}
    {refs : List (τ × Prop)} (hf : Follows Gives steps refs) :
    (∀ ref ∈ refs, ref.2 ∧ ∃ n r, eval plan n ref.1 = .ok r) →
      ∃ n pieces, steps.mapM (Step.run (eval plan n)) = .ok pieces := by
  induction hf with
  | nil => exact fun _ => ⟨0, [], rfl⟩
  | @done piece steps refs hf ih =>
    intro h
    obtain ⟨n, pieces, hp⟩ := ih h
    exact ⟨n, piece :: pieces, by
      simp [List.mapM_cons, Step.run, hp, bind, Except.bind, pure, Except.pure]⟩
  | @call node handle goes steps refs hgoes hf ih =>
    intro h
    rw [List.forall_mem_cons] at h
    obtain ⟨⟨hg, n, r, hr⟩, hrefs⟩ := h
    obtain ⟨m, pieces, hp⟩ := ih hrefs
    obtain ⟨x, hx⟩ := (hgoes r (eval_clean ho hr).1).2 hg
    refine ⟨max n m, x :: pieces, ?_⟩
    simp [List.mapM_cons, Step.run, eval_mono hr (le_max_left n m), hx, lift,
      mapM_mono hp (le_max_right n m), bind, Except.bind, pure, Except.pure]

theorem Clean.returns (ho : Outlines plan outline Gives) {t : τ} (h : Clean outline t) :
    ∃ n r, eval plan n t = .ok r := by
  induction h with
  | @intro t goes clean closes ih =>
    obtain ⟨n, pieces, hp⟩ := mapM_returns ho (ho t).follows fun ref h => ⟨goes ref h, ih ref h⟩
    have hmade := (mapM_clean (fun _ _ => eval_clean ho) (ho t).follows hp).1
    obtain ⟨r, hr⟩ := ((ho t).closes pieces hmade).2 closes
    exact ⟨n + 1, r, by simp [eval, Plan.run, hp, hr, lift, bind, Except.bind]⟩

theorem mapM_ends (ho : Outlines plan outline Gives) {steps : List (Step τ ρ σ ε)}
    {refs : List (τ × Prop)} (hf : Follows Gives steps refs) :
    (∀ before u goes after, refs = before ++ (u, goes) :: after →
      (∀ ref ∈ before, ref.2 ∧ Clean outline ref.1) → Terminates plan u) →
      ∃ n, steps.mapM (Step.run (eval plan n)) ≠ .error .tooDeep := by
  induction hf with
  | nil => exact fun _ => ⟨0, by simp [pure, Except.pure]⟩
  | @done piece steps refs hf ih =>
    intro h
    obtain ⟨n, hn⟩ := ih h
    refine ⟨n, ?_⟩
    rcases hm : steps.mapM (Step.run (eval plan n)) with (_ | err) | pieces
    · exact absurd hm hn
    all_goals simp [List.mapM_cons, Step.run, hm, bind, Except.bind, pure, Except.pure]
  | @call node handle goes steps refs hgoes hf ih =>
    intro h
    obtain ⟨n, hn⟩ := h [] node goes refs rfl (by simp)
    rcases hr : eval plan n node with (_ | err) | r
    · exact absurd hr hn
    · exact ⟨n, by simp [List.mapM_cons, Step.run, hr, bind, Except.bind]⟩
    obtain ⟨hg, hclean⟩ := eval_clean ho hr
    rcases hx : handle r with err | x
    · exact ⟨n, by simp [List.mapM_cons, Step.run, hr, hx, lift, bind, Except.bind]⟩
    have hgo : goes := (hgoes r hg).1 ⟨x, hx⟩
    obtain ⟨m, hm⟩ := ih fun before u goes' after hrefs hbefore =>
      h ((node, goes) :: before) u goes' after (by rw [hrefs, List.cons_append])
        (List.forall_mem_cons.2 ⟨⟨hgo, hclean⟩, hbefore⟩)
    refine ⟨max n m, ?_⟩
    have hext := mapM_extends (eval_extends (le_max_right n m)) steps hm
    rcases hp : steps.mapM (Step.run (eval plan m)) with (_ | err) | pieces
    · exact absurd hp hm
    all_goals
      simp [List.mapM_cons, Step.run, eval_mono hr (le_max_left n m), hx, lift, hext.trans hp,
        bind, Except.bind, pure, Except.pure]

/-- A call that the steps come to ends where they do. -/
theorem called_ends (ho : Outlines plan outline Gives) {n : ℕ} {u : τ} {goes : Prop}
    {after : List (τ × Prop)} {steps : List (Step τ ρ σ ε)} {refs : List (τ × Prop)}
    (hf : Follows Gives steps refs) : ∀ {before : List (τ × Prop)},
      refs = before ++ (u, goes) :: after → (∀ ref ∈ before, ref.2 ∧ Clean outline ref.1) →
      steps.mapM (Step.run (eval plan n)) ≠ .error .tooDeep → eval plan n u ≠ .error .tooDeep := by
  induction hf with
  | nil => simp
  | @done piece steps refs hf ih =>
    intro before hrefs hbefore hm
    refine ih hrefs hbefore fun h => hm ?_
    simp [List.mapM_cons, Step.run, h, bind, Except.bind]
  | @call node handle goes' steps refs hgoes hf ih =>
    intro before hrefs hbefore hm hu
    rcases before with _ | ⟨ref, before⟩
    · obtain ⟨⟨⟩, -⟩ := List.cons.inj hrefs
      exact hm (by simp [List.mapM_cons, Step.run, hu, bind, Except.bind])
    · obtain ⟨rfl, htail⟩ := List.cons.inj hrefs
      rw [List.forall_mem_cons] at hbefore
      obtain ⟨⟨hgo, hclean⟩, hbefore⟩ := hbefore
      obtain ⟨m, r, hr⟩ := hclean.returns ho
      have hnode : eval plan n node = .ok r := by
        refine eval_unique hr rfl fun h => hm ?_
        simp [List.mapM_cons, Step.run, h, bind, Except.bind]
      obtain ⟨x, hx⟩ := (hgoes r (eval_clean ho hr).1).2 hgo
      refine ih htail hbefore (fun h => hm ?_) hu
      simp [List.mapM_cons, Step.run, hnode, hx, lift, h, bind, Except.bind]

theorem eval_acc (ho : Outlines plan outline Gives) :
    ∀ {n : ℕ} {t : τ}, eval plan n t ≠ .error .tooDeep →
      Acc (fun u t => ComesTo outline t u) t
  | 0, _, h => absurd rfl h
  | n + 1, t, h => by
    refine .intro t fun u ⟨before, goes, after, hrefs, hbefore⟩ => eval_acc ho (n := n) ?_
    refine called_ends ho (ho t).follows hrefs hbefore fun hm => h ?_
    simp [eval, Plan.run, hm, bind, Except.bind]

/-- A descent ends just from where it cannot come to one node after the other without end. -/
theorem terminates_iff (ho : Outlines plan outline Gives) {t : τ} :
    Terminates plan t ↔ Acc (fun u t => ComesTo outline t u) t := by
  constructor
  · exact fun ⟨n, hn⟩ => eval_acc ho hn
  · intro h
    induction h with
    | intro t _ ih =>
      obtain ⟨n, hn⟩ := mapM_ends ho (ho t).follows fun before u goes after hrefs hbefore =>
        ih u ⟨before, goes, after, hrefs, hbefore⟩
      refine ⟨n + 1, ?_⟩
      rcases hm : (plan t).steps.mapM (Step.run (eval plan n)) with (_ | err) | pieces
      · exact absurd hm hn
      · simp [eval, Plan.run, hm, bind, Except.bind]
      · rcases hr : (plan t).finish pieces with err | r <;>
          simp [eval, Plan.run, hm, hr, lift, bind, Except.bind]

/-- Among finitely many nodes a chain without end comes back to one of its own. -/
theorem acc_iff_no_cycle [Finite τ] {next : τ → τ → Prop} {t : τ} :
    Acc (fun u t => next t u) t ↔
      ∀ u, Relation.ReflTransGen next t u → ¬ Relation.TransGen next u u := by
  constructor
  · intro h
    induction h with
    | intro t h ih =>
      intro u hu hcycle
      rcases hu.cases_head with rfl | ⟨v, hv, hvu⟩
      · obtain ⟨v, hv, hvt⟩ := Relation.TransGen.head'_iff.1 hcycle
        exact ih v hv t hvt hcycle
      · exact ih v hv u hvu hcycle
  · intro h
    -- among what `t` leads to, to be led to is transitive, and irreflexive as there is no cycle
    let later : { u // Relation.ReflTransGen next t u } →
        { u // Relation.ReflTransGen next t u } → Prop :=
      fun u v => Relation.TransGen next v.1 u.1
    have htrans : IsTrans _ later := ⟨fun _ _ _ huv hvw => hvw.trans huv⟩
    have hirrefl : Std.Irrefl later := ⟨fun u hu => h u.1 u.2 hu⟩
    have hwf := Finite.wellFounded_of_trans_of_irrefl later
    have hacc : ∀ u : { u // Relation.ReflTransGen next t u }, Acc (fun u t => next t u) u.1 := by
      intro u
      refine hwf.induction (C := fun u => Acc (fun u t => next t u) u.1) u fun v ih => ?_
      exact .intro v.1 fun w hw => ih ⟨w, v.2.tail hw⟩ (.single hw)
    exact hacc ⟨t, .refl⟩

theorem terminates_iff_no_cycle [Finite τ] (ho : Outlines plan outline Gives) {t : τ} :
    Terminates plan t ↔ ∀ u, Relation.ReflTransGen (ComesTo outline) t u →
      ¬ Relation.TransGen (ComesTo outline) u u :=
  (terminates_iff ho).trans acc_iff_no_cycle

end Descent
