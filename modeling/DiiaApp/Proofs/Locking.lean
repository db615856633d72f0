import DiiaApp.ActionExecutor
import DiiaApp.Steps
import Mathlib.Tactic.SplitIfs

/-!
# Locks of concurrent executions

An execution that was granted its lock while it waited holds it for as long as it is busy
(`Execution.Sound`), and one resource is held at most once (`Executor.Exclusive`): so no two handlers
run under one lock. Whether a granted lock is released depends on the timer alone (`Accounted`).
-/

namespace DiiaApp

open Js

variable {N : Type}

/-- What each step changes, and where it can be taken. -/
inductive Moves (e : Execution N) : Happening N → Execution N → Prop
  | grant (hr : e.request = .pending) :
      Moves e .grant
        { e with request := .granted, held := true, grantedInTime := e.phase.isAcquiring }
  | refuse (hr : e.request = .pending) : Moves e .refuse { e with request := .refused }
  | answer (hp : e.phase = .acquiring) (hr : e.request = .granted) :
      Moves e .answer { e with phase := .validating true }
  | answerRefused (hp : e.phase = .acquiring) (hr : e.request = .refused) :
      Moves e .answer { e with phase := .validating false }
  | timeout (hp : e.phase = .acquiring) : Moves e .timeout { e with phase := .validating false }
  | validate {lock : Bool} (hp : e.phase = .validating lock) :
      Moves e (.validate (.ok ())) { e with phase := .handling lock }
  | invalid {lock : Bool} (hp : e.phase = .validating lock) (err : Thrown N) :
      Moves e (.validate (.error err)) { e with phase := .finishing lock (.error err) }
  | handle {lock : Bool} (hp : e.phase = .handling lock) (result : Except (Thrown N) (Value N)) :
      Moves e (.handle result) { e with phase := .finishing lock result }
  | finishLocked {result : Except (Thrown N) (Value N)} (hp : e.phase = .finishing true result) :
      Moves e .finish { e with phase := .releasing result, releases := e.releases + 1 }
  | finish {result : Except (Thrown N) (Value N)} (hp : e.phase = .finishing false result) :
      Moves e .finish { e with phase := .settled result }
  | unlock (hn : 0 < e.releases) : Moves e .unlock { e with held := false }
  | released {res res' : Except (Thrown N) (Value N)} (hp : e.phase = .releasing res)
      (result : Except (Thrown N) Unit) :
      Moves e (.released result) { e with phase := .settled res' }
  | expire (hb : ¬ (e.grantedInTime ∧ e.phase.isBusy)) : Moves e .expire { e with held := false }

theorem next_moves {e e' : Execution N} {x : Happening N} (h : e.next x = some e') :
    Moves e x e' := by
  rcases x with _ | _ | _ | _ | r | r | _ | _ | r | _ <;> simp only [Execution.next] at h
  · unfold Execution.grant at h
    split at h
    · exact Option.some.inj h ▸ .grant ‹_›
    · simp at h
  · unfold Execution.refuse at h
    split at h
    · exact Option.some.inj h ▸ .refuse ‹_›
    · simp at h
  · unfold Execution.answer at h
    split at h
    · exact Option.some.inj h ▸ .answer ‹_› ‹_›
    · exact Option.some.inj h ▸ .answerRefused ‹_› ‹_›
    · simp at h
  · unfold Execution.timeout at h
    split at h
    · exact Option.some.inj h ▸ .timeout ‹_›
    · simp at h
  · unfold Execution.validate at h
    split at h
    · exact Option.some.inj h ▸ .validate ‹_›
    · exact Option.some.inj h ▸ .invalid ‹_› _
    · simp at h
  · unfold Execution.handle at h
    split at h
    · exact Option.some.inj h ▸ .handle ‹_› _
    · simp at h
  · unfold Execution.finish at h
    split at h
    · exact Option.some.inj h ▸ .finishLocked ‹_›
    · exact Option.some.inj h ▸ .finish ‹_›
    · simp at h
  · unfold Execution.unlock at h
    split_ifs at h with hn
    exact Option.some.inj h ▸ .unlock hn
  · unfold Execution.released at h
    split at h
    · exact Option.some.inj h ▸ .released ‹_› _
    · exact Option.some.inj h ▸ .released ‹_› _
    · simp at h
  · unfold Execution.expire at h
    split_ifs at h with hb
    exact Option.some.inj h ▸ .expire hb.2

/-- The resource stays, and only a grant makes a lock held. -/
theorem Moves.frame {e e' : Execution N} {x : Happening N} (h : Moves e x e') :
    e'.lockResource = e.lockResource ∧ (e'.held → e.held ∨ x.isGrant) := by
  rcases h with _ | _ | _ | _ | _ | _ | _ | _ | _ | _ | _ | _ | _ <;>
    simp [Happening.isGrant]

/-- A lock granted while the execution waited is held as long as the execution is busy. -/
structure Execution.Sound (e : Execution N) : Prop where
  requested : e.held → e.request = .granted
  inTime : e.grantedInTime → e.request = .granted
  kept : e.grantedInTime → e.phase.isBusy → e.held
  unreleased : e.phase.isBusy → e.releases = 0

theorem execution_sound (hasRedlock : Bool) (action : LockedAction) :
    (Execution.start hasRedlock action : Execution N).Sound := by
  constructor <;> simp [Execution.start]

theorem Moves.sound {e e' : Execution N} {x : Happening N} (h : Moves e x e') (hs : e.Sound) :
    e'.Sound := by
  obtain ⟨h1, h2, h3, h4⟩ := hs
  rcases h with hr | hr | ⟨hp, hr⟩ | ⟨hp, hr⟩ | hp | hp | ⟨hp, err⟩ | ⟨hp, res⟩ | hp | hp | hn |
    ⟨hp, res⟩ | hb
  case grant => exact ⟨fun _ => rfl, fun _ => rfl, fun _ _ => rfl, h4⟩
  case refuse =>
    -- a pending request is neither held nor granted
    refine ⟨fun hh => ?_, fun ht => ?_, h3, h4⟩
    · simp [h1 hh] at hr
    · simp [h2 ht] at hr
  case unlock =>
    refine ⟨fun hh => by simp at hh, h2, fun _ hb => ?_, h4⟩
    exact absurd (h4 hb) (Nat.pos_iff_ne_zero.1 hn)
  case expire =>
    exact ⟨fun hh => by simp at hh, h2, fun ht hb' => absurd ⟨ht, hb'⟩ hb, h4⟩
  case finishLocked => exact ⟨h1, h2, fun _ hb => by simp [Phase.isBusy] at hb,
    fun hb => by simp [Phase.isBusy] at hb⟩
  case finish => exact ⟨h1, h2, fun _ hb => by simp [Phase.isBusy] at hb,
    fun hb => by simp [Phase.isBusy] at hb⟩
  case released => exact ⟨h1, h2, fun _ hb => by simp [Phase.isBusy] at hb,
    fun hb => by simp [Phase.isBusy] at hb⟩
  all_goals
    have hb : e.phase.isBusy := by simp [hp, Phase.isBusy]
    exact ⟨h1, h2, fun ht _ => h3 ht hb, fun _ => h4 hb⟩

/-- Each execution is sound, none that has not begun holds a lock, and no resource is held twice. -/
structure Executor.Exclusive (s : Executor N) : Prop where
  sound : ∀ i, (s.executions i).Sound
  begun : ∀ i, (s.executions i).held → i < s.started
  once : ∀ i j, (s.executions i).held → (s.executions j).held →
    (s.executions i).lockResource = (s.executions j).lockResource → i = j

theorem exclusive_start : (Executor.start : Executor N).Exclusive :=
  ⟨fun _ => execution_sound _ _, fun _ h => by simp [Executor.start, Execution.start] at h,
    fun _ _ h => by simp [Executor.start, Execution.start] at h⟩

theorem executorStep_exclusive {hasRedlock : Bool} {s t : Executor N} {e : ExecutorEvent N}
    (hs : s.Exclusive) (h : executorStep hasRedlock s e = some t) : t.Exclusive := by
  obtain ⟨h1, h2, h3⟩ := hs
  rcases e with a | ⟨i, x⟩
  · -- a new execution holds nothing
    obtain rfl := Option.some.inj h
    have hnew : ¬ (Execution.start hasRedlock a : Execution N).held := by simp [Execution.start]
    refine ⟨fun j => ?_, fun j hj => ?_, fun j k hj hk hr => ?_⟩
    · simp only [Function.update_apply]
      split_ifs
      · exact execution_sound _ _
      · exact h1 j
    · simp only [Function.update_apply] at hj
      split_ifs at hj
      · exact absurd hj hnew
      · exact Nat.lt_succ_of_lt (h2 j hj)
    · simp only [Function.update_apply] at hj hk hr
      split_ifs at hj hk hr
      all_goals first | exact absurd hj hnew | exact absurd hk hnew | exact h3 j k hj hk hr
  · simp only [executorStep] at h
    split_ifs at h with hg
    obtain ⟨e', he', rfl⟩ := Option.map_eq_some_iff.1 h
    have hm := next_moves he'
    obtain ⟨hres, hheld⟩ := hm.frame
    -- whoever holds the resource of the `i`-th execution is the `i`-th execution
    have hother : ∀ j, j ≠ i → (s.executions j).held → e'.held →
        (s.executions j).lockResource ≠ e'.lockResource := by
      intro j hj hjh heh heq
      rw [hres] at heq
      rcases hheld heh with hih | hgr
      · exact hj (h3 j i hjh hih heq)
      · exact hg.2 hgr j (h2 j hjh) hjh heq
    refine ⟨fun j => ?_, fun j hj => ?_, fun j k hj hk hr => ?_⟩
    · simp only [Function.update_apply]
      split_ifs
      · exact hm.sound (h1 i)
      · exact h1 j
    · simp only [Function.update_apply] at hj
      split_ifs at hj with hji
      · exact hji ▸ hg.1
      · exact h2 j hj
    · simp only [Function.update_apply] at hj hk hr
      split_ifs at hj hk hr with hji hki hki
      · exact hji.trans hki.symm
      · exact absurd hr.symm (hother k hki hk hj)
      · exact absurd hr (hother j hji hj hk)
      · exact h3 j k hj hk hr

/-- Of two executions of one lock resource whose locks were granted before their timeouts, the
handlers never run at once. -/
theorem handlers_exclusive (hasRedlock : Bool) {es : List (ExecutorEvent N)} {s : Executor N}
    (h : Steps.Runs (executorStep hasRedlock) Executor.start es s) {i j : ℕ} (hij : i ≠ j)
    (hr : (s.executions i).lockResource = (s.executions j).lockResource)
    (hi : (s.executions i).grantedInTime) (hj : (s.executions j).grantedInTime) :
    ¬ ((s.executions i).phase.isHandling ∧ (s.executions j).phase.isHandling) := by
  have hs : s.Exclusive := Steps.Runs.inv Executor.Exclusive exclusive_start
    (fun _ _ _ hs ht => executorStep_exclusive hs ht) h
  rintro ⟨hhi, hhj⟩
  have hbusy : ∀ ph : Phase N, ph.isHandling → ph.isBusy := by
    rintro (_ | _ | _ | _ | _ | _) hp <;> simp_all [Phase.isHandling, Phase.isBusy]
  exact hij (hs.once i j ((hs.sound i).kept hi (hbusy _ hhi))
    ((hs.sound j).kept hj (hbusy _ hhj)) hr)

/-- Two executions of one resource, the second waiting until the first has released its lock. -/
def inTurn : List (ExecutorEvent ℤ) :=
  let action : LockedAction := ⟨js "act", some (js "r"), none⟩
  [.execute action, .execute action, .step 0 .grant, .step 0 .answer, .step 0 (.validate (.ok ())),
    .step 0 (.handle (.ok .null)), .step 0 .finish, .step 0 .unlock, .step 1 .grant,
    .step 1 .answer, .step 1 (.validate (.ok ())), .step 0 (.released (.ok ()))]

theorem handlers_exclusive_inTurn :
    ∃ s, Steps.Runs (executorStep true) Executor.start inTurn s ∧
      ¬ ((s.executions 0).phase.isHandling ∧ (s.executions 1).phase.isHandling) := by
  have h : (inTurn.foldlM (executorStep true) Executor.start).any (fun s =>
      (s.executions 0).lockResource = (s.executions 1).lockResource ∧
        (s.executions 0).grantedInTime ∧ (s.executions 1).grantedInTime) := by decide
  obtain ⟨s, hs, hg⟩ := (Option.any_eq_true _ _).1 h
  obtain ⟨hr, h0, h1⟩ := of_decide_eq_true hg
  exact ⟨s, hs, handlers_exclusive true hs (by decide) hr h0 h1⟩

/-- The execution has the lock, or has had it and released it. -/
def Execution.inHand (e : Execution N) : Bool :=
  match e.phase with
  | .acquiring => false
  | .validating lock => lock
  | .handling lock => lock
  | .finishing lock _ => lock
  | .releasing _ => 0 < e.releases
  | .settled _ => 0 < e.releases

/-- What becomes of the lock of an execution whose timer has fired or not. -/
structure Execution.Accounted (e : Execution N) (timedOut : Prop) : Prop where
  waited : timedOut → ¬ e.phase.isAcquiring ∧ ¬ e.inHand
  answered : ¬ timedOut → ¬ e.phase.isAcquiring →
    (e.inHand ↔ e.request = .granted) ∧ e.request ≠ .pending
  once : e.releases ≤ 1
  unreleased : e.phase.isBusy → e.releases = 0

theorem execution_accounted (hasRedlock : Bool) (action : LockedAction) :
    (Execution.start hasRedlock action : Execution N).Accounted False := by
  refine ⟨False.elim, fun _ hp => ?_, Nat.zero_le _, fun _ => rfl⟩
  simp only [Execution.start, Execution.inHand, Phase.isAcquiring] at hp ⊢
  split_ifs at hp ⊢ <;> simp_all

theorem Execution.Accounted.congr {e e' : Execution N} {timedOut : Prop} (h : e.Accounted timedOut)
    (ha : e'.phase.isAcquiring = e.phase.isAcquiring) (hh : e'.inHand = e.inHand)
    (hr : e'.request = e.request) (hn : e'.releases = e.releases)
    (hb : e'.phase.isBusy → e.phase.isBusy) : e'.Accounted timedOut := by
  obtain ⟨h1, h2, h3, h4⟩ := h
  refine ⟨?_, ?_, hn ▸ h3, fun hb' => hn ▸ h4 (hb hb')⟩
  · rw [ha, hh]
    exact h1
  · rw [ha, hh, hr]
    exact h2

theorem Moves.accounted {e e' : Execution N} {x : Happening N} (h : Moves e x e') {timedOut : Prop}
    (hs : e.Accounted timedOut) : e'.Accounted (timedOut ∨ x = .timeout) := by
  have hs' := hs
  obtain ⟨h1, h2, h3, h4⟩ := hs
  rcases h with hr | hr | ⟨hp, hr⟩ | ⟨hp, hr⟩ | hp | hp | ⟨hp, err⟩ | ⟨hp, res⟩ | hp | hp | hn |
    ⟨hp, res⟩ | hb <;> simp only [reduceCtorEq, or_false, or_true]
  case grant =>
    -- a request still pending after the wait is one the timer has given up
    refine ⟨h1, fun ht ha => ?_, h3, h4⟩
    exact absurd hr (h2 ht ha).2
  case refuse =>
    refine ⟨h1, fun ht ha => ?_, h3, h4⟩
    exact absurd hr (h2 ht ha).2
  case answer =>
    have ha : e.phase.isAcquiring := by simp [hp, Phase.isAcquiring]
    refine ⟨fun ht => absurd ha (h1 ht).1, fun _ _ => ?_, h3, fun _ => h4 ?_⟩
    · simp [Execution.inHand, hr]
    · simp [hp, Phase.isBusy]
  case answerRefused =>
    have ha : e.phase.isAcquiring := by simp [hp, Phase.isAcquiring]
    refine ⟨fun ht => absurd ha (h1 ht).1, fun _ _ => ?_, h3, fun _ => h4 ?_⟩
    · simp [Execution.inHand, hr]
    · simp [hp, Phase.isBusy]
  case timeout =>
    refine ⟨fun _ => ?_, fun ht => absurd trivial ht, h3, fun _ => h4 ?_⟩
    · simp [Execution.inHand, Phase.isAcquiring]
    · simp [hp, Phase.isBusy]
  case finishLocked =>
    have hh : e.inHand := by simp [Execution.inHand, hp]
    have hn : e.releases = 0 := h4 (by simp [hp, Phase.isBusy])
    refine ⟨fun ht => absurd hh (h1 ht).2, fun ht _ => ?_, by simp [hn],
      fun hb => by simp [Phase.isBusy] at hb⟩
    obtain ⟨h5, h6⟩ := h2 ht (by simp [hp, Phase.isAcquiring])
    exact ⟨iff_of_true (by simp [Execution.inHand]) (h5.1 hh), h6⟩
  case finish =>
    have hn : e.releases = 0 := h4 (by simp [hp, Phase.isBusy])
    exact hs'.congr (by simp [hp, Phase.isAcquiring]) (by simp [hp, hn, Execution.inHand]) rfl rfl
      fun hb => by simp [Phase.isBusy] at hb
  case released =>
    exact hs'.congr (by simp [hp, Phase.isAcquiring]) (by simp [hp, Execution.inHand]) rfl rfl
      fun hb => by simp [Phase.isBusy] at hb
  case unlock => exact hs'.congr rfl rfl rfl rfl id
  case expire => exact hs'.congr rfl rfl rfl rfl id
  all_goals
    exact hs'.congr (by simp [hp, Phase.isAcquiring]) (by simp [hp, Execution.inHand]) rfl rfl
      fun _ => by simp [hp, Phase.isBusy]

/-- After the events `es` every execution is accounted for, those that have not begun being in none
of them. -/
structure Executor.AllAccounted (es : List (ExecutorEvent N)) (s : Executor N) : Prop where
  begun : ∀ i x, ExecutorEvent.step i x ∈ es → i < s.started
  accounted : ∀ i, (s.executions i).Accounted (.step i .timeout ∈ es)

theorem executorStep_accounted {hasRedlock : Bool} {es : List (ExecutorEvent N)} {s t : Executor N}
    {e : ExecutorEvent N} (hs : s.AllAccounted es) (h : executorStep hasRedlock s e = some t) :
    t.AllAccounted (es ++ [e]) := by
  obtain ⟨h1, h2⟩ := hs
  rcases e with a | ⟨i, x⟩
  · obtain rfl := Option.some.inj h
    have hmem : ∀ i x, ExecutorEvent.step i x ∈ es ++ [.execute a] ↔ .step i x ∈ es := by simp
    refine ⟨fun j y hj => Nat.lt_succ_of_lt (h1 j y ((hmem j y).1 hj)), fun j => ?_⟩
    rw [hmem]
    simp only [Function.update_apply]
    split_ifs with hj
    · subst hj
      have hno : ¬ ExecutorEvent.step s.started .timeout ∈ es := fun hm => (h1 _ _ hm).false
      rw [eq_false hno]
      exact execution_accounted hasRedlock a
    · exact h2 j
  · simp only [executorStep] at h
    split_ifs at h with hg
    obtain ⟨e', he', rfl⟩ := Option.map_eq_some_iff.1 h
    have hmem : ∀ j y, ExecutorEvent.step j y ∈ es ++ [.step i x] ↔
        .step j y ∈ es ∨ (j = i ∧ y = x) := by simp
    refine ⟨fun j y hj => ?_, fun j => ?_⟩
    · rcases (hmem j y).1 hj with hj | ⟨rfl, -⟩
      · exact h1 j y hj
      · exact hg.1
    · rw [hmem]
      simp only [Function.update_apply]
      split_ifs with hj
      · subst hj
        simpa [eq_comm] using (next_moves he').accounted (h2 j)
      · simpa [hj] using h2 j

/-- In every run an execution releases its lock at most once and not before its handler has settled.
Once it has settled, a lock it was granted has been released exactly where its timer did not fire
before the answer came. -/
theorem lock_released (hasRedlock : Bool) {es : List (ExecutorEvent N)} {s : Executor N}
    (h : Steps.Runs (executorStep hasRedlock) Executor.start es s) (i : ℕ) :
    (s.executions i).releases ≤ 1 ∧
      (0 < (s.executions i).releases → ¬ (s.executions i).phase.isBusy) ∧
      ((s.executions i).phase.isSettled → (s.executions i).request = .granted →
        ((s.executions i).releases = 1 ↔ .step i .timeout ∉ es)) := by
  have hs : s.AllAccounted es := Steps.Runs.hist Executor.AllAccounted
    ⟨fun _ _ hm => by simp at hm,
      fun _ => by simpa [Executor.start] using execution_accounted false _⟩
    (fun _ _ _ _ _ hs ht => executorStep_accounted hs ht) h
  obtain ⟨h1, h2, h3, h4⟩ := hs.accounted i
  refine ⟨h3, fun hn hb => by simp [h4 hb] at hn, fun hp hr => ?_⟩
  obtain ⟨ha, hh⟩ : ¬ (s.executions i).phase.isAcquiring ∧
      ((s.executions i).inHand ↔ 0 < (s.executions i).releases) := by
    unfold Execution.inHand
    rcases hph : (s.executions i).phase with _ | _ | _ | _ | _ | _ <;>
      simp [hph, Phase.isSettled, Phase.isAcquiring] at hp ⊢
  constructor
  · intro hn ht
    exact (h1 ht).2 (hh.2 (by omega))
  · intro ht
    have := hh.1 ((h2 ht ha).1.2 hr)
    omega

/-- The lock of an execution that waits without limit is released once it is over. -/
theorem lock_released_inTurn :
    ∃ s, Steps.Runs (executorStep true) Executor.start inTurn s
      ∧ (s.executions 0).releases = 1 := by
  have h : (inTurn.foldlM (executorStep true) Executor.start).any (fun s =>
      (s.executions 0).phase.isSettled ∧ (s.executions 0).request = .granted) := by decide
  obtain ⟨s, hs, hg⟩ := (Option.any_eq_true _ _).1 h
  obtain ⟨hp, hr⟩ := of_decide_eq_true hg
  exact ⟨s, hs, ((lock_released true hs 0).2.2 hp hr).2 (by simp [inTurn])⟩

/-- The timer fires, and the lock is granted while the handler runs without it. -/
def grantedLate : List (ExecutorEvent ℤ) :=
  [.execute ⟨js "act", some (js "r"), some 1000⟩, .step 0 .timeout,
    .step 0 (.validate (.ok ())), .step 0 .grant, .step 0 (.handle (.ok .null)), .step 0 .finish]

theorem lock_left_behind :
    ∃ s, Steps.Runs (executorStep true) Executor.start grantedLate s ∧
      (s.executions 0).phase.isSettled ∧ (s.executions 0).request = .granted ∧
      (s.executions 0).held ∧ (s.executions 0).releases = 0 :=
  ⟨_, rfl, rfl, rfl, rfl, rfl⟩

end DiiaApp
