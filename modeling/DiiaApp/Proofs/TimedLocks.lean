import DiiaApp.Proofs.Locking
import DiiaApp.TimedLocks

/-!
# Locks that expire under their executions

Where a lock expires before its execution releases it, another execution may run at the same time,
but only one that was granted the lock when its time was up (`handlers_apart`).
-/

namespace DiiaApp

open Js Leases

variable {N : Type}

/-! ## Executions and their leases -/

/-- The lease is the one of the execution. -/
structure Fits (l : Lease ℕ (Option JsString)) (e : Execution N) : Prop where
  resource : l.resource = e.lockResource
  kept : l.status = .kept ↔ e.held
  released : l.status = .released → 0 < e.releases

/-- The executions that were granted a lock have a lease of it, and no other has. -/
structure TimedExecutor.Tied (s : TimedExecutor N) : Prop where
  sound : Sound actionLockTtl s.redlock
  begun : ∀ l ∈ s.redlock.leases, l.owner < s.executor.started
  leased : ∀ i, (s.executor.executions i).request = .granted ↔
    i ∈ s.redlock.leases.map Lease.owner
  fits : ∀ l ∈ s.redlock.leases, Fits l (s.executor.executions l.owner)
  held : ∀ i, (s.executor.executions i).held → (s.executor.executions i).request = .granted
  unreleased : ∀ i, (s.executor.executions i).phase.isBusy →
    (s.executor.executions i).releases = 0

section Steps

variable {s t : TimedExecutor N} {i : ℕ} {e e' : Execution N} {x : Happening N}

theorem tied_start : (TimedExecutor.start : TimedExecutor N).Tied where
  sound := Leases.sound_start _
  begun l hl := absurd hl List.not_mem_nil
  leased i := by simp [TimedExecutor.start, Executor.start, Execution.start, Leases.start]
  fits l hl := absurd hl List.not_mem_nil
  held i h := by simp [TimedExecutor.start, Executor.start, Execution.start] at h
  unreleased _ _ := rfl

/-- One execution has changed, and what `redlock` has leased. -/
def TimedExecutor.put (s : TimedExecutor N) (i : ℕ) (e : Execution N)
    (redlock : Leases.State ℕ (Option JsString)) : TimedExecutor N :=
  ⟨{ s.executor with executions := Function.update s.executor.executions i e }, redlock⟩

section Put

variable {redlock : Leases.State ℕ (Option JsString)}

theorem put_self : (s.put i e redlock).executor.executions i = e := Function.update_self ..

theorem put_of_ne {j : ℕ} (h : j ≠ i) :
    (s.put i e redlock).executor.executions j = s.executor.executions j :=
  Function.update_of_ne h ..

end Put

/-- A step of one execution and of what it was leased. -/
theorem TimedExecutor.Tied.moved (h : s.Tied) (hi : i < s.executor.started)
    {redlock : Leases.State ℕ (Option JsString)} (hsound : Sound actionLockTtl redlock)
    (hothers : ∀ l ∈ redlock.leases, l.owner ≠ i → l ∈ s.redlock.leases)
    (hown : ∀ l ∈ redlock.leases, l.owner = i → Fits l e')
    (howners : ∀ j ≠ i, j ∈ redlock.leases.map Lease.owner ↔
      j ∈ s.redlock.leases.map Lease.owner)
    (hleased : e'.request = .granted ↔ i ∈ redlock.leases.map Lease.owner)
    (hheld : e'.held → e'.request = .granted) (hbusy : e'.phase.isBusy → e'.releases = 0) :
    (s.put i e' redlock).Tied where
  sound := hsound
  begun l hl := by
    by_cases ho : l.owner = i
    · exact ho ▸ hi
    · exact h.begun l (hothers l hl ho)
  leased j := by
    by_cases hj : j = i
    · subst hj
      rw [put_self]
      exact hleased
    · rw [put_of_ne hj]
      exact (h.leased j).trans (howners j hj).symm
  fits l hl := by
    by_cases ho : l.owner = i
    · rw [ho, put_self]
      exact hown l hl ho
    · rw [put_of_ne ho]
      exact h.fits l (hothers l hl ho)
  held j := by
    by_cases hj : j = i
    · subst hj
      rw [put_self]
      exact hheld
    · rw [put_of_ne hj]
      exact h.held j
  unreleased j := by
    by_cases hj : j = i
    · subst hj
      rw [put_self]
      exact hbusy
    · rw [put_of_ne hj]
      exact h.unreleased j

/-- A lease of the execution ends. -/
theorem TimedExecutor.Tied.ended (h : s.Tied) (hi : i < s.executor.started) {status : Status}
    (hsound : Sound actionLockTtl (s.redlock.endFor i status)) (hk : status ≠ .kept)
    (hr : status = .released → 0 < (s.executor.executions i).releases) :
    (s.put i { s.executor.executions i with held := false } (s.redlock.endFor i status)).Tied := by
  have howner : Lease.owner ∘ Lease.endFor i status =
      (Lease.owner : Lease ℕ (Option JsString) → ℕ) := funext fun _ => Lease.endFor_owner
  have howners : (s.redlock.endFor i status).leases.map Lease.owner =
      s.redlock.leases.map Lease.owner := by
    rw [State.endFor_leases, List.map_map, howner]
  refine h.moved hi hsound ?_ ?_ (fun j _ => by rw [howners]) ?_ ?_ (h.unreleased i)
  · rw [State.endFor_leases, List.forall_mem_map]
    intro l hl ho
    rw [Lease.endFor_owner] at ho
    rwa [Lease.endFor_of_ne ho]
  · rw [State.endFor_leases, List.forall_mem_map]
    intro l hl ho
    rw [Lease.endFor_owner] at ho
    subst ho
    have hf := h.fits l hl
    refine ⟨?_, ?_, ?_⟩
    · rw [Lease.endFor_resource]
      exact hf.resource
    · refine iff_of_false (fun hs => ?_) Bool.false_ne_true
      rcases Lease.endFor_status (l := l) with hsame | ⟨-, -, hnew⟩
      · rw [hs] at hsame
        rw [Lease.endFor, if_pos ⟨rfl, hsame.symm⟩] at hs
        exact hk hs
      · exact hk (hnew.symm.trans hs)
    · intro hs
      rcases Lease.endFor_status (l := l) with hsame | ⟨-, -, hnew⟩
      · exact hf.released (hsame.symm.trans hs)
      · exact hr (hnew.symm.trans hs)
  · rw [howners]
    exact h.leased i
  · exact fun hheld => absurd hheld Bool.false_ne_true

/-- Steps that neither give nor take a lock. -/
theorem Moves.quiet (h : Moves e x e') (hg : x ≠ .grant) (hu : x ≠ .unlock) (hx : x ≠ .expire) :
    e'.lockResource = e.lockResource ∧ e'.held = e.held ∧ e.releases ≤ e'.releases ∧
      (e'.request = .granted ↔ e.request = .granted) := by
  rcases h with _ | hr | _ | _ | _ | _ | _ | _ | _ | _ | _ | _ | _
  case grant => exact absurd rfl hg
  case unlock => exact absurd rfl hu
  case expire => exact absurd rfl hx
  case refuse => simp [hr]
  all_goals simp

theorem Moves.unreleased (h : Moves e x e') (hb : e.phase.isBusy → e.releases = 0) :
    e'.phase.isBusy → e'.releases = 0 := by
  rcases h with _ | _ | ⟨hp, -⟩ | ⟨hp, -⟩ | hp | hp | ⟨hp, -⟩ | ⟨hp, -⟩ | hp | hp | _ | ⟨hp, -⟩ | _
  case finishLocked => exact fun h => absurd h (by simp [Phase.isBusy])
  case finish => exact fun h => absurd h (by simp [Phase.isBusy])
  case released => exact fun h => absurd h (by simp [Phase.isBusy])
  case grant => exact hb
  case refuse => exact hb
  case unlock => exact hb
  case expire => exact hb
  all_goals exact fun _ => hb (by simp [hp, Phase.isBusy])

variable {hasRedlock : Bool}

theorem timedStep_step (h : timedStep hasRedlock s (.happens (.step i x)) = some t) :
    i < s.executor.started ∧ ∃ e redlock, (s.executor.executions i).next x = some e ∧
      s.redlockAfter (.step i x) = some redlock ∧ t = s.put i e redlock := by
  obtain ⟨executor, he, h⟩ := Option.bind_eq_some_iff.1 h
  obtain ⟨redlock, hr, rfl⟩ := Option.map_eq_some_iff.1 h
  simp only [executorStep] at he
  split_ifs at he with hg
  obtain ⟨e, hn, rfl⟩ := Option.map_eq_some_iff.1 he
  exact ⟨hg.1, e, redlock, hn, hr, rfl⟩

theorem tied_execute (hs : s.Tied) (a : LockedAction) :
    TimedExecutor.Tied ⟨⟨Function.update s.executor.executions s.executor.started
      (Execution.start hasRedlock a), s.executor.started + 1⟩, s.redlock⟩ := by
  have hnew : s.executor.started ∉ s.redlock.leases.map Lease.owner := by
    intro hm
    obtain ⟨l, hl, ho⟩ := List.mem_map.1 hm
    exact (hs.begun l hl).ne ho
  have hrequest : (Execution.start hasRedlock a : Execution N).request ≠ .granted := by
    unfold Execution.start
    dsimp only
    split_ifs <;> exact nofun
  refine ⟨hs.sound, fun l hl => Nat.lt_succ_of_lt (hs.begun l hl), fun j => ?_, fun l hl => ?_,
    fun j => ?_, fun j => ?_⟩
  · dsimp only
    by_cases hj : j = s.executor.started
    · subst hj
      rw [Function.update_self]
      exact iff_of_false hrequest hnew
    · rw [Function.update_of_ne hj]
      exact hs.leased j
  · dsimp only
    rw [Function.update_of_ne (hs.begun l hl).ne]
    exact hs.fits l hl
  · dsimp only
    by_cases hj : j = s.executor.started
    · subst hj
      rw [Function.update_self]
      exact fun hheld => absurd hheld Bool.false_ne_true
    · rw [Function.update_of_ne hj]
      exact hs.held j
  · dsimp only
    by_cases hj : j = s.executor.started
    · subst hj
      rw [Function.update_self]
      exact fun _ => rfl
    · rw [Function.update_of_ne hj]
      exact hs.unreleased j

theorem tied_grant (hs : s.Tied) (hi : i < s.executor.started)
    (he : (s.executor.executions i).grant = some e) {redlock : Leases.State ℕ (Option JsString)}
    (hr : s.redlock.grant i (s.executor.executions i).lockResource = some redlock) :
    (s.put i e redlock).Tied := by
  have hsound := hs.sound.grant hr
  unfold State.grant at hr
  split_ifs at hr with hg
  obtain rfl := Option.some.inj hr
  unfold Execution.grant at he
  split at he
  · obtain rfl := Option.some.inj he
    refine hs.moved hi hsound ?_ ?_ ?_ ?_ (fun _ => rfl) (hs.unreleased i)
    · rw [List.forall_mem_append, List.forall_mem_singleton]
      exact ⟨fun l hl _ => hl, fun h => absurd rfl h⟩
    · rw [List.forall_mem_append, List.forall_mem_singleton]
      refine ⟨fun l hl ho => absurd (List.mem_map.2 ⟨l, hl, ho⟩) hg.2, fun _ => ⟨rfl, ?_, nofun⟩⟩
      exact iff_of_true rfl rfl
    · intro j hj
      simp [hj]
    · simp
  · cases he

theorem timedStep_tied (hs : s.Tied) {ev : TimedEvent N}
    (h : timedStep hasRedlock s ev = some t) : t.Tied := by
  rcases ev with d | i | a | ⟨i, x⟩
  · obtain rfl := Option.some.inj h
    exact ⟨hs.sound.tick d, hs.begun, hs.leased, hs.fits, hs.held, hs.unreleased⟩
  · obtain ⟨redlock, hr, rfl⟩ := Option.map_eq_some_iff.1 h
    have hsound := hs.sound.expire hr
    unfold State.expire at hr
    split_ifs at hr with hdue
    obtain rfl := Option.some.inj hr
    obtain ⟨l, hl, rfl, -⟩ := hdue
    exact hs.ended (hs.begun l hl) hsound (by simp) (by simp)
  · obtain rfl := Option.some.inj h
    exact tied_execute hs a
  · obtain ⟨hi, e, redlock, he, hr, rfl⟩ := timedStep_step h
    by_cases hg : x = .grant
    · subst hg
      exact tied_grant hs hi he hr
    by_cases hu : x = .unlock
    · subst hu
      obtain rfl := Option.some.inj hr
      simp only [Execution.next, Execution.unlock] at he
      split_ifs at he with hn
      obtain rfl := Option.some.inj he
      exact hs.ended hi (hs.sound.endFor (by simp)) (by simp) fun _ => hn
    by_cases hx : x = .expire
    · subst hx
      cases hr
    have hm := next_moves he
    obtain ⟨hresource, hheld, hreleases, hrequest⟩ := hm.quiet hg hu hx
    have hsame : s.redlockAfter (.step i x) = some s.redlock := by
      cases x with
      | grant => exact absurd rfl hg
      | unlock => exact absurd rfl hu
      | expire => exact absurd rfl hx
      | _ => rfl
    obtain rfl := Option.some.inj (hsame.symm.trans hr)
    refine hs.moved hi hs.sound (fun l hl _ => hl) ?_ (fun _ _ => Iff.rfl) ?_ ?_
      (hm.unreleased (hs.unreleased i))
    · rintro l hl rfl
      have hf := hs.fits l hl
      exact ⟨hf.resource.trans hresource.symm, hheld ▸ hf.kept,
        fun hrel => (hf.released hrel).trans_le hreleases⟩
    · exact hrequest.trans (hs.leased i)
    · rw [hheld, hrequest]
      exact hs.held i

theorem runs_tied {es : List (TimedEvent N)}
    (h : Steps.Runs (timedStep hasRedlock) .start es s) : s.Tied :=
  h.inv TimedExecutor.Tied tied_start fun _ _ _ hs ht => timedStep_tied hs ht

end Steps

/-! ## Handlers at once -/

section Apart

variable {hasRedlock : Bool} {es : List (TimedEvent N)} {s : TimedExecutor N}

theorem TimedExecutor.Tied.lease (hs : s.Tied) {i : ℕ}
    (hi : (s.executor.executions i).request = .granted) :
    ∃ l ∈ s.redlock.leases, l.owner = i := List.mem_map.1 ((hs.leased i).1 hi)

/-- The handler of the first execution outlives its lock, and the second is granted it. -/
def lateHandler : List (TimedEvent ℤ) :=
  let action : LockedAction := ⟨js "act", some (js "r"), none⟩
  [.execute action, .execute action, .step 0 .grant, .step 0 .answer,
    .step 0 (.validate (.ok ()))].map .happens ++
  [.tick 40000, .expire 0] ++
  [.step 1 .grant, .step 1 .answer, .step 1 (.validate (.ok ()))].map .happens

end Apart

/-! ## Locks that are left behind -/

section Available

variable {hasRedlock : Bool} {es : List (TimedEvent N)} {s : TimedExecutor N} {i : ℕ}

theorem grant_of_free (hs : s.Tied) (hi : i < s.executor.started)
    (hp : (s.executor.executions i).request = .pending)
    (hf : s.redlock.Free (s.executor.executions i).lockResource) :
    (timedStep hasRedlock s (.happens (.step i .grant))).isSome := by
  have hfree : s.executor.Free i := by
    intro j _ hheld hr
    obtain ⟨l, hl, rfl⟩ := hs.lease (hs.held j hheld)
    have hfits := hs.fits l hl
    exact hf l hl (hfits.kept.2 hheld) (hfits.resource.trans hr)
  have howner : i ∉ s.redlock.leases.map Lease.owner := by
    rw [← hs.leased i, hp]
    exact nofun
  have hgrant : ∃ e, (s.executor.executions i).grant = some e := by
    unfold Execution.grant
    rw [hp]
    exact ⟨_, rfl⟩
  obtain ⟨e, he⟩ := hgrant
  have hstep : executorStep hasRedlock s.executor (.step i .grant) = some
      { s.executor with executions := Function.update s.executor.executions i e } := by
    rw [executorStep, if_pos ⟨hi, fun _ => hfree⟩, Execution.next, he]
    rfl
  have hredlock : s.redlockAfter (.step i .grant) = some _ := if_pos ⟨hf, howner⟩
  rw [timedStep, hstep, Option.bind_some, hredlock]
  rfl

/-- Whatever the executions do, a request that waits can be granted once `actionLockTtl` has passed:
the clock alone makes the lock free. -/
theorem lock_available (h : Steps.Runs (timedStep hasRedlock) .start es s)
    (hi : i < s.executor.started) (hp : (s.executor.executions i).request = .pending) :
    ∃ ticks t, Steps.Runs (timedStep hasRedlock) s ticks t ∧ (∀ e ∈ ticks, e.isClock) ∧
      t.redlock.clock ≤ s.redlock.clock + actionLockTtl ∧
      (timedStep hasRedlock t (.happens (.step i .grant))).isSome := by
  have hs := runs_tied h
  rcases hs.sound.exists_free (s.executor.executions i).lockResource with hf |
    ⟨j, redlock, hexpire, hf, -⟩
  · exact ⟨[], s, Steps.runs_nil.2 rfl, by simp, Nat.le_add_right _ _, grant_of_free hs hi hp hf⟩
  set ticked : TimedExecutor N := { s with redlock := s.redlock.tick actionLockTtl } with hticked
  have htick : timedStep hasRedlock s (.tick actionLockTtl) = some ticked := rfl
  have hlose : timedStep hasRedlock ticked (.expire j) = some ⟨ticked.loseLock j, redlock⟩ := by
    rw [timedStep, hexpire]
    rfl
  refine ⟨[.tick actionLockTtl, .expire j], ⟨ticked.loseLock j, redlock⟩, ?_,
    by simp [TimedEvent.isClock], ?_, ?_⟩
  · exact Steps.runs_cons.2 ⟨_, htick, Steps.runs_cons.2 ⟨_, hlose, Steps.runs_nil.2 rfl⟩⟩
  · unfold State.expire at hexpire
    split_ifs at hexpire
    obtain rfl := Option.some.inj hexpire
    exact Nat.le_refl _
  · have ht := timedStep_tied (timedStep_tied hs htick) hlose
    have hexecution : (ticked.loseLock j).executions i = s.executor.executions i ∨
        (ticked.loseLock j).executions i = { s.executor.executions i with held := false } := by
      by_cases hij : i = j
      · subst hij
        exact .inr (Function.update_self ..)
      · exact .inl (Function.update_of_ne hij ..)
    refine grant_of_free ht hi ?_ ?_
    · rcases hexecution with he | he <;> rw [he] <;> exact hp
    · rcases hexecution with he | he <;> rw [he] <;> exact hf

/-- The first of two executions is granted the lock. -/
def firstGranted : List (TimedEvent ℤ) :=
  let action : LockedAction := ⟨js "act", some (js "r"), none⟩
  [.execute action, .execute action, .step 0 .grant].map .happens

theorem lock_available_firstGranted :
    ∃ s, Steps.Runs (timedStep true) .start firstGranted s ∧
      ∃ ticks t, Steps.Runs (timedStep true) s ticks t ∧ (∀ e ∈ ticks, e.isClock) ∧
        t.redlock.clock ≤ s.redlock.clock + actionLockTtl ∧
        (timedStep true t (.happens (.step 1 .grant))).isSome := by
  have h : (firstGranted.foldlM (timedStep true) .start).any (fun s =>
      1 < s.executor.started ∧ (s.executor.executions 1).request = .pending) := by decide
  obtain ⟨s, hs, hg⟩ := (Option.any_eq_true _ _).1 h
  obtain ⟨hi, hp⟩ := of_decide_eq_true hg
  exact ⟨s, hs, lock_available hs hi hp⟩

end Available

/-! ## Executions that are over in time -/

section Refines

variable {hasRedlock : Bool} {s t : TimedExecutor N} {i : ℕ} {e e' : Execution N}
  {x : Happening N}

/-- No lock that was granted in time is due while its execution is busy. -/
def TimedExecutor.Punctual (s : TimedExecutor N) : Prop :=
  ∀ l ∈ s.redlock.leases, l.status = .kept → (s.executor.executions l.owner).grantedInTime →
    (s.executor.executions l.owner).phase.isBusy → s.redlock.clock < l.since + actionLockTtl

theorem Moves.busy (h : Moves e x e') (hb : e'.phase.isBusy) : e.phase.isBusy := by
  rcases h with _ | _ | ⟨hp, -⟩ | ⟨hp, -⟩ | hp | hp | ⟨hp, -⟩ | ⟨hp, -⟩ | hp | hp | _ | ⟨hp, -⟩ | _
  case grant => exact hb
  case refuse => exact hb
  case unlock => exact hb
  case expire => exact hb
  case released => exact absurd hb (by simp [Phase.isBusy])
  all_goals simp [hp, Phase.isBusy]

theorem Moves.grantedInTime (h : Moves e x e') (hg : x ≠ .grant) :
    e'.grantedInTime = e.grantedInTime := by
  cases h with
  | grant => exact absurd rfl hg
  | _ => rfl

theorem TimedExecutor.Punctual.put (hp : s.Punctual)
    {redlock : Leases.State ℕ (Option JsString)} (hclock : redlock.clock = s.redlock.clock)
    (hothers : ∀ l ∈ redlock.leases, l.owner ≠ i → l ∈ s.redlock.leases)
    (hown : ∀ l ∈ redlock.leases, l.owner = i → l.status = .kept → e'.grantedInTime →
      e'.phase.isBusy → s.redlock.clock < l.since + actionLockTtl) :
    (s.put i e' redlock).Punctual := by
  intro l hl hk hin hb
  show redlock.clock < _
  rw [hclock]
  by_cases ho : l.owner = i
  · rw [ho, put_self] at hin hb
    exact hown l hl ho hk hin hb
  · rw [put_of_ne ho] at hin hb
    exact hp l (hothers l hl ho) hk hin hb

/-- Where a lease ends, no other is touched. -/
theorem TimedExecutor.Punctual.ended (hp : s.Punctual) {status : Status} (hk : status ≠ .kept) :
    (s.put i { s.executor.executions i with held := false }
      (s.redlock.endFor i status)).Punctual := by
  refine hp.put rfl ?_ ?_
  · rw [State.endFor_leases, List.forall_mem_map]
    intro l hl ho
    rw [Lease.endFor_owner] at ho
    rwa [Lease.endFor_of_ne ho]
  · rw [State.endFor_leases, List.forall_mem_map]
    intro l hl ho hkept
    rw [Lease.endFor_owner] at ho
    rcases Lease.endFor_status (l := l) with hsame | ⟨-, -, hnew⟩
    · rw [hkept] at hsame
      rw [Lease.endFor, if_pos ⟨ho, hsame.symm⟩] at hkept
      exact absurd hkept hk
    · exact absurd (hnew.symm.trans hkept) hk

theorem timedStep_punctual (hs : s.Tied) (hp : s.Punctual) {ev : TimedEvent N} (hg : s.InTime ev)
    (h : timedStep hasRedlock s ev = some t) : t.Punctual := by
  rcases ev with d | i | a | ⟨i, x⟩
  · obtain rfl := Option.some.inj h
    exact hg
  · obtain ⟨redlock, hr, rfl⟩ := Option.map_eq_some_iff.1 h
    unfold State.expire at hr
    split_ifs at hr
    obtain rfl := Option.some.inj hr
    exact hp.ended (by simp)
  · obtain rfl := Option.some.inj h
    intro l hl hk hin hb
    dsimp only at hin hb
    rw [Function.update_of_ne (hs.begun l hl).ne] at hin hb
    exact hp l hl hk hin hb
  · obtain ⟨hi, e, redlock, he, hr, rfl⟩ := timedStep_step h
    by_cases hgr : x = .grant
    · subst hgr
      replace hr : s.redlock.grant i _ = some redlock := hr
      unfold State.grant at hr
      split_ifs at hr with hfree
      obtain rfl := Option.some.inj hr
      refine hp.put rfl ?_ ?_
      · rw [List.forall_mem_append, List.forall_mem_singleton]
        exact ⟨fun l hl _ => hl, fun h => absurd rfl h⟩
      · rw [List.forall_mem_append, List.forall_mem_singleton]
        refine ⟨fun l hl ho => absurd (List.mem_map.2 ⟨l, hl, ho⟩) hfree.2, fun _ _ _ _ => ?_⟩
        exact Nat.lt_add_of_pos_right (by decide)
    by_cases hu : x = .unlock
    · subst hu
      obtain rfl := Option.some.inj hr
      simp only [Execution.next, Execution.unlock] at he
      split_ifs at he
      obtain rfl := Option.some.inj he
      exact hp.ended (by simp)
    have hm := next_moves he
    have hsame : redlock = s.redlock := by
      cases x with
      | grant => exact absurd rfl hgr
      | unlock => exact absurd rfl hu
      | expire => cases hr
      | _ => exact (Option.some.inj hr).symm
    subst hsame
    refine hp.put rfl (fun l hl _ => hl) ?_
    rintro l hl rfl hk hin hb
    exact hp l hl hk (hm.grantedInTime hgr ▸ hin) (hm.busy hb)

/-- A lock that expires is held by no busy execution that was granted it in time. -/
theorem expire_untimed (hs : s.Tied) (hp : s.Punctual)
    {redlock : Leases.State ℕ (Option JsString)}
    (h : s.redlock.expire actionLockTtl i = some redlock) :
    executorStep hasRedlock s.executor (.step i .expire) = some (s.loseLock i) := by
  unfold State.expire at h
  split_ifs at h with hdue
  obtain ⟨l, hl, rfl, hk, htime⟩ := hdue
  have hlate : ¬ ((s.executor.executions l.owner).grantedInTime ∧
      (s.executor.executions l.owner).phase.isBusy) := by
    rintro ⟨hin, hb⟩
    have hlt := hp l hl hk hin hb
    omega
  have hheld := (hs.fits l hl).kept.1 hk
  rw [executorStep, if_pos ⟨hs.begun l hl, fun hg => by cases hg⟩, Execution.next,
    Execution.expire, if_pos ⟨hheld, hlate⟩]
  rfl

/-- Where every execution is over before the lock it was granted in time expires, what happens is a
run of the executions without the clock. -/
theorem timed_refines {es : List (TimedEvent N)}
    (h : Steps.Runs (timedStep hasRedlock) .start es s)
    (hg : Steps.Along (timedStep hasRedlock) TimedExecutor.InTime .start es) :
    Steps.Runs (executorStep hasRedlock) Executor.start (es.filterMap TimedEvent.untimed)
      s.executor := by
  refine (Steps.Runs.hist (fun es s => Steps.Along (timedStep hasRedlock) TimedExecutor.InTime
    .start es → s.Punctual ∧ Steps.Runs (executorStep hasRedlock) Executor.start
      (es.filterMap TimedEvent.untimed) s.executor) ?_ ?_ h hg).2
  · exact fun _ => ⟨fun l hl => absurd hl List.not_mem_nil, Steps.runs_nil.2 rfl⟩
  · intro es s ev t hr ih ht ha
    obtain ⟨ha, hev⟩ := Steps.along_append.1 ha
    obtain ⟨hp, hrun⟩ := ih ha
    have hin := (hev s hr).1
    refine ⟨timedStep_punctual (runs_tied hr) hp hin ht, ?_⟩
    rw [List.filterMap_append]
    rcases ev with d | i | e
    · obtain rfl := Option.some.inj ht
      simpa [List.filterMap, TimedEvent.untimed] using hrun
    · obtain ⟨redlock, hexpire, rfl⟩ := Option.map_eq_some_iff.1 ht
      exact Steps.runs_snoc.2 ⟨_, hrun, expire_untimed (runs_tied hr) hp hexpire⟩
    · obtain ⟨executor, he, ht⟩ := Option.bind_eq_some_iff.1 ht
      obtain ⟨redlock, -, rfl⟩ := Option.map_eq_some_iff.1 ht
      exact Steps.runs_snoc.2 ⟨_, hrun, he⟩

theorem timed_refines_tick :
    ∃ s, Steps.Runs (executorStep true) Executor.start
      ((firstGranted ++ [TimedEvent.tick 10]).filterMap TimedEvent.untimed) s := by
  have h : ((firstGranted ++ [TimedEvent.tick 10]).foldlM (timedStep true) .start).isSome := by
    decide
  obtain ⟨s, hs⟩ := Option.isSome_iff_exists.1 h
  refine ⟨s.executor, timed_refines hs (Steps.along_append.2 ⟨?_, fun t ht => ?_⟩)⟩
  · exact ⟨trivial, fun _ _ => ⟨trivial, fun _ _ => ⟨trivial, fun _ _ => trivial⟩⟩⟩
  · obtain rfl := Option.some.inj ht
    exact ⟨by unfold TimedExecutor.InTime; decide, fun _ _ => trivial⟩

end Refines

end DiiaApp
