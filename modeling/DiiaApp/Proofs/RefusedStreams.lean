import DiiaApp.Proofs.StreamSettles
import DiiaApp.Proofs.WriteAfterEnd

/-!
# Work for refused streams

A call whose subscription is refused is ended, and so is one whose hook throws, but the handler goes
on: it runs the hook, attaches the listeners and takes the request as the first message. What is
done for such a call is nothing just where the action has no hook, the call has no request and no
message comes later (`refused_idle_iff`).
-/

namespace DiiaApp

open Js

variable {σ N : Type}

/-- `t` has the calls of `s`, with the same actions in flight on them. -/
structure Undisturbed (s t : Server σ N) : Prop where
  opened : t.opened = s.opened
  inFlight : ∀ c, (t.calls c).inFlight = (s.calls c).inFlight

namespace Undisturbed

theorem refl (s : Server σ N) : Undisturbed s s := ⟨rfl, fun _ => rfl⟩

theorem trans {s t u : Server σ N} (h : Undisturbed s t) (h' : Undisturbed t u) :
    Undisturbed s u :=
  ⟨h'.opened.trans h.opened, fun c => (h'.inFlight c).trans (h.inFlight c)⟩

theorem with_action (s : Server σ N) (st : σ) : Undisturbed s { s with action := st } :=
  ⟨rfl, fun _ => rfl⟩

theorem send (s : Server σ N) (c : CallRef) (x : Sent N) : Undisturbed s (s.send c x) :=
  ⟨rfl, fun c' => send_inFlight s c c' x⟩

end Undisturbed

theorem closeExisting_undisturbed (a : StreamAction σ N) (m : JsString) (ids : List (Value N))
    (s : Server σ N) : Undisturbed s (closeExisting a m ids s).2 := by
  induction ids generalizing s with
  | nil => exact .refl s
  | cons id ids ih =>
    unfold closeExisting
    rcases connectionOf s id with _ | ⟨sid, c⟩
    · exact ih s
    rcases a.unsubscribeChannel with _ | unsubscribe
    · exact .refl s
    dsimp only
    rcases unsubscribe ⟨m, sid⟩ s.action with ⟨e | _, st⟩
    · exact .with_action s st
    · exact ((Undisturbed.with_action s st).trans (.send _ c .end)).trans (ih _)

theorem resubscribe_undisturbed (a : StreamAction σ N)
    (subscribe : σ → Except (Thrown N) Unit × σ) (m : JsString) (c : CallRef) (e : ApiError N)
    (s : Server σ N) : Undisturbed s (resubscribe a subscribe m c e s).2 := by
  unfold resubscribe
  split_ifs
  · rcases (getProp e.data (js "subscriptions")).bind iterate with _ | ids
    · exact .refl s
    have h := closeExisting_undisturbed a m ids s
    dsimp only
    rcases hce : closeExisting a m ids s with ⟨_ | _, t⟩ <;> rw [hce] at h
    · exact h
    · exact h.trans (.with_action t _)
  · exact .send s c .end

theorem subscribeStream_undisturbed (p : Packages N) (a : StreamAction σ N) (uid : Option JsString)
    (sid : JsString) (c : CallRef) (s : Server σ N) :
    Undisturbed s (subscribeStream p a uid sid c s).2 := by
  rcases hf : a.subscribeChannel with _ | f
  · rw [subscribeStream_skipped (.inl hf)]
    exact .refl s
  rcases hm : nonEmpty uid with _ | m
  · rw [subscribeStream_skipped (.inr hm)]
    exact .refl s
  rcases hs : f ⟨m, sid⟩ c s.action with ⟨e | _, st⟩
  · rw [subscribeStream_failed hf hm hs]
    exact (Undisturbed.with_action s st).trans (resubscribe_undisturbed a _ m c _ _)
  · rw [subscribeStream_subscribed hf hm hs]
    exact .with_action s st

theorem connectionOpened_undisturbed (a : StreamAction σ N) (o : Opening N) (c : CallRef)
    (s : Server σ N) : Undisturbed s (connectionOpened a o c s) := by
  refine ⟨(connectionOpened_keeps a o c s).opened, fun c' => ?_⟩
  unfold connectionOpened
  split_ifs
  · rw [send_inFlight]
    exact (publishes_alike a o.hookPublishes s c').1
  · exact (publishes_alike a o.hookPublishes s c').1
  · rfl

def Work.taken : Work N → Option (InFlight N)
  | .onConnectionOpened => none
  | .message x => some x

section Opening

variable [JsNumber N] {p : Packages N} {actions : Js.Map ActionVersion (StreamAction σ N)}
  {a : StreamAction σ N} {s t : Server σ N} {o : Opening N} {h : ActHeaders N}

theorem attachListeners_inFlight (o : Opening N) (c : CallRef) (s : Server σ N) :
    ((attachListeners o c s).calls c).inFlight =
      (s.calls c).inFlight ++ if o.request.truthy then [o.onRequest] else [] := by
  unfold attachListeners startAction
  split_ifs <;> simp [Server.calls_update]

/-- The subscription of a new call, made once it is registered. -/
def openSubscription (p : Packages N) (a : StreamAction σ N) (s : Server σ N) (o : Opening N)
    (h : ActHeaders N) : Except (Thrown N) Unit × Server σ N :=
  subscribeStream p a h.mobileUid o.streamId s.opened (register s o h.mobileUid)

omit [JsNumber N] in
theorem openSubscription_new (p : Packages N) (a : StreamAction σ N) (s : Server σ N)
    (o : Opening N) (h : ActHeaders N) :
    (openSubscription p a s o h).2.opened = s.opened + 1 ∧
      ((openSubscription p a s o h).2.calls s.opened).inFlight = [] := by
  obtain ⟨h1, h2⟩ := subscribeStream_undisturbed p a h.mobileUid o.streamId s.opened
    (register s o h.mobileUid)
  refine ⟨h1, (h2 s.opened).trans ?_⟩
  simp [register, accept]

/-- A call that is set up: nothing more is done where its subscription throws, else the hook is run
and the request taken. -/
theorem openStream_set_up (hs : setupStream p actions o = .ok (h, a)) :
    (∃ err, (openSubscription p a s o h).1 = .error err ∧ openWork p actions s o = [] ∧
      (openStream p actions s o).2 = (openSubscription p a s o h).2) ∨
    ((openSubscription p a s o h).1 = .ok () ∧
      openWork p actions s o = (if a.hasOnConnectionOpened then [.onConnectionOpened] else []) ++
        (if o.request.truthy then [.message o.onRequest] else []) ∧
      (openStream p actions s o).2 = attachListeners o s.opened
        (connectionOpened a o s.opened (openSubscription p a s o h).2)) := by
  unfold openSubscription openWork openStream
  rw [hs]
  dsimp only
  rcases subscribeStream p a h.mobileUid o.streamId s.opened (register s o h.mobileUid) with
    ⟨err | _, u⟩
  · exact .inl ⟨err, rfl, rfl, rfl⟩
  · exact .inr ⟨rfl, rfl, rfl⟩

/-- A new call is the next one, and the messages that the action is given for it are in flight. -/
theorem openStream_inFlight (s : Server σ N) (o : Opening N) :
    (openStream p actions s o).2.opened = s.opened + 1 ∧
      ((openStream p actions s o).2.calls s.opened).inFlight =
        (openWork p actions s o).filterMap Work.taken := by
  rcases hs : setupStream p actions o with err | ⟨h, a⟩
  · simp [openStream, openWork, hs, accept]
  obtain ⟨hnew, hfresh⟩ := openSubscription_new p a s o h
  rcases openStream_set_up (s := s) hs with ⟨err, -, hw, ht⟩ | ⟨-, hw, ht⟩
  · rw [ht, hw]
    exact ⟨hnew, hfresh⟩
  · have hc := connectionOpened_undisturbed a o s.opened (openSubscription p a s o h).2
    rw [ht, hw, attachListeners_inFlight, hc.inFlight, hfresh, (attachListeners_keeps _ _ _).opened,
      hc.opened]
    refine ⟨hnew, ?_⟩
    split_ifs <;> rfl

end Opening

section Runs

variable [JsNumber N] {p : Packages N} {a : StreamAction σ N} {s t : Server σ N}
  {c : CallRef} {w : Work N}

theorem streamStep_opened {e : StreamEvent N} (h : streamStep p a s e = some t) :
    s.opened ≤ t.opened := by
  cases streamStep_moves h with
  | opens => exact (openStream_inFlight s _).1 ▸ Nat.le_succ _
  | data => exact (startAction_keeps s ..).opened.ge
  | settled => exact (settle_keeps p s ..).opened.ge
  | halfClose => exact (Server.send_keeps s _ .end).opened.ge
  | close =>
    unfold closeStream
    dsimp only
    split
    · split <;> exact le_rfl
    · exact le_rfl
  | publish x => exact (publish_keeps a s x).opened.ge
  | destroy => exact (Server.endAll_keeps s.streamConnections.values s).opened.ge

/-- For a call that is open, the work of a step is on a message of it. -/
theorem stepWork_later (hc : c < s.opened) {e : StreamEvent N} :
    (c, w) ∈ stepWork p a s e ↔ ∃ x, w = .message x ∧ e = .data c x := by
  cases e with
  | «open» o =>
    refine iff_of_false (fun hm => ?_) (by simp)
    obtain ⟨w', -, he⟩ := List.mem_map.1 hm
    exact hc.ne' (Prod.mk.inj he).1
  | data c' x => simp [stepWork, eq_comm, and_comm]
  | _ => simp [stepWork]

/-- For a call that is open, the work of a run is on its messages. -/
theorem runWork_later {es : List (StreamEvent N)} (h : Steps.Runs (streamStep p a) s es t)
    (hc : c < s.opened) :
    (c, w) ∈ runWork p a s es ↔ ∃ x, w = .message x ∧ .data c x ∈ es := by
  induction es generalizing s with
  | nil => simp [runWork]
  | cons e es ih =>
    obtain ⟨u, hu, hr⟩ := Steps.runs_cons.1 h
    have ihu := ih hr (hc.trans_le (streamStep_opened hu))
    rw [runWork, hu, Option.elim_some, List.mem_append, stepWork_later hc, ihu]
    simp only [List.mem_cons, and_or_left, exists_or, eq_comm]

/-- The work of a run that opens a call: that of the open, then that on later messages. -/
theorem runWork_open {o : Opening N} {es : List (StreamEvent N)}
    (h : Steps.Runs (streamStep p a) s (.open o :: es) t) :
    (s.opened, w) ∈ runWork p a s (.open o :: es) ↔
      w ∈ openWork p (soleAction a) s o ∨ ∃ x, w = .message x ∧ .data s.opened x ∈ es := by
  obtain ⟨u, hu, hr⟩ := Steps.runs_cons.1 h
  have hlt : s.opened < u.opened := by
    cases streamStep_moves hu with
    | opens => exact (openStream_inFlight s o).1 ▸ Nat.lt_succ_self _
  rw [runWork, hu, Option.elim_some, List.mem_append, runWork_later hr hlt]
  simp [stepWork]

end Runs

section Refused

variable [JsNumber N] (p : Packages N) (a : StreamAction σ N) (s : Server σ N) (o : Opening N)

/-- The subscription of a new call throws, and not for the subscriptions there are. -/
def TurnedAway : Prop :=
  ∃ m subscribe err st, openedFrom p a o = some m ∧ a.subscribeChannel = some subscribe ∧
    subscribe ⟨m, o.streamId⟩ s.opened s.action = (.error err, st) ∧
    (handleError p err).code ≠ subscriptionsExists

/-- The hook is run for a new call, and throws. -/
def HookFails : Prop :=
  .onConnectionOpened ∈ openWork p (soleAction a) s o ∧ o.hookThrows.isSome

variable {p a s o}

/-- A call that is turned away is ended, and opened like any other. -/
theorem TurnedAway.opens (h : TurnedAway p a s o) :
    openWork p (soleAction a) s o =
        (if a.hasOnConnectionOpened then [.onConnectionOpened] else []) ++
          (if o.request.truthy then [.message o.onRequest] else []) ∧
      ((openStream p (soleAction a) s o).2.calls s.opened).Ended := by
  obtain ⟨m, f, err, st, hm, hf, hthrows, hcode⟩ := h
  rw [openedFrom] at hm
  rcases hs : setupStream p (soleAction a) o with _ | ⟨h, a'⟩
  · rw [hs] at hm
    cases hm
  rw [hs] at hm
  rw [setupStream_sole p hs] at hs
  have hthrows : f ⟨m, o.streamId⟩ s.opened (register s o h.mobileUid).action = (.error err, st) :=
    hthrows
  have hsub : openSubscription p a s o h = (.ok (),
      ({ register s o h.mobileUid with action := st } : Server σ N).send s.opened .end) := by
    rw [openSubscription, subscribeStream_failed hf hm hthrows, resubscribe, if_neg hcode]
  rcases openStream_set_up (s := s) hs with ⟨err', herr, -⟩ | ⟨-, hw, ht⟩
  · rw [hsub] at herr
    cases herr
  · refine ⟨hw, ?_⟩
    rw [ht, hsub]
    exact (attachListeners_keeps _ _ _).ended ((connectionOpened_keeps _ _ _ _).ended
      (Server.send_ended _ _))

theorem HookFails.opens (h : HookFails p a s o) :
    openWork p (soleAction a) s o = .onConnectionOpened ::
        (if o.request.truthy then [.message o.onRequest] else []) ∧
      ((openStream p (soleAction a) s o).2.calls s.opened).Ended := by
  obtain ⟨hmem, hthrows⟩ := h
  rcases hs : setupStream p (soleAction a) o with _ | ⟨h, a'⟩
  · simp [openWork, hs] at hmem
  rw [setupStream_sole p hs] at hs
  rcases openStream_set_up (s := s) hs with ⟨err', -, hw, -⟩ | ⟨-, hw, ht⟩
  · simp [hw] at hmem
  · have hhook : a.hasOnConnectionOpened = true := by
      rw [hw] at hmem
      by_contra hno
      simp [hno] at hmem
    rw [ht, hw, hhook]
    refine ⟨rfl, (attachListeners_keeps _ _ _).ended ?_⟩
    rw [connectionOpened, if_pos hhook, if_pos hthrows]
    exact Server.send_ended _ _

/-- A call that is turned away is ended, and nothing is done for it, just where the action has no
hook, the call no request, and no message comes on it later. A call whose hook throws is ended, and
its action is not run, just where it has no request and no message comes later. -/
theorem refused_idle_iff {es : List (StreamEvent N)} {t : Server σ N}
    (h : Steps.Runs (streamStep p a) s (.open o :: es) t) :
    (TurnedAway p a s o → ((openStream p (soleAction a) s o).2.calls s.opened).Ended ∧
      ((∀ w, (s.opened, w) ∉ runWork p a s (.open o :: es)) ↔
        ¬ a.hasOnConnectionOpened ∧ ¬ o.request.truthy ∧ ∀ x, .data s.opened x ∉ es)) ∧
    (HookFails p a s o → ((openStream p (soleAction a) s o).2.calls s.opened).Ended ∧
      ((∀ x, (s.opened, .message x) ∉ runWork p a s (.open o :: es)) ↔
        ¬ o.request.truthy ∧ ∀ x, .data s.opened x ∉ es)) := by
  constructor
  · intro hr
    obtain ⟨hw, hend⟩ := hr.opens
    refine ⟨hend, ?_⟩
    simp only [runWork_open h, hw]
    constructor
    · intro hno
      refine ⟨fun hh => ?_, fun hreq => ?_, fun x hx => ?_⟩
      · exact hno .onConnectionOpened (.inl (by simp [hh]))
      · exact hno (.message o.onRequest) (.inl (by simp [hreq]))
      · exact hno (.message x) (.inr ⟨x, rfl, hx⟩)
    · rintro ⟨hh, hreq, hno⟩ w hw'
      rw [if_neg hh, if_neg hreq] at hw'
      rcases hw' with hw' | ⟨x, -, hx⟩
      · cases hw'
      · exact hno x hx
  · intro hr
    obtain ⟨hw, hend⟩ := hr.opens
    refine ⟨hend, ?_⟩
    simp only [runWork_open h, hw]
    constructor
    · intro hno
      refine ⟨fun hreq => ?_, fun x hx => ?_⟩
      · exact hno o.onRequest (.inl (by simp [hreq]))
      · exact hno x (.inr ⟨x, rfl, hx⟩)
    · rintro ⟨hreq, hno⟩ x hx
      rw [if_neg hreq] at hx
      rcases hx with hx | ⟨y, -, hy⟩
      · simp at hx
      · exact hno y hy

end Refused

open GrpcServerStreamAction

/-- An action that lets a device have one stream, with a hook for new connections or without. -/
def rejecting (hasOnConnectionOpened : Bool) : StreamAction DeviceSubscriptions ℤ :=
  { action standIn .forbidRejectNewConnection none with
    hasOnConnectionOpened := hasOnConnectionOpened }

def firstOpening : Opening ℤ := plainOpening (js "s1") [(.mobileUid, js "A")]

def secondOpening : Opening ℤ := plainOpening (js "s2") [(.mobileUid, js "A")]

/-- The service once the device has its stream. -/
def firstOpened (hasOnConnectionOpened : Bool) : Server DeviceSubscriptions ℤ :=
  (openStream standIn (soleAction (rejecting hasOnConnectionOpened)) (Server.start Map.empty)
    firstOpening).2

theorem turnedAway_second (hasOnConnectionOpened : Bool) :
    TurnedAway standIn (rejecting hasOnConnectionOpened) (firstOpened hasOnConnectionOpened)
      secondOpening := by
  cases hasOnConnectionOpened <;>
    exact ⟨js "A", subscribeChannel standIn .forbidRejectNewConnection, _, _, rfl, rfl, rfl,
      by decide⟩

theorem refused_idle_second : ∃ t,
    Steps.Runs (streamStep standIn (rejecting false)) (firstOpened false) [.open secondOpening] t ∧
      ∀ w, (1, w) ∉ runWork standIn (rejecting false) (firstOpened false)
        [.open secondOpening] := by
  obtain ⟨t, ht⟩ := Option.isSome_iff_exists.1 (by decide : ([.open secondOpening].foldlM
    (streamStep standIn (rejecting false)) (firstOpened false)).isSome)
  have h := ((refused_idle_iff ht).1 (turnedAway_second false)).2
  exact ⟨t, ht, h.2 ⟨by decide, by decide, by simp⟩⟩

/-- The hook of a device's second stream is run though the stream is refused. -/
theorem not_refused_idle : ¬ ∀ (a : StreamAction DeviceSubscriptions ℤ)
    (s t : Server DeviceSubscriptions ℤ) (o : Opening ℤ) (before after : List (StreamEvent ℤ)),
    Steps.Runs (streamStep standIn a) (Server.start Map.empty) before s →
    Steps.Runs (streamStep standIn a) s (.open o :: after) t → TurnedAway standIn a s o →
      ∀ w, (s.opened, w) ∉ runWork standIn a s (.open o :: after) := by
  intro h
  have hfirst : Steps.Runs (streamStep standIn (rejecting true)) (Server.start Map.empty)
      [.open firstOpening] (firstOpened true) := by
    refine Steps.runs_cons.2 ⟨_, ?_, Steps.runs_nil.2 rfl⟩
    rw [streamStep, if_pos (by simp [Server.start])]
    rfl
  obtain ⟨t, ht⟩ := Option.isSome_iff_exists.1 (by decide : ([.open secondOpening].foldlM
    (streamStep standIn (rejecting true)) (firstOpened true)).isSome)
  have hturned := turnedAway_second true
  refine h _ _ t _ _ [] hfirst ht hturned .onConnectionOpened ((runWork_open ht).2 (.inl ?_))
  rw [hturned.opens.1]
  exact List.mem_cons_self

end DiiaApp
