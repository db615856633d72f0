import DiiaApp.Proofs.Subscriptions
import DiiaApp.StandIn

/-!
# Streams left dangling

A call is answered when its close listener stands over a registered stream, or when the server has
ended it or emitted an error on it. The handler answers a call where an action serves its version,
its `tracing` header can be parsed and its subscription can be made, given up or recovered
(`Served`), and leaves every other call as it came.
-/

namespace DiiaApp

open Js GrpcServerStreamAction

variable {σ N : Type}

def Sent.closes : Sent N → Bool
  | .end => true
  | .error _ => true
  | .write _ => false

/-- The call is registered with its listeners attached, or the server has ended it or emitted an
error on it. -/
def Server.Answered (s : Server σ N) (c : CallRef) (streamId : JsString) : Prop :=
  (s.streamConnections.get streamId = some c ∧ (s.calls c).listening) ∨
    ∃ x ∈ (s.calls c).sent, x.closes

instance (s : Server σ N) (c : CallRef) (streamId : JsString) : Decidable (s.Answered c streamId) :=
  inferInstanceAs (Decidable (_ ∨ _))

section Served

variable (p : Packages N)

/-- The headers of a new call. -/
def openingHeaders (actions : Js.Map ActionVersion (StreamAction σ N)) (o : Opening N) :
    ActHeaders N :=
  prepareActHeadersFromGrpcInput p (o.metadata.set (p.grpcMetadataKeys .streamId) [o.streamId])
    actions.keys o.traceId

/-- `a` is the action of the version `v`, or the one without a version where there is none of it. -/
def ServesVersion {α : Type} (versionOf : α → Option ActionVersion)
    (actions : Js.Map ActionVersion α) (v : ActionVersion) (a : α) : Prop :=
  actions.get v = some a ∨
    actions.get v = none ∧ actions.get v1 = some a ∧ nonEmpty (versionOf a) = none

/-- The `tracing` header, where one is sent, is JSON. -/
def TracingParses [JsNumber N] (headers : ActHeaders N) : Prop :=
  ∀ text, nonEmpty headers.tracing = some text → (Json.parse text : Option (Json N)).isSome

/-- Unsubscribing the connected streams of `ids` in turn reaches the call `c` itself, or goes
through, and the subscription made after it too. -/
def Recovers (a : StreamAction σ N) (subscribe : σ → Except (Thrown N) Unit × σ)
    (mobileUid : JsString) (connection : Value N → Option (JsString × CallRef)) (c : CallRef) :
    List (Value N) → σ → Prop
  | [], st => (subscribe st).1 = .ok ()
  | id :: ids, st =>
    match connection id with
    | none => Recovers a subscribe mobileUid connection c ids st
    | some (streamId, c') => ∃ unsubscribe st', a.unsubscribeChannel = some unsubscribe ∧
        unsubscribe ⟨mobileUid, streamId⟩ st = (.ok (), st') ∧
        (c' = c ∨ Recovers a subscribe mobileUid connection c ids st')

/-- Where the subscription fails because of others, they can be iterated and closed and the
subscription made again. -/
def SubscriptionRecovers (a : StreamAction σ N) (mobileUid : Option JsString) (streamId : JsString)
    (c : CallRef) (s : Server σ N) : Prop :=
  ∀ subscribeChannel m err st, a.subscribeChannel = some subscribeChannel →
    nonEmpty mobileUid = some m → subscribeChannel ⟨m, streamId⟩ c s.action = (.error err, st) →
    (handleError p err).code = subscriptionsExists →
    ∃ ids, (getProp (handleError p err).data (js "subscriptions")).bind iterate = .ok ids ∧
      Recovers a (subscribeChannel ⟨m, streamId⟩ c) m (connectionOf s) c ids st

/-- The calls the handler answers. -/
def Served [JsNumber N] (actions : Js.Map ActionVersion (StreamAction σ N)) (s : Server σ N)
    (o : Opening N) : Prop :=
  ∃ a, ServesVersion (·.actionVersion) actions
      ((nonEmpty (openingHeaders p actions o).actionVersion).getD v1) a ∧
    TracingParses (openingHeaders p actions o) ∧
    SubscriptionRecovers p a (openingHeaders p actions o).mobileUid o.streamId s.opened
      (register s o (openingHeaders p actions o).mobileUid)

end Served

theorem getActionInstance_ok {α : Type} {p : Packages N} {versionOf : α → Option ActionVersion}
    {v : ActionVersion} {actions : Js.Map ActionVersion α} {a : α} :
    getActionInstance p versionOf v actions = .ok a ↔ ServesVersion versionOf actions v a := by
  unfold getActionInstance ServesVersion
  rcases actions.get v with _ | b
  · rcases actions.get v1 with _ | b
    · simp
    · rcases hv : nonEmpty (versionOf b) with _ | w
      · simp only [hv, Option.isSome_none, Bool.false_eq_true, if_false, Except.ok.injEq,
          reduceCtorEq, Option.some.injEq, true_and, false_or]
        constructor
        · rintro rfl
          exact ⟨rfl, hv⟩
        · exact fun h => h.1
      · simp only [hv, Option.isSome_some, if_true, reduceCtorEq, Option.some.injEq, true_and,
          false_or, false_iff]
        rintro ⟨rfl, h⟩
        rw [hv] at h
        simp at h
  · simp

variable {p : Packages N}

section Setup

variable [JsNumber N]

theorem parseTracing_ok {headers : ActHeaders N} :
    (∃ v, parseTracing p headers = .ok v) ↔ TracingParses headers := by
  unfold parseTracing TracingParses
  rcases nonEmpty headers.tracing with _ | text
  · simp
  · simp only [Option.some.injEq, forall_eq', parseJson]
    rcases Json.parse text with _ | j <;> simp [throwNative]

theorem setupStream_ok {actions : Js.Map ActionVersion (StreamAction σ N)} {o : Opening N}
    {h : ActHeaders N} {a : StreamAction σ N} (hs : setupStream p actions o = .ok (h, a)) :
    h.mobileUid = (openingHeaders p actions o).mobileUid ∧
      TracingParses (openingHeaders p actions o) ∧
      ServesVersion (·.actionVersion) actions
        ((nonEmpty (openingHeaders p actions o).actionVersion).getD v1) a := by
  obtain ⟨b, hb, hs⟩ := bind_eq_ok.1 hs
  obtain ⟨v, hv, hs⟩ := bind_eq_ok.1 hs
  obtain ⟨rfl, rfl⟩ := Prod.mk.inj (Except.ok.inj hs)
  exact ⟨rfl, parseTracing_ok.1 ⟨v, hv⟩, getActionInstance_ok.1 hb⟩

theorem setupStream_served {actions : Js.Map ActionVersion (StreamAction σ N)} {o : Opening N}
    {a : StreamAction σ N} (ht : TracingParses (openingHeaders p actions o))
    (ha : ServesVersion (·.actionVersion) actions
      ((nonEmpty (openingHeaders p actions o).actionVersion).getD v1) a) :
    ∃ h, setupStream p actions o = .ok (h, a) := by
  obtain ⟨v, hv⟩ := parseTracing_ok.2 ht
  exact ⟨_, bind_eq_ok.2 ⟨a, getActionInstance_ok.2 ha, bind_eq_ok.2 ⟨v, hv, rfl⟩⟩⟩

end Setup

/-- Closing the streams of `ids` and subscribing again reaches the call or goes through exactly
where that is so of the methods of the action. -/
theorem closeExisting_recovers (a : StreamAction σ N) (subscribe : σ → Except (Thrown N) Unit × σ)
    (m : JsString) (c : CallRef) :
    ∀ (ids : List (Value N)) (s : Server σ N),
      (((closeExisting a m ids s).2.calls c).Ended ∨ (closeExisting a m ids s).1 = .ok () ∧
          (subscribe (closeExisting a m ids s).2.action).1 = .ok ()) ↔
        (s.calls c).Ended ∨ Recovers a subscribe m (connectionOf s) c ids s.action
  | [], s => by simp [closeExisting, Recovers]
  | id :: ids, s => by
    unfold closeExisting Recovers
    rcases hid : connectionOf s id with _ | ⟨sid, c'⟩
    · exact closeExisting_recovers a subscribe m c ids s
    rcases hu : a.unsubscribeChannel with _ | unsubscribe
    · simp [throwNative]
    simp only [Option.some.injEq, exists_and_left, exists_eq_left']
    rcases ht : unsubscribe ⟨m, sid⟩ s.action with ⟨e | _, st⟩
    · simp
    · simp only [Prod.mk.injEq, true_and, exists_eq_left']
      have ih := closeExisting_recovers a subscribe m c ids ({ s with action := st }.send c' .end)
      have he : (({ s with action := st }.send c' .end).calls c).Ended ↔
          (s.calls c).Ended ∨ c' = c := by
        rw [Call.Ended, Server.calls_send]
        split_ifs with h
        · subst h
          simp
        · simp [Call.Ended, Ne.symm h]
      rw [he, or_assoc] at ih
      exact ih

/-- From `s` to `t` nothing but ends are sent, and no connection or listener changes. -/
structure OnlyEnds (s t : Server σ N) : Prop where
  connections : t.streamConnections = s.streamConnections
  listening : ∀ c, (t.calls c).listening = (s.calls c).listening
  sent : ∀ c, ∀ x ∈ (t.calls c).sent, x ∈ (s.calls c).sent ∨ x = .end

namespace OnlyEnds

theorem refl (s : Server σ N) : OnlyEnds s s := ⟨rfl, fun _ => rfl, fun _ _ hx => .inl hx⟩

theorem trans {s t u : Server σ N} (h : OnlyEnds s t) (h' : OnlyEnds t u) : OnlyEnds s u := by
  refine ⟨h'.connections.trans h.connections, fun c => (h'.listening c).trans (h.listening c), ?_⟩
  intro c x hx
  rcases h'.sent c x hx with hx | hx
  · exact h.sent c x hx
  · exact .inr hx

theorem with_action (s : Server σ N) (st : σ) : OnlyEnds s { s with action := st } :=
  ⟨rfl, fun _ => rfl, fun _ _ hx => .inl hx⟩

theorem send_end (s : Server σ N) (c : CallRef) : OnlyEnds s (s.send c .end) := by
  refine ⟨rfl, fun c' => ?_, fun c' x hx => ?_⟩
  · rw [Server.calls_send]
    split_ifs <;> rfl
  · rw [Server.calls_send] at hx
    split_ifs at hx
    · simpa using hx
    · exact .inl hx

end OnlyEnds

theorem closeExisting_onlyEnds (a : StreamAction σ N) (m : JsString) :
    ∀ (ids : List (Value N)) (s : Server σ N), OnlyEnds s (closeExisting a m ids s).2
  | [], s => OnlyEnds.refl s
  | id :: ids, s => by
    unfold closeExisting
    rcases connectionOf s id with _ | ⟨sid, c⟩
    · exact closeExisting_onlyEnds a m ids s
    rcases a.unsubscribeChannel with _ | unsubscribe
    · exact OnlyEnds.refl s
    dsimp only
    rcases unsubscribe ⟨m, sid⟩ s.action with ⟨e | _, st⟩
    · exact OnlyEnds.with_action s st
    · have h := (OnlyEnds.with_action s st).trans (OnlyEnds.send_end { s with action := st } c)
      exact h.trans (closeExisting_onlyEnds a m ids _)

theorem resubscribe_onlyEnds (a : StreamAction σ N) (subscribe : σ → Except (Thrown N) Unit × σ)
    (m : JsString) (c : CallRef) (e : ApiError N) (s : Server σ N) :
    OnlyEnds s (resubscribe a subscribe m c e s).2 := by
  unfold resubscribe
  split_ifs
  · rcases (getProp e.data (js "subscriptions")).bind iterate with _ | ids
    · exact OnlyEnds.refl s
    have h := closeExisting_onlyEnds a m ids s
    dsimp only
    rcases hce : closeExisting a m ids s with ⟨_ | _, t⟩ <;> rw [hce] at h
    · exact h
    · exact h.trans (OnlyEnds.with_action t _)
  · exact OnlyEnds.send_end s c

/-- Recovering from a failed subscription goes through, or ends the call, exactly where the streams
in its way can be closed and the subscription made again, or it failed for something else. -/
theorem resubscribe_recovers (a : StreamAction σ N) (subscribe : σ → Except (Thrown N) Unit × σ)
    (m : JsString) {c : CallRef} (e : ApiError N) {s : Server σ N} (hc : ¬ (s.calls c).Ended) :
    ((resubscribe a subscribe m c e s).1 = .ok () ∨
        ((resubscribe a subscribe m c e s).2.calls c).Ended) ↔
      (e.code = subscriptionsExists →
        ∃ ids, (getProp e.data (js "subscriptions")).bind iterate = .ok ids ∧
          Recovers a subscribe m (connectionOf s) c ids s.action) := by
  unfold resubscribe
  split_ifs with hcode
  · rcases (getProp e.data (js "subscriptions")).bind iterate with e' | ids
    · simp [hc, hcode]
    have h := closeExisting_recovers a subscribe m c ids s
    rw [or_iff_right hc, or_comm] at h
    simp only [hcode, true_imp_iff, Except.ok.injEq, exists_eq_left', ← h]
    rcases closeExisting a m ids s with ⟨e' | _, t⟩
    · simp
    · simp [Call.Ended]
  · simp [hcode]

section

variable {a : StreamAction σ N} {uid : Option JsString} {m sid : JsString} {c : CallRef}
  {s : Server σ N} {st : σ} {f : StreamKey → CallRef → σ → Except (Thrown N) Unit × σ}

theorem subscribeStream_skipped (h : a.subscribeChannel = none ∨ nonEmpty uid = none) :
    subscribeStream p a uid sid c s = (.ok (), s) := by
  unfold subscribeStream
  rcases h with h | h
  · rw [h]
  · rw [h]
    rcases a.subscribeChannel with _ | f <;> rfl

theorem subscribeStream_subscribed (hf : a.subscribeChannel = some f) (hm : nonEmpty uid = some m)
    (h : f ⟨m, sid⟩ c s.action = (.ok (), st)) :
    subscribeStream p a uid sid c s = (.ok (), { s with action := st }) := by
  simp only [subscribeStream, hf, hm, h]

theorem subscribeStream_failed {e : Thrown N} (hf : a.subscribeChannel = some f)
    (hm : nonEmpty uid = some m) (h : f ⟨m, sid⟩ c s.action = (.error e, st)) :
    subscribeStream p a uid sid c s
      = resubscribe a (f ⟨m, sid⟩ c) m c (handleError p e) { s with action := st } := by
  simp only [subscribeStream, hf, hm, h]

end

theorem subscribeStream_onlyEnds (a : StreamAction σ N) (uid : Option JsString) (sid : JsString)
    (c : CallRef) (s : Server σ N) : OnlyEnds s (subscribeStream p a uid sid c s).2 := by
  rcases hf : a.subscribeChannel with _ | f
  · rw [subscribeStream_skipped (.inl hf)]
    exact OnlyEnds.refl s
  rcases hm : nonEmpty uid with _ | m
  · rw [subscribeStream_skipped (.inr hm)]
    exact OnlyEnds.refl s
  rcases hs : f ⟨m, sid⟩ c s.action with ⟨e | _, st⟩
  · rw [subscribeStream_failed hf hm hs]
    exact (OnlyEnds.with_action s st).trans (resubscribe_onlyEnds a _ m c _ _)
  · rw [subscribeStream_subscribed hf hm hs]
    exact OnlyEnds.with_action s st

/-- The handler goes on after the subscription of a call, or has ended it, exactly where the
subscription recovers. -/
theorem subscribeStream_recovers (a : StreamAction σ N) (uid : Option JsString) (sid : JsString)
    {c : CallRef} {s : Server σ N} (hc : ¬ (s.calls c).Ended) :
    ((subscribeStream p a uid sid c s).1 = .ok () ∨
        ((subscribeStream p a uid sid c s).2.calls c).Ended) ↔
      SubscriptionRecovers p a uid sid c s := by
  rcases hf : a.subscribeChannel with _ | f
  · rw [subscribeStream_skipped (.inl hf)]
    exact iff_of_true (.inl rfl) fun f m err st hf' => by simp [hf] at hf'
  rcases hm : nonEmpty uid with _ | m
  · rw [subscribeStream_skipped (.inr hm)]
    exact iff_of_true (.inl rfl) fun f m err st _ hm' => by simp [hm] at hm'
  rcases hs : f ⟨m, sid⟩ c s.action with ⟨e | _, st⟩
  · rw [subscribeStream_failed hf hm hs,
      resubscribe_recovers a _ m _ (s := { s with action := st }) hc]
    constructor
    · intro h f' m' e' st' hf' hm' hs' hcode
      obtain rfl := Option.some.inj (hf.symm.trans hf')
      obtain rfl := Option.some.inj (hm.symm.trans hm')
      obtain ⟨he, rfl⟩ := Prod.mk.inj (hs.symm.trans hs')
      obtain rfl := Except.error.inj he
      exact h hcode
    · exact fun h hcode => h f m e st hf hm hs hcode
  · rw [subscribeStream_subscribed hf hm hs]
    refine iff_of_true (.inl rfl) fun f' m' e' st' hf' hm' hs' => ?_
    obtain rfl := Option.some.inj (hf.symm.trans hf')
    obtain rfl := Option.some.inj (hm.symm.trans hm')
    simp [hs] at hs'

theorem answered_of_sent {s : Server σ N} {c : CallRef} {sid : JsString}
    (hl : ¬ (s.calls c).listening) (hs : ∀ x ∈ (s.calls c).sent, x = .end) :
    s.Answered c sid ↔ (s.calls c).Ended := by
  constructor
  · rintro (⟨-, h⟩ | ⟨x, hx, -⟩)
    · exact absurd h hl
    · rw [hs x hx] at hx
      exact hx
  · exact fun h => .inr ⟨_, h, rfl⟩

variable [JsNumber N]

/-- The handler of a stream call leaves it registered with its listeners attached, ended, or with an
error emitted on it, exactly where the call is `Served`. -/
theorem openStream_answered (p : Packages N) (actions : Js.Map ActionVersion (StreamAction σ N))
    (s : Server σ N) (o : Opening N) :
    (openStream p actions s o).2.Answered s.opened o.streamId ↔ Served p actions s o := by
  rcases hset : setupStream p actions o with e | ⟨h, a⟩
  · -- the call was never registered, and nothing was sent on it
    simp only [openStream, hset]
    have hnew : (accept s o none).calls s.opened = ⟨o.streamId, none, false, [], []⟩ :=
      Function.update_self _ _ _
    rw [answered_of_sent (by simp [hnew]) (by simp [hnew])]
    refine iff_of_false (by simp [Call.Ended, hnew]) ?_
    rintro ⟨a, ha, ht, -⟩
    obtain ⟨h, hok⟩ := setupStream_served ht ha
    rw [hset] at hok
    simp at hok
  obtain ⟨huid, ht, ha⟩ := setupStream_ok hset
  have hnew : (register s o h.mobileUid).calls s.opened
      = ⟨o.streamId, h.mobileUid, false, [], []⟩ := Function.update_self _ _ _
  have hserved : Served p actions s o ↔ SubscriptionRecovers p a h.mobileUid o.streamId s.opened
      (register s o h.mobileUid) := by
    rw [huid]
    constructor
    · rintro ⟨b, hb, -, hr⟩
      obtain rfl : b = a := by
        have h1 := getActionInstance_ok (p := p) |>.2 hb
        rw [getActionInstance_ok (p := p) |>.2 ha] at h1
        exact (Except.ok.inj h1).symm
      exact hr
    · exact fun hr => ⟨a, ha, ht, hr⟩
  rw [hserved, ← subscribeStream_recovers a h.mobileUid o.streamId (by simp [Call.Ended, hnew]),
    openStream_eq p s hset]
  have hends := subscribeStream_onlyEnds (p := p) a h.mobileUid o.streamId s.opened
    (register s o h.mobileUid)
  rcases hsu : subscribeStream p a h.mobileUid o.streamId s.opened (register s o h.mobileUid)
    with ⟨e | _, t⟩ <;> rw [hsu] at hends
  · -- the subscription threw: the listeners were never attached
    simp only [reduceCtorEq, false_or]
    refine answered_of_sent ?_ fun x hx => ?_
    · rw [hends.listening, hnew]
      simp
    · simpa [hnew] using hends.sent _ x hx
  · refine iff_of_true (.inl ⟨?_, attachListeners_listening _ _ _⟩) (.inl rfl)
    have hk := (connectionOpened_keeps a o s.opened t).trans (attachListeners_keeps o s.opened _)
    rw [hk.connections, hends.connections]
    exact Map.get_set_self _ _ _

/-- A service whose one action has the version `v2`. -/
def newVersionOnly : Js.Map ActionVersion (StreamAction DeviceSubscriptions ℤ) :=
  soleAction (action standIn .allowMultipleConnections (some (js "v2")))

theorem openStream_dangling :
    ¬ ((openStream standIn newVersionOnly (Server.start Map.empty)
      (plainOpening (js "s1") [(.actionVersion, js "v1")])).2.Answered 0 (js "s1")) := by
  decide

end DiiaApp
