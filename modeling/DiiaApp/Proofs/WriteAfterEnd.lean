import DiiaApp.Proofs.Admission

/-!
# Writes after the end of a stream

A stream stays in order, with no write after its end, while it is ended only when no action in
flight on it has a response to write and nothing is published or started on it afterwards
(`Careful`). Each call then keeps `Sound`: it is in order, and once it has ended nothing in flight
on it will be written.
-/

namespace DiiaApp

open Js GrpcServerStreamAction

variable {N : Type}

def Sent.isEnd : Sent N → Bool
  | .end => true
  | _ => false

def Sent.isWrite : Sent N → Bool
  | .write _ => true
  | _ => false

/-- No write comes after an end. -/
def Orderly (sent : List (Sent N)) : Prop := sent.Pairwise fun x y => x.isEnd → ¬ y.isWrite

/-- The action has a response that is written once it settles. -/
def InFlight.Writes [JsNumber N] (x : InFlight N) : Prop :=
  ∃ response, x.outcome = .ok response ∧ response.truthy ∧
    ¬ (response.hasProp (js "error") ∧ (response.prop (js "error")).truthy ∧ x.endOnError)

/-- No action in flight on the call will be written. -/
def Call.Quiet [JsNumber N] (call : Call N) : Prop := ∀ x ∈ call.inFlight, ¬ x.Writes

structure Call.Sound [JsNumber N] (call : Call N) : Prop where
  orderly : Orderly call.sent
  quiet : call.Ended → call.Quiet

/-- The devices whose channel a publication is for. -/
def Publication.Addresses : Publication N → JsString → Prop
  | .publishToChannel m _, m' => m = m'
  | .broadcast _, _ => True

/-! ## What may happen -/

section Careful

variable [JsNumber N] (p : Packages N) (policy : DeviceMultipleConnectionPolicy)
  (version : Option ActionVersion)

/-- What becomes of the open `o`, for the device `m`. -/
def admissionIn (s : Server DeviceSubscriptions N) (m : JsString) : Admission :=
  admission p policy m (subscriptionsOf s.action m)

/-- The open `o` ends the stream of the call `c`: its own where it is refused, and those that give
way to it. -/
def EndsStream (s : Server DeviceSubscriptions N) (o : Opening N) (c : CallRef) : Prop :=
  ∃ m, openedFrom p (action p policy version) o = some m ∧
    (admissionIn p policy s m = .refused ∧ c = s.opened ∨
      ∃ streamIds, admissionIn p policy s m = .replaces streamIds ∧ ∃ streamId ∈ streamIds,
        (s.streamConnections.set o.streamId s.opened).get streamId = some c)

/-- The open `o` is not given up: what cannot be read ends it, and so does a call that stays in its
way. -/
def GoesOn (s : Server DeviceSubscriptions N) (o : Opening N) : Prop :=
  ∀ m, openedFrom p (action p policy version) o = some m →
    admissionIn p policy s m ≠ .failed ∧
      ∀ streamIds, admissionIn p policy s m = .replaces streamIds →
        ∀ sub ∈ subscriptionsOf s.action m, EndsStream p policy version s o sub.handler

/-- The call `c` hears the channel of `m` when the hook of the open `o` runs. -/
inductive HearsHook (s : Server DeviceSubscriptions N) (o : Opening N) (m : JsString) :
    CallRef → Prop
  | stays {sub : Subscription} (hsub : sub ∈ subscriptionsOf s.action m)
      (h : openedFrom p (action p policy version) o = some m →
        ¬ EndsStream p policy version s o sub.handler) : HearsHook s o m sub.handler
  | letIn (h : openedFrom p (action p policy version) o = some m)
      (hr : admissionIn p policy s m ≠ .refused) : HearsHook s o m s.opened

/-- The open of a call ends a stream only when nothing in flight on it will be written, publishes to
no ended stream, and starts no action that will be written on a call it has ended. -/
structure CarefulOpen (s : Server DeviceSubscriptions N) (o : Opening N) : Prop where
  ended : ∀ c < s.opened, EndsStream p policy version s o c → (s.calls c).Quiet
  published : GoesOn p policy version s o → ∀ x ∈ o.hookPublishes, ∀ m, x.Addresses m →
    ∀ c, HearsHook p policy version s o m c →
      ¬ EndsStream p policy version s o c ∧ (c < s.opened → ¬ (s.calls c).Ended)
  request : GoesOn p policy version s o →
    EndsStream p policy version s o s.opened ∨ o.hookThrows.isSome → o.request.truthy →
    ¬ o.onRequest.Writes

/-- A step that ends a stream only when nothing in flight on it will be written, publishes to no
ended stream and starts no action that will be written on one. -/
def Careful (s : Server DeviceSubscriptions N) : StreamEvent N → Prop
  | .open o => (∃ x, setupStream p (soleAction (action p policy version)) o = .ok x) →
      CarefulOpen p policy version s o
  | .data c x => (s.calls c).Ended → ¬ x.Writes
  | .settled _ _ => True
  | .halfClose c => (s.calls c).Quiet
  | .close _ => True
  | .publish x => ∀ m, x.Addresses m → ∀ sub ∈ subscriptionsOf s.action m,
      ¬ (s.calls sub.handler).Ended
  | .destroy => ∀ c ∈ s.streamConnections.values, (s.calls c).Quiet

end Careful

/-! ## Calls -/

theorem orderly_append {a b : List (Sent N)} :
    Orderly (a ++ b) ↔ Orderly a ∧ Orderly b ∧ ((∃ x ∈ a, x.isEnd) → ∀ y ∈ b, ¬ y.isWrite) := by
  unfold Orderly
  rw [List.pairwise_append]
  refine and_congr_right fun _ => and_congr_right fun _ => ⟨?_, ?_⟩
  · rintro h ⟨x, hx, he⟩ y hy
    exact h x hx y hy he
  · exact fun h x hx y hy he => h ⟨x, hx, he⟩ y hy

theorem ended_iff {call : Call N} : call.Ended ↔ ∃ x ∈ call.sent, x.isEnd := by
  constructor
  · exact fun h => ⟨.end, h, rfl⟩
  · rintro ⟨x, hx, he⟩
    rcases x with d | _ | e <;> simp [Sent.isEnd] at he
    exact hx

/-! ## What sending and opening leave alone -/

section Sending

variable {σ : Type}

theorem send_inFlight (s : Server σ N) (c c' : CallRef) (x : Sent N) :
    ((s.send c x).calls c').inFlight = (s.calls c').inFlight := by
  rw [Server.calls_send]
  split_ifs <;> rfl

theorem send_ended_iff (s : Server σ N) (c c' : CallRef) (x : Sent N) :
    ((s.send c x).calls c').Ended ↔ (s.calls c').Ended ∨ (c' = c ∧ x.isEnd) := by
  rw [ended_iff, ended_iff, Server.calls_send]
  split_ifs with h <;> simp [h, or_and_right, exists_or]

theorem sendAll_alike : ∀ (ws : List (CallRef × Value N)) (s : Server σ N) (c : CallRef),
    ((s.sendAll ws).calls c).inFlight = (s.calls c).inFlight ∧
      (((s.sendAll ws).calls c).Ended ↔ (s.calls c).Ended)
  | [], _, _ => ⟨rfl, Iff.rfl⟩
  | w :: ws, s, c => by
    obtain ⟨h1, h2⟩ := sendAll_alike ws (s.send w.1 (.write w.2)) c
    exact ⟨h1.trans (send_inFlight _ _ _ _), h2.trans ((send_ended_iff _ _ _ _).trans
      (by simp [Sent.isEnd]))⟩

theorem publishes_alike (a : StreamAction σ N) :
    ∀ (xs : List (Publication N)) (s : Server σ N) (c : CallRef),
      ((xs.foldl (publish a) s).calls c).inFlight = (s.calls c).inFlight ∧
        (((xs.foldl (publish a) s).calls c).Ended ↔ (s.calls c).Ended)
  | [], _, _ => ⟨rfl, Iff.rfl⟩
  | x :: xs, s, c => by
    obtain ⟨h1, h2⟩ := publishes_alike a xs (publish a s x) c
    obtain ⟨h3, h4⟩ := sendAll_alike (a.published x s.action) s c
    exact ⟨h1.trans h3, h2.trans h4⟩

end Sending

section Opening

variable {policy : DeviceMultipleConnectionPolicy} (p : Packages N)
  (version : Option ActionVersion)

theorem mem_published {x : Publication N} {d : DeviceSubscriptions} {w : CallRef × Value N}
    (h : w ∈ published x d) :
    ∃ m, x.Addresses m ∧ ∃ sub ∈ subscriptionsOf d m, sub.handler = w.1 := by
  rcases x with ⟨m, data⟩ | data
  · obtain ⟨sub, hsub, rfl⟩ := List.mem_map.1 h
    exact ⟨m, rfl, sub, hsub, rfl⟩
  · obtain ⟨l, hl, hw⟩ := List.mem_flatMap.1 h
    obtain ⟨sub, hsub, rfl⟩ := List.mem_map.1 hw
    obtain ⟨m, hm⟩ := Map.mem_values.1 hl
    exact ⟨m, trivial, sub, by rw [subscriptionsOf, hm]; exact hsub, rfl⟩

theorem calls_register (s : Server DeviceSubscriptions N) (o : Opening N) (uid : Option JsString)
    (c : CallRef) : (register s o uid).calls c
      = if c = s.opened then ⟨o.streamId, uid, false, [], []⟩ else s.calls c :=
  calls_accept s o uid c

theorem register_new {s : Server DeviceSubscriptions N} {o : Opening N} {uid : Option JsString} :
    ((register s o uid).calls s.opened).inFlight = [] ∧
      ¬ ((register s o uid).calls s.opened).Ended := by
  rw [calls_register, if_pos rfl]
  exact ⟨rfl, fun h => by simp [Call.Ended] at h⟩

end Opening

/-! ## Sound calls -/

variable [JsNumber N]

theorem Call.Sound.append {call : Call N} (h : call.Sound) {ys : List (Sent N)} (hy : Orderly ys)
    (hw : call.Ended → ∀ y ∈ ys, ¬ y.isWrite) (hq : (∃ y ∈ ys, y.isEnd) → call.Quiet) :
    { call with sent := call.sent ++ ys }.Sound := by
  refine ⟨orderly_append.2 ⟨h.orderly, hy, fun he => hw (ended_iff.2 he)⟩, fun he => ?_⟩
  rcases List.mem_append.1 he with he | he
  · exact h.quiet he
  · exact hq ⟨_, he, rfl⟩

theorem sendError_sent (p : Packages N) (endOnError : Bool) (err : Thrown N) :
    ∀ y ∈ sendError p endOnError err, ¬ y.isWrite ∧ ¬ y.isEnd := by
  intro y hy
  unfold sendError at hy
  split_ifs at hy
  · split at hy
    · obtain rfl := List.mem_singleton.1 hy
      simp [Sent.isWrite, Sent.isEnd]
    · simp at hy
  · simp at hy

/-- What an action sends once it has settled. -/
theorem settleAction_sent (p : Packages N) (x : InFlight N) :
    (∃ response, x.outcome = .ok response ∧ x.Writes ∧ settleAction p x = [.write response]) ∨
      (¬ x.Writes ∧ ∀ y ∈ settleAction p x, ¬ y.isWrite ∧ ¬ y.isEnd) := by
  unfold InFlight.Writes
  rcases ho : x.outcome with err | response
  · refine .inr ⟨fun ⟨r, hr, _⟩ => (by simp at hr), ?_⟩
    simp only [settleAction, ho]
    exact sendError_sent p _ err
  by_cases he : response.hasProp (js "error") ∧ (response.prop (js "error")).truthy ∧ x.endOnError
  · refine .inr ⟨fun ⟨r, hr, _, hn⟩ => hn (Except.ok.inj hr ▸ he), ?_⟩
    simp only [settleAction, ho, if_pos he]
    split
    · intro y hy
      obtain rfl := List.mem_singleton.1 hy
      simp [Sent.isWrite, Sent.isEnd]
    · exact sendError_sent p _ _
  by_cases ht : response.truthy
  · refine .inl ⟨response, rfl, ⟨response, rfl, ht, he⟩, ?_⟩
    simp only [settleAction, ho, if_neg he, if_pos ht]
  · refine .inr ⟨fun ⟨r, hr, htr, _⟩ => ht (Except.ok.inj hr ▸ htr), ?_⟩
    simp only [settleAction, ho, if_neg he, if_neg ht]
    simp

/-! ## Sending -/

section Sending

variable {σ : Type}

def AllSound (s : Server σ N) : Prop := ∀ c, (s.calls c).Sound

theorem Call.Quiet.of_eq {call call' : Call N} (h : call.Quiet)
    (he : call'.inFlight = call.inFlight) : call'.Quiet := fun x hx => h x (he ▸ hx)

theorem send_sound {s : Server σ N} (h : AllSound s) {c : CallRef} {x : Sent N}
    (hw : (s.calls c).Ended → ¬ x.isWrite) (hq : x.isEnd → (s.calls c).Quiet) :
    AllSound (s.send c x) := by
  intro c'
  rw [Server.calls_send]
  split_ifs with hc
  · subst hc
    exact (h c').append (List.pairwise_singleton _ _)
      (fun he y hy => List.mem_singleton.1 hy ▸ hw he)
      (fun ⟨y, hy, he⟩ => hq (List.mem_singleton.1 hy ▸ he))
  · exact h c'

theorem send_end_sound {s : Server σ N} (h : AllSound s) {c : CallRef} (hq : (s.calls c).Quiet) :
    AllSound (s.send c .end) :=
  send_sound h (fun _ hw => by simp [Sent.isWrite] at hw) fun _ => hq

/-- Writes on streams that have not ended keep every call sound. -/
theorem sendAll_sound : ∀ {ws : List (CallRef × Value N)} {s : Server σ N}, AllSound s →
    (∀ w ∈ ws, ¬ (s.calls w.1).Ended) → AllSound (s.sendAll ws)
  | [], _, h, _ => h
  | w :: ws, s, h, hw => by
    have h1 : AllSound (s.send w.1 (.write w.2)) :=
      send_sound h (fun he => absurd he (hw w List.mem_cons_self))
        fun he => by simp [Sent.isEnd] at he
    show AllSound ((s.send w.1 (.write w.2)).sendAll ws)
    refine sendAll_sound h1 fun w' hw' => ?_
    rw [send_ended_iff]
    simpa [Sent.isEnd] using hw w' (List.mem_cons_of_mem _ hw')

theorem publishes_sound (a : StreamAction σ N) :
    ∀ {xs : List (Publication N)} {s : Server σ N}, AllSound s →
      (∀ x ∈ xs, ∀ w ∈ a.published x s.action, ¬ (s.calls w.1).Ended) →
      AllSound (xs.foldl (publish a) s)
  | [], _, h, _ => h
  | x :: xs, s, h, hw => by
    show AllSound (xs.foldl (publish a) (publish a s x))
    refine publishes_sound a (sendAll_sound h (hw x List.mem_cons_self)) fun y hy w hmem => ?_
    have he := (sendAll_alike (a.published x s.action) s w.1).2
    rw [publish_action] at hmem
    exact fun hend => hw y (List.mem_cons_of_mem _ hy) w hmem (he.1 hend)

theorem startAction_sound {s : Server σ N} (h : AllSound s) {c : CallRef} {x : InFlight N}
    (hx : (s.calls c).Ended → ¬ x.Writes) : AllSound (startAction s c x) := by
  intro c'
  rw [startAction, Server.calls_update]
  split_ifs with hc
  · subst hc
    refine ⟨(h c').orderly, fun he y hy => ?_⟩
    rcases List.mem_append.1 hy with hy | hy
    · exact (h c').quiet he y hy
    · exact List.mem_singleton.1 hy ▸ hx he
  · exact h c'

theorem settle_sound {s : Server σ N} (h : AllSound s) (p : Packages N) {c : CallRef} {i : ℕ}
    {x : InFlight N} (hx : (s.calls c).inFlight[i]? = some x) : AllSound (settle p s c i x) := by
  intro c'
  rw [settle, Server.calls_update]
  split_ifs with hc
  · subst hc
    have hmem : x ∈ (s.calls c').inFlight := List.mem_of_getElem? hx
    have hsent : { s.calls c' with sent := (s.calls c').sent ++ settleAction p x }.Sound := by
      rcases settleAction_sent p x with ⟨r, -, hw, hs⟩ | ⟨-, hs⟩
      · rw [hs]
        exact (h c').append (List.pairwise_singleton _ _)
          (fun he => absurd hw ((h c').quiet he x hmem))
          (fun ⟨y, hy, he⟩ => by
            obtain rfl := List.mem_singleton.1 hy
            simp [Sent.isEnd] at he)
      · refine (h c').append ?_ (fun _ y hy => (hs y hy).1) fun ⟨y, hy, he⟩ => absurd he (hs y hy).2
        exact List.pairwise_of_forall_mem_list fun y _ z hz _ => (hs z hz).1
    exact ⟨hsent.orderly, fun he y hy => hsent.quiet he y (List.mem_of_mem_eraseIdx hy)⟩
  · exact h c'

theorem endAll_sound : ∀ {cs : List CallRef} {s : Server σ N}, AllSound s →
    (∀ c ∈ cs, (s.calls c).Quiet) → AllSound (cs.foldl (fun s c => s.send c .end) s)
  | [], _, h, _ => h
  | c :: cs, s, h, hq => by
    show AllSound (cs.foldl (fun s c => s.send c .end) (s.send c .end))
    refine endAll_sound (send_end_sound h (hq c List.mem_cons_self)) fun c' hc' => ?_
    exact (hq c' (List.mem_cons_of_mem _ hc')).of_eq (send_inFlight _ _ _ _)

end Sending

/-! ## Opening -/

section Opening

variable {policy : DeviceMultipleConnectionPolicy} (p : Packages N)
  (version : Option ActionVersion)

/-- The streams in the way end, and no other. -/
theorem closeExisting_sound (m : JsString) :
    ∀ (ids : List (Value N)) (s : Server DeviceSubscriptions N), AllSound s →
      (∀ id ∈ ids, ∀ sid c, connectionOf s id = some (sid, c) → (s.calls c).Quiet) →
      AllSound (closeExisting (action p policy version) m ids s).2 ∧ ∀ c,
        ((closeExisting (action p policy version) m ids s).2.calls c).inFlight
            = (s.calls c).inFlight ∧
          (((closeExisting (action p policy version) m ids s).2.calls c).Ended →
            (s.calls c).Ended ∨ ∃ id ∈ ids, ∃ sid, connectionOf s id = some (sid, c))
  | [], s, h, _ => ⟨h, fun _ => ⟨rfl, .inl⟩⟩
  | id :: ids, s, h, hq => by
    unfold closeExisting
    rcases hid : connectionOf s id with _ | ⟨sid, c⟩
    · obtain ⟨h1, h2⟩ := closeExisting_sound m ids s h fun id' h' =>
        hq id' (List.mem_cons_of_mem _ h')
      refine ⟨h1, fun c => ⟨(h2 c).1, fun he => ?_⟩⟩
      rcases (h2 c).2 he with he | ⟨id', h', hc⟩
      · exact .inl he
      · exact .inr ⟨id', List.mem_cons_of_mem _ h', hc⟩
    · let u := { s with action := unsubscribeChannel ⟨m, sid⟩ s.action }.send c .end
      have hu : AllSound u := send_end_sound (s := { s with action := _ }) h
        (hq id List.mem_cons_self sid c hid)
      have hin : ∀ c', (u.calls c').inFlight = (s.calls c').inFlight :=
        fun c' => send_inFlight { s with action := _ } c c' .end
      have hend : ∀ c', (u.calls c').Ended ↔ (s.calls c').Ended ∨ c' = c := fun c' =>
        (send_ended_iff { s with action := _ } c c' .end).trans (by simp [Sent.isEnd])
      obtain ⟨h1, h2⟩ := closeExisting_sound m ids u hu fun id' h' sid' c' hc' =>
        (hq id' (List.mem_cons_of_mem _ h') sid' c' hc').of_eq (hin c')
      refine ⟨h1, fun c' => ⟨(h2 c').1.trans (hin c'), fun he => ?_⟩⟩
      rcases (h2 c').2 he with he | ⟨id', h', sid', hc⟩
      · rcases (hend c').1 he with he | rfl
        · exact .inl he
        · exact .inr ⟨id, List.mem_cons_self, sid, hid⟩
      · exact .inr ⟨id', List.mem_cons_of_mem _ h', sid', hc⟩

/-- The state in which the hook of a new call runs: the calls that hear a channel, and those that
have ended, are the ones that `CarefulOpen` tells of. -/
structure HookState (policy : DeviceMultipleConnectionPolicy)
    (s u : Server DeviceSubscriptions N) (o : Opening N) : Prop where
  goesOn : GoesOn p policy version s o
  ended : ∀ c ≤ s.opened, (u.calls c).Ended →
    EndsStream p policy version s o c ∨ c < s.opened ∧ (s.calls c).Ended
  hears : ∀ m, ∀ sub ∈ subscriptionsOf u.action m, HearsHook p policy version s o m sub.handler

theorem register_sound {s : Server DeviceSubscriptions N} (h : AllSound s) (o : Opening N)
    (uid : Option JsString) : AllSound (register s o uid) := by
  intro c
  rw [calls_register]
  split_ifs
  · exact ⟨List.Pairwise.nil, fun _ _ hx => by simp at hx⟩
  · exact h c

omit [JsNumber N] in
/-- A call of the registered state that has ended is one of the state before. -/
theorem register_ended {s : Server DeviceSubscriptions N} {o : Opening N} {uid : Option JsString}
    {c : CallRef} (hle : c ≤ s.opened) (h : ((register s o uid).calls c).Ended) :
    c < s.opened ∧ (s.calls c).Ended := by
  rw [calls_register] at h
  split_ifs at h with hc
  · simp [Call.Ended] at h
  · exact ⟨lt_of_le_of_ne hle hc, h⟩

theorem endsStream_iff {s : Server DeviceSubscriptions N} {o : Opening N} {m : JsString}
    (ho : openedFrom p (action p policy version) o = some m) {c : CallRef} :
    EndsStream p policy version s o c ↔ admissionIn p policy s m = .refused ∧ c = s.opened ∨
      ∃ streamIds, admissionIn p policy s m = .replaces streamIds ∧ ∃ streamId ∈ streamIds,
        (s.streamConnections.set o.streamId s.opened).get streamId = some c := by
  constructor
  · rintro ⟨m', ho', h⟩
    obtain rfl := Option.some.inj (ho.symm.trans ho')
    exact h
  · exact fun h => ⟨m, ho, h⟩

/-- The streams that give way to the open `o` of the device `m`: every call is sound after they have
been closed, those that were closed have ended, and of the subscriptions of the device the others
are left. -/
theorem closeExisting_open {s : Server DeviceSubscriptions N} (hc : Consistent policy s)
    (hs : AllSound s) {o : Opening N} (hf : Fresh s o.streamId) {m : JsString}
    (ho : openedFrom p (action p policy version) o = some m)
    (hq : CarefulOpen p policy version s o) {ids : List (Value N)}
    (ha : admissionIn p policy s m = .replaces (ids.filterMap streamIdOf))
    {t : Server DeviceSubscriptions N}
    (ht : t = (closeExisting (action p policy version) m ids (register s o (some m))).2) :
    AllSound t ∧ (t.calls s.opened).inFlight = [] ∧
      (∀ c ≤ s.opened, (t.calls c).Ended →
        EndsStream p policy version s o c ∨ c < s.opened ∧ (s.calls c).Ended) ∧
      ∀ m', ∀ sub, sub ∈ subscriptionsOf t.action m' ↔ sub ∈ subscriptionsOf s.action m' ∧
        (m' = m → ¬ EndsStream p policy version s o sub.handler) := by
  have hreg := consistent_register hc o hf (some m)
  have hends : ∀ c, EndsStream p policy version s o c ↔ ∃ streamId ∈ ids.filterMap streamIdOf,
      (register s o (some m)).streamConnections.get streamId = some c := by
    intro c
    rw [endsStream_iff p version ho, ha]
    simp [register]
  have hcon : ∀ id ∈ ids, ∀ sid c, connectionOf (register s o (some m)) id = some (sid, c) →
      EndsStream p policy version s o c := by
    intro id hid sid c h
    obtain ⟨rfl, hg⟩ := connectionOf_eq_some.1 h
    exact (hends c).2 ⟨sid, List.mem_filterMap.2 ⟨_, hid, rfl⟩, hg⟩
  obtain ⟨h1, h2⟩ := @closeExisting_sound N _ policy p version m ids _
    (register_sound hs o (some m)) fun id hid sid c h => by
      have hlt : c < s.opened + 1 := (hreg.connected sid c (connectionOf_eq_some.1 h).2).1
      rcases Nat.lt_succ_iff_lt_or_eq.1 hlt with hlt | rfl
      · rw [calls_register, if_neg hlt.ne]
        exact hq.ended c hlt (hcon id hid sid c h)
      · exact fun x hx => by rw [register_new.1] at hx; cases hx
  rw [← ht] at h1 h2
  refine ⟨h1, (h2 _).1.trans register_new.1, fun c hle he => ?_, fun m' sub => ?_⟩
  · rcases (h2 c).2 he with he | ⟨id, hid, sid, h⟩
    · exact .inr (register_ended hle he)
    · exact .inl (hcon id hid sid c h)
  · have hclosed := @subscriptionsOf_closeExisting N policy p version m ids
      (register s o (some m)) (hc.nodup m) m'
    rw [ht, hclosed]
    rcases eq_or_ne m' m with rfl | hne
    · rw [if_pos rfl, List.mem_filter, decide_eq_true_iff, mem_connectedIds, hends]
      refine and_congr_right fun hsub => ?_
      obtain ⟨h3, h4, -⟩ := hc.subscribed m' sub hsub
      simp only [true_implies]
      refine not_congr ⟨?_, ?_⟩
      · rintro ⟨hid, c, hg⟩
        obtain ⟨h5, h6⟩ := hreg.connected _ c hg
        have h7 : ((register s o (some m')).calls sub.handler).streamId = sub.streamId := by
          rw [calls_register, if_neg h3.ne, h4]
        obtain rfl := hreg.distinct c h5 _ (h3.trans (Nat.lt_succ_self _)) (h6.trans h7.symm)
        exact ⟨_, hid, hg⟩
      · rintro ⟨sid, hid, hg⟩
        have h6 := (hreg.connected sid _ hg).2
        rw [calls_register, if_neg h3.ne, h4] at h6
        exact h6 ▸ ⟨hid, _, hg⟩
    · rw [if_neg hne]
      simp [hne, register, accept]

/-- What a subscription leaves for the hook of the call. -/
theorem subscribeStream_hook {s : Server DeviceSubscriptions N} (hc : Consistent policy s)
    (hs : AllSound s) {o : Opening N} (hf : Fresh s o.streamId) {uid : Option JsString}
    (ho : openedFrom p (action p policy version) o = nonEmpty uid)
    (hq : CarefulOpen p policy version s o) {res : Except (Thrown N) Unit}
    {u : Server DeviceSubscriptions N}
    (hu : subscribeStream p (action p policy version) uid o.streamId s.opened (register s o uid)
      = (res, u)) :
    AllSound u ∧ (u.calls s.opened).inFlight = [] ∧
      (res = .ok () → HookState p version policy s u o) := by
  have hr := register_sound hs o uid
  have hin := (@register_new N s o uid).1
  rcases hm : nonEmpty uid with _ | m
  · rw [subscribeStream_none p version hm] at hu
    obtain ⟨rfl, rfl⟩ := Prod.mk.inj hu
    have hno : ∀ m, openedFrom p (action p policy version) o ≠ some m := by simp [ho, hm]
    exact ⟨hr, hin, fun _ => ⟨fun m h => absurd h (hno m), fun c hle he =>
      .inr (register_ended hle he), fun m sub hsub => .stays hsub fun h => absurd h (hno m)⟩⟩
  rw [hm] at ho
  obtain ⟨rfl, hmne⟩ := nonEmpty_eq_some hm
  have honly : ∀ {m'}, openedFrom p (action p policy version) o = some m' → m' = m :=
    fun h => Option.some.inj (h.symm.trans ho)
  have hends := fun c => @endsStream_iff N _ policy p version s o m ho c
  have hrec := subscribeStream_receives policy p version hmne o.streamId s.opened
    (register s o (some m))
  rw [hu] at hrec
  generalize ha : admission p policy m _ = a at hrec
  replace ha : admissionIn p policy s m = a := ha
  cases hrec with
  | free hd =>
    refine ⟨hr, hin, fun _ => ⟨fun m' h => ?_, fun c hle he => .inr (register_ended hle he),
      fun m' sub hsub => ?_⟩⟩
    · obtain rfl := honly h
      exact ⟨by simp [ha], by simp [ha]⟩
    · replace hsub : sub ∈ subscriptionsOf _ m' := hsub
      rw [subscriptionsOf_subscribe hd] at hsub
      have hold : sub ∈ subscriptionsOf s.action m' →
          HearsHook p policy version s o m' sub.handler :=
        fun h => .stays h fun _ => by simp [hends, ha]
      split_ifs at hsub with hmm
      · rcases List.mem_append.1 hsub with hsub | hsub
        · exact hold hsub
        · obtain rfl := List.mem_singleton.1 hsub
          exact .letIn (hmm ▸ ho) (by rw [hmm]; simp [ha])
      · exact hold hsub
  | refused =>
    refine ⟨send_end_sound hr (fun x hx => (by rw [hin] at hx; cases hx)),
      (send_inFlight _ _ _ _).trans hin, fun _ => ⟨fun m' h => ?_, fun c hle he => ?_,
        fun m' sub hsub => .stays hsub fun _ => ?_⟩⟩
    · obtain rfl := honly h
      exact ⟨by simp [ha], by simp [ha]⟩
    · rcases (send_ended_iff _ _ _ _).1 he with he | ⟨rfl, -⟩
      · exact .inr (register_ended hle he)
      · exact .inl ((hends _).2 (.inl ⟨ha, rfl⟩))
    · simpa [hends, ha] using (hc.subscribed m' sub hsub).1.ne
  | failed => exact ⟨hr, hin, fun h => by cases h⟩
  | @replaces ids t hp ht =>
    obtain ⟨h1, h2, h3, h4⟩ := closeExisting_open p version hc hs hf ho hq ha ht
    refine ⟨h1, h2, fun hok => ⟨fun m' h => ?_, h3, fun m' sub hsub => ?_⟩⟩
    · obtain rfl := honly h
      have hd := subscribeChannel_single (Prod.ext hok rfl) hp
      refine ⟨by simp [ha], fun _ _ sub hsub => ?_⟩
      by_contra hno
      exact List.not_mem_nil (hd ▸ (h4 m' sub).2 ⟨hsub, fun _ => hno⟩)
    · replace hsub : sub ∈ subscriptionsOf _ m' := hsub
      rw [subscriptionsOf_subscribe (Prod.ext hok rfl)] at hsub
      have hold : sub ∈ subscriptionsOf t.action m' →
          HearsHook p policy version s o m' sub.handler := fun h =>
        .stays ((h4 m' sub).1 h).1 fun hm' => ((h4 m' sub).1 h).2 (honly hm')
      split_ifs at hsub with hmm
      · rcases List.mem_append.1 hsub with hsub | hsub
        · exact hold hsub
        · obtain rfl := List.mem_singleton.1 hsub
          exact .letIn (hmm ▸ ho) (by rw [hmm]; simp [ha])
      · exact hold hsub

theorem update_sound {σ : Type} {s : Server σ N} (h : AllSound s) (c : CallRef)
    {f : Call N → Call N} (h1 : ∀ x, (f x).sent = x.sent) (h2 : ∀ x, (f x).inFlight = x.inFlight) :
    AllSound (s.update c f) := by
  intro c'
  rw [Server.calls_update]
  split_ifs
  · refine ⟨by rw [h1]; exact (h c').orderly, fun he x hx => ?_⟩
    rw [h2] at hx
    rw [Call.Ended, h1] at he
    exact (h c').quiet he x hx
  · exact h c'

theorem openStream_sound {s : Server DeviceSubscriptions N} (hc : Consistent policy s)
    (hs : AllSound s) {o : Opening N} (hf : Fresh s o.streamId)
    (hq : Careful p policy version s (.open o)) :
    AllSound (openStream p (soleAction (action p policy version)) s o).2 := by
  rcases hset : setupStream p (soleAction (action p policy version)) o with e | ⟨h, a⟩
  · simp only [openStream, hset]
    exact register_sound hs o none
  have hq := hq ⟨_, hset⟩
  obtain rfl := setupStream_sole p hset
  have ho : openedFrom p (action p policy version) o = nonEmpty h.mobileUid := by
    simp only [openedFrom, hset]
  rw [openStream_eq p s hset]
  rcases hu : subscribeStream p (action p policy version) h.mobileUid o.streamId s.opened
    (register s o h.mobileUid) with ⟨e | _, u⟩
  · exact (subscribeStream_hook p version hc hs hf ho hq hu).1
  obtain ⟨hsu, hin, hhook⟩ := subscribeStream_hook p version hc hs hf ho hq hu
  have hhook := hhook rfl
  have hle : ∀ {m c}, HearsHook p policy version s o m c → c ≤ s.opened := by
    rintro m _ (⟨hsub, -⟩ | ⟨-, -⟩)
    · exact (hc.subscribed m _ hsub).1.le
    · exact le_rfl
  -- what the hook publishes reaches no ended stream
  have hpub : AllSound (o.hookPublishes.foldl (publish (action p policy version)) u) := by
    refine publishes_sound _ hsu fun x hx w hmem he => ?_
    obtain ⟨m, hm, sub, hsub, hw⟩ := mem_published hmem
    have hears := hhook.hears m sub hsub
    obtain ⟨h1, h2⟩ := hq.published hhook.goesOn x hx m hm _ hears
    rcases hhook.ended _ (hle hears) (hw ▸ he) with he | ⟨hlt, he⟩
    · exact h1 he
    · exact h2 hlt he
  have halike := publishes_alike (action p policy version) o.hookPublishes u s.opened
  have hquiet : Call.Quiet
      ((o.hookPublishes.foldl (publish (action p policy version)) u).calls s.opened) :=
    fun x hx => by rw [halike.1, hin] at hx; simp at hx
  have hopened : AllSound (connectionOpened (action p policy version) o s.opened u) ∧
      (((connectionOpened (action p policy version) o s.opened u).calls s.opened).Ended →
        EndsStream p policy version s o s.opened ∨ o.hookThrows.isSome) := by
    simp only [connectionOpened, action, if_true]
    split_ifs with ht
    · exact ⟨send_end_sound hpub hquiet, fun _ => .inr ht⟩
    · refine ⟨hpub, fun he => .inl ?_⟩
      rcases hhook.ended _ le_rfl (halike.2.1 he) with he | ⟨hlt, -⟩
      · exact he
      · exact absurd hlt (lt_irrefl _)
  have hlist := update_sound hopened.1 s.opened (f := fun call => { call with listening := true })
    (fun _ => rfl) fun _ => rfl
  simp only [attachListeners]
  split_ifs with hreq
  · refine startAction_sound hlist fun he => hq.request hhook.goesOn (hopened.2 ?_) hreq
    rw [Server.calls_update, if_pos rfl] at he
    exact he
  · exact hlist

/-- A careful step keeps every call sound. -/
theorem streamStep_sound {s t : Server DeviceSubscriptions N} {e : StreamEvent N}
    (hc : Consistent policy s) (hs : AllSound s) (hq : Careful p policy version s e)
    (h : streamStep p (action p policy version) s e = some t) : AllSound t := by
  cases streamStep_moves h with
  | opens hf => exact openStream_sound p version hc hs hf hq
  | data => exact startAction_sound hs hq
  | settled _ hx => exact settle_sound hs p hx
  | halfClose => exact send_end_sound hs hq
  | close =>
    rw [closeStream_eq]
    exact hs
  | publish x =>
    refine sendAll_sound hs fun w hmem he => ?_
    obtain ⟨m, hm, sub, hsub, hw⟩ := mem_published hmem
    exact hq m hm sub hsub (hw ▸ he)
  | destroy => exact endAll_sound hs hq

theorem sound_start : AllSound (Server.start Map.empty : Server DeviceSubscriptions N) :=
  fun _ => ⟨List.Pairwise.nil, fun _ _ hx => by simp [Server.start] at hx⟩

end Opening

/-- After every run of careful steps no stream has a write after its end, and a response in flight
is written on a stream that has not ended. -/
theorem no_write_after_end (p : Packages N) (version : Option ActionVersion)
    (policy : DeviceMultipleConnectionPolicy)
    {es : List (StreamEvent N)} {s : Server DeviceSubscriptions N}
    (h : Steps.Runs (streamStep p (action p policy version)) (Server.start Map.empty) es s)
    (hq : Steps.Along (streamStep p (action p policy version)) (Careful p policy version)
      (Server.start Map.empty) es) :
    (∀ c, Orderly (s.calls c).sent) ∧
      ∀ c i x response t, (s.calls c).inFlight[i]? = some x → x.Writes →
        x.outcome = .ok response →
        streamStep p (action p policy version) s (.settled c i) = some t →
        ¬ (s.calls c).Ended ∧ (t.calls c).sent = (s.calls c).sent ++ [.write response] := by
  have hs : AllSound s := (Steps.Runs.inv_of (fun s => Consistent policy s ∧ AllSound s)
    ⟨consistent_start, sound_start⟩ (fun _ _ _ hi he ht => ⟨streamStep_consistent p version hi.1 ht,
      streamStep_sound p version hi.1 hi.2 he ht⟩) h hq).2
  refine ⟨fun c => (hs c).orderly, fun c i x response t hx hwr ho ht => ⟨fun he => ?_, ?_⟩⟩
  · exact (hs c).quiet he x (List.mem_of_getElem? hx) hwr
  · cases streamStep_moves ht with
    | settled _ hx' =>
      obtain rfl := Option.some.inj (hx.symm.trans hx')
      rw [settle, Server.calls_update, if_pos rfl]
      rcases settleAction_sent p x with ⟨r, hr, -, hset⟩ | ⟨hno, -⟩
      · rw [ho, Except.ok.injEq] at hr
        rw [hset, hr]
      · exact absurd hwr hno

/-- A message starts an action, the action settles, and the client closes its half. -/
def halfCloseLate : List (StreamEvent ℤ) :=
  [.open (plainOpening (js "s1") [(.mobileUid, js "A")]), .data 0 ⟨false, .ok (.obj [])⟩,
    .settled 0 0, .halfClose 0]

theorem halfCloseLate_careful :
    Steps.Along (streamStep badRequests (action badRequests .forbidClosePreviousConnection none))
      (Careful badRequests .forbidClosePreviousConnection none) (Server.start Map.empty)
      halfCloseLate := by
  refine ⟨fun _ => ⟨?_, ?_, ?_⟩, fun t ht => ⟨?_, fun u hu => ⟨trivial, fun v hv => ⟨?_, ?_⟩⟩⟩⟩
  · exact fun c hlt => absurd hlt (Nat.not_lt_zero c)
  · intro _ x hx
    simp [plainOpening] at hx
  · intro _ _ h
    simp [plainOpening, Value.truthy] at h
  · intro he
    have h : ((streamStep badRequests (action badRequests .forbidClosePreviousConnection none)
        (Server.start Map.empty) (.open (plainOpening (js "s1") [(.mobileUid, js "A")])))).all
        (fun t => ¬ (t.calls 0).sent.any Sent.isEnd) := by decide
    have hn : ∀ x ∈ (t.calls 0).sent, x.isEnd = false := by simpa [ht] using h
    obtain ⟨x, hx, he⟩ := ended_iff.1 he
    exact absurd he (by simp [hn x hx])
  · have h : ((halfCloseLate.take 3).foldlM
        (streamStep badRequests (action badRequests .forbidClosePreviousConnection none))
        (Server.start Map.empty)).all (fun t => (t.calls 0).inFlight.isEmpty) := by decide
    have hr : (halfCloseLate.take 3).foldlM
        (streamStep badRequests (action badRequests .forbidClosePreviousConnection none))
        (Server.start Map.empty) = some v :=
      Steps.runs_cons.2 ⟨t, ht, Steps.runs_cons.2 ⟨u, hu, Steps.runs_cons.2 ⟨v, hv,
        Steps.runs_nil.2 rfl⟩⟩⟩
    rw [hr] at h
    intro x hx
    rw [List.isEmpty_iff.1 h] at hx
    simp at hx
  · exact fun _ _ => trivial

theorem no_write_after_end_late :
    ∃ s, Steps.Runs
        (streamStep badRequests (action badRequests .forbidClosePreviousConnection none))
        (Server.start Map.empty) halfCloseLate s ∧ ∀ c, Orderly (s.calls c).sent := by
  have h : (halfCloseLate.foldlM
      (streamStep badRequests (action badRequests .forbidClosePreviousConnection none))
      (Server.start Map.empty)).isSome := by decide
  obtain ⟨s, hs⟩ := Option.isSome_iff_exists.1 h
  exact ⟨s, hs, (no_write_after_end badRequests none .forbidClosePreviousConnection hs
    halfCloseLate_careful).1⟩

instance (sent : List (Sent N)) : Decidable (Orderly sent) :=
  inferInstanceAs (Decidable (List.Pairwise _ _))

/-- A message starts an action, the client closes its half, and the action settles. -/
def halfCloseEarly : List (StreamEvent ℤ) :=
  [.open (plainOpening (js "s1") [(.mobileUid, js "A")]), .data 0 ⟨false, .ok (.obj [])⟩,
    .halfClose 0, .settled 0 0]

theorem write_after_half_close :
    ∃ s, Steps.Runs
        (streamStep badRequests (action badRequests .forbidClosePreviousConnection none))
        (Server.start Map.empty) halfCloseEarly s ∧ ¬ Orderly (s.calls 0).sent := by
  have h : (halfCloseEarly.foldlM
      (streamStep badRequests (action badRequests .forbidClosePreviousConnection none))
      (Server.start Map.empty)).any (fun s => ¬ Orderly (s.calls 0).sent) := by decide
  obtain ⟨s, hs, ho⟩ := (Option.any_eq_true _ _).1 h
  exact ⟨s, hs, by simpa using ho⟩

end DiiaApp
