import DiiaApp.Proofs.Streams
import DiiaApp.StandIn

/-!
# Subscriptions and connections agree

Every subscription is of a call opened from its device, and no call has two (`Consistent`); until
the service is destroyed its stream is in `streamConnections` (`Linked`). Taking subscriptions away
keeps both (`Shrinks`), and so does a new one of a fresh stream. The re-subscription of
`FORBID_CLOSE_PREVIOUS_CONNECTION` works because of that: every stream in the way is found, so it is
unsubscribed and ended and leaves the channel empty.
-/

namespace DiiaApp

open Js GrpcServerStreamAction

variable {N : Type}

/-! ## The state of the action -/

theorem subscriptionsOf_set (d : DeviceSubscriptions) (m m' : JsString) (l : List Subscription) :
    subscriptionsOf (d.set m l) m' = if m' = m then l else subscriptionsOf d m' := by
  unfold subscriptionsOf
  rw [Map.get_set]
  split_ifs <;> rfl

theorem subscriptionsOf_unsubscribe (k : StreamKey) (d : DeviceSubscriptions) (m : JsString) :
    subscriptionsOf (unsubscribeChannel k d) m
      = if m = k.mobileUid then
          (subscriptionsOf d m).eraseP fun sub => sub.streamId = k.streamId
        else subscriptionsOf d m := by
  unfold unsubscribeChannel
  rcases hg : d.get k.mobileUid with _ | l
  · split_ifs with hm
    · subst hm
      simp [subscriptionsOf, hg]
    · rfl
  · have hl : subscriptionsOf d k.mobileUid = l := by simp [subscriptionsOf, hg]
    have he : l.eraseP (fun sub => sub.streamId = k.streamId) = _ := List.eraseP_eq_eraseIdx
    rcases hi : l.findIdx? (fun sub => sub.streamId = k.streamId) with _ | i
    all_goals simp only [hi] at he ⊢
    · split_ifs with hm
      · rw [hm, hl, he]
      · rfl
    · rw [subscriptionsOf_set]
      split_ifs with hm
      · rw [hm, hl, he]
      · rfl

/-- A subscription the policy lets in is the last one of its device. -/
theorem subscriptionsOf_subscribe {p : Packages N} {policy : DeviceMultipleConnectionPolicy}
    {k : StreamKey} {c : CallRef} {d d' : DeviceSubscriptions}
    (h : subscribeChannel p policy k c d = (.ok (), d')) (m : JsString) :
    subscriptionsOf d' m
      = if m = k.mobileUid then subscriptionsOf d m ++ [⟨k.streamId, c⟩]
        else subscriptionsOf d m := by
  simp only [subscribeChannel] at h
  split at h
  · simp at h
  · simp only [Prod.mk.injEq, true_and] at h
    rw [← h, subscriptionsOf_set]
    split_ifs with hm
    · rw [hm]
    · rfl

theorem subscribeChannel_error {p : Packages N} {policy : DeviceMultipleConnectionPolicy}
    {k : StreamKey} {c : CallRef} {d d' : DeviceSubscriptions} {e : Thrown N}
    (h : subscribeChannel p policy k c d = (.error e, d')) :
    d' = d ∧ subscribeError p policy k.mobileUid (subscriptionsOf d k.mobileUid) = some e := by
  simp only [subscribeChannel] at h
  split at h
  · rename_i err he
    simp only [Prod.mk.injEq, Except.error.injEq] at h
    exact ⟨h.2.symm, h.1 ▸ he⟩
  · simp at h

/-- Only a device without subscriptions gets one under the policies that forbid a second. -/
theorem subscribeChannel_single {p : Packages N} {policy : DeviceMultipleConnectionPolicy}
    {k : StreamKey} {c : CallRef} {d d' : DeviceSubscriptions}
    (h : subscribeChannel p policy k c d = (.ok (), d'))
    (hp : policy ≠ .allowMultipleConnections) : subscriptionsOf d k.mobileUid = [] := by
  simp only [subscribeChannel] at h
  split at h
  · simp at h
  · rename_i he
    rcases policy with _ | _ | _
    · exact absurd rfl hp
    all_goals
      simp only [subscribeError, List.length_pos_iff] at he
      by_contra hne
      rw [if_pos hne] at he
      simp at he

theorem nonEmpty_eq_some {x : Option JsString} {m : JsString} (h : nonEmpty x = some m) :
    x = some m ∧ m ≠ [] := by
  rcases x with _ | s
  · simp [nonEmpty] at h
  · simp only [nonEmpty] at h
    split_ifs at h with hs
    obtain rfl := Option.some.inj h
    exact ⟨rfl, hs⟩

theorem nonEmpty_some {m : JsString} (h : m ≠ []) : nonEmpty (some m) = some m := if_neg h

/-! ## The invariant -/

variable (policy : DeviceMultipleConnectionPolicy)

/-- Every subscription is of a call opened from its device, and of one subscription at most. -/
structure Consistent (s : Server DeviceSubscriptions N) : Prop where
  distinct : ∀ c < s.opened, ∀ c' < s.opened,
    (s.calls c).streamId = (s.calls c').streamId → c = c'
  connected : ∀ sid c, s.streamConnections.get sid = some c →
    c < s.opened ∧ (s.calls c).streamId = sid
  subscribed : ∀ m, ∀ sub ∈ subscriptionsOf s.action m,
    sub.handler < s.opened ∧ (s.calls sub.handler).streamId = sub.streamId
      ∧ (s.calls sub.handler).mobileUid = some m ∧ m ≠ []
  nodup : ∀ m, ((subscriptionsOf s.action m).map Subscription.streamId).Nodup
  single : policy ≠ .allowMultipleConnections → ∀ m, (subscriptionsOf s.action m).length ≤ 1

/-- Every subscribed stream is connected. -/
def Linked (s : Server DeviceSubscriptions N) : Prop :=
  ∀ m, ∀ sub ∈ subscriptionsOf s.action m,
    s.streamConnections.get sub.streamId = some sub.handler

/-- `t` has the calls and connections of `s` and no subscription that `s` does not have. -/
structure Shrinks (s t : Server DeviceSubscriptions N) : Prop where
  keeps : Keeps s t
  sublist : ∀ m, (subscriptionsOf t.action m).Sublist (subscriptionsOf s.action m)

namespace Shrinks

theorem of_keeps {s t : Server DeviceSubscriptions N} (h : Keeps s t) (ha : t.action = s.action) :
    Shrinks s t :=
  ⟨h, fun _ => ha ▸ List.Sublist.refl _⟩

theorem trans {s t u : Server DeviceSubscriptions N} (h : Shrinks s t) (h' : Shrinks t u) :
    Shrinks s u :=
  ⟨h.keeps.trans h'.keeps, fun m => (h'.sublist m).trans (h.sublist m)⟩

end Shrinks

theorem shrinks_unsubscribe (s : Server DeviceSubscriptions N) (k : StreamKey) :
    Shrinks s { s with action := unsubscribeChannel k s.action } := by
  refine ⟨⟨rfl, rfl, fun _ => rfl, fun _ => rfl, fun _ => List.prefix_rfl⟩, fun m => ?_⟩
  rw [subscriptionsOf_unsubscribe]
  split_ifs
  · exact List.eraseP_sublist
  · exact List.Sublist.refl _

variable {policy}

/-- A state with fewer subscriptions is consistent too. -/
theorem Consistent.shrinks {s t : Server DeviceSubscriptions N} (hc : Consistent policy s)
    (h : Shrinks s t) : Consistent policy t := by
  refine ⟨fun c hc1 c' hc2 he => ?_, fun sid c hg => ?_, fun m sub hm => ?_, fun m => ?_,
    fun hp m => ?_⟩
  · rw [h.keeps.opened] at hc1 hc2
    rw [h.keeps.streamId, h.keeps.streamId] at he
    exact hc.distinct c hc1 c' hc2 he
  · rw [h.keeps.connections] at hg
    rw [h.keeps.opened, h.keeps.streamId]
    exact hc.connected sid c hg
  · rw [h.keeps.opened, h.keeps.streamId, h.keeps.mobileUid]
    exact hc.subscribed m sub ((h.sublist m).subset hm)
  · exact (hc.nodup m).sublist ((h.sublist m).map _)
  · exact (h.sublist m).length_le.trans (hc.single hp m)

theorem Linked.shrinks {s t : Server DeviceSubscriptions N} (hl : Linked s) (h : Shrinks s t) :
    Linked t := fun m sub hm => h.keeps.connections ▸ hl m sub ((h.sublist m).subset hm)

theorem consistent_start :
    Consistent policy (Server.start Map.empty : Server DeviceSubscriptions N) := by
  refine ⟨fun c h => absurd h (Nat.not_lt_zero c), fun sid c h => ?_, fun m sub h => ?_,
    fun m => List.nodup_nil, fun _ m => Nat.zero_le _⟩
  · simp [Server.start] at h
  · simp [Server.start, subscriptionsOf] at h

theorem linked_start : Linked (Server.start Map.empty : Server DeviceSubscriptions N) :=
  fun m sub h => by simp [Server.start, subscriptionsOf] at h

/-- A stream id no call has. -/
def Fresh (s : Server DeviceSubscriptions N) (sid : JsString) : Prop :=
  ∀ c < s.opened, (s.calls c).streamId ≠ sid

theorem calls_accept (s : Server DeviceSubscriptions N) (o : Opening N) (uid : Option JsString)
    (c : CallRef) : (accept s o uid).calls c
      = if c = s.opened then ⟨o.streamId, uid, false, [], []⟩ else s.calls c := by
  simp only [accept, Function.update_apply]

theorem consistent_accept {s : Server DeviceSubscriptions N} (hc : Consistent policy s)
    (o : Opening N) (hf : Fresh s o.streamId) (uid : Option JsString) :
    Consistent policy (accept s o uid) := by
  have hold : ∀ c < s.opened, (accept s o uid).calls c = s.calls c := fun c h => by
    rw [calls_accept, if_neg h.ne]
  have hnew : ((accept s o uid).calls s.opened).streamId = o.streamId := by
    rw [calls_accept, if_pos rfl]
  have hop : (accept s o uid).opened = s.opened + 1 := rfl
  refine ⟨fun c h1 c' h2 he => ?_, fun sid c hg => ?_, fun m sub hm => ?_, hc.nodup, hc.single⟩
  · rw [hop] at h1 h2
    rcases Nat.lt_succ_iff_lt_or_eq.1 h1 with h1 | rfl <;>
      rcases Nat.lt_succ_iff_lt_or_eq.1 h2 with h2 | rfl
    · rw [hold c h1, hold c' h2] at he
      exact hc.distinct c h1 c' h2 he
    · rw [hold c h1, hnew] at he
      exact absurd he (hf c h1)
    · rw [hold c' h2, hnew] at he
      exact absurd he.symm (hf c' h2)
    · rfl
  · obtain ⟨h1, h2⟩ := hc.connected sid c hg
    exact ⟨h1.trans (Nat.lt_succ_self _), by rw [hold c h1, h2]⟩
  · obtain ⟨h1, h2⟩ := hc.subscribed m sub hm
    exact ⟨h1.trans (Nat.lt_succ_self _), by rw [hold _ h1]; exact h2⟩

theorem fresh_subscriptions {s : Server DeviceSubscriptions N} (hc : Consistent policy s)
    {sid : JsString} (hf : Fresh s sid) {m : JsString} {sub : Subscription}
    (h : sub ∈ subscriptionsOf s.action m) : sub.streamId ≠ sid := by
  obtain ⟨h1, h2, -⟩ := hc.subscribed m sub h
  exact h2 ▸ hf _ h1

theorem consistent_register {s : Server DeviceSubscriptions N} (hc : Consistent policy s)
    (o : Opening N) (hf : Fresh s o.streamId) (uid : Option JsString) :
    Consistent policy (register s o uid) := by
  have ha := consistent_accept hc o hf uid
  refine ⟨ha.distinct, fun sid c hg => ?_, ha.subscribed, ha.nodup, ha.single⟩
  have hg' : (s.streamConnections.set o.streamId s.opened).get sid = some c := hg
  rw [Map.get_set] at hg'
  split_ifs at hg' with hs
  · obtain rfl := Option.some.inj hg'
    refine ⟨Nat.lt_succ_self _, ?_⟩
    show ((accept s o uid).calls s.opened).streamId = sid
    rw [calls_accept, if_pos rfl, hs]
  · exact ha.connected sid c hg'

theorem linked_register {s : Server DeviceSubscriptions N} (hc : Consistent policy s)
    (hl : Linked s) (o : Opening N) (hf : Fresh s o.streamId) (uid : Option JsString) :
    Linked (register s o uid) := fun m sub hm =>
  (Map.get_set_of_ne _ _ (fresh_subscriptions hc hf hm)).trans (hl m sub hm)

/-- A new subscription of a call, which had none, keeps the subscriptions consistent. -/
theorem consistent_subscribe {s : Server DeviceSubscriptions N} (hc : Consistent policy s)
    {p : Packages N} {m sid : JsString} {c : CallRef} {d : DeviceSubscriptions}
    (hg : s.streamConnections.get sid = some c) (hm : (s.calls c).mobileUid = some m ∧ m ≠ [])
    (hno : ∀ m', ∀ sub ∈ subscriptionsOf s.action m', sub.streamId ≠ sid)
    (h : subscribeChannel p policy ⟨m, sid⟩ c s.action = (.ok (), d)) :
    Consistent policy { s with action := d } := by
  have hd := subscriptionsOf_subscribe h
  refine ⟨hc.distinct, hc.connected, fun m' sub hsub => ?_, fun m' => ?_, fun hp m' => ?_⟩
  all_goals simp only [hd m'] at *
  · split_ifs at hsub with he
    · rcases List.mem_append.1 hsub with hsub | hsub
      · exact hc.subscribed m' sub hsub
      · obtain rfl := List.mem_singleton.1 hsub
        obtain ⟨h1, h2⟩ := hc.connected sid c hg
        exact ⟨h1, h2, he ▸ hm.1, he ▸ hm.2⟩
    · exact hc.subscribed m' sub hsub
  · split_ifs with he
    · rw [List.map_append, List.nodup_append]
      refine ⟨hc.nodup m', List.nodup_singleton _, fun x hx y hy hxy => ?_⟩
      obtain ⟨sub, hsub, rfl⟩ := List.mem_map.1 hx
      exact hno m' sub hsub (hxy.trans (List.mem_singleton.1 hy))
    · exact hc.nodup m'
  · split_ifs with he
    · subst he
      rw [subscribeChannel_single h hp]
      exact le_rfl
    · exact hc.single hp m'

theorem linked_subscribe {s : Server DeviceSubscriptions N} (hl : Linked s) {p : Packages N}
    {m sid : JsString} {c : CallRef} {d : DeviceSubscriptions}
    (hg : s.streamConnections.get sid = some c)
    (h : subscribeChannel p policy ⟨m, sid⟩ c s.action = (.ok (), d)) :
    Linked { s with action := d } := by
  intro m' sub hsub
  rw [subscriptionsOf_subscribe h] at hsub
  split_ifs at hsub with he
  · rcases List.mem_append.1 hsub with hsub | hsub
    · exact hl m' sub hsub
    · obtain rfl := List.mem_singleton.1 hsub
      exact hg
  · exact hl m' sub hsub

/-! ## Opening a stream -/

variable (p : Packages N) (version : Option ActionVersion)

theorem closeExisting_shrinks (m : JsString) :
    ∀ (ids : List (Value N)) (s : Server DeviceSubscriptions N),
      Shrinks s (closeExisting (action p policy version) m ids s).2
  | [], s => Shrinks.of_keeps (Keeps.refl s) rfl
  | id :: ids, s => by
    unfold closeExisting
    rcases hid : connectionOf s id with _ | ⟨sid, c⟩
    · exact closeExisting_shrinks m ids s
    · have h1 := shrinks_unsubscribe s ⟨m, sid⟩
      have h2 : Shrinks _ ({ s with action := unsubscribeChannel ⟨m, sid⟩ s.action }.send c .end) :=
        Shrinks.of_keeps (Server.send_keeps _ _ _) rfl
      exact (h1.trans h2).trans (closeExisting_shrinks m ids _)

theorem subscribeStream_ok {m sid : JsString} (hm : m ≠ []) {c : CallRef}
    {s : Server DeviceSubscriptions N} {d : DeviceSubscriptions}
    (h : subscribeChannel p policy ⟨m, sid⟩ c s.action = (.ok (), d)) :
    subscribeStream p (action p policy version) (some m) sid c s
      = (.ok (), { s with action := d }) := by
  simp only [subscribeStream, action, nonEmpty_some hm, h]

theorem subscribeStream_error {m sid : JsString} (hm : m ≠ []) {c : CallRef}
    {s : Server DeviceSubscriptions N} {d : DeviceSubscriptions} {e : Thrown N}
    (h : subscribeChannel p policy ⟨m, sid⟩ c s.action = (.error e, d)) :
    subscribeStream p (action p policy version) (some m) sid c s
      = resubscribe (action p policy version) (subscribeChannel p policy ⟨m, sid⟩ c) m c
          (handleError p e) s := by
  obtain ⟨rfl, -⟩ := subscribeChannel_error h
  simp only [subscribeStream, action, nonEmpty_some hm, h]

/-- Subscriptions go, or they go and the new one comes. -/
theorem resubscribe_cases (m sid : JsString) (c : CallRef) (e : ApiError N)
    (s : Server DeviceSubscriptions N) :
    ∃ u, Shrinks s u ∧
      ((resubscribe (action p policy version) (subscribeChannel p policy ⟨m, sid⟩ c) m c e s).2 = u ∨
        ∃ d, subscribeChannel p policy ⟨m, sid⟩ c u.action = (.ok (), d) ∧
          (resubscribe (action p policy version) (subscribeChannel p policy ⟨m, sid⟩ c) m c e s).2
            = { u with action := d }) := by
  simp only [resubscribe]
  split_ifs
  · rcases (getProp e.data (js "subscriptions")).bind iterate with _ | ids
    · exact ⟨s, Shrinks.of_keeps (Keeps.refl s) rfl, .inl rfl⟩
    · have hc := @closeExisting_shrinks N policy p version m ids s
      dsimp only
      rcases hce : closeExisting (action p policy version) m ids s with ⟨_ | _, t⟩
      all_goals rw [hce] at hc; dsimp only at hc ⊢
      · exact ⟨t, hc, .inl rfl⟩
      · rcases ht : subscribeChannel p policy ⟨m, sid⟩ c t.action with ⟨_ | _, d⟩
        · obtain ⟨rfl, -⟩ := subscribeChannel_error ht
          exact ⟨t, hc, .inl rfl⟩
        · exact ⟨t, hc, .inr ⟨d, ht, rfl⟩⟩
  · exact ⟨_, Shrinks.of_keeps (Server.send_keeps s c .end) rfl, .inl rfl⟩

theorem subscribeStream_cases {m : JsString} (hm : m ≠ []) (sid : JsString) (c : CallRef)
    (s : Server DeviceSubscriptions N) :
    ∃ u, Shrinks s u ∧
      ((subscribeStream p (action p policy version) (some m) sid c s).2 = u ∨
        ∃ d, subscribeChannel p policy ⟨m, sid⟩ c u.action = (.ok (), d) ∧
          (subscribeStream p (action p policy version) (some m) sid c s).2
            = { u with action := d }) := by
  rcases hs : subscribeChannel p policy ⟨m, sid⟩ c s.action with ⟨_ | _, d⟩
  · rw [subscribeStream_error p version hm hs]
    exact resubscribe_cases p version m sid c _ s
  · rw [subscribeStream_ok p version hm hs]
    exact ⟨s, Shrinks.of_keeps (Keeps.refl s) rfl, .inr ⟨d, hs, rfl⟩⟩

theorem Keeps.with_action (s : Server DeviceSubscriptions N) (d : DeviceSubscriptions) :
    Keeps s { s with action := d } :=
  ⟨rfl, rfl, fun _ => rfl, fun _ => rfl, fun _ => List.prefix_rfl⟩

theorem subscribeStream_none {uid : Option JsString} (hm : nonEmpty uid = none) (sid : JsString)
    (c : CallRef) (s : Server DeviceSubscriptions N) :
    subscribeStream p (action p policy version) uid sid c s = (.ok (), s) := by
  simp only [subscribeStream, action, hm]

theorem subscribeStream_keeps (uid : Option JsString) (sid : JsString) (c : CallRef)
    (s : Server DeviceSubscriptions N) :
    Keeps s (subscribeStream p (action p policy version) uid sid c s).2 := by
  rcases hm : nonEmpty uid with _ | m
  · rw [subscribeStream_none p version hm]
    exact Keeps.refl s
  obtain ⟨rfl, hne⟩ := nonEmpty_eq_some hm
  obtain ⟨u, hsu, h | ⟨d, -, h⟩⟩ := subscribeStream_cases p version hne sid c s
  · exact h ▸ hsu.keeps
  · exact h ▸ hsu.keeps.trans (Keeps.with_action u d)

/-- A fresh stream subscribed, or not. -/
theorem subscribeStream_consistent {s : Server DeviceSubscriptions N} (hc : Consistent policy s)
    {uid : Option JsString} {sid : JsString} {c : CallRef}
    (hg : s.streamConnections.get sid = some c) (hu : (s.calls c).mobileUid = uid)
    (hno : ∀ m, ∀ sub ∈ subscriptionsOf s.action m, sub.streamId ≠ sid) :
    Consistent policy (subscribeStream p (action p policy version) uid sid c s).2 := by
  rcases hm : nonEmpty uid with _ | m
  · rw [subscribeStream_none p version hm]
    exact hc
  obtain ⟨rfl, hne⟩ := nonEmpty_eq_some hm
  obtain ⟨u, hsu, h | ⟨d, hd, h⟩⟩ := subscribeStream_cases p version hne sid c s
  · exact h ▸ hc.shrinks hsu
  · exact h ▸ consistent_subscribe (hc.shrinks hsu) (hsu.keeps.connections ▸ hg)
      ⟨(hsu.keeps.mobileUid c).trans hu, hne⟩
      (fun m' sub hs => hno m' sub ((hsu.sublist m').subset hs)) hd

theorem getActionInstance_mem {α : Type} {versionOf : α → Option ActionVersion}
    {v : ActionVersion} {actions : Map ActionVersion α} {x : α}
    (h : getActionInstance p versionOf v actions = .ok x) : ∃ w, actions.get w = some x := by
  unfold getActionInstance at h
  rcases hv : actions.get v with _ | y
  · rcases h1 : actions.get v1 with _ | y
    · simp [hv, h1] at h
    · simp only [hv, h1] at h
      split_ifs at h
      obtain rfl := Except.ok.inj h
      exact ⟨v1, h1⟩
  · simp only [hv] at h
    obtain rfl := Except.ok.inj h
    exact ⟨v, hv⟩

theorem subscribeStream_linked {s : Server DeviceSubscriptions N} (hl : Linked s)
    {uid : Option JsString} {sid : JsString} {c : CallRef}
    (hg : s.streamConnections.get sid = some c) :
    Linked (subscribeStream p (action p policy version) uid sid c s).2 := by
  rcases hm : nonEmpty uid with _ | m
  · rw [subscribeStream_none p version hm]
    exact hl
  obtain ⟨rfl, hne⟩ := nonEmpty_eq_some hm
  obtain ⟨u, hsu, h | ⟨d, hd, h⟩⟩ := subscribeStream_cases p version hne sid c s
  · exact h ▸ hl.shrinks hsu
  · exact h ▸ linked_subscribe (hl.shrinks hsu) (hsu.keeps.connections ▸ hg) hd

/-! ## Closing a stream -/

theorem closeStream_eq (s : Server DeviceSubscriptions N) (c : CallRef) :
    closeStream (action p policy version) s c
      = { s with
          action := match nonEmpty (s.calls c).mobileUid with
            | some m => unsubscribeChannel ⟨m, (s.calls c).streamId⟩ s.action
            | none => s.action
          streamConnections := s.streamConnections.delete (s.calls c).streamId } := by
  rcases hm : nonEmpty (s.calls c).mobileUid with _ | m <;> simp only [closeStream, action, hm]

/-- A close takes away the subscriptions of its own stream. -/
theorem subscriptionsOf_close (s : Server DeviceSubscriptions N) (c : CallRef) (m : JsString) :
    subscriptionsOf (closeStream (action p policy version) s c).action m
      = if nonEmpty (s.calls c).mobileUid = some m then
          (subscriptionsOf s.action m).eraseP fun sub => sub.streamId = (s.calls c).streamId
        else subscriptionsOf s.action m := by
  rw [closeStream_eq]
  rcases hm : nonEmpty (s.calls c).mobileUid with _ | m'
  · rw [if_neg (by simp)]
  · simp only [subscriptionsOf_unsubscribe, Option.some.injEq, eq_comm (a := m)]

theorem eraseP_nodup {α β : Type*} [DecidableEq β] {f : α → β} {k : β} :
    ∀ {l : List α}, (l.map f).Nodup →
      l.eraseP (fun y => f y = k) = l.filter fun y => f y ≠ k
  | [], _ => rfl
  | y :: l, hn => by
    rw [List.map_cons, List.nodup_cons] at hn
    by_cases hy : f y = k
    · rw [List.eraseP_cons_of_pos (by simpa using hy), List.filter_cons_of_neg (by simpa using hy)]
      refine (List.filter_eq_self.2 fun x hx => decide_eq_true_iff.2 ?_).symm
      exact fun hxk => hn.1 (List.mem_map.2 ⟨x, hx, hxk.trans hy.symm⟩)
    · rw [List.eraseP_cons_of_neg (by simpa using hy), List.filter_cons_of_pos (by simpa using hy),
        eraseP_nodup hn.2]

theorem subscriptionsOf_close_sublist (s : Server DeviceSubscriptions N) (c : CallRef)
    (m : JsString) :
    (subscriptionsOf (closeStream (action p policy version) s c).action m).Sublist
      (subscriptionsOf s.action m) := by
  rw [subscriptionsOf_close]
  split_ifs
  · exact List.eraseP_sublist
  · exact List.Sublist.refl _

/-- After its close no subscription of a stream is left. -/
theorem closed_unsubscribed {s : Server DeviceSubscriptions N} (hc : Consistent policy s)
    {c : CallRef} (hlt : c < s.opened) {m : JsString} {sub : Subscription}
    (h : sub ∈ subscriptionsOf (closeStream (action p policy version) s c).action m) :
    sub.streamId ≠ (s.calls c).streamId := by
  intro he
  have hold := (subscriptionsOf_close_sublist p version s c m).subset h
  obtain ⟨h1, h2, h3, h4⟩ := hc.subscribed m sub hold
  obtain rfl := hc.distinct _ h1 c hlt (h2.trans he)
  rw [subscriptionsOf_close, h3, if_pos (nonEmpty_some h4)] at h
  rw [eraseP_nodup (hc.nodup m), List.mem_filter] at h
  exact absurd he (of_decide_eq_true h.2)

/-- The close of another call leaves a subscription. -/
theorem mem_close {s : Server DeviceSubscriptions N} (hc : Consistent policy s) {c : CallRef}
    (hlt : c < s.opened) {m : JsString} {sub : Subscription}
    (hm : sub ∈ subscriptionsOf s.action m) (hne : sub.handler ≠ c) :
    sub ∈ subscriptionsOf (closeStream (action p policy version) s c).action m := by
  rw [subscriptionsOf_close]
  split_ifs
  · refine (List.mem_eraseP_of_neg ?_).2 hm
    obtain ⟨h1, h2, -⟩ := hc.subscribed m sub hm
    simp only [decide_eq_true_eq]
    exact fun he => hne (hc.distinct _ h1 c hlt (h2.trans he))
  · exact hm

theorem closeStream_consistent {s : Server DeviceSubscriptions N} (hc : Consistent policy s)
    (c : CallRef) : Consistent policy (closeStream (action p policy version) s c) := by
  have hsub : ∀ m, (subscriptionsOf (closeStream (action p policy version) s c).action m).Sublist
      (subscriptionsOf s.action m) := subscriptionsOf_close_sublist p version s c
  have hcalls : ∀ c', (closeStream (action p policy version) s c).calls c' = s.calls c' := by
    rw [closeStream_eq]
    exact fun _ => rfl
  have hop : (closeStream (action p policy version) s c).opened = s.opened := by
    rw [closeStream_eq]
  have hget : ∀ sid, (closeStream (action p policy version) s c).streamConnections.get sid
      = if sid = (s.calls c).streamId then none else s.streamConnections.get sid := by
    rw [closeStream_eq]
    exact fun sid => Map.get_delete _ _ _
  refine ⟨fun c1 h1 c2 h2 he => ?_, fun sid c' hg => ?_, fun m sub hm => ?_, fun m => ?_,
    fun hp m => ?_⟩
  · rw [hop] at h1 h2
    rw [hcalls, hcalls] at he
    exact hc.distinct c1 h1 c2 h2 he
  · rw [hget] at hg
    rw [hop, hcalls]
    split_ifs at hg
    exact hc.connected sid c' hg
  · rw [hop, hcalls]
    exact hc.subscribed m sub ((hsub m).subset hm)
  · exact (hc.nodup m).sublist ((hsub m).map _)
  · exact (hsub m).length_le.trans (hc.single hp m)

theorem closeStream_linked {s : Server DeviceSubscriptions N} (hc : Consistent policy s)
    (hl : Linked s) {c : CallRef} (hlt : c < s.opened) :
    Linked (closeStream (action p policy version) s c) := by
  intro m sub hm
  have hne := closed_unsubscribed p version hc hlt hm
  have hold := (subscriptionsOf_close_sublist p version s c m).subset hm
  rw [closeStream_eq]
  exact (Map.get_delete _ _ _).trans ((if_neg hne).trans (hl m sub hold))

theorem onDestroy_consistent {s : Server DeviceSubscriptions N} (hc : Consistent policy s) :
    Consistent policy (onDestroy s) := by
  have h := hc.shrinks (Shrinks.of_keeps (Server.endAll_keeps s.streamConnections.values s)
    (Server.endAll_action _ s))
  exact ⟨h.distinct, fun sid c hg => by simp [onDestroy] at hg, h.subscribed, h.nodup, h.single⟩

/-! ## Replacing a connection -/

/-- Every stream in the way is found, so it is unsubscribed and ended. -/
theorem closeExisting_all {m : JsString} :
    ∀ {l : List Subscription} {s : Server DeviceSubscriptions N}, Linked s →
      subscriptionsOf s.action m = l →
      ∃ t, closeExisting (action p policy version) m (l.map fun sub => .str sub.streamId) s
          = (.ok (), t) ∧ Shrinks s t ∧ subscriptionsOf t.action m = []
        ∧ (∀ m', m' ≠ m → subscriptionsOf t.action m' = subscriptionsOf s.action m')
        ∧ ∀ sub ∈ l, (t.calls sub.handler).Ended
  | [], s, _, hl => ⟨s, rfl, Shrinks.of_keeps (Keeps.refl s) rfl, hl, fun _ _ => rfl,
      fun _ h => by simp at h⟩
  | x :: xs, s, hlink, hl => by
    have hx : x ∈ subscriptionsOf s.action m := hl ▸ List.mem_cons_self
    let u := { s with action := unsubscribeChannel ⟨m, x.streamId⟩ s.action }.send x.handler .end
    have hsu : Shrinks s u := (shrinks_unsubscribe s ⟨m, x.streamId⟩).trans
      (Shrinks.of_keeps (Server.send_keeps _ _ _) rfl)
    have hu : ∀ m', subscriptionsOf u.action m'
        = if m' = m then (subscriptionsOf s.action m').eraseP fun sub => sub.streamId = x.streamId
          else subscriptionsOf s.action m' := subscriptionsOf_unsubscribe _ _
    have hxs : subscriptionsOf u.action m = xs := by
      rw [hu, if_pos rfl, hl, List.eraseP_cons_of_pos (by simp)]
    obtain ⟨t, ht, hut, hm, hother, hend⟩ := closeExisting_all (hlink.shrinks hsu) hxs
    refine ⟨t, ?_, hsu.trans hut, hm, fun m' hne => ?_, fun sub hsub => ?_⟩
    · have hcon : connectionOf s (.str x.streamId : Value N) = some (x.streamId, x.handler) := by
        simp only [connectionOf, hlink m x hx, Option.map_some]
      rw [List.map_cons, closeExisting, hcon]
      exact ht
    · rw [hother m' hne, hu, if_neg hne]
    · rcases List.mem_cons.1 hsub with rfl | hsub
      · exact hut.keeps.ended (Server.send_ended _ _)
      · exact hend sub hsub

/-- Under `FORBID_CLOSE_PREVIOUS_CONNECTION` a new stream takes the place of the device's others,
which are ended. -/
theorem subscribeStream_replaces (hb : p.KeepsBadRequest) {s : Server DeviceSubscriptions N}
    (hlink : Linked s) {m : JsString} (hm : m ≠ [])
    (sid : JsString) (c : CallRef) :
    ∃ t, subscribeStream p (action p .forbidClosePreviousConnection version) (some m) sid c s
        = (.ok (), t) ∧ Keeps s t ∧ subscriptionsOf t.action m = [⟨sid, c⟩]
      ∧ (∀ m', m' ≠ m → subscriptionsOf t.action m' = subscriptionsOf s.action m')
      ∧ ∀ sub ∈ subscriptionsOf s.action m, (t.calls sub.handler).Ended := by
  -- a device without subscriptions gets the new one at once
  have hfree : ∀ u : Server DeviceSubscriptions N, subscriptionsOf u.action m = [] →
      ∃ d, subscribeChannel p .forbidClosePreviousConnection ⟨m, sid⟩ c u.action = (.ok (), d) ∧
        subscriptionsOf d m = [⟨sid, c⟩] ∧
        ∀ m', m' ≠ m → subscriptionsOf d m' = subscriptionsOf u.action m' := by
    intro u hu
    refine ⟨u.action.set m [⟨sid, c⟩], by simp [subscribeChannel, hu, subscribeError], ?_, ?_⟩
    · rw [subscriptionsOf_set, if_pos rfl]
    · intro m' hne
      rw [subscriptionsOf_set, if_neg hne]
  rcases hl : subscriptionsOf s.action m with _ | ⟨x, xs⟩
  · obtain ⟨d, hd, h1, h2⟩ := hfree s hl
    exact ⟨_, subscribeStream_ok p version hm hd, Keeps.with_action s d, h1, h2, by simp⟩
  · obtain ⟨t, ht, hst, htm, hother, hend⟩ :=
      @closeExisting_all N .forbidClosePreviousConnection p version m _ s hlink hl
    obtain ⟨d, hd, h1, h2⟩ := hfree t htm
    have herr : subscribeChannel p .forbidClosePreviousConnection ⟨m, sid⟩ c s.action
        = (.error (.api (p.newBadRequestError (js "Unable to open new connection as existed conne")
            (.obj [(js "subscriptions", .arr ((x :: xs).map fun sub => .str sub.streamId))])
            subscriptionsExists)), s.action) := by
      simp [subscribeChannel, hl, subscribeError]
    refine ⟨{ t with action := d }, ?_, hst.keeps.trans (Keeps.with_action t d), h1,
      fun m' hne => (h2 m' hne).trans (hother m' hne), hend⟩
    rw [subscribeStream_error p version hm herr]
    simp only [resubscribe, handleError, hb.code, hb.data, getProp, Value.isNullish, Value.prop,
      Map.find, Option.getD_some, Except.bind, iterate, if_true, Bool.false_eq_true, if_false, ht,
      hd]

/-! ## Opening a call -/

variable [JsNumber N]

/-- The action of a call to a service with one action is that action. -/
theorem setupStream_sole {σ : Type} {a a' : StreamAction σ N} {o : Opening N} {h : ActHeaders N}
    (hs : setupStream p (soleAction a) o = .ok (h, a')) : a' = a := by
  simp only [setupStream, bind, Except.bind, pure, Except.pure] at hs
  split at hs
  · simp at hs
  · rename_i x hx
    split at hs
    · simp at hs
    · simp only [Except.ok.injEq, Prod.mk.injEq] at hs
      obtain ⟨w, hw⟩ := getActionInstance_mem p hx
      rw [soleAction, Map.get_set, Map.get_empty] at hw
      split_ifs at hw
      obtain rfl := Option.some.inj hw
      exact hs.2.symm

/-- The states an open goes through after the subscription. -/
theorem openStream_eq {σ : Type} {actions : Map ActionVersion (StreamAction σ N)}
    {a : StreamAction σ N} {o : Opening N} {h : ActHeaders N} (s : Server σ N)
    (hs : setupStream p actions o = .ok (h, a)) :
    openStream p actions s o
      = match subscribeStream p a h.mobileUid o.streamId s.opened (register s o h.mobileUid) with
        | (.error err, t) => (.error err, t)
        | (.ok (), t) => (.ok (), attachListeners o s.opened (connectionOpened a o s.opened t)) := by
  simp only [openStream, hs]
  rcases subscribeStream p a h.mobileUid o.streamId s.opened _ with ⟨_ | _, t⟩ <;> rfl

/-- After the subscription the open of a call keeps the calls, the connections and the action. -/
theorem openStream_keeps {o : Opening N} {h : ActHeaders N}
    {a : StreamAction DeviceSubscriptions N} (s : Server DeviceSubscriptions N)
    (hs : setupStream p (soleAction (action p policy version)) o = .ok (h, a)) :
    Keeps (subscribeStream p (action p policy version) h.mobileUid o.streamId s.opened
        (register s o h.mobileUid)).2 (openStream p (soleAction (action p policy version)) s o).2
      ∧ (openStream p (soleAction (action p policy version)) s o).2.action
        = (subscribeStream p (action p policy version) h.mobileUid o.streamId s.opened
            (register s o h.mobileUid)).2.action := by
  obtain rfl := setupStream_sole p hs
  rw [openStream_eq p s hs]
  rcases subscribeStream p (action p policy version) h.mobileUid o.streamId s.opened
    (register s o h.mobileUid) with ⟨_ | _, t⟩
  · exact ⟨Keeps.refl t, rfl⟩
  · exact ⟨(connectionOpened_keeps _ o _ t).trans (attachListeners_keeps o _ _), by simp⟩

theorem openStream_consistent {s : Server DeviceSubscriptions N} (hc : Consistent policy s)
    {o : Opening N} (hf : Fresh s o.streamId) :
    Consistent policy (openStream p (soleAction (action p policy version)) s o).2 := by
  rcases hs : setupStream p (soleAction (action p policy version)) o with e | ⟨h, a⟩
  · simp only [openStream, hs]
    exact consistent_accept hc o hf none
  · have hsub := subscribeStream_consistent p version (consistent_register hc o hf h.mobileUid)
      (Map.get_set_self _ _ _) (by rw [register, calls_accept, if_pos rfl])
      (fun m sub hm => fresh_subscriptions hc hf hm)
    obtain ⟨hk, ha⟩ := openStream_keeps p version s hs
    exact hsub.shrinks (Shrinks.of_keeps hk ha)

theorem openStream_linked {s : Server DeviceSubscriptions N} (hc : Consistent policy s)
    (hl : Linked s) {o : Opening N} (hf : Fresh s o.streamId) :
    Linked (openStream p (soleAction (action p policy version)) s o).2 := by
  rcases hs : setupStream p (soleAction (action p policy version)) o with e | ⟨h, a⟩
  · simp only [openStream, hs]
    exact hl
  · have hsub : Linked (subscribeStream p (action p policy version) h.mobileUid o.streamId s.opened
        (register s o h.mobileUid)).2 :=
      subscribeStream_linked p version (linked_register hc hl o hf h.mobileUid)
        (Map.get_set_self _ _ _)
    obtain ⟨hk, ha⟩ := openStream_keeps p version s hs
    exact hsub.shrinks (Shrinks.of_keeps hk ha)

/-! ## Runs -/

/-- Every step keeps the subscriptions consistent. -/
theorem streamStep_consistent {s t : Server DeviceSubscriptions N} {e : StreamEvent N}
    (hc : Consistent policy s) (h : streamStep p (action p policy version) s e = some t) :
    Consistent policy t := by
  cases streamStep_moves h with
  | opens hf => exact openStream_consistent p version hc hf
  | data => exact hc.shrinks (Shrinks.of_keeps (startAction_keeps s ..) rfl)
  | settled => exact hc.shrinks (Shrinks.of_keeps (settle_keeps p s ..) rfl)
  | halfClose => exact hc.shrinks (Shrinks.of_keeps (Server.send_keeps s _ .end) rfl)
  | close => exact closeStream_consistent p version hc _
  | publish x => exact hc.shrinks (Shrinks.of_keeps (publish_keeps _ s x) (publish_action _ s x))
  | destroy => exact onDestroy_consistent hc

theorem run_consistent {es : List (StreamEvent N)} {s : Server DeviceSubscriptions N}
    (h : Steps.Runs (streamStep p (action p policy version)) (Server.start Map.empty) es s) :
    Consistent policy s :=
  Steps.Runs.inv (Consistent policy) consistent_start
    (fun _ _ _ hc ht => streamStep_consistent p version hc ht) h

/-- Every step but the destruction of the service keeps the subscribed streams connected. -/
theorem streamStep_linked {s t : Server DeviceSubscriptions N} {e : StreamEvent N}
    (hc : Consistent policy s) (hl : Linked s) (he : e ≠ .destroy)
    (h : streamStep p (action p policy version) s e = some t) : Linked t := by
  cases streamStep_moves h with
  | opens hf => exact openStream_linked p version hc hl hf
  | data => exact hl.shrinks (Shrinks.of_keeps (startAction_keeps s ..) rfl)
  | settled => exact hl.shrinks (Shrinks.of_keeps (settle_keeps p s ..) rfl)
  | halfClose => exact hl.shrinks (Shrinks.of_keeps (Server.send_keeps s _ .end) rfl)
  | close hlt => exact closeStream_linked p version hc hl hlt
  | publish x => exact hl.shrinks (Shrinks.of_keeps (publish_keeps _ s x) (publish_action _ s x))
  | destroy => exact absurd rfl he

/-- After every run of a service that is not destroyed the subscribed streams are connected. -/
theorem run_linked {es : List (StreamEvent N)} {s : Server DeviceSubscriptions N}
    (h : Steps.Runs (streamStep p (action p policy version)) (Server.start Map.empty) es s)
    (hd : .destroy ∉ es) : Linked s :=
  (Steps.Runs.inv_of (fun s => Consistent policy s ∧ Linked s) ⟨consistent_start, linked_start⟩
    (fun _ _ _ hi he ht => ⟨streamStep_consistent p version hi.1 ht,
      streamStep_linked p version hi.1 hi.2 he ht⟩) h (Steps.along_ne hd)).2

/-- Opening leaves the opened calls their ids and devices, and the new call has those of the event. -/
theorem openStream_ids (s : Server DeviceSubscriptions N) (o : Opening N)
    {t : Server DeviceSubscriptions N}
    (ht : (openStream p (soleAction (action p policy version)) s o).2 = t) :
    (∀ c < s.opened, (t.calls c).streamId = (s.calls c).streamId
      ∧ (t.calls c).mobileUid = (s.calls c).mobileUid) ∧
    t.opened = s.opened + 1 ∧ (t.calls s.opened).streamId = o.streamId
      ∧ nonEmpty (t.calls s.opened).mobileUid = openedFrom p (action p policy version) o := by
  have hold : ∀ uid, ∀ c < s.opened, (accept s o uid).calls c = s.calls c := fun uid c hc => by
    rw [calls_accept, if_neg hc.ne]
  have hnew : ∀ uid, (accept s o uid).calls s.opened = ⟨o.streamId, uid, false, [], []⟩ :=
    fun uid => by rw [calls_accept, if_pos rfl]
  rcases hs : setupStream p (soleAction (action p policy version)) o with e | ⟨h, a⟩
  · obtain rfl : accept s o none = t := by simpa only [openStream, hs] using ht
    refine ⟨fun c hc => by rw [hold none c hc]; exact ⟨rfl, rfl⟩, rfl, by rw [hnew], ?_⟩
    rw [hnew, openedFrom, hs]
    rfl
  · have hk : Keeps (register s o h.mobileUid) t :=
      ht ▸ (subscribeStream_keeps p version _ _ _ _).trans (openStream_keeps p version s hs).1
    refine ⟨fun c hc => ⟨?_, ?_⟩, hk.opened, ?_, ?_⟩
    · exact (hk.streamId c).trans (congrArg Call.streamId (hold h.mobileUid c hc))
    · exact (hk.mobileUid c).trans (congrArg Call.mobileUid (hold h.mobileUid c hc))
    · exact (hk.streamId _).trans (congrArg Call.streamId (hnew h.mobileUid))
    · rw [hk.mobileUid, openedFrom, hs]
      exact congrArg (fun call => nonEmpty (Call.mobileUid call)) (hnew h.mobileUid)

/-- A step leaves the opened calls their ids and devices, and opens one call at most. -/
theorem streamStep_ids {s t : Server DeviceSubscriptions N} {e : StreamEvent N}
    (h : streamStep p (action p policy version) s e = some t) :
    (∀ c < s.opened, (t.calls c).streamId = (s.calls c).streamId
      ∧ (t.calls c).mobileUid = (s.calls c).mobileUid) ∧
    (t.opened = s.opened ∨ ∃ o, e = .open o ∧ t.opened = s.opened + 1
      ∧ (t.calls s.opened).streamId = o.streamId
      ∧ nonEmpty (t.calls s.opened).mobileUid = openedFrom p (action p policy version) o) := by
  have hkeeps : ∀ {u} {q : Prop}, Keeps s u → (∀ c < s.opened,
      (u.calls c).streamId = (s.calls c).streamId ∧ (u.calls c).mobileUid = (s.calls c).mobileUid) ∧
        (u.opened = s.opened ∨ q) := fun hk =>
    ⟨fun c _ => ⟨hk.streamId c, hk.mobileUid c⟩, .inl hk.opened⟩
  cases streamStep_moves h with
  | @opens o hf =>
    obtain ⟨hids, hop, hid, huid⟩ := openStream_ids p version s o rfl
    exact ⟨hids, .inr ⟨o, rfl, hop, hid, huid⟩⟩
  | data => exact hkeeps (startAction_keeps s ..)
  | settled => exact hkeeps (settle_keeps p s ..)
  | halfClose => exact hkeeps (Server.send_keeps s _ .end)
  | close =>
    rw [closeStream_eq]
    exact ⟨fun _ _ => ⟨rfl, rfl⟩, .inl rfl⟩
  | publish x => exact hkeeps (publish_keeps _ s x)
  | destroy =>
    have hk := Server.endAll_keeps s.streamConnections.values s
    exact ⟨fun c _ => ⟨hk.streamId c, hk.mobileUid c⟩, .inl hk.opened⟩

/-- Every call of a run was opened by an event of it, from the device it has. -/
theorem run_opened {es : List (StreamEvent N)} {s : Server DeviceSubscriptions N}
    (h : Steps.Runs (streamStep p (action p policy version)) (Server.start Map.empty) es s) :
    ∀ c < s.opened, ∃ o, .open o ∈ es ∧ (s.calls c).streamId = o.streamId
      ∧ nonEmpty (s.calls c).mobileUid = openedFrom p (action p policy version) o := by
  refine Steps.Runs.hist (fun es s => ∀ c < s.opened, ∃ o, .open o ∈ es ∧
    (s.calls c).streamId = o.streamId ∧
      nonEmpty (s.calls c).mobileUid = openedFrom p (action p policy version) o)
    (fun c hc => absurd hc (Nat.not_lt_zero c)) ?_ h
  intro es s e t _ ih ht c hc
  obtain ⟨hids, hop⟩ := streamStep_ids p version ht
  rcases Nat.lt_or_ge c s.opened with hlt | hge
  · obtain ⟨o, ho, h1, h2⟩ := ih c hlt
    obtain ⟨h3, h4⟩ := hids c hlt
    exact ⟨o, List.mem_append_left _ ho, h3.trans h1, by rw [h4, h2]⟩
  · rcases hop with hop | ⟨o, rfl, hop, h1, h2⟩
    · exact absurd (hop ▸ hc) (Nat.not_lt.2 hge)
    · obtain rfl : c = s.opened := by omega
      exact ⟨o, by simp, h1, h2⟩

/-- The streams a new one replaces are ended, and it alone is subscribed for its device. -/
theorem openStream_replaces (hb : p.KeepsBadRequest) {s : Server DeviceSubscriptions N}
    (hc : Consistent .forbidClosePreviousConnection s) (hl : Linked s) {o : Opening N}
    (hf : Fresh s o.streamId) {m : JsString}
    (hm : openedFrom p (action p .forbidClosePreviousConnection version) o = some m)
    {t : Server DeviceSubscriptions N}
    (ht : (openStream p (soleAction (action p .forbidClosePreviousConnection version)) s o).2 = t) :
    subscriptionsOf t.action m = [⟨o.streamId, s.opened⟩]
      ∧ (∀ m', m' ≠ m → subscriptionsOf t.action m' = subscriptionsOf s.action m')
      ∧ ∀ sub ∈ subscriptionsOf s.action m, (t.calls sub.handler).Ended := by
  subst ht
  unfold openedFrom at hm
  rcases hs : setupStream p (soleAction (action p .forbidClosePreviousConnection version)) o
    with e | ⟨h, a⟩
  · simp [hs] at hm
  simp only [hs] at hm
  obtain ⟨hu, hne⟩ := nonEmpty_eq_some hm
  obtain ⟨t, h1, -, h3, h4, h5⟩ := subscribeStream_replaces p version hb
    (linked_register hc hl o hf h.mobileUid) hne o.streamId s.opened
  obtain ⟨hk, ha⟩ := openStream_keeps p version s hs
  rw [hu] at hk ha h1
  rw [h1] at hk ha
  rw [ha]
  exact ⟨h3, h4, fun sub hsub => hk.ended (h5 sub hsub)⟩

/-- What ties subscriptions and connections in every state of a run, for every policy: a subscribed
stream is connected and was opened from its device, no stream is subscribed twice, a forbidding
policy lets one in a device, a new connection replaces the others, which are ended, and a close
takes away its own subscription only. -/
theorem subscriptions_connected (policy : DeviceMultipleConnectionPolicy)
    (hb : p.KeepsBadRequest) {es : List (StreamEvent N)} {s : Server DeviceSubscriptions N}
    (h : Steps.Runs (streamStep p (action p policy version)) (Server.start Map.empty) es s)
    (hd : .destroy ∉ es) :
    (∀ m, ∀ sub ∈ subscriptionsOf s.action m, sub.streamId ∈ s.streamConnections.keys ∧
        ∃ o, .open o ∈ es ∧ o.streamId = sub.streamId
          ∧ openedFrom p (action p policy version) o = some m) ∧
      (∀ m, ((subscriptionsOf s.action m).map Subscription.streamId).Nodup) ∧
      (∀ m m', ∀ sub ∈ subscriptionsOf s.action m, ∀ sub' ∈ subscriptionsOf s.action m',
        sub.streamId = sub'.streamId → m = m') ∧
      (policy ≠ .allowMultipleConnections → ∀ m, (subscriptionsOf s.action m).length ≤ 1) ∧
      (policy = .forbidClosePreviousConnection → ∀ o t m,
        streamStep p (action p policy version) s (.open o) = some t →
        openedFrom p (action p policy version) o = some m →
          subscriptionsOf t.action m = [⟨o.streamId, s.opened⟩]
            ∧ ∀ sub ∈ subscriptionsOf s.action m, (t.calls sub.handler).Ended) ∧
      ∀ c t, streamStep p (action p policy version) s (.close c) = some t →
        ∀ m, ∀ sub ∈ subscriptionsOf s.action m, sub.handler ≠ c →
          sub ∈ subscriptionsOf t.action m := by
  have hc := run_consistent p version h
  have hl := run_linked p version h hd
  refine ⟨fun m sub hm => ?_, hc.nodup, fun m m' sub hm sub' hm' he => ?_, hc.single, ?_, ?_⟩
  · obtain ⟨h1, h2, h3, h4⟩ := hc.subscribed m sub hm
    obtain ⟨o, ho, h5, h6⟩ := run_opened p version h _ h1
    exact ⟨Map.mem_keys.2 ⟨_, hl m sub hm⟩, o, ho, h5.symm.trans h2,
      by rw [← h6, h3, nonEmpty_some h4]⟩
  · have h1 := hl m sub hm
    rw [he, hl m' sub' hm', Option.some.injEq] at h1
    have h2 := (hc.subscribed m' sub' hm').2.2.1
    rw [h1, (hc.subscribed m sub hm).2.2.1, Option.some.injEq] at h2
    exact h2
  · rintro rfl o t m ht ho
    cases streamStep_moves ht with
    | opens hf =>
      obtain ⟨h1, -, h2⟩ := openStream_replaces p version hb hc hl hf ho rfl
      exact ⟨h1, h2⟩
  · intro c t ht m sub hm hne
    cases streamStep_moves ht with
    | close hlt => exact mem_close p version hc hlt hm hne

/-- A device opens a stream and then another, and the first one's close comes late. -/
def reconnect : List (StreamEvent ℤ) :=
  [.open (plainOpening (js "s1") [(.mobileUid, js "A")]),
    .open (plainOpening (js "s2") [(.mobileUid, js "A")]), .close 0]

theorem subscriptions_connected_reconnect :
    ∃ s, Steps.Runs (streamStep standIn (action standIn .forbidClosePreviousConnection none))
        (Server.start Map.empty) reconnect s
      ∧ ∀ m, (subscriptionsOf s.action m).length ≤ 1 := by
  obtain ⟨s, hs⟩ := Option.isSome_iff_exists.1 (by decide : (reconnect.foldlM
    (streamStep standIn (action standIn .forbidClosePreviousConnection none))
    (Server.start Map.empty)).isSome)
  have h := subscriptions_connected standIn none .forbidClosePreviousConnection
    standIn_keepsBadRequest hs (by simp [reconnect])
  exact ⟨s, hs, h.2.2.2.1 (by decide)⟩

end DiiaApp
