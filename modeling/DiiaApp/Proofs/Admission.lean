import DiiaApp.Audience
import DiiaApp.Proofs.Subscriptions

/-!
# What becomes of a new call

The error of a forbidden subscription decides by its code and its data what `subscribeStream` does
(`subscribeStream_receives`), and the streams that it closes are those named that are connected
(`subscriptionsOf_closeExisting`). So after it the subscriptions of a device are those of `letIn`.
-/

namespace DiiaApp

open Js GrpcServerStreamAction

variable {N : Type} {policy : DeviceMultipleConnectionPolicy} (p : Packages N)
  (version : Option ActionVersion)

theorem streamIdOf_eq_some {v : Value N} {sid : JsString} :
    streamIdOf v = some sid ↔ v = .str sid := by
  cases v <;> simp [streamIdOf]

theorem connectionOf_eq_some {s : Server DeviceSubscriptions N} {v : Value N} {sid : JsString}
    {c : CallRef} : connectionOf s v = some (sid, c) ↔
      v = .str sid ∧ s.streamConnections.get sid = some c := by
  cases v with
  | str text =>
    simp only [connectionOf, Option.map_eq_some_iff, Prod.mk.injEq, Value.str.injEq]
    constructor
    · rintro ⟨c', hg, rfl, rfl⟩
      exact ⟨rfl, hg⟩
    · rintro ⟨rfl, hg⟩
      exact ⟨c, hg, rfl, rfl⟩
  | _ => simp [connectionOf]

/-- The stream ids among `ids` that are connected. -/
def connectedIds (s : Server DeviceSubscriptions N) (ids : List (Value N)) : List JsString :=
  ids.filterMap fun id => (connectionOf s id).map Prod.fst

theorem mem_connectedIds {s : Server DeviceSubscriptions N} {ids : List (Value N)}
    {sid : JsString} : sid ∈ connectedIds s ids ↔
      sid ∈ ids.filterMap streamIdOf ∧ ∃ c, s.streamConnections.get sid = some c := by
  simp only [connectedIds, List.mem_filterMap, streamIdOf_eq_some, Option.map_eq_some_iff,
    Prod.exists, connectionOf_eq_some, exists_and_right, exists_eq_right]
  constructor
  · rintro ⟨v, hv, c, rfl, hg⟩
    exact ⟨hv, c, hg⟩
  · rintro ⟨hv, c, hg⟩
    exact ⟨_, hv, c, rfl, hg⟩

theorem closeExisting_ok (m : JsString) :
    ∀ (ids : List (Value N)) (s : Server DeviceSubscriptions N),
      (closeExisting (action p policy version) m ids s).1 = .ok ()
  | [], _ => rfl
  | id :: ids, s => by
    unfold closeExisting
    rcases connectionOf s id with _ | ⟨sid, c⟩ <;> exact closeExisting_ok m ids _

/-- Closing streams takes away the subscriptions of those that are connected. -/
theorem subscriptionsOf_closeExisting (m : JsString) :
    ∀ (ids : List (Value N)) (s : Server DeviceSubscriptions N),
      ((subscriptionsOf s.action m).map Subscription.streamId).Nodup → ∀ m',
      subscriptionsOf (closeExisting (action p policy version) m ids s).2.action m'
        = if m' = m then
            (subscriptionsOf s.action m).filter fun sub => sub.streamId ∉ connectedIds s ids
          else subscriptionsOf s.action m'
  | [], s, _, m' => by
    simp only [closeExisting, connectedIds, List.filterMap_nil, List.not_mem_nil, not_false_eq_true,
      decide_true, List.filter_true]
    split_ifs with hm
    · rw [hm]
    · rfl
  | id :: ids, s, hn, m' => by
    unfold closeExisting
    rcases hid : connectionOf s id with _ | ⟨sid, c⟩
    · rw [subscriptionsOf_closeExisting m ids s hn m']
      simp only [connectedIds, List.filterMap_cons, hid, Option.map_none]
      rfl
    · let u := { s with action := unsubscribeChannel ⟨m, sid⟩ s.action }.send c .end
      have hu : ∀ m', subscriptionsOf u.action m' = _ :=
        subscriptionsOf_unsubscribe ⟨m, sid⟩ s.action
      have hmine := (hu m).trans (if_pos rfl)
      have hnu : ((subscriptionsOf u.action m).map Subscription.streamId).Nodup := by
        rw [hmine]
        exact hn.sublist (List.eraseP_sublist.map _)
      refine (subscriptionsOf_closeExisting m ids u hnu m').trans ?_
      have hids : connectedIds s (id :: ids) = sid :: connectedIds u ids := by
        simp only [connectedIds, List.filterMap_cons, hid, Option.map_some]
        rfl
      rcases eq_or_ne m' m with rfl | hne
      · rw [if_pos rfl, if_pos rfl, hmine, eraseP_nodup hn, List.filter_filter, hids]
        simp only [List.mem_cons, not_or, Bool.decide_and, Bool.and_comm, ne_eq]
      · rw [if_neg hne, if_neg hne, hu, if_neg hne]

/-- What the subscription of a new call comes to. -/
inductive Receives (policy : DeviceMultipleConnectionPolicy) (m sid : JsString) (c : CallRef)
    (s : Server DeviceSubscriptions N) :
    Admission → Except (Thrown N) Unit × Server DeviceSubscriptions N → Prop
  | free {d : DeviceSubscriptions}
      (hd : subscribeChannel p policy ⟨m, sid⟩ c s.action = (.ok (), d)) :
      Receives policy m sid c s .free (.ok (), { s with action := d })
  | refused : Receives policy m sid c s .refused (.ok (), s.send c .end)
  | failed (err : Thrown N) : Receives policy m sid c s .failed (.error err, s)
  | replaces {ids : List (Value N)} {t : Server DeviceSubscriptions N}
      (hp : policy ≠ .allowMultipleConnections)
      (ht : t = (closeExisting (action p policy version) m ids s).2) :
      Receives policy m sid c s (.replaces (ids.filterMap streamIdOf))
        ((subscribeChannel p policy ⟨m, sid⟩ c t.action).1,
          { t with action := (subscribeChannel p policy ⟨m, sid⟩ c t.action).2 })

variable (policy) in
theorem subscribeStream_receives {m : JsString} (hm : m ≠ []) (sid : JsString) (c : CallRef)
    (s : Server DeviceSubscriptions N) :
    Receives p version policy m sid c s (admission p policy m (subscriptionsOf s.action m))
      (subscribeStream p (action p policy version) (some m) sid c s) := by
  rcases hs : subscribeChannel p policy ⟨m, sid⟩ c s.action with ⟨err | _, d⟩
  · obtain ⟨-, he⟩ := subscribeChannel_error hs
    have hp : policy ≠ .allowMultipleConnections := by
      rintro rfl
      cases he
    rw [subscribeStream_error p version hm hs, admission, he, resubscribe]
    dsimp only
    split_ifs
    · rcases (getProp (handleError p err).data (js "subscriptions")).bind iterate with e | ids
      · exact .failed e
      · have hok := @closeExisting_ok N policy p version m ids s
        rcases hce : closeExisting (action p policy version) m ids s with ⟨e | _, t⟩
        · rw [hce] at hok
          cases hok
        · dsimp only
          rw [hce]
          exact .replaces hp (congrArg Prod.snd hce.symm)
    · exact .refused
  · have he : subscribeError p policy m (subscriptionsOf s.action m) = none := by
      simp only [subscribeChannel] at hs
      split at hs
      · cases hs
      · assumption
    rw [subscribeStream_ok p version hm hs, admission, he]
    exact .free hs

/-- After a new call has asked, the subscriptions of its device are those let in, and the others are
as they were. -/
theorem subscriptionsOf_letIn {s : Server DeviceSubscriptions N} (hc : Consistent policy s)
    (hl : Linked s) {m : JsString} (hm : m ≠ []) (sid : JsString) (c : CallRef) (m' : JsString) :
    subscriptionsOf (subscribeStream p (action p policy version) (some m) sid c s).2.action m'
      = if m' = m then
          letIn ⟨sid, c⟩ (subscriptionsOf s.action m)
            (admission p policy m (subscriptionsOf s.action m))
        else subscriptionsOf s.action m' := by
  have hr := subscribeStream_receives policy p version hm sid c s
  generalize admission p policy m (subscriptionsOf s.action m) = a at hr ⊢
  generalize subscribeStream p (action p policy version) (some m) sid c s = r at hr ⊢
  cases hr with
  | free hd =>
    rw [subscriptionsOf_subscribe hd m']
    split_ifs with h
    · rw [h]
      rfl
    · rfl
  | refused => split_ifs with h <;> simp [h, letIn]
  | failed => split_ifs with h <;> simp [h, letIn]
  | @replaces ids t hp ht =>
    have hclosed := fun m' => ht ▸ subscriptionsOf_closeExisting p version m ids s (hc.nodup m) m'
    -- a subscribed stream that is named is connected
    have hstay : subscriptionsOf t.action m
        = (subscriptionsOf s.action m).filter
          fun sub => sub.streamId ∉ ids.filterMap streamIdOf := by
      rw [hclosed m, if_pos rfl]
      refine List.filter_congr fun sub hsub => decide_eq_decide.2 (not_congr ?_)
      rw [mem_connectedIds, and_iff_left ⟨_, hl m sub hsub⟩]
    rw [letIn, ← hstay]
    rcases hsub : subscribeChannel p policy ⟨m, sid⟩ c t.action with ⟨err | _, d⟩
    · obtain ⟨rfl, herr⟩ := subscribeChannel_error hsub
      have hne : subscriptionsOf t.action m ≠ [] := fun h => by
        rw [h] at herr
        cases policy <;> simp [subscribeError] at herr
      rw [if_neg hne]
      rcases eq_or_ne m' m with rfl | hm'
      · rw [if_pos rfl]
      · rw [if_neg hm']
        exact (hclosed m').trans (if_neg hm')
    · have he : subscriptionsOf t.action m = [] := subscribeChannel_single hsub hp
      refine (subscriptionsOf_subscribe hsub m').trans ?_
      rcases eq_or_ne m' m with rfl | hm'
      · rw [if_pos rfl, if_pos rfl, he, if_pos rfl, List.nil_append]
      · rw [if_neg hm', if_neg hm']
        exact (hclosed m').trans (if_neg hm')

end DiiaApp
