import DiiaApp.Proofs.Subscriptions
import DiiaApp.Steps

/-!
# What closed streams leave behind

A device stays in `deviceSubscriptions` from its first subscription on. So the devices there are
those with a live stream in every state of a run just where no stream that closes is the last of its
device (`leavesNothing_iff`), and a device without a live stream then has left no trace: the run
without it comes to the same state.
-/

namespace DiiaApp

open Js Steps

namespace GrpcServerStreamAction

variable {N : Type} {p : Packages N} {policy : DeviceMultipleConnectionPolicy}

namespace Channels

/-- A stream of the device is live. -/
def Live (s : Channels) (mobileUid : JsString) : Prop :=
  ∃ streamKey ∈ s.live, streamKey.mobileUid = mobileUid

/-- The event closes the only live stream of a device. -/
def TakesLast (s : Channels) : ChannelEvent → Prop
  | .subscribe _ _ => False
  | .unsubscribe streamKey => streamKey ∈ s.live ∧
      ∀ other ∈ s.live, other.mobileUid = streamKey.mobileUid → other = streamKey

end Channels

/-- What an event may do. -/
inductive ChannelMoves (p : Packages N) (policy : DeviceMultipleConnectionPolicy) (s : Channels) :
    ChannelEvent → Channels → Prop
  | accepted {k : StreamKey} {c : CallRef} {d : DeviceSubscriptions} (hf : k.streamId ∉ s.letIn)
      (h : subscribeChannel p policy k c s.deviceSubscriptions = (.ok (), d)) :
      ChannelMoves p policy s (.subscribe k c) ⟨d, k.streamId :: s.letIn, k :: s.live⟩
  | rejected {k : StreamKey} {c : CallRef}
      (h : subscriptionsOf s.deviceSubscriptions k.mobileUid ≠ []) :
      ChannelMoves p policy s (.subscribe k c) s
  | closed (k : StreamKey) : ChannelMoves p policy s (.unsubscribe k)
      { s with
        deviceSubscriptions := unsubscribeChannel k s.deviceSubscriptions
        live := s.live.filter (· ≠ k) }

theorem subscribeError_nonempty {m : JsString} {l : List Subscription} {err : Thrown N}
    (h : subscribeError p policy m l = some err) : l ≠ [] := by
  rintro rfl
  cases policy <;> simp [subscribeError] at h

theorem channelStep_moves {s t : Channels} {e : ChannelEvent}
    (h : channelStep p policy s e = some t) : ChannelMoves p policy s e t := by
  rcases e with ⟨k, c⟩ | k
  · simp only [channelStep] at h
    split_ifs at h with hf
    rcases hs : subscribeChannel p policy k c s.deviceSubscriptions with ⟨err | _, d⟩
    · obtain ⟨rfl, he⟩ := subscribeChannel_error hs
      rw [hs] at h
      obtain rfl := Option.some.inj h
      exact .rejected (subscribeError_nonempty he)
    · rw [hs] at h
      obtain rfl := Option.some.inj h
      exact .accepted hf hs
  · obtain rfl := Option.some.inj h
    exact .closed k

theorem mem_keys_subscribe {k : StreamKey} {c : CallRef} {d d' : DeviceSubscriptions}
    (h : subscribeChannel p policy k c d = (.ok (), d')) (m : JsString) :
    m ∈ d'.keys ↔ m = k.mobileUid ∨ m ∈ d.keys := by
  simp only [subscribeChannel] at h
  split at h
  · simp at h
  · rw [← (Prod.mk.inj h).2, Map.mem_keys, Map.mem_keys]
    by_cases hm : m = k.mobileUid <;> simp [Map.get_set, hm]

/-- A device that unsubscribes stays a key. -/
theorem mem_keys_unsubscribe (k : StreamKey) (d : DeviceSubscriptions) (m : JsString) :
    m ∈ (unsubscribeChannel k d).keys ↔ m ∈ d.keys := by
  unfold unsubscribeChannel
  rcases hg : d.get k.mobileUid with _ | l
  · rfl
  · dsimp only
    split
    · rfl
    · rw [Map.mem_keys, Map.mem_keys]
      by_cases hm : m = k.mobileUid <;> simp [Map.get_set, hm, hg]

/-- A stream is live just where it is subscribed. -/
structure Tracked (s : Channels) : Prop where
  live : ∀ k : StreamKey, k ∈ s.live ↔
    k.streamId ∈ (subscriptionsOf s.deviceSubscriptions k.mobileUid).map Subscription.streamId
  nodup : ∀ m, ((subscriptionsOf s.deviceSubscriptions m).map Subscription.streamId).Nodup
  letIn : ∀ k ∈ s.live, k.streamId ∈ s.letIn

theorem streamIds_subscribe {k : StreamKey} {c : CallRef} {d d' : DeviceSubscriptions}
    (h : subscribeChannel p policy k c d = (.ok (), d')) (m : JsString) :
    (subscriptionsOf d' m).map Subscription.streamId =
      (subscriptionsOf d m).map Subscription.streamId ++
        if m = k.mobileUid then [k.streamId] else [] := by
  rw [subscriptionsOf_subscribe h]
  split_ifs <;> simp

theorem map_eraseP_streamId (sid : JsString) : ∀ l : List Subscription,
    (l.eraseP fun sub => sub.streamId = sid).map Subscription.streamId =
      (l.map Subscription.streamId).erase sid
  | [] => rfl
  | sub :: l => by
    by_cases hs : sub.streamId = sid
    · simp [hs]
    · simp [hs, map_eraseP_streamId sid l]

theorem streamIds_unsubscribe (k : StreamKey) (d : DeviceSubscriptions) (m : JsString) :
    (subscriptionsOf (unsubscribeChannel k d) m).map Subscription.streamId =
      if m = k.mobileUid then
        ((subscriptionsOf d m).map Subscription.streamId).erase k.streamId
      else (subscriptionsOf d m).map Subscription.streamId := by
  rw [subscriptionsOf_unsubscribe]
  split_ifs
  · exact map_eraseP_streamId k.streamId _
  · rfl

theorem Tracked.accepted {s : Channels} (hs : Tracked s) {k : StreamKey} {c : CallRef}
    {d : DeviceSubscriptions} (hf : k.streamId ∉ s.letIn)
    (hk : subscribeChannel p policy k c s.deviceSubscriptions = (.ok (), d)) :
    Tracked ⟨d, k.streamId :: s.letIn, k :: s.live⟩ := by
  have hnew : ∀ m, k.streamId ∉
      (subscriptionsOf s.deviceSubscriptions m).map Subscription.streamId :=
    fun m hm => hf (hs.letIn ⟨m, k.streamId⟩ ((hs.live ⟨m, k.streamId⟩).2 hm))
  constructor
  · rintro ⟨m', sid'⟩
    rw [streamIds_subscribe hk, List.mem_append, List.mem_cons, ← hs.live, or_comm]
    obtain ⟨m, sid⟩ := k
    by_cases hm : m' = m <;> simp [hm]
  · intro m
    rw [streamIds_subscribe hk, List.nodup_append]
    refine ⟨hs.nodup m, ?_, fun a ha b hb => ?_⟩
    · split_ifs <;> simp
    · split_ifs at hb
      · rw [List.mem_singleton.1 hb]
        exact fun he => hnew m (he ▸ ha)
      · cases hb
  · intro k' hk'
    rcases List.mem_cons.1 hk' with rfl | hk'
    · exact List.mem_cons_self
    · exact List.mem_cons_of_mem _ (hs.letIn k' hk')

theorem Tracked.closed {s : Channels} (hs : Tracked s) (k : StreamKey) :
    Tracked
      { s with
        deviceSubscriptions := unsubscribeChannel k s.deviceSubscriptions
        live := s.live.filter (· ≠ k) } := by
  constructor
  · rintro ⟨m', sid'⟩
    rw [streamIds_unsubscribe, List.mem_filter, hs.live]
    obtain ⟨m, sid⟩ := k
    by_cases hm : m' = m
    · subst hm
      rw [if_pos rfl, (hs.nodup m').mem_erase_iff]
      simp [and_comm]
    · simp [hm]
  · intro m
    rw [streamIds_unsubscribe]
    split_ifs
    · exact (hs.nodup m).erase _
    · exact hs.nodup m
  · exact fun k' hk' => hs.letIn k' (List.mem_filter.1 hk').1

theorem Tracked.step {s t : Channels} {e : ChannelEvent} (hs : Tracked s)
    (h : channelStep p policy s e = some t) : Tracked t := by
  cases channelStep_moves h with
  | rejected => exact hs
  | accepted hf hk => exact hs.accepted hf hk
  | closed k => exact hs.closed k

/-- Of every run the live streams are those subscribed. -/
theorem tracked_run {es : List ChannelEvent} {s : Channels}
    (h : Runs (channelStep p policy) .start es s) : Tracked s := by
  refine Runs.inv Tracked ⟨fun k => ?_, fun m => ?_, fun k hk => ?_⟩ (fun s e t => Tracked.step) h
  · simp [Channels.start, subscriptionsOf]
  · simp [Channels.start, subscriptionsOf]
  · cases hk

/-- The devices in the state are those with a live stream, and a device without one might never have
connected: the events of the other devices lead to the same state. -/
structure LeavesNothing (p : Packages N) (policy : DeviceMultipleConnectionPolicy)
    (es : List ChannelEvent) (s : Channels) : Prop where
  keys : ∀ m, m ∈ s.deviceSubscriptions.keys ↔ s.Live m
  absent : ∀ m, ¬ s.Live m →
    Runs (channelStep p policy) .start (es.filter fun e => e.mobileUid ≠ m) s

theorem mem_keys_step {s t : Channels} {e : ChannelEvent}
    (h : ∀ m, m ∈ s.deviceSubscriptions.keys ↔ s.Live m) (hl : ¬ s.TakesLast e)
    (ht : channelStep p policy s e = some t) :
    ∀ m, m ∈ t.deviceSubscriptions.keys ↔ t.Live m := by
  intro m
  cases channelStep_moves ht with
  | rejected => exact h m
  | @accepted k c d hf hk =>
    rw [mem_keys_subscribe hk, h m]
    simp [Channels.Live, eq_comm]
  | closed k =>
    rw [mem_keys_unsubscribe, h m]
    constructor
    · rintro ⟨k', hk', rfl⟩
      by_cases he : k' = k
      · -- another stream of the device is live
        subst he
        rw [Channels.TakesLast, not_and] at hl
        have hother := hl hk'
        push Not at hother
        obtain ⟨other, ho, hm, hne⟩ := hother
        exact ⟨other, List.mem_filter.2 ⟨ho, decide_eq_true hne⟩, hm⟩
      · exact ⟨k', List.mem_filter.2 ⟨hk', decide_eq_true he⟩, rfl⟩
    · rintro ⟨k', hk', hm⟩
      exact ⟨k', (List.mem_filter.1 hk').1, hm⟩

/-- An event of a device that has no live stream after it does nothing. -/
theorem step_absent {s t : Channels} {e : ChannelEvent}
    (h : ∀ m, m ∈ s.deviceSubscriptions.keys ↔ s.Live m) (hl : ¬ s.TakesLast e)
    (ht : channelStep p policy s e = some t) (ha : ¬ t.Live e.mobileUid) : t = s := by
  have hk : e.mobileUid ∉ t.deviceSubscriptions.keys :=
    fun hk => ha ((mem_keys_step h hl ht _).1 hk)
  cases channelStep_moves ht with
  | rejected => rfl
  | @accepted k c d hf hs => exact absurd ((mem_keys_subscribe hs _).2 (.inl rfl)) hk
  | closed k =>
    have hk : k.mobileUid ∉ s.deviceSubscriptions.keys :=
      fun hm => hk ((mem_keys_unsubscribe k _ _).2 hm)
    have hnone : s.deviceSubscriptions.get k.mobileUid = none := by
      rcases hg : s.deviceSubscriptions.get k.mobileUid with _ | l
      · rfl
      · exact absurd (Map.mem_keys.2 ⟨l, hg⟩) hk
    have hlive : s.live.filter (· ≠ k) = s.live := by
      rw [List.filter_eq_self]
      intro k' hk'
      refine decide_eq_true fun he => hk ((h _).2 ⟨k', hk', he ▸ rfl⟩)
    rw [unsubscribeChannel, hnone, hlive]

/-- A live stream of another device stays live. -/
theorem live_step_of_ne {s t : Channels} {e : ChannelEvent} {m : JsString} (hm : e.mobileUid ≠ m)
    (ht : channelStep p policy s e = some t) (h : s.Live m) : t.Live m := by
  obtain ⟨k', hk', rfl⟩ := h
  cases channelStep_moves ht with
  | rejected => exact ⟨k', hk', rfl⟩
  | accepted => exact ⟨k', List.mem_cons_of_mem _ hk', rfl⟩
  | closed k =>
    exact ⟨k', List.mem_filter.2 ⟨hk', decide_eq_true fun he => hm (he ▸ rfl)⟩, rfl⟩

theorem LeavesNothing.step {es : List ChannelEvent} {s t : Channels} {e : ChannelEvent}
    (h : LeavesNothing p policy es s) (hl : ¬ s.TakesLast e)
    (ht : channelStep p policy s e = some t) : LeavesNothing p policy (es ++ [e]) t := by
  refine ⟨mem_keys_step h.keys hl ht, fun m ha => ?_⟩
  rw [List.filter_append]
  by_cases hm : e.mobileUid = m
  · subst hm
    obtain rfl := step_absent h.keys hl ht ha
    rw [List.filter_cons_of_neg (by simp), List.filter_nil, List.append_nil]
    exact h.absent _ ha
  · rw [List.filter_cons_of_pos (by simp [hm]), List.filter_nil]
    exact runs_snoc.2 ⟨s, h.absent m fun hs => ha (live_step_of_ne hm ht hs), ht⟩

theorem leavesNothing_start : LeavesNothing p policy [] .start :=
  ⟨fun m => by simp [Channels.start, Channels.Live, Map.mem_keys], fun _ _ => runs_nil.2 rfl⟩

/-- What no event that closes the last stream of a device leads to. -/
theorem leavesNothing_run {es : List ChannelEvent} {s : Channels}
    (h : Runs (channelStep p policy) .start es s)
    (ha : Along (channelStep p policy) (fun s e => ¬ s.TakesLast e) .start es) :
    LeavesNothing p policy es s := by
  refine Runs.hist (fun es s =>
    Along (channelStep p policy) (fun s e => ¬ s.TakesLast e) .start es →
      LeavesNothing p policy es s) (fun _ => leavesNothing_start) ?_ h ha
  intro es s e t hr ih ht ha
  obtain ⟨h1, h2⟩ := along_append.1 ha
  exact (ih h1).step (h2 s hr).1 ht

/-- A device whose last stream closes is left behind. -/
theorem not_leavesNothing_closed {es : List ChannelEvent} {s t : Channels} {e : ChannelEvent}
    (h : ∀ m, m ∈ s.deviceSubscriptions.keys ↔ s.Live m) (hl : s.TakesLast e)
    (ht : channelStep p policy s e = some t) : ¬ LeavesNothing p policy es t := by
  intro hn
  cases channelStep_moves ht with
  | accepted => exact hl
  | rejected => exact hl
  | closed k =>
    obtain ⟨hk, hlast⟩ := hl
    have hkey := (mem_keys_unsubscribe k s.deviceSubscriptions k.mobileUid).2
      ((h k.mobileUid).2 ⟨k, hk, rfl⟩)
    obtain ⟨k', hk', hm⟩ := (hn.keys k.mobileUid).1 hkey
    obtain ⟨hmem, hne⟩ := List.mem_filter.1 hk'
    exact of_decide_eq_true hne (hlast k' hmem hm)

/-- In every state of a run the closed streams have left nothing behind just where no stream that
closes along it is the last one of its device. -/
theorem leavesNothing_iff {es : List ChannelEvent} {s : Channels}
    (h : Runs (channelStep p policy) .start es s) :
    (∀ es₁, es₁ <+: es → ∀ t, Runs (channelStep p policy) .start es₁ t →
      LeavesNothing p policy es₁ t) ↔
      Along (channelStep p policy) (fun s e => ¬ s.TakesLast e) .start es := by
  constructor
  · intro hn
    refine along_iff_forall.2 fun es₁ e es₂ t he hr hl => ?_
    obtain ⟨u, hu, hrest⟩ := runs_append.1 (he ▸ h)
    obtain ⟨v, hv, -⟩ := runs_cons.1 hrest
    obtain rfl : u = t := Option.some.inj (hu.symm.trans hr)
    have hpre : es₁ ++ [e] <+: es := ⟨es₂, by rw [he, List.append_assoc]; rfl⟩
    exact not_leavesNothing_closed (hn es₁ ⟨e :: es₂, he.symm⟩ u hu).keys hl hv
      (hn _ hpre v (runs_snoc.2 ⟨u, hu, hv⟩))
  · rintro ha es₁ ⟨es₂, rfl⟩ t ht
    exact leavesNothing_run ht (along_append.1 ha).1

def firstStream : StreamKey := ⟨js "A", js "s1"⟩

def secondStream : StreamKey := ⟨js "A", js "s2"⟩

theorem leavesNothing_iff_two : ∃ s, Runs (channelStep standIn .allowMultipleConnections) .start
      [.subscribe firstStream 0, .subscribe secondStream 1, .unsubscribe firstStream] s ∧
    LeavesNothing standIn .allowMultipleConnections
      [.subscribe firstStream 0, .subscribe secondStream 1, .unsubscribe firstStream] s := by
  have h : Runs (channelStep standIn .allowMultipleConnections) .start
    [.subscribe firstStream 0, .subscribe secondStream 1, .unsubscribe firstStream] _ := rfl
  refine ⟨_, h, (leavesNothing_iff h).2 ⟨id, fun t ht => ⟨id, fun u hu => ?_⟩⟩ _
    List.prefix_rfl _ h⟩
  obtain rfl := Option.some.inj ht
  obtain rfl := Option.some.inj hu
  refine ⟨fun hl => ?_, fun _ _ => trivial⟩
  exact absurd (hl.2 secondStream List.mem_cons_self rfl) (by decide)

/-- A device connects once and closes its stream: it is in the state for good. -/
theorem not_leavesNothing : ¬ ∀ (policy : DeviceMultipleConnectionPolicy)
    (es : List ChannelEvent) (s : Channels),
    Runs (channelStep standIn policy) .start es s → LeavesNothing standIn policy es s := by
  intro h
  have hn := h .allowMultipleConnections [.subscribe firstStream 0, .unsubscribe firstStream] _ rfl
  obtain ⟨k, hk, -⟩ := (hn.keys (js "A")).1 List.mem_cons_self
  cases hk

end GrpcServerStreamAction

end DiiaApp
