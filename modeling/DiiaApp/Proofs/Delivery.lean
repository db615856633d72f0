import DiiaApp.Proofs.Admission

/-!
# What is published reaches its audience

A publication writes once on each call that is subscribed (`publishToChannel_writes`,
`broadcast_writes`), and the subscriptions of a stream action follow the audience the events call
for (`run_follows`): so it writes once on every call that hears it and on no other.
-/

namespace DiiaApp

open Js GrpcServerStreamAction

variable {N : Type}
variable {policy : DeviceMultipleConnectionPolicy} (p : Packages N)
  (version : Option ActionVersion)

theorem calls_sendAll {σ : Type} (c : CallRef) :
    ∀ (ws : List (CallRef × Value N)) (s : Server σ N), ((s.sendAll ws).calls c).sent
      = (s.calls c).sent ++ (ws.filter fun w => w.1 = c).map fun w => .write w.2
  | [], s => by simp [Server.sendAll]
  | w :: ws, s => by
    have ih := calls_sendAll c ws (s.send w.1 (.write w.2))
    rw [Server.calls_send] at ih
    rw [show s.sendAll (w :: ws) = (s.send w.1 (.write w.2)).sendAll ws from rfl, ih]
    rcases eq_or_ne w.1 c with h | h
    · rw [if_pos h.symm, List.filter_cons_of_pos (by simpa using h)]
      simp
    · rw [if_neg h.symm, List.filter_cons_of_neg (by simpa using h)]

open scoped Classical in
/-- One handler called with `data` for each of several calls. -/
theorem writes_once (data : Value N) (c : CallRef) :
    ∀ {l : List Subscription}, (l.map Subscription.handler).Nodup →
      ((l.map fun sub => (sub.handler, data)).filter fun w => w.1 = c).map
          (fun w => Sent.write w.2)
        = if ∃ sub ∈ l, sub.handler = c then [.write data] else []
  | [], _ => by simp
  | x :: l, h => by
    rw [List.map_cons, List.nodup_cons] at h
    have ih := writes_once data c h.2
    rcases eq_or_ne x.handler c with hx | hx
    · have hno : ¬ ∃ sub ∈ l, sub.handler = c := fun ⟨sub, hsub, he⟩ =>
        h.1 (hx.trans he.symm ▸ List.mem_map_of_mem hsub)
      rw [if_neg hno] at ih
      rw [List.map_cons, List.filter_cons_of_pos (by simpa using hx), List.map_cons, ih,
        if_pos ⟨x, List.mem_cons_self, hx⟩]
    · rw [List.map_cons, List.filter_cons_of_neg (by simpa using hx), ih]
      simp [hx]

/-- The subscriptions of a device are of distinct calls. -/
theorem handlers_nodup {s : Server DeviceSubscriptions N} (hc : Consistent policy s)
    (m : JsString) : ((subscriptionsOf s.action m).map Subscription.handler).Nodup := by
  refine List.Nodup.of_map (fun c => (s.calls c).streamId) ?_
  rw [List.map_map, List.map_congr_left (g := Subscription.streamId)]
  · exact hc.nodup m
  · exact fun sub hsub => (hc.subscribed m sub hsub).2.1

theorem subscriptionsOf_entry {d : DeviceSubscriptions} {e : JsString × List Subscription}
    (h : e ∈ d.entries) : subscriptionsOf d e.1 = e.2 := by
  rw [subscriptionsOf, Map.mem_entries.1 h, Option.getD_some]

/-- So are those of all devices together. -/
theorem all_handlers_nodup {s : Server DeviceSubscriptions N} (hc : Consistent policy s) :
    ∀ {es : List (JsString × List Subscription)}, (es.map Prod.fst).Nodup →
      (∀ e ∈ es, subscriptionsOf s.action e.1 = e.2) →
      (((es.map Prod.snd).flatten).map Subscription.handler).Nodup
  | [], _, _ => List.nodup_nil
  | e :: es, hn, h => by
    simp only [List.map_cons, List.nodup_cons] at hn
    simp only [List.mem_cons, forall_eq_or_imp] at h
    rw [List.map_cons, List.flatten_cons, List.map_append, List.nodup_append]
    refine ⟨h.1 ▸ handlers_nodup hc e.1, all_handlers_nodup hc hn.2 h.2, ?_⟩
    rintro x hx _ hy rfl
    obtain ⟨sub, hsub, rfl⟩ := List.mem_map.1 hx
    obtain ⟨sub', hsub', he⟩ := List.mem_map.1 hy
    obtain ⟨l, hl, hsub'⟩ := List.mem_flatten.1 hsub'
    obtain ⟨e', he', rfl⟩ := List.mem_map.1 hl
    have h1 := (hc.subscribed e.1 sub (h.1 ▸ hsub)).2.2.1
    have h2 := (hc.subscribed e'.1 sub' (h.2 e' he' ▸ hsub')).2.2.1
    rw [he, h1, Option.some.injEq] at h2
    exact hn.1 (h2 ▸ List.mem_map_of_mem he')

theorem mem_all_subscriptions {d : DeviceSubscriptions} {c : CallRef} :
    (∃ sub ∈ d.values.flatten, sub.handler = c)
      ↔ ∃ m, ∃ sub ∈ subscriptionsOf d m, sub.handler = c := by
  constructor
  · rintro ⟨sub, hsub, h⟩
    obtain ⟨l, hl, hsub⟩ := List.mem_flatten.1 hsub
    obtain ⟨m, hm⟩ := Map.mem_values.1 hl
    exact ⟨m, sub, by rw [subscriptionsOf, hm]; exact hsub, h⟩
  · rintro ⟨m, sub, hsub, h⟩
    rcases hm : d.get m with _ | l
    · rw [subscriptionsOf, hm] at hsub
      simp at hsub
    · rw [subscriptionsOf, hm] at hsub
      exact ⟨sub, List.mem_flatten.2 ⟨l, Map.mem_values.2 ⟨m, hm⟩, hsub⟩, h⟩

open scoped Classical in
theorem publishToChannel_writes {s : Server DeviceSubscriptions N} (hc : Consistent policy s)
    (m : JsString) (data : Value N) (c : CallRef) :
    ((publish (action p policy version) s (.publishToChannel m data)).calls c).sent
      = (s.calls c).sent ++ if ∃ sub ∈ subscriptionsOf s.action m, sub.handler = c
          then [.write data] else [] := by
  rw [publish, calls_sendAll, ← writes_once data c (handlers_nodup hc m)]
  rfl

open scoped Classical in
theorem broadcast_writes {s : Server DeviceSubscriptions N} (hc : Consistent policy s)
    (data : Value N) (c : CallRef) :
    ((publish (action p policy version) s (.broadcast data)).calls c).sent
      = (s.calls c).sent ++ if ∃ m, ∃ sub ∈ subscriptionsOf s.action m, sub.handler = c
          then [.write data] else [] := by
  have hn : (s.action.values.flatten.map Subscription.handler).Nodup :=
    all_handlers_nodup hc s.action.nodup fun e he => subscriptionsOf_entry he
  rw [publish, calls_sendAll, ← if_congr mem_all_subscriptions rfl rfl, ← writes_once data c hn]
  simp only [action, published, broadcast, List.map_flatten, List.flatMap_def]

/-- The subscriptions of each device are those of the calls that hear its channel. -/
structure Follows (s : Server DeviceSubscriptions N) (a : Audience) : Prop where
  opened : s.opened = a.opened
  hears : ∀ m, a.hears m = subscriptionsOf s.action m

theorem follows_start : Follows (Server.start Map.empty : Server DeviceSubscriptions N)
    Audience.start := ⟨rfl, fun _ => rfl⟩

theorem Follows.of_eq {s t : Server DeviceSubscriptions N} {a : Audience} (h : Follows s a)
    (ho : t.opened = s.opened) (ha : t.action = s.action) : Follows t a :=
  ⟨ho.trans h.opened, fun m => by rw [h.hears, ha]⟩

/-- A close takes away the subscriptions of its call. -/
theorem subscriptionsOf_closeStream {s : Server DeviceSubscriptions N} (hc : Consistent policy s)
    {c : CallRef} (hlt : c < s.opened) (m : JsString) :
    subscriptionsOf (closeStream (action p policy version) s c).action m
      = (subscriptionsOf s.action m).filter fun sub => sub.handler ≠ c := by
  rw [subscriptionsOf_close]
  split_ifs with hm
  · rw [eraseP_nodup (hc.nodup m)]
    refine List.filter_congr fun sub hsub => decide_eq_decide.2 (not_congr ?_)
    obtain ⟨h1, h2, -⟩ := hc.subscribed m sub hsub
    exact ⟨fun h => hc.distinct _ h1 c hlt (h2.trans h), fun h => h ▸ h2.symm⟩
  · refine (List.filter_eq_self.2 fun sub hsub => decide_eq_true_iff.2 ?_).symm
    rintro rfl
    obtain ⟨-, -, h3, h4⟩ := hc.subscribed m sub hsub
    exact hm (h3 ▸ nonEmpty_some h4)

variable [JsNumber N]

theorem openStream_follows {s : Server DeviceSubscriptions N} (hc : Consistent policy s)
    (hl : Linked s) {a : Audience} (hf : Follows s a) {o : Opening N} (ho : Fresh s o.streamId) :
    Follows (openStream p (soleAction (action p policy version)) s o).2
      (Audience.next p policy version a (.open o)) := by
  rcases hs : setupStream p (soleAction (action p policy version)) o with e | ⟨h, x⟩
  · have ht : (openStream p (soleAction (action p policy version)) s o).2 = accept s o none := by
      simp only [openStream, hs]
    have hno : ∀ m, openedFrom p (action p policy version) o ≠ some m := by simp [openedFrom, hs]
    rw [ht]
    refine ⟨congrArg (· + 1) hf.opened, fun m => ?_⟩
    simp only [Audience.next, if_neg (hno m)]
    exact hf.hears m
  · obtain ⟨hk, ha⟩ := openStream_keeps p version s hs
    have hop : openedFrom p (action p policy version) o = nonEmpty h.mobileUid := by
      simp only [openedFrom, hs]
    refine ⟨?_, fun m => ?_⟩
    · rw [hk.opened, (subscribeStream_keeps p version _ _ _ _).opened]
      exact congrArg (· + 1) hf.opened
    · simp only [Audience.next, hop]
      rw [ha]
      rcases hm : nonEmpty h.mobileUid with _ | m'
      · rw [subscribeStream_none p version hm, if_neg (by simp)]
        exact hf.hears m
      · obtain ⟨hu, hne⟩ := nonEmpty_eq_some hm
        rw [hu, subscriptionsOf_letIn p version (consistent_register hc o ho (some m'))
          (linked_register hc hl o ho _) hne]
        simp only [Option.some.injEq, hf.hears, ← hf.opened, eq_comm (a := m')]
        rcases eq_or_ne m m' with rfl | hmm
        · rw [if_pos rfl, if_pos rfl]
          rfl
        · rw [if_neg hmm, if_neg hmm]
          rfl

/-- One step and the audience's next go together. -/
theorem streamStep_follows {s t : Server DeviceSubscriptions N} (hc : Consistent policy s)
    (hl : Linked s) {a : Audience} (hf : Follows s a) {e : StreamEvent N} (he : e ≠ .destroy)
    (h : streamStep p (action p policy version) s e = some t) :
    Follows t (Audience.next p policy version a e) := by
  cases streamStep_moves h with
  | opens ho => exact openStream_follows p version hc hl hf ho
  | data => exact hf.of_eq rfl rfl
  | settled => exact hf.of_eq rfl rfl
  | halfClose => exact hf.of_eq rfl rfl
  | close hlt =>
    refine ⟨by rw [closeStream_eq]; exact hf.opened, fun m => ?_⟩
    rw [subscriptionsOf_closeStream p version hc hlt, ← hf.hears]
    rfl
  | publish x => exact hf.of_eq (publish_keeps _ s x).opened (publish_action _ s x)
  | destroy => exact absurd rfl he

/-- After every run of a service that is not destroyed the subscriptions are those of the
audience. -/
theorem run_follows {es : List (StreamEvent N)}
    {s : Server DeviceSubscriptions N}
    (h : Steps.Runs (streamStep p (action p policy version)) (Server.start Map.empty) es s)
    (hd : .destroy ∉ es) : Follows s (Audience.after p policy version es) := by
  refine (Steps.Runs.simulate (fun s a => (Consistent policy s ∧ Linked s) ∧ Follows s a)
    (Audience.next p policy version) ⟨⟨consistent_start, linked_start⟩, follows_start⟩ ?_ h
    (Steps.along_ne hd)).2
  intro s a e t ⟨⟨hc, hl⟩, hf⟩ he ht
  exact ⟨⟨streamStep_consistent p version hc ht, streamStep_linked p version hc hl he ht⟩,
    streamStep_follows p version hc hl hf he ht⟩

open scoped Classical in
/-- After every run of a service that is not destroyed, a publication on a device's channel writes
its data once on each call that hears it and nothing on another, a broadcast writes once on each
call that hears any channel, and a call hears only the channel of the device it was opened from. -/
theorem published_to_audience (policy : DeviceMultipleConnectionPolicy)
    {es : List (StreamEvent N)} {s : Server DeviceSubscriptions N}
    (h : Steps.Runs (streamStep p (action p policy version)) (Server.start Map.empty) es s)
    (hd : .destroy ∉ es) :
    (∀ m data t,
        streamStep p (action p policy version) s (.publish (.publishToChannel m data)) = some t →
        ∀ c, (t.calls c).sent = (s.calls c).sent
          ++ if (Audience.after p policy version es).Hears m c then [.write data] else []) ∧
      (∀ data t, streamStep p (action p policy version) s (.publish (.broadcast data)) = some t →
        ∀ c, (t.calls c).sent = (s.calls c).sent
          ++ if ∃ m, (Audience.after p policy version es).Hears m c
            then [.write data] else []) ∧
      ∀ m c, (Audience.after p policy version es).Hears m c → c < s.opened
        ∧ ∃ o, .open o ∈ es ∧ o.streamId = (s.calls c).streamId
          ∧ openedFrom p (action p policy version) o = some m := by
  have hc := run_consistent p version h
  have hf := run_follows p version h hd
  refine ⟨fun m data t ht c => ?_, fun data t ht c => ?_, fun m c hm => ?_⟩
  · obtain rfl := Option.some.inj ht
    rw [publishToChannel_writes p version hc]
    simp only [Audience.Hears, hf.hears]
  · obtain rfl := Option.some.inj ht
    rw [broadcast_writes p version hc]
    simp only [Audience.Hears, hf.hears]
  · obtain ⟨sub, hsub, rfl⟩ := hm
    rw [hf.hears] at hsub
    obtain ⟨h1, h2, h3, h4⟩ := hc.subscribed m sub hsub
    obtain ⟨o, ho, h5, h6⟩ := run_opened p version h _ h1
    exact ⟨h1, o, ho, h5.symm, by rw [← h6, h3, nonEmpty_some h4]⟩

/-- Two devices open a stream each, the first a second one that is refused, and its first closes. -/
def secondRefused : List (StreamEvent ℤ) :=
  [.open (plainOpening (js "s1") [(.mobileUid, js "A")]),
    .open (plainOpening (js "s2") [(.mobileUid, js "B")]),
    .open (plainOpening (js "s3") [(.mobileUid, js "A")]),
    .publish (.publishToChannel (js "A") (.num 1)), .close 0]

theorem published_to_audience_secondRefused :
    ∃ s t, Steps.Runs
        (streamStep badRequests (action badRequests .forbidClosePreviousConnection none))
        (Server.start Map.empty) secondRefused s
      ∧ streamStep badRequests (action badRequests .forbidClosePreviousConnection none) s
          (.publish (.publishToChannel (js "B") (.num 2))) = some t
      ∧ (t.calls 1).sent = (s.calls 1).sent ++ [.write (.num 2)]
      ∧ (t.calls 2).sent = (s.calls 2).sent := by
  obtain ⟨s, hs⟩ := Option.isSome_iff_exists.1 (by decide : (secondRefused.foldlM
    (streamStep badRequests (action badRequests .forbidClosePreviousConnection none))
    (Server.start Map.empty)).isSome)
  have h := (published_to_audience badRequests none .forbidClosePreviousConnection hs
    (by simp [secondRefused])).1 (js "B") (.num 2) _ rfl
  have hears : ∀ c, (Audience.after badRequests .forbidClosePreviousConnection none
      secondRefused).Hears (js "B") c ↔ c = 1 := by
    have hb : (Audience.after badRequests .forbidClosePreviousConnection none
        secondRefused).hears (js "B") = [⟨js "s2", 1⟩] := by decide
    simp [Audience.Hears, hb, eq_comm]
  refine ⟨s, _, hs, rfl, ?_, ?_⟩
  · rw [h 1, if_pos ((hears 1).2 rfl)]
  · rw [h 2, if_neg fun h2 => absurd ((hears 2).1 h2) (by decide), List.append_nil]

end DiiaApp
