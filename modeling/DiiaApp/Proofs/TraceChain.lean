import DiiaApp.Proofs.ClientMetadata
import DiiaApp.TraceChain

/-!
# One trace down a chain of calls

Every span of a chain of calls is in the trace of the first and has its place in one tree below it,
but for `grpc start`: each parent is an earlier span of the chain, or what was active in the service
that starts the span already.
-/

namespace DiiaApp

open Js

instance : Inhabited TraceId := ⟨List.replicate 32 49, by decide⟩

namespace Telemetry

variable {N : Type}

/-- What a span is below may be active already (`outer`), or is a span before it; only the first
span may be below nothing. -/
def Placed (T : TraceId) (outer : SpanContext → Prop) (spans : List StartedSpan)
    (span : StartedSpan) : Prop :=
  span.role ≠ .entry →
    span.context.traceId = T ∧ (span.parent = none → spans = []) ∧
      ∀ parent, span.parent = some parent → parent.traceId = T ∧
        (outer parent ∨ ∃ earlier ∈ spans, earlier.context = parent)

/-- Each span is placed after those before it. -/
def OneTree (T : TraceId) (outer : SpanContext → Prop) (spans : List StartedSpan) : Prop :=
  ∀ before span after, spans = before ++ span :: after → Placed T outer before span

variable {T : TraceId} {outer outer' : SpanContext → Prop} {spans : List StartedSpan}
  {span : StartedSpan}

theorem Placed.mono (h : Placed T outer spans span) (ho : ∀ c, outer c → outer' c) :
    Placed T outer' spans span := fun hr => by
  obtain ⟨h1, h2, h3⟩ := h hr
  exact ⟨h1, h2, fun parent hp => ⟨(h3 parent hp).1, (h3 parent hp).2.imp_left (ho parent)⟩⟩

theorem OneTree.mono (h : OneTree T outer spans) (ho : ∀ c, outer c → outer' c) :
    OneTree T outer' spans :=
  fun before span after hs => (h before span after hs).mono ho

theorem oneTree_nil : OneTree T outer [] := fun before span after h => by
  cases before <;> cases h

theorem OneTree.snoc (h : OneTree T outer spans) (hs : Placed T outer spans span) :
    OneTree T outer (spans ++ [span]) := by
  intro before last after he
  rcases after.eq_nil_or_concat with rfl | ⟨after, last', rfl⟩
  · obtain ⟨rfl, hl⟩ := List.append_inj' he rfl
    obtain rfl := List.singleton_inj.1 hl
    exact hs
  · rw [List.concat_eq_append, ← List.cons_append, ← List.append_assoc] at he
    exact h before last after (List.append_inj' he rfl).1

/-- A span below one of the trace is placed after it. -/
theorem placed_below {parent : SpanContext} {role : SpanRole} {name : JsString} {ids : SpanContext}
    (hT : parent.traceId = T) (hp : outer parent ∨ ∃ earlier ∈ spans, earlier.context = parent) :
    Placed T outer spans (startSpan role name ids (some parent)) := by
  refine fun _ => ⟨hT, nofun, fun c hc => ?_⟩
  obtain rfl := Option.some.inj hc
  exact ⟨hT, hp⟩

/-- The context that `execute` starts its span in is that of the caller's span, or what is active
and of its trace. -/
theorem compareSpanContext_some (active : TraceContext) (c : SpanContext) :
    ∃ parent, compareSpanContext active (some c) = some parent ∧ parent.traceId = c.traceId ∧
      (parent = c ∨ active = some parent) := by
  by_cases h : active.map SpanContext.traceId = some c.traceId
  · obtain ⟨a, rfl, ha⟩ := Option.map_eq_some_iff.1 h
    exact ⟨a, if_pos h, ha, .inr rfl⟩
  · exact ⟨c, if_neg h, rfl, .inl rfl⟩

section Calls

variable (t : Telemetry N) (p : Packages N) (rules : MetadataRules N) [JsNumber N]

/-- What `traceparent` says of a span is read back, and the client's metadata keeps it under the key
the service reads it from. -/
structure Carries : Prop where
  extract : ∀ active span tracestate,
    t.extract active (.str (t.traceparent span)) tracestate = some span
  stored : ∀ span, rules.stored (p.grpcMetadataKeys .traceParent) (.str (t.traceparent span))
    = some [t.traceparent span]
  nonempty : ∀ span, t.traceparent span ≠ []
  lower : ∀ key, rules.normalizeKey (p.grpcMetadataKeys key) = p.grpcMetadataKeys key
  distinct : ∀ key, key = .traceState ∨ key = .sentFrom →
    p.grpcMetadataKeys key ≠ p.grpcMetadataKeys .traceParent

variable {t p rules}

omit [JsNumber N] in
theorem tracingProperty_inject (h : Carries t p rules) {options : OptionsRef}
    {logData : List (JsString × Value N)} (send : SpanContext) :
    tracingProperty (⟨options, logData, t.inject send⟩ : ClientCall N) (js "traceparent")
      = some (t.traceparent send) := by
  unfold tracingProperty inject
  rw [Map.find, if_pos rfl, nonEmpty, if_neg (h.nonempty send)]

/-- The caller's `traceparent` is what the call sends under its key. -/
theorem ownValue_traceParent (h : Carries t p rules) (name : JsString) {options : OptionsRef}
    {logData : List (JsString × Value N)} (send : SpanContext) :
    ownValue p name rules ⟨options, logData, t.inject send⟩ (p.grpcMetadataKeys .traceParent)
      = some [t.traceparent send] := by
  have hstate := h.distinct .traceState (.inl rfl)
  have hfrom := h.distinct .sentFrom (.inr rfl)
  unfold ownValue ownEntries
  rw [tracingProperty_inject h]
  rcases tracingProperty _ (js "tracestate") with _ | text <;>
    simp [lastStored, h.lower, h.stored, hstate, hfrom]

/-- What reaches the called service names the caller's span. -/
theorem carried_fst (h : Carries t p rules) {link : Link N} {send : SpanContext}
    {carrier : Value N × Value N} (hc : t.carried p rules link send = some carrier) :
    carrier.1 = .str (t.traceparent send) := by
  unfold carried at hc
  split at hc
  · obtain rfl := Option.some.inj hc
    show ((Map.find (js "traceparent") (t.inject send)).map Value.str).getD .undefined = _
    rw [inject, Map.find, if_pos rfl]
    rfl
  · obtain ⟨sent, hs, hc⟩ := Option.bind_eq_some_iff.1 hc
    obtain ⟨tracing, -, hc⟩ := Option.bind_eq_some_iff.1 hc
    obtain rfl := Option.some.inj hc
    rcases sentMetadata_cases p link.systemServiceName rules
      ⟨0, link.logData, t.inject send⟩ link.metadata with ⟨-, hn⟩ | ⟨-, m, hm, hget⟩
    · rw [hn] at hs
      cases hs
    obtain rfl := Option.some.inj (hm.symm.trans hs)
    have hkey := hget (p.grpcMetadataKeys .traceParent)
    rw [ownValue_traceParent h, Option.some_or] at hkey
    have hread : metadataProperty p m .traceParent = some (t.traceparent send) := by
      rw [metadataProperty, Metadata.getAll, hkey]
      rfl
    have htruthy : (Value.str (t.traceparent send) : Value N).truthy = true := by
      simpa [Value.truthy] using h.nonempty send
    simp [prepareActHeadersFromGrpcInput, ActHeaders.withTracing, hread, htruthy]

/-- What a call reads back of its caller's span is that span. -/
theorem extract_carried (h : Carries t p rules) {link : Link N} {send : SpanContext}
    {carrier : Value N × Value N} (hc : t.carried p rules link send = some carrier)
    (active : TraceContext) : t.extract active carrier.1 carrier.2 = some send := by
  rw [carried_fst h hc, h.extract]

/-- The span of `execute` has its place where what is active, if of the trace, has one too. -/
theorem oneTree_handle (h : Carries t p rules) {link : Link N} {send : SpanContext}
    {carrier : Value N × Value N} (hc : t.carried p rules link send = some carrier)
    {active : TraceContext} (hT : send.traceId = T) (hs : OneTree T outer spans)
    (hsend : ∃ earlier ∈ spans, earlier.context = send)
    (hactive : ∀ c, active = some c → outer c ∨ ∃ earlier ∈ spans, earlier.context = c) :
    OneTree T outer (spans ++ [t.handleSpan link active carrier]) ∧
      (t.handleSpan link active carrier).context.traceId = T := by
  obtain ⟨parent, hp, hpT, hpar⟩ := compareSpanContext_some active send
  unfold handleSpan
  rw [extract_carried h hc, hp]
  refine ⟨hs.snoc (placed_below (hpT.trans hT) ?_), hpT.trans hT⟩
  rcases hpar with rfl | ha
  · exact .inr hsend
  · exact hactive parent ha

/-- The spans of the called service are placed one after the other. -/
theorem oneTree_called (h : Carries t p rules) {link : Link N} {send : SpanContext}
    {carrier : Value N × Value N} (hc : t.carried p rules link send = some carrier)
    (hT : send.traceId = T) (hsend : ∃ earlier ∈ spans, earlier.context = send)
    (ho : ∀ c, link.active = some c → outer c) (hs : OneTree T outer spans) :
    OneTree T outer
        (spans ++ ((t.calledSpans link carrier).1 ++ [(t.calledSpans link carrier).2])) ∧
      (t.calledSpans link carrier).2.context.traceId = T := by
  obtain ⟨sent, hsent, hcontext⟩ := hsend
  unfold calledSpans
  rcases link.transport with _ | _ | _
  · -- what `grpc start` is in is active where `execute` starts its span
    let entry := startSpan .entry (js "grpc start") (link.ids .entry) link.active
    have h1 : OneTree T outer (spans ++ [entry]) := hs.snoc fun he => absurd rfl he
    have hh := oneTree_handle h hc hT h1 ⟨sent, List.mem_append_left _ hsent, hcontext⟩
      fun c (he : some entry.context = some c) =>
        .inr ⟨entry, List.mem_concat_self, Option.some.inj he⟩
    rwa [List.append_assoc] at hh
  · rw [extract_carried h hc]
    let stream := startSpan .stream (js "grpc stream " ++ link.actionName) (link.ids .stream)
      (some send)
    let onData := startSpan .onData (js "onData " ++ link.actionName) (link.ids .onData)
      (some stream.context)
    have h1 : OneTree T outer (spans ++ [stream]) :=
      hs.snoc (placed_below hT (.inr ⟨sent, hsent, hcontext⟩))
    have hon : Placed T outer (spans ++ [stream]) onData :=
      placed_below hT (.inr ⟨stream, List.mem_concat_self, rfl⟩)
    have hh := oneTree_handle h hc hT (h1.snoc hon)
      ⟨sent, List.mem_append_left _ (List.mem_append_left _ hsent), hcontext⟩
      fun c (he : some onData.context = some c) =>
        .inr ⟨onData, List.mem_concat_self, Option.some.inj he⟩
    rwa [List.append_assoc, List.append_assoc] at hh
  · exact oneTree_handle h hc hT hs ⟨sent, hsent, hcontext⟩ fun c he => .inl (ho c he)

/-- What was active before the chain, or in a service when it was called. -/
def Outer (active : TraceContext) (links : List (Link N)) (c : SpanContext) : Prop :=
  active = some c ∨ ∃ link ∈ links, link.active = some c

/-- A chain of calls so far, and the trace it is in once there is one. -/
structure InTrace (active : TraceContext) (links : List (Link N)) (s : Traced) (T : TraceId) :
    Prop where
  tree : OneTree T (Outer active links) s.spans
  first : ∀ c, active = some c → c.traceId = T
  active_trace : ∀ c, s.active = some c → c.traceId = T ∧
    (Outer active links c ∨ ∃ span ∈ s.spans, span.context = c)
  /-- Nothing is active only before the first call, where nothing was active before. -/
  idle : s.active = none → active = none ∧ links = [] ∧ s.spans = []

theorem callStep_inTrace (h : Carries t p rules) {active : TraceContext} {links : List (Link N)}
    {link : Link N} {s s' : Traced} {T : TraceId} (hs : InTrace active links s T)
    (hT : (s.active.map SpanContext.traceId).getD (link.ids .send).traceId = T)
    (hstep : t.callStep p rules s link = some s') : InTrace active (links ++ [link]) s' T := by
  have ho : ∀ c, Outer active links c → Outer active (links ++ [link]) c := by
    rintro c (hc | ⟨l, hl, hc⟩)
    · exact .inl hc
    · exact .inr ⟨l, List.mem_append_left _ hl, hc⟩
  obtain ⟨carrier, hc, rfl⟩ := Option.map_eq_some_iff.1 hstep
  have hsend : Placed T (Outer active (links ++ [link])) s.spans
      (startSpan .send (js "send " ++ link.callName) (link.ids .send) s.active) := by
    refine fun _ => ⟨hT, fun hn => (hs.idle hn).2.2, fun parent hp => ?_⟩
    exact ⟨(hs.active_trace parent hp).1, (hs.active_trace parent hp).2.imp_left (ho parent)⟩
  obtain ⟨htree, hh⟩ := oneTree_called h hc hT
    ⟨_, List.mem_concat_self, rfl⟩ (fun c hl => .inr ⟨link, List.mem_concat_self, hl⟩)
    ((hs.tree.mono ho).snoc hsend)
  exact
    { tree := by simpa using htree
      first := hs.first
      active_trace := fun c he => by
        obtain rfl := Option.some.inj he
        exact ⟨hh, .inr ⟨(t.calledSpans link carrier).2, by simp, rfl⟩⟩
      idle := nofun }

omit [JsNumber N] in
theorem inTrace_start (active : TraceContext) :
    InTrace active ([] : List (Link N)) ⟨active, []⟩
      ((active.map SpanContext.traceId).getD default) where
  tree := oneTree_nil
  first := by rintro c rfl; rfl
  active_trace := by rintro c rfl; exact ⟨rfl, .inl (.inl rfl)⟩
  idle := fun h => ⟨h, rfl, rfl⟩

omit [JsNumber N] in
/-- Before anything is active the chain may be of any trace. -/
theorem InTrace.fresh {active : TraceContext} {links : List (Link N)} {s : Traced} {T : TraceId}
    (hs : InTrace active links s T) (hn : s.active = none) (T' : TraceId) :
    InTrace active links s T' where
  tree := by rw [(hs.idle hn).2.2]; exact oneTree_nil
  first := by rw [(hs.idle hn).1]; nofun
  active_trace := by rw [hn]; nofun
  idle := hs.idle

end Calls

/-- The writer and the reader of `traceparent`, of a sampled span and no `tracestate`. -/
def w3c : Telemetry ℤ where
  traceparent c := js "00-" ++ c.traceId.1 ++ js "-" ++ c.spanId.1 ++ js "-01"
  tracestate _ := none
  extract _ parent _ :=
    match parent with
    | .str text =>
      let traceId := (text.drop 3).take 32
      let spanId := (text.drop 36).take 16
      if h : IsHexId 32 traceId ∧ IsHexId 16 spanId then some ⟨⟨traceId, h.1⟩, ⟨spanId, h.2⟩⟩
      else none
    | _ => none

theorem isLegal_hex {n : ℕ} {s : JsString} (h : IsHexId n s) : Metadata.isLegal s = true := by
  refine List.all_eq_true.2 fun u hu => ?_
  have hd := h.2.1 u hu
  simp only [isHexDigit, isDigit, Bool.decide_or, Bool.decide_and, Bool.or_eq_true,
    Bool.and_eq_true, decide_eq_true_eq] at hd
  simp only [decide_eq_true_eq]
  omega

theorem w3c_carries : w3c.Carries standIn standInRules where
  extract active span tracestate := by
    obtain ⟨⟨traceId, ht⟩, ⟨spanId, hs⟩⟩ := span
    have h1 : ((w3c.traceparent ⟨⟨traceId, ht⟩, ⟨spanId, hs⟩⟩).drop 3).take 32 = traceId := by
      simp [w3c, js, ht.1]
    have h2 : ((w3c.traceparent ⟨⟨traceId, ht⟩, ⟨spanId, hs⟩⟩).drop 36).take 16 = spanId := by
      have hd : traceId.drop 33 = [] := List.drop_eq_nil_of_le (by rw [ht.1]; decide)
      simp [w3c, js, List.drop_append, ht.1, hs.1, hd]
    show (if h : IsHexId 32 _ ∧ IsHexId 16 _ then some (⟨⟨_, h.1⟩, ⟨_, h.2⟩⟩ : SpanContext)
      else none) = _
    simp only [h1, h2, dif_pos (And.intro ht hs)]
  stored span := by
    have hlegal : Metadata.isLegal (w3c.traceparent span) = true := by
      have h1 := isLegal_hex span.traceId.2
      have h2 := isLegal_hex span.spanId.2
      unfold Metadata.isLegal at h1 h2 ⊢
      simp only [w3c, List.all_append, h1, h2, Bool.and_true]
      decide
    exact if_pos hlegal
  nonempty span := by simp [w3c, js]
  lower key := by cases key <;> decide
  distinct key h := by rcases h with rfl | rfl <;> decide

def idOf (n : ℕ) (u : CodeUnit) (hn : 0 < n) (hu : isHexDigit u ∧ u ≠ 48) :
    { s : JsString // IsHexId n s } :=
  ⟨List.replicate n u, by simp, fun _ h => List.eq_of_mem_replicate h ▸ hu.1,
    u, by simp [hn.ne'], hu.2⟩

/-- A call with nothing active where it comes in, its spans with ids of the digit `u`. -/
def linkOver (transport : Transport) (u : CodeUnit) (hu : isHexDigit u ∧ u ≠ 48) : Link ℤ where
  transport := transport
  callName := js "/pkg.Service/getUser"
  actionName := js "getUser.v1"
  systemServiceName := js "Gateway"
  metadata := Map.empty
  logData := []
  actVersions := [v1]
  traceId := js "t"
  active := none
  ids _ := ⟨idOf 32 u (by decide) hu, idOf 16 u (by decide) hu⟩

def threeLinks : List (Link ℤ) :=
  [linkOver .unary 49 (by decide), linkOver .stream 50 (by decide),
    linkOver .moleculer 51 (by decide)]

end Telemetry

end DiiaApp
