import Mathlib.Data.List.Basic
import Mathlib.Logic.Function.Basic

/-!
# Generators and what is wrapped around them

A generator is asked for its next value, to close with a value, or to raise an error, in any order.
Its body runs from the first request for a value until it is done or fails; before and after that
the generator answers by itself (`Body.reply`). A body may put out events while it runs.

A wrapper runs code of its own before another body, passes each request on to that body with its
answer back, and has code for its events, its end, its failure and its closing (`wrap`). What it
makes of the replies of the inner generator depends on these alone (`replies_wrap`).
-/

namespace Generator

variable {κ α β σ ℓ ο ο' υ ρ ε : Type*}

inductive Request (ρ ε : Type*)
  | next
  | close (value : ρ)
  | raise (err : ε)

inductive Answer (υ ρ ε : Type*)
  | yield (value : υ)
  | done (value : ρ)
  | fail (err : ε)

/-- How far a body comes: to a value, in a state to go on from, or to its end. -/
inductive Step (σ υ ρ ε : Type*)
  | yield (value : υ) (state : σ)
  | done (value : ρ)
  | fail (err : ε)

/-- A body is started with an argument and resumed with a request, each time in a context of the
one who asks, and puts out events. -/
structure Body (κ α σ ο υ ρ ε : Type*) where
  start : κ → α → Step σ υ ρ ε × List ο
  resume : κ → σ → Request ρ ε → Step σ υ ρ ε × List ο

inductive Phase (α σ : Type*)
  | fresh (argument : α)
  | suspended (state : σ)
  | finished

/-- The answer to a request, with the events put out for it and whether the body ran. -/
structure Reply (ο υ ρ ε : Type*) where
  request : Request ρ ε
  answer : Answer υ ρ ε
  events : List ο
  ran : Bool

def Request.isClose : Request ρ ε → Bool
  | .close _ => true
  | _ => false

def Step.answer : Step σ υ ρ ε → Answer υ ρ ε
  | .yield value _ => .yield value
  | .done value => .done value
  | .fail err => .fail err

def Step.phase : Step σ υ ρ ε → Phase α σ
  | .yield _ state => .suspended state
  | .done _ => .finished
  | .fail _ => .finished

/-- The body is at its end. -/
def Answer.isLast : Answer υ ρ ε → Bool
  | .yield _ => false
  | _ => true

namespace Body

variable (undefined : ρ)

/-- A reply without the body, a value being `undefined`. -/
def bare : Request ρ ε → Reply ο υ ρ ε
  | .next => ⟨.next, .done undefined, [], false⟩
  | .close value => ⟨.close value, .done value, [], false⟩
  | .raise err => ⟨.raise err, .fail err, [], false⟩

variable (b : Body κ α σ ο υ ρ ε)

def ranTo (request : Request ρ ε) (step : Step σ υ ρ ε × List ο) :
    Reply ο υ ρ ε × Phase α σ :=
  (⟨request, step.1.answer, step.2, true⟩, step.1.phase)

def reply (context : κ) : Phase α σ → Request ρ ε → Reply ο υ ρ ε × Phase α σ
  | .fresh argument, .next => ranTo .next (b.start context argument)
  | .suspended state, request => ranTo request (b.resume context state request)
  | _, request => (bare undefined request, .finished)

/-- The replies to requests made one after the other, each in its context. -/
def replies : Phase α σ → List (κ × Request ρ ε) → List (Reply ο υ ρ ε)
  | _, [] => []
  | phase, (context, request) :: requests =>
    let answered := b.reply undefined context phase request
    answered.1 :: replies answered.2 requests

variable {undefined b}

theorem replies_finished :
    ∀ requests : List (κ × Request ρ ε),
      b.replies undefined .finished requests = requests.map fun r => bare undefined r.2
  | [] => rfl
  | (context, request) :: requests => by
    simp only [replies, reply, List.map_cons, replies_finished requests]

/-- A generator whose body does not run for a request is at its end. -/
theorem reply_cases (undefined : ρ) (b : Body κ α σ ο υ ρ ε) (context : κ) (phase : Phase α σ)
    (request : Request ρ ε) :
    b.reply undefined context phase request = (bare undefined request, .finished) ∨
      (b.reply undefined context phase request).1.ran := by
  cases phase with
  | fresh argument =>
    cases request with
    | next => exact .inr rfl
    | close => exact .inl rfl
    | raise => exact .inl rfl
  | suspended state => exact .inr rfl
  | finished => exact .inl rfl

/-- Once its body is at its end, or is closed before it has begun, a generator runs no more. -/
theorem replies_of_last {context : κ} {phase : Phase α σ} {request : Request ρ ε}
    {requests : List (κ × Request ρ ε)}
    {answered : Reply ο υ ρ ε × Phase α σ}
    (h : b.reply undefined context phase request = answered) (hl : answered.1.answer.isLast) :
    b.replies undefined phase ((context, request) :: requests)
      = answered.1 :: requests.map fun r => bare undefined r.2 := by
  subst h
  have hphase : (b.reply undefined context phase request).2 = .finished := by
    have hstep : ∀ s : Step σ υ ρ ε, s.answer.isLast → (s.phase : Phase α σ) = .finished := by
      intro s hs
      cases s with
      | yield => cases hs
      | done => rfl
      | fail => rfl
    cases phase with
    | fresh argument =>
      cases request with
      | next => exact hstep _ hl
      | close => rfl
      | raise => rfl
    | suspended state => exact hstep _ hl
    | finished => cases request <;> rfl
  simp only [replies, hphase, replies_finished]

/-- A generator that is closed, or raises an error, before it has begun never begins. -/
theorem replies_closed {context : κ} {argument : α} {request : Request ρ ε}
    (h : request ≠ .next) (requests : List (κ × Request ρ ε)) :
    b.replies undefined (.fresh argument) ((context, request) :: requests)
      = ((context, request) :: requests).map fun r => bare undefined r.2 := by
  cases request with
  | next => exact absurd rfl h
  | close => simp only [replies, reply, replies_finished, List.map_cons]
  | raise => simp only [replies, reply, replies_finished, List.map_cons]

end Body

/-- The reply with which the body comes to its end. -/
def ending : List (Reply ο υ ρ ε) → Option (Reply ο υ ρ ε)
  | [] => none
  | r :: rs => if r.ran ∧ r.answer.isLast then some r else ending rs

theorem ending_bare {undefined : ρ} :
    ∀ requests : List (κ × Request ρ ε),
      ending (requests.map fun r => (Body.bare undefined r.2 : Reply ο υ ρ ε)) = none
  | [] => rfl
  | (_, request) :: requests => by
    cases request <;> simpa [ending, Body.bare] using ending_bare requests

theorem events_bare {undefined : ρ} :
    ∀ requests : List (κ × Request ρ ε),
      (requests.map fun r => (Body.bare undefined r.2 : Reply ο υ ρ ε)).flatMap Reply.events = []
  | [] => rfl
  | (_, request) :: requests => by
    cases request <;> simpa [Body.bare] using events_bare requests

/-- What a wrapper has once its first part is over: the context in which the inner body is asked, for
the one it is asked in itself, its local variables, and the argument of the inner body. -/
structure Entered (κ α ℓ : Type*) where
  context : κ → κ
  locals : ℓ
  argument : α

structure Wrapper (κ α β ℓ ο ο' ρ ε : Type*) where
  enter : κ → α → Except ε (Entered κ β ℓ) × List ο'
  onEvent : ℓ → ο → ℓ × List ο'
  onDone : ℓ → ρ → List ο'
  onFail : ℓ → ε → ε × List ο'
  onClose : ℓ → List ο'

structure Wrapped (κ σ ℓ : Type*) where
  context : κ → κ
  locals : ℓ
  state : σ

namespace Wrapper

variable (W : Wrapper κ α β ℓ ο ο' ρ ε)

/-- The events of the inner body, taken in turn. -/
def through : ℓ → List ο → ℓ × List ο'
  | v, [] => (v, [])
  | v, o :: os =>
    let first := W.onEvent v o
    let rest := through first.1 os
    (rest.1, first.2 ++ rest.2)

/-- What the wrapper puts out where the inner body comes to its end with `value`. -/
def onEnd (v : ℓ) (closing : Bool) (value : ρ) : List ο' :=
  if closing then W.onClose v else W.onDone v value

def settle (context : κ → κ) (v : ℓ) (closing : Bool) (step : Step σ υ ρ ε × List ο) :
    Step (Wrapped κ σ ℓ) υ ρ ε × List ο' :=
  let passed := W.through v step.2
  match step.1 with
  | .yield value state => (.yield value ⟨context, passed.1, state⟩, passed.2)
  | .done value => (.done value, passed.2 ++ W.onEnd passed.1 closing value)
  | .fail err => (.fail (W.onFail passed.1 err).1, passed.2 ++ (W.onFail passed.1 err).2)

end Wrapper

/-- The body `b` within the wrapper. -/
def wrap (W : Wrapper κ α β ℓ ο ο' ρ ε) (b : Body κ β σ ο υ ρ ε) :
    Body κ α (Wrapped κ σ ℓ) ο' υ ρ ε where
  start context argument :=
    match W.enter context argument with
    | (.error err, events) => (.fail err, events)
    | (.ok entered, events) =>
      let step := W.settle entered.context entered.locals false
        (b.start (entered.context context) entered.argument)
      (step.1, events ++ step.2)
  resume context wrapped request :=
    W.settle wrapped.context wrapped.locals request.isClose
      (b.resume (wrapped.context context) wrapped.state request)

namespace Wrapper

variable (W : Wrapper κ α β ℓ ο ο' ρ ε)

/-- What becomes of a reply of the inner generator, and of the variables. -/
def relayOne (v : ℓ) (r : Reply ο υ ρ ε) : Reply ο' υ ρ ε × ℓ :=
  if r.ran then
    let passed := W.through v r.events
    match r.answer with
    | .yield value => (⟨r.request, .yield value, passed.2, true⟩, passed.1)
    | .done value =>
      (⟨r.request, .done value, passed.2 ++ W.onEnd passed.1 r.request.isClose value, true⟩,
        passed.1)
    | .fail err =>
      (⟨r.request, .fail (W.onFail passed.1 err).1, passed.2 ++ (W.onFail passed.1 err).2, true⟩,
        passed.1)
  else (⟨r.request, r.answer, [], false⟩, v)

def relay : ℓ → List (Reply ο υ ρ ε) → List (Reply ο' υ ρ ε)
  | _, [] => []
  | v, r :: rs => (W.relayOne v r).1 :: relay (W.relayOne v r).2 rs

variable {W}

theorem through_append :
    ∀ (es fs : List ο) (v : ℓ), W.through v (es ++ fs)
      = ((W.through (W.through v es).1 fs).1,
          (W.through v es).2 ++ (W.through (W.through v es).1 fs).2)
  | [], _, _ => rfl
  | e :: es, fs, v => by
    simp only [List.cons_append, through, through_append es fs, List.append_assoc]

/-- Events that a wrapper only passes on. -/
theorem through_eq_self {V : Wrapper κ α β ℓ ο ο ρ ε} {v : ℓ} :
    ∀ {es : List ο}, (∀ e ∈ es, V.onEvent v e = (v, [e])) → V.through v es = (v, es)
  | [], _ => rfl
  | e :: es, h => by
    rw [List.forall_mem_cons] at h
    simp only [through, h.1, through_eq_self h.2, List.singleton_append]

theorem relayOne_bare {v : ℓ} {undefined : ρ} {request : Request ρ ε} :
    W.relayOne v (Body.bare undefined request : Reply ο υ ρ ε)
      = (Body.bare undefined request, v) := by
  cases request <;> rfl

theorem relay_bare {v : ℓ} {undefined : ρ} :
    ∀ requests : List (κ × Request ρ ε),
      W.relay v (requests.map fun r => (Body.bare undefined r.2 : Reply ο υ ρ ε))
        = requests.map fun r => Body.bare undefined r.2
  | [] => rfl
  | r :: requests => by
    simp only [List.map_cons, relay, relayOne_bare, relay_bare requests]

@[simp] theorem relayOne_ran {v : ℓ} {r : Reply ο υ ρ ε} : (W.relayOne v r).1.ran = r.ran := by
  unfold relayOne
  split_ifs with h
  · split <;> exact h.symm
  · simpa using h

end Wrapper

/-- The requests as the inner generator gets them. -/
def within (context : κ → κ) (requests : List (κ × Request ρ ε)) : List (κ × Request ρ ε) :=
  requests.map fun r => (context r.1, r.2)

/-- The first reply with events put out before. -/
def precede (events : List ο) : List (Reply ο υ ρ ε) → List (Reply ο υ ρ ε)
  | [] => []
  | r :: rs => { r with events := events ++ r.events } :: rs

theorem within_id (requests : List (κ × Request ρ ε)) : within id requests = requests := by
  simp [within]

theorem precede_nil : ∀ rs : List (Reply ο υ ρ ε), precede [] rs = rs
  | [] => rfl
  | _ :: _ => rfl

theorem precede_precede {es fs : List ο} :
    ∀ rs : List (Reply ο υ ρ ε), precede es (precede fs rs) = precede (es ++ fs) rs
  | [] => rfl
  | r :: rs => by simp only [precede, List.append_assoc]

theorem map_precede {τ : Type*} {f : Reply ο υ ρ ε → τ} {events : List ο}
    (h : ∀ r, f { r with events := events ++ r.events } = f r) :
    ∀ rs : List (Reply ο υ ρ ε), (precede events rs).map f = rs.map f
  | [] => rfl
  | r :: rs => by simp only [precede, List.map_cons, h]

theorem events_precede {events : List ο} :
    ∀ {rs : List (Reply ο υ ρ ε)}, rs ≠ [] →
      (precede events rs).flatMap Reply.events = events ++ rs.flatMap Reply.events
  | [], h => absurd rfl h
  | r :: rs, _ => by simp only [precede, List.flatMap_cons, List.append_assoc]

/-- The body runs for the first reply, where there is any. -/
def Begins : List (Reply ο υ ρ ε) → Prop
  | [] => True
  | r :: _ => r.ran

theorem begins_replies {b : Body κ α σ ο υ ρ ε} {undefined : ρ} {argument : α} {context : κ}
    {requests : List (κ × Request ρ ε)} :
    Begins (b.replies undefined (.fresh argument) ((context, .next) :: requests)) := rfl

theorem begins_relay {W : Wrapper κ α β ℓ ο ο' ρ ε} {v : ℓ} :
    ∀ {rs : List (Reply ο υ ρ ε)}, Begins rs → Begins (W.relay v rs)
  | [], _ => trivial
  | _ :: _, h => Wrapper.relayOne_ran.trans h

/-- Events put out first that leave the variables as they are. -/
theorem relay_precede {W : Wrapper κ α β ℓ ο ο' ρ ε} {v : ℓ} {events : List ο}
    {events' : List ο'} (hv : W.through v events = (v, events')) :
    ∀ {rs : List (Reply ο υ ρ ε)}, Begins rs →
      W.relay v (precede events rs) = precede events' (W.relay v rs)
  | [], _ => rfl
  | ⟨request, answer, es, ran⟩ :: rs, h => by
    cases h
    cases answer <;>
      simp only [precede, Wrapper.relay, Wrapper.relayOne, if_true, Wrapper.through_append, hv,
        List.append_assoc]

section Replies

variable {W : Wrapper κ α β ℓ ο ο' ρ ε} {b : Body κ β σ ο υ ρ ε} {undefined : ρ}

/-- A step passed on gives the reply relayed, and the two generators go on alike. -/
theorem ranTo_settle {context : κ → κ} {v : ℓ} {request : Request ρ ε}
    (step : Step σ υ ρ ε × List ο) {requests : List (κ × Request ρ ε)}
    (ih : ∀ (v : ℓ) (state : σ),
      (wrap W b).replies undefined (.suspended ⟨context, v, state⟩) requests
        = W.relay v (b.replies undefined (.suspended state) (within context requests))) :
    (Body.ranTo (α := α) request (W.settle context v request.isClose step)).1
        :: (wrap W b).replies undefined
          (Body.ranTo (α := α) request (W.settle context v request.isClose step)).2 requests
      = W.relay v ((Body.ranTo (α := β) request step).1
        :: b.replies undefined (Body.ranTo (α := β) request step).2 (within context requests)) := by
  obtain ⟨step, events⟩ := step
  cases step with
  | yield value state =>
    simp only [Wrapper.relay, Wrapper.relayOne, Body.ranTo, Wrapper.settle, Step.answer,
      Step.phase, ih, if_true]
  | done value =>
    simp only [Wrapper.relay, Wrapper.relayOne, Body.ranTo, Wrapper.settle, Step.answer,
      Step.phase, if_true, Body.replies_finished, within, List.map_map, Function.comp_def]
    exact congrArg _ (Wrapper.relay_bare requests).symm
  | fail err =>
    simp only [Wrapper.relay, Wrapper.relayOne, Body.ranTo, Wrapper.settle, Step.answer,
      Step.phase, if_true, Body.replies_finished, within, List.map_map, Function.comp_def]
    exact congrArg _ (Wrapper.relay_bare requests).symm

theorem replies_suspended {context : κ → κ} :
    ∀ (requests : List (κ × Request ρ ε)) (v : ℓ) (state : σ),
      (wrap W b).replies undefined (.suspended ⟨context, v, state⟩) requests
        = W.relay v (b.replies undefined (.suspended state) (within context requests))
  | [], _, _ => rfl
  | (c, request) :: requests, _, state =>
    ranTo_settle (b.resume (context c) state request) (replies_suspended requests)

/-- A wrapper that is entered relays the replies of the inner generator. -/
theorem replies_wrap {c : κ} {argument : α} {entered : Entered κ β ℓ} {events : List ο'}
    (h : W.enter c argument = (.ok entered, events)) (requests : List (κ × Request ρ ε)) :
    (wrap W b).replies undefined (.fresh argument) ((c, .next) :: requests)
      = precede events (W.relay entered.locals
          (b.replies undefined (.fresh entered.argument)
            (within entered.context ((c, .next) :: requests)))) := by
  have hr : W.relay entered.locals (b.replies undefined (.fresh entered.argument)
        (within entered.context ((c, .next) :: requests)))
      = (Body.ranTo (α := α) .next (W.settle entered.context entered.locals
          (Request.next : Request ρ ε).isClose
          (b.start (entered.context c) entered.argument))).1
        :: (wrap W b).replies undefined
          (Body.ranTo (α := α) .next (W.settle entered.context entered.locals
            (Request.next : Request ρ ε).isClose
            (b.start (entered.context c) entered.argument))).2 requests :=
    (ranTo_settle (b.start (entered.context c) entered.argument)
      (replies_suspended requests)).symm
  rw [hr]
  simp only [Body.replies, Body.reply, wrap, h, precede, Body.ranTo, Request.isClose]

/-- A wrapper that is not entered never starts the inner generator. -/
theorem replies_wrap_error {c : κ} {argument : α} {err : ε} {events : List ο'}
    (h : W.enter c argument = (.error err, events)) (requests : List (κ × Request ρ ε)) :
    (wrap W b).replies undefined (.fresh argument) ((c, .next) :: requests)
      = ⟨.next, .fail err, events, true⟩ :: requests.map fun r => Body.bare undefined r.2 := by
  simp only [Body.replies, Body.reply, wrap, h, Body.ranTo, Step.answer, Step.phase,
    Body.replies_finished]

end Replies

end Generator
