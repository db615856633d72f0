import DiiaApp.StreamService
import Mathlib.Tactic.SplitIfs
import Mathlib.Data.List.Infix

/-!
# What the parts of a stream step leave alone

Sending, publishing, starting and settling an action change the calls' messages and actions in
flight only: the calls opened, their ids and devices, `streamConnections` and the state of the
action stay (`Keeps`). What was sent stays sent.
-/

namespace DiiaApp

open Js

variable {σ N : Type}

/-- `t` has the calls and the connections of `s`, with no message taken back. -/
structure Keeps (s t : Server σ N) : Prop where
  opened : t.opened = s.opened
  connections : t.streamConnections = s.streamConnections
  streamId : ∀ c, (t.calls c).streamId = (s.calls c).streamId
  mobileUid : ∀ c, (t.calls c).mobileUid = (s.calls c).mobileUid
  sent : ∀ c, (s.calls c).sent <+: (t.calls c).sent

namespace Keeps

theorem refl (s : Server σ N) : Keeps s s :=
  ⟨rfl, rfl, fun _ => rfl, fun _ => rfl, fun _ => List.prefix_rfl⟩

theorem trans {s t u : Server σ N} (h : Keeps s t) (h' : Keeps t u) : Keeps s u :=
  ⟨h'.opened.trans h.opened, h'.connections.trans h.connections,
    fun c => (h'.streamId c).trans (h.streamId c), fun c => (h'.mobileUid c).trans (h.mobileUid c),
    fun c => (h.sent c).trans (h'.sent c)⟩

theorem ended {s t : Server σ N} (h : Keeps s t) {c : CallRef} (he : (s.calls c).Ended) :
    (t.calls c).Ended :=
  (h.sent c).subset he

end Keeps

namespace Server

theorem calls_update (s : Server σ N) (c c' : CallRef) (f : Call N → Call N) :
    (s.update c f).calls c' = if c' = c then f (s.calls c') else s.calls c' := by
  simp only [update, Function.update_apply]
  split_ifs with h
  · rw [h]
  · rfl

theorem calls_send (s : Server σ N) (c c' : CallRef) (x : Sent N) :
    (s.send c x).calls c'
      = if c' = c then { s.calls c' with sent := (s.calls c').sent ++ [x] } else s.calls c' :=
  calls_update s c c' _

@[simp] theorem send_action (s : Server σ N) (c : CallRef) (x : Sent N) :
    (s.send c x).action = s.action := rfl

/-- An update that leaves a call its ids and its messages keeps the service. -/
theorem update_keeps (s : Server σ N) (c : CallRef) {f : Call N → Call N}
    (h1 : ∀ x, (f x).streamId = x.streamId) (h2 : ∀ x, (f x).mobileUid = x.mobileUid)
    (h3 : ∀ x, x.sent <+: (f x).sent) : Keeps s (s.update c f) := by
  refine ⟨rfl, rfl, fun c' => ?_, fun c' => ?_, fun c' => ?_⟩ <;> rw [calls_update] <;> split_ifs
  · exact h1 _
  · rfl
  · exact h2 _
  · rfl
  · exact h3 _
  · exact List.prefix_rfl

theorem send_keeps (s : Server σ N) (c : CallRef) (x : Sent N) : Keeps s (s.send c x) :=
  update_keeps s c (fun _ => rfl) (fun _ => rfl) fun _ => List.prefix_append _ _

theorem send_ended (s : Server σ N) (c : CallRef) : ((s.send c .end).calls c).Ended := by
  rw [calls_send, if_pos rfl]
  exact List.mem_append_right _ (List.mem_singleton_self _)

theorem sendAll_keeps : ∀ (ws : List (CallRef × Value N)) (s : Server σ N), Keeps s (s.sendAll ws)
  | [], s => Keeps.refl s
  | w :: ws, s => (send_keeps s w.1 (.write w.2)).trans (sendAll_keeps ws _)

@[simp] theorem sendAll_action :
    ∀ (ws : List (CallRef × Value N)) (s : Server σ N), (s.sendAll ws).action = s.action
  | [], _ => rfl
  | w :: ws, s => sendAll_action ws (s.send w.1 (.write w.2))

theorem endAll_keeps : ∀ (cs : List CallRef) (s : Server σ N),
    Keeps s (cs.foldl (fun s c => s.send c .end) s)
  | [], s => Keeps.refl s
  | c :: cs, s => (send_keeps s c .end).trans (endAll_keeps cs _)

theorem endAll_action : ∀ (cs : List CallRef) (s : Server σ N),
    (cs.foldl (fun s c => s.send c .end) s).action = s.action
  | [], _ => rfl
  | c :: cs, s => endAll_action cs (s.send c .end)

end Server

theorem publish_keeps (a : StreamAction σ N) (s : Server σ N) (x : Publication N) :
    Keeps s (publish a s x) :=
  Server.sendAll_keeps _ _

@[simp] theorem publish_action (a : StreamAction σ N) (s : Server σ N) (x : Publication N) :
    (publish a s x).action = s.action :=
  Server.sendAll_action _ _

theorem publishes_keeps (a : StreamAction σ N) :
    ∀ (xs : List (Publication N)) (s : Server σ N), Keeps s (xs.foldl (publish a) s)
  | [], s => Keeps.refl s
  | x :: xs, s => (publish_keeps a s x).trans (publishes_keeps a xs _)

@[simp] theorem publishes_action (a : StreamAction σ N) :
    ∀ (xs : List (Publication N)) (s : Server σ N), (xs.foldl (publish a) s).action = s.action
  | [], _ => rfl
  | x :: xs, s => (publishes_action a xs _).trans (publish_action a s x)

theorem startAction_keeps (s : Server σ N) (c : CallRef) (x : InFlight N) :
    Keeps s (startAction s c x) :=
  Server.update_keeps s c (fun _ => rfl) (fun _ => rfl) fun _ => List.prefix_rfl

theorem connectionOpened_keeps (a : StreamAction σ N) (o : Opening N) (c : CallRef)
    (s : Server σ N) : Keeps s (connectionOpened a o c s) := by
  unfold connectionOpened
  split_ifs
  · exact (publishes_keeps a _ s).trans (Server.send_keeps _ _ _)
  · exact publishes_keeps a _ s
  · exact Keeps.refl s

@[simp] theorem connectionOpened_action (a : StreamAction σ N) (o : Opening N) (c : CallRef)
    (s : Server σ N) : (connectionOpened a o c s).action = s.action := by
  unfold connectionOpened
  split_ifs <;> simp

variable [JsNumber N]

theorem attachListeners_keeps (o : Opening N) (c : CallRef) (s : Server σ N) :
    Keeps s (attachListeners o c s) := by
  have h : Keeps s (s.update c fun call => { call with listening := true }) :=
    Server.update_keeps s c (fun _ => rfl) (fun _ => rfl) fun _ => List.prefix_rfl
  unfold attachListeners
  split_ifs
  · exact h.trans (startAction_keeps _ _ _)
  · exact h

@[simp] theorem attachListeners_action (o : Opening N) (c : CallRef) (s : Server σ N) :
    (attachListeners o c s).action = s.action := by
  unfold attachListeners
  split_ifs <;> rfl

theorem attachListeners_listening (o : Opening N) (c : CallRef) (s : Server σ N) :
    ((attachListeners o c s).calls c).listening := by
  unfold attachListeners startAction
  split_ifs <;> simp [Server.calls_update]

theorem settle_keeps (p : Packages N) (s : Server σ N) (c : CallRef) (i : ℕ) (x : InFlight N) :
    Keeps s (settle p s c i x) :=
  Server.update_keeps s c (fun _ => rfl) (fun _ => rfl) fun _ => List.prefix_append _ _

/-- What each step changes, and where it can be taken. -/
inductive StreamMoves (p : Packages N) (a : StreamAction σ N) (s : Server σ N) :
    StreamEvent N → Server σ N → Prop
  | opens {o : Opening N} (hf : ∀ c < s.opened, (s.calls c).streamId ≠ o.streamId) :
      StreamMoves p a s (.open o) (openStream p (soleAction a) s o).2
  | data {c : CallRef} {x : InFlight N} (hc : c < s.opened) (hl : (s.calls c).listening) :
      StreamMoves p a s (.data c x) (startAction s c x)
  | settled {c : CallRef} {i : ℕ} {x : InFlight N} (hc : c < s.opened)
      (hx : (s.calls c).inFlight[i]? = some x) :
      StreamMoves p a s (.settled c i) (settle p s c i x)
  | halfClose {c : CallRef} (hc : c < s.opened) (hl : (s.calls c).listening) :
      StreamMoves p a s (.halfClose c) (s.send c .end)
  | close {c : CallRef} (hc : c < s.opened) (hl : (s.calls c).listening) :
      StreamMoves p a s (.close c) (closeStream a s c)
  | publish (x : Publication N) : StreamMoves p a s (.publish x) (publish a s x)
  | destroy : StreamMoves p a s .destroy (onDestroy s)

theorem streamStep_moves {p : Packages N} {a : StreamAction σ N} {s t : Server σ N}
    {e : StreamEvent N} (h : streamStep p a s e = some t) : StreamMoves p a s e t := by
  rcases e with o | ⟨c, x⟩ | ⟨c, i⟩ | c | c | x | _ <;> simp only [streamStep] at h
  · split_ifs at h with hf
    exact Option.some.inj h ▸ .opens hf
  · split_ifs at h with hc
    exact Option.some.inj h ▸ .data hc.1 hc.2
  · split_ifs at h with hc
    obtain ⟨x, hx, rfl⟩ := Option.map_eq_some_iff.1 h
    exact .settled hc hx
  · split_ifs at h with hc
    exact Option.some.inj h ▸ .halfClose hc.1 hc.2
  · split_ifs at h with hc
    exact Option.some.inj h ▸ .close hc.1 hc.2
  · exact Option.some.inj h ▸ .publish x
  · exact Option.some.inj h ▸ .destroy

end DiiaApp
