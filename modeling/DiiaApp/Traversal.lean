import Mathlib.Data.List.Nodup

/-!
# Depth-first traversal of what references lead to

A reference leads to a node or nowhere, and a node has references of its own. A traversal follows
references one after the other and enters each node once, with the nodes entered so far at hand.
Over finitely many nodes it ends, having entered those that the references it began with lead to
(`visitAll_reached`).
-/

namespace Traversal

variable {α β : Type*} (resolve : β → Option α) (next : α → List β)

/-- References followed one after the other, nothing once one does not end. -/
def followAll {σ : Type*} (follow : β → σ → Option σ) : List β → σ → Option σ
  | [], st => some st
  | b :: bs, st => (follow b st).bind (followAll follow bs)

theorem followAll_map {σ τ : Type*} {f : σ → τ} {follow : β → σ → Option σ}
    {follow' : β → τ → Option τ} (h : ∀ b st, follow' b (f st) = (follow b st).map f) :
    ∀ bs st, followAll follow' bs (f st) = (followAll follow bs st).map f
  | [], _ => rfl
  | b :: bs, st => by
    rw [followAll, followAll, h]
    rcases follow b st with _ | st'
    · rfl
    · exact followAll_map h bs st'

/-- The nodes that references lead to, directly or through others. -/
inductive Reached (starts : List β) : α → Prop
  | start {b : β} {a : α} (hb : b ∈ starts) (h : resolve b = some a) : Reached starts a
  | step {a a' : α} {b : β} (ha : Reached starts a) (hb : b ∈ next a) (h : resolve b = some a') :
      Reached starts a'

variable {resolve next}

theorem Reached.trans {starts starts' : List β} (h : ∀ b ∈ starts, ∀ a, resolve b = some a →
    Reached resolve next starts' a) {a : α} (ha : Reached resolve next starts a) :
    Reached resolve next starts' a := by
  induction ha with
  | start hb hr => exact h _ hb _ hr
  | step _ hb hr ih => exact .step ih hb hr

/-- A set that has what the starts lead to and is closed under references has all that is
reached. -/
theorem Reached.closed {starts : List β} {S : α → Prop}
    (hstart : ∀ b ∈ starts, ∀ a, resolve b = some a → S a)
    (hstep : ∀ a, S a → ∀ b ∈ next a, ∀ a', resolve b = some a' → S a') {a : α}
    (ha : Reached resolve next starts a) : S a := by
  induction ha with
  | start hb hr => exact hstart _ hb _ hr
  | step _ hb hr ih => exact hstep _ ih _ hb _ hr

/-- Two ways to take references lead to the same nodes just where neither leads out of the other. -/
theorem reached_iff {next' : α → List β} {starts : List β} :
    (∀ a, Reached resolve next starts a ↔ Reached resolve next' starts a) ↔
      (∀ a, Reached resolve next' starts a → ∀ b ∈ next a, ∀ a', resolve b = some a' →
        Reached resolve next' starts a') ∧
      ∀ a, Reached resolve next starts a → ∀ b ∈ next' a, ∀ a', resolve b = some a' →
        Reached resolve next starts a' := by
  constructor
  · intro h
    exact ⟨fun a ha b hb a' hr => (h a').1 (.step ((h a).2 ha) hb hr),
      fun a ha b hb a' hr => (h a').2 (.step ((h a).1 ha) hb hr)⟩
  · rintro ⟨h, h'⟩ a
    exact ⟨Reached.closed (fun b hb a' hr => .start hb hr) h,
      Reached.closed (fun b hb a' hr => .start hb hr) h'⟩

/-- What following `bs` from the nodes `seen` enters: new nodes that `bs` lead to, so that with
`seen` nothing is missing. -/
structure Visited (resolve : β → Option α) (next : α → List β) (bs : List β) (seen out : List α) :
    Prop where
  nodup : (seen ++ out).Nodup
  starts : ∀ b ∈ bs, ∀ a, resolve b = some a → a ∈ seen ++ out
  closed : ∀ a ∈ out, ∀ b ∈ next a, ∀ a', resolve b = some a' → a' ∈ seen ++ out
  reached : ∀ a ∈ out, Reached resolve next bs a

theorem Visited.nil {seen : List α} (h : seen.Nodup) : Visited resolve next [] seen [] :=
  ⟨by rwa [List.append_nil], by simp, by simp, by simp⟩

theorem Visited.append {b : β} {bs : List β} {seen out out' : List α}
    (h : Visited resolve next [b] seen out) (h' : Visited resolve next bs (seen ++ out) out') :
    Visited resolve next (b :: bs) seen (out ++ out') where
  nodup := by
    rw [← List.append_assoc]
    exact h'.nodup
  starts := by
    rw [← List.append_assoc, List.forall_mem_cons]
    exact ⟨fun a ha => List.mem_append_left _ (h.starts b (List.mem_singleton_self b) a ha),
      h'.starts⟩
  closed := by
    rw [← List.append_assoc, List.forall_mem_append]
    exact ⟨fun a ha c hc a' hr => List.mem_append_left _ (h.closed a ha c hc a' hr), h'.closed⟩
  reached := by
    rw [List.forall_mem_append]
    constructor
    · intro a ha
      refine (h.reached a ha).trans fun c hc a' hr => .start ?_ hr
      rw [List.mem_singleton.1 hc]
      exact List.mem_cons_self ..
    · intro a ha
      exact (h'.reached a ha).trans fun c hc a' hr => .start (List.mem_cons_of_mem _ hc) hr

/-- A node entered by a reference, with all that its own lead to. -/
theorem Visited.enter {b : β} {a : α} {seen out : List α} (hr : resolve b = some a)
    (h : Visited resolve next (next a) (seen ++ [a]) out) :
    Visited resolve next [b] seen (a :: out) := by
  have hassoc : seen ++ a :: out = seen ++ [a] ++ out := by simp
  have hstart : ∀ {a'}, Reached resolve next (next a) a' → Reached resolve next [b] a' :=
    fun ha => ha.trans fun c hc a' hr' => .step (.start (List.mem_singleton_self b) hr) hc hr'
  refine ⟨hassoc ▸ h.nodup, ?_, ?_, ?_⟩
  · intro c hc a' hr'
    obtain rfl := List.mem_singleton.1 hc
    obtain rfl := Option.some.inj (hr.symm.trans hr')
    simp
  · rw [hassoc, List.forall_mem_cons]
    exact ⟨h.starts, h.closed⟩
  · rw [List.forall_mem_cons]
    exact ⟨.start (List.mem_singleton_self b) hr, fun a' ha => hstart (h.reached a' ha)⟩

section Finite

variable [DecidableEq α] (resolve next)

/-- A reference followed, at most `fuel` nodes deep. -/
def visit : ℕ → β → List α → Option (List α)
  | 0, _, _ => none
  | fuel + 1, b, seen =>
    match resolve b with
    | none => some seen
    | some a => if a ∈ seen then some seen else followAll (visit fuel) (next a) (seen ++ [a])

def visitAll (fuel : ℕ) : List β → List α → Option (List α) := followAll (visit resolve next fuel)

variable {resolve next} {nodes : List α}

/-- The number of nodes not entered yet. -/
def left (nodes seen : List α) : ℕ := (nodes.filter (· ∉ seen)).length

theorem left_mono {seen seen' : List α} (h : seen ⊆ seen') : left nodes seen' ≤ left nodes seen := by
  refine (List.monotone_filter_right _ fun a ha => ?_).length_le
  simp only [decide_eq_true_eq] at ha ⊢
  exact fun hs => ha (h hs)

theorem left_lt {seen : List α} {a : α} (ha : a ∈ nodes) (hs : a ∉ seen) :
    left nodes (seen ++ [a]) < left nodes seen := by
  have hsub : nodes.filter (· ∉ seen ++ [a])
      = (nodes.filter (· ∉ seen)).filter (· ∉ seen ++ [a]) := by
    rw [List.filter_filter]
    refine List.filter_congr fun x _ => ?_
    simp only [List.mem_append, not_or, Bool.decide_and]
    rcases decide (x ∉ seen) <;> simp
  rw [left, hsub, left, List.length_filter_lt_length_iff_exists]
  exact ⟨a, List.mem_filter.2 ⟨ha, by simpa using hs⟩, by simp⟩

theorem followAll_visited {fuel : ℕ} {follow : β → List α → Option (List α)}
    (hf : ∀ b seen, left nodes seen < fuel → seen.Nodup →
      ∃ out, follow b seen = some (seen ++ out) ∧ Visited resolve next [b] seen out) :
    ∀ (bs : List β) (seen : List α), left nodes seen < fuel → seen.Nodup →
      ∃ out, followAll follow bs seen = some (seen ++ out) ∧ Visited resolve next bs seen out
  | [], seen, _, hn => ⟨[], by rw [followAll, List.append_nil], .nil hn⟩
  | b :: bs, seen, h, hn => by
    obtain ⟨out, hout, hv⟩ := hf b seen h hn
    obtain ⟨out', hout', hv'⟩ := followAll_visited hf bs (seen ++ out)
      (Nat.lt_of_le_of_lt (left_mono (List.subset_append_left seen out)) h) hv.nodup
    refine ⟨out ++ out', ?_, hv.append hv'⟩
    rw [followAll, hout, Option.bind_some, hout', List.append_assoc]

/-- With more levels than there are nodes left, a reference is followed to the end. -/
theorem visit_visited (hnodes : ∀ b a, resolve b = some a → a ∈ nodes) :
    ∀ (fuel : ℕ) (b : β) (seen : List α), left nodes seen < fuel → seen.Nodup →
      ∃ out, visit resolve next fuel b seen = some (seen ++ out) ∧
        Visited resolve next [b] seen out
  | 0, _, _, h, _ => absurd h (Nat.not_lt_zero _)
  | fuel + 1, b, seen, h, hn => by
    rw [visit]
    rcases hr : resolve b with _ | a
    · refine ⟨[], by rw [List.append_nil], ?_, ?_, by simp, by simp⟩
      · rwa [List.append_nil]
      · simp [hr]
    · dsimp only
      split_ifs with ha
      · refine ⟨[], by rw [List.append_nil], ?_, ?_, by simp, by simp⟩
        · rwa [List.append_nil]
        · simpa [hr] using ha
      · have hlt := left_lt (hnodes b a hr) ha
        have hn' : (seen ++ [a]).Nodup := hn.append (List.nodup_singleton a) (by simpa using ha)
        obtain ⟨out, hout, hv⟩ := followAll_visited (visit_visited hnodes fuel) (next a)
          (seen ++ [a]) (by omega) hn'
        refine ⟨a :: out, ?_, hv.enter hr⟩
        rw [hout]
        simp

/-- A traversal from nothing ends, and has entered once each node that the references lead to. -/
theorem visitAll_reached (hnodes : ∀ b a, resolve b = some a → a ∈ nodes) {fuel : ℕ}
    (hf : nodes.length < fuel) (bs : List β) :
    ∃ out, visitAll resolve next fuel bs [] = some out ∧ out.Nodup ∧
      ∀ a, a ∈ out ↔ Reached resolve next bs a := by
  have hleft : left nodes [] < fuel := Nat.lt_of_le_of_lt (List.length_filter_le ..) hf
  obtain ⟨out, hout, hv⟩ := followAll_visited (visit_visited hnodes fuel) bs [] hleft List.nodup_nil
  refine ⟨out, hout, hv.nodup, fun a => ⟨hv.reached a, fun ha => ?_⟩⟩
  exact ha.closed hv.starts hv.closed

end Finite

end Traversal
