import Mathlib.Data.List.Nodup
import Mathlib.Data.List.Pairwise

/-!
# Leases

Resources are leased for a time. A lease is kept until its owner releases it or until its time is up
and it is taken back, and a resource is leased only while none of its leases is kept. So of two
leases of one resource the later one is granted no sooner than the time of the earlier is up, unless
the earlier was released (`Sound.apart`), and a resource can be free again once that time has passed
(`Sound.exists_free`).
-/

namespace Leases

inductive Status
  | kept
  | released
  | expired
  deriving DecidableEq

structure Lease (ι ρ : Type) where
  owner : ι
  resource : ρ
  /-- When it was granted. -/
  since : ℕ
  status : Status

/-- The clock, and the leases in the order they were granted in. -/
structure State (ι ρ : Type) where
  clock : ℕ
  leases : List (Lease ι ρ)

variable {ι ρ : Type}

def start : State ι ρ := ⟨0, []⟩

/-- The lease ends, if it is kept by `i`. -/
def Lease.endFor [DecidableEq ι] (i : ι) (status : Status) (l : Lease ι ρ) : Lease ι ρ :=
  if l.owner = i ∧ l.status = .kept then { l with status := status } else l

namespace State

variable (s : State ι ρ)

def tick (d : ℕ) : State ι ρ := { s with clock := s.clock + d }

/-- No lease of the resource is kept. -/
def Free (r : ρ) : Prop := ∀ l ∈ s.leases, l.status = .kept → l.resource ≠ r

instance [DecidableEq ρ] (r : ρ) : Decidable (s.Free r) := List.decidableBAll _ _

/-- The time of what `i` keeps is up. -/
def Due (ttl : ℕ) (i : ι) : Prop :=
  ∃ l ∈ s.leases, l.owner = i ∧ l.status = .kept ∧ l.since + ttl ≤ s.clock

variable [DecidableEq ι]

instance (ttl : ℕ) (i : ι) : Decidable (s.Due ttl i) := List.decidableBEx _ _

/-- What `i` keeps ends. -/
def endFor (i : ι) (status : Status) : State ι ρ :=
  { s with leases := s.leases.map (Lease.endFor i status) }

theorem endFor_leases (i : ι) (status : Status) :
    (s.endFor i status).leases = s.leases.map (Lease.endFor i status) := rfl

/-- A lease for an owner that has none yet. -/
def grant [DecidableEq ρ] (i : ι) (r : ρ) : Option (State ι ρ) :=
  if s.Free r ∧ i ∉ s.leases.map Lease.owner then
    some { s with leases := s.leases ++ [⟨i, r, s.clock, .kept⟩] }
  else none

def release (i : ι) : State ι ρ := s.endFor i .released

def expire (ttl : ℕ) (i : ι) : Option (State ι ρ) :=
  if s.Due ttl i then some (s.endFor i .expired) else none

end State

variable [DecidableEq ι]

namespace Lease

variable {i : ι} {status : Status} {l : Lease ι ρ}

@[simp] theorem endFor_owner : (l.endFor i status).owner = l.owner := by
  unfold endFor
  split_ifs <;> rfl

@[simp] theorem endFor_resource : (l.endFor i status).resource = l.resource := by
  unfold endFor
  split_ifs <;> rfl

@[simp] theorem endFor_since : (l.endFor i status).since = l.since := by
  unfold endFor
  split_ifs <;> rfl

theorem endFor_status : (l.endFor i status).status = l.status ∨
    l.owner = i ∧ l.status = .kept ∧ (l.endFor i status).status = status := by
  unfold endFor
  split_ifs with h
  · exact .inr ⟨h.1, h.2, rfl⟩
  · exact .inl rfl

theorem endFor_of_ne (h : l.owner ≠ i) : l.endFor i status = l := if_neg fun hi => h hi.1

end Lease

/-- Every owner has one lease, none is from the future, those taken back are past their time, and an
earlier lease of a resource is kept no more, and past its time when the later one was granted unless
it was released. -/
structure Sound (ttl : ℕ) (s : State ι ρ) : Prop where
  owners : (s.leases.map Lease.owner).Nodup
  past : ∀ l ∈ s.leases, l.since ≤ s.clock
  due : ∀ l ∈ s.leases, l.status = .expired → l.since + ttl ≤ s.clock
  apart : s.leases.Pairwise fun l l' => l.resource = l'.resource →
    l.status ≠ .kept ∧ (l.status ≠ .released → l.since + ttl ≤ l'.since)

omit [DecidableEq ι] in
theorem sound_start (ttl : ℕ) : Sound ttl (start : State ι ρ) :=
  ⟨List.nodup_nil, by simp [start], by simp [start], List.Pairwise.nil⟩

section Keeps

variable {ttl : ℕ} {s t : State ι ρ} {i : ι}

omit [DecidableEq ι] in
theorem Sound.tick (h : Sound ttl s) (d : ℕ) : Sound ttl (s.tick d) where
  owners := h.owners
  past l hl := Nat.le_add_right_of_le (h.past l hl)
  due l hl he := Nat.le_add_right_of_le (h.due l hl he)
  apart := h.apart

theorem Sound.grant [DecidableEq ρ] (h : Sound ttl s) {r : ρ} (ht : s.grant i r = some t) :
    Sound ttl t := by
  unfold State.grant at ht
  split_ifs at ht with hg
  obtain ⟨hfree, howner⟩ := hg
  obtain rfl := Option.some.inj ht
  refine ⟨?_, ?_, ?_, ?_⟩
  · rw [List.map_append]
    exact List.nodup_append'.2 ⟨h.owners, List.nodup_singleton _,
      List.disjoint_singleton.2 howner⟩
  · rw [List.forall_mem_append, List.forall_mem_singleton]
    exact ⟨h.past, Nat.le_refl _⟩
  · rw [List.forall_mem_append, List.forall_mem_singleton]
    exact ⟨h.due, fun he => by cases he⟩
  · refine List.pairwise_append.2 ⟨h.apart, List.pairwise_singleton _ _, ?_⟩
    intro l hl l' hl' hr
    rw [List.mem_singleton.1 hl'] at hr ⊢
    have hkept : l.status ≠ .kept := fun hk => hfree l hl hk hr
    refine ⟨hkept, fun hrel => h.due l hl ?_⟩
    -- what is neither kept nor released has been taken back
    rcases hs : l.status with _ | _ | _
    · exact absurd hs hkept
    · exact absurd hs hrel
    · rfl

/-- Leases that end, those that are taken back being past their time. -/
theorem Sound.endFor (h : Sound ttl s) {status : Status}
    (hd : status = .expired → ∀ l ∈ s.leases, l.owner = i → l.status = .kept →
      l.since + ttl ≤ s.clock) :
    Sound ttl (s.endFor i status) where
  owners := by
    have howner : Lease.owner ∘ Lease.endFor i status = (Lease.owner : Lease ι ρ → ι) :=
      funext fun _ => Lease.endFor_owner
    rw [State.endFor_leases, List.map_map, howner]
    exact h.owners
  past := by
    rw [State.endFor_leases, List.forall_mem_map]
    intro l hl
    rw [Lease.endFor_since]
    exact h.past l hl
  due := by
    rw [State.endFor_leases, List.forall_mem_map]
    intro l hl he
    rw [Lease.endFor_since]
    rcases Lease.endFor_status (l := l) with hs | ⟨ho, hkept, hs⟩
    · exact h.due l hl (hs ▸ he)
    · exact hd (hs.symm.trans he) l hl ho hkept
  apart := by
    refine List.pairwise_map.2 (h.apart.imp fun {l l'} hl hr => ?_)
    rw [Lease.endFor_resource, Lease.endFor_resource] at hr
    obtain ⟨hkept, hapart⟩ := hl hr
    rw [Lease.endFor_since, Lease.endFor_since]
    rcases Lease.endFor_status (l := l) with hs | ⟨-, hl, -⟩
    · rw [hs]
      exact ⟨hkept, hapart⟩
    · exact absurd hl hkept

theorem Sound.expire (h : Sound ttl s) (ht : s.expire ttl i = some t) : Sound ttl t := by
  unfold State.expire at ht
  split_ifs at ht with hdue
  obtain rfl := Option.some.inj ht
  obtain ⟨d, hd, rfl, -, htime⟩ := hdue
  refine h.endFor fun _ l hl ho _ => ?_
  rw [List.inj_on_of_nodup_map h.owners hl hd ho]
  exact htime

end Keeps

section Resource

variable {ttl : ℕ} {s : State ι ρ} {l l' : Lease ι ρ}

omit [DecidableEq ι] in
/-- A resource is kept by one owner. -/
theorem Sound.once (h : Sound ttl s) (hl : l ∈ s.leases) (hl' : l' ∈ s.leases)
    (hr : l.resource = l'.resource) (hk : l.status = .kept) (hk' : l'.status = .kept) : l = l' := by
  by_contra hne
  have hsymm : Std.Symm fun a b : Lease ι ρ =>
      a.resource = b.resource → ¬ (a.status = .kept ∧ b.status = .kept) :=
    ⟨fun a b hab hr hk => hab hr.symm hk.symm⟩
  have hp := h.apart.imp fun {a b} hab (hr : a.resource = b.resource)
    (hk : a.status = .kept ∧ b.status = .kept) => (hab hr).1 hk.1
  exact hp.forall hl hl' hne hr ⟨hk, hk'⟩

omit [DecidableEq ι] in
/-- Two leases that were not released were granted a time to live apart. -/
theorem Sound.apart_of_ne (h : Sound ttl s) (hl : l ∈ s.leases) (hl' : l' ∈ s.leases)
    (hne : l ≠ l') (hr : l.resource = l'.resource) (hk : l.status ≠ .released)
    (hk' : l'.status ≠ .released) : l.since + ttl ≤ l'.since ∨ l'.since + ttl ≤ l.since := by
  have hsymm : Std.Symm fun a b : Lease ι ρ => a.resource = b.resource → a.status ≠ .released →
      b.status ≠ .released → a.since + ttl ≤ b.since ∨ b.since + ttl ≤ a.since :=
    ⟨fun a b hab hr ha hb => (hab hr.symm hb ha).symm⟩
  have hp := h.apart.imp fun {a b} hab (hr : a.resource = b.resource) (ha : a.status ≠ .released)
    (_ : b.status ≠ .released) => Or.inl (b := b.since + ttl ≤ a.since) ((hab hr).2 ha)
  exact hp.forall hl hl' hne hr hk hk'

/-- When a time to live has passed, a resource can be leased again, whatever its owner does. -/
theorem Sound.exists_free (h : Sound ttl s) (r : ρ) :
    s.Free r ∨ ∃ i t, (s.tick ttl).expire ttl i = some t ∧ t.Free r ∧
      t.leases.map Lease.owner = s.leases.map Lease.owner := by
  by_cases hfree : s.Free r
  · exact .inl hfree
  obtain ⟨l, hl, hkept, rfl⟩ : ∃ l ∈ s.leases, l.status = .kept ∧ l.resource = r := by
    simpa [State.Free] using hfree
  have hdue : (s.tick ttl).Due ttl l.owner :=
    ⟨l, hl, rfl, hkept, Nat.add_le_add_right (h.past l hl) ttl⟩
  refine .inr ⟨l.owner, _, if_pos hdue, ?_, ?_⟩
  · unfold State.Free
    rw [State.endFor_leases, List.forall_mem_map]
    intro x hx hk hr
    rw [Lease.endFor_resource] at hr
    rcases Lease.endFor_status (l := x) with hs | ⟨-, -, hs⟩
    · -- the only lease of the resource that is kept is the one that ends
      obtain rfl := h.once hx hl hr (hs ▸ hk) hkept
      rw [Lease.endFor, if_pos ⟨rfl, hkept⟩] at hk
      cases hk
    · rw [hs] at hk
      cases hk
  · rw [State.endFor_leases, List.map_map]
    exact List.map_congr_left fun _ _ => Lease.endFor_owner

end Resource

end Leases
