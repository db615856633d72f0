import DiiaApp.ApplicationHooks
import Mathlib.Data.List.GetD

/-!
# Hooks in order

The lists of hooks by their order hold each hook of the instances once (`flatten_hooksInOrder`), and
those of a smaller order come first (`mem_of_smaller`).
-/

namespace DiiaApp

open Js

theorem mem_flatten_iff {α : Type} {x : α} {l : List (List α)} :
    x ∈ l.flatten ↔ ∃ n, x ∈ l.getD n [] := by
  rw [List.mem_flatten]
  constructor
  · rintro ⟨stage, hs, hx⟩
    obtain ⟨n, hn, rfl⟩ := List.getElem_of_mem hs
    exact ⟨n, by rwa [List.getD_eq_getElem _ _ hn]⟩
  · rintro ⟨n, hx⟩
    by_cases hn : n < l.length
    · rw [List.getD_eq_getElem _ _ hn] at hx
      exact ⟨l[n], List.getElem_mem hn, hx⟩
    · rw [List.getD_eq_default _ _ (Nat.le_of_not_lt hn)] at hx
      cases hx

theorem getD_pushAt {α : Type} (x : α) (n : ℕ) : ∀ (order : ℕ) (stages : List (List α)),
    (pushAt x order stages).getD n [] =
      stages.getD n [] ++ if order = n then [x] else [] := by
  intro order stages
  induction order, stages using pushAt.induct generalizing n with
  | case1 => cases n <;> simp [pushAt]
  | case2 stage stages => cases n <;> simp [pushAt]
  | case3 order ih =>
    cases n with
    | zero => simp [pushAt]
    | succ n => simpa [pushAt] using ih n
  | case4 order stage stages ih =>
    cases n with
    | zero => simp [pushAt]
    | succ n => simpa [pushAt] using ih n

theorem flatten_pushAt {α : Type} (x : α) (order : ℕ) (stages : List (List α)) :
    (pushAt x order stages).flatten.Perm (stages.flatten ++ [x]) := by
  induction order, stages using pushAt.induct with
  | case1 => simp [pushAt]
  | case2 stage stages =>
    rw [pushAt, List.flatten_cons, List.flatten_cons, List.append_assoc, List.append_assoc]
    exact List.Perm.append_left _ List.perm_append_comm
  | case3 order ih => simpa [pushAt] using ih
  | case4 order stage stages ih =>
    rw [pushAt, List.flatten_cons, List.flatten_cons, List.append_assoc]
    exact ih.append_left _

variable {hook : Hook} {has : RegisteredInstance → Bool} {order : RegisteredInstance → ℕ}

theorem mem_hooksOf {c : HookCall} {instances : List RegisteredInstance} :
    c ∈ hooksOf hook has instances ↔ ∃ i ∈ instances, has i = true ∧ ⟨hook, i.name⟩ = c := by
  simp only [hooksOf, List.mem_map, List.mem_filter, and_assoc]

theorem hooksOf_cons (i : RegisteredInstance) (instances : List RegisteredInstance) :
    hooksOf hook has (i :: instances) =
      (if has i then [⟨hook, i.name⟩] else []) ++ hooksOf hook has instances := by
  rw [hooksOf, List.filter_cons]
  split_ifs <;> rfl

theorem nodup_hooksOf (r : Registrations) : (hooksOf hook has r.instances).Nodup := by
  have hinj : ∀ {l : List RegisteredInstance}, (l.map RegisteredInstance.name).Nodup →
      (l.map fun i => (⟨hook, i.name⟩ : HookCall)).Nodup := fun {l} h => by
    rw [List.nodup_map_iff_inj_on (List.Nodup.of_map _ h)]
    intro i hi j hj he
    exact List.inj_on_of_nodup_map h hi hj (HookCall.mk.inj he).2
  exact hinj (r.nodup.sublist (List.filter_sublist.map _))

theorem hook_of_mem_hooksOf {c : HookCall} {instances : List RegisteredInstance}
    (h : c ∈ hooksOf hook has instances) : c.hook = hook := by
  obtain ⟨i, -, -, rfl⟩ := mem_hooksOf.1 h
  rfl

/-- Hooks of two kinds are different calls. -/
theorem nodup_append_hooksOf {hook' : Hook} {has' : RegisteredInstance → Bool} (r : Registrations)
    (hne : hook ≠ hook') :
    (hooksOf hook has r.instances ++ hooksOf hook' has' r.instances).Nodup := by
  rw [List.nodup_append]
  refine ⟨nodup_hooksOf r, nodup_hooksOf r, fun c hc d hd he => hne ?_⟩
  rw [← hook_of_mem_hooksOf hc, ← hook_of_mem_hooksOf hd, he]

theorem getD_hooksInOrder (n : ℕ) (instances : List RegisteredInstance) :
    ∀ stages : List (List HookCall), (hooksInOrder hook has order stages instances).getD n [] =
      stages.getD n [] ++ hooksOf hook (fun i => has i && order i = n) instances := by
  induction instances with
  | nil => simp [hooksInOrder, hooksOf]
  | cons i instances ih =>
    intro stages
    rw [hooksInOrder, List.foldl_cons, ← hooksInOrder, ih, hooksOf_cons]
    by_cases hi : has i = true
    · rw [if_pos hi, getD_pushAt, List.append_assoc, hi, Bool.true_and]
      simp
    · simp [hi]

theorem flatten_hooksInOrder (instances : List RegisteredInstance) :
    ∀ stages : List (List HookCall), (hooksInOrder hook has order stages instances).flatten.Perm
      (stages.flatten ++ hooksOf hook has instances) := by
  induction instances with
  | nil => simp [hooksInOrder, hooksOf]
  | cons i instances ih =>
    intro stages
    rw [hooksInOrder, List.foldl_cons, ← hooksInOrder, hooksOf_cons]
    refine (ih _).trans ?_
    by_cases hi : has i = true
    · rw [if_pos hi, if_pos hi, ← List.append_assoc]
      exact (flatten_pushAt ..).append_right _
    · rw [if_neg hi, if_neg hi, List.nil_append]

theorem mem_flatten_hooksInOrder {c : HookCall} {instances : List RegisteredInstance} :
    c ∈ (hooksInOrder hook has order [] instances).flatten ↔ c ∈ hooksOf hook has instances :=
  (flatten_hooksInOrder instances []).mem_iff

/-- The stages before the one of a hook hold all hooks of a smaller order. -/
theorem mem_of_smaller {r : Registrations} {stages pre post : List (List HookCall)}
    {stage : List HookCall} (hs : ∀ n, stages.getD n [] = [])
    (h : hooksInOrder hook has order stages r.instances = pre ++ stage :: post)
    {i j : RegisteredInstance} (hj : j ∈ r.instances) (hjs : ⟨hook, j.name⟩ ∈ stage)
    (hi : i ∈ r.instances) (hhas : has i = true) (hlt : order i < order j) :
    ⟨hook, i.name⟩ ∈ pre.flatten := by
  have hget : ∀ n, (pre ++ stage :: post).getD n [] =
      hooksOf hook (fun i => has i && order i = n) r.instances := fun n => by
    rw [← h, getD_hooksInOrder, hs, List.nil_append]
  have hjn : order j = pre.length := by
    have hst := hget pre.length
    rw [List.getD_append_right _ _ _ _ le_rfl, Nat.sub_self, List.getD_cons_zero] at hst
    rw [hst, mem_hooksOf] at hjs
    obtain ⟨k, hk, ho, he⟩ := hjs
    obtain rfl : j = k := List.inj_on_of_nodup_map r.nodup hj hk (HookCall.mk.inj he).2.symm
    simpa using (Bool.and_eq_true_iff.1 ho).2
  have hin := hget (order i)
  rw [List.getD_append _ _ _ _ (hjn ▸ hlt)] at hin
  refine mem_flatten_iff.2 ⟨order i, hin ▸ mem_hooksOf.2 ⟨i, hi, by simp [hhas], rfl⟩⟩

def instanceOf (name constructorName : JsString) : RegisteredInstance where
  name := name
  constructorName := constructorName
  hasOnRegistrationsFinishedHook := true
  hasOnInitHook := true
  hasOnBeforeApplicationShutdownHook := false
  hasOnDestroyHook := true

/-- A database and the gRPC service. -/
def twoInstances : Registrations where
  instances := [instanceOf (js "db") (js "Db"), instanceOf (js "grpcService") (js "GrpcService")]
  nodup := by decide

end DiiaApp
