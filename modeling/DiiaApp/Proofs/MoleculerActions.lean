import DiiaApp.MoleculerActions
import DiiaApp.Proofs.ActionVersions
import DiiaApp.Proofs.TypeOutline

/-!
# The same actions over both transports

Over Moleculer a command leads to the last action of its name and version (`get_createActions`).
Over gRPC an action without a version counts as one of `V1`, so of the two a call for `V1` may come
to the one or the other. Elsewhere both transports serve the same action (`same_action`).
-/

namespace DiiaApp

open Js

variable {ι N : Type}

namespace MoleculerActions

variable {a : MoleculerActions ι N} {config : MoleculerConfig}
  {command : JsString → Option ActionVersion → JsString} {action : ι}

/-- What is added for an action where that succeeds. -/
def schemaOf (a : MoleculerActions ι N) (config : MoleculerConfig) (action : ι) :
    ActionSchema ι N where
  handler := action
  described :=
    if config.isProd then none else some (a.actionParams action, a.actionResponse action)

theorem addAction_eq_ok {schema : ActionSchema ι N} : a.addAction config action = .ok schema ↔
    (a.hasGetLockResource action → config.redlock) ∧ a.schemaOf config action = schema := by
  unfold addAction schemaOf throwNative
  cases a.hasGetLockResource action <;> cases config.redlock <;> cases config.isProd <;> simp

/-- No action with a lock is served without a `redlock`, and what is served under a command is the
last action that has it. -/
theorem createActions_eq_ok {serviceActions : Js.Map JsString (ActionSchema ι N)} :
    a.createActions config command = .ok serviceActions ↔
      (∀ action ∈ a.actionList, a.hasGetLockResource action → config.redlock) ∧
        a.actionList.foldl (fun m action =>
          m.set (command (a.name action) (a.actionVersion action)) (a.schemaOf config action))
          .empty = serviceActions := by
  unfold createActions
  generalize a.actionList = actions
  generalize (Map.empty : Js.Map JsString (ActionSchema ι N)) = m
  induction actions generalizing m with
  | nil => simp [pure, Except.pure]
  | cons action actions ih =>
    rw [List.foldlM_cons, bind_eq_ok, List.forall_mem_cons, List.foldl_cons]
    simp only [createAction, map_eq_ok, addAction_eq_ok]
    constructor
    · rintro ⟨m', ⟨_, ⟨hlock, rfl⟩, rfl⟩, h⟩
      exact ⟨⟨hlock, ((ih _).1 h).1⟩, ((ih _).1 h).2⟩
    · rintro ⟨⟨hlock, hlocks⟩, h⟩
      exact ⟨_, ⟨_, ⟨hlock, rfl⟩, rfl⟩, (ih _).2 ⟨hlocks, h⟩⟩

/-- The action of a name and a version of its own, or of none, the last of the list. -/
def lastOf (a : MoleculerActions ι N) (name : JsString) (version : Option ActionVersion) :
    Option ι :=
  (a.actionList.filter fun action => a.name action = name ∧ a.actionVersion action = version).getLast?

/-- The actions of the list have no command of another name or version. -/
def TellsApart (a : MoleculerActions ι N) (command : JsString → Option ActionVersion → JsString)
    (name : JsString) : Prop :=
  ∀ action ∈ a.actionList, ∀ version,
    command (a.name action) (a.actionVersion action) = command name version →
      a.name action = name ∧ a.actionVersion action = version

theorem get_createActions {serviceActions : Js.Map JsString (ActionSchema ι N)}
    (h : a.createActions config command = .ok serviceActions) {name : JsString}
    (hc : a.TellsApart command name) (version : Option ActionVersion) :
    serviceActions.get (command name version) =
      (a.lastOf name version).map (a.schemaOf config) := by
  obtain ⟨-, rfl⟩ := createActions_eq_ok.1 h
  rw [Map.get_foldl_put (fun action => command (a.name action) (a.actionVersion action)),
    Map.get_empty, Option.or_none, lastOf]
  congr 2
  refine List.filter_congr fun action hm => ?_
  rw [decide_eq_decide]
  constructor
  · exact hc action hm version
  · rintro ⟨rfl, rfl⟩
    rfl

end MoleculerActions

/-- What is last of some is last of fewer, if it is one of them. -/
theorem getLast?_filter {α : Type} {p q : α → Bool} {l : List α} {x : α}
    (h : (l.filter p).getLast? = some x) (hx : q x = true) (hq : ∀ y, q y = true → p y = true) :
    (l.filter q).getLast? = some x := by
  have hsub : l.filter q = (l.filter p).filter q := by
    rw [List.filter_filter]
    refine List.filter_congr fun y _ => ?_
    cases hy : q y with
    | false => rfl
    | true => simp [hq y hy]
  obtain ⟨init, hinit⟩ := List.getLast?_eq_some_iff.1 h
  rw [hsub, hinit, List.filter_append]
  simp [hx]

section Serving

variable {a : MoleculerActions ι N} {config : MoleculerConfig}
  {command : JsString → Option ActionVersion → JsString} {name : JsString} {v : ActionVersion}
  {i : ι}

/-- The actions under their names, as `GrpcService` goes through them. -/
def MoleculerActions.named (a : MoleculerActions ι N) : List (JsString × ι) :=
  a.actionList.map fun action => (a.name action, action)

theorem actionFor_named : actionFor a.actionVersion a.named name v =
    (a.actionList.filter fun action =>
      a.name action = name ∧ effectiveVersion a.actionVersion action = v).getLast? := by
  have hnamed : (a.named.filter fun action => action.1 = name).map Prod.snd =
      a.actionList.filter fun action => a.name action = name := by
    rw [MoleculerActions.named, List.filter_map, List.map_map]
    exact List.map_id _
  rw [actionFor, hnamed, List.filter_filter]
  congr 2
  funext action
  simp [and_comm]

/-- What gRPC counts for a version is what Moleculer has for the version of that action. -/
theorem lastOf_of_actionFor (h : actionFor a.actionVersion a.named name v = some i) :
    a.lastOf name (a.actionVersion i) = some i := by
  rw [actionFor_named] at h
  have hmem := List.mem_filter.1 (List.mem_of_getLast? h)
  obtain ⟨hname, hv⟩ := of_decide_eq_true hmem.2
  refine getLast?_filter h (decide_eq_true ⟨hname, rfl⟩) fun j hj => decide_eq_true ?_
  obtain ⟨hjname, hjv⟩ := of_decide_eq_true hj
  exact ⟨hjname, by rw [← hv, effectiveVersion, effectiveVersion, hjv]⟩

/-- For a version that Moleculer has an action of, gRPC counts that one, or for `V1` one without a
version. -/
theorem actionFor_of_lastOf (h : a.lastOf name (some v) = some i) :
    ∃ j, actionFor a.actionVersion a.named name v = some j ∧
      (j = i ∨ v = v1 ∧ a.actionVersion j = none) := by
  have hmem := List.mem_filter.1 (List.mem_of_getLast? h)
  obtain ⟨hname, hv⟩ := of_decide_eq_true hmem.2
  have hsome : (actionFor a.actionVersion a.named name v).isSome := by
    rw [actionFor_named, List.getLast?_isSome]
    refine List.ne_nil_of_mem (List.mem_filter.2 ⟨hmem.1, decide_eq_true ⟨hname, ?_⟩⟩)
    rw [effectiveVersion, hv, Option.getD_some]
  obtain ⟨j, hj⟩ := Option.isSome_iff_exists.1 hsome
  refine ⟨j, hj, ?_⟩
  have he := (actionFor_version hj).1
  rw [effectiveVersion] at he
  cases hjv : a.actionVersion j with
  | none =>
    rw [hjv, Option.getD_none] at he
    exact .inr ⟨he.symm, rfl⟩
  | some w =>
    rw [hjv, Option.getD_some] at he
    have hlast := lastOf_of_actionFor hj
    rw [hjv, he, h] at hlast
    exact .inl (Option.some.inj hlast).symm

variable {p : Packages N}

theorem Chosen.exists_actionFor {α : Type} {versionOf : α → Option ActionVersion}
    {actionList : List (JsString × α)} {header : Option ActionVersion} {x : α}
    {res : Except (Thrown N) α} (h : Chosen p versionOf actionList name header res)
    (hr : res = .ok x) : ∃ u, actionFor versionOf actionList name u = some x := by
  cases h with
  | greatest h => exact ⟨_, Except.ok.inj hr ▸ h⟩
  | exact _ h => exact ⟨_, Except.ok.inj hr ▸ h⟩
  | unversioned _ _ h => exact ⟨_, Except.ok.inj hr ▸ h⟩
  | missing => cases hr
  | empty h => exact ⟨_, Except.ok.inj hr ▸ h⟩
  | emptyMissing => cases hr

/-- Where both transports serve the actions, each action with a lock has a `redlock`. An action that
gRPC chooses for a request is the one that Moleculer executes under the name and the version of that
action. For a version that Moleculer has an action of, gRPC chooses the same, or for `V1` one
without a version, which Moleculer executes under the name alone. -/
theorem same_action (hk : p.KnowsVersions)
    (hl : VersionsKnown p a.actionVersion a.named) (hc : a.TellsApart command name)
    {serviceActions : Js.Map JsString (ActionSchema ι N)}
    (hm : a.createActions config command = .ok serviceActions) {actions : Js.Map ActionVersion ι}
    (hg : provideAppActions (N := N) a.actionVersion a.named name = .ok actions)
    (metadata : Metadata) (traceId : JsString) :
    (∀ action ∈ a.actionList, a.hasGetLockResource action → config.redlock) ∧
    (∀ j, chosenAction p a.actionVersion actions metadata traceId = .ok j →
      serviceActions.get (command name (a.actionVersion j)) = some (a.schemaOf config j)) ∧
    ∀ v i, metadataProperty p metadata .actionVersion = some v → v ≠ [] →
      serviceActions.get (command name (some v)) = some (a.schemaOf config i) →
      ∃ j, chosenAction p a.actionVersion actions metadata traceId = .ok j ∧
        (j = i ∨ v = v1 ∧ serviceActions.get (command name none) = some (a.schemaOf config j)) := by
  have hget := MoleculerActions.get_createActions hm hc
  have hchosen := chosenAction_chosen hk hl hg metadata traceId
  refine ⟨(MoleculerActions.createActions_eq_ok.1 hm).1, fun j hj => ?_, fun v i hv hne hi => ?_⟩
  · obtain ⟨u, hu⟩ := hchosen.exists_actionFor hj
    rw [hget, lastOf_of_actionFor hu, Option.map_some]
  · rw [hget] at hi
    obtain ⟨i', hlast, hschema⟩ := Option.map_eq_some_iff.1 hi
    obtain rfl : i' = i := congrArg ActionSchema.handler hschema
    obtain ⟨j, hj, hcase⟩ := actionFor_of_lastOf hlast
    rw [hv] at hchosen
    generalize chosenAction p a.actionVersion actions metadata traceId = res at hchosen
    cases hchosen with
    | exact _ h =>
      rw [hj] at h
      obtain rfl := Option.some.inj h
      refine ⟨j, rfl, hcase.imp_right fun ⟨hv1, hnone⟩ => ⟨hv1, ?_⟩⟩
      rw [hget, ← hnone, lastOf_of_actionFor hj, Option.map_some]
    | unversioned _ hno _ _ =>
      rw [hj] at hno
      cases hno
    | missing _ hno _ =>
      rw [hj] at hno
      cases hno
    | empty => exact absurd rfl hne
    | emptyMissing => exact absurd rfl hne

end Serving

/-- An action without a version and one of `v2`. -/
def plainAndSecond : MoleculerActions Bool ℤ where
  actionList := [true, false]
  name _ := js "act"
  actionVersion i := if i then none else some (js "v2")
  hasGetLockResource _ := false
  validationRules _ := none
  actionResponse _ := .undefined

/-- The name, and the version after a dot. -/
def dottedCommand (name : JsString) : Option ActionVersion → JsString
  | none => name
  | some version => name ++ js "." ++ version

theorem plainAndSecond_tellsApart : plainAndSecond.TellsApart dottedCommand (js "act") := by
  have hdot : ∀ w : ActionVersion, js "act" ++ js "." ++ w ≠ js "act" := fun w h => by
    have hlen := congrArg List.length h
    simp [js] at hlen
  intro action _ version h
  refine ⟨rfl, ?_⟩
  cases action with
  | true =>
    cases version with
    | none => rfl
    | some w => exact absurd h.symm (hdot w)
  | false =>
    cases version with
    | none => exact absurd h (hdot _)
    | some w => exact congrArg some (List.append_cancel_left h)

theorem same_action_second : ∃ serviceActions actions,
    plainAndSecond.createActions ⟨false, false⟩ dottedCommand = .ok serviceActions ∧
      provideAppActions (N := ℤ) plainAndSecond.actionVersion plainAndSecond.named (js "act") =
        .ok actions ∧
      ∃ j, chosenAction standIn plainAndSecond.actionVersion actions
        (versionedCall (some (js "v2"))).metadata (js "t") = .ok j ∧
        (j = false ∨ js "v2" = v1 ∧ serviceActions.get (dottedCommand (js "act") none) =
          some (plainAndSecond.schemaOf ⟨false, false⟩ j)) := by
  have hl : VersionsKnown standIn plainAndSecond.actionVersion plainAndSecond.named := by
    intro action hm v hv
    simp only [MoleculerActions.named, plainAndSecond, List.map_cons, List.map_nil, List.mem_cons,
      List.not_mem_nil, or_false] at hm
    rcases hm with rfl | rfl
    · cases hv
    · exact Option.some.inj hv ▸ by decide
  have hg : provideAppActions (N := ℤ) plainAndSecond.actionVersion plainAndSecond.named
    (js "act") = .ok _ := rfl
  have hm : plainAndSecond.createActions ⟨false, false⟩ dottedCommand = .ok _ := rfl
  have h := same_action standIn_knowsVersions hl plainAndSecond_tellsApart hm hg
    (versionedCall (some (js "v2"))).metadata (js "t")
  exact ⟨_, _, hm, hg, h.2.2 (js "v2") false (by decide) (by decide) rfl⟩

end DiiaApp
