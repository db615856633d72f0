import DiiaApp.Proofs.StreamSettles
import DiiaApp.UnaryCall

/-!
# Versions of actions

Which action a request is for, by the versions of the actions of its method and the version header
it has (`Chosen`): the index of the actions has the last of each version (`get_provideAppActions`),
the default is the greatest of them (`getDefaultActionVersion_greatest`), and unary calls and
streams are served by the one chosen (`served_by_version`).
-/

namespace DiiaApp

open Js

variable {N : Type}

/-- `V1` is one of the versions, and they are not empty. -/
structure Packages.KnowsVersions (p : Packages N) : Prop where
  v1 : v1 ∈ p.actionVersions
  nonempty : [] ∉ p.actionVersions

section Chosen

variable {α : Type} (p : Packages N) (versionOf : α → Option ActionVersion)
  (actionList : List (JsString × α)) (actionName : JsString)

def effectiveVersion (a : α) : ActionVersion := (versionOf a).getD v1

/-- The action of a name and an effective version that counts, the last of the list. -/
def actionFor (v : ActionVersion) : Option α :=
  (((actionList.filter fun action => action.1 = actionName).map Prod.snd).filter fun a =>
    effectiveVersion versionOf a = v).getLast?

/-- The error of a version without an action. -/
def notFound (v : ActionVersion) : Thrown N :=
  .api (p.newHttpError (js "action not found for version " ++ v) 501)

/-- What a request is to come to, by its version header: without one the action of the greatest
version, with an empty one that of `V1`. -/
inductive Chosen : Option ActionVersion → Except (Thrown N) α → Prop
  | greatest {v : ActionVersion} {a : α} (h : actionFor versionOf actionList actionName v = some a)
      (hv : ∀ u b, actionFor versionOf actionList actionName u = some b → u ≠ v →
        versionIndex p u < versionIndex p v) : Chosen none (.ok a)
  | exact {v : ActionVersion} {a : α} (hv : v ≠ [])
      (h : actionFor versionOf actionList actionName v = some a) : Chosen (some v) (.ok a)
  | unversioned {v : ActionVersion} {a : α} (hv : v ≠ [])
      (hno : actionFor versionOf actionList actionName v = none)
      (h : actionFor versionOf actionList actionName v1 = some a) (ha : versionOf a = none) :
      Chosen (some v) (.ok a)
  | missing {v : ActionVersion} (hv : v ≠ [])
      (hno : actionFor versionOf actionList actionName v = none)
      (h : ∀ a, actionFor versionOf actionList actionName v1 = some a → versionOf a ≠ none) :
      Chosen (some v) (.error (notFound p v))
  | empty {a : α} (h : actionFor versionOf actionList actionName v1 = some a) :
      Chosen (some []) (.ok a)
  | emptyMissing (h : actionFor versionOf actionList actionName v1 = none) :
      Chosen (some []) (.error (notFound p v1))

/-- The versions of the actions are versions. -/
def VersionsKnown : Prop :=
  ∀ action ∈ actionList, ∀ v, versionOf action.2 = some v → v ∈ p.actionVersions

/-- The action the handlers take for the metadata of a call. -/
def chosenAction (actions : Js.Map ActionVersion α) (metadata : Metadata) (traceId : JsString) :
    Except (Thrown N) α :=
  let headers : ActHeaders N := prepareActHeadersFromGrpcInput p metadata actions.keys traceId
  getActionInstance p versionOf ((nonEmpty headers.actionVersion).getD v1) actions

end Chosen

section Choice

variable {α : Type} {p : Packages N} {versionOf : α → Option ActionVersion}
  {actionList : List (JsString × α)} {actionName : JsString} {actions : Js.Map ActionVersion α}

theorem get_provideAppActions
    (h : provideAppActions (N := N) versionOf actionList actionName = .ok actions)
    (v : ActionVersion) : actions.get v = actionFor versionOf actionList actionName v := by
  rw [provideAppActions] at h
  split_ifs at h
  · cases h
  · rw [← Except.ok.inj h, Map.get_foldl_set, Map.get_empty, Option.or_none]
    rfl

/-- An action that counts has its version, which is one of the versions. -/
theorem actionFor_version {v : ActionVersion} {a : α}
    (h : actionFor versionOf actionList actionName v = some a) :
    effectiveVersion versionOf a = v ∧ ∃ action ∈ actionList, action.2 = a := by
  obtain ⟨hm, hv⟩ := List.mem_filter.1 (List.mem_of_getLast? h)
  obtain ⟨action, hmem, rfl⟩ := List.mem_map.1 hm
  exact ⟨of_decide_eq_true hv, action, (List.mem_filter.1 hmem).1, rfl⟩

theorem mem_versions (hk : p.KnowsVersions) (hl : VersionsKnown p versionOf actionList)
    {v : ActionVersion} {a : α} (h : actionFor versionOf actionList actionName v = some a) :
    v ∈ p.actionVersions := by
  obtain ⟨rfl, action, hmem, rfl⟩ := actionFor_version h
  rw [effectiveVersion]
  rcases hv : versionOf action.2 with _ | v
  · exact hk.v1
  · exact hl action hmem v hv

theorem versionIndex_inj {u v : ActionVersion} (hu : u ∈ p.actionVersions)
    (hv : v ∈ p.actionVersions) (h : versionIndex p u = versionIndex p v) : u = v := by
  rw [versionIndex, versionIndex, if_pos hu, if_pos hv, Nat.cast_inj] at h
  exact List.idxOf_inj hu |>.1 h

theorem getDefaultActionVersion_greatest {versions : List ActionVersion} (h : versions ≠ []) :
    ∃ v ∈ versions, getDefaultActionVersion p versions = some v ∧
      ∀ u ∈ versions, versionIndex p u ≤ versionIndex p v := by
  rw [getDefaultActionVersion]
  split_ifs with hlen
  · have hsorted : (versions.mergeSort fun u v => versionIndex p v - versionIndex p u ≤ 0).Pairwise
        fun u v => decide (versionIndex p v - versionIndex p u ≤ 0) :=
      List.pairwise_mergeSort (by simp only [decide_eq_true_eq]; omega)
        (by simp only [Bool.or_eq_true, decide_eq_true_eq]; omega) versions
    have hmem : ∀ u, u ∈ versions.mergeSort (fun u v => versionIndex p v - versionIndex p u ≤ 0) ↔
      u ∈ versions := fun u => List.mem_mergeSort
    -- the sorted versions begin with one that none comes before
    rcases hs : versions.mergeSort fun u v => versionIndex p v - versionIndex p u ≤ 0 with
      _ | ⟨v, rest⟩
    · rw [hs] at hmem
      exact absurd (List.eq_nil_iff_forall_not_mem.2 fun u hu => by simpa using (hmem u).2 hu) h
    · rw [hs] at hmem hsorted
      refine ⟨v, (hmem v).1 List.mem_cons_self, rfl, fun u hu => ?_⟩
      rcases List.mem_cons.1 ((hmem u).2 hu) with rfl | hu
      · exact le_rfl
      · have hle := of_decide_eq_true ((List.pairwise_cons.1 hsorted).1 u hu)
        omega
  · obtain ⟨v, rfl⟩ : ∃ v, versions = [v] := by
      rw [← List.length_eq_one_iff]
      have := List.length_pos_iff.2 h
      omega
    exact ⟨v, List.mem_singleton_self v, rfl, by simp⟩

theorem versions_ne_nil
    (h : provideAppActions (N := N) versionOf actionList actionName = .ok actions) :
    actions.keys ≠ [] := by
  have hget := get_provideAppActions h
  rw [provideAppActions] at h
  split_ifs at h with hlen
  · cases h
  obtain ⟨a, ha⟩ := List.exists_mem_of_length_pos (Nat.pos_of_ne_zero hlen)
  have hsome :
      (actionFor versionOf actionList actionName (effectiveVersion versionOf a)).isSome := by
    rw [actionFor, List.getLast?_isSome]
    exact List.ne_nil_of_mem (List.mem_filter.2 ⟨ha, decide_eq_true rfl⟩)
  rw [← hget, Option.isSome_iff_exists] at hsome
  exact List.ne_nil_of_mem (Map.mem_keys.2 hsome)

theorem chosenAction_eq {metadata : Metadata} (traceId : JsString) {v : ActionVersion}
    (hv : (nonEmpty ((metadataProperty p metadata .actionVersion).or
      (getDefaultActionVersion p actions.keys))).getD v1 = v) :
    chosenAction p versionOf actions metadata traceId =
      getActionInstance p versionOf v actions := by
  rw [← hv]
  rfl

theorem chosenAction_chosen (hk : p.KnowsVersions) (hl : VersionsKnown p versionOf actionList)
    (h : provideAppActions (N := N) versionOf actionList actionName = .ok actions)
    (metadata : Metadata) (traceId : JsString) :
    Chosen p versionOf actionList actionName (metadataProperty p metadata .actionVersion)
      (chosenAction p versionOf actions metadata traceId) := by
  have hget := get_provideAppActions h
  rcases hm : metadataProperty p metadata .actionVersion with _ | v
  · obtain ⟨v, hv, hd, hmax⟩ := getDefaultActionVersion_greatest (p := p) (versions_ne_nil h)
    obtain ⟨a, ha⟩ := Map.mem_keys.1 hv
    have hact : actionFor versionOf actionList actionName v = some a := by rw [← hget, ha]
    have hvers := mem_versions hk hl hact
    have hne : v ≠ [] := fun he => hk.nonempty (he ▸ hvers)
    rw [chosenAction_eq traceId (v := v) (by rw [hm, hd, Option.none_or, nonEmpty_some hne]; rfl),
      getActionInstance, ha]
    refine .greatest hact fun u b hb hne => lt_of_le_of_ne ?_ fun he => ?_
    · exact hmax u (Map.mem_keys.2 ⟨b, by rw [hget, hb]⟩)
    · exact hne (versionIndex_inj (mem_versions hk hl hb) hvers he)
  by_cases hv : v = []
  · subst hv
    rw [chosenAction_eq traceId (v := v1) (by rw [hm]; rfl), getActionInstance, hget]
    rcases ha : actionFor versionOf actionList actionName v1 with _ | a
    · exact .emptyMissing ha
    · exact .empty ha
  · rw [chosenAction_eq traceId (v := v) (by rw [hm, Option.some_or, nonEmpty_some hv]; rfl),
      getActionInstance, hget, hget]
    rcases ha : actionFor versionOf actionList actionName v with _ | a
    · rcases ha1 : actionFor versionOf actionList actionName v1 with _ | a
      · exact .missing hv ha fun a h => by simp [ha1] at h
      · dsimp only
        have hversion : ∀ w, versionOf a = some w → w = v1 := fun w hw => by
          rw [← (actionFor_version ha1).1, effectiveVersion, hw, Option.getD_some]
        split_ifs with he
        · refine .missing hv ha fun b hb hnone => ?_
          obtain rfl := Option.some.inj (ha1.symm.trans hb)
          simp [hnone, nonEmpty] at he
        · refine .unversioned hv ha ha1 (Option.eq_none_iff_forall_ne_some.2 fun w hw => he ?_)
          rw [hw, hversion w hw]
          rfl
    · exact .exact hv ha

/-- No request that names a version is served by an action of another version. -/
theorem Chosen.not_other {v : ActionVersion} {a : α} {res : Except (Thrown N) α}
    (h : Chosen p versionOf actionList actionName (some v) res) (hv : v ≠ []) (hr : res = .ok a) :
    versionOf a = none ∨ versionOf a = some v := by
  cases h with
  | exact _ h =>
    obtain rfl := Except.ok.inj hr
    have he := (actionFor_version h).1
    rw [effectiveVersion] at he
    rcases hva : versionOf _ with _ | w
    · exact .inl rfl
    · rw [hva, Option.getD_some] at he
      exact .inr (congrArg some he)
  | unversioned _ _ _ ha =>
    obtain rfl := Except.ok.inj hr
    exact .inl ha
  | missing => cases hr
  | empty => exact absurd rfl hv
  | emptyMissing => cases hr

end Choice

variable [JsNumber N] {σ : Type} {p : Packages N}

theorem unaryResponse_chosen (actions : Js.Map ActionVersion (UnaryAction N))
    (input : UnaryInput N) :
    unaryResponse p actions input =
      (chosenAction p (·.actionVersion) actions input.metadata input.traceId).bind fun action =>
        let headers := prepareActHeadersFromGrpcInput p input.metadata actions.keys input.traceId
        (parseTracing p headers).bind fun tracing =>
          executeAction p action input.metadata (headers.withTracing tracing) input.request := by
  rfl

theorem setupStream_chosen (actions : Js.Map ActionVersion (StreamAction σ N)) (o : Opening N) :
    setupStream p actions o =
      (chosenAction p (·.actionVersion) actions
        (o.metadata.set (p.grpcMetadataKeys .streamId) [o.streamId]) o.traceId).bind fun action =>
          (parseTracing p (openingHeaders p actions o)).map fun tracing =>
            ((openingHeaders p actions o).withTracing tracing, action) := by
  unfold setupStream chosenAction openingHeaders
  dsimp only [bind, Except.bind, pure, Except.pure]
  split
  · rfl
  · split <;>
      rename_i ht <;> rw [ht] <;> rfl

/-- The action that a unary call or a stream is served by is the one chosen by its version header,
and never one of another version than it names. -/
theorem served_by_version (hk : p.KnowsVersions) {actionName : JsString}
    {actionList : List (JsString × UnaryAction N)} {actions : Js.Map ActionVersion (UnaryAction N)}
    (hl : VersionsKnown p (·.actionVersion) actionList)
    (h : provideAppActions (N := N) (·.actionVersion) actionList actionName = .ok actions)
    {streamList : List (JsString × StreamAction σ N)}
    {streams : Js.Map ActionVersion (StreamAction σ N)}
    (hl' : VersionsKnown p (·.actionVersion) streamList)
    (h' : provideAppActions (N := N) (·.actionVersion) streamList actionName = .ok streams)
    (input : UnaryInput N) (o : Opening N) :
    (∃ res, Chosen p (·.actionVersion) actionList actionName
        (metadataProperty p input.metadata .actionVersion) res ∧
      (∀ v a, metadataProperty p input.metadata .actionVersion = some v → v ≠ [] → res = .ok a →
        a.actionVersion = none ∨ a.actionVersion = some v) ∧
      unaryResponse p actions input = res.bind fun action =>
        let headers := prepareActHeadersFromGrpcInput p input.metadata actions.keys input.traceId
        (parseTracing p headers).bind fun tracing =>
          executeAction p action input.metadata (headers.withTracing tracing) input.request) ∧
    let metadata := o.metadata.set (p.grpcMetadataKeys .streamId) [o.streamId]
    ∃ res, Chosen p (·.actionVersion) streamList actionName
        (metadataProperty p metadata .actionVersion) res ∧
      (∀ v a, metadataProperty p metadata .actionVersion = some v → v ≠ [] → res = .ok a →
        a.actionVersion = none ∨ a.actionVersion = some v) ∧
      setupStream p streams o = res.bind fun action =>
        (parseTracing p (openingHeaders p streams o)).map fun tracing =>
          ((openingHeaders p streams o).withTracing tracing, action) := by
  constructor
  · have hc := chosenAction_chosen hk hl h input.metadata input.traceId
    exact ⟨_, hc, fun v a hv hne hr => (hv ▸ hc).not_other hne hr,
      unaryResponse_chosen actions input⟩
  · intro metadata
    have hc := chosenAction_chosen hk hl' h' metadata o.traceId
    exact ⟨_, hc, fun v a hv hne hr => (hv ▸ hc).not_other hne hr, setupStream_chosen streams o⟩

/-- A method with an action of `V1` and one of `V2`, which answer with their versions. -/
def twoVersions : List (JsString × UnaryAction ℤ) :=
  [(js "act", ⟨some (js "v1"), fun _ => .ok (.str (js "v1"))⟩),
    (js "act", ⟨some (js "v2"), fun _ => .ok (.str (js "v2"))⟩)]

theorem standIn_knowsVersions : standIn.KnowsVersions := ⟨by decide, by decide⟩

theorem versionsKnown_two : VersionsKnown standIn (·.actionVersion) twoVersions := by
  intro action hm v hv
  simp only [twoVersions, List.mem_cons, List.not_mem_nil, or_false] at hm
  rcases hm with rfl | rfl <;> exact Option.some.inj hv ▸ by decide

/-- A call of that method, with a version header or without. -/
def versionedCall (version : Option ActionVersion) : UnaryInput ℤ where
  metadata := version.elim Map.empty fun v => Map.empty.set (js "actionversion") [v]
  request := .obj []
  traceId := js "t"

theorem served_by_version_two : ∃ actions, provideAppActions (N := ℤ)
      (fun a : UnaryAction ℤ => a.actionVersion) twoVersions (js "act") = .ok actions ∧
    ∃ res, Chosen standIn (·.actionVersion) twoVersions (js "act") (some (js "v2")) res ∧
      unaryResponse standIn actions (versionedCall (some (js "v2"))) = .ok (.str (js "v2")) := by
  have hl : VersionsKnown standIn (fun a : StreamAction Unit ℤ => a.actionVersion)
    [(js "act", ⟨none, none, none, false, fun _ _ => []⟩)] := by
    intro action hm v hv
    rw [List.mem_singleton.1 hm] at hv
    cases hv
  have h : provideAppActions (N := ℤ) (fun a : UnaryAction ℤ => a.actionVersion) twoVersions
    (js "act") = .ok _ := rfl
  obtain ⟨⟨res, hc, -, -⟩, -⟩ := served_by_version standIn_knowsVersions versionsKnown_two h hl rfl
    (versionedCall (some (js "v2"))) (plainOpening (js "s") [])
  exact ⟨_, rfl, res, hc, rfl⟩

/-- With an empty version header the action of `V1` answers, though it has that version. -/
theorem not_served_by_version :
    ¬ ∀ (actionList : List (JsString × UnaryAction ℤ)) (actionName : JsString)
      (actions : Js.Map ActionVersion (UnaryAction ℤ)) (input : UnaryInput ℤ) (v : ActionVersion),
      VersionsKnown standIn (·.actionVersion) actionList →
      provideAppActions (N := ℤ) (·.actionVersion) actionList actionName = .ok actions →
      metadataProperty standIn input.metadata .actionVersion = some v →
      actionFor (·.actionVersion) actionList actionName v = none →
      (∀ a, actionFor (·.actionVersion) actionList actionName v1 = some a →
        a.actionVersion ≠ none) →
      ∃ err, unaryResponse standIn actions input = .error err := by
  intro h
  have hv1 : actionFor (fun a : UnaryAction ℤ => a.actionVersion) twoVersions (js "act") v1 =
    some ⟨some (js "v1"), fun _ => .ok (.str (js "v1"))⟩ := rfl
  obtain ⟨err, herr⟩ := h twoVersions (js "act") _ (versionedCall (some [])) [] versionsKnown_two rfl
    rfl rfl (fun a ha => by rw [← Option.some.inj (hv1.symm.trans ha)]; simp)
  cases herr

end DiiaApp
