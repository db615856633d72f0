import DiiaApp.Proofs.ActionVersions
import DiiaApp.Proofs.ExecuteAction
import DiiaApp.Proofs.TypeDescent
import DiiaApp.ServiceMethods

/-!
# Under which path a call is told

What an execution tells of a call, the name of its span and the route of its metrics, is the path
that was last written into its action. This is the path of the method called for every method and
every call just where no two methods of one name have different paths.
-/

namespace DiiaApp

open Js

variable {N ι : Type}

namespace ActionExecutor

def Doing.spanName : Doing N → Option JsString
  | .startSpan name _ _ => some name
  | _ => none

/-- A report has one span, named after a path, and the path as the route of each observation. -/
structure ToldOf (r : Report N) (path : JsString) : Prop where
  span : r.doings.filterMap Doing.spanName = [js "handle " ++ path]
  route : ∀ labels ∈ r.doings.filterMap Doing.observation, labels.route = path

section Told

variable {p : Packages N} {x : Deps N} {params : ExecuteActionParams N}

theorem told_route {labels : Labels} (res : Except (Thrown N) (Value N)) :
    ∀ l ∈ (told p labels res).filterMap Doing.observation, l.route = labels.route := by
  rcases res with err | v <;> simp [told, Doing.observation]

theorem told_spanName {labels : Labels} (res : Except (Thrown N) (Value N)) :
    (told p labels res).filterMap Doing.spanName = [] := by
  rcases res with err | v <;> rfl

theorem Attempted.spanName {r : Report N} {o : Option (Except (Thrown N) (Value N))}
    (h : Attempted r o) : r.doings.filterMap Doing.spanName = [] := by
  cases h <;> rfl

theorem toldOf_opening {res : Except (Thrown N) (Value N)} :
    ToldOf ⟨opening x params, res⟩ (actionName x params) :=
  ⟨rfl, fun _ h => by cases h⟩

variable [JsNumber N]

/-- An execution tells of the name it reads from its action. -/
theorem toldOf_actionName : ToldOf (execute p x params) (actionName x params) := by
  rcases hl : buildLogData x params.actionArguments with err | logData
  · rw [execute_unlogged hl]
    exact toldOf_opening
  rcases hr : params.action.lockResource params.actionArguments with err | resource
  · rw [execute_unlocked hl hr]
    exact toldOf_opening
  have ht : Attempted (attempt x params.action logData params.actionArguments)
      (outcome x params.action logData params.actionArguments) := attempt_attempted logData
  rw [execute_tried hl hr]
  constructor
  · rw [finish_doings, List.filterMap_append, List.filterMap_append, List.filterMap_append,
      ht.spanName, told_spanName]
    rcases acquire x params.action resource with _ | _ <;> rfl
  · intro labels hm
    rw [finish_doings, List.filterMap_append, List.filterMap_append, List.filterMap_append,
      ht.silent.2.2] at hm
    have hm : labels ∈ (told p (defaultLabels x params) (attempt x params.action logData
        params.actionArguments).result).filterMap Doing.observation := by
      rcases acquire x params.action resource with _ | _ <;>
        simpa [opening, Doing.observation] using hm
    exact told_route _ labels hm

theorem toldOf_iff {path : JsString} :
    ToldOf (execute p x params) path ↔ actionName x params = path := by
  have ht : ToldOf (execute p x params) (actionName x params) := toldOf_actionName
  constructor
  · intro h
    have hs := ht.span.symm.trans h.span
    rw [List.cons.injEq] at hs
    exact List.append_cancel_left hs.1
  · rintro rfl
    exact ht

end Told

end ActionExecutor

open ActionExecutor

namespace AppActions

variable (a : AppActions ι)

/-- The actions of a name, by their versions. -/
def actionsOf (name : JsString) : Except (Thrown N) (Js.Map ActionVersion ι) :=
  provideAppActions a.actionVersion (a.actionList.map fun i => (a.name i, i)) name

variable {a}

/-- An execution of an action for a call, when the methods are provided. -/
structure Executed (a : AppActions ι) (x : Deps N) (provided : Provided ι) (i : ι)
    (params : ExecuteActionParams N) : Prop where
  transport : params.transport = x.grpc
  name : params.action.name = a.name i
  grpcPath : params.action.grpcPath = provided.grpcMethods i

/-- A call to any path, with any metadata, is told of under that path. -/
def CallsTold [JsNumber N] (a : AppActions ι) (p : Packages N) (x : Deps N)
    (provided : Provided ι) : Prop :=
  ∀ path actions, (path, actions) ∈ provided.implementations →
  ∀ (metadata : Metadata) (traceId : JsString) (i : ι),
    chosenAction p a.actionVersion actions metadata traceId = .ok i →
  ∀ params : ExecuteActionParams N, a.Executed x provided i params →
    ToldOf (execute p x params) path

/-- The path that an execution for a call reads, where one is written. -/
theorem Executed.actionName {x : Deps N} {provided : Provided ι} {i : ι}
    {params : ExecuteActionParams N} (h : a.Executed x provided i params) {path : JsString}
    (hw : provided.grpcMethods i = some path) :
    ActionExecutor.actionName x params = if path = [] then a.name i else path := by
  rw [ActionExecutor.actionName, if_pos h.transport, h.grpcPath, hw, h.name, nonEmpty]
  split_ifs with hp <;> rfl

/-- The actions of a name are in the list, under that name. -/
theorem mem_actionsOf {name : JsString} {actions : Js.Map ActionVersion ι}
    (h : a.actionsOf (N := N) name = .ok actions) {v : ActionVersion} {i : ι}
    (hi : actions.get v = some i) :
    i ∈ a.actionList ∧ a.name i = name ∧ effectiveVersion a.actionVersion i = v := by
  rw [get_provideAppActions h] at hi
  have hm := List.mem_of_getLast? hi
  simp only [List.mem_filter, List.mem_map, decide_eq_true_eq] at hm
  obtain ⟨⟨_, ⟨⟨j, hj, rfl⟩, hn⟩, rfl⟩, hv⟩ := hm
  exact ⟨hj, hn, hv⟩

theorem mem_of_getActionInstance {p : Packages N} {actions : Js.Map ActionVersion ι}
    {v : ActionVersion} {i : ι} (h : getActionInstance p a.actionVersion v actions = .ok i) :
    ∃ w, actions.get w = some i := by
  rw [getActionInstance] at h
  split at h
  next action hg => exact ⟨v, Except.ok.inj h ▸ hg⟩
  next =>
    split at h
    next action hg =>
      split_ifs at h
      exact ⟨v1, Except.ok.inj h ▸ hg⟩
    next => cases h

/-- A call without a version header comes to one of the actions. -/
theorem chosenAction_default (p : Packages N)
    (hv : ∀ i ∈ a.actionList, a.actionVersion i ≠ some []) {name : JsString}
    {actions : Js.Map ActionVersion ι} (h : a.actionsOf (N := N) name = .ok actions) :
    ∃ i, chosenAction p a.actionVersion actions Map.empty [] = .ok i := by
  obtain ⟨v, hk, hd, -⟩ := getDefaultActionVersion_greatest (p := p) (versions_ne_nil h)
  obtain ⟨i, hi⟩ := Map.mem_keys.1 hk
  obtain ⟨hl, -, he⟩ := mem_actionsOf h hi
  have hne : v ≠ [] := by
    rw [← he, effectiveVersion]
    rcases hw : a.actionVersion i with _ | w
    · decide
    · exact fun hc => hv i hl (hw.trans (congrArg some hc))
  refine ⟨i, ?_⟩
  rw [chosenAction_eq [] (v := v) (by rw [hd]; exact congrArg (·.getD v1) (nonEmpty_some hne)),
    getActionInstance, hi]

/-- The params of an execution of an action. -/
def executionOf (a : AppActions ι) (x : Deps N) (provided : Provided ι) (i : ι) :
    ExecuteActionParams N where
  action := ⟨a.name i, provided.grpcMethods i, .undefined, none, none, none,
    fun _ _ => .ok .undefined⟩
  transport := x.grpc
  sentFrom := none
  actionArguments := ⟨.undefined, .undefined, .undefined⟩

theorem executed_executionOf (x : Deps N) (provided : Provided ι) (i : ι) :
    a.Executed x provided i (a.executionOf x provided i) := ⟨rfl, rfl, rfl⟩

end AppActions

/-- The original name and the path of a method for which something is provided. -/
def MethodDefinition.bound (method : MethodDefinition) : Option (JsString × JsString) :=
  method.originalName.bind fun originalName => method.path.map (originalName, ·)

def boundMethods (services : List (List MethodDefinition)) : List (JsString × JsString) :=
  services.flatten.filterMap MethodDefinition.bound

/-- Methods of one name have one path, which is not empty. -/
structure OnePath (bound : List (JsString × JsString)) : Prop where
  nonempty : ∀ name path, (name, path) ∈ bound → path ≠ []
  one : ∀ name path path', (name, path) ∈ bound → (name, path') ∈ bound → path = path'

namespace AppActions

variable [DecidableEq ι] (a : AppActions ι)

/-- What is provided after some methods: the actions of the name for the path of each, which all
have the path of one method of the name, the last. -/
structure Provides (N : Type) (bound : List (JsString × JsString)) (provided : Provided ι) :
    Prop where
  implementations : ∀ path actions, (path, actions) ∈ provided.implementations ↔
    ∃ name, (name, path) ∈ bound ∧ a.actionsOf (N := N) name = .ok actions
  named : ∀ name path, (name, path) ∈ bound →
    name ≠ [] ∧ ∃ actions, a.actionsOf (N := N) name = .ok actions
  written : ∀ name path, (name, path) ∈ bound → ∃ last, (name, last) ∈ bound ∧
    ∀ i ∈ a.actionList, a.name i = name → provided.grpcMethods i = some last

variable {a}

/-- What one turn of the loop does for a method that has a name and a path. -/
theorem provideMethod_bound {provided provided' : Provided ι} {method : MethodDefinition}
    {name path : JsString} (hb : method.bound = some (name, path))
    (h : a.provideMethod (N := N) provided method = .ok provided') :
    name ≠ [] ∧ ∃ actions, a.actionsOf (N := N) name = .ok actions ∧
      provided' = ⟨a.setGrpcMethod name path provided.grpcMethods,
        provided.implementations ++ [(path, actions)]⟩ := by
  obtain ⟨originalName, path', _, _⟩ := method
  cases originalName <;> cases path' <;> cases hb
  rw [provideMethod] at h
  dsimp only at h
  split_ifs at h with hn
  · cases h
  · cases h
  · refine ⟨hn, ?_⟩
    rw [actionsOf]
    rcases hp : provideAppActions (N := N) a.actionVersion
      (a.actionList.map fun i => (a.name i, i)) name with err | actions
    · rw [hp] at h
      cases h
    · rw [hp] at h
      exact ⟨actions, rfl, (Except.ok.inj h).symm⟩

theorem provideMethod_unbound {provided provided' : Provided ι} {method : MethodDefinition}
    (hb : method.bound = none) (h : a.provideMethod (N := N) provided method = .ok provided') :
    provided' = provided := by
  obtain ⟨originalName, path, _, _⟩ := method
  cases originalName <;> cases path <;> cases hb <;> exact (Except.ok.inj h).symm

theorem Provides.step {bound : List (JsString × JsString)} {provided provided' : Provided ι}
    {method : MethodDefinition} (hp : a.Provides N bound provided)
    (h : a.provideMethod (N := N) provided method = .ok provided') :
    a.Provides N (bound ++ method.bound.toList) provided' := by
  rcases hb : method.bound with _ | ⟨name, path⟩
  · rw [provideMethod_unbound hb h, Option.toList_none, List.append_nil]
    exact hp
  obtain ⟨hn, actions, ha, rfl⟩ := provideMethod_bound hb h
  have hmem : ∀ e, e ∈ bound ++ (some (name, path)).toList ↔ e ∈ bound ∨ e = (name, path) := by
    simp
  constructor
  · intro path' actions'
    simp only [List.mem_append, List.mem_singleton, hp.implementations, hmem, Prod.mk.injEq]
    constructor
    · rintro (⟨name', hm, ha'⟩ | ⟨rfl, rfl⟩)
      · exact ⟨name', .inl hm, ha'⟩
      · exact ⟨name, .inr ⟨rfl, rfl⟩, ha⟩
    · rintro ⟨name', hm | ⟨rfl, rfl⟩, ha'⟩
      · exact .inl ⟨name', hm, ha'⟩
      · exact .inr ⟨rfl, Except.ok.inj (ha'.symm.trans ha)⟩
  · intro name' path' hm
    rcases (hmem _).1 hm with hm | he
    · exact hp.named name' path' hm
    · cases he
      exact ⟨hn, actions, ha⟩
  · intro name' path' hm
    by_cases he : name' = name
    · subst he
      exact ⟨path, (hmem _).2 (.inr rfl), fun i hi hni => if_pos ⟨hi, hni⟩⟩
    · have hm : (name', path') ∈ bound := ((hmem _).1 hm).resolve_right (by simp [he])
      obtain ⟨last, hlast, hw⟩ := hp.written name' path' hm
      refine ⟨last, (hmem _).2 (.inl hlast), fun i hi hni => ?_⟩
      rw [← hw i hi hni]
      exact if_neg fun hc => he (hni.symm.trans hc.2)

theorem Provides.run {methods : List MethodDefinition} : ∀ {bound : List (JsString × JsString)}
    {provided provided' : Provided ι}, a.Provides N bound provided →
    methods.foldlM (a.provideMethod (N := N)) provided = .ok provided' →
    a.Provides N (bound ++ methods.filterMap MethodDefinition.bound) provided' := by
  induction methods with
  | nil =>
    intro bound provided provided' hp h
    rw [← Except.ok.inj h, List.filterMap_nil, List.append_nil]
    exact hp
  | cons method methods ih =>
    intro bound provided provided' hp h
    rw [List.foldlM_cons] at h
    obtain ⟨next, hn, h⟩ := bind_eq_ok.1 h
    have hr := ih (hp.step hn) h
    rw [List.append_assoc] at hr
    rcases hb : method.bound with _ | b
    · rw [hb] at hr
      rw [List.filterMap_cons_none hb]
      exact hr
    · rw [hb] at hr
      rw [List.filterMap_cons_some hb]
      exact hr

theorem provides_provideServices {grpcMethods : ι → Option JsString}
    {services : List (List MethodDefinition)} {provided : Provided ι}
    (h : a.provideServices (N := N) grpcMethods services = .ok provided) :
    a.Provides N (boundMethods services) provided := by
  have hs : a.Provides N [] ⟨grpcMethods, []⟩ := ⟨by simp, by simp, by simp⟩
  exact hs.run h

variable [JsNumber N]

section Last

variable {p : Packages N} {x : Deps N} {bound : List (JsString × JsString)}
  {provided : Provided ι} {name path last : JsString}

omit [DecidableEq ι]

/-- Where every call is told of under its path, that is what was written last into the actions of
the name, or the name where that is empty. -/
theorem Provides.path_eq (hp : a.Provides N bound provided) (ht : a.CallsTold p x provided)
    (hv : ∀ i ∈ a.actionList, a.actionVersion i ≠ some [])
    (hw : ∀ i ∈ a.actionList, a.name i = name → provided.grpcMethods i = some last)
    (hm : (name, path) ∈ bound) : path = if last = [] then name else last := by
  obtain ⟨-, actions, ha⟩ := hp.named name path hm
  obtain ⟨i, hi⟩ := chosenAction_default p hv ha
  have htold := ht path actions ((hp.implementations path actions).2 ⟨name, hm, ha⟩) _ _ i hi _
    (executed_executionOf x provided i)
  obtain ⟨w, hg⟩ := mem_of_getActionInstance hi
  obtain ⟨hl, hn, -⟩ := mem_actionsOf ha hg
  rw [toldOf_iff, (executed_executionOf x provided i).actionName (hw i hl hn), hn] at htold
  exact htold.symm

theorem Provides.last_ne_nil (hp : a.Provides N bound provided) (ht : a.CallsTold p x provided)
    (hv : ∀ i ∈ a.actionList, a.actionVersion i ≠ some [])
    (hw : ∀ i ∈ a.actionList, a.name i = name → provided.grpcMethods i = some last)
    (hm : (name, last) ∈ bound) : last ≠ [] := by
  intro he
  have hpath := hp.path_eq ht hv hw hm
  rw [if_pos he, he] at hpath
  exact (hp.named name last hm).1 hpath.symm

/-- Every method of the name has the path that was written last. -/
theorem Provides.path_eq_last (hp : a.Provides N bound provided) (ht : a.CallsTold p x provided)
    (hv : ∀ i ∈ a.actionList, a.actionVersion i ≠ some [])
    (hw : ∀ i ∈ a.actionList, a.name i = name → provided.grpcMethods i = some last)
    (hlast : (name, last) ∈ bound) (hm : (name, path) ∈ bound) : path = last := by
  rw [hp.path_eq ht hv hw hm, if_neg (hp.last_ne_nil ht hv hw hlast)]

end Last

/-- After the services are provided, every call is told of under the path it is to, just where no
two methods of one name have different paths. -/
theorem callsTold_iff (p : Packages N) (x : Deps N) {grpcMethods : ι → Option JsString}
    {services : List (List MethodDefinition)} {provided : Provided ι}
    (hv : ∀ i ∈ a.actionList, a.actionVersion i ≠ some [])
    (h : a.provideServices (N := N) grpcMethods services = .ok provided) :
    a.CallsTold p x provided ↔ OnePath (boundMethods services) := by
  have hp := provides_provideServices h
  constructor
  · intro ht
    constructor
    · intro name path hm
      obtain ⟨last, hlast, hw⟩ := hp.written name path hm
      rw [hp.path_eq_last ht hv hw hlast hm]
      exact hp.last_ne_nil ht hv hw hlast
    · intro name path path' hm hm'
      obtain ⟨last, hlast, hw⟩ := hp.written name path hm
      rw [hp.path_eq_last ht hv hw hlast hm, hp.path_eq_last ht hv hw hlast hm']
  · intro ho path actions hm metadata traceId i hi params he
    obtain ⟨name, hb, ha⟩ := (hp.implementations path actions).1 hm
    obtain ⟨last, hbl, hw⟩ := hp.written name path hb
    obtain ⟨w, hg⟩ := mem_of_getActionInstance hi
    obtain ⟨hl, hn, -⟩ := mem_actionsOf ha hg
    have hsame := ho.one name path last hb hbl
    rw [toldOf_iff, he.actionName (hw i hl hn), ← hsame, if_neg (ho.nonempty name path hb)]

/-- An action that serves the methods named `get`. -/
def getAction : AppActions Unit := ⟨[()], fun _ => js "get", fun _ => none⟩

/-- A method named `get`, of a path. -/
def getMethod (path : JsString) : MethodDefinition := ⟨some (js "get"), some path, false, false⟩

/-- A method named `list`, of a path. -/
def listMethod (path : JsString) : MethodDefinition := ⟨some (js "list"), some path, false, false⟩

/-- Actions for the methods named `get` and for those named `list`. -/
def getAndList : AppActions Bool :=
  ⟨[false, true], fun lists => if lists then js "list" else js "get", fun _ => none⟩

def usersAndCards : List (List MethodDefinition) :=
  [[getMethod (js "/users/get")], [listMethod (js "/cards/list")]]

theorem callsTold_iff_two : ∃ provided,
    getAndList.provideServices (N := ℤ) (fun _ => none) usersAndCards = .ok provided ∧
    getAndList.CallsTold standIn (granting (.ok ())) provided := by
  have h : getAndList.provideServices (N := ℤ) (fun _ => none) usersAndCards = .ok _ := rfl
  have hpaths : ∀ m ∈ boundMethods usersAndCards, m.2 ≠ [] ∧
      ∀ m' ∈ boundMethods usersAndCards, m.1 = m'.1 → m.2 = m'.2 := by decide
  refine ⟨_, h, (callsTold_iff standIn (granting (.ok ())) (by decide) h).2 ⟨?_, ?_⟩⟩
  · exact fun name path hm => (hpaths _ hm).1
  · exact fun name path path' hm hm' => (hpaths _ hm).2 _ hm' rfl

/-- Two services have a method of one name: calls to the first are told of as calls to the
second. -/
theorem not_callsTold : ¬ ∀ (services : List (List MethodDefinition)) (provided : Provided Unit),
    getAction.provideServices (N := ℤ) (fun _ => none) services = .ok provided →
    getAction.CallsTold standIn (granting (.ok ())) provided := by
  intro h
  have ht := h [[getMethod (js "/users/get")], [getMethod (js "/cards/get")]] _ rfl
    (js "/users/get") _ List.mem_cons_self Map.empty [] () rfl _
    (executed_executionOf (granting (.ok ())) _ ())
  have hspan : ([js "handle /cards/get"] : List JsString) = [js "handle " ++ js "/users/get"] :=
    ht.span
  exact absurd hspan (by decide)

end AppActions

end DiiaApp
