import DiiaApp.ServiceMethods

/-!
# Actions over Moleculer

`MoleculerService` gives the broker a schema of each action under its command, which is made of the
name and the version of the action. How it is made is left to a function of `utils`.
-/

namespace DiiaApp

open Js

variable {ι N : Type}

/-- What the service reads of the actions. -/
structure MoleculerActions (ι N : Type) extends AppActions ι where
  hasGetLockResource : ι → Bool
  validationRules : ι → Option (Value N)
  actionResponse : ι → Value N

/-- The schema of an action: which action the handler executes, and what else it has outside
production, `ACTION_PARAMS` and `ACTION_RESPONSE`. -/
structure ActionSchema (ι N : Type) where
  handler : ι
  described : Option (Value N × Value N)

/-- Whether there is a `redlock`, and whether the environment is that of production. -/
structure MoleculerConfig where
  redlock : Bool
  isProd : Bool

namespace MoleculerActions

variable (a : MoleculerActions ι N) (config : MoleculerConfig)

def actionParams (action : ι) : Value N :=
  match a.validationRules action with
  | some rules =>
    .obj [(js "params", .obj [(js "type", .str (js "object")), (js "props", rules)])]
  | none => .obj []

def addAction (action : ι) : Except (Thrown N) (ActionSchema ι N) :=
  if a.hasGetLockResource action && !config.redlock then
    throwNative .error (js "Lock resource cannot be used without a redlock service")
  else if config.isProd then .ok ⟨action, none⟩
  else .ok ⟨action, some (a.actionParams action, a.actionResponse action)⟩

variable (getActionNameWithVersion : JsString → Option ActionVersion → JsString)

/-- One turn of the loop of `createActions`. -/
def createAction (serviceActions : Js.Map JsString (ActionSchema ι N)) (action : ι) :
    Except (Thrown N) (Js.Map JsString (ActionSchema ι N)) :=
  (a.addAction config action).map fun schema =>
    serviceActions.set (getActionNameWithVersion (a.name action) (a.actionVersion action)) schema

def createActions : Except (Thrown N) (Js.Map JsString (ActionSchema ι N)) :=
  a.actionList.foldlM (a.createAction config getActionNameWithVersion) .empty

end MoleculerActions

end DiiaApp
