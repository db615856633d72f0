import DiiaApp.RepositoryFilter
import DiiaApp.TypeParser

/-!
# The response of an action in its class

The compiler plugin goes through the files of actions. To each class with a `handler` it adds a
property that holds the schema of what the handler returns, and goes no further into that class. In
production it does nothing.
-/

namespace DiiaApp

open Js TypeParser

variable {τ N : Type}

/-- What the visitor tells nodes apart by: a method with the return type of its signature, which the
checker knows where it finds one, a decorator, and a property that the factory has made. -/
inductive NodeKind (τ N : Type)
  | methodDeclaration (name : JsString) (returnType : Option τ)
  | decorator
  | propertyDeclaration (name : JsString) (initializer : Node N)
  | other (text : JsString)

/-- A node of a source file. Between the modifiers and the members of a class stand its name, its
type parameters and its heritage clauses. -/
inductive SyntaxNode (τ N : Type)
  | classDeclaration (modifiers heading members : List (SyntaxNode τ N))
  | node (kind : NodeKind τ N) (children : List (SyntaxNode τ N))

/-- `ACTION_RESPONSE` -/
def actionResponse : JsString := js "__actionResponse"

namespace SyntaxNode

def isDecorator : SyntaxNode τ N → Bool
  | .node .decorator _ => true
  | _ => false

/-- `ts.getModifiers`, which leaves out the decorators. -/
def getModifiers (modifiers : List (SyntaxNode τ N)) : List (SyntaxNode τ N) :=
  modifiers.filter fun m => !m.isDecorator

/-- The methods among the members of a class. -/
def classMethods (members : List (SyntaxNode τ N)) : List (JsString × Option τ) :=
  members.filterMap fun
    | .node (.methodDeclaration name returnType) _ => some (name, returnType)
    | _ => none

def addResponseFactory (modifiers heading members : List (SyntaxNode τ N))
    (handlerResponse : Node N) : SyntaxNode τ N :=
  .classDeclaration (getModifiers modifiers) heading
    (members ++ [.node (.propertyDeclaration actionResponse handlerResponse) []])

end SyntaxNode

namespace ActionVisitor

open SyntaxNode

variable (G : TsGraph τ N)

/-- The type that a handler of a return type responds with. -/
def promised (type : τ) : Except ParserError (Option τ) :=
  match (G type).symbol with
  | none => .error .readOfUndefined
  | some symbol =>
    if symbol.name = js "Promise" then .ok ((G type).typeArguments.getD []).head?
    else .ok (some type)

/-- The `responseType` of a class, where it has a handler with a signature and that tells one. -/
def responseType (members : List (SyntaxNode τ N)) : Except ParserError (Option τ) :=
  match (classMethods members).find? fun m => m.1 = js "handler" with
  | some (_, some type) => promised G type
  | _ => .ok none

variable (parse : τ → Parsed (Node N))

mutual

def visitClassNode : SyntaxNode τ N → Parsed (SyntaxNode τ N)
  | .node kind children => do
    let children ← visitNodes children
    return .node kind children
  | .classDeclaration modifiers heading members => do
    match ← Descent.lift (responseType G members) with
    | some type =>
      let handlerResponse ← parse type
      return addResponseFactory modifiers heading members handlerResponse
    | none =>
      -- `ts.visitEachChild`
      let modifiers ← visitNodes modifiers
      let heading ← visitNodes heading
      let members ← visitNodes members
      return .classDeclaration modifiers heading members

def visitNodes : List (SyntaxNode τ N) → Parsed (List (SyntaxNode τ N))
  | [] => return []
  | x :: xs => do
    let x ← visitClassNode x
    let xs ← visitNodes xs
    return x :: xs

end

end ActionVisitor

/-- The parts of a class. -/
structure ClassParts (τ N : Type) where
  modifiers : List (SyntaxNode τ N)
  heading : List (SyntaxNode τ N)
  members : List (SyntaxNode τ N)

/-- The class with a property for its response. -/
def ClassParts.withResponse (c : ClassParts τ N) (handlerResponse : Node N) : ClassParts τ N where
  modifiers := SyntaxNode.getModifiers c.modifiers
  heading := c.heading
  members := c.members ++ [.node (.propertyDeclaration actionResponse handlerResponse) []]

namespace ActionVisitor

variable (G : TsGraph τ N)

mutual

/-- The classes of a tree with a handler that tells a response, the outermost ones. -/
def handlers : SyntaxNode τ N → List (ClassParts τ N)
  | .node _ children => handlersAll children
  | .classDeclaration modifiers heading members =>
    match responseType G members with
    | .ok none => handlersAll modifiers ++ handlersAll heading ++ handlersAll members
    | _ => [⟨modifiers, heading, members⟩]

def handlersAll : List (SyntaxNode τ N) → List (ClassParts τ N)
  | [] => []
  | x :: xs => handlers x ++ handlersAll xs

end

end ActionVisitor

namespace SyntaxNode

/-- The schema that a member holds, if it is a property for one. -/
def response : SyntaxNode τ N → Option (Node N)
  | .node (.propertyDeclaration name initializer) _ =>
    if name = actionResponse then some initializer else none
  | _ => none

mutual

/-- The classes of a tree with a property for their response, and what that holds. -/
def responses : SyntaxNode τ N → List (ClassParts τ N × Node N)
  | .node _ children => responsesAll children
  | .classDeclaration modifiers heading members =>
    (members.filterMap response).map (fun r => (⟨modifiers, heading, members⟩, r)) ++
      responsesAll modifiers ++ responsesAll heading ++ responsesAll members

def responsesAll : List (SyntaxNode τ N) → List (ClassParts τ N × Node N)
  | [] => []
  | x :: xs => responses x ++ responsesAll xs

end

mutual

/-- The tree without the responses of its classes, and without the decorators of these where they
are not to be kept. -/
def erase (keepsDecorators : Bool) : SyntaxNode τ N → SyntaxNode τ N
  | .node kind children => .node kind (eraseAll keepsDecorators children)
  | .classDeclaration modifiers heading members =>
    let modifiers := eraseAll keepsDecorators modifiers
    .classDeclaration (if keepsDecorators then modifiers else getModifiers modifiers)
      (eraseAll keepsDecorators heading)
      ((eraseAll keepsDecorators members).filter fun m => m.response.isNone)

def eraseAll (keepsDecorators : Bool) : List (SyntaxNode τ N) → List (SyntaxNode τ N)
  | [] => []
  | x :: xs => erase keepsDecorators x :: eraseAll keepsDecorators xs

end

end SyntaxNode

/-- A file as it was parsed, the factory having made nothing of it. -/
structure SourceFile (τ N : Type) where
  fileName : JsString
  node : SyntaxNode τ N
  parsed : node.responses = []

namespace SourceFile

def defaultActionsDir : JsString := js "src/actions/"

variable (file : SourceFile τ N) (isProd : Bool)

def isAction : Bool := includes file.fileName defaultActionsDir

def before (G : TsGraph τ N) (parse : τ → Parsed (Node N)) : Parsed (SyntaxNode τ N) :=
  if file.isAction then ActionVisitor.visitClassNode G parse file.node else return file.node

def transformer : Parsed (SyntaxNode τ N) := return file.node

/-- What the plugin does to a file, by whether `NODE_ENV` is that of production. -/
def plugin (G : TsGraph τ N) (parse : τ → Parsed (Node N)) : Parsed (SyntaxNode τ N) :=
  if isProd then file.transformer else file.before G parse

/-- The classes that are to get a response. -/
def asked (G : TsGraph τ N) : List (ClassParts τ N) :=
  if !isProd && file.isAction then ActionVisitor.handlers G file.node else []

end SourceFile

end DiiaApp
