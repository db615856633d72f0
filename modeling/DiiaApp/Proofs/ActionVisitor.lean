import DiiaApp.ActionVisitor
import DiiaApp.Proofs.TypeMeaning
import DiiaApp.Proofs.TypeOutline

/-!
# What the plugin makes of a file

It leaves a file as it was but for the responses of the outermost classes with a handler, and the
decorators of these classes, which get lost (`Visited`).
-/

namespace DiiaApp

open Js TypeParser SyntaxNode

variable {τ N : Type}

namespace SyntaxNode

theorem induction {P : SyntaxNode τ N → Prop}
    (node : ∀ kind children, (∀ x ∈ children, P x) → P (.node kind children))
    (classDeclaration : ∀ modifiers heading members, (∀ x ∈ modifiers, P x) →
      (∀ x ∈ heading, P x) → (∀ x ∈ members, P x) →
      P (.classDeclaration modifiers heading members)) (x : SyntaxNode τ N) : P x := by
  cases x with
  | node kind children =>
    exact node kind children fun y _ => induction node classDeclaration y
  | classDeclaration modifiers heading members =>
    exact classDeclaration modifiers heading members
      (fun y _ => induction node classDeclaration y)
      (fun y _ => induction node classDeclaration y)
      fun y _ => induction node classDeclaration y

variable {k : Bool}

theorem eraseAll_eq (xs : List (SyntaxNode τ N)) : eraseAll k xs = xs.map (erase k) := by
  induction xs with
  | nil => rfl
  | cons x xs ih => rw [eraseAll, ih, List.map_cons]

theorem responsesAll_eq (xs : List (SyntaxNode τ N)) : responsesAll xs = xs.flatMap responses := by
  induction xs with
  | nil => rfl
  | cons x xs ih => rw [responsesAll, ih, List.flatMap_cons]

@[simp] theorem isDecorator_erase (x : SyntaxNode τ N) :
    (erase k x).isDecorator = x.isDecorator := by
  rcases x with _ | ⟨kind, _⟩
  · rfl
  · cases kind <;> rfl

/-- Without their decorators modifiers are as they were where they had none. -/
theorem getModifiers_of_none {xs : List (SyntaxNode τ N)}
    (h : ∀ m ∈ xs, m.isDecorator = false) : getModifiers xs = xs :=
  List.filter_eq_self.2 fun m hm => by rw [h m hm]; rfl

theorem getModifiers_eraseAll (xs : List (SyntaxNode τ N)) :
    getModifiers (eraseAll k xs) = eraseAll k (getModifiers xs) := by
  rw [eraseAll_eq, eraseAll_eq, getModifiers, getModifiers, List.filter_map]
  congr 2
  exact funext fun m => congrArg (!·) (isDecorator_erase m)

theorem getModifiers_idem (xs : List (SyntaxNode τ N)) :
    getModifiers (getModifiers xs) = getModifiers xs := by
  simp only [getModifiers, List.filter_filter, Bool.and_self]

/-- A class has got a response, and has lost no modifier that is to be kept. -/
theorem erase_addResponseFactory {modifiers heading members : List (SyntaxNode τ N)} {r : Node N}
    (h : k = true → ∀ m ∈ modifiers, m.isDecorator = false) :
    erase k (addResponseFactory modifiers heading members r) =
      erase k (.classDeclaration modifiers heading members) := by
  have hmembers : (eraseAll k (members ++ [.node (.propertyDeclaration actionResponse r) []])).filter
      (fun m => m.response.isNone) = (eraseAll k members).filter fun m => m.response.isNone := by
    rw [eraseAll_eq, eraseAll_eq, List.map_append, List.filter_append]
    exact List.append_nil _
  rw [addResponseFactory, erase, erase, hmembers]
  cases k with
  | false => simp only [getModifiers_eraseAll, getModifiers_idem, Bool.false_eq_true, if_false]
  | true => rw [getModifiers_of_none (h rfl)]

/-- Where nothing has been added, nothing is to be taken away. -/
theorem erase_of_parsed (x : SyntaxNode τ N) (h : responses x = []) : erase true x = x := by
  have hall : ∀ xs : List (SyntaxNode τ N), (∀ x ∈ xs, responses x = [] → erase true x = x) →
      responsesAll xs = [] → eraseAll true xs = xs := by
    intro xs ih hr
    rw [responsesAll_eq, List.flatMap_eq_nil_iff] at hr
    rw [eraseAll_eq]
    exact (List.map_congr_left fun x hx => ih x hx (hr x hx)).trans (List.map_id _)
  induction x using SyntaxNode.induction with
  | node kind children ih => rw [erase, hall children ih h]
  | classDeclaration modifiers heading members hm hh hb =>
    rw [responses, List.append_eq_nil_iff, List.append_eq_nil_iff, List.append_eq_nil_iff,
      List.map_eq_nil_iff] at h
    obtain ⟨⟨⟨hown, hrm⟩, hrh⟩, hrb⟩ := h
    rw [erase, hall modifiers hm hrm, hall heading hh hrh, hall members hb hrb]
    congr 1
    exact List.filter_eq_self.2 fun m hmem => by
      rw [List.filterMap_eq_nil_iff.1 hown m hmem]
      rfl

end SyntaxNode

namespace ActionVisitor

variable {G : TsGraph τ N} {parse : τ → Parsed (Node N)}

theorem handlersAll_eq (xs : List (SyntaxNode τ N)) :
    handlersAll G xs = xs.flatMap (handlers G) := by
  induction xs with
  | nil => rfl
  | cons x xs ih => rw [handlersAll, ih, List.flatMap_cons]

theorem visitNodes_eq (xs : List (SyntaxNode τ N)) :
    visitNodes G parse xs = xs.mapM (visitClassNode G parse) := by
  induction xs with
  | nil => rfl
  | cons x xs ih => rw [visitNodes, List.mapM_cons, ih]

variable (G parse) in
/-- A class whose response has a schema. -/
def Answers (c : ClassParts τ N) : Prop :=
  ∃ t r, responseType G c.members = .ok (some t) ∧ parse t = .ok r

theorem succeeds_visitNodes {xs : List (SyntaxNode τ N)}
    (h : ∀ x ∈ xs, Succeeds (visitClassNode G parse x) ↔ ∀ c ∈ handlers G x, Answers G parse c) :
    Succeeds (visitNodes G parse xs) ↔ ∀ c ∈ handlersAll G xs, Answers G parse c := by
  rw [visitNodes_eq, succeeds_mapM, handlersAll_eq, forall₂_congr h]
  simp only [List.mem_flatMap]
  exact ⟨fun h c ⟨x, hx, hc⟩ => h x hx c hc, fun h x hx c hc => h c ⟨x, hx, hc⟩⟩

theorem succeeds_visitClassNode (x : SyntaxNode τ N) :
    Succeeds (visitClassNode G parse x) ↔ ∀ c ∈ handlers G x, Answers G parse c := by
  induction x using SyntaxNode.induction with
  | node kind children ih =>
    rw [visitClassNode, succeeds_bind, handlers, ← succeeds_visitNodes ih]
    exact exists_congr fun _ => and_iff_left ⟨_, rfl⟩
  | classDeclaration modifiers heading members hm hh hb =>
    rw [visitClassNode, succeeds_bind, handlers]
    simp only [Descent.lift_eq_ok]
    rcases ht : responseType G members with err | _ | t
    · simp [Answers, ht]
    · simp only [Except.ok.injEq, exists_eq_left', List.forall_mem_append, ← succeeds_visitNodes hm,
        ← succeeds_visitNodes hh, ← succeeds_visitNodes hb, succeeds_bind]
      constructor
      · rintro ⟨ms, hms, hs, hhs, bs, hbs, -⟩
        exact ⟨⟨⟨ms, hms⟩, hs, hhs⟩, bs, hbs⟩
      · rintro ⟨⟨⟨ms, hms⟩, hs, hhs⟩, bs, hbs⟩
        exact ⟨ms, hms, hs, hhs, bs, hbs, _, rfl⟩
    · simp only [Except.ok.injEq, exists_eq_left', List.forall_mem_singleton, Answers, ht,
        succeeds_bind]
      constructor
      · rintro ⟨r, hr, -⟩
        exact ⟨t, r, rfl, hr⟩
      · rintro ⟨t', r, he, hr⟩
        obtain rfl := Option.some.inj he
        exact ⟨r, hr, _, rfl⟩

/-- The classes have no decorators. -/
def Undecorated (cs : List (ClassParts τ N)) : Prop :=
  ∀ c ∈ cs, ∀ m ∈ c.modifiers, m.isDecorator = false

variable (G parse) in
/-- What has been added for a class. -/
def AddedFor (c : ClassParts τ N) (a : ClassParts τ N × Node N) : Prop :=
  a.1 = c.withResponse a.2 ∧ ∃ t, responseType G c.members = .ok (some t) ∧ parse t = .ok a.2

variable (G parse) in
/-- What the visitor makes of a tree. -/
structure Visited (x y : SyntaxNode τ N) : Prop where
  response : y.response = x.response
  erased : ∀ k : Bool, (k = true → Undecorated (handlers G x)) → erase k y = erase k x
  added : responses x = [] → List.Forall₂ (AddedFor G parse) (handlers G x) (responses y)

variable (G parse) in
structure VisitedAll (xs ys : List (SyntaxNode τ N)) : Prop where
  response : ys.filterMap SyntaxNode.response = xs.filterMap SyntaxNode.response
  erased : ∀ k : Bool, (k = true → Undecorated (handlersAll G xs)) → eraseAll k ys = eraseAll k xs
  added : responsesAll xs = [] →
    List.Forall₂ (AddedFor G parse) (handlersAll G xs) (responsesAll ys)

theorem visitNodes_visited {xs : List (SyntaxNode τ N)} : ∀ {ys : List (SyntaxNode τ N)},
    (∀ x ∈ xs, ∀ y, visitClassNode G parse x = .ok y → Visited G parse x y) →
    visitNodes G parse xs = .ok ys → VisitedAll G parse xs ys := by
  induction xs with
  | nil =>
    intro ys _ h
    obtain rfl := Except.ok.inj h
    exact ⟨rfl, fun _ _ => rfl, fun _ => .nil⟩
  | cons x xs ih =>
    intro ys hx h
    rw [List.forall_mem_cons] at hx
    rw [visitNodes, bind_eq_ok] at h
    obtain ⟨y, hy, h⟩ := h
    obtain ⟨zs, hzs, h⟩ := bind_eq_ok.1 h
    obtain rfl := Except.ok.inj h
    have hv := hx.1 y hy
    have hvs := ih hx.2 hzs
    refine ⟨?_, fun k hu => ?_, fun hr => ?_⟩
    · simp only [List.filterMap_cons, hv.response, hvs.response]
    · simp only [handlersAll, Undecorated, List.forall_mem_append] at hu
      rw [eraseAll, eraseAll, hv.erased k fun hk => (hu hk).1, hvs.erased k fun hk => (hu hk).2]
    · rw [responsesAll, List.append_eq_nil_iff] at hr
      exact List.rel_append (hv.added hr.1) (hvs.added hr.2)

/-- Nothing has been added below a class that the visitor does not go into. -/
theorem responses_addResponseFactory {modifiers heading members : List (SyntaxNode τ N)}
    (h : responses (.classDeclaration modifiers heading members) = []) (r : Node N) :
    responses (addResponseFactory modifiers heading members r) =
      [((⟨modifiers, heading, members⟩ : ClassParts τ N).withResponse r, r)] := by
  rw [responses, List.append_eq_nil_iff, List.append_eq_nil_iff, List.append_eq_nil_iff,
    List.map_eq_nil_iff, responsesAll_eq, List.flatMap_eq_nil_iff, responsesAll_eq,
    responsesAll_eq] at h
  obtain ⟨⟨⟨hown, hm⟩, hh⟩, hb⟩ := h
  have hmods : (getModifiers modifiers).flatMap responses = [] :=
    List.flatMap_eq_nil_iff.2 fun m hmem => hm m (List.mem_of_mem_filter hmem)
  rw [addResponseFactory, responses, responsesAll_eq, responsesAll_eq, responsesAll_eq, hmods, hh,
    List.flatMap_append, hb, List.filterMap_append, hown]
  rfl

theorem visitClassNode_visited (x : SyntaxNode τ N) :
    ∀ y, visitClassNode G parse x = .ok y → Visited G parse x y := by
  induction x using SyntaxNode.induction with
  | node kind children ih =>
    intro y h
    rw [visitClassNode, bind_eq_ok] at h
    obtain ⟨ys, hys, h⟩ := h
    obtain rfl := Except.ok.inj h
    have hv := visitNodes_visited ih hys
    refine ⟨?_, fun k hu => ?_, fun hr => hv.added hr⟩
    · cases kind <;> rfl
    · rw [erase, erase, hv.erased k hu]
  | classDeclaration modifiers heading members hm hh hb =>
    intro y h
    rw [visitClassNode, bind_eq_ok] at h
    obtain ⟨t, ht, h⟩ := h
    rw [Descent.lift_eq_ok] at ht
    cases t with
    | none =>
      obtain ⟨ms, hms, h⟩ := bind_eq_ok.1 h
      obtain ⟨hs, hhs, h⟩ := bind_eq_ok.1 h
      obtain ⟨bs, hbs, h⟩ := bind_eq_ok.1 h
      obtain rfl := Except.ok.inj h
      have hm := visitNodes_visited hm hms
      have hh := visitNodes_visited hh hhs
      have hb := visitNodes_visited hb hbs
      have hhandlers : handlers G (.classDeclaration modifiers heading members) =
          handlersAll G modifiers ++ handlersAll G heading ++ handlersAll G members := by
        rw [handlers, ht]
      refine ⟨rfl, fun k hu => ?_, fun hr => ?_⟩
      · simp only [hhandlers, Undecorated, List.forall_mem_append] at hu
        rw [erase, erase, hm.erased k fun hk => (hu hk).1.1, hh.erased k fun hk => (hu hk).1.2,
          hb.erased k fun hk => (hu hk).2]
      · rw [responses, List.append_eq_nil_iff, List.append_eq_nil_iff, List.append_eq_nil_iff,
          List.map_eq_nil_iff] at hr
        obtain ⟨⟨⟨hown, hrm⟩, hrh⟩, hrb⟩ := hr
        rw [hhandlers, responses, hb.response, hown]
        exact List.rel_append (List.rel_append (hm.added hrm) (hh.added hrh)) (hb.added hrb)
    | some t =>
      obtain ⟨r, hr, h⟩ := bind_eq_ok.1 h
      obtain rfl := Except.ok.inj h
      have hhandlers : handlers G (.classDeclaration modifiers heading members) =
          [⟨modifiers, heading, members⟩] := by
        rw [handlers, ht]
      refine ⟨rfl, fun k hu => ?_, fun hno => ?_⟩
      · rw [hhandlers] at hu
        exact erase_addResponseFactory fun hk => hu hk _ (List.mem_singleton_self _)
      · rw [hhandlers, responses_addResponseFactory hno]
        exact .cons ⟨rfl, t, ht, hr⟩ .nil

end ActionVisitor

open ActionVisitor Shapes Validity

variable {G : TsGraph τ N} [LiteralNumber N] {F : Factory} {n : ℕ}

end DiiaApp
