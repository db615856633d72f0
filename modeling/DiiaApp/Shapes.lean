import DiiaApp.Js.Json

/-!
# Shapes of types

The shape of a type says what the trees of the type are made of: scalars of some kinds, given
texts, the elements of an array, the values of an object, its fields, or what any of some types has.
A shape refers to other types, so that types may lead back to themselves; a tree is of a type where
finitely many shapes say so (`HasType`), and it is just where its own shape holds of it
(`hasType_iff`).
-/

namespace Shapes

open Js

variable {κ τ N : Type}

structure RecordField (τ : Type) where
  name : JsString
  required : Bool
  type : τ

inductive Shape (κ τ : Type)
  | scalars (kinds : List κ)
  | literals (texts : List JsString)
  | array (element : τ)
  | dictionary (value : τ)
  | record (fields : List (RecordField τ))
  | union (boolean : Bool) (members : List τ)

def Shape.refs : Shape κ τ → List τ
  | scalars _ => []
  | literals _ => []
  | array element => [element]
  | dictionary value => [value]
  | record fields => fields.map RecordField.type
  | union _ members => members

variable (scalar : κ → Json N → Prop)

/-- The values of a shape, by the values of the types it refers to. -/
def Shape.Holds (P : τ → Json N → Prop) : Shape κ τ → Json N → Prop
  | scalars kinds, v => ∃ k ∈ kinds, scalar k v
  | literals texts, v => ∃ s ∈ texts, v = .str s
  | array element, v => ∃ xs, v = .arr xs ∧ ∀ x ∈ xs, P element x
  | dictionary value, v => ∃ es, v = .obj es ∧ ∀ e ∈ es, P value e.2
  | record fields, v => ∃ es, v = .obj es ∧
      (∀ f ∈ fields, f.required → f.name ∈ es.map Prod.fst) ∧
      ∀ f ∈ fields, ∀ w, (f.name, w) ∈ es → P f.type w
  | union boolean members, v => (boolean ∧ ∃ b, v = .bool b) ∨ ∃ u ∈ members, P u v

/-- The values of a type, by the shapes of types. -/
inductive HasType (shape : τ → Shape κ τ) : τ → Json N → Prop
  | scalar {t : τ} {kinds : List κ} {k : κ} {v : Json N} (ht : shape t = .scalars kinds)
    (hk : k ∈ kinds) (hv : scalar k v) : HasType shape t v
  | literal {t : τ} {texts : List JsString} {s : JsString} (ht : shape t = .literals texts)
    (hs : s ∈ texts) : HasType shape t (.str s)
  | array {t element : τ} {xs : List (Json N)} (ht : shape t = .array element)
    (hxs : ∀ x ∈ xs, HasType shape element x) : HasType shape t (.arr xs)
  | dictionary {t value : τ} {es : List (JsString × Json N)} (ht : shape t = .dictionary value)
    (hes : ∀ e ∈ es, HasType shape value e.2) : HasType shape t (.obj es)
  | record {t : τ} {fields : List (RecordField τ)} {es : List (JsString × Json N)}
    (ht : shape t = .record fields)
    (required : ∀ f ∈ fields, f.required → f.name ∈ es.map Prod.fst)
    (hes : ∀ f ∈ fields, ∀ w, (f.name, w) ∈ es → HasType shape f.type w) : HasType shape t (.obj es)
  | boolean {t : τ} {members : List τ} {b : Bool} (ht : shape t = .union true members) :
    HasType shape t (.bool b)
  | member {t u : τ} {boolean : Bool} {members : List τ} {v : Json N}
    (ht : shape t = .union boolean members) (hu : u ∈ members) (hv : HasType shape u v) :
    HasType shape t v

variable {scalar}

theorem hasType_iff {shape : τ → Shape κ τ} {t : τ} {v : Json N} :
    HasType scalar shape t v ↔ (shape t).Holds scalar (HasType scalar shape) v := by
  constructor
  · intro h
    cases h with
    | scalar ht hs hv =>
      rw [ht]
      exact ⟨_, hs, hv⟩
    | literal ht hs =>
      rw [ht]
      exact ⟨_, hs, rfl⟩
    | array ht hxs =>
      rw [ht]
      exact ⟨_, rfl, hxs⟩
    | dictionary ht hes =>
      rw [ht]
      exact ⟨_, rfl, hes⟩
    | record ht required hes =>
      rw [ht]
      exact ⟨_, rfl, required, hes⟩
    | boolean ht =>
      rw [ht]
      exact Or.inl ⟨rfl, _, rfl⟩
    | member ht hu hv =>
      rw [ht]
      exact Or.inr ⟨_, hu, hv⟩
  · intro h
    rcases ht : shape t with ss | texts | e | u | fields | ⟨b, us⟩ <;> rw [ht] at h
    · obtain ⟨s, hs, hv⟩ := h
      exact .scalar ht hs hv
    · obtain ⟨s, hs, rfl⟩ := h
      exact .literal ht hs
    · obtain ⟨xs, rfl, hxs⟩ := h
      exact .array ht hxs
    · obtain ⟨es, rfl, hes⟩ := h
      exact .dictionary ht hes
    · obtain ⟨es, rfl, hr, hes⟩ := h
      exact .record ht hr hes
    · obtain ⟨hb, c, rfl⟩ | ⟨u, hu, hv⟩ := h
      · exact .boolean (hb ▸ ht)
      · exact .member ht hu hv

end Shapes
