import DiiaApp.Js.Integer
import DiiaApp.Proofs.TypeDescent

/-!
# Types that lead back to themselves

Nothing stops the parser from a type that it is parsing already. In a finite graph of types it ends
just where it comes to no such type (`parseType_ends_iff`).
-/

namespace DiiaApp

open Js Descent LiteralNumber TypeFlags

variable {τ N : Type} [LiteralNumber N]

namespace TypeParser

variable (F : Factory) (G : TsGraph τ N)

/-- None of the types that parsing comes to from `t`, one after the other, is come to again. -/
def NoWayBack (t : τ) : Prop :=
  ∀ u, Relation.ReflTransGen (ComesTo (outline F G)) t u →
    ¬ Relation.TransGen (ComesTo (outline F G)) u u

theorem parseType_ends_iff [Finite τ] (t : τ) :
    (∃ n, parseType F G n t ≠ .error .tooDeep) ↔ NoWayBack F G t := by
  simp only [parseType_eq_eval]
  exact terminates_iff_no_cycle outlines

/-- A type with nothing to it but its flags. -/
def bareType (flags : TypeFlags) : TsType τ N where
  flags := flags
  value := none
  intrinsicName := none
  types := []
  typeArguments := none
  symbol := none
  aliasSymbol := none
  aliasTypeArguments := none
  typeString := []
  isArrayType := false
  isTupleType := false
  numberIndex := none
  stringIndex := none
  properties := []

def plainProperty (name : String) (t : τ) : TsProperty τ where
  name := js name
  declarations := some [⟨false, false⟩]
  typeAtDeclaration := t
  type := none
  documentationComment := []
  jsDocTags := []

/-- An interface of the program's own files. -/
def interfaceType (name : String) (properties : List (TsProperty τ)) : TsType τ N :=
  { bareType {.object} with
    symbol := some ⟨js name, some (js "/src/types.ts"), false⟩
    typeString := js name
    properties := properties }

def stringType : TsType τ N := { bareType {.string} with typeString := js "string" }

/-- `interface Item { name: string }` -/
def nameGraph : TsGraph Bool ℤ
  | true => interfaceType "Item" [plainProperty "name" false]
  | false => stringType

theorem parseType_ends_iff_nameGraph :
    ∃ n, parseType ⟨false, false⟩ nameGraph n true ≠ .error .tooDeep := by
  have hnext : ∀ u v, ComesTo (outline ⟨false, false⟩ nameGraph) u v → u = true ∧ v = false := by
    rintro (_ | _) v ⟨before, goes, after, hrefs, -⟩
    · have hnone : (outline ⟨false, false⟩ nameGraph false).refs = [] := rfl
      simp [hnone] at hrefs
    · have hone : ∃ goes, (outline ⟨false, false⟩ nameGraph true).refs = [(false, goes)] := ⟨_, rfl⟩
      obtain ⟨goes', hone⟩ := hone
      rw [hone] at hrefs
      rcases before with _ | ⟨ref, before⟩ <;> simp at hrefs
      exact ⟨rfl, hrefs.1.1⟩
  refine (parseType_ends_iff _ _ true).2 fun u _ hcycle => ?_
  obtain ⟨v, hv, -⟩ := Relation.TransGen.head'_iff.1 hcycle
  obtain ⟨w, -, hw⟩ := Relation.TransGen.tail'_iff.1 hcycle
  exact absurd ((hnext u v hv).1.symm.trans (hnext w u hw).2) (by decide)

/-- `interface Item { next: Item }` -/
def itemGraph : TsGraph Unit ℤ := fun _ => interfaceType "Item" [plainProperty "next" ()]

/-- The parser never ends from an interface with a property of its own type. -/
theorem parseType_itemGraph : ¬ ∃ n, parseType ⟨false, false⟩ itemGraph n () ≠ .error .tooDeep := by
  have hdeep : ∀ n, parseType ⟨false, false⟩ itemGraph n = fun _ => .error .tooDeep := by
    intro n
    induction n with
    | zero => rfl
    | succ n ih =>
      funext t
      rw [parseType, ih]
      rfl
  rintro ⟨n, hn⟩
  exact hn (by rw [hdeep])

end TypeParser

end DiiaApp
