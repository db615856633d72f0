import DiiaApp.Js.Json
import Mathlib.Data.List.Forall2
import Mathlib.Order.FixedPoints

/-!
# What a JSON schema admits

A schema is itself a tree: a truth value, or an object whose keywords each ask something of a value.
A name that is no keyword asks nothing. What a reference admits is left open (`refs`), and so is
which numbers are integers; with definitions for the references a schema admits what it does after
finitely many of them (`Valid`).
-/

namespace Validity

open Js

inductive Keyword
  | type
  | enum
  | required
  | properties
  | additionalProperties
  | items
  | anyOf
  | ref
  deriving DecidableEq

def keywords : List (JsString × Keyword) :=
  [(js "type", .type), (js "enum", .enum), (js "required", .required),
    (js "properties", .properties), (js "additionalProperties", .additionalProperties),
    (js "items", .items), (js "anyOf", .anyOf), (js "$ref", .ref)]

def Keyword.ofName (name : JsString) : Option Keyword := Map.find name keywords

@[simp] theorem ofName_type : Keyword.ofName (js "type") = some .type := by decide

@[simp] theorem ofName_enum : Keyword.ofName (js "enum") = some .enum := by decide

@[simp] theorem ofName_required : Keyword.ofName (js "required") = some .required := by decide

@[simp] theorem ofName_properties : Keyword.ofName (js "properties") = some .properties := by decide

@[simp] theorem ofName_additionalProperties :
    Keyword.ofName (js "additionalProperties") = some .additionalProperties := by decide

@[simp] theorem ofName_items : Keyword.ofName (js "items") = some .items := by decide

@[simp] theorem ofName_anyOf : Keyword.ofName (js "anyOf") = some .anyOf := by decide

@[simp] theorem ofName_ref : Keyword.ofName (js "$ref") = some .ref := by decide

/-- The names of all that a schema can ask, the keywords here and others; the rest annotate. -/
def assertions : List JsString :=
  keywords.map Prod.fst ++ ["const", "multipleOf", "maximum", "exclusiveMaximum", "minimum",
    "exclusiveMinimum", "maxLength", "minLength", "pattern", "additionalItems", "prefixItems",
    "unevaluatedItems", "maxItems", "minItems", "uniqueItems", "contains", "maxContains",
    "minContains", "maxProperties", "minProperties", "dependencies", "dependentRequired",
    "dependentSchemas", "patternProperties", "propertyNames", "unevaluatedProperties", "allOf",
    "oneOf", "not", "if", "then", "else", "$dynamicRef"].map js

theorem ofName_eq_none {name : JsString} (h : name ∉ assertions) : Keyword.ofName name = none :=
  Map.find_eq_none.2 fun hn => h (List.mem_append_left _ hn)

variable {N : Type}

def members : Json N → List (JsString × Json N)
  | .obj es => es
  | _ => []

def elements : Json N → List (Json N)
  | .arr xs => xs
  | _ => []

def textOf : Json N → Option JsString
  | .str s => some s
  | _ => none

/-- The texts of a list. -/
def texts (v : Json N) : List JsString := (elements v).filterMap textOf

/-- The schema has properties of the name. -/
def Lists (schema : List (JsString × Json N)) (name : JsString) : Prop :=
  ∃ ps, (js "properties", ps) ∈ schema ∧ name ∈ (members ps).map Prod.fst

variable (integral : N → Prop)

def typeOf : Json N → JsString
  | .null => js "null"
  | .bool _ => js "boolean"
  | .num _ => js "number"
  | .str _ => js "string"
  | .arr _ => js "array"
  | .obj _ => js "object"

def IsOfType (type : JsString) (v : Json N) : Prop :=
  typeOf v = type ∨ (type = js "integer" ∧ ∃ n, v = .num n ∧ integral n)

/-- The value of `type`, a name or a list of them. -/
def MeetsType (s v : Json N) : Prop :=
  match s with
  | .str type => IsOfType integral type v
  | s => ∃ type ∈ texts s, IsOfType integral type v

def HasNames (names : List JsString) : Json N → Prop
  | .obj es => ∀ name ∈ names, name ∈ es.map Prod.fst
  | _ => True

variable (refs : JsString → Json N → Prop)

mutual

def Admits : Json N → Json N → Prop
  | .bool b, _ => b = true
  | .obj es, v => AdmitsAll es es v
  | _, _ => False

/-- Entries of `schema`. -/
def AdmitsAll (schema : List (JsString × Json N)) : List (JsString × Json N) → Json N → Prop
  | [], _ => True
  | (k, s) :: es, v =>
    (match Keyword.ofName k with
      | some .type => MeetsType integral s v
      | some .enum => v ∈ elements s
      | some .required => HasNames (texts s) v
      | some .properties => AdmitsProperties s v
      | some .additionalProperties => ∀ e ∈ members v, ¬ Lists schema e.1 → Admits s e.2
      | some .items => ∀ w ∈ elements v, Admits s w
      | some .anyOf => AdmitsSome s v
      | some .ref => ∃ name, s = .str name ∧ refs name v
      | none => True) ∧ AdmitsAll schema es v

def AdmitsProperties : Json N → Json N → Prop
  | .obj ps, v => AdmitsEntries ps v
  | _, _ => True

def AdmitsEntries : List (JsString × Json N) → Json N → Prop
  | [], _ => True
  | (k, s) :: ps, v => (∀ w, (k, w) ∈ members v → Admits s w) ∧ AdmitsEntries ps v

def AdmitsSome : Json N → Json N → Prop
  | .arr ss, v => AdmitsOneOf ss v
  | _, _ => False

def AdmitsOneOf : List (Json N) → Json N → Prop
  | [], _ => False
  | s :: ss, v => Admits s v ∨ AdmitsOneOf ss v

end

/-- What an entry of a schema asks. -/
def Asks (schema : List (JsString × Json N)) (e : JsString × Json N) (v : Json N) : Prop :=
  match Keyword.ofName e.1 with
  | some .type => MeetsType integral e.2 v
  | some .enum => v ∈ elements e.2
  | some .required => HasNames (texts e.2) v
  | some .properties =>
    ∀ p ∈ members e.2, ∀ w, (p.1, w) ∈ members v → Admits integral refs p.2 w
  | some .additionalProperties =>
    ∀ m ∈ members v, ¬ Lists schema m.1 → Admits integral refs e.2 m.2
  | some .items => ∀ w ∈ elements v, Admits integral refs e.2 w
  | some .anyOf => ∃ s ∈ elements e.2, Admits integral refs s v
  | some .ref => ∃ name, e.2 = .str name ∧ refs name v
  | none => True

variable {integral refs}

theorem admitsEntries_iff {v : Json N} : ∀ {ps : List (JsString × Json N)},
    AdmitsEntries integral refs ps v ↔
      ∀ p ∈ ps, ∀ w, (p.1, w) ∈ members v → Admits integral refs p.2 w
  | [] => by simp [AdmitsEntries]
  | p :: ps => by rw [AdmitsEntries, List.forall_mem_cons, admitsEntries_iff]

theorem admitsOneOf_iff {v : Json N} {ss : List (Json N)} :
    AdmitsOneOf integral refs ss v ↔ ∃ s ∈ ss, Admits integral refs s v := by
  induction ss with
  | nil => simp [AdmitsOneOf]
  | cons s ss ih => rw [AdmitsOneOf, List.exists_mem_cons_iff, ih]

theorem admitsProperties_iff {s v : Json N} : AdmitsProperties integral refs s v ↔
    ∀ p ∈ members s, ∀ w, (p.1, w) ∈ members v → Admits integral refs p.2 w := by
  cases s with
  | obj ps =>
    rw [AdmitsProperties]
    exact admitsEntries_iff
  | _ => simp [AdmitsProperties, members]

theorem admitsSome_iff {s v : Json N} :
    AdmitsSome integral refs s v ↔ ∃ s' ∈ elements s, Admits integral refs s' v := by
  cases s with
  | arr ss =>
    rw [AdmitsSome]
    exact admitsOneOf_iff
  | _ => simp [AdmitsSome, elements]

theorem admitsAll_iff {schema : List (JsString × Json N)} {v : Json N} :
    ∀ {es : List (JsString × Json N)},
      AdmitsAll integral refs schema es v ↔ ∀ e ∈ es, Asks integral refs schema e v
  | [] => by simp [AdmitsAll]
  | e :: es => by
    rw [AdmitsAll, List.forall_mem_cons, admitsAll_iff, Asks]
    simp only [admitsProperties_iff, admitsSome_iff]

/-- A schema asks what each of its entries does. -/
theorem admits_obj {es : List (JsString × Json N)} {v : Json N} :
    Admits integral refs (.obj es) v ↔ ∀ e ∈ es, Asks integral refs es e v := by
  rw [Admits, admitsAll_iff]

/-- What is no keyword can be added and left out. -/
theorem admits_congr {es es' : List (JsString × Json N)} {v : Json N}
    (h : ∀ e, (Keyword.ofName e.1).isSome → (e ∈ es ↔ e ∈ es')) :
    Admits integral refs (.obj es) v ↔ Admits integral refs (.obj es') v := by
  have hlists : Lists es = Lists es' := by
    funext name
    exact propext (exists_congr fun ps => and_congr_left fun _ =>
      h (js "properties", ps) (by rw [ofName_properties]; rfl))
  have hasks : ∀ e, Asks integral refs es e v ↔ Asks integral refs es' e v := by
    intro e
    unfold Asks
    rw [hlists]
  have hnone : ∀ (schema : List (JsString × Json N)) e, (Keyword.ofName e.1).isSome = false →
      Asks integral refs schema e v := by
    intro schema e he
    unfold Asks
    rw [Option.isSome_eq_false_iff.1 he |> Option.isNone_iff_eq_none.1]
    trivial
  rw [admits_obj, admits_obj]
  constructor <;> intro ha e he <;> rcases hk : (Keyword.ofName e.1).isSome
  · exact hnone es' e hk
  · exact (hasks e).1 (ha e ((h e hk).2 he))
  · exact hnone es e hk
  · exact (hasks e).2 (ha e ((h e hk).1 he))

theorem admits_append {es back : List (JsString × Json N)} {v : Json N}
    (h : ∀ e ∈ back, e.1 ∉ assertions) :
    Admits integral refs (.obj (es ++ back)) v ↔ Admits integral refs (.obj es) v := by
  refine admits_congr fun e he => ?_
  rw [List.mem_append, or_iff_left]
  intro hb
  rw [ofName_eq_none (h e hb)] at he
  exact Bool.noConfusion he

theorem admits_type {type : JsString} {v : Json N} :
    Admits integral refs (.obj [(js "type", .str type)]) v ↔ IsOfType integral type v := by
  simp [admits_obj, Asks, MeetsType]

theorem admits_types {types : List JsString} {v : Json N} :
    Admits integral refs (.obj [(js "type", .arr (types.map .str))]) v ↔
      ∃ type ∈ types, IsOfType integral type v := by
  simp [admits_obj, Asks, MeetsType, texts, elements, textOf]

/-- A list of texts admits just these. -/
theorem admits_texts {names : List JsString} {v : Json N} :
    Admits integral refs
      (.obj [(js "type", .str (js "string")), (js "enum", .arr (names.map .str))]) v ↔
        ∃ name ∈ names, v = .str name := by
  have h : IsOfType integral (js "string") v ∧ v ∈ names.map Json.str ↔
      ∃ name ∈ names, v = .str name := by
    rw [List.mem_map]
    constructor
    · rintro ⟨-, name, hn, rfl⟩
      exact ⟨name, hn, rfl⟩
    · rintro ⟨name, hn, rfl⟩
      exact ⟨.inl rfl, name, hn, rfl⟩
  simpa [admits_obj, Asks, MeetsType, elements] using h

theorem isOfType_iff {type : JsString} {v : Json N} (h : type ≠ js "integer") :
    IsOfType integral type v ↔ typeOf v = type := by
  simp [IsOfType, h]

theorem isOfType_array {v : Json N} : IsOfType integral (js "array") v ↔ ∃ xs, v = .arr xs := by
  rw [isOfType_iff (by decide)]
  cases v <;> simp [typeOf] <;> decide

theorem isOfType_object {v : Json N} : IsOfType integral (js "object") v ↔ ∃ es, v = .obj es := by
  rw [isOfType_iff (by decide)]
  cases v <;> simp [typeOf] <;> decide

theorem admits_array {s v : Json N} :
    Admits integral refs (.obj [(js "type", .str (js "array")), (js "items", s)]) v ↔
      ∃ xs, v = .arr xs ∧ ∀ x ∈ xs, Admits integral refs s x := by
  simp only [admits_obj, List.forall_mem_cons, List.not_mem_nil, false_imp_iff, implies_true,
    and_true, Asks, ofName_type, ofName_items, MeetsType, isOfType_array]
  constructor
  · rintro ⟨⟨xs, rfl⟩, h⟩
    exact ⟨xs, rfl, h⟩
  · rintro ⟨xs, rfl, h⟩
    exact ⟨⟨xs, rfl⟩, h⟩

theorem admits_dictionary {s v : Json N} :
    Admits integral refs
      (.obj [(js "type", .str (js "object")), (js "additionalProperties", s)]) v ↔
        ∃ es, v = .obj es ∧ ∀ e ∈ es, Admits integral refs s e.2 := by
  have hl : ∀ name,
      ¬ Lists [(js "type", .str (js "object")), (js "additionalProperties", s)] name := by
    rintro name ⟨ps, hps, -⟩
    have h1 : js "properties" ≠ js "type" := by decide
    have h2 : js "properties" ≠ js "additionalProperties" := by decide
    simp [h1, h2] at hps
  simp only [admits_obj, List.forall_mem_cons, List.not_mem_nil, false_imp_iff, implies_true,
    and_true, Asks, ofName_type, ofName_additionalProperties, MeetsType, isOfType_object, hl,
    not_false_iff, forall_const]
  constructor
  · rintro ⟨⟨es, rfl⟩, h⟩
    exact ⟨es, rfl, h⟩
  · rintro ⟨es, rfl, h⟩
    exact ⟨⟨es, rfl⟩, h⟩

/-- The values of a record have what is required, and what is listed is as it is to be. -/
theorem admits_record {required : List JsString} {ps : List (JsString × Json N)} {v : Json N} :
    Admits integral refs (.obj [(js "required", .arr (required.map .str)),
      (js "type", .str (js "object")), (js "properties", .obj ps)]) v ↔
      ∃ es, v = .obj es ∧ (∀ name ∈ required, name ∈ es.map Prod.fst) ∧
        ∀ p ∈ ps, ∀ w, (p.1, w) ∈ es → Admits integral refs p.2 w := by
  simp only [admits_obj, List.forall_mem_cons, List.not_mem_nil, false_imp_iff, implies_true,
    and_true, Asks, ofName_type, ofName_required, ofName_properties, MeetsType, isOfType_object]
  have ht : texts (.arr (required.map .str) : Json N) = required := by
    simp [texts, elements, List.filterMap_map, Function.comp_def, textOf]
  rw [ht]
  constructor
  · rintro ⟨hr, ⟨es, rfl⟩, h⟩
    exact ⟨es, rfl, hr, h⟩
  · rintro ⟨es, rfl, hr, h⟩
    exact ⟨hr, ⟨es, rfl⟩, h⟩

theorem admits_anyOf {ss : List (Json N)} {v : Json N} :
    Admits integral refs (.obj [(js "anyOf", .arr ss)]) v ↔ ∃ s ∈ ss, Admits integral refs s v := by
  simp [admits_obj, Asks, elements]

section Lists

variable {α β : Type} {R : α → β → Prop} {A : α → Prop} {B : β → Prop} {xs : List α} {ys : List β}

theorem forall_mem_iff (h : List.Forall₂ R xs ys) (hR : ∀ x ∈ xs, ∀ y, R x y → (A x ↔ B y)) :
    (∀ x ∈ xs, A x) ↔ ∀ y ∈ ys, B y := by
  induction h with
  | nil => simp
  | cons hxy _ ih =>
    rw [List.forall_mem_cons] at hR
    rw [List.forall_mem_cons, List.forall_mem_cons, hR.1 _ hxy, ih hR.2]

theorem exists_mem_iff (h : List.Forall₂ R xs ys) (hR : ∀ x y, R x y → (A x ↔ B y)) :
    (∃ x ∈ xs, A x) ↔ ∃ y ∈ ys, B y := by
  induction h with
  | nil => simp
  | cons hxy _ ih => rw [List.exists_mem_cons_iff, List.exists_mem_cons_iff, hR _ _ hxy, ih]

theorem exists_of_mem (h : List.Forall₂ R xs ys) {x : α} (hx : x ∈ xs) : ∃ y ∈ ys, R x y := by
  induction h with
  | nil => exact absurd hx List.not_mem_nil
  | cons hxy _ ih =>
    rcases List.mem_cons.1 hx with rfl | hx
    · exact ⟨_, List.mem_cons_self, hxy⟩
    · exact (ih hx).imp fun y hy => ⟨List.mem_cons_of_mem _ hy.1, hy.2⟩

end Lists

theorem sizeOf_element {xs : List (Json N)} {x : Json N} (h : x ∈ xs) :
    sizeOf x < sizeOf (Json.arr xs) := by
  have hsize := List.sizeOf_lt_of_mem h
  rw [Json.arr.sizeOf_spec]
  omega

theorem sizeOf_member {es : List (JsString × Json N)} {k : JsString} {v : Json N}
    (h : (k, v) ∈ es) : sizeOf v < sizeOf (Json.obj es) := by
  have hsize := List.sizeOf_lt_of_mem h
  rw [Prod.mk.sizeOf_spec] at hsize
  rw [Json.obj.sizeOf_spec]
  omega

/-- Induction on a tree, by the values of its list or of its entries. -/
theorem tree_induction {P : Json N → Prop} (leaf : ∀ v, elements v = [] → members v = [] → P v)
    (arr : ∀ xs, (∀ x ∈ xs, P x) → P (.arr xs)) (obj : ∀ es, (∀ e ∈ es, P e.2) → P (.obj es))
    (v : Json N) : P v := by
  cases v with
  | arr xs => exact arr xs fun x _ => tree_induction leaf arr obj x
  | obj es => exact obj es fun e _ => tree_induction leaf arr obj e.2
  | _ => exact leaf _ rfl rfl
termination_by sizeOf v
decreasing_by
  · exact sizeOf_element ‹_›
  · exact sizeOf_member ‹_›

/-- Where references admit more, so does a schema. -/
theorem Admits.mono {refs' : JsString → Json N → Prop}
    (h : ∀ name v, refs name v → refs' name v) {s v : Json N} :
    Admits integral refs s v → Admits integral refs' s v := by
  let More (s : Json N) : Prop := ∀ v, Admits integral refs s v → Admits integral refs' s v
  -- a keyword has schemas for a value, or below it
  suffices hs : More s ∧ (∀ x ∈ elements s, More x) ∧ ∀ e ∈ members s, More e.2 from hs.1 v
  refine tree_induction (P := fun s => More s ∧ (∀ x ∈ elements s, More x) ∧
    ∀ e ∈ members s, More e.2) (fun s he hm => ?_) (fun xs ih => ?_) (fun es ih => ?_) s
  · refine ⟨fun v hv => ?_, by simp [he], by simp [hm]⟩
    cases s with
    | obj es =>
      obtain rfl : es = [] := hm
      simp [admits_obj]
    | bool b => rwa [Admits] at hv ⊢
    | _ => simp [Admits] at hv
  · exact ⟨fun v hv => by simp [Admits] at hv, fun x hx => (ih x hx).1, by simp [members]⟩
  · refine ⟨fun v hv => ?_, by simp [elements], fun e he => (ih e he).1⟩
    rw [admits_obj] at hv ⊢
    refine fun e he => ?_
    have ha := hv e he
    obtain ⟨hself, hitems, hentries⟩ := ih e he
    unfold Asks at ha ⊢
    split at ha
    · exact ha
    · exact ha
    · exact ha
    · exact fun p hp w hw => hentries p hp w (ha p hp w hw)
    · exact fun m hm hl => hself m.2 (ha m hm hl)
    · exact fun w hw => hself w (ha w hw)
    · exact ha.imp fun x hx => ⟨hx.1, hitems x hx.1 v hx.2⟩
    · exact ha.imp fun name hn => ⟨hn.1, h name v hn.2⟩
    · trivial

/-- What references admit one level further, by what their definitions do. -/
def refer (integral : N → Prop) (defs : JsString → Option (Json N)) :
    (JsString → Json N → Prop) →o (JsString → Json N → Prop) where
  toFun refs name v := ∃ s, defs name = some s ∧ Admits integral refs s v
  monotone' _ _ h _ _ := fun ⟨s, hs, hv⟩ => ⟨s, hs, hv.mono (h · ·)⟩

/-- What the schemas under their names admit. -/
def Defined (integral : N → Prop) (defs : JsString → Option (Json N)) : JsString → Json N → Prop :=
  (refer integral defs).lfp

theorem defined_iff {defs : JsString → Option (Json N)} {name : JsString} {v : Json N} :
    Defined integral defs name v ↔
      ∃ s, defs name = some s ∧ Admits integral (Defined integral defs) s v :=
  iff_of_eq (congrFun₂ (refer integral defs).map_lfp name v).symm

/-- A reference to nothing but itself admits nothing: what holds wherever the definitions make it
hold, holds of what references admit. -/
theorem Defined.induction {defs : JsString → Option (Json N)} {P : JsString → Json N → Prop}
    (h : ∀ name s v, defs name = some s → Admits integral P s v → P name v) {name : JsString}
    {v : Json N} (hv : Defined integral defs name v) : P name v :=
  (refer integral defs).lfp_le (a := P) (fun name v ⟨s, hs, ha⟩ => h name s v hs ha) name v hv

end Validity
