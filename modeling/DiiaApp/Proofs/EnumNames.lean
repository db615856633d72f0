import DiiaApp.Js.Integer
import DiiaApp.RequestBody

/-!
# Names of enum values in a body

`withNumbers` puts the numbers of enum values in the place of their names, wherever the type of the
body has an enum. `convertEnumValues` takes a map field for a field of the type of its values, and
with it what is under a key for a value of the field of that name. It comes to the same just where
every name stands under an enum that has it for both (`convertEnumValues_iff`).
-/

namespace DiiaApp

open Js
open ActionExecutor (spread)

variable {N τ : Type} (G : TypeGraph N τ)

/-! ## What a body is to become -/

/-- A value of a field: an enum value is a number or a declared name, numbers and booleans are no
strings, and a message has properties of its fields only. -/
inductive HasShape (G : TypeGraph N τ) : TypedField N τ → Value N → Prop
  | number {type : JsString} (h : type ∈ numericTypes) (n : N) :
      HasShape G ⟨.singular, .scalar type⟩ (.num n)
  | bool (b : Bool) : HasShape G ⟨.singular, .scalar (js "bool")⟩ (.bool b)
  | text {type : JsString} (h : type ∈ [js "string", js "bytes"]) (s : JsString) :
      HasShape G ⟨.singular, .scalar type⟩ (.str s)
  | enumValue (e : EnumType N) (n : N) : HasShape G ⟨.singular, .enum e⟩ (.num n)
  | enumName {e : EnumType N} {s : JsString} {n : N} (h : e.values.get s = some n) :
      HasShape G ⟨.singular, .enum e⟩ (.str s)
  | message {type : τ} {es : List (JsString × Value N)} (nodup : (es.map Prod.fst).Nodup)
      (declared : ∀ e ∈ es, (G.fields type).has e.1)
      (inner : ∀ e ∈ es, ∀ field, (G.fields type).get e.1 = some field → HasShape G field e.2) :
      HasShape G ⟨.singular, .message type⟩ (.obj es)
  | repeated {type : ResolvedType N τ} {xs : List (Value N)}
      (inner : ∀ x ∈ xs, HasShape G ⟨.singular, type⟩ x) : HasShape G ⟨.repeated, type⟩ (.arr xs)
  | map {keyType : JsString} {type : ResolvedType N τ} {es : List (JsString × Value N)}
      (nodup : (es.map Prod.fst).Nodup) (inner : ∀ e ∈ es, HasShape G ⟨.singular, type⟩ e.2) :
      HasShape G ⟨.map keyType, type⟩ (.obj es)

/-- What the elements of an array are values of. -/
def itemField : Option (TypedField N τ) → Option (TypedField N τ)
  | some ⟨.repeated, type⟩ => some ⟨.singular, type⟩
  | _ => none

/-- What a property of an object is a value of, in a map one of the map's type. -/
def propertyField (field : Option (TypedField N τ)) (k : JsString) : Option (TypedField N τ) :=
  match field with
  | some ⟨.map _, type⟩ => some ⟨.singular, type⟩
  | some ⟨.singular, .message type⟩ => (G.fields type).get k
  | _ => none

/-- The number of an enum value under its declared name. -/
def enumNumber (field : Option (TypedField N τ)) (s : JsString) : Value N :=
  match field with
  | some ⟨.singular, .enum e⟩ => ((e.values.get s).map .num).getD (.str s)
  | _ => .str s

mutual

/-- A value of a field with the numbers of enum values for their names. -/
def withNumbers (field : Option (TypedField N τ)) : Value N → Value N
  | .str s => enumNumber field s
  | .arr xs => .arr (withNumbersEach (itemField field) xs)
  | .obj es => .obj (withNumbersIn (propertyField G field) es)
  | v => v

def withNumbersEach (field : Option (TypedField N τ)) : List (Value N) → List (Value N)
  | [] => []
  | x :: xs => withNumbers field x :: withNumbersEach field xs

def withNumbersIn (field : JsString → Option (TypedField N τ)) :
    List (JsString × Value N) → List (JsString × Value N)
  | [] => []
  | (k, x) :: es => (k, withNumbers (field k) x) :: withNumbersIn field es

end

/-! ## What the walk reads -/

/-- What the walk takes the elements of an array for. -/
def itemRead : Option (TypedField N τ) → Option (TypedField N τ)
  | some ⟨.repeated, .enum e⟩ => some ⟨.singular, .enum e⟩
  | some ⟨.repeated, .message type⟩ => some ⟨.singular, .message type⟩
  | _ => none

/-- What it takes a property for: a field of the message type, also in a map. -/
def propertyRead (field : Option (TypedField N τ)) (k : JsString) : Option (TypedField N τ) :=
  match field with
  | some ⟨_, .message type⟩ => (G.fields type).get k
  | _ => none

/-- An array is taken for a message. -/
def takenForMessage : Option (TypedField N τ) → Bool
  | some ⟨label, .message _⟩ => label ≠ .repeated
  | _ => false

/-- The properties that are missing and that every object inherits, of the fields that are not
scalar. -/
def inheritedOf (fields : List (JsString × TypedField N τ)) (es : List (JsString × Value N)) :
    List (JsString × TypedField N τ) :=
  fields.filter fun e =>
    e.1 ∈ inheritedNames ∧ e.2.type.isScalar = false ∧ e.1 ∉ es.map Prod.fst

/-- Those of a message, or of what is taken for one. -/
def inheritedBy (field : Option (TypedField N τ)) (es : List (JsString × Value N)) :
    List (JsString × TypedField N τ) :=
  match field with
  | some ⟨_, .message type⟩ => inheritedOf (G.fields type).entries es
  | _ => []

variable (number : JsString → Option N)

/-- A string under a field that is taken for the number `n`. -/
def TakenForNumber (s : JsString) (n : N) : Option (TypedField N τ) → Prop
  | some ⟨_, .enum e⟩ => e.value s = some (.num n)
  | some ⟨_, .scalar type⟩ => type ∈ numericTypes ∧ number s = some n
  | _ => False

/-- A string under a field that is taken for itself. -/
def TakenForText (s : JsString) : Option (TypedField N τ) → Prop
  | some ⟨_, .enum e⟩ => ∀ v, e.value s = some v → v = .str s
  | some ⟨_, .scalar type⟩ => type ≠ js "bool" ∧ (type ∈ numericTypes → number s = none)
  | _ => True

/-- The walk that takes a value of a field for one of `read` goes well: each name of an enum value
stands where its number is read, each text where it is let be, no array where there should be a
message, and nothing is inherited. -/
inductive WellRead : Option (TypedField N τ) → TypedField N τ → Value N → Prop
  | number {read : Option (TypedField N τ)} {field : TypedField N τ} (n : N) :
      WellRead read field (.num n)
  | bool {read : Option (TypedField N τ)} {field : TypedField N τ} (b : Bool) :
      WellRead read field (.bool b)
  | text {read : Option (TypedField N τ)} {type s : JsString} (h : TakenForText number s read) :
      WellRead read ⟨.singular, .scalar type⟩ (.str s)
  | enumName {read : Option (TypedField N τ)} {e : EnumType N} {s : JsString} {n : N}
      (hn : e.values.get s = some n) (h : TakenForNumber number s n read) :
      WellRead read ⟨.singular, .enum e⟩ (.str s)
  | message {read : Option (TypedField N τ)} {type : τ} {es : List (JsString × Value N)}
      (h : inheritedBy G read es = [])
      (inner : ∀ e ∈ es, ∀ field, (G.fields type).get e.1 = some field →
        WellRead (propertyRead G read e.1) field e.2) :
      WellRead read ⟨.singular, .message type⟩ (.obj es)
  | repeated {read : Option (TypedField N τ)} {type : ResolvedType N τ} {xs : List (Value N)}
      (h : takenForMessage read = false)
      (inner : ∀ x ∈ xs, WellRead (itemRead read) ⟨.singular, type⟩ x) :
      WellRead read ⟨.repeated, type⟩ (.arr xs)
  | map {read : Option (TypedField N τ)} {keyType : JsString} {type : ResolvedType N τ}
      {es : List (JsString × Value N)} (h : inheritedBy G read es = [])
      (inner : ∀ e ∈ es, WellRead (propertyRead G read e.1) ⟨.singular, type⟩ e.2) :
      WellRead read ⟨.map keyType, type⟩ (.obj es)

/-- No object in a value has a key twice. -/
inductive KeysOnce : Value N → Prop
  | leaf {v : Value N} (h : isObject v = false) : KeysOnce v
  | arr {xs : List (Value N)} (inner : ∀ x ∈ xs, KeysOnce x) : KeysOnce (.arr xs)
  | obj {es : List (JsString × Value N)} (nodup : (es.map Prod.fst).Nodup)
    (inner : ∀ e ∈ es, KeysOnce e.2) : KeysOnce (.obj es)

section Lists

variable {G number}

theorem withNumbersEach_eq (field : Option (TypedField N τ)) :
    ∀ xs, withNumbersEach G field xs = xs.map (withNumbers G field)
  | [] => rfl
  | x :: xs => by rw [withNumbersEach, List.map_cons, withNumbersEach_eq field xs]

theorem withNumbersIn_eq (field : JsString → Option (TypedField N τ)) :
    ∀ es, withNumbersIn G field es = es.map fun e => (e.1, withNumbers G (field e.1) e.2)
  | [] => rfl
  | (k, x) :: es => by rw [withNumbersIn, List.map_cons, withNumbersIn_eq field es]

theorem bodyDepth_le_items {x : Value N} : ∀ {xs : List (Value N)}, x ∈ xs →
    bodyDepth x ≤ itemsDepth xs
  | y :: ys, h => by
    rw [itemsDepth]
    rcases List.mem_cons.1 h with rfl | h
    · exact Nat.le_max_left ..
    · exact (bodyDepth_le_items h).trans (Nat.le_max_right ..)

theorem bodyDepth_le_entries {e : JsString × Value N} : ∀ {es : List (JsString × Value N)}, e ∈ es →
    bodyDepth e.2 ≤ entriesDepth es
  | (k, y) :: es, h => by
    rw [entriesDepth]
    rcases List.mem_cons.1 h with rfl | h
    · exact Nat.le_max_left ..
    · exact (bodyDepth_le_entries h).trans (Nat.le_max_right ..)

end Lists

/-! ## The loop on the fields -/

/-- What the walk makes of a string. -/
def stringRead (field : Option (TypedField N τ)) (s : JsString) : Value N :=
  match field with
  | some ⟨_, .scalar type⟩ => coerceScalar number type s
  | some ⟨_, .enum e⟩ => (e.value s).getD (.str s)
  | _ => .str s

/-- What the walk makes of a value that it takes for one of a field, or passes over. -/
def readValue (fuel : ℕ) (read : Option (TypedField N τ)) (v : Value N) : Value N :=
  match read with
  | some field => convertFieldValue number (convertLevels G number fuel) field v
  | none => v

section Walk

variable {G number} {fuel : ℕ}

theorem convertEach_of_ne {label : Label} {convert : Value N → Value N} (h : label ≠ .repeated) :
    ∀ v, convertEach label convert v = convert v
  | .arr _ => if_neg h
  | .undefined | .null | .bool _ | .num _ | .bigint _ | .str _ | .obj _ | .cycle => rfl

theorem convertLevels_leaf (type : τ) {v : Value N} (h : isObject v = false) :
    convertLevels G number fuel type v = v := by
  cases fuel with
  | zero => rfl
  | succ fuel => rw [convertLevels, h, if_neg Bool.false_ne_true]

theorem readValue_str (read : Option (TypedField N τ)) (s : JsString) :
    readValue G number fuel read (.str s) = stringRead number read s := by
  rcases read with _ | ⟨label, _ | e | type⟩
  · rfl
  · rfl
  · rfl
  · exact convertLevels_leaf type rfl

theorem convertEach_leaf (label : Label) (convert : Value N → Value N) {v : Value N}
    (h : isObject v = false) : convertEach label convert v = convert v := by
  cases v <;> first | rfl | simp [isObject] at h

theorem readValue_leaf (read : Option (TypedField N τ)) {v : Value N} (h : isObject v = false)
    (hs : ∀ s, v ≠ .str s) : readValue G number fuel read v = v := by
  rcases read with _ | ⟨label, type | e | type⟩
  · rfl
  · cases v <;> first | rfl | exact absurd rfl (hs _)
  · show convertEach label (convertSingleEnumValue e) v = v
    rw [convertEach_leaf label _ h]
    cases v <;> first | rfl | exact absurd rfl (hs _)
  · show convertEach label (convertLevels G number fuel type) v = v
    rw [convertEach_leaf label _ h, convertLevels_leaf type h]

theorem eq_of_isNullish {v : Value N} (h : v.isNullish = true) : v = .undefined ∨ v = .null := by
  cases v <;> simp_all [Value.isNullish]

/-- One turn of the loop on a property that is there. -/
theorem convertField_of_find {field : JsString × TypedField N τ}
    {es : List (JsString × Value N)} {v : Value N} (h : Js.Map.find field.1 es = some v) :
    convertField number (convertLevels G number fuel) es field
      = Js.Map.put field.1 (readValue G number fuel (some field.2) v) es := by
  rw [convertField, h]
  dsimp only
  split_ifs with hv
  · have hsame : readValue G number fuel (some field.2) v = v := by
      rcases eq_of_isNullish hv with rfl | rfl
      · exact readValue_leaf _ rfl (fun s h => by cases h)
      · exact readValue_leaf _ rfl (fun s h => by cases h)
    rw [hsame, Js.Map.put_of_find h]
  · rfl

/-- One turn on a property that is missing. -/
theorem convertField_of_missing {field : JsString × TypedField N τ}
    {es : List (JsString × Value N)} (h : Js.Map.find field.1 es = none) :
    convertField number (convertLevels G number fuel) es field
      = es ++ if field.1 ∈ inheritedNames ∧ field.2.type.isScalar = false then
          [(field.1, .undefined)] else [] := by
  rw [convertField, h]
  dsimp only
  split_ifs
  · exact Js.Map.put_of_not_mem (Js.Map.find_eq_none.1 h)
  · exact (List.append_nil es).symm

theorem inheritedOf_congr {fields : List (JsString × TypedField N τ)}
    (es : List (JsString × Value N)) {es' : List (JsString × Value N)}
    (h : ∀ field ∈ fields, field.1 ∈ es'.map Prod.fst ↔ field.1 ∈ es.map Prod.fst) :
    inheritedOf fields es' = inheritedOf fields es := by
  refine List.filter_congr fun field hf => ?_
  simp only [h field hf]

theorem nodup_convertField {field : JsString × TypedField N τ} {es : List (JsString × Value N)}
    (h : (es.map Prod.fst).Nodup) :
    ((convertField number (convertLevels G number fuel) es field).map Prod.fst).Nodup := by
  unfold convertField
  rcases Js.Map.find field.1 es with _ | v
  · dsimp only
    split_ifs
    · exact Js.Map.nodup_put _ _ h
    · exact h
  · dsimp only
    split_ifs
    · exact h
    · exact Js.Map.nodup_put _ _ h

/-- The loop changes each property by its field, and adds what is inherited. -/
theorem foldl_convertField : ∀ {fields : List (JsString × TypedField N τ)}
    {es : List (JsString × Value N)}, (fields.map Prod.fst).Nodup → (es.map Prod.fst).Nodup →
    fields.foldl (convertField number (convertLevels G number fuel)) es
      = es.map (fun e => (e.1, readValue G number fuel (Js.Map.find e.1 fields) e.2))
        ++ (inheritedOf fields es).map fun field => (field.1, .undefined)
  | [], es, _, _ => by simp [inheritedOf, Js.Map.find, readValue]
  | field :: fields, es, hf, he => by
    rw [List.map_cons, List.nodup_cons] at hf
    have hnone : Js.Map.find field.1 fields = none := Js.Map.find_eq_none.2 hf.1
    have hother : ∀ {field'}, field' ∈ fields → field'.1 ≠ field.1 := by
      rintro field' h' heq
      exact hf.1 (List.mem_map.2 ⟨field', h', heq⟩)
    rw [List.foldl_cons, foldl_convertField hf.2 (nodup_convertField he)]
    rcases h : Js.Map.find field.1 es with _ | v
    · have hkeep : es.map (fun e => (e.1, readValue G number fuel (Js.Map.find e.1 fields) e.2))
          = es.map fun e =>
            (e.1, readValue G number fuel (Js.Map.find e.1 (field :: fields)) e.2) := by
        refine List.map_congr_left fun e hm => ?_
        have hne : field.1 ≠ e.1 := fun heq =>
          Js.Map.find_eq_none.1 h (List.mem_map.2 ⟨e, hm, heq.symm⟩)
        rw [Js.Map.find, if_neg hne]
      have hnew : field.1 ∉ es.map Prod.fst := Js.Map.find_eq_none.1 h
      rw [convertField_of_missing h]
      split_ifs with hi
      · rw [List.map_append, hkeep, List.map_singleton, hnone,
          inheritedOf_congr es fun field' h' => by simp [hother h'], inheritedOf,
          inheritedOf, List.filter_cons_of_pos (by simp [hi, hnew]), List.map_cons]
        simp [readValue]
      · rw [List.append_nil, hkeep, inheritedOf, inheritedOf,
          List.filter_cons_of_neg (by simpa [hnew] using hi)]
    · have hmem := Js.Map.mem_of_find h
      have hkeys : field.1 ∈ es.map Prod.fst := List.mem_map.2 ⟨_, hmem, rfl⟩
      rw [convertField_of_find h, inheritedOf_congr es fun field' h' => by
        rw [Js.Map.map_fst_put h], Js.Map.put_eq_map he h, List.map_map, inheritedOf, inheritedOf,
        List.filter_cons_of_neg (by simp [hkeys])]
      congr 1
      refine List.map_congr_left fun e hm => ?_
      rw [Function.comp_apply, Js.Map.find]
      split_ifs with h1 h2 h2
      · have hv : e.2 = v := by
          have hfe := Js.Map.find_of_mem he (show (e.1, e.2) ∈ es from hm)
          rw [h1, h] at hfe
          exact (Option.some.inj hfe).symm
        rw [hnone, h1, hv]
        rfl
      · exact absurd h1.symm h2
      · exact absurd h2.symm h1
      · rfl

theorem readValue_none : readValue G number fuel none = id := rfl

theorem readValue_enum (e : EnumType N) :
    readValue G number fuel (some ⟨.singular, .enum e⟩) = convertSingleEnumValue e :=
  funext (convertEach_of_ne (by simp))

theorem readValue_message (type : τ) : readValue G number fuel (some ⟨.singular, .message type⟩)
    = convertLevels G number fuel type :=
  funext (convertEach_of_ne (by simp))

theorem readValue_obj (read : Option (TypedField N τ)) {es : List (JsString × Value N)}
    (he : (es.map Prod.fst).Nodup) : readValue G number (fuel + 1) read (.obj es)
      = .obj (es.map (fun e => (e.1, readValue G number fuel (propertyRead G read e.1) e.2))
        ++ (inheritedBy G read es).map fun field => (field.1, .undefined)) := by
  rcases read with _ | ⟨label, type | e | type⟩
  · simp [readValue, propertyRead, inheritedBy]
  · simp [readValue, propertyRead, inheritedBy, convertFieldValue]
  · simp [readValue, propertyRead, inheritedBy, convertFieldValue, convertEach,
      convertSingleEnumValue]
  · show convertLevels G number (fuel + 1) type (.obj es) = _
    rw [convertLevels, isObject, if_pos rfl]
    exact congrArg Value.obj (foldl_convertField (G.fields type).nodup he)

/-- The walk on an array that it does not take for a message. -/
theorem readValue_arr {read : Option (TypedField N τ)} (h : takenForMessage read = false)
    (xs : List (Value N)) : readValue G number fuel read (.arr xs)
      = .arr (xs.map (readValue G number fuel (itemRead read))) := by
  have hpass : itemRead read = none → readValue G number fuel read (.arr xs) = .arr xs →
      readValue G number fuel read (.arr xs)
        = .arr (xs.map (readValue G number fuel (itemRead read))) := by
    intro hnone hsame
    rw [hsame, hnone, readValue_none, List.map_id]
  rcases read with _ | ⟨label, type | e | type⟩
  · exact hpass rfl rfl
  · exact hpass (by cases label <;> rfl) rfl
  · rcases label with _ | _ | k
    · exact hpass rfl rfl
    · rw [itemRead, readValue_enum]
      rfl
    · exact hpass rfl rfl
  · obtain rfl : label = .repeated := by simpa [takenForMessage] using h
    rw [itemRead, readValue_message]
    rfl

theorem nodup_spread (xs : List (Value N)) : ((spread (.arr xs)).map Prod.fst).Nodup := by
  have hkeys : (spread (.arr xs)).map Prod.fst = (xs.zipIdx.map Prod.snd).map decimal := by
    rw [spread, List.map_map, List.map_map]
    rfl
  rw [hkeys, List.zipIdx_map_snd]
  exact (List.nodup_range' 1).map (Function.LeftInverse.injective natOf_decimal)

/-- An array that it takes for a message becomes an object of its indexes. -/
theorem readValue_taken {read : Option (TypedField N τ)} (h : takenForMessage read = true)
    (xs : List (Value N)) : readValue G number (fuel + 1) read (.arr xs)
      = .obj ((spread (.arr xs)).map
          (fun e => (e.1, readValue G number fuel (propertyRead G read e.1) e.2))
        ++ (inheritedBy G read (spread (.arr xs))).map fun field => (field.1, .undefined)) := by
  rcases read with _ | ⟨label, type | e | type⟩
  · simp [takenForMessage] at h
  · simp [takenForMessage] at h
  · simp [takenForMessage] at h
  · have hl : label ≠ .repeated := by simpa [takenForMessage] using h
    have hread : readValue G number (fuel + 1) (some ⟨label, .message type⟩) (.arr xs)
        = convertLevels G number (fuel + 1) type (.arr xs) := if_neg hl
    rw [hread, convertLevels, isObject, if_pos rfl]
    exact congrArg Value.obj (foldl_convertField (G.fields type).nodup (nodup_spread xs))

theorem mem_of_mem_spread {xs : List (Value N)} {e : JsString × Value N}
    (h : e ∈ spread (.arr xs)) : e.2 ∈ xs := by
  obtain ⟨item, hi, rfl⟩ := List.mem_map.1 h
  exact List.fst_mem_of_mem_zipIdx hi

/-- More levels than a value has come to the same. -/
theorem readValue_enough {v : Value N} (hv : KeysOnce v) : ∀ {fuel fuel' : ℕ}
    {read : Option (TypedField N τ)}, bodyDepth v ≤ fuel → bodyDepth v ≤ fuel' →
    readValue G number fuel read v = readValue G number fuel' read v := by
  induction hv with
  | @leaf v hv =>
    intro fuel fuel' read _ _
    cases v with
    | str s => rw [readValue_str, readValue_str]
    | arr xs => simp [isObject] at hv
    | obj es => simp [isObject] at hv
    | _ =>
      rw [readValue_leaf read rfl (fun s h => by cases h),
        readValue_leaf read rfl (fun s h => by cases h)]
  | @arr xs inner ih =>
    intro fuel fuel' read hd hd'
    rw [bodyDepth] at hd hd'
    obtain ⟨fuel, rfl⟩ : ∃ n, fuel = n + 1 := ⟨fuel - 1, by omega⟩
    obtain ⟨fuel', rfl⟩ : ∃ n, fuel' = n + 1 := ⟨fuel' - 1, by omega⟩
    rcases ht : takenForMessage read with _ | _
    · rw [readValue_arr ht, readValue_arr ht]
      refine congrArg Value.arr (List.map_congr_left fun x hx => ?_)
      have := bodyDepth_le_items hx
      exact ih x hx (by omega) (by omega)
    · rw [readValue_taken ht, readValue_taken ht]
      refine congrArg (fun l => Value.obj (l ++ _)) (List.map_congr_left fun e he => ?_)
      have := bodyDepth_le_items (mem_of_mem_spread he)
      exact congrArg _ (ih e.2 (mem_of_mem_spread he) (by omega) (by omega))
  | @obj es nodup inner ih =>
    intro fuel fuel' read hd hd'
    rw [bodyDepth] at hd hd'
    obtain ⟨fuel, rfl⟩ : ∃ n, fuel = n + 1 := ⟨fuel - 1, by omega⟩
    obtain ⟨fuel', rfl⟩ : ∃ n, fuel' = n + 1 := ⟨fuel' - 1, by omega⟩
    rw [readValue_obj read nodup, readValue_obj read nodup]
    refine congrArg (fun l => Value.obj (l ++ _)) (List.map_congr_left fun e he => ?_)
    have := bodyDepth_le_entries he
    exact congrArg _ (ih e he (by omega) (by omega))

/-- The depth of a body is as many levels as its walk can go down. -/
theorem convertLevels_enough {body : Value N} (h : KeysOnce body) (type : τ)
    (hd : bodyDepth body ≤ fuel) :
    convertLevels G number fuel type body = convertEnumValues G number type body := by
  have heq : readValue G number fuel (some ⟨.singular, .message type⟩) body
      = readValue G number (bodyDepth body) (some ⟨.singular, .message type⟩) body :=
    readValue_enough h hd (le_refl _)
  rwa [readValue_message, readValue_message] at heq

theorem stringRead_num {read : Option (TypedField N τ)} {s : JsString} {n : N} :
    stringRead number read s = .num n ↔ TakenForNumber number s n read := by
  have hbool : js "bool" ∉ numericTypes := by decide
  rcases read with _ | ⟨label, type | e | type⟩
  · simp [stringRead, TakenForNumber]
  · rw [stringRead, TakenForNumber, coerceScalar]
    split_ifs with h1 h2
    · simp [h1, hbool]
    · cases number s <;> simp [h2]
    · simp [h2]
  · rw [stringRead, TakenForNumber]
    cases e.value s <;> simp
  · simp [stringRead, TakenForNumber]

theorem stringRead_str {read : Option (TypedField N τ)} {s : JsString} :
    stringRead number read s = .str s ↔ TakenForText number s read := by
  rcases read with _ | ⟨label, type | e | type⟩
  · simp [stringRead, TakenForText]
  · rw [stringRead, TakenForText, coerceScalar]
    split_ifs with h1 h2
    · simp [h1]
    · cases number s <;> simp [h1, h2]
    · simp [h1, h2]
  · rw [stringRead, TakenForText]
    cases e.value s <;> simp
  · simp [stringRead, TakenForText]

theorem map_fst_eq_iff {es : List (JsString × Value N)} {f g : JsString × Value N → Value N} :
    es.map (fun e => (e.1, f e)) = es.map (fun e => (e.1, g e)) ↔ ∀ e ∈ es, f e = g e := by
  rw [List.map_inj_left]
  simp

/-- What the walk makes of an object is one with the same keys where nothing is inherited. -/
theorem readValue_obj_iff {read : Option (TypedField N τ)} {es : List (JsString × Value N)}
    (nodup : (es.map Prod.fst).Nodup) {f : JsString × Value N → Value N} :
    readValue G number (fuel + 1) read (.obj es) = .obj (es.map fun e => (e.1, f e)) ↔
      inheritedBy G read es = [] ∧
        ∀ e ∈ es, readValue G number fuel (propertyRead G read e.1) e.2 = f e := by
  rw [readValue_obj read nodup, Value.obj.injEq]
  constructor
  · intro h
    obtain ⟨hmap, hnil⟩ := List.append_inj (h.trans (List.append_nil _).symm) (by simp)
    exact ⟨List.map_eq_nil_iff.1 hnil, map_fst_eq_iff.1 hmap⟩
  · rintro ⟨hnil, h⟩
    rw [hnil, List.map_nil, List.append_nil]
    exact map_fst_eq_iff.2 h

/-- What the walk makes of a value is what it is to become just where it goes well. -/
theorem readValue_iff {field : TypedField N τ} {v : Value N} (hv : HasShape G field v) :
    ∀ {fuel : ℕ} {read : Option (TypedField N τ)}, bodyDepth v ≤ fuel →
      (readValue G number fuel read v = withNumbers G (some field) v ↔
        WellRead G number read field v) := by
  induction hv with
  | number | enumValue | bool =>
    intro fuel read _
    rw [readValue_leaf read rfl (fun s h => by cases h)]
    exact iff_of_true rfl (by constructor)
  | @text type h s =>
    intro fuel read _
    rw [readValue_str]
    refine stringRead_str.trans ⟨.text, fun hw => ?_⟩
    cases hw
    assumption
  | @enumName e s n h =>
    intro fuel read _
    have hn : withNumbers G (some ⟨.singular, .enum e⟩) (.str s) = .num n := by
      rw [withNumbers, enumNumber, h]
      rfl
    rw [readValue_str, hn]
    refine stringRead_num.trans ⟨.enumName h, fun hw => ?_⟩
    cases hw with
    | enumName hn' ht => rwa [Option.some.inj (h.symm.trans hn')]
  | @message type es nodup declared inner ih =>
    intro fuel read hd
    rw [bodyDepth] at hd
    obtain ⟨fuel, rfl⟩ : ∃ n, fuel = n + 1 := ⟨fuel - 1, by omega⟩
    rw [withNumbers, withNumbersIn_eq, readValue_obj_iff nodup]
    have hinner : ∀ e ∈ es, ∀ field, (G.fields type).get e.1 = some field →
        (readValue G number fuel (propertyRead G read e.1) e.2
            = withNumbers G (propertyField G (some ⟨.singular, .message type⟩) e.1) e.2 ↔
          WellRead G number (propertyRead G read e.1) field e.2) := by
      intro e he field hf
      have := bodyDepth_le_entries he
      rw [propertyField, hf]
      exact ih e he field hf (by omega)
    constructor
    · exact fun ⟨hi, h⟩ => .message hi fun e he field hf => (hinner e he field hf).1 (h e he)
    · intro hw
      cases hw with
      | message hi h =>
        refine ⟨hi, fun e he => ?_⟩
        obtain ⟨field, hf⟩ := Option.isSome_iff_exists.1 (declared e he)
        exact (hinner e he field hf).2 (h e he field hf)
  | @repeated type xs inner ih =>
    intro fuel read hd
    rw [bodyDepth] at hd
    rw [withNumbers, withNumbersEach_eq]
    have hinner : ∀ x ∈ xs, (readValue G number fuel (itemRead read) x
        = withNumbers G (itemField (some ⟨.repeated, type⟩)) x ↔
          WellRead G number (itemRead read) ⟨.singular, type⟩ x) := by
      intro x hx
      have := bodyDepth_le_items hx
      exact ih x hx (by omega)
    rcases ht : takenForMessage read with _ | _
    · rw [readValue_arr ht, Value.arr.injEq, List.map_inj_left]
      constructor
      · exact fun h => .repeated ht fun x hx => (hinner x hx).1 (h x hx)
      · intro hw
        cases hw with
        | repeated _ h => exact fun x hx => (hinner x hx).2 (h x hx)
    · obtain ⟨fuel, rfl⟩ : ∃ n, fuel = n + 1 := ⟨fuel - 1, by omega⟩
      rw [readValue_taken ht]
      refine iff_of_false (by simp) fun hw => ?_
      cases hw with
      | repeated hf _ => simp [ht] at hf
  | @map keyType type es nodup inner ih =>
    intro fuel read hd
    rw [bodyDepth] at hd
    obtain ⟨fuel, rfl⟩ : ∃ n, fuel = n + 1 := ⟨fuel - 1, by omega⟩
    rw [withNumbers, withNumbersIn_eq, readValue_obj_iff nodup]
    have hinner : ∀ e ∈ es, (readValue G number fuel (propertyRead G read e.1) e.2
        = withNumbers G (propertyField G (some ⟨.map keyType, type⟩) e.1) e.2 ↔
          WellRead G number (propertyRead G read e.1) ⟨.singular, type⟩ e.2) := by
      intro e he
      have := bodyDepth_le_entries he
      exact ih e he (by omega)
    constructor
    · exact fun ⟨hi, h⟩ => .map hi fun e he => (hinner e he).1 (h e he)
    · intro hw
      cases hw with
      | map hi h => exact ⟨hi, fun e he => (hinner e he).2 (h e he)⟩

end Walk

/-- `convertEnumValues` puts the numbers of enum values for all their names in a body, and changes
nothing else, just where its walk along the fields of the type goes well. -/
theorem convertEnumValues_iff (G : TypeGraph N τ) (number : JsString → Option N) {type : τ}
    {body : Value N} (h : HasShape G ⟨.singular, .message type⟩ body) :
    convertEnumValues G number type body = withNumbers G (some ⟨.singular, .message type⟩) body ↔
      WellRead G number (some ⟨.singular, .message type⟩) ⟨.singular, .message type⟩ body := by
  rw [← readValue_iff h (le_refl _), readValue_message, convertEnumValues]

namespace HasShape

variable {G number} {field : TypedField N τ} {v : Value N}

/-- The elements of an array of scalars are passed over. -/
theorem passed {type : JsString} (h : HasShape G ⟨.singular, .scalar type⟩ v) :
    WellRead G number none ⟨.singular, .scalar type⟩ v := by
  cases h with
  | number _ n => exact .number n
  | bool b => exact .bool b
  | text _ s => exact .text trivial

/-- Where no field is a map field, nor has the name of a property that every object inherits unless
it is scalar, the walk goes well. -/
theorem wellRead (hmap : ∀ type name field, (G.fields type).get name = some field →
      ∀ keyType, field.label ≠ .map keyType)
    (hname : ∀ type, ∀ e ∈ (G.fields type).entries, e.1 ∈ inheritedNames → e.2.type.isScalar)
    (h : HasShape G field v) (hl : ∀ keyType, field.label ≠ .map keyType) :
    WellRead G number (some field) field v := by
  induction h with
  | number _ n => exact .number n
  | bool b => exact .bool b
  | enumValue e n => exact .number n
  | @text type h s =>
    refine .text ?_
    rcases List.mem_pair.1 h with rfl | rfl <;>
      exact ⟨by decide, fun hn => absurd hn (by decide)⟩
  | @enumName e s n h => exact .enumName h (by simp [TakenForNumber, EnumType.value, h])
  | @message type es nodup declared inner ih =>
    refine .message (List.filter_eq_nil_iff.2 fun e he hi => ?_) fun e he field hf => ?_
    · rw [decide_eq_true_eq] at hi
      exact absurd (hname type e he hi.1) (by simp [hi.2.1])
    · rw [propertyRead, hf]
      exact ih e he field hf (hmap type e.1 field hf)
  | @repeated type xs inner ih =>
    rcases type with type | e | type
    · exact .repeated rfl fun x hx => passed (inner x hx)
    · exact .repeated rfl fun x hx => ih x hx (by simp)
    · exact .repeated rfl fun x hx => ih x hx (by simp)
  | @map keyType => exact absurd rfl (hl keyType)

/-- A map of enums is passed over, so that it may hold numbers only. -/
theorem wellRead_map_iff {keyType : JsString} {e : EnumType N} {es : List (JsString × Value N)}
    (h : HasShape G ⟨.map keyType, .enum e⟩ (.obj es)) :
    WellRead G number (some ⟨.map keyType, .enum e⟩) ⟨.map keyType, .enum e⟩ (.obj es) ↔
      ∀ entry ∈ es, ∃ n, entry.2 = .num n := by
  cases h with
  | map nodup inner =>
    constructor
    · intro hw entry he
      cases hw with
      | map _ h =>
        have hread := h entry he
        have hshape := inner entry he
        generalize entry.2 = v at hread hshape
        cases hshape with
        | enumValue _ n => exact ⟨n, rfl⟩
        | enumName _ =>
          cases hread with
          | enumName _ ht => cases ht
    · refine fun hnum => .map rfl fun entry he => ?_
      obtain ⟨n, hn⟩ := hnum entry he
      exact hn ▸ .number n

end HasShape

/-! ## A map of enums -/

def statusType : EnumType ℤ := ⟨Js.Map.empty.set (js "active") 1, fun _ => none⟩

/-- A message with an enum, an array and a map of them. -/
def statusesGraph : TypeGraph ℤ Unit where
  fields _ := ((Js.Map.empty.set (js "status") ⟨.singular, .enum statusType⟩).set
    (js "history") ⟨.repeated, .enum statusType⟩).set
    (js "statuses") ⟨.map (js "string"), .enum statusType⟩
  named _ := by decide

def statusBody : Value ℤ :=
  .obj [(js "status", .str (js "active")), (js "history", .arr [.str (js "active"), .num 1]),
    (js "statuses", .obj [(js "a", .num 1)])]

theorem hasShape_active : HasShape statusesGraph ⟨.singular, .enum statusType⟩
    (.str (js "active")) := .enumName rfl

theorem hasShape_statusBody :
    HasShape statusesGraph ⟨.singular, .message ()⟩ statusBody := by
  refine .message (by decide) (by decide) fun e he field hf => ?_
  rcases he with _ | ⟨_, _ | ⟨_, _ | ⟨_, ⟨⟩⟩⟩⟩ <;> obtain rfl := Option.some.inj hf
  · exact hasShape_active
  · refine .repeated fun x hx => ?_
    rcases hx with _ | ⟨_, _ | ⟨_, ⟨⟩⟩⟩
    · exact hasShape_active
    · exact .enumValue statusType 1
  · refine .map (by decide) fun e he => ?_
    obtain rfl := List.mem_singleton.1 he
    exact .enumValue statusType 1

/-- The names under the enum and in the array become numbers. -/
theorem convertEnumValues_iff_status :
    convertEnumValues statusesGraph (fun _ => none) () statusBody
      = withNumbers statusesGraph (some ⟨.singular, .message ()⟩) statusBody := by
  refine (convertEnumValues_iff _ _ hasShape_statusBody).2 (.message rfl fun e he field hf => ?_)
  rcases he with _ | ⟨_, _ | ⟨_, _ | ⟨_, ⟨⟩⟩⟩⟩ <;> obtain rfl := Option.some.inj hf
  · exact .enumName rfl rfl
  · refine .repeated rfl fun x hx => ?_
    rcases hx with _ | ⟨_, _ | ⟨_, ⟨⟩⟩⟩
    · exact .enumName rfl rfl
    · exact .number 1
  · refine .map rfl fun e he => ?_
    obtain rfl := List.mem_singleton.1 he
    exact .number 1

def statusesBody : Value ℤ := .obj [(js "statuses", .obj [(js "a", .str (js "active"))])]

theorem hasShape_statusesBody :
    HasShape statusesGraph ⟨.singular, .message ()⟩ statusesBody := by
  refine .message (by decide) (by decide) fun e he field hf => ?_
  obtain rfl := List.mem_singleton.1 he
  obtain rfl := Option.some.inj hf
  refine .map (by decide) fun e he => ?_
  obtain rfl := List.mem_singleton.1 he
  exact hasShape_active

/-- The name in the map stays. -/
theorem not_withNumbers : HasShape statusesGraph ⟨.singular, .message ()⟩ statusesBody ∧
    convertEnumValues statusesGraph (fun _ => none) () statusesBody = statusesBody ∧
    statusesBody ≠ withNumbers statusesGraph (some ⟨.singular, .message ()⟩) statusesBody := by
  refine ⟨hasShape_statusesBody, rfl, fun h => ?_⟩
  have hn : withNumbers statusesGraph (some ⟨.singular, .message ()⟩) statusesBody
      = .obj [(js "statuses", .obj [(js "a", .num 1)])] := rfl
  rw [hn] at h
  simp [statusesBody] at h

end DiiaApp
