import DiiaApp.Numerals
import DiiaApp.Proofs.EnumNames

/-!
# Strings in integer fields

A string in a singular field of an integer type is passed on as the number it stands for, or as it
is where it is no numeral, just where an integer of the type is a number of double precision and the
string is neither blank nor an infinity (`readExactly_iff`).
-/

namespace DiiaApp

open Js

theorem trim_eq_self {s : JsString} (h : ∀ u ∈ s, isWhiteSpace u = false) : trim s = s := by
  have hdrop : ∀ {l : JsString}, (∀ u ∈ l, isWhiteSpace u = false) → l.dropWhile isWhiteSpace = l := by
    intro l hl
    cases l with
    | nil => rfl
    | cons u l => rw [List.dropWhile_cons_of_neg (by simp [hl u (List.mem_cons_self ..)])]
  rw [trim, hdrop h, hdrop fun u hu => h u (List.mem_reverse.1 hu), List.reverse_reverse]

theorem unsignedDecimal_decimal (n : ℕ) : unsignedDecimal (decimal n) = some (n : ℚ) := by
  have htake : (decimal n).takeWhile isDigit = decimal n :=
    List.takeWhile_eq_self_iff.2 isDigit_decimal
  have hdrop : (decimal n).dropWhile isDigit = [] := List.dropWhile_eq_nil_iff.2 isDigit_decimal
  have hzero : natOf [] = 0 := rfl
  simp [unsignedDecimal, htake, hdrop, splitFraction, isExponent, decimal_ne_nil, natOf_decimal,
    exponentOf, dropSign, hzero]

theorem intText_cases (n : ℤ) : (0 ≤ n ∧ intText n = decimal n.natAbs) ∨
    (n < 0 ∧ intText n = 45 :: decimal n.natAbs) := by
  unfold intText
  split_ifs with h
  · exact .inr ⟨h, rfl⟩
  · exact .inl ⟨not_lt.1 h, rfl⟩

theorem decimal_head_ne {n : ℕ} {u : CodeUnit} (hu : isDigit u = false) :
    (decimal n).head? ≠ some u := by
  intro h
  rw [isDigit_decimal u (List.mem_of_head? h)] at hu
  cases hu

theorem dropSign_decimal (n : ℕ) : dropSign (decimal n) = decimal n := by
  rcases hd : decimal n with _ | ⟨u, s⟩
  · rfl
  · have h45 := decimal_head_ne (n := n) (show isDigit 45 = false by decide)
    have h43 := decimal_head_ne (n := n) (show isDigit 43 = false by decide)
    rw [hd, List.head?_cons, ne_eq, Option.some_inj] at h45 h43
    rw [dropSign, if_neg (not_or.2 ⟨h43, h45⟩)]

theorem decimal_ne_infinity (n : ℕ) : decimal n ≠ js "Infinity" := fun h =>
  decimal_head_ne (n := n) (show isDigit 73 = false by decide) (by rw [h]; rfl)

theorem readDecimal_intText (n : ℤ) : readDecimal (intText n) = .decimal n := by
  rcases intText_cases n with ⟨hn, h⟩ | ⟨hn, h⟩ <;> rw [h, readDecimal]
  · have hsign := decimal_head_ne (n := n.natAbs) (show isDigit 45 = false by decide)
    have habs : ((n.natAbs : ℕ) : ℚ) = n := by
      rw [Nat.cast_natAbs, abs_of_nonneg hn]
    simp [dropSign_decimal, decimal_ne_infinity, hsign, unsignedDecimal_decimal, habs]
  · have habs : ((n.natAbs : ℕ) : ℚ) = -n := by
      rw [Nat.cast_natAbs, abs_of_neg hn, Int.cast_neg]
    have hdrop : dropSign (45 :: decimal n.natAbs) = decimal n.natAbs := rfl
    simp [hdrop, decimal_ne_infinity, unsignedDecimal_decimal, habs]

theorem plain_of_mem_intText {n : ℤ} {u : CodeUnit} (hu : u ∈ intText n) :
    isWhiteSpace u = false ∧ baseOf u = none := by
  have hunit : 48 ≤ u.toNat ∧ u.toNat ≤ 57 ∨ u = 45 := by
    rcases intText_cases n with ⟨-, h⟩ | ⟨-, h⟩ <;> rw [h] at hu
    · exact .inl (by simpa [isDigit] using isDigit_decimal u hu)
    · rcases List.mem_cons.1 hu with rfl | hu
      · exact .inr rfl
      · exact .inl (by simpa [isDigit] using isDigit_decimal u hu)
  rcases hunit with hunit | rfl
  · have hne : ∀ v : CodeUnit, 57 < v.toNat → u ≠ v := by
      rintro v hv rfl
      omega
    refine ⟨?_, ?_⟩
    · simp only [isWhiteSpace, decide_eq_false_iff_not]
      omega
    · rw [baseOf, if_neg (not_or.2 ⟨hne 120 (by decide), hne 88 (by decide)⟩),
        if_neg (not_or.2 ⟨hne 111 (by decide), hne 79 (by decide)⟩),
        if_neg (not_or.2 ⟨hne 98 (by decide), hne 66 (by decide)⟩)]
  · exact ⟨rfl, rfl⟩

theorem readNumber_intText (n : ℤ) : readNumber (intText n) = .decimal n := by
  rw [← readDecimal_intText, readNumber, trim_eq_self fun u hu => (plain_of_mem_intText hu).1]
  have hbase : ∀ u ∈ intText n, baseOf u = none := fun u hu => (plain_of_mem_intText hu).2
  rcases h : intText n with _ | ⟨u, _ | ⟨v, s⟩⟩
  · rcases intText_cases n with ⟨-, h'⟩ | ⟨-, h'⟩ <;> rw [h] at h'
    · exact absurd h'.symm (decimal_ne_nil _)
    · cases h'
  · rfl
  · rw [h] at hbase
    simp only [hbase v (by simp)]

/-- An integer type with its least and its greatest number. -/
structure IntegerType where
  name : JsString
  min : ℤ
  max : ℤ
  deriving DecidableEq

def integerRanges : List IntegerType :=
  [⟨js "int32", -2 ^ 31, 2 ^ 31 - 1⟩, ⟨js "sint32", -2 ^ 31, 2 ^ 31 - 1⟩,
    ⟨js "sfixed32", -2 ^ 31, 2 ^ 31 - 1⟩, ⟨js "uint32", 0, 2 ^ 32 - 1⟩,
    ⟨js "fixed32", 0, 2 ^ 32 - 1⟩, ⟨js "int64", -2 ^ 63, 2 ^ 63 - 1⟩,
    ⟨js "sint64", -2 ^ 63, 2 ^ 63 - 1⟩, ⟨js "sfixed64", -2 ^ 63, 2 ^ 63 - 1⟩,
    ⟨js "uint64", 0, 2 ^ 64 - 1⟩, ⟨js "fixed64", 0, 2 ^ 64 - 1⟩]

theorem isDouble_of_narrow {t : IntegerType} (ht : t ∈ integerRanges) (hw : t.max < 2 ^ 32) {n : ℤ}
    (hmin : t.min ≤ n) (hmax : n ≤ t.max) : IsDouble n := by
  have hlow : ∀ t ∈ integerRanges, t.max < 2 ^ 32 → -2 ^ 31 ≤ t.min := by decide
  have := hlow t ht hw
  exact isDouble_of_natAbs_le (by omega)

/-- A body with a string in a singular field of an integer type. -/
structure StringField (τ : Type) where
  graph : TypeGraph Number τ
  type : τ
  name : JsString
  integer : IntegerType
  listed : integer ∈ integerRanges
  field : (graph.fields type).get name = some ⟨.singular, .scalar integer.name⟩
  body : List (JsString × Value Number)
  nodup : (body.map Prod.fst).Nodup
  value : JsString
  given : Js.Map.find name body = some (.str value)

/-- A value that is the number of an integer. -/
def Denotes (v : Value Number) (n : ℤ) : Prop := ∃ h, v = .num (.finite n h)

/-- A string stands for a number. -/
def NumberText.isNumeral : NumberText → Bool
  | decimal _ | based _ => true
  | blank | infinity _ | other => false

namespace StringField

variable {τ : Type} (x : StringField τ)

/-- What is passed on to `verify` and `fromObject`. -/
def passed : Value Number :=
  (convertEnumValues x.graph toNumber x.type (.obj x.body)).prop x.name

/-- A decimal numeral of an integer of the type is passed on as that integer, and what is no numeral
as it is. -/
structure ReadExactly : Prop where
  numeral : ∀ n : ℤ, readNumber x.value = .decimal n → x.integer.min ≤ n → n ≤ x.integer.max →
    Denotes x.passed n
  other : (readNumber x.value).isNumeral = false → x.passed = .str x.value

variable {x}

theorem coerceScalar_integer {t : IntegerType} (h : t ∈ integerRanges) (s : JsString) :
    coerceScalar toNumber t.name s = ((toNumber s).map .num).getD (.str s) := by
  have hname : ∀ t ∈ integerRanges, t.name ≠ js "bool" ∧ t.name ∈ numericTypes := by decide
  rw [coerceScalar, if_neg (hname t h).1, if_pos (hname t h).2]
  rcases toNumber s with _ | num <;> rfl

/-- The field is walked to as the loop comes to it. -/
theorem passed_eq : x.passed = ((toNumber x.value).map .num).getD (.str x.value) := by
  have hwalk : convertEnumValues x.graph toNumber x.type (.obj x.body)
      = readValue x.graph toNumber (entriesDepth x.body + 1)
        (some ⟨.singular, .message x.type⟩) (.obj x.body) := by
    rw [readValue_message, convertEnumValues, bodyDepth]
  have hfind := Map.find_map_value (fun k => readValue x.graph toNumber (entriesDepth x.body)
    (propertyRead x.graph (some ⟨.singular, .message x.type⟩) k)) x.name x.body
  rw [x.given, Option.map_some] at hfind
  rw [passed, hwalk, readValue_obj _ x.nodup, Value.prop, Map.find_append_of_find _ hfind,
    Option.getD_some, propertyRead, x.field, readValue_str]
  exact coerceScalar_integer x.listed x.value

/-- Rounding leaves an integer alone just where it is a double. -/
theorem denotes_round_iff {q : ℚ} {n : ℤ} (h : q = n) :
    Denotes (.num (Number.round q)) n ↔ IsDouble n := by
  subst h
  rw [← Number.round_eq_iff]
  simp [Denotes]

/-- A string is passed on exactly, or as it is, just where an integer of the type that it is a
decimal numeral of is a double, and it is neither blank nor an infinity. -/
theorem readExactly_iff (x : StringField τ) : x.ReadExactly ↔
    (∀ n : ℤ, readNumber x.value = .decimal n → x.integer.min ≤ n → n ≤ x.integer.max →
      IsDouble n) ∧
    readNumber x.value ≠ .blank ∧ ∀ negative, readNumber x.value ≠ .infinity negative := by
  have hpassed := x.passed_eq
  unfold toNumber at hpassed
  constructor
  · intro h
    refine ⟨fun n hn hmin hmax => ?_, fun hb => ?_, fun negative hi => ?_⟩
    · have hd := h.numeral n hn hmin hmax
      rw [hpassed, hn] at hd
      exact (denotes_round_iff rfl).1 hd
    · have hs := h.other (by rw [hb]; rfl)
      rw [hpassed, hb] at hs
      cases hs
    · have hs := h.other (by rw [hi]; rfl)
      rw [hpassed, hi] at hs
      cases hs
  · rintro ⟨hexact, hblank, hinf⟩
    refine ⟨fun n hn hmin hmax => ?_, fun hnot => ?_⟩
    · rw [hpassed, hn]
      exact (denotes_round_iff rfl).2 (hexact n hn hmin hmax)
    · rcases hr : readNumber x.value with _ | q | n | negative | _
      · exact absurd hr hblank
      · rw [hr] at hnot
        cases hnot
      · rw [hr] at hnot
        cases hnot
      · exact absurd hr (hinf negative)
      · rw [hpassed, hr]
        rfl

end StringField

def idField (type : IntegerType) (listed : type ∈ integerRanges) (value : JsString) :
    StringField Unit where
  graph := ⟨fun _ => Js.Map.empty.set (js "id") ⟨.singular, .scalar type.name⟩,
    fun _ => show js "__proto__" ∉ [js "id"] by decide⟩
  type := ()
  name := js "id"
  integer := type
  listed := listed
  field := rfl
  body := [(js "id", .str value)]
  nodup := by simp
  value := value
  given := rfl

def blankField : StringField Unit := idField ⟨js "int32", -2 ^ 31, 2 ^ 31 - 1⟩ (by decide) []

def largeField : StringField Unit :=
  idField ⟨js "int64", -2 ^ 63, 2 ^ 63 - 1⟩ (by decide) (intText (2 ^ 53 + 1))

/-- An empty string in an `int32` field is passed on as zero, and 9007199254740993 in an `int64`
field as a number beside it. -/
theorem not_readExactly : ¬ blankField.ReadExactly ∧ ¬ largeField.ReadExactly := by
  refine ⟨fun h => ?_, fun h => ?_⟩
  · have hs := h.other rfl
    rw [StringField.passed_eq] at hs
    cases hs
  · have hv : largeField.value = intText (2 ^ 53 + 1) := rfl
    obtain ⟨hd, -⟩ := h.numeral (2 ^ 53 + 1) (by rw [hv, readNumber_intText]) (by decide)
      (by decide)
    exact not_isDouble_of_odd (by decide) (by decide) hd

def smallField : StringField Unit :=
  idField ⟨js "int32", -2 ^ 31, 2 ^ 31 - 1⟩ (by decide) (intText (-7))

end DiiaApp
