import DiiaApp.Proofs.TypeCycles

/-!
# Unions of literals

A union of literals is parsed as the list of them, each made by `createLiteral`, which reads strings
once more; of the boolean literals only the first is kept. So the list has exactly the literals of
the union where no string reads as something else, each number is written as a numeral, and the two
truth values are not in the union with something else (`parseUnion_admits_iff`).
-/

namespace DiiaApp

open Js Descent LiteralNumber TypeFlags

inductive Literal (N : Type)
  | string (s : JsString)
  | number (n : N)
  | boolean (b : Bool)

namespace Literal

variable {N : Type}

def isBoolean : Literal N → Bool
  | .boolean _ => true
  | _ => false

/-- The literal with its own kind. -/
def node : Literal N → Node N
  | .string s => .stringLiteral (.string s)
  | .number n => .numericLiteral n
  | .boolean b => if b then .true else .false

end Literal

namespace TypeParser

variable {τ N : Type}

/-- A literal type as the compiler has it. -/
def IsLiteralType (type : TsType τ N) : Literal N → Prop
  | .string s => type.flags = {.stringLiteral} ∧ type.value = some (.string s) ∧
      type.typeString ≠ js "undefined"
  | .number n => type.flags = {.numberLiteral} ∧ type.value = some (.number n) ∧
      type.typeString ≠ js "undefined"
  | .boolean b => type.flags = {.booleanLiteral} ∧
      type.typeString = if b then js "true" else js "false"

variable (G : TsGraph τ N)

/-- The types are the literals in their order, and `undefined` anywhere between them. -/
inductive LiteralTypes : List τ → List (Literal N) → Prop
  | nil : LiteralTypes [] []
  | undefined {t : τ} {ts : List τ} {ls : List (Literal N)} (hf : (G t).flags = {.undefined})
    (ht : (G t).typeString = js "undefined") (h : LiteralTypes ts ls) : LiteralTypes (t :: ts) ls
  | literal {t : τ} {l : Literal N} {ts : List τ} {ls : List (Literal N)}
    (hl : IsLiteralType (G t) l) (h : LiteralTypes ts ls) : LiteralTypes (t :: ts) (l :: ls)

/-- A union of at least two literals, no number of which is negative. -/
structure IsLiteralUnion [LiteralNumber N] (type : TsType τ N) (ls : List (Literal N)) : Prop where
  types : LiteralTypes G type.types ls
  two : 2 ≤ ls.length
  nonNegative : ∀ n, .number n ∈ ls → (toText n).head? ≠ some 45

/-- The schema admits the literals and nothing else. -/
def AdmitsExactly (ls : List (Literal N)) (schema : Node N) : Prop :=
  if ls.all Literal.isBoolean then schema = typeSchema (js "boolean")
  else ∃ values, schema = enumSchema values ∧ ∀ v, v ∈ values ↔ ∃ l ∈ ls, l.node = v

/-- The literals of the types that `parseUnion` keeps. -/
def keptLiterals : Bool → List (Literal N) → List (Literal N)
  | _, [] => []
  | firstBoolean, l :: ls =>
    if l.isBoolean then
      if firstBoolean then l :: keptLiterals false ls else keptLiterals firstBoolean ls
    else l :: keptLiterals firstBoolean ls

variable {G}

theorem keptTypes_literals {ts : List τ} {ls : List (Literal N)} (h : LiteralTypes G ts ls) :
    ∀ firstBoolean, List.Forall₂ (fun t l => IsLiteralType (G t) l) (keptTypes G firstBoolean ts)
      (keptLiterals firstBoolean ls) := by
  induction h with
  | nil => exact fun _ => .nil
  | undefined hf ht _ ih =>
    intro firstBoolean
    simp only [keptTypes, hf, ht, Finset.mem_singleton, reduceCtorEq, if_false, if_true]
    exact ih firstBoolean
  | @literal t l ts ls hl _ ih =>
    intro firstBoolean
    cases l with
    | string s =>
      simp only [keptTypes, keptLiterals, hl.1, hl.2.2, Literal.isBoolean, Finset.mem_singleton,
        reduceCtorEq, if_false, Bool.false_eq_true]
      exact .cons hl (ih firstBoolean)
    | number n =>
      simp only [keptTypes, keptLiterals, hl.1, hl.2.2, Literal.isBoolean, Finset.mem_singleton,
        reduceCtorEq, if_false, Bool.false_eq_true]
      exact .cons hl (ih firstBoolean)
    | boolean b =>
      simp only [keptTypes, keptLiterals, hl.1, Literal.isBoolean, Finset.mem_singleton, if_true]
      cases firstBoolean with
      | true => exact .cons hl (ih false)
      | false => exact ih false

@[simp] theorem keptLiterals_string (b : Bool) (s : JsString) (ls : List (Literal N)) :
    keptLiterals b (.string s :: ls) = .string s :: keptLiterals b ls := rfl

@[simp] theorem keptLiterals_number (b : Bool) (n : N) (ls : List (Literal N)) :
    keptLiterals b (.number n :: ls) = .number n :: keptLiterals b ls := rfl

@[simp] theorem keptLiterals_first (c : Bool) (ls : List (Literal N)) :
    keptLiterals true (.boolean c :: ls) = .boolean c :: keptLiterals false ls := rfl

@[simp] theorem keptLiterals_later (c : Bool) (ls : List (Literal N)) :
    keptLiterals false (.boolean c :: ls) = keptLiterals false ls := rfl

theorem mem_keptLiterals_of_not_boolean {l : Literal N} (h : l.isBoolean = false) :
    ∀ (ls : List (Literal N)) (b : Bool), l ∈ keptLiterals b ls ↔ l ∈ ls
  | [], _ => Iff.rfl
  | .string s :: ls, b => by simp [mem_keptLiterals_of_not_boolean h ls b]
  | .number n :: ls, b => by simp [mem_keptLiterals_of_not_boolean h ls b]
  | .boolean c :: ls, b => by
    have hne : l ≠ .boolean c := fun hl => by simp [hl, Literal.isBoolean] at h
    cases b <;> simp [hne, mem_keptLiterals_of_not_boolean h ls false]

theorem keptLiterals_subset {l : Literal N} : ∀ {ls : List (Literal N)} {b : Bool},
    l ∈ keptLiterals b ls → l ∈ ls
  | [], _, h => h
  | .string s :: ls, b, h => by
    rw [keptLiterals_string, List.mem_cons] at h
    exact List.mem_cons.2 (h.imp_right keptLiterals_subset)
  | .number n :: ls, b, h => by
    rw [keptLiterals_number, List.mem_cons] at h
    exact List.mem_cons.2 (h.imp_right keptLiterals_subset)
  | .boolean c :: ls, true, h => by
    rw [keptLiterals_first, List.mem_cons] at h
    exact List.mem_cons.2 (h.imp_right keptLiterals_subset)
  | .boolean c :: ls, false, h => List.mem_cons_of_mem _ (keptLiterals_subset h)

/-- No truth value is kept after the first. -/
theorem boolean_not_kept (c : Bool) : ∀ ls : List (Literal N), .boolean c ∉ keptLiterals false ls
  | [] => List.not_mem_nil
  | .string s :: ls => by simpa using boolean_not_kept c ls
  | .number n :: ls => by simpa using boolean_not_kept c ls
  | .boolean _ :: ls => boolean_not_kept c ls

theorem kept_boolean_eq {b c : Bool} : ∀ {ls : List (Literal N)},
    .boolean b ∈ keptLiterals true ls → .boolean c ∈ keptLiterals true ls → b = c
  | [], h, _ => nomatch h
  | .string s :: ls, h, h' => kept_boolean_eq (by simpa using h) (by simpa using h')
  | .number n :: ls, h, h' => kept_boolean_eq (by simpa using h) (by simpa using h')
  | .boolean d :: ls, h, h' => by
    simp only [keptLiterals_first, List.mem_cons, boolean_not_kept, or_false,
      Literal.boolean.injEq] at h h'
    exact h.trans h'.symm

/-- A truth value is kept unless the other one comes before. -/
theorem boolean_kept {b : Bool} : ∀ {ls : List (Literal N)},
    .boolean b ∈ ls → .boolean (!b) ∉ ls → .boolean b ∈ keptLiterals true ls
  | [], h, _ => nomatch h
  | .string s :: ls, h, hn => by
    rw [keptLiterals_string]
    exact List.mem_cons_of_mem _ (boolean_kept (by simpa using h) (by simpa using hn))
  | .number n :: ls, h, hn => by
    rw [keptLiterals_number]
    exact List.mem_cons_of_mem _ (boolean_kept (by simpa using h) (by simpa using hn))
  | .boolean c :: ls, _, hn => by
    have hc : c = b := by
      cases b <;> cases c <;> simp_all
    rw [hc, keptLiterals_first]
    exact List.mem_cons_self

theorem keptLiterals_eq_nil {ls : List (Literal N)} (h : keptLiterals true ls = []) : ls = [] := by
  rcases ls with _ | ⟨(s | n | c), ls⟩
  · rfl
  all_goals simp at h

theorem all_boolean_of_kept_false {ls : List (Literal N)} (h : keptLiterals false ls = []) :
    ls.all Literal.isBoolean := by
  rw [List.all_eq_true]
  intro l hl
  by_contra hb
  have hkept := (mem_keptLiterals_of_not_boolean (by simpa using hb) ls false).2 hl
  exact List.not_mem_nil (h ▸ hkept)

/-- One literal is kept of one, or of truth values only. -/
theorem keptLiterals_single {l : Literal N} : ∀ {ls : List (Literal N)},
    keptLiterals true ls = [l] → ls = [l] ∨ (l.isBoolean ∧ ls.all Literal.isBoolean)
  | [], h => nomatch h
  | .string s :: ls, h => by
    rw [keptLiterals_string, List.cons.injEq] at h
    exact .inl (by rw [h.1, keptLiterals_eq_nil h.2])
  | .number n :: ls, h => by
    rw [keptLiterals_number, List.cons.injEq] at h
    exact .inl (by rw [h.1, keptLiterals_eq_nil h.2])
  | .boolean c :: ls, h => by
    rw [keptLiterals_first, List.cons.injEq] at h
    refine .inr ⟨h.1 ▸ rfl, ?_⟩
    rw [List.all_cons, all_boolean_of_kept_false h.2]
    rfl

variable [LiteralNumber N] (F : Factory)

/-- What `parseUnion` makes of a literal. -/
def literalResult : Literal N → Except ParserError (Node N)
  | .string s => createLiteral F (.string s)
  | .number n => createLiteral F (.number n)
  | .boolean b => .ok (Literal.boolean b).node

/-- The string is read as a truth value or a number. -/
def IsReread (s : JsString) : Prop := s = js "true" ∨ s = js "false" ∨ isNumeral s

/-- Each literal keeps its kind and none is left out: no string is read as something else, every
number is written as a numeral, and both truth values are there only by themselves. -/
structure KeepsKinds (ls : List (Literal N)) : Prop where
  strings : ∀ s, .string s ∈ ls → ¬ IsReread s
  numbers : ∀ n, .number n ∈ ls → isNumeral (toText n)
  booleans : .boolean true ∈ ls → .boolean false ∈ ls → ls.all Literal.isBoolean

variable {F}

theorem literalResult_string {s : JsString} (h : ¬ IsReread s) :
    literalResult F (.string s : Literal N) = .ok (.stringLiteral (.string s)) := by
  simp only [IsReread, not_or] at h
  simp [literalResult, createLiteral, h]

theorem literalResult_reread {s : JsString} (h : IsReread s) {v : LiteralValue N} :
    literalResult F (.string s : Literal N) ≠ .ok (.stringLiteral v) := by
  unfold IsReread at h
  simp only [literalResult, createLiteral, Factory.createNumericLiteral]
  split_ifs <;> simp_all

theorem literalResult_number {n : N} (h : isNumeral (toText n))
    (hn : (toText n).head? ≠ some 45) :
    literalResult F (.number n) = .ok (.numericLiteral n) := by
  simp [literalResult, createLiteral, Factory.createNumericLiteral, h, hn]

/-- What is made of a literal is a literal node of its own kind, or of a string that is reread. -/
theorem literalResult_eq_node {l k : Literal N} (h : literalResult F l = .ok k.node) :
    (l = k ∧ ∀ n, l = .number n → isNumeral (toText n)) ∨
      ∃ s, l = .string s ∧ IsReread s ∧ ∀ s', k ≠ .string s' := by
  cases l with
  | string s =>
    by_cases hs : IsReread s
    · exact .inr ⟨s, rfl, hs, fun s' hk => literalResult_reread hs (hk ▸ h)⟩
    · rw [literalResult_string hs] at h
      cases k with
      | string s' => simp_all [Literal.node]
      | number n => simp [Literal.node] at h
      | boolean b => cases b <;> simp [Literal.node] at h
  | number n =>
    simp only [literalResult, createLiteral, Factory.createNumericLiteral] at h
    split_ifs at h with hnumeral
    · cases k with
      | string s' => simp [Literal.node] at h
      | number m => simp_all [Literal.node]
      | boolean b => cases b <;> simp [Literal.node] at h
    · cases k with
      | string s' => simp [Literal.node] at h
      | number m => simp [Literal.node] at h
      | boolean b => cases b <;> simp [Literal.node] at h
  | boolean b =>
    cases k with
    | string s' => cases b <;> simp [literalResult, Literal.node] at h
    | number m => cases b <;> simp [literalResult, Literal.node] at h
    | boolean c => cases b <;> cases c <;> simp_all [literalResult, Literal.node]

theorem literalNode_eq {u : τ} {l : Literal N} (h : IsLiteralType (G u) l) :
    literalNode F G u = literalResult F l := by
  have htext : js "true" ≠ js "false" := by decide
  cases l with
  | string s => simp [literalNode, isBooleanLiteral, literalResult, valueOf, h.1, h.2.1]
  | number n => simp [literalNode, isBooleanLiteral, literalResult, valueOf, h.1, h.2.1]
  | boolean b =>
    cases b <;> simp [literalNode, isBooleanLiteral, literalResult, Literal.node, h.1, h.2, htext]

theorem keepsKinds_of_values {ls : List (Literal N)} {values : List (Node N)}
    (hv : (keptLiterals true ls).mapM (literalResult F) = .ok values)
    (h : ∀ v, v ∈ values ↔ ∃ l ∈ ls, l.node = v) : KeepsKinds ls := by
  have hmade : ∀ k ∈ ls, ∃ l ∈ keptLiterals true ls, literalResult F l = .ok k.node :=
    fun k hk => (mem_mapM_iff hv k.node).1 ((h _).2 ⟨k, hk, rfl⟩)
  have hstrings : ∀ s, Literal.string s ∈ ls → ¬ IsReread s := by
    intro s hs hreread
    obtain ⟨l, hl, hnode⟩ := hmade _ hs
    rcases literalResult_eq_node hnode with ⟨rfl, -⟩ | ⟨-, -, -, hne⟩
    · exact literalResult_reread hreread hnode
    · exact hne s rfl
  have hkept : ∀ k ∈ ls, k ∈ keptLiterals true ls ∧ ∀ n, k = .number n → isNumeral (toText n) := by
    intro k hk
    obtain ⟨l, hl, hnode⟩ := hmade k hk
    rcases literalResult_eq_node hnode with ⟨rfl, hnumber⟩ | ⟨s, rfl, hreread, -⟩
    · exact ⟨hl, hnumber⟩
    · exact absurd hreread (hstrings s (keptLiterals_subset hl))
  refine ⟨hstrings, fun n hn => (hkept _ hn).2 n rfl, fun ht hf => ?_⟩
  exact absurd (kept_boolean_eq (hkept _ ht).1 (hkept _ hf).1) (by decide)

theorem values_of_keepsKinds {ls : List (Literal N)} (hb : ¬ ls.all Literal.isBoolean)
    (hn : ∀ n, .number n ∈ ls → (toText n).head? ≠ some 45) (h : KeepsKinds ls) :
    ∃ values, (keptLiterals true ls).mapM (literalResult F) = .ok values ∧
      ∀ v, v ∈ values ↔ ∃ l ∈ ls, l.node = v := by
  have hresult : ∀ l ∈ ls, literalResult F l = .ok l.node := by
    rintro (s | n | b) hl
    · exact literalResult_string (h.strings s hl)
    · exact literalResult_number (h.numbers n hl) (hn n hl)
    · rfl
  have hkept : ∀ l, l ∈ keptLiterals true ls ↔ l ∈ ls := by
    rintro (s | n | b)
    · exact mem_keptLiterals_of_not_boolean rfl ls true
    · exact mem_keptLiterals_of_not_boolean rfl ls true
    · refine ⟨keptLiterals_subset, fun hl => boolean_kept hl fun hother => hb ?_⟩
      cases b
      · exact h.booleans hother hl
      · exact h.booleans hl hother
  refine ⟨(keptLiterals true ls).map Literal.node, ?_, fun v => by simp [hkept]⟩
  rw [mapM_eq_ok, List.forall₂_map_right_iff]
  exact List.forall₂_same.2 fun l hl => hresult l (keptLiterals_subset hl)

omit [LiteralNumber N] in
theorem isLiteral_of_literalType {u : τ} {l : Literal N} (h : IsLiteralType (G u) l) :
    isLiteral G u := by
  cases l <;> rw [isLiteral, h.1] <;> decide

omit [LiteralNumber N] in
theorem isBooleanLiteral_of_literalType {u : τ} {l : Literal N} (h : IsLiteralType (G u) l)
    (hl : l.isBoolean) : isBooleanLiteral G u := by
  cases l with
  | boolean b => simp [isBooleanLiteral, h.1]
  | string s => simp [Literal.isBoolean] at hl
  | number n => simp [Literal.isBoolean] at hl

theorem literals_mapM {us : List τ} {ls : List (Literal N)}
    (h : List.Forall₂ (fun u l => IsLiteralType (G u) l) us ls) :
    us.mapM (literalNode F G) = ls.mapM (literalResult F) := by
  induction h with
  | nil => rfl
  | cons hl _ ih => rw [List.mapM_cons, List.mapM_cons, literalNode_eq hl, ih]

theorem parseSeveral_literals {parse : τ → Parsed (Node N)} {us : List τ} {ls : List (Literal N)}
    (h : List.Forall₂ (fun u l => IsLiteralType (G u) l) us ls) (hus : us ≠ []) :
    parseSeveral F G parse us = lift ((ls.mapM (literalResult F)).map enumSchema) := by
  have hall : us.all (isLiteral G) := by
    clear hus
    induction h with
    | nil => rfl
    | cons hl _ ih => rw [List.all_cons, isLiteral_of_literalType hl, ih, Bool.true_and]
  rw [parseSeveral, if_pos ⟨hus, hall⟩, literals_mapM h]

omit [LiteralNumber N] in
theorem not_all_boolean_of_kept {l k : Literal N} {ks : List (Literal N)} :
    ∀ {ls : List (Literal N)}, keptLiterals true ls = l :: k :: ks → ¬ ls.all Literal.isBoolean
  | [], h => nomatch h
  | .string s :: ls, _ => by simp [Literal.isBoolean]
  | .number n :: ls, _ => by simp [Literal.isBoolean]
  | .boolean c :: ls, h => by
    rw [keptLiterals_first, List.cons.injEq] at h
    intro hall
    have hk : k ∈ keptLiterals false ls := h.2 ▸ List.mem_cons_self
    have hkb := List.all_eq_true.1 hall k (List.mem_cons_of_mem _ (keptLiterals_subset hk))
    cases k with
    | boolean b => exact boolean_not_kept b ls hk
    | string s => simp [Literal.isBoolean] at hkb
    | number n => simp [Literal.isBoolean] at hkb

theorem keepsKinds_of_boolean {ls : List (Literal N)} (h : ls.all Literal.isBoolean) :
    KeepsKinds ls := by
  rw [List.all_eq_true] at h
  exact ⟨fun s hs => by simpa [Literal.isBoolean] using h _ hs,
    fun n hn => by simpa [Literal.isBoolean] using h _ hn, fun _ _ => List.all_eq_true.2 h⟩

theorem parseUnion_admits_iff {parse : τ → Parsed (Node N)} {type : TsType τ N}
    {ls : List (Literal N)} (h : IsLiteralUnion G type ls) :
    (∃ schema, parseUnion F G parse type = .ok schema ∧ AdmitsExactly ls schema) ↔
      KeepsKinds ls := by
  have hkept := keptTypes_literals h.types true
  have htwo := h.two
  rcases hk : keptLiterals true ls with _ | ⟨l, _ | ⟨k, ks⟩⟩
  · simp [keptLiterals_eq_nil hk] at htwo
  · rcases keptLiterals_single hk with rfl | ⟨hl, hall⟩
    · simp at htwo
    rw [hk] at hkept
    obtain ⟨u, us, hu, hrest, hus⟩ := List.forall₂_cons_right_iff.1 hkept
    obtain rfl := List.forall₂_nil_right_iff.1 hrest
    have hunion : unionTypes G type = [u] := hus
    refine iff_of_true ⟨typeSchema (js "boolean"), ?_, ?_⟩ (keepsKinds_of_boolean hall)
    · simp only [parseUnion, hunion, isBooleanLiteral_of_literalType hu hl, if_true]
      rfl
    · rw [AdmitsExactly, if_pos hall]
  · have hall := not_all_boolean_of_kept hk
    have hresult : parseUnion F G parse type
        = lift (((keptLiterals true ls).mapM (literalResult F)).map enumSchema) := by
      have hforall := hkept
      rw [hk] at hkept
      obtain ⟨u, us, -, hrest, hus⟩ := List.forall₂_cons_right_iff.1 hkept
      obtain ⟨v, vs, -, -, rfl⟩ := List.forall₂_cons_right_iff.1 hrest
      have hunion : unionTypes G type = u :: v :: vs := hus
      simp only [parseUnion, hunion]
      exact parseSeveral_literals (hus ▸ hforall) (List.cons_ne_nil u _)
    simp only [hresult, lift_eq_ok, map_eq_ok, AdmitsExactly, if_neg hall]
    constructor
    · rintro ⟨schema, ⟨values, hvalues, rfl⟩, values', heq, hv⟩
      obtain rfl : values = values' := by simpa [enumSchema] using heq
      exact keepsKinds_of_values hvalues hv
    · intro hkeeps
      obtain ⟨values, hvalues, hv⟩ := values_of_keepsKinds hall h.nonNegative hkeeps
      exact ⟨_, ⟨values, hvalues, rfl⟩, values, rfl, hv⟩

/-- The type of a literal, as the compiler makes it. -/
def literalType : TsGraph (Literal ℤ) ℤ
  | .string s =>
    { (bareType {.stringLiteral} : TsType (Literal ℤ) ℤ) with
      value := some (.string s)
      typeString := quoted s }
  | .number n =>
    { (bareType {.numberLiteral} : TsType (Literal ℤ) ℤ) with
      value := some (.number n)
      typeString := toText n }
  | .boolean b =>
    { (bareType {.booleanLiteral} : TsType (Literal ℤ) ℤ) with
      intrinsicName := some (if b then js "true" else js "false")
      typeString := if b then js "true" else js "false" }

def literalUnion (ls : List (Literal ℤ)) : TsType (Literal ℤ) ℤ :=
  { bareType {.union} with types := ls }

theorem parseUnion_admits_iff_on : ∃ schema,
    parseUnion ⟨false, false⟩ literalType (parseType ⟨false, false⟩ literalType 0)
      (literalUnion [.boolean true, .string (js "on"), .number 5]) = .ok schema ∧
    AdmitsExactly [.boolean true, .string (js "on"), .number 5] schema := by
  have hon : ¬ IsReread (js "on") := by
    unfold IsReread
    decide
  have htypes : LiteralTypes literalType [.boolean true, .string (js "on"), .number 5]
      [.boolean true, .string (js "on"), .number 5] := by
    refine .literal ?_ (.literal ?_ (.literal ?_ .nil))
    · exact ⟨rfl, rfl⟩
    · exact ⟨rfl, rfl, by decide⟩
    · exact ⟨rfl, rfl, by decide⟩
  have hfive : isNumeral (toText (5 : ℤ)) ∧ (toText (5 : ℤ)).head? ≠ some 45 := by decide
  refine (parseUnion_admits_iff ⟨htypes, by decide, ?_⟩).2 ⟨?_, ?_, ?_⟩
  · simpa using hfive.2
  · simpa using hon
  · simpa using hfive.1
  · simp

/-- `false | true | 'on'` is parsed as `false | 'on'`. -/
theorem parseUnion_leaves_out_true : ¬ ∃ schema,
    parseUnion ⟨false, false⟩ literalType (parseType ⟨false, false⟩ literalType 0)
      (literalUnion [.boolean false, .boolean true, .string (js "on")]) = .ok schema ∧
    AdmitsExactly [.boolean false, .boolean true, .string (js "on")] schema := by
  have hresult : parseUnion ⟨false, false⟩ literalType (parseType ⟨false, false⟩ literalType 0)
      (literalUnion [.boolean false, .boolean true, .string (js "on")])
        = .ok (enumSchema [.false, .stringLiteral (.string (js "on"))]) := rfl
  rintro ⟨schema, hschema, hadmits⟩
  obtain rfl := Except.ok.inj (hresult.symm.trans hschema)
  obtain ⟨values, heq, hv⟩ := hadmits
  obtain rfl : _ = values := by simpa [enumSchema] using heq
  have htrue := (hv .true).2 ⟨.boolean true, by simp, rfl⟩
  simp at htrue

end TypeParser

end DiiaApp
