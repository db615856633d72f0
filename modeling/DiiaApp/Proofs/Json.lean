import DiiaApp.Js.Json
import DiiaApp.Proofs.Text
import DiiaApp.Steps
import Mathlib.Data.List.TakeWhile

/-!
# What is printed is read back

The reader takes the text of a tree to the tree (`parse_print`): a string literal is read point by
point, and after a value any code unit that no number holds finds the value complete (`Done`).
-/

namespace Js

open Steps

theorem digitsToEnd_units {s : JsString} (h : digitsToEnd s) : ∀ u ∈ s, isNumberUnit u := by
  simp only [digitsToEnd, decide_eq_true_eq, List.all_eq_true] at h
  intro u hu
  simp [isNumberUnit, h.2 u hu]

theorem isExponent_units : ∀ {s : JsString}, isExponent s → ∀ u ∈ s, isNumberUnit u
  | [], _ => by simp
  | e :: s, h => by
    simp only [isExponent, decide_eq_true_eq] at h
    intro u hu
    rcases List.mem_cons.1 hu with rfl | hu
    · rcases h.1 with rfl | rfl <;> decide
    · rcases s with _ | ⟨d, s⟩
      · simp at hu
      simp only [dropSign] at h
      split_ifs at h with hd
      · rcases List.mem_cons.1 hu with rfl | hu
        · rcases hd with rfl | rfl <;> decide
        · exact digitsToEnd_units h.2 u hu
      · exact digitsToEnd_units h.2 u hu

theorem mem_of_digits {s : JsString} {u : CodeUnit} (h : u ∈ s) :
    isDigit u ∨ u ∈ s.dropWhile isDigit := by
  rw [← List.takeWhile_append_dropWhile (p := isDigit) (l := s)] at h
  rcases List.mem_append.1 h with h | h
  · exact .inl (List.mem_takeWhile_imp h)
  · exact .inr h

theorem isFraction_units : ∀ {s : JsString}, isFraction s → ∀ u ∈ s, isNumberUnit u
  | [], _ => by simp
  | d :: s, h => by
    simp only [isFraction] at h
    split_ifs at h with hd
    · subst hd
      simp only [decide_eq_true_eq] at h
      intro u hu
      rcases List.mem_cons.1 hu with rfl | hu
      · decide
      · rcases mem_of_digits hu with hu | hu
        · simp [isNumberUnit, hu]
        · exact isExponent_units h.2 u hu
    · exact isExponent_units h

theorem isUnsigned_units : ∀ {s : JsString}, isUnsigned s → ∀ u ∈ s, isNumberUnit u
  | [], _ => by simp
  | d :: s, h => by
    simp only [isUnsigned] at h
    intro u hu
    split_ifs at h with hd
    · subst hd
      rcases List.mem_cons.1 hu with rfl | hu
      · decide
      · exact isFraction_units h u hu
    · simp only [decide_eq_true_eq] at h
      rcases List.mem_cons.1 hu with rfl | hu
      · simp [isNumberUnit, h.1]
      · rcases mem_of_digits hu with hu | hu
        · simp [isNumberUnit, hu]
        · exact isFraction_units h.2 u hu

theorem isNumber_units : ∀ {s : JsString}, isNumber s → ∀ u ∈ s, isNumberUnit u
  | [], _ => by simp
  | d :: s, h => by
    simp only [isNumber] at h
    split_ifs at h with hd
    · subst hd
      intro u hu
      rcases List.mem_cons.1 hu with rfl | hu
      · decide
      · exact isUnsigned_units h u hu
    · exact isUnsigned_units h

/-- A number token starts with a sign or a digit. -/
theorem isNumber_head {s : JsString} (h : isNumber s) :
    ∃ c rest, s = c :: rest ∧ (c = 45 ∨ isDigit c) := by
  rcases s with _ | ⟨c, rest⟩
  · simp [isNumber] at h
  refine ⟨c, rest, rfl, ?_⟩
  simp only [isNumber] at h
  split_ifs at h with hc
  · exact .inl hc
  · simp only [isUnsigned] at h
    split_ifs at h with h0
    · subst h0
      exact .inr (by decide)
    · simp only [decide_eq_true_eq] at h
      exact .inr h.1

theorem hexVal_hexLower : ∀ n, n < 16 → hexVal (hexLower n) = some n := by decide

namespace Json

variable {N : Type}

mutual

theorem merged_of_wellFormed : ∀ {v : Json N}, WellFormed v → merged v = v
  | .null, _ => rfl
  | .bool _, _ => rfl
  | .num _, _ => rfl
  | .str _, _ => rfl
  | .arr xs, h => by
    rw [merged, mergedItems_of_wellFormed h]
  | .obj es, h => by
    have hes : mergedEntries [] es = [] ++ es := mergedEntries_of_wellFormed h.1 h.2
    rw [merged, hes, List.nil_append]

theorem mergedItems_of_wellFormed : ∀ {xs : List (Json N)}, ItemsWellFormed xs →
    mergedItems xs = xs
  | [], _ => rfl
  | x :: xs, h => by
    rw [mergedItems, merged_of_wellFormed h.1, mergedItems_of_wellFormed h.2]

theorem mergedEntries_of_wellFormed : ∀ {es acc : List (JsString × Json N)},
    ((acc ++ es).map Prod.fst).Nodup → EntriesWellFormed es → mergedEntries acc es = acc ++ es
  | [], acc, _, _ => by rw [mergedEntries, List.append_nil]
  | (k, v) :: es, acc, hn, h => by
    have hput : Map.put k v acc = acc ++ [(k, v)] := by
      refine Map.put_of_not_mem fun hk => ?_
      rw [List.map_append, List.map_cons, List.nodup_append] at hn
      exact hn.2.2 k hk k List.mem_cons_self rfl
    rw [mergedEntries, merged_of_wellFormed h.1, hput,
      mergedEntries_of_wellFormed (by rwa [List.append_assoc, List.singleton_append]) h.2,
      List.append_assoc, List.singleton_append]

end

variable [JsNumber N]

theorem runs_one {st st' : Reader N} {c : CodeUnit} (h : step st c = some st') :
    Runs step st [c] st' :=
  runs_cons.2 ⟨st', h, runs_nil.2 rfl⟩

theorem step_hex {fs : List (Frame N)} {t : Target N} {acc : JsString} {left val n : ℕ}
    (hn : n < 16) (hl : left ≠ 1) :
    step ⟨fs, .hex t acc left val⟩ (hexLower n)
      = some ⟨fs, .hex t acc (left - 1) (16 * val + n)⟩ := by
  simp only [step, stepHex, hexVal_hexLower n hn, Option.map_some, if_neg hl]

theorem runs_unicodeEscape {fs : List (Frame N)} {t : Target N} {acc : JsString} {cp : ℕ}
    (h : cp < 65536) :
    Runs step ⟨fs, .string t acc⟩ (unicodeEscape cp) ⟨fs, .string t (UInt16.ofNat cp :: acc)⟩ := by
  unfold unicodeEscape
  refine runs_cons.2 ⟨⟨fs, .escape t acc⟩, rfl, runs_cons.2 ⟨⟨fs, .hex t acc 4 0⟩, rfl, ?_⟩⟩
  refine runs_cons.2 ⟨_, step_hex (by omega) (by omega), runs_cons.2 ⟨_, step_hex (by omega)
    (by omega), runs_cons.2 ⟨_, step_hex (by omega) (by omega), runs_one ?_⟩⟩⟩
  have hval : 16 * (16 * (16 * (16 * 0 + cp / 4096) + cp / 256 % 16) + cp / 16 % 16) + cp % 16
      = cp := by omega
  simp only [step, stepHex, hexVal_hexLower (cp % 16) (by omega), Option.map_some, hval]
  rfl

/-- A code unit that needs no escape is read as itself. -/
theorem step_unit {fs : List (Frame N)} {t : Target N} {acc : JsString} {u : CodeUnit}
    (h1 : u ≠ 34) (h2 : u ≠ 92) (h3 : 32 ≤ u.toNat) :
    step ⟨fs, .string t acc⟩ u = some ⟨fs, .string t (u :: acc)⟩ := by
  simp only [step, stepString, if_neg h1, if_neg h2, if_neg (Nat.not_lt.2 h3)]

theorem runs_units {fs : List (Frame N)} {t : Target N} :
    ∀ {us : JsString} {acc : JsString}, (∀ u ∈ us, u ≠ 34 ∧ u ≠ 92 ∧ 32 ≤ u.toNat) →
      Runs step ⟨fs, .string t acc⟩ us ⟨fs, .string t (us.reverse ++ acc)⟩
  | [], _, _ => runs_nil.2 rfl
  | u :: us, acc, h => by
    obtain ⟨h1, h2, h3⟩ := h u List.mem_cons_self
    rw [List.reverse_cons, List.append_assoc]
    exact runs_cons.2 ⟨_, step_unit h1 h2 h3,
      runs_units fun v hv => h v (List.mem_cons_of_mem _ hv)⟩

/-- The code units of a point that is no control stand for themselves. -/
theorem utf16_units {cp : ℕ} (h1 : 32 ≤ cp) (h2 : cp ≠ 34) (h3 : cp ≠ 92) (h4 : cp ≤ 0x10FFFF) :
    ∀ u ∈ utf16 cp, u ≠ 34 ∧ u ≠ 92 ∧ 32 ≤ u.toNat := by
  intro u hu
  have hne : ∀ n, n < 65536 → n ≠ 34 → n ≠ 92 → 32 ≤ n → u = UInt16.ofNat n →
      u ≠ 34 ∧ u ≠ 92 ∧ 32 ≤ u.toNat := by
    intro n hn h34 h92 h32 he
    have ht := (eq_ofNat_iff hn).1 he
    exact ⟨ne_ofNat (n := 34) (by omega) (by omega), ne_ofNat (n := 92) (by omega) (by omega),
      by omega⟩
  unfold utf16 at hu
  split_ifs at hu with hb
  · rw [List.mem_singleton] at hu
    exact hne cp hb h2 h3 h1 hu
  · rcases List.mem_cons.1 hu with hu | hu
    · exact hne _ (by omega) (by omega) (by omega) (by omega) hu
    · rw [List.mem_singleton] at hu
      exact hne _ (by omega) (by omega) (by omega) (by omega) hu

theorem runs_quotePoint {fs : List (Frame N)} {t : Target N} {acc : JsString} {cp : ℕ}
    (h : cp ≤ 0x10FFFF) :
    Runs step ⟨fs, .string t acc⟩ (quotePoint cp) ⟨fs, .string t ((utf16 cp).reverse ++ acc)⟩ := by
  unfold quotePoint
  split_ifs with h1 h2 h3 h4 h5 h6 h7 h8
  · subst h1; rfl
  · subst h2; rfl
  · subst h3; rfl
  · subst h4; rfl
  · subst h5; rfl
  · subst h6; rfl
  · subst h7; rfl
  · have hlt : cp < 65536 := by
      rcases h8 with h8 | h8
      · omega
      · simp only [isSurrogate, decide_eq_true_eq] at h8
        omega
    rw [utf16, if_pos hlt]
    exact runs_unicodeEscape hlt
  · rw [not_or] at h8
    exact runs_units (utf16_units (by omega) h6 h7 h)

theorem runs_quoteBody {fs : List (Frame N)} {t : Target N} :
    ∀ {cps : List ℕ} {acc : JsString}, (∀ cp ∈ cps, cp ≤ 0x10FFFF) →
      Runs step ⟨fs, .string t acc⟩ (cps.flatMap quotePoint)
        ⟨fs, .string t ((cps.flatMap utf16).reverse ++ acc)⟩
  | [], _, _ => runs_nil.2 rfl
  | cp :: cps, acc, h => by
    rw [List.flatMap_cons, List.flatMap_cons, List.reverse_append, List.append_assoc]
    exact runs_append.2 ⟨_, runs_quotePoint (h cp List.mem_cons_self),
      runs_quoteBody fun x hx => h x (List.mem_cons_of_mem _ hx)⟩

/-- A string literal is read from its opening quote on. -/
theorem runs_quoted (fs : List (Frame N)) (t : Target N) (s : JsString) :
    Runs step ⟨fs, .string t []⟩ (quoteBody s ++ [34]) (endString s.reverse fs t) := by
  have hb := @runs_quoteBody N _ fs t (codePoints s) [] fun cp hcp => codePoints_le hcp
  rw [flatMap_codePoints, List.append_nil] at hb
  refine runs_append.2 ⟨_, hb, runs_one ?_⟩
  simp only [step, stepString, if_true]

/-- The reader has read the value `v`, or a number it may still go on with. -/
def Done (fs : List (Frame N)) (v : Json N) (st : Reader N) : Prop :=
  st = ⟨fs, .after v⟩ ∨ ∃ acc, st = ⟨fs, .number acc⟩ ∧ isNumber acc.reverse ∧
    v = .num (JsNumber.ofText acc.reverse)

theorem Done.step {fs : List (Frame N)} {v : Json N} {st : Reader N} (h : Done fs v st)
    {c : CodeUnit} (hc : isNumberUnit c = false) : step st c = stepAfter v c fs := by
  rcases h with rfl | ⟨acc, rfl, hn, rfl⟩
  · rfl
  · simp only [Json.step, stepNumber, hc, hn, if_true, Bool.false_eq_true, if_false]

theorem Done.finish {v : Json N} {st : Reader N} (h : Done [] v st) : finish st = some v := by
  rcases h with rfl | ⟨acc, rfl, hn, rfl⟩
  · rfl
  · simp only [Json.finish, hn, if_true]

theorem runs_number {fs : List (Frame N)} :
    ∀ {us : JsString} {acc : JsString}, (∀ u ∈ us, isNumberUnit u) →
      Runs step ⟨fs, .number acc⟩ us ⟨fs, .number (us.reverse ++ acc)⟩
  | [], _, _ => runs_nil.2 rfl
  | u :: us, acc, h => by
    rw [List.reverse_cons, List.append_assoc]
    refine runs_cons.2 ⟨_, ?_, runs_number fun v hv => h v (List.mem_cons_of_mem _ hv)⟩
    simp only [step, stepNumber, h u List.mem_cons_self, if_true, List.singleton_append]

theorem number_reads (fs : List (Frame N)) (close : Bool) (n : N) :
    ∃ st, Runs step ⟨fs, .value close⟩ (JsNumber.toText n) st ∧ Done fs (.num n) st := by
  have hn := JsNumber.isNumber_toText n
  obtain ⟨c, rest, he, hc⟩ := isNumber_head hn
  have hunits := isNumber_units hn
  rw [he] at hunits
  refine ⟨⟨fs, .number (rest.reverse ++ [c])⟩, ?_, .inr ⟨_, rfl, ?_, ?_⟩⟩
  · rw [he]
    refine runs_cons.2 ⟨⟨fs, .number [c]⟩, ?_,
      runs_number fun u hu => hunits u (List.mem_cons_of_mem _ hu)⟩
    have hr : 45 = c.toNat ∨ (48 ≤ c.toNat ∧ c.toNat ≤ 57) := by
      rcases hc with rfl | hc
      · exact .inl rfl
      · simp only [isDigit, decide_eq_true_eq] at hc
        exact .inr hc
    have hne : ∀ m, m < 45 ∨ 57 < m → m < 65536 → c ≠ UInt16.ofNat m := fun m hm hlt =>
      ne_ofNat hlt (by omega)
    have hspace : isSpace c = false := by
      simp only [isSpace, decide_eq_false_iff_not, not_or]
      exact ⟨hne 32 (by omega) (by omega), hne 9 (by omega) (by omega),
        hne 10 (by omega) (by omega), hne 13 (by omega) (by omega)⟩
    have h34 : c ≠ 34 := hne 34 (by omega) (by omega)
    have h123 : c ≠ 123 := hne 123 (by omega) (by omega)
    have h91 : c ≠ 91 := hne 91 (by omega) (by omega)
    have h93 : c ≠ 93 := hne 93 (by omega) (by omega)
    have h116 : c ≠ 116 := hne 116 (by omega) (by omega)
    have h102 : c ≠ 102 := hne 102 (by omega) (by omega)
    have h110 : c ≠ 110 := hne 110 (by omega) (by omega)
    simp only [step, stepValue, hspace, if_neg h34, if_neg h123, if_neg h91, h93, if_neg h116,
      if_neg h102, if_neg h110, if_pos hc, Bool.false_eq_true, if_false, false_and]
  · simpa [← he] using hn
  · simp [← he, JsNumber.ofText_toText]

theorem quote_reads (fs : List (Frame N)) (close : Bool) (s : JsString) :
    Runs step ⟨fs, .value close⟩ (quote s) ⟨fs, .after (.str s)⟩ := by
  refine runs_cons.2 ⟨⟨fs, .string .value []⟩, rfl, ?_⟩
  simpa only [endString, List.reverse_reverse] using runs_quoted fs .value s

/-- The name of an entry and its colon, and what follows them. -/
theorem key_reads {fs : List (Frame N)} {done : List (JsString × Json N)} {close : Bool}
    {k text : JsString} {st : Reader N} (h : Runs step ⟨.obj done k :: fs, .value false⟩ text st) :
    Runs step ⟨fs, .key done close⟩ (quote k ++ 58 :: text) st := by
  have hq := runs_quoted fs (.key done) k
  simp only [endString, List.reverse_reverse] at hq
  refine runs_append.2 ⟨⟨fs, .colon done k⟩, runs_cons.2 ⟨_, rfl, hq⟩, ?_⟩
  exact runs_cons.2 ⟨⟨.obj done k :: fs, .value false⟩, rfl, h⟩

mutual

/-- The text of a tree is read as that tree. -/
theorem print_reads : ∀ (v : Json N) (fs : List (Frame N)) (close : Bool),
    ∃ st, Runs step ⟨fs, .value close⟩ (print v) st ∧ Done fs v st
  | .null, _, _ => ⟨_, rfl, .inl rfl⟩
  | .bool true, _, _ => ⟨_, rfl, .inl rfl⟩
  | .bool false, _, _ => ⟨_, rfl, .inl rfl⟩
  | .num n, fs, close => number_reads fs close n
  | .str s, fs, close => ⟨_, quote_reads fs close s, .inl rfl⟩
  | .arr [], _, _ => ⟨_, rfl, .inl rfl⟩
  | .arr (x :: xs), fs, close => by
    obtain ⟨st, h1, h2⟩ := print_reads x (.arr [] :: fs) true
    refine ⟨_, runs_cons.2 ⟨⟨.arr [] :: fs, .value true⟩, rfl,
      runs_append.2 ⟨st, h1, printItems_reads xs h2⟩⟩, .inl rfl⟩
  | .obj [], _, _ => ⟨_, rfl, .inl rfl⟩
  | .obj ((k, v) :: es), fs, close => by
    obtain ⟨st, h1, h2⟩ := print_reads v (.obj [] k :: fs) false
    refine ⟨_, runs_cons.2 ⟨⟨fs, .key [] true⟩, rfl,
      key_reads (runs_append.2 ⟨st, h1, printEntries_reads es h2⟩)⟩, .inl rfl⟩

/-- The items after the first ones of an array. -/
theorem printItems_reads : ∀ (xs : List (Json N)) {fs : List (Frame N)} {done : List (Json N)}
    {v : Json N} {st : Reader N}, Done (.arr done :: fs) v st →
      Runs step st (printItems xs) ⟨fs, .after (.arr ((v :: done).reverse ++ xs))⟩
  | [], fs, done, v, st, h => by
    refine runs_one ?_
    rw [h.step rfl, List.append_nil]
    rfl
  | x :: xs, fs, done, v, st, h => by
    obtain ⟨st', h1, h2⟩ := print_reads x (.arr (v :: done) :: fs) false
    refine runs_cons.2 ⟨⟨.arr (v :: done) :: fs, .value false⟩, ?_, ?_⟩
    · rw [h.step rfl]
      rfl
    · have h3 := printItems_reads xs h2
      rw [List.reverse_cons, List.append_assoc] at h3
      exact runs_append.2 ⟨st', h1, h3⟩

/-- The entries after the first ones of an object. -/
theorem printEntries_reads : ∀ (es : List (JsString × Json N)) {fs : List (Frame N)}
    {done : List (JsString × Json N)} {k : JsString} {v : Json N} {st : Reader N},
    Done (.obj done k :: fs) v st →
      Runs step st (printEntries es) ⟨fs, .after (.obj (((k, v) :: done).reverse ++ es))⟩
  | [], fs, done, k, v, st, h => by
    refine runs_one ?_
    rw [h.step rfl, List.append_nil]
    rfl
  | (k', x) :: es, fs, done, k, v, st, h => by
    obtain ⟨st', h1, h2⟩ := print_reads x (.obj ((k, v) :: done) k' :: fs) false
    refine runs_cons.2 ⟨⟨fs, .key ((k, v) :: done) false⟩, ?_, ?_⟩
    · rw [h.step rfl]
      rfl
    · have h3 := printEntries_reads es h2
      rw [List.reverse_cons, List.append_assoc] at h3
      exact key_reads (runs_append.2 ⟨st', h1, h3⟩)

end

theorem read_print (v : Json N) : read (print v) = some v := by
  obtain ⟨st, h1, h2⟩ := print_reads v [] false
  unfold read
  rw [show (print v).foldlM step ⟨[], .value false⟩ = some st from h1]
  exact h2.finish

/-- The text of a tree without names given twice is parsed as that tree. -/
theorem parse_print {v : Json N} (h : WellFormed v) : parse (print v) = some v := by
  rw [parse, read_print, Option.map_some, merged_of_wellFormed h]

end Json

end Js
