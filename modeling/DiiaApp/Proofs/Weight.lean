import DiiaApp.Proofs.Json

/-!
# What a text must hold to be read as a tree

A string literal spends a backslash on every code unit that cannot stand for itself, so a text has
at least the weight of any tree it is read as (`read_weight`), and a name given twice only takes
weight away (`merged_size`). Decoding never adds weight, and keeps it only where every escape is a
`%25` (`decode_weight`).
-/

namespace Js

/-- What a code unit of a text weighs. -/
def textUnit (u : CodeUnit) : ℕ :=
  if u = 92 ∨ u = 117 then 1 else if u = percent ∨ isSurrogate u.toNat then 2 else 0

/-- The code units that cannot stand for themselves in a string literal. -/
def isSpecial (u : CodeUnit) : Bool := u = 34 ∨ u = 92 ∨ u.toNat < 32

/-- What a code unit of a string weighs: at least what it is written with. -/
def strUnit (u : CodeUnit) : ℕ :=
  if u = 34 ∨ u = 8 ∨ u = 9 ∨ u = 10 ∨ u = 12 ∨ u = 13 then 1
  else if isSpecial u then 2
  else textUnit u

def textWeight (s : JsString) : ℕ := (s.map textUnit).sum

def strWeight (s : JsString) : ℕ := (s.map strUnit).sum

@[simp] theorem textWeight_nil : textWeight [] = 0 := rfl

@[simp] theorem textWeight_cons (u : CodeUnit) (s : JsString) :
    textWeight (u :: s) = textUnit u + textWeight s := by simp [textWeight]

@[simp] theorem textWeight_append (s t : JsString) :
    textWeight (s ++ t) = textWeight s + textWeight t := by simp [textWeight]

@[simp] theorem strWeight_nil : strWeight [] = 0 := rfl

@[simp] theorem strWeight_cons (u : CodeUnit) (s : JsString) :
    strWeight (u :: s) = strUnit u + strWeight s := by simp [strWeight]

@[simp] theorem strWeight_append (s t : JsString) :
    strWeight (s ++ t) = strWeight s + strWeight t := by simp [strWeight]

@[simp] theorem strWeight_reverse (s : JsString) : strWeight s.reverse = strWeight s := by
  simp [strWeight, List.map_reverse]

theorem strUnit_le (u : CodeUnit) : strUnit u ≤ 2 := by
  unfold strUnit textUnit
  split_ifs <;> omega

/-- A code unit that can stand for itself weighs the same in both. -/
theorem strUnit_of_not_special {u : CodeUnit} (h : ¬ isSpecial u) : strUnit u = textUnit u := by
  simp only [isSpecial, decide_eq_true_eq, not_or] at h
  have hne : ∀ n, n < 32 → u ≠ UInt16.ofNat n := fun n hn => ne_ofNat (by omega) (by omega)
  unfold strUnit
  rw [if_neg, if_neg (by simp [isSpecial, h])]
  simp only [not_or]
  exact ⟨h.1, hne 8 (by omega), hne 9 (by omega), hne 10 (by omega), hne 12 (by omega),
    hne 13 (by omega)⟩

theorem textUnit_eq_zero {u : CodeUnit} (h : u.toNat ≠ 92 ∧ u.toNat ≠ 117 ∧ u.toNat ≠ 37)
    (hs : ¬ isSurrogate u.toNat) : textUnit u = 0 := by
  obtain ⟨h1, h2, h3⟩ := h
  rw [textUnit, if_neg, if_neg]
  · rw [not_or]
    exact ⟨ne_ofNat (n := 37) (by omega) h3, hs⟩
  · rw [not_or]
    exact ⟨ne_ofNat (n := 92) (by omega) h1, ne_ofNat (n := 117) (by omega) h2⟩

/-- Every other one is heavier in a string. -/
theorem textUnit_lt_of_special {u : CodeUnit} (h : isSpecial u) : textUnit u < strUnit u := by
  simp only [isSpecial, decide_eq_true_eq] at h
  rcases h with rfl | rfl | h
  · decide
  · decide
  · rw [textUnit_eq_zero (by omega) (by simp only [isSurrogate, decide_eq_true_eq]; omega)]
    unfold strUnit
    split_ifs with h1 h2
    · omega
    · omega
    · simp [isSpecial, h] at h2

/-! ## Texts that are decoded -/

/-- What the escapes of a text weigh; hexadecimal digits weigh nothing. -/
def Tok.weight : Tok → ℕ
  | .unit u => textUnit u
  | .octet _ => 2

def toksWeight (ts : List Tok) : ℕ := (ts.map Tok.weight).sum

@[simp] theorem toksWeight_nil : toksWeight [] = 0 := rfl

@[simp] theorem toksWeight_cons (t : Tok) (ts : List Tok) :
    toksWeight (t :: ts) = t.weight + toksWeight ts := by simp [toksWeight]

theorem textUnit_of_hexVal {u : CodeUnit} {x : ℕ} (h : hexVal u = some x) : textUnit u = 0 := by
  have hlt : 48 ≤ u.toNat ∧ u.toNat ≤ 102 ∧ u.toNat ≠ 92 := by
    unfold hexVal at h
    split_ifs at h <;> omega
  exact textUnit_eq_zero (by omega) (by simp only [isSurrogate, decide_eq_true_eq]; omega)

/-- The first token of a text is a code unit other than `%` or an octet of two digits. -/
theorem readEscapes_inv {s : JsString} {ts : List Tok} (h : readEscapes s = some ts) :
    (s = [] ∧ ts = []) ∨
    (∃ u s' ts', u ≠ percent ∧ s = u :: s' ∧ ts = .unit u :: ts' ∧ readEscapes s' = some ts') ∨
    (∃ a b s' x y ts', hexVal a = some x ∧ hexVal b = some y ∧ s = percent :: a :: b :: s' ∧
      ts = .octet (16 * x + y) :: ts' ∧ readEscapes s' = some ts') := by
  rcases s with _ | ⟨u, s⟩
  · exact .inl ⟨rfl, (Option.some.inj h).symm⟩
  by_cases hu : u = percent
  · subst hu
    rcases s with _ | ⟨a, _ | ⟨b, s⟩⟩
    · simp [readEscapes] at h
    · simp [readEscapes] at h
    · rw [readEscapes_percent] at h
      obtain ⟨x, hx, h⟩ := Option.bind_eq_some_iff.1 h
      obtain ⟨y, hy, h⟩ := Option.bind_eq_some_iff.1 h
      obtain ⟨ts', hts, rfl⟩ := Option.map_eq_some_iff.1 h
      exact .inr (.inr ⟨a, b, s, x, y, ts', hx, hy, rfl, rfl, hts⟩)
  · rw [readEscapes_cons hu] at h
    obtain ⟨ts', hts, rfl⟩ := Option.map_eq_some_iff.1 h
    exact .inr (.inl ⟨u, s, ts', hu, rfl, rfl, hts⟩)

theorem readEscapes_weight {s : JsString} {ts : List Tok} (h : readEscapes s = some ts) :
    toksWeight ts = textWeight s ∧ ∀ u, .unit u ∈ ts → u ≠ percent := by
  induction ts generalizing s with
  | nil =>
    obtain ⟨rfl, -⟩ | ⟨_, _, _, -, -, h, -⟩ | ⟨_, _, _, _, _, _, -, -, -, h, -⟩ := readEscapes_inv h
    · simp
    · simp at h
    · simp at h
  | cons t ts ih =>
    obtain ⟨-, h⟩ | ⟨u, s', ts', hu, rfl, he, h⟩ | ⟨a, b, s', x, y, ts', ha, hb, rfl, he, h⟩ :=
      readEscapes_inv h
    · simp at h
    · obtain ⟨rfl, rfl⟩ := List.cons.inj he
      obtain ⟨h1, h2⟩ := ih h
      refine ⟨by simp [Tok.weight, h1], fun v hv => ?_⟩
      rcases List.mem_cons.1 hv with hv | hv
      · exact Tok.unit.inj hv ▸ hu
      · exact h2 v hv
    · obtain ⟨rfl, rfl⟩ := List.cons.inj he
      obtain ⟨h1, h2⟩ := ih h
      have hp : textUnit percent = 2 := by decide
      refine ⟨?_, by simpa using h2⟩
      simp only [toksWeight_cons, Tok.weight, textWeight_cons, hp, textUnit_of_hexVal ha,
        textUnit_of_hexVal hb, h1]
      omega

/-- An octet sequence outweighs the code point it encodes. -/
theorem decodeOctets_weight {os : List ℕ} {cp : ℕ} (h : decodeOctets os = some cp) :
    textWeight (utf16 cp) < 2 * os.length := by
  have hunit : ∀ u : CodeUnit, textUnit u ≤ 2 := by
    intro u
    unfold textUnit
    split_ifs <;> omega
  unfold decodeOctets at h
  split_ifs at h with h1
  obtain rfl := Option.some.inj h
  obtain ⟨h1, -, -⟩ := h1
  generalize hcp : octetBits os = cp at h1 ⊢
  subst h1
  unfold utf8 at hcp ⊢
  unfold utf16
  split_ifs at hcp ⊢ with h2 h3 h4 h5
  · have h0 : cp = 0 := hcp.symm
    subst h0
    decide
  all_goals
    have := hunit (UInt16.ofNat cp)
    have := hunit (UInt16.ofNat (0xD800 + (cp - 0x10000) / 0x400))
    have := hunit (UInt16.ofNat (0xDC00 + (cp - 0x10000) % 0x400))
    simp only [textWeight_cons, textWeight_nil, List.length_cons, List.length_nil]
    omega

/-- The token of a code unit where every escape is a `%25`. -/
def tokOf (u : CodeUnit) : Tok := if u = percent then .octet 37 else .unit u

theorem textUnit_octet : ∀ b, b < 128 → textUnit (UInt16.ofNat b) ≤ 2 ∧
    (2 ≤ textUnit (UInt16.ofNat b) → b = 37) := by decide

/-- Joining adds no weight, and keeps it only where every octet is that of `%`. -/
theorem joinToks_weight {os : List ℕ} {n : ℕ} {ts : List Tok} {d : JsString}
    (h : joinToks os n ts = some d) (hu : ∀ u, .unit u ∈ ts → u ≠ percent) :
    textWeight d ≤ toksWeight ts + 2 * os.length ∧
      (toksWeight ts + 2 * os.length ≤ textWeight d → os = [] ∧ ts = d.map tokOf) := by
  induction os, n, ts using joinToks.induct generalizing d with
  | case1 os =>
    rw [joinToks] at h
    obtain rfl := Option.some.inj h
    simp
  | case2 os n => simp [joinToks] at h
  | case3 os u ts ih =>
    rw [joinToks] at h
    obtain ⟨d', hd, rfl⟩ := Option.map_eq_some_iff.1 h
    obtain ⟨h1, h2⟩ := ih hd fun v hv => hu v (List.mem_cons_of_mem _ hv)
    simp only [toksWeight_cons, Tok.weight, textWeight_cons, List.length_nil] at h1 h2 ⊢
    refine ⟨by omega, fun hle => ?_⟩
    obtain ⟨-, rfl⟩ := h2 (by omega)
    refine ⟨List.eq_nil_of_length_eq_zero (by omega), ?_⟩
    rw [List.map_cons, tokOf, if_neg (hu u List.mem_cons_self)]
  | case4 os n u as => simp [joinToks] at h
  | case5 os b as hb => simp [joinToks, hb] at h
  | case6 os b as hb ih =>
    simp only [joinToks, hb] at h
    obtain ⟨d', hd, rfl⟩ := Option.map_eq_some_iff.1 h
    obtain ⟨h1, h2⟩ := ih hd fun v hv => hu v (List.mem_cons_of_mem _ hv)
    have hlt : b < 128 := by
      unfold octetCount at hb
      split_ifs at hb <;> first | assumption | omega
    obtain ⟨h3, h4⟩ := textUnit_octet b hlt
    simp only [toksWeight_cons, Tok.weight, textWeight_cons, List.length_nil] at h1 h2 ⊢
    refine ⟨by omega, fun hle => ?_⟩
    obtain ⟨-, rfl⟩ := h2 (by omega)
    obtain rfl := h4 (by omega)
    exact ⟨List.eq_nil_of_length_eq_zero (by omega), rfl⟩
  | case7 os b as n hb ih =>
    simp only [joinToks, hb] at h
    obtain ⟨h1, h2⟩ := ih h fun v hv => hu v (List.mem_cons_of_mem _ hv)
    simp only [toksWeight_cons, Tok.weight, List.length_cons, List.length_nil] at h1 h2 ⊢
    refine ⟨by omega, fun hle => ?_⟩
    exact absurd (h2 (by omega)).1 (List.cons_ne_nil _ _)
  | case8 os c as ih =>
    rw [joinToks] at h
    obtain ⟨cp, hcp, h⟩ := Option.bind_eq_some_iff.1 h
    obtain ⟨d', hd, rfl⟩ := Option.map_eq_some_iff.1 h
    obtain ⟨h1, -⟩ := ih hd fun v hv => hu v (List.mem_cons_of_mem _ hv)
    have h3 := decodeOctets_weight hcp
    simp only [toksWeight_cons, Tok.weight, textWeight_append, List.length_append,
      List.length_cons, List.length_nil] at h1 h3 ⊢
    exact ⟨by omega, fun hle => by omega⟩
  | case9 os n c as ih =>
    rw [joinToks] at h
    obtain ⟨h1, h2⟩ := ih h fun v hv => hu v (List.mem_cons_of_mem _ hv)
    simp only [toksWeight_cons, Tok.weight, List.length_append, List.length_cons,
      List.length_nil] at h1 h2 ⊢
    refine ⟨by omega, fun hle => ?_⟩
    exact absurd (h2 (by omega)).1 (by simp)

/-- The text that decodes to `d` through `%25` alone. -/
def restore (d : JsString) : JsString := d.flatMap fun u => if u = percent then js "%25" else [u]

theorem hexVal_toNat {u : CodeUnit} {x : ℕ} (h : hexVal u = some x) :
    x < 16 ∧ (x < 10 → u.toNat = 48 + x) := by
  unfold hexVal at h
  split_ifs at h <;> obtain rfl := Option.some.inj h <;> omega

theorem readEscapes_restore {d s : JsString} (h : readEscapes s = some (d.map tokOf)) :
    s = restore d := by
  induction d generalizing s with
  | nil =>
    obtain ⟨rfl, -⟩ | ⟨_, _, _, -, -, h, -⟩ | ⟨_, _, _, _, _, _, -, -, -, h, -⟩ := readEscapes_inv h
    · rfl
    · simp at h
    · simp at h
  | cons u d ih =>
    rw [List.map_cons] at h
    obtain ⟨-, h⟩ | ⟨v, s', ts', hv, rfl, he, hs⟩ |
        ⟨a, b, s', x, y, ts', ha, hb, rfl, he, hs⟩ :=
      readEscapes_inv h
    · simp at h
    · obtain ⟨h1, rfl⟩ := List.cons.inj he
      unfold tokOf at h1
      split_ifs at h1 with hu
      obtain rfl := Tok.unit.inj h1
      rw [restore, List.flatMap_cons, if_neg hv, ih hs]
      rfl
    · obtain ⟨h1, rfl⟩ := List.cons.inj he
      unfold tokOf at h1
      split_ifs at h1 with hu
      have hxy := Tok.octet.inj h1
      obtain ⟨hx, hx'⟩ := hexVal_toNat ha
      obtain ⟨hy, hy'⟩ := hexVal_toNat hb
      obtain rfl : a = UInt16.ofNat 50 := (eq_ofNat_iff (by omega)).2 (by omega)
      obtain rfl : b = UInt16.ofNat 53 := (eq_ofNat_iff (by omega)).2 (by omega)
      rw [restore, List.flatMap_cons, if_pos hu, ih hs]
      rfl

/-- Decoding adds no weight, and keeps it only where every escape is a `%25`. -/
theorem decode_weight {s d : JsString} (h : decodeURIComponent s = some d) :
    textWeight d ≤ textWeight s ∧ (textWeight s ≤ textWeight d → s = restore d) := by
  obtain ⟨ts, hts, hd⟩ := Option.bind_eq_some_iff.1 h
  obtain ⟨h1, hu⟩ := readEscapes_weight hts
  obtain ⟨h2, h3⟩ := joinToks_weight hd hu
  rw [List.length_nil, h1] at h2 h3
  refine ⟨h2, fun hle => ?_⟩
  obtain ⟨-, rfl⟩ := h3 hle
  exact readEscapes_restore hts

namespace Json

variable {N : Type}

/-! ## Sizes of trees -/

section Size

variable (name : JsString → ℕ) (leaf : Json N → ℕ)

mutual

/-- The sizes of the names and of the leaves of a tree taken together. -/
def size : Json N → ℕ
  | .arr xs => itemsSize xs
  | .obj es => entriesSize es
  | v => leaf v

def itemsSize : List (Json N) → ℕ
  | [] => 0
  | x :: xs => size x + itemsSize xs

def entriesSize : List (JsString × Json N) → ℕ
  | [] => 0
  | (k, x) :: es => name k + size x + entriesSize es

end

theorem itemsSize_append : ∀ xs ys : List (Json N),
    itemsSize name leaf (xs ++ ys) = itemsSize name leaf xs + itemsSize name leaf ys
  | [], ys => by simp [itemsSize]
  | x :: xs, ys => by
    simp only [List.cons_append, itemsSize, itemsSize_append xs ys]
    omega

theorem entriesSize_append : ∀ es fs : List (JsString × Json N),
    entriesSize name leaf (es ++ fs) = entriesSize name leaf es + entriesSize name leaf fs
  | [], fs => by simp [entriesSize]
  | (k, x) :: es, fs => by
    simp only [List.cons_append, entriesSize, entriesSize_append es fs]
    omega

theorem itemsSize_reverse (xs : List (Json N)) :
    itemsSize name leaf xs.reverse = itemsSize name leaf xs := by
  induction xs with
  | nil => rfl
  | cons x xs ih =>
    simp only [List.reverse_cons, itemsSize_append, ih, itemsSize]
    omega

theorem entriesSize_reverse (es : List (JsString × Json N)) :
    entriesSize name leaf es.reverse = entriesSize name leaf es := by
  induction es with
  | nil => rfl
  | cons e es ih =>
    simp only [List.reverse_cons, entriesSize_append, ih, entriesSize]
    omega

theorem entriesSize_put (k : JsString) (v : Json N) (es : List (JsString × Json N)) :
    entriesSize name leaf (Map.put k v es)
      ≤ entriesSize name leaf es + name k + size name leaf v := by
  induction es with
  | nil => simp [Map.put, entriesSize]
  | cons e es ih =>
    simp only [Map.put]
    split_ifs
    · simp only [entriesSize]
      omega
    · simp only [entriesSize]
      omega

mutual

/-- Of a name given twice one value is lost. -/
theorem merged_size : ∀ v : Json N, size name leaf (merged v) ≤ size name leaf v
  | .null => le_rfl
  | .bool _ => le_rfl
  | .num _ => le_rfl
  | .str _ => le_rfl
  | .arr xs => by
    simp only [merged, size]
    exact mergedItems_size xs
  | .obj es => by
    have h := mergedEntries_size es []
    simpa only [merged, size, entriesSize, Nat.zero_add] using h

theorem mergedItems_size : ∀ xs : List (Json N),
    itemsSize name leaf (mergedItems xs) ≤ itemsSize name leaf xs
  | [] => le_rfl
  | x :: xs => by
    have h1 := merged_size x
    have h2 := mergedItems_size xs
    simp only [mergedItems, itemsSize]
    omega

theorem mergedEntries_size : ∀ es acc : List (JsString × Json N),
    entriesSize name leaf (mergedEntries acc es)
      ≤ entriesSize name leaf acc + entriesSize name leaf es
  | [], acc => by simp [mergedEntries, entriesSize]
  | (k, x) :: es, acc => by
    have h1 := merged_size x
    have h2 := mergedEntries_size es (Map.put k (merged x) acc)
    have h3 := entriesSize_put name leaf k (merged x) acc
    simp only [mergedEntries, entriesSize]
    omega

end

end Size

def leafWeight : Json N → ℕ
  | .null => 1
  | .bool true => 1
  | .str s => strWeight s
  | _ => 0

/-- The weight of a tree: of its strings, its names and the `u` in `true` and `null`. -/
abbrev weight (v : Json N) : ℕ := size strWeight leafWeight v

abbrev itemsWeight (xs : List (Json N)) : ℕ := itemsSize strWeight leafWeight xs

abbrev entriesWeight (es : List (JsString × Json N)) : ℕ := entriesSize strWeight leafWeight es

/-! ## Texts that are read -/

section Reader

def Frame.weight : Frame N → ℕ
  | .arr done => itemsWeight done
  | .obj done k => entriesWeight done + strWeight k

def stackWeight (fs : List (Frame N)) : ℕ := (fs.map Frame.weight).sum

def Target.weight : Target N → ℕ
  | .value => 0
  | .key done => entriesWeight done

/-- What the reader has read, a started escape weighing what it has consumed. -/
def Mode.weight : Mode N → ℕ
  | .value _ => 0
  | .key done _ => entriesWeight done
  | .colon done k => entriesWeight done + strWeight k
  | .after v => v.weight
  | .number _ => 0
  | .literal rest v => v.weight - textWeight rest
  | .string t acc => t.weight + strWeight acc
  | .escape t acc => t.weight + strWeight acc + 1
  | .hex t acc _ _ => t.weight + strWeight acc + 2

def Reader.weight (st : Reader N) : ℕ := stackWeight st.stack + st.mode.weight

@[simp] theorem stackWeight_cons (f : Frame N) (fs : List (Frame N)) :
    stackWeight (f :: fs) = f.weight + stackWeight fs := by simp [stackWeight]

variable {fs : List (Frame N)} {st st' : Reader N} {c : CodeUnit}

theorem stepAfter_weight {v : Json N} (h : stepAfter v c fs = some st') :
    st'.weight ≤ stackWeight fs + v.weight := by
  rcases fs with _ | ⟨_ | ⟨done, k⟩, fs⟩
  · simp only [stepAfter] at h
    split_ifs at h
    obtain rfl := Option.some.inj h
    exact le_rfl
  · simp only [stepAfter] at h
    split_ifs at h <;> obtain rfl := Option.some.inj h
    · exact le_rfl
    · simp only [Reader.weight, Mode.weight, stackWeight_cons, Frame.weight, weight,
        itemsWeight, itemsSize]
      omega
    · simp only [Reader.weight, Mode.weight, stackWeight_cons, Frame.weight, weight,
        itemsWeight, size, itemsSize_reverse, itemsSize]
      omega
  · simp only [stepAfter] at h
    split_ifs at h <;> obtain rfl := Option.some.inj h
    · exact le_rfl
    · simp only [Reader.weight, Mode.weight, stackWeight_cons, Frame.weight, weight,
        entriesWeight, entriesSize]
      omega
    · simp only [Reader.weight, Mode.weight, stackWeight_cons, Frame.weight, weight,
        entriesWeight, size, entriesSize_reverse, entriesSize]
      omega

theorem stepValue_weight {close : Bool} (h : stepValue close c fs = some st') :
    st'.weight ≤ stackWeight fs := by
  have hlit : ∀ {rest : JsString} {v : Json N}, v.weight ≤ textWeight rest →
      Reader.weight ⟨fs, .literal rest v⟩ ≤ stackWeight fs := by
    intro rest v hv
    simp only [Reader.weight, Mode.weight]
    omega
  unfold stepValue at h
  by_cases hspace : isSpace c = true
  · rw [if_pos hspace] at h
    obtain rfl := Option.some.inj h
    exact le_rfl
  rw [if_neg hspace] at h
  by_cases hquote : c = 34
  · rw [if_pos hquote] at h
    obtain rfl := Option.some.inj h
    exact le_rfl
  rw [if_neg hquote] at h
  by_cases hobj : c = 123
  · rw [if_pos hobj] at h
    obtain rfl := Option.some.inj h
    exact le_rfl
  rw [if_neg hobj] at h
  by_cases harr : c = 91
  · rw [if_pos harr] at h
    obtain rfl := Option.some.inj h
    simp [Reader.weight, Mode.weight, Frame.weight, itemsSize]
  rw [if_neg harr] at h
  by_cases hclose : c = 93 ∧ close = true
  · rw [if_pos hclose] at h
    split at h
    · obtain rfl := Option.some.inj h
      simp [Reader.weight, Mode.weight, Frame.weight, size, itemsSize]
    · cases h
  rw [if_neg hclose] at h
  by_cases htrue : c = 116
  · rw [if_pos htrue] at h
    obtain rfl := Option.some.inj h
    exact hlit (by show 1 ≤ _; decide)
  rw [if_neg htrue] at h
  by_cases hfalse : c = 102
  · rw [if_pos hfalse] at h
    obtain rfl := Option.some.inj h
    exact hlit (Nat.zero_le _)
  rw [if_neg hfalse] at h
  by_cases hnull : c = 110
  · rw [if_pos hnull] at h
    obtain rfl := Option.some.inj h
    exact hlit (by show 1 ≤ _; decide)
  rw [if_neg hnull] at h
  by_cases hnum : c = 45 ∨ isDigit c = true
  · rw [if_pos hnum] at h
    obtain rfl := Option.some.inj h
    exact le_rfl
  · rw [if_neg hnum] at h
    cases h

theorem stepKey_weight {done : List (JsString × Json N)} {close : Bool}
    (h : stepKey done close c fs = some st') :
    st'.weight ≤ stackWeight fs + entriesWeight done := by
  unfold stepKey at h
  split_ifs at h <;> obtain rfl := Option.some.inj h
  · exact le_rfl
  · exact le_rfl
  · simp only [Reader.weight, Mode.weight, size, entriesSize_reverse]
    exact le_rfl

theorem endString_weight (fs : List (Frame N)) (t : Target N) (acc : JsString) :
    (endString acc fs t).weight ≤ stackWeight fs + t.weight + strWeight acc := by
  rcases t with _ | done
  · simp [endString, Reader.weight, Mode.weight, size, leafWeight, Target.weight]
  · simp [endString, Reader.weight, Mode.weight, Target.weight, Nat.add_assoc]

theorem stepString_weight {t : Target N} {acc : JsString} (h : stepString t acc c fs = some st') :
    st'.weight ≤ stackWeight fs + t.weight + strWeight acc + textUnit c := by
  unfold stepString at h
  split_ifs at h with h1 h2 h3 <;> obtain rfl := Option.some.inj h
  · have := endString_weight fs t acc
    omega
  · subst h2
    have : textUnit 92 = 1 := by decide
    simp only [Reader.weight, Mode.weight]
    omega
  · have hu := strUnit_of_not_special (u := c) (by simp [isSpecial, h1, h2, h3])
    simp only [Reader.weight, Mode.weight, strWeight_cons]
    omega

theorem escapeUnit_weight {u : CodeUnit} (h : escapeUnit c = some u) :
    strUnit u ≤ 1 + textUnit c := by
  unfold escapeUnit at h
  split_ifs at h with h1 h2 h3 h4 h5 h6 <;> obtain rfl := Option.some.inj h
  · rcases h1 with rfl | rfl | rfl <;> decide
  all_goals exact Nat.le_trans (m := 1) (by decide) (Nat.le_add_right ..)

theorem stepEscape_weight {t : Target N} {acc : JsString} (h : stepEscape t acc c fs = some st') :
    st'.weight ≤ stackWeight fs + t.weight + strWeight acc + 1 + textUnit c := by
  unfold stepEscape at h
  split_ifs at h with h1
  · obtain rfl := Option.some.inj h
    subst h1
    have : textUnit 117 = 1 := by decide
    simp only [Reader.weight, Mode.weight]
    omega
  · obtain ⟨u, hu, rfl⟩ := Option.map_eq_some_iff.1 h
    have := escapeUnit_weight hu
    simp only [Reader.weight, Mode.weight, strWeight_cons]
    omega

theorem stepHex_weight {t : Target N} {acc : JsString} {left val : ℕ}
    (h : stepHex t acc left val c fs = some st') :
    st'.weight ≤ stackWeight fs + t.weight + strWeight acc + 2 := by
  obtain ⟨x, -, rfl⟩ := Option.map_eq_some_iff.1 h
  split_ifs
  · have := strUnit_le (UInt16.ofNat (16 * val + x))
    simp only [Reader.weight, Mode.weight, strWeight_cons]
    omega
  · simp only [Reader.weight, Mode.weight]
    omega

theorem stepLiteral_weight {rest : JsString} {v : Json N}
    (h : stepLiteral rest v c fs = some st') :
    st'.weight ≤ stackWeight fs + (v.weight - textWeight rest) + textUnit c := by
  rcases rest with _ | ⟨r, _ | ⟨r', rest⟩⟩
  · simp [stepLiteral] at h
  · simp only [stepLiteral] at h
    split_ifs at h with h1
    obtain rfl := Option.some.inj h
    subst h1
    simp only [Reader.weight, Mode.weight, textWeight_cons, textWeight_nil]
    omega
  · simp only [stepLiteral] at h
    split_ifs at h with h1
    obtain rfl := Option.some.inj h
    subst h1
    simp only [Reader.weight, Mode.weight, textWeight_cons]
    omega

variable [JsNumber N]

theorem stepNumber_weight {acc : JsString} (h : stepNumber acc c fs = some st') :
    st'.weight ≤ stackWeight fs := by
  unfold stepNumber at h
  split_ifs at h
  · obtain rfl := Option.some.inj h
    exact le_rfl
  · exact stepAfter_weight h

/-- A code unit adds no more than its own weight to what has been read. -/
theorem step_weight (h : step st c = some st') : st'.weight ≤ st.weight + textUnit c := by
  rcases st with ⟨fs, close | ⟨done, close⟩ | ⟨done, k⟩ | v | acc | ⟨rest, v⟩ | ⟨t, acc⟩ | ⟨t, acc⟩ |
    ⟨t, acc, left, val⟩⟩ <;> simp only [step] at h
  · exact (stepValue_weight h).trans (Nat.le_add_right ..)
  · exact (stepKey_weight h).trans (Nat.le_add_right ..)
  · split_ifs at h <;> obtain rfl := Option.some.inj h
    · exact Nat.le_add_right ..
    · simp only [Reader.weight, Mode.weight, stackWeight_cons, Frame.weight]
      omega
  · exact (stepAfter_weight h).trans (Nat.le_add_right ..)
  · exact (stepNumber_weight h).trans (Nat.le_add_right ..)
  · exact stepLiteral_weight h
  · have := stepString_weight h
    simp only [Reader.weight, Mode.weight] at this ⊢
    omega
  · have := stepEscape_weight h
    simp only [Reader.weight, Mode.weight] at this ⊢
    omega
  · have := stepHex_weight h
    simp only [Reader.weight, Mode.weight] at this ⊢
    omega

/-- So does a whole text. -/
theorem runs_weight {s : JsString} (h : Steps.Runs step st s st') :
    st'.weight ≤ st.weight + textWeight s := by
  refine Steps.Runs.hist (fun s t => Reader.weight t ≤ st.weight + textWeight s) le_rfl ?_ h
  intro s t c u _ ht hu
  have := step_weight hu
  simp only [textWeight_append, textWeight_cons, textWeight_nil]
  omega

theorem finish_weight {v : Json N} (h : finish st = some v) : v.weight ≤ st.weight := by
  unfold finish at h
  split at h
  · obtain rfl := Option.some.inj h
    exact Nat.le_add_left ..
  · split_ifs at h
    obtain rfl := Option.some.inj h
    exact Nat.zero_le _
  · simp at h

/-- A text weighs at least what the tree it is read as does. -/
theorem read_weight {s : JsString} {v : Json N} (h : read s = some v) :
    v.weight ≤ textWeight s := by
  obtain ⟨st, hs, hf⟩ := Option.bind_eq_some_iff.1 h
  have h1 := runs_weight hs
  have h2 := finish_weight hf
  have h0 : Reader.weight (⟨[], .value false⟩ : Reader N) = 0 := rfl
  omega

end Reader

end Json

end Js
