import DiiaApp.Proofs.Weight

/-!
# String literals and their decoding

A string is written with no more than it weighs. An encoded string needs no escape, so its literal
decodes to the bare string between quotes, and a name without a `%` decodes to itself. A name in
which every escape is a `%25` is a name again once these are decoded, a shorter one
(`quoteBody_restore`, `restore_length`).
-/

namespace Js

theorem hexLower_units : ∀ n, n < 16 → hexLower n ≠ percent ∧ textUnit (hexLower n) = 0 := by decide

theorem unicodeEscape_units {cp : ℕ} (h : cp < 65536) :
    percent ∉ unicodeEscape cp ∧ textWeight (unicodeEscape cp) = 2 := by
  have d1 := hexLower_units (cp / 4096) (by omega)
  have d2 := hexLower_units (cp / 256 % 16) (by omega)
  have d3 := hexLower_units (cp / 16 % 16) (by omega)
  have d4 := hexLower_units (cp % 16) (by omega)
  unfold unicodeEscape
  constructor
  · simp only [List.mem_cons, List.not_mem_nil, or_false, not_or]
    exact ⟨by decide, by decide, d1.1.symm, d2.1.symm, d3.1.symm, d4.1.symm⟩
  · simp only [textWeight_cons, textWeight_nil, d1.2, d2.2, d3.2, d4.2]
    decide

theorem escaped_lt {cp : ℕ} (h : cp < 32 ∨ isSurrogate cp) : cp < 65536 := by
  rcases h with h | h
  · omega
  · exact isSurrogate_lt h

/-- Only `%` is written with a `%`. -/
theorem percent_not_mem_quotePoint {cp : ℕ} (h : cp ≠ 37) (hle : cp ≤ 0x10FFFF) :
    percent ∉ quotePoint cp := by
  unfold quotePoint
  split_ifs with h1 h2 h3 h4 h5 h6 h7 h8
  any_goals decide
  · exact (unicodeEscape_units (escaped_lt h8)).1
  · unfold utf16
    split_ifs with hb
    · rw [List.mem_singleton, percent]
      intro he
      have := congrArg UInt16.toNat he
      rw [toNat_ofNat hb] at this
      exact h this.symm
    · simp only [List.mem_cons, List.not_mem_nil, or_false, not_or, percent]
      constructor <;> intro he <;> have := congrArg UInt16.toNat he <;>
        rw [toNat_ofNat (by omega), show UInt16.toNat 37 = 37 from rfl] at this <;> omega

/-- A code point is written with no more than it weighs. -/
theorem quotePoint_weight {cp : ℕ} (h : cp ≤ 0x10FFFF) :
    textWeight (quotePoint cp) ≤ strWeight (utf16 cp) := by
  unfold quotePoint
  split_ifs with h1 h2 h3 h4 h5 h6 h7 h8
  any_goals (subst_vars; decide)
  · have hlt := escaped_lt h8
    have ht := toNat_ofNat hlt
    rw [(unicodeEscape_units hlt).2, utf16, if_pos hlt, strWeight_cons, strWeight_nil]
    have hne : ∀ n, n < 65536 → cp ≠ n → UInt16.ofNat cp ≠ UInt16.ofNat n := by
      intro n hn hc he
      exact hc (by rw [← ht, he, toNat_ofNat hn])
    have hc : ¬ (UInt16.ofNat cp = 34 ∨ UInt16.ofNat cp = 8 ∨ UInt16.ofNat cp = 9 ∨
        UInt16.ofNat cp = 10 ∨ UInt16.ofNat cp = 12 ∨ UInt16.ofNat cp = 13) := by
      simp only [not_or]
      exact ⟨hne 34 (by omega) h6, hne 8 (by omega) h1, hne 9 (by omega) h2, hne 10 (by omega) h3,
        hne 12 (by omega) h4, hne 13 (by omega) h5⟩
    unfold strUnit
    rw [if_neg hc]
    split_ifs with hs
    · omega
    · have hsur : isSurrogate cp := h8.resolve_left fun h => hs (by simp [isSpecial, ht, h])
      have h117 : cp ≠ 117 := by
        rintro rfl
        exact absurd hsur (by decide)
      have hu : ¬ (UInt16.ofNat cp = 92 ∨ UInt16.ofNat cp = 117) := by
        rw [not_or]
        exact ⟨hne 92 (by omega) h7, hne 117 (by omega) h117⟩
      rw [textUnit, if_neg hu, if_pos (.inr (by rwa [ht]))]
  · rw [not_or] at h8
    have hunits := Json.utf16_units (by omega) h6 h7 h
    have hsum : ∀ us : JsString, (∀ u ∈ us, u ≠ 34 ∧ u ≠ 92 ∧ 32 ≤ u.toNat) →
        textWeight us = strWeight us := by
      intro us hus
      refine congrArg List.sum (List.map_congr_left fun u hu => ?_)
      obtain ⟨u1, u2, u3⟩ := hus u hu
      exact (strUnit_of_not_special (by simp [isSpecial, u1, u2, u3])).symm
    exact (hsum _ hunits).le

/-- A string is written with no more than it weighs. -/
theorem quote_weight (s : JsString) : textWeight (quote s) ≤ strWeight s := by
  have hsum : ∀ cps : List ℕ, (∀ cp ∈ cps, cp ≤ 0x10FFFF) →
      textWeight (cps.flatMap quotePoint) ≤ strWeight (cps.flatMap utf16) := by
    intro cps
    induction cps with
    | nil => exact fun _ => le_rfl
    | cons cp cps ih =>
      intro h
      have h1 := quotePoint_weight (h cp List.mem_cons_self)
      have h2 := ih fun c hc => h c (List.mem_cons_of_mem _ hc)
      simp only [List.flatMap_cons, textWeight_append, strWeight_append]
      omega
  have h := hsum (codePoints s) fun cp hcp => codePoints_le hcp
  rw [flatMap_codePoints] at h
  have h34 : textUnit 34 = 0 := by decide
  simp only [quote, quoted, textWeight_cons, textWeight_append, textWeight_nil, h34]
  unfold quoteBody
  omega

theorem pairPoint_lt {u v : CodeUnit} (h : isHigh u ∧ isLow v) :
    0x10000 ≤ pairPoint u v ∧ pairPoint u v ≤ 0x10FFFF := by
  simp only [isHigh, isLow, decide_eq_true_eq] at h
  unfold pairPoint
  omega

theorem quotePoint_plain {cp : ℕ} (h1 : 32 ≤ cp) (h2 : cp ≠ 34) (h3 : cp ≠ 92)
    (h4 : ¬ isSurrogate cp) : quotePoint cp = utf16 cp := by
  have h5 : ¬ (cp < 32 ∨ isSurrogate cp) := not_or.2 ⟨by omega, h4⟩
  unfold quotePoint
  rw [if_neg (by omega), if_neg (by omega), if_neg (by omega), if_neg (by omega),
    if_neg (by omega), if_neg h2, if_neg h3, if_neg h5]

theorem quoteBody_pair {u v : CodeUnit} (h : isHigh u ∧ isLow v) (s : JsString) :
    quoteBody (u :: v :: s) = quotePoint (pairPoint u v) ++ quoteBody s := by
  simp [quoteBody, codePoints, h]

theorem quoteBody_cons {u : CodeUnit} {s : JsString}
    (h : ∀ v, s.head? = some v → ¬ (isHigh u ∧ isLow v)) :
    quoteBody (u :: s) = quotePoint u.toNat ++ quoteBody s := by
  rcases s with _ | ⟨v, s⟩
  · simp [quoteBody, codePoints]
  · have hv := h v rfl
    simp [quoteBody, codePoints, hv]

/-- A literal starts with the code unit it is of, or with a backslash. -/
theorem quoteBody_head {u : CodeUnit} {s : JsString} :
    (quoteBody (u :: s)).head? = some u ∨ (quoteBody (u :: s)).head? = some 92 := by
  by_cases hp : ∃ v s', s = v :: s' ∧ isHigh u ∧ isLow v
  · obtain ⟨v, s', rfl, hp⟩ := hp
    rw [quoteBody_pair hp]
    have hpoint : quotePoint (pairPoint u v) = [u, v] := by
      have hlt := pairPoint_lt hp
      rw [← utf16_pair hp.1 hp.2, quotePoint_plain (by omega) (by omega) (by omega)]
      simp only [isSurrogate, decide_eq_true_eq]
      omega
    rw [hpoint]
    exact .inl rfl
  · rw [quoteBody_cons]
    · unfold quotePoint
      split_ifs
      any_goals exact .inr rfl
      · rw [utf16_unit]
        exact .inl rfl
    · intro v hv h
      rcases s with _ | ⟨v', s'⟩
      · simp at hv
      · exact hp ⟨v', s', rfl, by rwa [Option.some.inj hv]⟩

/-- Nothing of the string needs an escape in a literal. -/
def Unescaped (s : JsString) : Prop := ∀ u ∈ s, ¬ isSpecial u

theorem unescaped_iff {s : JsString} : Unescaped s ↔ s.all fun u => !isSpecial u := by
  simp [Unescaped]

theorem unescaped_weight (s : JsString) :
    textWeight s ≤ strWeight s ∧ (strWeight s ≤ textWeight s → Unescaped s) := by
  induction s with
  | nil => exact ⟨le_rfl, fun _ _ hu => absurd hu List.not_mem_nil⟩
  | cons u s ih =>
    rw [textWeight_cons, strWeight_cons]
    by_cases hu : isSpecial u
    · have := textUnit_lt_of_special hu
      exact ⟨by omega, fun hle => by omega⟩
    · rw [strUnit_of_not_special hu]
      exact ⟨by omega, fun hle => List.forall_mem_cons.2 ⟨hu, ih.2 (by omega)⟩⟩

theorem quoteBody_unescaped {s : JsString} (h : Unescaped s) (he : Encodable s) :
    quoteBody s = s := by
  have hpoint : ∀ cp ∈ codePoints s, quotePoint cp = utf16 cp := by
    intro cp hcp
    have hmem : ∀ u ∈ utf16 cp, ¬ isSpecial u := fun u hu =>
      h u (by rw [← flatMap_codePoints s]; exact List.mem_flatMap.2 ⟨cp, hcp, hu⟩)
    have hns : cp < 65536 → ¬ isSpecial (UInt16.ofNat cp) := fun hlt =>
      hmem _ (by rw [utf16, if_pos hlt]; exact List.mem_singleton_self _)
    refine quotePoint_plain ?_ ?_ ?_ (he cp hcp)
    · by_contra hlt
      have ht := toNat_ofNat (n := cp) (by omega)
      exact hns (by omega) (by simp [isSpecial, ht]; omega)
    · rintro rfl
      exact hns (by omega) (by decide)
    · rintro rfl
      exact hns (by omega) (by decide)
  rw [quoteBody, List.flatMap_congr hpoint, flatMap_codePoints]

/-- Encoded, a string needs no escape. -/
theorem quote_encoded {s t : JsString} (h : encodeURIComponent s = some t) :
    quote t = quoted t := by
  have hunit : ∀ u ∈ t, ¬ isSpecial u ∧ u.toNat < 128 := by
    intro u hu
    rcases encode_units h u hu with hu | rfl
    · simp only [unreserved, decide_eq_true_eq] at hu
      simp only [isSpecial, decide_eq_true_eq, not_or]
      exact ⟨⟨ne_ofNat (n := 34) (by omega) (by omega), ne_ofNat (n := 92) (by omega) (by omega),
        by omega⟩, by omega⟩
    · decide
  have hlow : ∀ u ∈ t, ¬ isHigh u := by
    intro u hu
    have := (hunit u hu).2
    simp only [isHigh, decide_eq_true_eq]
    omega
  have henc : Encodable t := by
    intro cp hcp
    obtain ⟨u, hu, rfl⟩ := mem_codePoints hlow hcp
    have := (hunit u hu).2
    simp only [isSurrogate, decide_eq_true_eq]
    omega
  rw [quote, quoteBody_unescaped (fun u hu => (hunit u hu).1) henc]

theorem decode_leaf {s t : JsString} (h : encodeURIComponent s = some t) :
    decodeURIComponent (quote t) = some (quoted s) := by
  rw [quote_encoded h, quoted, decode_cons (by decide), decode_encode_append h]
  rfl

theorem restore_cons (u : CodeUnit) (d : JsString) :
    restore (u :: d) = (if u = percent then js "%25" else [u]) ++ restore d := rfl

theorem restore_head (d : JsString) : (restore d).head? = d.head? := by
  rcases d with _ | ⟨u, d⟩
  · rfl
  · rw [restore_cons]
    split_ifs with hu
    · rw [hu]
      rfl
    · rfl

theorem restore_append_inv : ∀ {a t b : JsString}, percent ∉ a → a ++ t = restore b →
    ∃ b', b = a ++ b' ∧ t = restore b'
  | [], t, b, _, h => ⟨b, rfl, h⟩
  | u :: a, t, [], _, h => by simp [restore] at h
  | u :: a, t, v :: b, hp, h => by
    rw [List.mem_cons, not_or] at hp
    rw [restore_cons] at h
    split_ifs at h with hv
    · exact absurd (List.cons.inj h).1.symm hp.1
    · obtain ⟨hu, hc⟩ := List.cons.inj h
      obtain ⟨b', hb, hb'⟩ := restore_append_inv hp.2 hc
      exact ⟨b', by rw [hu, hb]; rfl, hb'⟩

theorem percent_inv {t b : JsString} (h : percent :: t = restore b) :
    ∃ b', b = percent :: b' ∧ t = restore (50 :: 53 :: b') := by
  rcases b with _ | ⟨v, b⟩
  · simp [restore] at h
  · rw [restore_cons] at h
    split_ifs at h with hv
    · exact ⟨b, by rw [hv], (List.cons.inj h).2⟩
    · exact absurd (List.cons.inj h).1.symm hv

theorem quoteBody_digit {c : CodeUnit} (hc : isDigit c) {k t : JsString}
    (h : quoteBody k = c :: t) : ∃ k', k = c :: k' ∧ t = quoteBody k' := by
  have hc' : 48 ≤ c.toNat ∧ c.toNat ≤ 57 := by simpa [isDigit] using hc
  rcases k with _ | ⟨u, k⟩
  · simp [quoteBody, codePoints] at h
  have hu : u = c := by
    rcases quoteBody_head (u := u) (s := k) with hh | hh <;> rw [h] at hh
    · exact (Option.some.inj hh).symm
    · obtain rfl : c = 92 := Option.some.inj hh
      exact absurd hc (by decide)
  subst hu
  have hhigh : ¬ isHigh u := by
    simp only [isHigh, decide_eq_true_eq]
    omega
  rw [quoteBody_cons fun _ _ hp => hhigh hp.1] at h
  have hpoint : quotePoint u.toNat = [u] := by
    rw [quotePoint_plain (by omega) (by omega) (by omega), utf16_unit]
    simp only [isSurrogate, decide_eq_true_eq]
    omega
  rw [hpoint] at h
  exact ⟨k, rfl, (List.cons.inj h).2.symm⟩

/-- The first code unit of a name that is written with every `%25` decoded. -/
theorem restore_single {u : CodeUnit} {s : JsString}
    (hs : ∀ v, s.head? = some v → ¬ (isHigh u ∧ isLow v))
    (ih : ∀ {b}, quoteBody s = restore b → ∃ k', b = quoteBody k' ∧ s = restore k') {b : JsString}
    (h : quoteBody (u :: s) = restore b) : ∃ k', b = quoteBody k' ∧ u :: s = restore k' := by
  rw [quoteBody_cons hs] at h
  by_cases hu : u = percent
  · subst hu
    obtain ⟨b', rfl, hb⟩ := percent_inv h
    obtain ⟨k, hk, rfl⟩ := ih hb
    obtain ⟨k₁, rfl, hk₁⟩ := quoteBody_digit (by decide) hk.symm
    obtain ⟨k₂, rfl, rfl⟩ := quoteBody_digit (by decide) hk₁.symm
    refine ⟨percent :: k₂, ?_, rfl⟩
    rw [quoteBody_cons fun _ _ hp => absurd hp.1 (by decide)]
    rfl
  · have hne : u.toNat ≠ 37 := fun he => hu ((eq_ofNat_iff (n := 37) (by omega)).2 he)
    have hle := toNat_lt u
    obtain ⟨b', rfl, hb⟩ := restore_append_inv (percent_not_mem_quotePoint hne (by omega)) h
    obtain ⟨k, rfl, rfl⟩ := ih hb
    rw [restore_head] at hs
    refine ⟨u :: k, (quoteBody_cons hs).symm, ?_⟩
    rw [restore_cons, if_neg hu]
    rfl

/-- What a name is written as, with every `%25` decoded, is what a name is written as. -/
theorem quoteBody_restore {k b : JsString} (h : quoteBody k = restore b) :
    ∃ k', b = quoteBody k' ∧ k = restore k' := by
  induction k using codePoints.induct generalizing b with
  | case1 =>
    rcases b with _ | ⟨v, b⟩
    · exact ⟨[], rfl, rfl⟩
    · rw [restore_cons] at h
      split_ifs at h <;> simp [quoteBody, codePoints, js] at h
  | case2 u =>
    refine restore_single (by simp) (fun {b} h => ?_) h
    rcases b with _ | ⟨v, b⟩
    · exact ⟨[], rfl, rfl⟩
    · rw [restore_cons] at h
      split_ifs at h <;> simp [quoteBody, codePoints, js] at h
  | case3 u v rest hp ih =>
    rw [quoteBody_pair hp] at h
    have hlt := pairPoint_lt hp
    have hu : u ≠ percent := fun he => absurd (he ▸ hp.1) (by decide)
    have hv : v ≠ percent := fun he => absurd (he ▸ hp.2) (by decide)
    have hpp : percent ∉ quotePoint (pairPoint u v) :=
      percent_not_mem_quotePoint (by omega) hlt.2
    obtain ⟨b', hb', hb⟩ := restore_append_inv hpp h
    obtain ⟨k, rfl, rfl⟩ := ih hb
    refine ⟨u :: v :: k, by rw [hb', quoteBody_pair hp], ?_⟩
    rw [restore_cons, restore_cons, if_neg hu, if_neg hv]
    rfl
  | case4 u v rest hp ih => exact restore_single (fun w hw => by rwa [← Option.some.inj hw]) ih h

theorem restore_length (d : JsString) :
    d.length ≤ (restore d).length ∧ ((restore d).length ≤ d.length → percent ∉ restore d) := by
  induction d with
  | nil => simp [restore]
  | cons u d ih =>
    have h3 : (js "%25").length = 3 := by decide
    rw [restore_cons]
    split_ifs with hu
    · simp only [List.length_append, List.length_cons, h3]
      exact ⟨by omega, by omega⟩
    · simp only [List.length_append, List.length_cons, List.length_nil, List.mem_append,
        List.mem_singleton, not_or]
      exact ⟨by omega, fun hle => ⟨fun he => hu he.symm, ih.2 (by omega)⟩⟩

/-- Nothing escaped and no `%` in a name, decoding a name changes nothing. -/
theorem decode_name {k : JsString} (h : percent ∉ k) :
    decodeURIComponent (quote k) = some (quote k) := by
  refine decode_of_no_percent fun hp => ?_
  simp only [quote, quoted, List.mem_cons, List.mem_append, List.not_mem_nil, or_false] at hp
  rcases hp with hp | hp | hp
  · exact absurd hp (by decide)
  · obtain ⟨cp, hcp, hp⟩ := List.mem_flatMap.1 hp
    have h37 : cp = 37 := by
      by_contra hne
      exact percent_not_mem_quotePoint hne (codePoints_le hcp) hp
    refine h ?_
    rw [← flatMap_codePoints k]
    exact List.mem_flatMap.2 ⟨cp, hcp, by rw [h37]; decide⟩
  · exact absurd hp (by decide)

end Js
