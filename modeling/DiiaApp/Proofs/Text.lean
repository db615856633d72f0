import DiiaApp.Js.Text
import Mathlib.Tactic.SplitIfs

/-!
# Decoding undoes encoding

A string is its code points written out again (`flatMap_codePoints`), the octets of a code point
decode to it (`decodeOctets_utf8`), so what `encodeURIComponent` makes of a string decodes to that
string (`decode_encode`). A code unit that is neither `%` nor a hexadecimal digit cuts a text in two
that decode on their own (`decode_append_cons`).
-/

namespace Js

theorem toNat_ofNat {n : ℕ} (h : n < 65536) : (UInt16.ofNat n).toNat = n := by
  simp [UInt16.toNat_ofNat', Nat.mod_eq_of_lt h]

theorem toNat_lt (u : CodeUnit) : u.toNat < 65536 := by
  have := UInt16.toNat_lt u
  omega

theorem eq_ofNat_iff {u : CodeUnit} {n : ℕ} (h : n < 65536) : u = UInt16.ofNat n ↔ u.toNat = n := by
  rw [← UInt16.toNat_inj, toNat_ofNat h]

theorem ne_ofNat {u : CodeUnit} {n : ℕ} (hn : n < 65536) (h : u.toNat ≠ n) : u ≠ UInt16.ofNat n :=
  mt (eq_ofNat_iff hn).1 h

theorem utf16_unit (u : CodeUnit) : utf16 u.toNat = [u] := by
  have := toNat_lt u
  unfold utf16
  rw [if_pos (by omega), UInt16.ofNat_toNat]

theorem utf16_pair {h l : CodeUnit} (hh : isHigh h) (hl : isLow l) :
    utf16 (pairPoint h l) = [h, l] := by
  simp only [isHigh, isLow, decide_eq_true_eq] at hh hl
  have e1 : 0xD800 + (pairPoint h l - 0x10000) / 0x400 = h.toNat := by
    unfold pairPoint; omega
  have e2 : 0xDC00 + (pairPoint h l - 0x10000) % 0x400 = l.toNat := by
    unfold pairPoint; omega
  unfold utf16
  rw [if_neg (by unfold pairPoint; omega), e1, e2, UInt16.ofNat_toNat, UInt16.ofNat_toNat]

theorem isSurrogate_lt {cp : ℕ} (h : isSurrogate cp) : cp < 65536 := by
  simp only [isSurrogate, decide_eq_true_eq] at h
  omega

/-- A string is its code points written out. -/
theorem flatMap_codePoints (s : JsString) : (codePoints s).flatMap utf16 = s := by
  induction s using codePoints.induct with
  | case1 => rfl
  | case2 u => simp [codePoints, utf16_unit]
  | case3 u v rest h ih => simp [codePoints, h, utf16_pair h.1 h.2, ih]
  | case4 u v rest h ih => simp [codePoints, h, utf16_unit, ih]

theorem codePoints_le {s : JsString} {cp : ℕ} (h : cp ∈ codePoints s) : cp ≤ 0x10FFFF := by
  induction s using codePoints.induct with
  | case1 => simp [codePoints] at h
  | case2 u =>
    simp only [codePoints, List.mem_singleton] at h
    have := toNat_lt u
    omega
  | case3 u v rest hp ih =>
    simp only [codePoints, hp, and_self, if_true, List.mem_cons] at h
    simp only [isHigh, isLow, decide_eq_true_eq] at hp
    rcases h with rfl | h
    · unfold pairPoint; omega
    · exact ih h
  | case4 u v rest hp ih =>
    simp only [codePoints, hp, if_false, List.mem_cons] at h
    have := toNat_lt u
    rcases h with rfl | h
    · omega
    · exact ih h

/-- Without a high surrogate the code points of a string are its code units. -/
theorem mem_codePoints {s : JsString} (hs : ∀ u ∈ s, ¬ isHigh u) {cp : ℕ} (h : cp ∈ codePoints s) :
    ∃ u ∈ s, cp = u.toNat := by
  induction s using codePoints.induct with
  | case1 => simp [codePoints] at h
  | case2 u => exact ⟨u, List.mem_cons_self, List.mem_singleton.1 h⟩
  | case3 u v rest hp ih => exact absurd hp.1 (hs u List.mem_cons_self)
  | case4 u v rest hp ih =>
    rw [codePoints, if_neg hp] at h
    rcases List.mem_cons.1 h with rfl | h
    · exact ⟨u, List.mem_cons_self, rfl⟩
    · obtain ⟨w, hw, he⟩ := ih (fun w hw => hs w (List.mem_cons_of_mem _ hw)) h
      exact ⟨w, List.mem_cons_of_mem _ hw, he⟩

theorem hexVal_hexDigit : ∀ n, n < 16 → hexVal (hexDigit n) = some n := by decide

theorem readEscapes_percent (a b : CodeUnit) (s : JsString) :
    readEscapes (percent :: a :: b :: s) = (hexVal a).bind fun x => (hexVal b).bind fun y =>
      (readEscapes s).map (.octet (16 * x + y) :: ·) := by
  simp only [readEscapes, if_true]

theorem readEscapes_cons {u : CodeUnit} (hu : u ≠ percent) (s : JsString) :
    readEscapes (u :: s) = (readEscapes s).map (.unit u :: ·) := by
  rcases s with _ | ⟨a, _ | ⟨b, s⟩⟩ <;> simp [readEscapes, hu]

theorem readEscapes_escape {b : ℕ} (hb : b < 256) (s : JsString) :
    readEscapes (escapeOctet b ++ s) = (readEscapes s).map (.octet b :: ·) := by
  have h1 := hexVal_hexDigit (b / 16) (by omega)
  have h2 := hexVal_hexDigit (b % 16) (by omega)
  simp only [escapeOctet, List.cons_append, List.nil_append, readEscapes_percent, h1, h2,
    Option.bind_some, Nat.div_add_mod]

theorem readEscapes_octets :
    ∀ (os : List ℕ) (s : JsString), (∀ b ∈ os, b < 256) →
      readEscapes (os.flatMap escapeOctet ++ s) = (readEscapes s).map (os.map .octet ++ ·)
  | [], s, _ => by simp
  | b :: os, s, h => by
    simp only [List.mem_cons, forall_eq_or_imp] at h
    rw [List.flatMap_cons, List.append_assoc, readEscapes_escape h.1, readEscapes_octets os s h.2,
      Option.map_map]
    rfl

theorem utf8_lt {cp : ℕ} (h : cp ≤ 0x10FFFF) : ∀ b ∈ utf8 cp, b < 256 := by
  unfold utf8
  split_ifs <;> simp only [List.mem_cons, List.not_mem_nil, or_false] <;> rintro b hb <;> omega

theorem octetBits_two (a b : ℕ) : octetBits [a, b] = (a - 0xC0) * 0x40 + (b - 0x80) := rfl

theorem octetBits_three (a b c : ℕ) :
    octetBits [a, b, c] = (a - 0xE0) * 0x1000 + (b - 0x80) * 0x40 + (c - 0x80) := rfl

theorem octetBits_four (a b c d : ℕ) : octetBits [a, b, c, d]
    = (a - 0xF0) * 0x40000 + (b - 0x80) * 0x1000 + (c - 0x80) * 0x40 + (d - 0x80) := rfl

theorem octetBits_utf8 {cp : ℕ} (h1 : 0x80 ≤ cp) (h2 : cp ≤ 0x10FFFF) :
    octetBits (utf8 cp) = cp := by
  unfold utf8
  split_ifs
  · omega
  · rw [octetBits_two]; omega
  · rw [octetBits_three]; omega
  · rw [octetBits_four]; omega

theorem decodeOctets_utf8 {cp : ℕ} (h1 : 0x80 ≤ cp) (h2 : cp ≤ 0x10FFFF)
    (hs : isSurrogate cp = false) : decodeOctets (utf8 cp) = some cp := by
  unfold decodeOctets
  rw [octetBits_utf8 h1 h2, if_pos ⟨rfl, by simp [hs], h2⟩]

/-- The octets of a code point join to its code units. -/
theorem joinToks_utf8 {cp : ℕ} (h2 : cp ≤ 0x10FFFF) (hs : isSurrogate cp = false)
    (ts : List Tok) :
    joinToks [] 0 ((utf8 cp).map .octet ++ ts) = (joinToks [] 0 ts).map (utf16 cp ++ ·) := by
  by_cases h1 : cp < 0x80
  · have hc : octetCount cp = 1 := by simp [octetCount, h1]
    simp [utf8, h1, joinToks, hc, utf16, show cp < 0x10000 by omega]
  have hd := decodeOctets_utf8 (by omega) h2 hs
  unfold utf8 at hd ⊢
  split_ifs at hd ⊢ with h3 h4
  · have hc : octetCount (0xC0 + cp / 0x40) = 2 := by
      unfold octetCount; split_ifs <;> omega
    simp only [List.map_cons, List.map_nil, List.cons_append, List.nil_append, joinToks, hc, hd,
      Option.bind_some]
  · have hc : octetCount (0xE0 + cp / 0x1000) = 3 := by
      unfold octetCount; split_ifs <;> omega
    simp only [List.map_cons, List.map_nil, List.cons_append, List.nil_append, joinToks, hc, hd,
      Option.bind_some]
  · have hc : octetCount (0xF0 + cp / 0x40000) = 4 := by
      unfold octetCount; split_ifs <;> omega
    simp only [List.map_cons, List.map_nil, List.cons_append, List.nil_append, joinToks, hc, hd,
      Option.bind_some]

theorem unreserved_lt {cp : ℕ} (h : unreserved cp) : cp < 0x80 ∧ cp ≠ 37 := by
  simp only [unreserved, decide_eq_true_eq] at h
  omega

theorem decode_point {cp : ℕ} {t : JsString} (h2 : cp ≤ 0x10FFFF) (he : encodePoint cp = some t)
    (s : JsString) : decodeURIComponent (t ++ s) = (decodeURIComponent s).map (utf16 cp ++ ·) := by
  unfold encodePoint at he
  split_ifs at he with h3 h4
  · obtain ⟨hlt, hne⟩ := unreserved_lt h4
    obtain rfl := Option.some.inj he
    have hu : utf16 cp = [UInt16.ofNat cp] := by unfold utf16; rw [if_pos (by omega)]
    have hp : UInt16.ofNat cp ≠ percent := by
      intro h
      have := congrArg UInt16.toNat h
      rw [toNat_ofNat (by omega)] at this
      exact hne this
    rw [hu, List.cons_append, List.nil_append, decodeURIComponent, readEscapes_cons hp]
    cases hr : readEscapes s with
    | none => simp [decodeURIComponent, hr]
    | some ts => simp [decodeURIComponent, hr, joinToks]
  · obtain rfl := Option.some.inj he
    rw [decodeURIComponent, readEscapes_octets _ _ (utf8_lt h2)]
    cases hr : readEscapes s with
    | none => simp [decodeURIComponent, hr]
    | some ts =>
      simp only [Option.map_some, Option.bind_some, decodeURIComponent, hr]
      exact joinToks_utf8 h2 (by simpa using h3) ts

theorem decode_points : ∀ {cps : List ℕ} {ts : List JsString} (s : JsString),
    (∀ cp ∈ cps, cp ≤ 0x10FFFF) → cps.mapM encodePoint = some ts →
      decodeURIComponent (ts.flatten ++ s)
        = (decodeURIComponent s).map (cps.flatMap utf16 ++ ·)
  | [], ts, s, _, h => by
    simp only [List.mapM_nil, Option.pure_def, Option.some.injEq] at h
    subst h
    simp
  | cp :: cps, ts, s, hle, h => by
    simp only [List.mem_cons, forall_eq_or_imp] at hle
    rw [List.mapM_cons] at h
    simp only [Option.bind_eq_bind, Option.bind_eq_some_iff, Option.pure_def,
      Option.some.injEq] at h
    obtain ⟨t, ht, ts', hts, rfl⟩ := h
    rw [List.flatten_cons, List.append_assoc, decode_point hle.1 ht,
      decode_points s hle.2 hts, Option.map_map, List.flatMap_cons]
    congr 1
    funext r
    simp

theorem decode_encode_append {s t : JsString} (h : encodeURIComponent s = some t) (r : JsString) :
    decodeURIComponent (t ++ r) = (decodeURIComponent r).map (s ++ ·) := by
  unfold encodeURIComponent at h
  obtain ⟨ts, hts, rfl⟩ := Option.map_eq_some_iff.1 h
  rw [decode_points r (fun cp hcp => codePoints_le hcp) hts, flatMap_codePoints]

/-- What a string encodes to decodes to that string. -/
theorem decode_encode {s t : JsString} (h : encodeURIComponent s = some t) :
    decodeURIComponent t = some s := by
  have := decode_encode_append h []
  simpa [decodeURIComponent, readEscapes, joinToks] using this

/-- Without an escape, a text is its own decoding. -/
theorem decode_of_no_percent : ∀ {s : JsString}, percent ∉ s → decodeURIComponent s = some s
  | [], _ => rfl
  | u :: s, h => by
    simp only [List.mem_cons, not_or] at h
    have ih := decode_of_no_percent h.2
    unfold decodeURIComponent at ih ⊢
    rw [readEscapes_cons (Ne.symm h.1)]
    obtain ⟨ts, hts, hj⟩ := Option.bind_eq_some_iff.1 ih
    simp [hts, joinToks, hj]

theorem readEscapes_append_cons {q : CodeUnit} (hq : hexVal q = none) (hp : q ≠ percent)
    (b : JsString) : ∀ a : JsString, readEscapes (a ++ q :: b)
      = (readEscapes a).bind fun x => (readEscapes b).map fun y => x ++ .unit q :: y
  | [] => by
    rw [List.nil_append, readEscapes_cons hp, readEscapes, Option.bind_some]
    rfl
  | u :: a => by
    by_cases hu : u = percent
    · subst hu
      rcases a with _ | ⟨c, _ | ⟨d, a⟩⟩
      · rcases b with _ | ⟨b0, b⟩
        · simp [readEscapes]
        · simp [readEscapes_percent, hq, readEscapes]
      · simp [readEscapes_percent, hq, readEscapes]
      · simp only [List.cons_append, readEscapes_percent, readEscapes_append_cons hq hp b a]
        cases hexVal c <;> cases hexVal d <;> cases readEscapes a <;> cases readEscapes b <;> rfl
    · rw [List.cons_append, readEscapes_cons hu, readEscapes_cons hu,
        readEscapes_append_cons hq hp b a]
      cases readEscapes a <;> cases readEscapes b <;> rfl

theorem joinToks_append_unit (q : CodeUnit) (ts : List Tok) (os : List ℕ) (n : ℕ)
    (as : List Tok) : joinToks os n (as ++ .unit q :: ts)
      = (joinToks os n as).bind fun x => (joinToks [] 0 ts).map fun y => x ++ q :: y := by
  induction os, n, as using joinToks.induct with
  | case1 os => simp [joinToks]
  | case2 os n => simp [joinToks]
  | case3 os u as ih =>
    simp only [List.cons_append, joinToks, ih]
    cases joinToks [] 0 as <;> cases joinToks [] 0 ts <;> rfl
  | case4 os n u as => simp [joinToks]
  | case5 os b as h => simp [joinToks, h]
  | case6 os b as h ih =>
    simp only [List.cons_append, joinToks, h, ih]
    cases joinToks [] 0 as <;> cases joinToks [] 0 ts <;> rfl
  | case7 os b as n h ih => simpa only [List.cons_append, joinToks, h] using ih
  | case8 os c as ih =>
    simp only [List.cons_append, joinToks, ih]
    cases decodeOctets (os ++ [c]) <;> cases joinToks [] 0 as <;> cases joinToks [] 0 ts <;>
      simp
  | case9 os n c as ih => simpa only [List.cons_append, joinToks] using ih

/-- A code unit no escape can hold cuts a text in two that decode on their own. -/
theorem decode_append_cons {q : CodeUnit} (hq : hexVal q = none) (hp : q ≠ percent)
    (a b : JsString) : decodeURIComponent (a ++ q :: b)
      = (decodeURIComponent a).bind fun x => (decodeURIComponent b).map fun y => x ++ q :: y := by
  unfold decodeURIComponent
  rw [readEscapes_append_cons hq hp]
  cases readEscapes a <;> cases readEscapes b <;> simp [joinToks_append_unit]

theorem decode_cons {u : CodeUnit} (hp : u ≠ percent) (s : JsString) :
    decodeURIComponent (u :: s) = (decodeURIComponent s).map (u :: ·) := by
  unfold decodeURIComponent
  rw [readEscapes_cons hp]
  cases readEscapes s <;> simp [joinToks]

theorem decode_append_of_no_percent :
    ∀ {a : JsString} (b : JsString), percent ∉ a →
      decodeURIComponent (a ++ b) = (decodeURIComponent b).map (a ++ ·)
  | [], b, _ => by simp
  | u :: a, b, h => by
    simp only [List.mem_cons, not_or] at h
    rw [List.cons_append, decode_cons (Ne.symm h.1), decode_append_of_no_percent b h.2,
      Option.map_map]
    rfl

theorem hexDigit_unreserved : ∀ n, n < 16 → unreserved (hexDigit n).toNat := by decide

/-- Encoding leaves unreserved code units and `%`. -/
theorem encodePoint_units {cp : ℕ} {t : JsString} (h2 : cp ≤ 0x10FFFF)
    (h : encodePoint cp = some t) : ∀ u ∈ t, unreserved u.toNat ∨ u = percent := by
  unfold encodePoint at h
  split_ifs at h with h3 h4
  · obtain rfl := Option.some.inj h
    have hlt := (unreserved_lt h4).1
    intro u hu
    rw [utf16, if_pos (by omega), List.mem_singleton] at hu
    subst hu
    rw [toNat_ofNat (by omega)]
    exact .inl h4
  · obtain rfl := Option.some.inj h
    intro u hu
    obtain ⟨b, hb, hu⟩ := List.mem_flatMap.1 hu
    have hlt := utf8_lt h2 b hb
    simp only [escapeOctet, List.mem_cons, List.not_mem_nil, or_false] at hu
    rcases hu with rfl | rfl | rfl
    · exact .inr rfl
    · exact .inl (hexDigit_unreserved _ (by omega))
    · exact .inl (hexDigit_unreserved _ (by omega))

theorem mapM_cons_some {α β : Type} {f : α → Option β} {x : α} {xs : List α} {ys : List β} :
    (x :: xs).mapM f = some ys ↔ ∃ y ys', f x = some y ∧ xs.mapM f = some ys' ∧ ys = y :: ys' := by
  simp only [List.mapM_cons, Option.bind_eq_bind, Option.bind_eq_some_iff, Option.pure_def,
    Option.some.injEq, eq_comm (a := ys)]
  constructor
  · rintro ⟨y, hy, ys', hys, h⟩
    exact ⟨y, ys', hy, hys, h⟩
  · rintro ⟨y, ys', hy, hys, h⟩
    exact ⟨y, hy, ys', hys, h⟩

theorem encodePoints_units : ∀ {cps : List ℕ} {ts : List JsString}, (∀ cp ∈ cps, cp ≤ 0x10FFFF) →
    cps.mapM encodePoint = some ts → ∀ u ∈ ts.flatten, unreserved u.toNat ∨ u = percent
  | [], ts, _, h => by
    obtain rfl : [] = ts := Option.some.inj h
    simp
  | cp :: cps, ts, hle, h => by
    obtain ⟨t, ts', ht, hts, rfl⟩ := mapM_cons_some.1 h
    intro u hu
    rw [List.flatten_cons] at hu
    rcases List.mem_append.1 hu with hu | hu
    · exact encodePoint_units (hle cp List.mem_cons_self) ht u hu
    · exact encodePoints_units (fun c hc => hle c (List.mem_cons_of_mem _ hc)) hts u hu

theorem encode_units {s t : JsString} (h : encodeURIComponent s = some t) :
    ∀ u ∈ t, unreserved u.toNat ∨ u = percent := by
  obtain ⟨ts, hts, rfl⟩ := Option.map_eq_some_iff.1 h
  exact encodePoints_units (fun cp hcp => codePoints_le hcp) hts

/-- No code point of the string is half a pair. -/
def Encodable (s : JsString) : Prop := ∀ cp ∈ codePoints s, ¬ isSurrogate cp

theorem encodable_iff {s : JsString} : (∃ t, encodeURIComponent s = some t) ↔ Encodable s := by
  have hpoint : ∀ cp, (∃ t, encodePoint cp = some t) ↔ ¬ isSurrogate cp := by
    intro cp
    unfold encodePoint
    split_ifs with h1 h2 <;> simp [h1]
  have hpoints : ∀ cps : List ℕ, (∃ ts, cps.mapM encodePoint = some ts) ↔
      ∀ cp ∈ cps, ¬ isSurrogate cp := by
    intro cps
    induction cps with
    | nil => simp
    | cons cp cps ih =>
      rw [List.forall_mem_cons, ← hpoint, ← ih]
      constructor
      · rintro ⟨ts, h⟩
        obtain ⟨t, ts', h1, h2, -⟩ := mapM_cons_some.1 h
        exact ⟨⟨t, h1⟩, ⟨ts', h2⟩⟩
      · rintro ⟨⟨t, h1⟩, ⟨ts, h2⟩⟩
        exact ⟨_, mapM_cons_some.2 ⟨t, ts, h1, h2, rfl⟩⟩
  unfold Encodable encodeURIComponent
  rw [← hpoints]
  constructor
  · rintro ⟨t, h⟩
    obtain ⟨ts, hts, -⟩ := Option.map_eq_some_iff.1 h
    exact ⟨ts, hts⟩
  · rintro ⟨ts, h⟩
    exact ⟨_, by rw [h]; rfl⟩

end Js
