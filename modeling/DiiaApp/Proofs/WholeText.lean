import DiiaApp.Proofs.Leaves
import DiiaApp.Proofs.Literal

/-!
# A text decoded as a whole

The text of an encoded tree, decoded at once instead of leaf by leaf, weighs less than the tree, or
it is the text of a tree with shorter names, or nothing was escaped and it is the text of the tree
(`print_shrinks`, `decode_print`).
-/

namespace Js

/-- A way to write things down: the text of one, its weight and how long its names are. -/
structure Form (α : Type) where
  text : α → JsString
  weight : α → ℕ
  names : α → ℕ

/-- The text `d` weighs no more than `a`, and as much only where it writes something whose names are
no longer than those of `a`, and as long only where `C`. -/
def Form.Shrinks {α : Type} (F : Form α) (a : α) (d : JsString) (C : Prop) : Prop :=
  textWeight d ≤ F.weight a ∧ (F.weight a ≤ textWeight d →
    ∃ a', d = F.text a' ∧ F.names a' ≤ F.names a ∧ (F.names a ≤ F.names a' → C))

section Shrinks

variable {α β γ : Type} {F : Form α} {G : Form β} {H : Form γ} {a : α} {b : β} {d e : JsString}
  {C D : Prop}

theorem Form.Shrinks.imp (h : F.Shrinks a d C) (hC : C → D) : F.Shrinks a d D :=
  ⟨h.1, fun hle => (h.2 hle).imp fun _ h => ⟨h.1, h.2.1, fun hn => hC (h.2.2 hn)⟩⟩

/-- The text of a thing no heavier than the thing is such a text. -/
theorem Form.shrinks_text (h : textWeight (F.text a) ≤ F.weight a) :
    F.Shrinks a (F.text a) True :=
  ⟨h, fun _ => ⟨a, rfl, le_rfl, fun _ => trivial⟩⟩

/-- What is made of two things, its text of their texts. -/
theorem Form.Shrinks.both {f : α → β → γ} {t : JsString → JsString → JsString}
    (ha : F.Shrinks a d C) (hb : G.Shrinks b e D)
    (ht : textWeight (t d e) = textWeight d + textWeight e)
    (hf : ∀ a b, H.text (f a b) = t (F.text a) (G.text b) ∧
      H.weight (f a b) = F.weight a + G.weight b ∧ H.names (f a b) = F.names a + G.names b) :
    H.Shrinks (f a b) (t d e) (C ∧ D) := by
  obtain ⟨ha1, ha2⟩ := ha
  obtain ⟨hb1, hb2⟩ := hb
  have hw := (hf a b).2.1
  refine ⟨by omega, fun hle => ?_⟩
  obtain ⟨a', rfl, ha3, ha4⟩ := ha2 (by omega)
  obtain ⟨b', rfl, hb3, hb4⟩ := hb2 (by omega)
  have hn := (hf a b).2.2
  have hn' := (hf a' b').2.2
  exact ⟨f a' b', (hf a' b').1.symm, by omega, fun hle' => ⟨ha4 (by omega), hb4 (by omega)⟩⟩

end Shrinks

def nameForm : Form JsString := ⟨quote, strWeight, List.length⟩

/-- A name in its quotes, decoded. -/
theorem name_shrinks {k d : JsString} (h : decodeURIComponent (quote k) = some d) :
    nameForm.Shrinks k d (percent ∉ k) := by
  have h34 : textUnit 34 = 0 := by decide
  rw [quote, quoted, decode_cons (by decide), decode_append_cons (by decide) (by decide)] at h
  obtain ⟨_, hd, rfl⟩ := Option.map_eq_some_iff.1 h
  obtain ⟨b, hb, he⟩ := Option.bind_eq_some_iff.1 hd
  obtain ⟨r, hr, rfl⟩ := Option.map_eq_some_iff.1 he
  obtain rfl : [] = r := Option.some.inj hr
  obtain ⟨h1, h2⟩ := decode_weight hb
  have hq := quote_weight k
  simp only [quote, quoted, textWeight_cons, textWeight_append, textWeight_nil, h34] at hq
  simp only [Form.Shrinks, nameForm, textWeight_cons, textWeight_append, textWeight_nil, h34]
  refine ⟨by omega, fun hle => ?_⟩
  obtain ⟨k', rfl, rfl⟩ := quoteBody_restore (h2 (by omega))
  obtain ⟨hl1, hl2⟩ := restore_length k'
  exact ⟨k', rfl, hl1, hl2⟩

namespace Json

variable {N : Type}

mutual

/-- No string of the tree needs an escape and no name has a `%`. -/
def Direct : Json N → Prop
  | .str s => Unescaped s
  | .arr xs => ItemsDirect xs
  | .obj es => EntriesDirect es
  | _ => True

def ItemsDirect : List (Json N) → Prop
  | [] => True
  | x :: xs => Direct x ∧ ItemsDirect xs

def EntriesDirect : List (JsString × Json N) → Prop
  | [] => True
  | (k, x) :: es => percent ∉ k ∧ Direct x ∧ EntriesDirect es

end

abbrev nameLength (v : Json N) : ℕ := size List.length (fun _ => 0) v

variable [JsNumber N]

def treeForm : Form (Json N) := ⟨print, weight, nameLength⟩

def itemsForm : Form (List (Json N)) :=
  ⟨printItems, itemsWeight, itemsSize List.length fun _ => 0⟩

def entriesForm : Form (List (JsString × Json N)) :=
  ⟨printEntries, entriesWeight, entriesSize List.length fun _ => 0⟩

/-- A string leaf without its encoding. -/
theorem leaf_shrinks {s : JsString} (he : Encodable s) :
    (treeForm (N := N)).Shrinks (.str s) (quoted s) (Unescaped s) := by
  have h34 : textUnit 34 = 0 := by decide
  obtain ⟨h1, h2⟩ := unescaped_weight s
  simp only [Form.Shrinks, treeForm, quoted, weight, nameLength, size, leafWeight, textWeight_cons,
    textWeight_append, textWeight_nil, h34]
  refine ⟨by omega, fun hle => ?_⟩
  have hs := h2 (by omega)
  refine ⟨.str s, ?_, le_rfl, fun _ => hs⟩
  rw [print, quote, quoteBody_unescaped hs he, quoted]

theorem number_weight (n : N) : textWeight (JsNumber.toText n) = 0 := by
  have hunit : ∀ u, isNumberUnit u → textUnit u = 0 := by
    intro u hu
    simp only [isNumberUnit, isDigit, decide_eq_true_eq] at hu
    rcases hu with hu | rfl | rfl | rfl | rfl | rfl
    · exact textUnit_eq_zero (by omega) (by simp only [isSurrogate, decide_eq_true_eq]; omega)
    all_goals decide
  refine List.sum_eq_zero_iff_forall_eq_nat.2 fun w hw => ?_
  obtain ⟨u, hu, rfl⟩ := List.mem_map.1 hw
  exact hunit u (isNumber_units (JsNumber.isNumber_toText n) u hu)

theorem number_decode (n : N) :
    decodeURIComponent (JsNumber.toText n) = some (JsNumber.toText n) := by
  refine decode_of_no_percent fun hp => ?_
  exact absurd (isNumber_units (JsNumber.isNumber_toText n) _ hp) (by decide)

theorem decode_append {q : CodeUnit} (hq : hexVal q = none) (hp : q ≠ percent) (a b : JsString) :
    decodeURIComponent (a ++ q :: b) = (decodeURIComponent a).bind fun x =>
      (decodeURIComponent (q :: b)).map fun y => x ++ y := by
  rw [decode_append_cons hq hp, decode_cons hp]
  rcases decodeURIComponent a with _ | x
  · rfl
  · rcases decodeURIComponent b with _ | y <;> rfl

/-- The decoding of an item and what follows it. -/
theorem decode_item {q : CodeUnit} (hp : q ≠ percent) (x : Json N) (xs : List (Json N))
    {d : JsString} : decodeURIComponent (q :: (print x ++ printItems xs)) = some d ↔
      ∃ a b, decodeURIComponent (print x) = some a ∧ decodeURIComponent (printItems xs) = some b ∧
        d = q :: (a ++ b) := by
  have hitems : decodeURIComponent (print x ++ printItems xs) = (decodeURIComponent (print x)).bind
      fun a => (decodeURIComponent (printItems xs)).map fun b => a ++ b := by
    rcases xs with _ | ⟨y, ys⟩
    · exact decode_append (by decide) (by decide) _ _
    · exact decode_append (by decide) (by decide) _ _
  rw [decode_cons hp, hitems]
  rcases decodeURIComponent (print x) with _ | a
  · simp
  · rcases decodeURIComponent (printItems xs) with _ | b
    · simp
    · simp [eq_comm]

/-- The decoding of an entry and what follows it. -/
theorem decode_entry {q : CodeUnit} (hp : q ≠ percent) (k : JsString) (v : Json N)
    (es : List (JsString × Json N)) {d : JsString} :
    decodeURIComponent (q :: (quote k ++ 58 :: (print v ++ printEntries es))) = some d ↔
      ∃ a b c, decodeURIComponent (quote k) = some a ∧ decodeURIComponent (print v) = some b ∧
        decodeURIComponent (printEntries es) = some c ∧ d = q :: (a ++ 58 :: (b ++ c)) := by
  have hentries : decodeURIComponent (print v ++ printEntries es)
      = (decodeURIComponent (print v)).bind fun b =>
          (decodeURIComponent (printEntries es)).map fun c => b ++ c := by
    rcases es with _ | ⟨⟨k', w⟩, es⟩
    · exact decode_append (by decide) (by decide) _ _
    · exact decode_append (by decide) (by decide) _ _
  rw [decode_cons hp, decode_append_cons (by decide) (by decide), hentries]
  rcases decodeURIComponent (quote k) with _ | a
  · simp
  · rcases decodeURIComponent (print v) with _ | b
    · simp
    · rcases decodeURIComponent (printEntries es) with _ | c
      · simp
      · simp [eq_comm]

theorem item_shrinks {γ : Type} {H : Form γ} {f : List (Json N) → γ} {q : CodeUnit}
    (hq : textUnit q = 0) (hf : ∀ x xs, H.text (f (x :: xs)) = q :: (print x ++ printItems xs) ∧
      H.weight (f (x :: xs)) = itemsForm.weight (x :: xs) ∧
      H.names (f (x :: xs)) = itemsForm.names (x :: xs))
    {x : Json N} {xs : List (Json N)} {a b : JsString} {C D : Prop} (hx : treeForm.Shrinks x a C)
    (hxs : itemsForm.Shrinks xs b D) : H.Shrinks (f (x :: xs)) (q :: (a ++ b)) (C ∧ D) :=
  hx.both (f := fun x xs => f (x :: xs)) (t := fun a b => q :: (a ++ b)) hxs (by simp [hq]) hf

theorem entry_shrinks {γ : Type} {H : Form γ} {f : List (JsString × Json N) → γ} {q : CodeUnit}
    (hq : textUnit q = 0) (hf : ∀ k v es,
      H.text (f ((k, v) :: es)) = q :: (quote k ++ 58 :: (print v ++ printEntries es)) ∧
      H.weight (f ((k, v) :: es)) = entriesForm.weight ((k, v) :: es) ∧
      H.names (f ((k, v) :: es)) = entriesForm.names ((k, v) :: es))
    {k : JsString} {v : Json N} {es : List (JsString × Json N)} {a b c : JsString} {B C D : Prop}
    (hk : nameForm.Shrinks k a B) (hv : treeForm.Shrinks v b C) (hes : entriesForm.Shrinks es c D) :
    H.Shrinks (f ((k, v) :: es)) (q :: (a ++ 58 :: (b ++ c))) (B ∧ C ∧ D) := by
  have h58 : textUnit 58 = 0 := by decide
  -- the value and the entries after it, taken together
  have hrest := hv.both (H := ⟨fun r : Json N × List (JsString × Json N) =>
      58 :: (print r.1 ++ printEntries r.2), fun r => treeForm.weight r.1 + entriesForm.weight r.2,
      fun r => treeForm.names r.1 + entriesForm.names r.2⟩) (f := Prod.mk)
    (t := fun b c => 58 :: (b ++ c)) hes (by simp [h58]) fun _ _ => ⟨rfl, rfl, rfl⟩
  refine hk.both (f := fun k r => f ((k, r.1) :: r.2)) (t := fun a d => q :: (a ++ d)) hrest
    (by simp [hq]) fun k r => ?_
  obtain ⟨h1, h2, h3⟩ := hf k r.1 r.2
  exact ⟨h1, h2.trans (Nat.add_assoc ..), h3.trans (Nat.add_assoc ..)⟩

mutual

/-- The text of an encoded tree, decoded as a whole. -/
theorem print_shrinks : ∀ {j j' : Json N} {d : JsString},
    j.mapStrings encodeURIComponent = some j' → decodeURIComponent (print j') = some d →
      treeForm.Shrinks j d (Direct j)
  | .null, _, d, hj, h => by
    obtain rfl := Option.some.inj hj
    obtain rfl : js "null" = d := Option.some.inj h
    exact Form.shrinks_text (F := treeForm) le_rfl
  | .bool true, _, d, hj, h => by
    obtain rfl := Option.some.inj hj
    obtain rfl : js "true" = d := Option.some.inj h
    exact Form.shrinks_text (F := treeForm) le_rfl
  | .bool false, _, d, hj, h => by
    obtain rfl := Option.some.inj hj
    obtain rfl : js "false" = d := Option.some.inj h
    exact Form.shrinks_text (F := treeForm) le_rfl
  | .num n, _, d, hj, h => by
    obtain rfl := Option.some.inj hj
    obtain rfl : JsNumber.toText n = d := Option.some.inj ((number_decode n).symm.trans h)
    exact Form.shrinks_text (F := treeForm) (number_weight n).le
  | .str s, _, d, hj, h => by
    obtain ⟨t, ht, rfl⟩ := Option.map_eq_some_iff.1 hj
    obtain rfl : quoted s = d := Option.some.inj ((decode_leaf ht).symm.trans h)
    exact leaf_shrinks (encodable_iff.1 ⟨t, ht⟩)
  | .arr [], _, d, hj, h => by
    obtain rfl := Option.some.inj hj
    obtain rfl : js "[]" = d := Option.some.inj h
    exact Form.shrinks_text (F := treeForm) le_rfl
  | .arr (x :: xs), _, d, hj, h => by
    obtain ⟨ys, hys, rfl⟩ := Option.map_eq_some_iff.1 hj
    obtain ⟨y, hy, hys⟩ := Option.bind_eq_some_iff.1 hys
    obtain ⟨ys', hys', rfl⟩ := Option.map_eq_some_iff.1 hys
    obtain ⟨a, b, ha, hb, rfl⟩ := (decode_item (by decide) y ys').1 h
    exact item_shrinks (by decide) (fun _ _ => ⟨rfl, rfl, rfl⟩) (print_shrinks hy ha)
      (printItems_shrinks hys' hb)
  | .obj [], _, d, hj, h => by
    obtain rfl := Option.some.inj hj
    obtain rfl : js "{}" = d := Option.some.inj h
    exact Form.shrinks_text (F := treeForm) le_rfl
  | .obj ((k, x) :: es), _, d, hj, h => by
    obtain ⟨fs, hfs, rfl⟩ := Option.map_eq_some_iff.1 hj
    obtain ⟨y, hy, hfs⟩ := Option.bind_eq_some_iff.1 hfs
    obtain ⟨fs', hfs', rfl⟩ := Option.map_eq_some_iff.1 hfs
    obtain ⟨a, b, c, ha, hb, hc, rfl⟩ := (decode_entry (by decide) k y fs').1 h
    exact entry_shrinks (by decide) (fun _ _ _ => ⟨rfl, rfl, rfl⟩) (name_shrinks ha)
      (print_shrinks hy hb) (printEntries_shrinks hfs' hc)

theorem printItems_shrinks : ∀ {xs ys : List (Json N)} {d : JsString},
    mapItems encodeURIComponent xs = some ys → decodeURIComponent (printItems ys) = some d →
      itemsForm.Shrinks xs d (ItemsDirect xs)
  | [], _, d, hj, h => by
    obtain rfl := Option.some.inj hj
    obtain rfl : [93] = d := Option.some.inj h
    exact Form.shrinks_text (F := itemsForm) le_rfl
  | x :: xs, _, d, hj, h => by
    obtain ⟨y, hy, hys⟩ := Option.bind_eq_some_iff.1 hj
    obtain ⟨ys', hys', rfl⟩ := Option.map_eq_some_iff.1 hys
    obtain ⟨a, b, ha, hb, rfl⟩ := (decode_item (by decide) y ys').1 h
    exact item_shrinks (f := id) (by decide) (fun _ _ => ⟨rfl, rfl, rfl⟩) (print_shrinks hy ha)
      (printItems_shrinks hys' hb)

theorem printEntries_shrinks : ∀ {es fs : List (JsString × Json N)} {d : JsString},
    mapEntries encodeURIComponent es = some fs → decodeURIComponent (printEntries fs) = some d →
      entriesForm.Shrinks es d (EntriesDirect es)
  | [], _, d, hj, h => by
    obtain rfl := Option.some.inj hj
    obtain rfl : [125] = d := Option.some.inj h
    exact Form.shrinks_text (F := entriesForm) le_rfl
  | (k, x) :: es, _, d, hj, h => by
    obtain ⟨y, hy, hfs⟩ := Option.bind_eq_some_iff.1 hj
    obtain ⟨fs', hfs', rfl⟩ := Option.map_eq_some_iff.1 hfs
    obtain ⟨a, b, c, ha, hb, hc, rfl⟩ := (decode_entry (by decide) k y fs').1 h
    exact entry_shrinks (f := id) (by decide) (fun _ _ _ => ⟨rfl, rfl, rfl⟩) (name_shrinks ha)
      (print_shrinks hy hb) (printEntries_shrinks hfs' hc)

end

mutual

/-- Where nothing is escaped, decoding the whole text decodes the leaves. -/
theorem decode_print : ∀ {j j' : Json N}, j.mapStrings encodeURIComponent = some j' → Direct j →
    decodeURIComponent (print j') = some (print j)
  | .null, _, hj, _ => by obtain rfl := Option.some.inj hj; rfl
  | .bool true, _, hj, _ => by obtain rfl := Option.some.inj hj; rfl
  | .bool false, _, hj, _ => by obtain rfl := Option.some.inj hj; rfl
  | .num n, _, hj, _ => by obtain rfl := Option.some.inj hj; exact number_decode n
  | .str s, _, hj, hd => by
    obtain ⟨t, ht, rfl⟩ := Option.map_eq_some_iff.1 hj
    rw [print, print, decode_leaf ht, quote, quoteBody_unescaped hd (encodable_iff.1 ⟨t, ht⟩)]
  | .arr [], _, hj, _ => by obtain rfl := Option.some.inj hj; rfl
  | .arr (x :: xs), _, hj, hd => by
    obtain ⟨ys, hys, rfl⟩ := Option.map_eq_some_iff.1 hj
    obtain ⟨y, hy, hys⟩ := Option.bind_eq_some_iff.1 hys
    obtain ⟨ys', hys', rfl⟩ := Option.map_eq_some_iff.1 hys
    exact (decode_item (by decide) y ys').2
      ⟨_, _, decode_print hy hd.1, decode_printItems hys' hd.2, rfl⟩
  | .obj [], _, hj, _ => by obtain rfl := Option.some.inj hj; rfl
  | .obj ((k, x) :: es), _, hj, hd => by
    obtain ⟨fs, hfs, rfl⟩ := Option.map_eq_some_iff.1 hj
    obtain ⟨y, hy, hfs⟩ := Option.bind_eq_some_iff.1 hfs
    obtain ⟨fs', hfs', rfl⟩ := Option.map_eq_some_iff.1 hfs
    exact (decode_entry (by decide) k y fs').2 ⟨_, _, _, decode_name hd.1, decode_print hy hd.2.1,
      decode_printEntries hfs' hd.2.2, rfl⟩

theorem decode_printItems : ∀ {xs ys : List (Json N)}, mapItems encodeURIComponent xs = some ys →
    ItemsDirect xs → decodeURIComponent (printItems ys) = some (printItems xs)
  | [], _, hj, _ => by obtain rfl := Option.some.inj hj; rfl
  | x :: xs, _, hj, hd => by
    obtain ⟨y, hy, hys⟩ := Option.bind_eq_some_iff.1 hj
    obtain ⟨ys', hys', rfl⟩ := Option.map_eq_some_iff.1 hys
    exact (decode_item (by decide) y ys').2
      ⟨_, _, decode_print hy hd.1, decode_printItems hys' hd.2, rfl⟩

theorem decode_printEntries : ∀ {es fs : List (JsString × Json N)},
    mapEntries encodeURIComponent es = some fs → EntriesDirect es →
      decodeURIComponent (printEntries fs) = some (printEntries es)
  | [], _, hj, _ => by obtain rfl := Option.some.inj hj; rfl
  | (k, x) :: es, _, hj, hd => by
    obtain ⟨y, hy, hfs⟩ := Option.bind_eq_some_iff.1 hj
    obtain ⟨fs', hfs', rfl⟩ := Option.map_eq_some_iff.1 hfs
    exact (decode_entry (by decide) k y fs').2 ⟨_, _, _, decode_name hd.1, decode_print hy hd.2.1,
      decode_printEntries hfs' hd.2.2, rfl⟩

end

end Json

end Js
