import DiiaApp.Proofs.Json
import DiiaApp.RpcError

/-!
# Errors that can be sent

The text of an error is a legal metadata value where its names can be written in printable ASCII;
its strings can where they can be encoded. So the error response of an `ApiError` can be made exactly
where the error is `Sendable`.
-/

namespace DiiaApp

open Js Metadata

/-! ## Legal texts -/

theorem isLegal_append {a b : JsString} : isLegal (a ++ b) ↔ isLegal a ∧ isLegal b := by
  simp [isLegal, List.all_append]

theorem isLegal_cons {u : CodeUnit} {s : JsString} :
    isLegal (u :: s) ↔ (32 ≤ u.toNat ∧ u.toNat ≤ 126) ∧ isLegal s := by
  simp [isLegal]

/-- The string is written in printable ASCII between quotes. -/
def Plain (s : JsString) : Prop := ∀ cp ∈ codePoints s, cp ≤ 126 ∨ isSurrogate cp

theorem isLegal_hexLower : ∀ n, n < 16 → isLegal [hexLower n] := by decide

theorem isLegal_unicodeEscape {cp : ℕ} (h : cp < 65536) : isLegal (unicodeEscape cp) := by
  have hd : ∀ n, n < 16 → 32 ≤ (hexLower n).toNat ∧ (hexLower n).toNat ≤ 126 := fun n hn =>
    (isLegal_cons.1 (isLegal_hexLower n hn)).1
  simp only [unicodeEscape, isLegal_cons]
  exact ⟨by decide, by decide, hd _ (by omega), hd _ (by omega), hd _ (by omega), hd _ (by omega),
    rfl⟩

theorem isLegal_utf16 {cp : ℕ} (h1 : 32 ≤ cp) (h2 : cp ≤ 0x10FFFF) :
    isLegal (utf16 cp) ↔ cp ≤ 126 := by
  unfold utf16
  split_ifs with h
  · simp only [isLegal_cons, toNat_ofNat h]
    exact ⟨fun h => h.1.2, fun h => ⟨⟨h1, h⟩, rfl⟩⟩
  · refine iff_of_false (fun hl => ?_) (by omega)
    have := (isLegal_cons.1 hl).1
    rw [toNat_ofNat (by omega)] at this
    omega

theorem isLegal_quotePoint {cp : ℕ} (h : cp ≤ 0x10FFFF) :
    isLegal (quotePoint cp) ↔ cp ≤ 126 ∨ isSurrogate cp := by
  unfold quotePoint
  split_ifs with h1 h2 h3 h4 h5 h6 h7 h8
  · subst h1; decide
  · subst h2; decide
  · subst h3; decide
  · subst h4; decide
  · subst h5; decide
  · subst h6; decide
  · subst h7; decide
  · rcases h8 with h8 | h8
    · exact iff_of_true (isLegal_unicodeEscape (by omega)) (.inl (by omega))
    · exact iff_of_true (isLegal_unicodeEscape (isSurrogate_lt h8)) (.inr h8)
  · rw [not_or] at h8
    rw [isLegal_utf16 (by omega) h, or_iff_left h8.2]

theorem isLegal_quote (s : JsString) : isLegal (quote s) ↔ Plain s := by
  have hbody : ∀ cps : List ℕ, (∀ cp ∈ cps, cp ≤ 0x10FFFF) →
      (isLegal (cps.flatMap quotePoint) ↔ ∀ cp ∈ cps, cp ≤ 126 ∨ isSurrogate cp) := by
    intro cps
    induction cps with
    | nil => exact fun _ => iff_of_true rfl (by simp)
    | cons cp cps ih =>
      intro h
      rw [List.flatMap_cons, isLegal_append, List.forall_mem_cons,
        isLegal_quotePoint (h cp List.mem_cons_self),
        ih fun c hc => h c (List.mem_cons_of_mem _ hc)]
  unfold quote quoted
  rw [isLegal_cons, isLegal_append]
  constructor
  · exact fun h => (hbody _ fun cp hcp => codePoints_le hcp).1 h.2.1
  · exact fun h => ⟨by decide, (hbody _ fun cp hcp => codePoints_le hcp).2 h, by decide⟩

/-- A string without code units above printable ASCII is plain. -/
theorem plain_of_units {s : JsString} (hs : s.all fun u => u.toNat ≤ 126) : Plain s := by
  simp only [List.all_eq_true, decide_eq_true_eq] at hs
  have hlow : ∀ u ∈ s, ¬ isHigh u := by
    intro u hu
    have := hs u hu
    simp only [isHigh, decide_eq_true_eq]
    omega
  intro cp hcp
  obtain ⟨u, hu, rfl⟩ := mem_codePoints hlow hcp
  exact .inl (hs u hu)

theorem plain_of_encode {s t : JsString} (h : encodeURIComponent s = some t) : Plain t := by
  refine plain_of_units (List.all_eq_true.2 fun u hu => ?_)
  rcases encode_units h u hu with hu | rfl
  · simp only [unreserved, decide_eq_true_eq] at hu ⊢
    omega
  · decide

/-! ## Texts of trees -/

section Trees

variable {N : Type}

mutual

/-- Every string and every name of the tree is plain. -/
def PlainTree : Json N → Prop
  | .str s => Plain s
  | .arr xs => PlainItems xs
  | .obj es => PlainEntries es
  | _ => True

def PlainItems : List (Json N) → Prop
  | [] => True
  | x :: xs => PlainTree x ∧ PlainItems xs

def PlainEntries : List (JsString × Json N) → Prop
  | [] => True
  | (k, x) :: es => Plain k ∧ PlainTree x ∧ PlainEntries es

end

theorem isLegal_number {s : JsString} (h : isNumber s) : isLegal s := by
  refine List.all_eq_true.2 fun u hu => ?_
  have := isNumber_units h u hu
  simp only [isNumberUnit, isDigit, decide_eq_true_eq] at this ⊢
  rcases this with h | rfl | rfl | rfl | rfl | rfl
  · omega
  all_goals decide

variable [JsNumber N]

mutual

theorem isLegal_print : ∀ v : Json N, isLegal v.print ↔ PlainTree v
  | .null => iff_of_true rfl trivial
  | .bool true => iff_of_true rfl trivial
  | .bool false => iff_of_true rfl trivial
  | .num n => iff_of_true (isLegal_number (JsNumber.isNumber_toText n)) trivial
  | .str s => isLegal_quote s
  | .arr [] => iff_of_true rfl trivial
  | .arr (x :: xs) => by
    rw [Json.print, isLegal_cons, isLegal_append, isLegal_print x, isLegal_printItems xs]
    exact and_iff_right (by decide)
  | .obj [] => iff_of_true rfl trivial
  | .obj ((k, v) :: es) => by
    rw [Json.print, isLegal_cons, isLegal_append, isLegal_cons, isLegal_append, isLegal_quote,
      isLegal_print v, isLegal_printEntries es]
    exact (and_iff_right (by decide)).trans (and_congr_right fun _ => and_iff_right (by decide))

theorem isLegal_printItems : ∀ xs : List (Json N), isLegal (Json.printItems xs) ↔ PlainItems xs
  | [] => iff_of_true rfl trivial
  | x :: xs => by
    rw [Json.printItems, isLegal_cons, isLegal_append, isLegal_print x, isLegal_printItems xs]
    exact and_iff_right (by decide)

theorem isLegal_printEntries :
    ∀ es : List (JsString × Json N), isLegal (Json.printEntries es) ↔ PlainEntries es
  | [] => iff_of_true rfl trivial
  | (k, v) :: es => by
    rw [Json.printEntries, isLegal_cons, isLegal_append, isLegal_cons, isLegal_append,
      isLegal_quote, isLegal_print v, isLegal_printEntries es]
    exact (and_iff_right (by decide)).trans (and_congr_right fun _ => and_iff_right (by decide))

end

end Trees

/-! ## Values -/

section Values

variable {N : Type}

def isUndefined : Value N → Bool
  | .undefined => true
  | _ => false

theorem not_undefined {v : Value N} (h : ¬ v.isNullish) : ¬ isUndefined v := by
  rcases v with _ | _ | _ | _ | _ | _ | _ | _ | _ <;> simp [isUndefined, Value.isNullish] at h ⊢

variable (WrittenLeaf : JsString → Prop)

mutual

/-- The value is written as JSON in printable ASCII, where the strings that can be are those of
`WrittenLeaf`. -/
def Serialisable : Value N → Prop
  | .bigint _ => False
  | .cycle => False
  | .str s => WrittenLeaf s
  | .arr xs => ItemsSerialisable xs
  | .obj es => EntriesSerialisable es
  | _ => True

def ItemsSerialisable : List (Value N) → Prop
  | [] => True
  | x :: xs => Serialisable x ∧ ItemsSerialisable xs

/-- The name of a property that is `undefined` is not written. -/
def EntriesSerialisable : List (JsString × Value N) → Prop
  | [] => True
  | (k, x) :: es => (¬ isUndefined x → Plain k) ∧ Serialisable x ∧ EntriesSerialisable es

end

variable {WrittenLeaf} (f : JsString → Option JsString)

/-- The tree written for a value once its strings are encoded. -/
def encodedTree (v : Value N) : Option (Option (Json N)) :=
  (v.mapStrings f).bind Value.toJson

def encodedItems (xs : List (Value N)) : Option (List (Json N)) :=
  (Value.mapItems f xs).bind Value.toItems

def encodedEntries (es : List (JsString × Value N)) : Option (List (JsString × Json N)) :=
  (Value.mapEntries f es).bind Value.toEntries

theorem encodedItems_cons (x : Value N) (xs : List (Value N)) :
    encodedItems f (x :: xs)
      = (encodedTree f x).bind fun y => (encodedItems f xs).map (y.getD .null :: ·) := by
  simp only [encodedItems, encodedTree, Value.mapItems]
  rcases x.mapStrings f with _ | y
  · rfl
  rcases Value.mapItems f xs with _ | ys
  · simp
  · rfl

theorem encodedEntries_cons (k : JsString) (x : Value N) (es : List (JsString × Value N)) :
    encodedEntries f ((k, x) :: es)
      = (encodedTree f x).bind fun y => (encodedEntries f es).map fun fs =>
          match y with
          | none => fs
          | some j => (k, j) :: fs := by
  simp only [encodedEntries, encodedTree, Value.mapEntries]
  rcases x.mapStrings f with _ | y
  · rfl
  rcases Value.mapEntries f es with _ | ys
  · simp
  · simp only [Option.bind_some, Option.map_some, Value.toEntries]
    rcases y.toJson with _ | _ | j <;> rfl

theorem encodedTree_arr (xs : List (Value N)) :
    encodedTree f (.arr xs) = (encodedItems f xs).map fun ys => some (.arr ys) := by
  simp only [encodedItems, encodedTree, Value.mapStrings]
  rcases Value.mapItems f xs with _ | ys <;> rfl

theorem encodedTree_obj (es : List (JsString × Value N)) :
    encodedTree f (.obj es) = (encodedEntries f es).map fun fs => some (.obj fs) := by
  simp only [encodedEntries, encodedTree, Value.mapStrings]
  rcases Value.mapEntries f es with _ | ys <;> rfl

/-- Only `undefined` is not written. -/
theorem encodedTree_none {f : JsString → Option JsString} {v : Value N}
    (h : encodedTree f v = some none) : isUndefined v := by
  rcases v with _ | _ | b | n | n | s | xs | es | _
  · rfl
  case str =>
    simp only [encodedTree, Value.mapStrings] at h
    rcases he : f s with _ | t <;> simp [he, Value.toJson] at h
  case arr =>
    rw [encodedTree_arr] at h
    simp at h
  case obj =>
    rw [encodedTree_obj] at h
    simp at h
  all_goals simp [encodedTree, Value.mapStrings, Value.toJson] at h

/-- A tree made of its parts is plain where the parts are. -/
theorem exists_map_some {α : Type} {o : Option α} {f : α → Json N} {P : Json N → Prop} :
    (∃ y, o.map (fun ys => some (f ys)) = some y ∧ ∀ j, y = some j → P j) ↔
      ∃ ys, o = some ys ∧ P (f ys) := by
  constructor
  · rintro ⟨y, h, hj⟩
    obtain ⟨ys, hys, rfl⟩ := Option.map_eq_some_iff.1 h
    exact ⟨ys, hys, hj _ rfl⟩
  · rintro ⟨ys, hys, hp⟩
    refine ⟨_, by rw [hys]; rfl, ?_⟩
    rintro j ⟨⟩
    exact hp

variable {f}

mutual

/-- A value is written, in plain strings and names, exactly where it is `Serialisable`. -/
theorem encodedTree_plain (hf : ∀ s, WrittenLeaf s ↔ ∃ t, f s = some t ∧ Plain t) :
    ∀ v : Value N,
    (∃ y, encodedTree f v = some y ∧ ∀ j, y = some j → PlainTree j) ↔ Serialisable WrittenLeaf v
  | .undefined => iff_of_true ⟨none, rfl, by simp⟩ trivial
  | .null => iff_of_true ⟨_, rfl, by rintro j ⟨⟩; trivial⟩ trivial
  | .bool b => iff_of_true ⟨_, rfl, by rintro j ⟨⟩; trivial⟩ trivial
  | .num n => iff_of_true ⟨_, rfl, by rintro j ⟨⟩; trivial⟩ trivial
  | .bigint n => iff_of_false (by simp [encodedTree, Value.mapStrings, Value.toJson]) id
  | .cycle => iff_of_false (by simp [encodedTree, Value.mapStrings]) id
  | .str s => by
    rw [Serialisable, hf]
    simp only [encodedTree, Value.mapStrings]
    constructor
    · rintro ⟨y, h, hj⟩
      rcases he : f s with _ | t
      · simp [he] at h
      · rw [he] at h
        obtain rfl := Option.some.inj h
        exact ⟨t, rfl, hj _ rfl⟩
    · rintro ⟨t, he, ht⟩
      refine ⟨some (.str t), by rw [he]; rfl, ?_⟩
      rintro j ⟨⟩
      exact ht
  | .arr xs => by
    rw [Serialisable, ← encodedItems_plain hf xs, encodedTree_arr]
    exact exists_map_some
  | .obj es => by
    rw [Serialisable, ← encodedEntries_plain hf es, encodedTree_obj]
    exact exists_map_some

theorem encodedItems_plain (hf : ∀ s, WrittenLeaf s ↔ ∃ t, f s = some t ∧ Plain t) :
    ∀ xs : List (Value N),
    (∃ ys, encodedItems f xs = some ys ∧ PlainItems ys) ↔ ItemsSerialisable WrittenLeaf xs
  | [] => iff_of_true ⟨[], rfl, trivial⟩ trivial
  | x :: xs => by
    rw [ItemsSerialisable, ← encodedTree_plain hf x, ← encodedItems_plain hf xs, encodedItems_cons]
    constructor
    · rintro ⟨zs, h, hp⟩
      obtain ⟨y, hy, h⟩ := Option.bind_eq_some_iff.1 h
      obtain ⟨ys, hys, rfl⟩ := Option.map_eq_some_iff.1 h
      refine ⟨⟨y, hy, ?_⟩, ys, hys, hp.2⟩
      rintro j rfl
      exact hp.1
    · rintro ⟨⟨y, hy, hj⟩, ys, hys, hp⟩
      refine ⟨y.getD .null :: ys, by rw [hy, hys]; rfl, ?_, hp⟩
      rcases y with _ | j
      · trivial
      · exact hj j rfl

theorem encodedEntries_plain (hf : ∀ s, WrittenLeaf s ↔ ∃ t, f s = some t ∧ Plain t) :
    ∀ es : List (JsString × Value N),
    (∃ fs, encodedEntries f es = some fs ∧ PlainEntries fs) ↔ EntriesSerialisable WrittenLeaf es
  | [] => iff_of_true ⟨[], rfl, trivial⟩ trivial
  | (k, x) :: es => by
    rw [EntriesSerialisable, ← encodedTree_plain hf x, ← encodedEntries_plain hf es,
      encodedEntries_cons]
    constructor
    · rintro ⟨zs, h, hp⟩
      obtain ⟨y, hy, h⟩ := Option.bind_eq_some_iff.1 h
      obtain ⟨fs, hfs, rfl⟩ := Option.map_eq_some_iff.1 h
      rcases y with _ | j
      · exact ⟨fun hu => absurd (encodedTree_none hy) hu, ⟨none, hy, by simp⟩, fs, hfs, hp⟩
      · refine ⟨fun _ => hp.1, ⟨some j, hy, ?_⟩, fs, hfs, hp.2.2⟩
        rintro j' ⟨⟩
        exact hp.2.1
    · rintro ⟨hk, ⟨y, hy, hj⟩, fs, hfs, hp⟩
      rcases y with _ | j
      · exact ⟨fs, by rw [hy, hfs]; rfl, hp⟩
      · refine ⟨(k, j) :: fs, by rw [hy, hfs]; rfl, hk fun hu => ?_, hj j rfl, hp⟩
        rcases x with _ | _ | _ | _ | _ | _ | _ | _ | _ <;> simp [isUndefined] at hu
        simp [encodedTree, Value.mapStrings, Value.toJson] at hy

end

end Values

/-! ## Errors -/

section Errors

variable {N : Type}

/-- A string that the codec takes, or that the iterator makes plain all the same. -/
def Packages.WrittenLeaf (p : Packages N) (s : JsString) : Prop :=
  Encodable s ∨ ∃ t, p.encodeLeaf s = some t ∧ Plain t

/-- An error response can be made of the error: its data can be asked for a process code, which is
printable where there is one, its message and data can be written, and a code in its data that is
looked up can be turned into a property name. -/
structure Sendable [JsNumber N] (p : Packages N) (e : ApiError N) : Prop where
  data : ¬ e.data.isNullish
  processCode : (e.data.prop (js "processCode")).truthy →
    ∃ text, (e.data.prop (js "processCode")).toText = some text ∧ isLegal text
  name : Plain e.name
  message : p.WrittenLeaf e.message
  type : Plain e.type
  written : Serialisable p.WrittenLeaf e.data
  code : Js.Map.find e.code httpCodeToGrpcCode = none → ¬ (e.data.prop (js "code")).isNullish →
    ∃ text, (e.data.prop (js "code")).toText = some text

variable {p : Packages N}

theorem setChecked_ok {m m' : Metadata} {key value : JsString} :
    setChecked (N := N) m key value = .ok m' ↔ isLegal value ∧ m' = m.set key [value] := by
  unfold setChecked
  split_ifs with h <;> simp [h, throwNative, eq_comm]

theorem writtenLeaf_iff (hl : p.Leafwise) (s : JsString) :
    p.WrittenLeaf s ↔ ∃ t, p.encodeLeaf s = some t ∧ Plain t := by
  refine or_iff_right_of_imp fun h => ?_
  obtain ⟨t, ht⟩ := encodable_iff.2 h
  exact ⟨t, hl.encodes ht, plain_of_encode ht⟩

theorem encode_ok (hl : p.Leafwise) {v w : Value N} :
    p.encodeValuesWithIterator v = .ok w ↔ v.mapStrings p.encodeLeaf = some w := by
  rw [← hl.encode]
  rcases p.encodeValuesWithIterator v with e | w' <;> simp [Except.toOption]

theorem decode_ok {p : Packages N} (hl : p.Leafwise) {v w : Value N} :
    p.decodeValuesWithIterator v = .ok w ↔ v.mapStrings p.decodeLeaf = some w := by
  rw [← hl.decode]
  rcases p.decodeValuesWithIterator v with e | w' <;> simp [Except.toOption]

variable [JsNumber N]

theorem setProcessCodeTrailer_ok {v : Value N} (m : Metadata) :
    (∃ m', setProcessCodeTrailer p v m = .ok m') ↔
      (v.truthy → ∃ text, v.toText = some text ∧ isLegal text) := by
  unfold setProcessCodeTrailer
  split_ifs with hv
  · simp only [hv, true_imp_iff]
    constructor
    · rintro ⟨m', h⟩
      obtain ⟨text, ht, h⟩ := bind_eq_ok.1 h
      exact ⟨text, toStringOf_ok.1 ht, (setChecked_ok.1 h).1⟩
    · rintro ⟨text, ht, hl⟩
      exact ⟨_, bind_eq_ok.2 ⟨text, toStringOf_ok.2 ht, setChecked_ok.2 ⟨hl, rfl⟩⟩⟩
  · exact iff_of_true ⟨m, rfl⟩ fun h => absurd h hv

theorem rpcErrorCode_ok {code : ℤ} {v : Value N} :
    (∃ c, rpcErrorCode code v = .ok c) ↔
      (Js.Map.find code httpCodeToGrpcCode = none → ¬ v.isNullish →
        ∃ text, v.toText = some text) := by
  unfold rpcErrorCode
  rcases Js.Map.find code httpCodeToGrpcCode with _ | c
  · by_cases hv : v.isNullish
    · simp [hv]
    · simp only [hv, if_false, true_imp_iff, not_false_eq_true, Bool.false_eq_true]
      unfold toStringOf
      rcases v.toText with _ | s <;> simp [throwNative, Except.map]
  · simp

/-- The tree `serializeApiError` writes. -/
def errorTree (e : ApiError N) (message : JsString) (data : Json N) : Json N :=
  .obj [(js "name", .str e.name), (js "message", .str message),
    (js "code", .num (JsNumber.ofInt e.code)), (js "type", .str e.type), (js "data", data)]

theorem stringify_ok {v : Value N} {text : JsString} (hv : ¬ v.toJson = some none) :
    stringify v = .ok text ↔ ∃ j, v.toJson = some (some j) ∧ text = j.print := by
  unfold stringify Value.stringify
  rcases hj : v.toJson with _ | _ | j
  · simp [throwNative]
  · exact absurd hj hv
  · simp [eq_comm]

/-- The entries of the object written for an error. -/
theorem toJson_error (e : ApiError N) (message : JsString) (w : Value N) :
    (Value.obj [(js "name", .str e.name), (js "message", .str message),
      (js "code", .num (JsNumber.ofInt e.code)), (js "type", .str e.type), (js "data", w)]).toJson
      = w.toJson.map fun y => some (match y with
        | some data => errorTree e message data
        | none => .obj [(js "name", .str e.name), (js "message", .str message),
            (js "code", .num (JsNumber.ofInt e.code)), (js "type", .str e.type)]) := by
  simp only [Value.toJson, Value.toEntries, Option.bind_some, Option.map_some]
  rcases w.toJson with _ | _ | data <;> rfl

/-- The text of an error, whose data is not `undefined`. -/
theorem serializeApiError_ok (hl : p.Leafwise) {e : ApiError N} (hd : ¬ isUndefined e.data)
    {text : JsString} :
    serializeApiError p e = .ok text ↔ ∃ message data, p.encodeLeaf e.message = some message ∧
      encodedTree p.encodeLeaf e.data = some (some data) ∧
        text = (errorTree e message data).print := by
  have hundef : ¬ encodedTree p.encodeLeaf e.data = some none := fun h => hd (encodedTree_none h)
  constructor
  · intro h
    obtain ⟨v, hv, h⟩ := bind_eq_ok.1 h
    obtain ⟨w, hw, h⟩ := bind_eq_ok.1 h
    obtain ⟨message, hm, rfl⟩ := Option.map_eq_some_iff.1 ((encode_ok hl).1 hv)
    have hw := (encode_ok hl).1 hw
    have htree : encodedTree p.encodeLeaf e.data = w.toJson := by
      rw [encodedTree, hw, Option.bind_some]
    rw [htree] at hundef ⊢
    rw [stringify_ok (by rw [toJson_error]; rcases w.toJson with _ | _ | _ <;> simp_all)] at h
    obtain ⟨j, hj, rfl⟩ := h
    rw [toJson_error] at hj
    rcases hwj : w.toJson with _ | _ | data
    · simp [hwj] at hj
    · exact absurd hwj hundef
    · rw [hwj, Option.map_some, Option.some.injEq, Option.some.injEq] at hj
      exact ⟨message, data, hm, rfl, congrArg Json.print hj.symm⟩
  · rintro ⟨message, data, hm, hd', rfl⟩
    obtain ⟨w, hw, hwj⟩ := Option.bind_eq_some_iff.1 hd'
    refine bind_eq_ok.2 ⟨.str message, (encode_ok hl).2 (by rw [Value.mapStrings, hm]; rfl), ?_⟩
    refine bind_eq_ok.2 ⟨w, (encode_ok hl).2 hw, ?_⟩
    have hj : (Value.obj [(js "name", .str e.name), (js "message", .str message),
        (js "code", .num (JsNumber.ofInt e.code)), (js "type", .str e.type),
        (js "data", w)]).toJson = some (some (errorTree e message data)) := by
      rw [toJson_error, hwj]
      rfl
    exact (stringify_ok (by rw [hj]; simp)).2 ⟨_, hj, rfl⟩

theorem isLegal_errorTree (e : ApiError N) (message : JsString) (data : Json N) :
    isLegal (errorTree e message data).print ↔
      Plain e.name ∧ Plain message ∧ Plain e.type ∧ PlainTree data := by
  have hkeys : Plain (js "name") ∧ Plain (js "message") ∧ Plain (js "code") ∧ Plain (js "type") ∧
      Plain (js "data") :=
    ⟨plain_of_units (by decide), plain_of_units (by decide), plain_of_units (by decide),
      plain_of_units (by decide), plain_of_units (by decide)⟩
  rw [isLegal_print]
  simp only [errorTree, PlainTree, PlainEntries, hkeys, true_and, and_true]

/-- The error response of an error can be made exactly where the error is sendable. -/
theorem mapApiErrorToRpcError_ok (hl : p.Leafwise) (e : ApiError N) (m : Metadata) :
    (∃ r, mapApiErrorToRpcError p e m = .ok r) ↔ Sendable p e := by
  constructor
  · rintro ⟨r, h⟩
    obtain ⟨processCode, h1, h⟩ := bind_eq_ok.1 h
    obtain ⟨hd, rfl⟩ := getProp_ok.1 h1
    obtain ⟨m₁, h2, h⟩ := bind_eq_ok.1 h
    obtain ⟨text, h3, h⟩ := bind_eq_ok.1 h
    obtain ⟨m₂, h4, h⟩ := bind_eq_ok.1 h
    obtain ⟨c, h5, h⟩ := bind_eq_ok.1 h
    obtain ⟨message, data, hm, ht, rfl⟩ := (serializeApiError_ok hl (not_undefined hd)).1 h3
    obtain ⟨hn, hmp, hty, hp⟩ := (isLegal_errorTree e message data).1 (setChecked_ok.1 h4).1
    refine ⟨hd, (setProcessCodeTrailer_ok m).1 ⟨m₁, h2⟩, hn,
      (writtenLeaf_iff hl _).2 ⟨_, hm, hmp⟩, hty, ?_, rpcErrorCode_ok.1 ⟨c, h5⟩⟩
    refine (encodedTree_plain (writtenLeaf_iff hl) e.data).1 ⟨some data, ht, ?_⟩
    rintro j ⟨⟩
    exact hp
  · rintro ⟨hd, hpc, hn, hm, hty, hw, hc⟩
    obtain ⟨m₁, h2⟩ := (setProcessCodeTrailer_ok (p := p) m).2 hpc
    obtain ⟨message, hm, hmp⟩ := (writtenLeaf_iff hl _).1 hm
    obtain ⟨y, ht, hp⟩ := (encodedTree_plain (writtenLeaf_iff hl) e.data).2 hw
    obtain ⟨c, h5⟩ := rpcErrorCode_ok.2 hc
    rcases y with _ | data
    · exact absurd (encodedTree_none ht) (not_undefined hd)
    have h3 := (serializeApiError_ok hl (not_undefined hd)).2 ⟨message, data, hm, ht, rfl⟩
    have hlegal := (isLegal_errorTree e message data).2 ⟨hn, hmp, hty, hp data rfl⟩
    exact ⟨_, bind_eq_ok.2 ⟨_, getProp_ok.2 ⟨hd, rfl⟩, bind_eq_ok.2 ⟨m₁, h2,
      bind_eq_ok.2 ⟨_, h3, bind_eq_ok.2 ⟨_, setChecked_ok.2 ⟨hlegal, rfl⟩,
        bind_eq_ok.2 ⟨c, h5, rfl⟩⟩⟩⟩⟩⟩

end Errors

end DiiaApp
