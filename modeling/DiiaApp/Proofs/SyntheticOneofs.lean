import DiiaApp.OneofMessages

/-!
# What stripping takes out

Stripping tells the marks of proto3-optional fields from data by their shape: a key that is an
underscore and the text under it, where that text is in the object. Data of that shape goes with the
marks. What is left is the object without its marks just where there is none (`strip_toProps`).
-/

namespace DiiaApp

open Js

variable {N : Type}

namespace Marked

/-- The keys of an object with its marks. -/
def keysOf (ps : List (JsString × Bool × Marked N)) : List JsString :=
  ps.flatMap fun p => p.1 :: if p.2.1 then [95 :: p.1] else []

/-- No key occurs twice, those of marks included, and no list is in a list. -/
inductive Proper : Marked N → Prop
  | leaf (s : Scalar N) : Proper (leaf s)
  | arr {xs : List (Marked N)} (flat : ∀ x ∈ xs, ∀ ys, x ≠ arr ys) (inner : ∀ x ∈ xs, Proper x) :
      Proper (arr xs)
  | obj {ps : List (JsString × Bool × Marked N)} (nodup : (keysOf ps).Nodup)
      (inner : ∀ p ∈ ps, Proper p.2.2) : Proper (obj ps)

/-- A property is like a mark: its key is an underscore and the text it holds, which all objects
inherit or is one of the other keys. -/
def LikeMark (others : List JsString) (key : JsString) (m : Marked N) : Prop :=
  ∃ s, m = leaf (.text s) ∧ key = 95 :: s ∧ (s ∈ objectPrototype ∨ s ∈ others)

mutual

/-- No property at any depth is like a mark, the other keys being those without marks before it and
all after it. -/
def Clear : Marked N → Prop
  | leaf _ => True
  | arr xs => ClearItems xs
  | obj ps => ClearProps [] ps

def ClearItems : List (Marked N) → Prop
  | [] => True
  | m :: ms => Clear m ∧ ClearItems ms

def ClearProps (before : List JsString) : List (JsString × Bool × Marked N) → Prop
  | [] => True
  | (key, _, m) :: ps =>
    ¬ LikeMark (before ++ keysOf ps) key m ∧ Clear m ∧ ClearProps (before ++ [key]) ps

end

theorem inObject_iff {s : JsString} {es : List (JsString × Value N)} :
    inObject s es = true ↔ s ∈ objectPrototype ∨ s ∈ es.map Prod.fst := by
  have hfind : (Js.Map.find s es).isSome = true ↔ s ∈ es.map Prod.fst := by
    rw [Option.isSome_iff_ne_none, Ne, Js.Map.find_eq_none, not_not]
  rw [inObject, Bool.or_eq_true, hfind, List.contains_iff_mem, or_comm]

theorem toValue_eq_str {marks : Bool} {m : Marked N} {s : JsString} :
    m.toValue marks = .str s ↔ m = leaf (.text s) := by
  cases m with
  | leaf a => cases a <;> simp [toValue, Scalar.toValue]
  | arr xs => simp [toValue]
  | obj ps => simp [toValue]

theorem isSynthetic_iff {key : JsString} {v : Value N} {es : List (JsString × Value N)} :
    isSynthetic key v es = true ↔
      ∃ s, v = .str s ∧ key = 95 :: s ∧ (s ∈ objectPrototype ∨ s ∈ es.map Prod.fst) := by
  cases v with
  | str s => simp [isSynthetic, inObject_iff]
  | _ => simp [isSynthetic]

theorem keysOf_cons (key : JsString) (marked : Bool) (m : Marked N)
    (ps : List (JsString × Bool × Marked N)) : keysOf ((key, marked, m) :: ps) =
      key :: ((if marked then [95 :: key] else []) ++ keysOf ps) := rfl

theorem map_fst_markOf (marked : Bool) (key : JsString) :
    (markOf (N := N) marked key).map Prod.fst = if marked then [95 :: key] else [] := by
  cases marked <;> rfl

theorem map_fst_toProps (ps : List (JsString × Bool × Marked N)) :
    (toProps true ps).map Prod.fst = keysOf ps := by
  induction ps with
  | nil => rfl
  | cons p ps ih =>
    obtain ⟨key, marked, m⟩ := p
    rw [toProps, List.map_cons, List.map_append, ih, Bool.true_and, map_fst_markOf, keysOf_cons]

/-- A property is taken for a mark just where it is like one. -/
theorem isSynthetic_toValue (done : List (JsString × Value N)) (key : JsString) (marked : Bool)
    (m : Marked N) (ps : List (JsString × Bool × Marked N)) :
    isSynthetic key (m.toValue true)
      (done ++ (key, m.toValue true) :: (markOf marked key ++ toProps true ps)) = true ↔
        LikeMark (done.map Prod.fst ++ keysOf ps) key m := by
  rw [isSynthetic_iff]
  refine exists_congr fun s => ?_
  rw [toValue_eq_str]
  refine and_congr_right fun _ => and_congr_right fun hkey => or_congr_right ?_
  have hself : s ≠ key := fun h => by
    have := congrArg List.length (hkey.symm.trans h.symm)
    simp at this
  have hmark : s ≠ 95 :: key := fun h => by
    have := congrArg List.length (h.trans (congrArg _ hkey))
    rw [List.length_cons, List.length_cons] at this
    omega
  rw [List.map_append, List.map_cons, List.map_append, map_fst_markOf, map_fst_toProps,
    List.mem_append, List.mem_cons, List.mem_append, List.mem_append]
  cases marked <;> simp [hself, hmark]

/-- A mark is taken for one, since its property stands before it. -/
theorem stripEntries_markOf {done : List (JsString × Value N)} {key : JsString}
    (h : key ∈ done.map Prod.fst) (marked : Bool) (es : List (JsString × Value N)) :
    stripEntries done (markOf marked key ++ es) = stripEntries done es := by
  cases marked with
  | false => rfl
  | true =>
    have hs : isSynthetic (95 :: key) (.str key) (done ++ (95 :: key, .str key) :: es) = true := by
      rw [isSynthetic_iff]
      refine ⟨key, rfl, rfl, .inr ?_⟩
      rw [List.map_append]
      exact List.mem_append_left _ h
    rw [markOf, if_pos rfl, List.singleton_append, stripEntries, if_pos hs]

/-- What has been looked at stays, and of the rest some keys. -/
theorem stripEntries_eq_ok {done es r : List (JsString × Value N)}
    (h : stripEntries done es = .ok r) :
    ∃ rest, r = done ++ rest ∧ (rest.map Prod.fst).Sublist (es.map Prod.fst) := by
  induction es generalizing done with
  | nil =>
    rw [stripEntries, Except.ok.injEq] at h
    exact ⟨[], by rw [List.append_nil, h], List.Sublist.refl _⟩
  | cons e es ih =>
    obtain ⟨key, value⟩ := e
    rw [stripEntries] at h
    split_ifs at h
    · obtain ⟨rest, hr, hsub⟩ := ih h
      exact ⟨rest, hr, hsub.cons _⟩
    · rcases hv : stripValue value with err | value'
      · rw [hv] at h
        cases h
      · rw [hv] at h
        obtain ⟨rest, hr, hsub⟩ := ih h
        exact ⟨(key, value') :: rest, by rw [hr, List.append_assoc, List.singleton_append],
          hsub.cons_cons _⟩

theorem stripEntries_nums {es : List (JsString × Value N)} (h : ∀ e ∈ es, ∃ n, e.2 = .num n)
    (done : List (JsString × Value N)) : stripEntries done es = .ok (done ++ es) := by
  induction es generalizing done with
  | nil => simp [stripEntries]
  | cons e es ih =>
    obtain ⟨key, v⟩ := e
    obtain ⟨n, rfl⟩ : ∃ n, v = .num n := h _ List.mem_cons_self
    have hv : stripValue (.num n : Value N) = .ok (.num n) := by simp [stripValue]
    have hs : isSynthetic key (.num n) (done ++ (key, .num n) :: es) = false := rfl
    rw [stripEntries, hs, if_neg Bool.false_ne_true, hv]
    refine (ih (fun e he => h e (List.mem_cons_of_mem _ he)) _).trans ?_
    rw [List.append_assoc, List.singleton_append]

theorem stripValue_scalar (s : Scalar N) : stripValue s.toValue = .ok s.toValue := by
  cases s with
  | bytes octets =>
    have h : ∀ e ∈ octets.mapIdx fun i octet => (decimal i, Value.num octet),
        ∃ n, e.2 = .num n := by
      intro e he
      obtain ⟨i, hi, rfl⟩ := List.mem_mapIdx.1 he
      exact ⟨octets[i], rfl⟩
    rw [Scalar.toValue, stripValue, stripEntries_nums h]
    rfl
  | _ => simp [Scalar.toValue, stripValue]

theorem isArray_toValue {marks : Bool} {m : Marked N} (h : ∀ ys, m ≠ arr ys) :
    isArray (m.toValue marks) = false := by
  cases m with
  | leaf s => cases s <;> rfl
  | arr xs => exact absurd rfl (h xs)
  | obj ps => rfl

/-- A property that goes is not in what is left. -/
theorem stripEntries_ne_of_gone {done es r : List (JsString × Value N)} {key : JsString}
    {v : Value N} (h : key ∉ es.map Prod.fst) :
    stripEntries done es ≠ .ok (done ++ (key, v) :: r) := by
  intro hr
  obtain ⟨rest, he, hsub⟩ := stripEntries_eq_ok hr
  rw [List.append_cancel_left_eq] at he
  rw [← he] at hsub
  exact h (hsub.subset List.mem_cons_self)

/-- Of two properties that are looked at only the second stays the same if both do. -/
theorem bind_strip_eq_ok {done es r : List (JsString × Value N)} {key : JsString} {v w : Value N} :
    ((stripValue v).bind fun v' => stripEntries (done ++ [(key, v')]) es) =
        .ok (done ++ (key, w) :: r) ↔
      stripValue v = .ok w ∧ stripEntries (done ++ [(key, w)]) es =
        .ok (done ++ [(key, w)] ++ r) := by
  rcases hv : stripValue v with err | v'
  · exact ⟨nofun, nofun⟩
  · rw [Except.ok.injEq]
    constructor
    · intro h
      obtain ⟨rest, he, -⟩ := stripEntries_eq_ok h
      rw [List.append_assoc, List.append_cancel_left_eq, List.singleton_append, List.cons.injEq,
        Prod.mk.injEq] at he
      obtain ⟨⟨-, rfl⟩, -⟩ := he
      refine ⟨rfl, ?_⟩
      rw [List.append_assoc, List.singleton_append]
      exact h
    · rintro ⟨rfl, h⟩
      rw [List.append_assoc, List.singleton_append] at h
      exact h

mutual

/-- Stripping leaves what there is without the marks just where no property is like one. -/
theorem strip_toValue : ∀ {m : Marked N}, m.Proper →
    (stripValue (m.toValue true) = .ok (m.toValue false) ↔ m.Clear)
  | leaf s, _ => by
    rw [toValue, toValue, Clear]
    exact iff_of_true (stripValue_scalar s) trivial
  | arr xs, h => by
    cases h with
    | arr flat inner =>
      rw [toValue, toValue, Clear, stripValue, ← strip_toItems flat inner]
      cases stripItems (toItems true xs) with
      | error err => exact ⟨nofun, nofun⟩
      | ok ys => simp [Except.map]
  | obj ps, h => by
    cases h with
    | obj nodup inner =>
      have hps : stripEntries [] (toProps true ps) = .ok ([] ++ toProps false ps) ↔
          ClearProps [] ps := strip_toProps nodup inner
      rw [List.nil_append] at hps
      rw [toValue, toValue, Clear, stripValue, ← hps]
      cases stripEntries [] (toProps true ps) with
      | error err => exact ⟨nofun, nofun⟩
      | ok es => simp [Except.map]

theorem strip_toItems : ∀ {xs : List (Marked N)}, (∀ x ∈ xs, ∀ ys, x ≠ arr ys) →
    (∀ x ∈ xs, x.Proper) → (stripItems (toItems true xs) = .ok (toItems false xs) ↔ ClearItems xs)
  | [], _, _ => by simp [toItems, stripItems, ClearItems]
  | x :: xs, flat, inner => by
    have hx := strip_toValue (inner x List.mem_cons_self)
    have hxs := strip_toItems (fun y hy => flat y (List.mem_cons_of_mem _ hy)) fun y hy =>
      inner y (List.mem_cons_of_mem _ hy)
    have ha : isArray (x.toValue true) = false := isArray_toValue (flat x List.mem_cons_self)
    rw [toItems, toItems, ClearItems, stripItems, ha, if_neg Bool.false_ne_true, ← hx, ← hxs]
    rcases stripValue (x.toValue true) with err | y
    · exact ⟨nofun, nofun⟩
    · rcases stripItems (toItems true xs) with err | ys
      · exact ⟨nofun, nofun⟩
      · simp [Except.bind, Except.map]

theorem strip_toProps : ∀ {ps : List (JsString × Bool × Marked N)}
    {done : List (JsString × Value N)}, (done.map Prod.fst ++ keysOf ps).Nodup →
      (∀ p ∈ ps, p.2.2.Proper) → (stripEntries done (toProps true ps) =
        .ok (done ++ toProps false ps) ↔ ClearProps (done.map Prod.fst) ps)
  | [], done, _, _ => by simp [toProps, stripEntries, ClearProps]
  | (key, marked, m) :: ps, done, nodup, inner => by
    have hm := strip_toValue (inner _ List.mem_cons_self)
    have hdone : (done ++ [(key, m.toValue false)]).map Prod.fst = done.map Prod.fst ++ [key] :=
      List.map_append
    have hnodup : (done.map Prod.fst ++ [key] ++ keysOf ps).Nodup := by
      rw [keysOf_cons] at nodup
      rw [List.append_assoc, List.singleton_append]
      refine nodup.sublist (.append (.refl _) (.cons_cons _ ?_))
      exact List.sublist_append_right _ _
    have hps := strip_toProps (hdone ▸ hnodup) fun p hp => inner p (List.mem_cons_of_mem _ hp)
    have hlike := isSynthetic_toValue done key marked m ps
    rw [toProps, toProps, ClearProps, stripEntries, Bool.true_and, Bool.false_and]
    by_cases h : LikeMark (done.map Prod.fst ++ keysOf ps) key m
    · rw [if_pos (hlike.2 h)]
      refine iff_of_false (stripEntries_ne_of_gone ?_) fun hc => hc.1 h
      rw [List.map_append, map_fst_markOf, map_fst_toProps]
      exact (List.nodup_cons.1 (nodup.sublist (List.sublist_append_right _ _))).1
    · rw [if_neg (mt hlike.1 h), bind_strip_eq_ok, and_iff_right h, hm,
        stripEntries_markOf (by rw [hdone]; simp), ← hdone]
      exact and_congr_right fun _ => hps

end

end Marked

section Messages

open Marked

variable {schemas : JsString → Option MessageSchema}

theorem keysOf_markedFields (fields : List (FieldSchema × Content N)) :
    keysOf (markedFields fields) =
      fields.flatMap fun e => e.1.name :: e.1.oneofName.toList := by
  induction fields with
  | nil => rfl
  | cons e fields ih =>
    obtain ⟨⟨name, type⟩, c⟩ := e
    rw [List.flatMap_cons, ← ih]
    rcases type with ⟨_ | _ | oneof, _⟩ | _ | _ <;> rfl

theorem keysOf_markedEntries (entries : List (JsString × Content N)) :
    keysOf (markedEntries entries) = entries.map Prod.fst := by
  induction entries with
  | nil => rfl
  | cons e entries ih =>
    rw [List.map_cons, ← ih]
    rfl

/-- The keys of a message are different. -/
theorem nodup_keysOf_markedFields {schema : MessageSchema} {fields : List (FieldSchema × Content N)}
    (declared : ∀ e ∈ fields, e.1 ∈ schema.fields) (once : (fields.map Prod.fst).Nodup)
    (oneofs : (fields.filterMap fun e => e.1.oneofName).Nodup) :
    (keysOf (markedFields fields)).Nodup := by
  rw [keysOf_markedFields, List.nodup_flatMap]
  constructor
  · intro e he
    have hne := schema.oneofs _ (declared e he) _ (declared e he)
    cases ho : e.1.oneofName with
    | none => simp
    | some o => simpa [ho, eq_comm] using hne
  · have honce : fields.Pairwise fun e e' => e.1 ≠ e'.1 := List.pairwise_map.1 once
    have honeofs := List.pairwise_filterMap.1 oneofs
    refine (honce.and honeofs).imp_of_mem fun {e e'} he he' h => ?_
    have hname : e.1.name ≠ e'.1.name := fun hn =>
      h.1 (List.inj_on_of_nodup_map schema.nodup (declared e he) (declared e' he') hn)
    have hne := schema.oneofs _ (declared e he) _ (declared e' he')
    have hne' := schema.oneofs _ (declared e' he') _ (declared e he)
    have hoo := h.2
    refine List.disjoint_left.2 fun x hx hx' => ?_
    rw [List.mem_cons, Option.mem_toList] at hx hx'
    rcases hx with rfl | hx
    · exact hx'.elim hname hne
    · rcases hx' with rfl | hx'
      · exact hne' hx
      · exact hoo x hx x hx' rfl

theorem mem_markedFields {p : JsString × Bool × Marked N} :
    ∀ {fields : List (FieldSchema × Content N)}, p ∈ markedFields fields →
      (∃ e ∈ fields, p.2.2 = e.2.marked) ∨ ∃ s, p.2.2 = leaf (.text s)
  | [], h => by simp [markedFields] at h
  | (field, c) :: fields, h => by
    rw [markedFields, List.mem_cons, List.mem_append] at h
    rcases h with rfl | h | h
    · exact .inl ⟨_, List.mem_cons_self, rfl⟩
    · refine .inr ⟨field.name, ?_⟩
      unfold ofOneof at h
      cases ho : field.realOneof with
      | none => simp [ho] at h
      | some name =>
        rw [ho, List.mem_singleton] at h
        rw [h]
    · exact (mem_markedFields h).imp_left fun ⟨e, he, hp⟩ => ⟨e, List.mem_cons_of_mem _ he, hp⟩

theorem mem_markedEntries {p : JsString × Bool × Marked N} :
    ∀ {entries : List (JsString × Content N)}, p ∈ markedEntries entries →
      ∃ e ∈ entries, p.2.2 = e.2.marked
  | [], h => by simp [markedEntries] at h
  | (key, c) :: entries, h => by
    rw [markedEntries, List.mem_cons] at h
    rcases h with rfl | h
    · exact ⟨_, List.mem_cons_self, rfl⟩
    · obtain ⟨e, he, hp⟩ := mem_markedEntries h
      exact ⟨e, List.mem_cons_of_mem _ he, hp⟩

theorem markedItems_eq_map (items : List (Content N)) :
    markedItems items = items.map Content.marked := by
  induction items with
  | nil => rfl
  | cons c items ih => rw [markedItems, ih, List.map_cons]

/-- An element of a list is no list. -/
theorem Content.Fits.ne_arr {presence : Presence} {type : ElementType} {c : Content N}
    (h : c.Fits schemas (.single presence type)) (ys : List (Marked N)) : c.marked ≠ .arr ys := by
  cases h <;> simp [Content.marked]

/-- What fits its type has no key twice and no list in a list. -/
theorem Content.Fits.proper {type : FieldType} {c : Content N} (h : c.Fits schemas type) :
    c.marked.Proper := by
  induction h with
  | scalar h => exact .leaf _
  | unset => exact .leaf _
  | message found declared once oneofs inner ih =>
    refine .obj (nodup_keysOf_markedFields declared once oneofs) fun p hp => ?_
    rcases mem_markedFields hp with ⟨e, he, hm⟩ | ⟨s, hs⟩
    · exact hm ▸ ih e he
    · exact hs ▸ .leaf _
  | repeated inner ih =>
    rw [Content.marked, markedItems_eq_map]
    refine .arr (List.forall_mem_map.2 fun c hc => (inner c hc).ne_arr) ?_
    exact List.forall_mem_map.2 ih
  | map nodup inner ih =>
    refine .obj (by rwa [keysOf_markedEntries]) fun p hp => ?_
    obtain ⟨e, he, hm⟩ := mem_markedEntries hp
    exact hm ▸ ih e he

/-- Of a decoded message stripping leaves all but the keys of its proto3-optional oneofs just where
nothing else in it is like one: no map entry, no field and no name of a declared oneof. -/
theorem stripped_iff {typeName : JsString} {fields : List (FieldSchema × Content N)}
    (h : (Content.message fields).Fits schemas (.single .plain (.message typeName))) :
    stripSyntheticOneofFields (Content.message fields).decoded =
        .ok (Content.message fields).withoutSynthetic ↔ (Content.message fields).marked.Clear := by
  rw [← strip_toValue h.proper]
  rfl

/-- `message Echo { optional string nickname = 1; map<string, string> labels = 2; }` -/
def nicknameField : FieldSchema := ⟨js "nickname", .single .optional (.scalar .text)⟩

def labelsField : FieldSchema := ⟨js "labels", .map (.scalar .text)⟩

def echoSchema : MessageSchema where
  fields := [nicknameField, labelsField]
  nodup := by decide
  oneofs := by decide

/-- An `Echo` with the nickname `n` and two labels. -/
def nicknamed (key text : JsString) : List (FieldSchema × Content ℤ) :=
  [(nicknameField, .scalar (.text (js "n"))),
    (labelsField, .map [(js "a", .scalar (.text (js "x"))), (key, .scalar (.text text))])]

theorem fits_nicknamed {key : JsString} (h : key ≠ js "a") (text : JsString) :
    (Content.message (nicknamed key text)).Fits (fun _ => some echoSchema)
      (.single .plain (.message (js "Echo"))) := by
  refine .message rfl ?_ ?_ ?_ ?_
  · simp [nicknamed, echoSchema]
  · simp [nicknamed, nicknameField, labelsField, js]
  · simp [nicknamed, FieldSchema.oneofName, FieldSchema.isOptional, FieldSchema.realOneof,
      nicknameField, labelsField]
  · intro e he
    rcases List.mem_cons.1 he with rfl | he
    · exact .scalar (.text _)
    · obtain rfl := List.mem_singleton.1 he
      refine .map ?_ fun e he => ?_
      · simpa using h.symm
      · rcases List.mem_cons.1 he with rfl | he
        · exact .scalar (.text _)
        · obtain rfl := List.mem_singleton.1 he
          exact .scalar (.text _)

theorem stripped_plain :
    stripSyntheticOneofFields (Content.message (nicknamed (js "b") (js "y"))).decoded =
      .ok (Content.message (nicknamed (js "b") (js "y"))).withoutSynthetic := by
  refine (stripped_iff (fits_nicknamed (by decide) _)).2 ?_
  simp [nicknamed, Content.marked, markedFields, markedEntries, ofOneof, Clear, ClearProps,
    LikeMark, nicknameField, labelsField, FieldSchema.realOneof, js]

/-- The label `_a` holds `a`, which is a label too, and goes as if it were the key of a oneof. -/
theorem not_stripped : ¬ ∀ (schemas : JsString → Option MessageSchema) (typeName : JsString)
    (fields : List (FieldSchema × Content ℤ)),
    (Content.message fields).Fits schemas (.single .plain (.message typeName)) →
      stripSyntheticOneofFields (Content.message fields).decoded =
        .ok (Content.message fields).withoutSynthetic := by
  intro h
  have hkey : js "_a" ≠ js "a" := by decide
  have hs := h _ _ _ (fits_nicknamed hkey (js "a"))
  have hgone : stripSyntheticOneofFields (Content.message (nicknamed (js "_a") (js "a"))).decoded =
      .ok (.obj [(js "nickname", .str (js "n")), (js "labels", .obj [(js "a", .str (js "x"))])]) :=
    rfl
  rw [hgone] at hs
  cases hs

end Messages

end DiiaApp
