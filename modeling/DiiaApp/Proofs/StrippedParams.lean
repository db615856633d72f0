import DiiaApp.Proofs.SyntheticOneofs

/-!
# Params with their marks stripped

A mark in an object is a key that is an underscore and the text under it, that text being a key of
the object as well. What stripping leaves has no marks and is as stripping leaves it. Stripping takes
out marks only just where no object has an underscored inherited name that is not a mark
(`stripValue_iff`).
-/

namespace DiiaApp

open Js

variable {N : Type}

mutual

/-- A tree of objects, arrays and scalars with no array directly in an array. -/
def ParamsTree : Value N → Prop
  | .obj es => (es.map Prod.fst).Nodup ∧ TreeEntries es
  | .arr xs => TreeItems xs
  | .cycle => False
  | _ => True

def TreeItems : List (Value N) → Prop
  | [] => True
  | x :: xs => isArray x = false ∧ ParamsTree x ∧ TreeItems xs

def TreeEntries : List (JsString × Value N) → Prop
  | [] => True
  | (_, v) :: es => ParamsTree v ∧ TreeEntries es

end

/-- `key` holds the text it is the underscored form of, and that is one of the keys. -/
def IsMark (keys : List JsString) (key : JsString) : Value N → Prop
  | .str s => key = 95 :: s ∧ s ∈ keys
  | _ => False

/-- The same of a text that is not one of the keys but is inherited by every object. -/
def IsInheritedMark (keys : List JsString) (key : JsString) : Value N → Prop
  | .str s => key = 95 :: s ∧ s ∈ objectPrototype ∧ s ∉ keys
  | _ => False

mutual

def NoMarks : Value N → Prop
  | .obj es => NoMarksEntries (es.map Prod.fst) es
  | .arr xs => NoMarksItems xs
  | _ => True

def NoMarksItems : List (Value N) → Prop
  | [] => True
  | x :: xs => NoMarks x ∧ NoMarksItems xs

def NoMarksEntries (keys : List JsString) : List (JsString × Value N) → Prop
  | [] => True
  | (key, v) :: es => ¬ IsMark keys key v ∧ NoMarks v ∧ NoMarksEntries keys es

end

mutual

def NoInheritedMarks : Value N → Prop
  | .obj es => NoInheritedEntries (es.map Prod.fst) es
  | .arr xs => NoInheritedItems xs
  | _ => True

def NoInheritedItems : List (Value N) → Prop
  | [] => True
  | x :: xs => NoInheritedMarks x ∧ NoInheritedItems xs

def NoInheritedEntries (keys : List JsString) : List (JsString × Value N) → Prop
  | [] => True
  | (key, v) :: es =>
    ¬ IsInheritedMark keys key v ∧ NoInheritedMarks v ∧ NoInheritedEntries keys es

end

mutual

/-- The second value is the first with some marks taken out of its objects, all else being in
order. -/
def MarksStripped : Value N → Value N → Prop
  | .obj es, .obj es' => EntriesStripped (es.map Prod.fst) es es'
  | .arr xs, .arr ys => ItemsStripped xs ys
  | v, w => v = w

def ItemsStripped : List (Value N) → List (Value N) → Prop
  | [], ys => ys = []
  | x :: xs, ys => ∃ y ys', ys = y :: ys' ∧ MarksStripped x y ∧ ItemsStripped xs ys'

def EntriesStripped (keys : List JsString) :
    List (JsString × Value N) → List (JsString × Value N) → Prop
  | [], es' => es' = []
  | (key, v) :: es, es' => IsMark keys key v ∧ EntriesStripped keys es es' ∨
    ∃ w es'', es' = (key, w) :: es'' ∧ MarksStripped v w ∧ EntriesStripped keys es es''

end

theorem keys_of_entriesStripped {keys : List JsString} {k : JsString} :
    ∀ {es es' : List (JsString × Value N)}, EntriesStripped keys es es' →
      k ∈ es'.map Prod.fst → k ∈ es.map Prod.fst
  | [], es', h, hk => by
    rw [EntriesStripped] at h
    simp [h] at hk
  | (key, v) :: es, es', h, hk => by
    rw [EntriesStripped] at h
    rw [List.map_cons, List.mem_cons]
    rcases h with ⟨-, h⟩ | ⟨w, es'', rfl, -, h⟩
    · exact .inr (keys_of_entriesStripped h hk)
    · rw [List.map_cons, List.mem_cons] at hk
      exact hk.imp id (keys_of_entriesStripped h)

structure ValueStripped (v w : Value N) : Prop where
  run : stripValue v = .ok w
  again : stripValue w = .ok w
  noMarks : NoMarks w
  text : ∀ s, w = .str s → v = .str s
  array : isArray w = isArray v
  marksOnly : MarksStripped v w ↔ NoInheritedMarks v

structure RestStripped (done es out : List (JsString × Value N)) : Prop where
  run : stripEntries done es = .ok (done ++ out)
  keys : ∀ k ∈ out.map Prod.fst, k ∈ es.map Prod.fst
  stays : ∀ e ∈ out, ¬ isSynthetic e.1 e.2 (done ++ out) ∧ stripValue e.2 = .ok e.2 ∧ NoMarks e.2
  marksOnly : ∀ keys, (∀ k ∈ (done ++ es).map Prod.fst, k ∈ keys) →
    (EntriesStripped keys es out ↔ NoInheritedEntries keys es)

structure AllStripped (xs ys : List (Value N)) : Prop where
  run : stripItems xs = .ok ys
  again : stripItems ys = .ok ys
  noMarks : NoMarksItems ys
  marksOnly : ItemsStripped xs ys ↔ NoInheritedItems xs

theorem ValueStripped.scalar {v : Value N} (hrun : stripValue v = .ok v) (hn : NoMarks v)
    (hm : MarksStripped v v) (hi : NoInheritedMarks v) : ValueStripped v v :=
  ⟨hrun, hrun, hn, fun _ h => h, rfl, iff_of_true hm hi⟩

/-- Properties that stay one by one stay together. -/
theorem stripEntries_of_stays : ∀ {es done : List (JsString × Value N)},
    (∀ e ∈ es, ¬ isSynthetic e.1 e.2 (done ++ es) ∧ stripValue e.2 = .ok e.2) →
      stripEntries done es = .ok (done ++ es)
  | [], done, _ => by rw [stripEntries, List.append_nil]
  | (key, v) :: es, done, h => by
    rw [List.forall_mem_cons] at h
    have hrest : stripEntries (done ++ [(key, v)]) es = .ok (done ++ [(key, v)] ++ es) :=
      stripEntries_of_stays (by simpa using h.2)
    rw [stripEntries, if_neg h.1.1, h.1.2]
    simpa [Except.bind] using hrest

theorem noMarksEntries_of_stays {keys : List JsString} : ∀ {es : List (JsString × Value N)},
    (∀ e ∈ es, ¬ IsMark keys e.1 e.2 ∧ NoMarks e.2) → NoMarksEntries keys es
  | [], _ => trivial
  | (key, v) :: es, h => by
    rw [List.forall_mem_cons] at h
    exact ⟨h.1.1, h.1.2, noMarksEntries_of_stays h.2⟩

theorem isSynthetic_of_isMark {key : JsString} {v : Value N} {es : List (JsString × Value N)}
    (h : IsMark (es.map Prod.fst) key v) : isSynthetic key v es = true := by
  cases v with
  | str s => exact Marked.isSynthetic_iff.2 ⟨s, rfl, h.1, .inr h.2⟩
  | _ => exact h.elim

theorem RestStripped.object {es out : List (JsString × Value N)} (h : RestStripped [] es out) :
    ValueStripped (.obj es) (.obj out) where
  run := by
    rw [stripValue, h.run]
    rfl
  again := by
    rw [stripValue, stripEntries_of_stays fun e he => ⟨(h.stays e he).1, (h.stays e he).2.1⟩]
    rfl
  noMarks := noMarksEntries_of_stays fun e he =>
    ⟨fun hm => (h.stays e he).1 (isSynthetic_of_isMark hm), (h.stays e he).2.2⟩
  text := fun s hs => by simp at hs
  array := rfl
  marksOnly := h.marksOnly _ fun k hk => hk

/-- A property that goes is a mark or an inherited one, and what stands after it is stripped without
it. -/
theorem RestStripped.drop {done es out : List (JsString × Value N)} {key : JsString} {v : Value N}
    (hs : isSynthetic key v (done ++ (key, v) :: es) = true) (hkey : key ∉ es.map Prod.fst)
    (h : RestStripped done es out) : RestStripped done ((key, v) :: es) out where
  run := by rw [stripEntries, if_pos hs, h.run]
  keys := fun k hk => List.mem_cons_of_mem _ (h.keys k hk)
  stays := h.stays
  marksOnly := by
    intro keys hkeys
    have hrest := h.marksOnly keys fun k hk => hkeys k (by
      rw [List.map_append, List.mem_append] at hk ⊢
      exact hk.imp id (List.mem_cons_of_mem _))
    obtain ⟨s, rfl, rfl, hin⟩ := Marked.isSynthetic_iff.1 hs
    have hmark : IsMark keys (95 :: s) (.str s : Value N) ↔
        ¬ IsInheritedMark keys (95 :: s) (.str s : Value N) := by
      have hown : s ∈ objectPrototype ∨ s ∈ keys := hin.imp id (hkeys s)
      simp only [IsMark, IsInheritedMark, true_and]
      tauto
    rw [EntriesStripped, NoInheritedEntries, hmark, hrest]
    constructor
    · rintro (⟨hn, h'⟩ | ⟨w, out', rfl, -, h'⟩)
      · exact ⟨hn, trivial, h'⟩
      · exact absurd (h.keys _ (by simp)) hkey
    · rintro ⟨hn, -, h'⟩
      exact .inl ⟨hn, h'⟩

/-- A property that stays is neither, and what stands after it is stripped with it. -/
theorem RestStripped.keep {done es out : List (JsString × Value N)} {key : JsString} {v w : Value N}
    (hs : ¬ isSynthetic key v (done ++ (key, v) :: es) = true) (hkey : key ∉ es.map Prod.fst)
    (hv : ValueStripped v w) (h : RestStripped (done ++ [(key, w)]) es out) :
    RestStripped done ((key, v) :: es) ((key, w) :: out) where
  run := by
    rw [stripEntries, if_neg hs, hv.run]
    simpa [Except.bind] using h.run
  keys := by
    intro k hk
    rw [List.map_cons, List.mem_cons] at hk ⊢
    exact hk.imp id (h.keys k)
  stays := by
    have happend : done ++ (key, w) :: out = done ++ [(key, w)] ++ out := by simp
    rw [happend, List.forall_mem_cons]
    refine ⟨⟨fun hw => hs ?_, hv.again, hv.noMarks⟩, h.stays⟩
    obtain ⟨s, hws, hk, hin⟩ := Marked.isSynthetic_iff.1 hw
    refine Marked.isSynthetic_iff.2 ⟨s, hv.text s hws, hk, hin.imp id fun hm => ?_⟩
    simp only [List.map_append, List.map_cons, List.map_nil, List.mem_append, List.mem_cons,
      List.not_mem_nil, or_false] at hm ⊢
    rcases hm with (hm | hm) | hm
    · exact .inl hm
    · exact .inr (.inl hm)
    · exact .inr (.inr (h.keys s hm))
  marksOnly := by
    intro keys hkeys
    have hrest := h.marksOnly keys fun k hk => hkeys k (by
      simpa [List.map_append, or_assoc] using hk)
    have hnone : ¬ IsInheritedMark keys key v := by
      intro hi
      cases v with
      | str s => exact hs (Marked.isSynthetic_iff.2 ⟨s, rfl, hi.1, .inl hi.2.1⟩)
      | _ => exact hi
    rw [EntriesStripped, NoInheritedEntries, ← hrest, ← hv.marksOnly]
    constructor
    · rintro (⟨-, h'⟩ | ⟨w', out', heq, hw, h'⟩)
      · exact absurd (keys_of_entriesStripped h' (by simp)) hkey
      · obtain ⟨⟨-, rfl⟩, rfl⟩ := by simpa using heq
        exact ⟨hnone, hw, h'⟩
    · rintro ⟨-, hw, h'⟩
      exact .inr ⟨w, out, rfl, hw, h'⟩

mutual

theorem stripValue_stripped : ∀ v : Value N, ParamsTree v → ∃ w, ValueStripped v w
  | .obj es, h => by
    obtain ⟨out, hout⟩ := stripEntries_stripped es [] h.1 h.2
    exact ⟨.obj out, hout.object⟩
  | .arr xs, h => by
    obtain ⟨ys, hys⟩ := stripItems_stripped xs h
    refine ⟨.arr ys, ?_, ?_, hys.noMarks, by simp, rfl, hys.marksOnly⟩
    · rw [stripValue, hys.run]
      rfl
    · rw [stripValue, hys.again]
      rfl
  | .undefined, _ => ⟨.undefined, .scalar rfl trivial rfl trivial⟩
  | .null, _ => ⟨.null, .scalar rfl trivial rfl trivial⟩
  | .bool b, _ => ⟨.bool b, .scalar rfl trivial rfl trivial⟩
  | .num n, _ => ⟨.num n, .scalar rfl trivial rfl trivial⟩
  | .bigint n, _ => ⟨.bigint n, .scalar rfl trivial rfl trivial⟩
  | .str s, _ => ⟨.str s, .scalar rfl trivial rfl trivial⟩

theorem stripItems_stripped : ∀ xs : List (Value N), TreeItems xs → ∃ ys, AllStripped xs ys
  | [], _ => ⟨[], rfl, rfl, trivial, by simp [ItemsStripped, NoInheritedItems]⟩
  | x :: xs, h => by
    obtain ⟨hx, htree, hrest⟩ := h
    obtain ⟨y, hy⟩ := stripValue_stripped x htree
    obtain ⟨ys, hys⟩ := stripItems_stripped xs hrest
    refine ⟨y :: ys, ?_, ?_, ⟨hy.noMarks, hys.noMarks⟩, ?_⟩
    · rw [stripItems, hx, if_neg Bool.false_ne_true, hy.run, hys.run]
      rfl
    · rw [stripItems, hy.array, hx, if_neg Bool.false_ne_true, hy.again, hys.again]
      rfl
    · rw [ItemsStripped, NoInheritedItems, ← hy.marksOnly, ← hys.marksOnly]
      constructor
      · rintro ⟨_, _, heq, h⟩
        obtain ⟨rfl, rfl⟩ := by simpa using heq
        exact h
      · exact fun h => ⟨y, ys, rfl, h⟩

theorem stripEntries_stripped : ∀ (es done : List (JsString × Value N)),
    (es.map Prod.fst).Nodup → TreeEntries es → ∃ out, RestStripped done es out
  | [], done, _, _ => ⟨[], by
      constructor <;> simp [stripEntries, EntriesStripped, NoInheritedEntries]⟩
  | (key, v) :: es, done, hn, h => by
    rw [List.map_cons, List.nodup_cons] at hn
    by_cases hs : isSynthetic key v (done ++ (key, v) :: es) = true
    · obtain ⟨out, hout⟩ := stripEntries_stripped es done hn.2 h.2
      exact ⟨out, hout.drop hs hn.1⟩
    · obtain ⟨w, hw⟩ := stripValue_stripped v h.1
      obtain ⟨out, hout⟩ := stripEntries_stripped es (done ++ [(key, w)]) hn.2 h.2
      exact ⟨(key, w) :: out, hout.keep hs hn.1 hw⟩

end

/-- Stripping takes out marks only, all of them and in one run, just where no object has an
underscored inherited name that is not a mark. -/
theorem stripSyntheticOneofFields_iff {es : List (JsString × Value N)} (h : ParamsTree (.obj es)) :
    (∃ w, stripSyntheticOneofFields (.obj es) = .ok w ∧ NoMarks w ∧ MarksStripped (.obj es) w ∧
      stripSyntheticOneofFields w = .ok w) ↔ NoInheritedMarks (.obj es) := by
  obtain ⟨out, hout⟩ := stripEntries_stripped es [] h.1 h.2
  have hobj := hout.object
  constructor
  · rintro ⟨w, hw, -, hm, -⟩
    obtain rfl : Value.obj out = w := Except.ok.inj (hobj.run.symm.trans hw)
    exact hobj.marksOnly.1 hm
  · exact fun hi => ⟨.obj out, hobj.run, hobj.noMarks, hobj.marksOnly.2 hi, hobj.again⟩

/-- An order with a mark, and with labels that have keys of their own. -/
def labelledOrder (label : JsString) : Value ℤ :=
  .obj [(js "labels", .obj [(95 :: label, .str label)]), (js "_note", .str (js "note")),
    (js "note", .str (js "x"))]

theorem labelledOrder_paramsTree {label : JsString} : ParamsTree (labelledOrder label) :=
  ⟨(by decide : [js "labels", js "_note", js "note"].Nodup),
    ⟨List.nodup_singleton _, trivial, trivial⟩, trivial, trivial, trivial⟩

theorem stripSyntheticOneofFields_iff_size :
    ∃ w, stripSyntheticOneofFields (labelledOrder (js "size")) = .ok w ∧ NoMarks w ∧
      MarksStripped (labelledOrder (js "size")) w ∧ stripSyntheticOneofFields w = .ok w :=
  (stripSyntheticOneofFields_iff labelledOrder_paramsTree).2
    ⟨id, ⟨fun h => absurd h.2.1 (by decide), trivial, trivial⟩, fun h => absurd h.2.2 (by decide),
      trivial, fun h => absurd h.1 (by decide), trivial, trivial⟩

/-- A label `_constructor` with the text `constructor` is lost. -/
theorem not_marksStripped_constructor :
    ParamsTree (labelledOrder (js "constructor")) ∧
      ¬ ∃ w, stripSyntheticOneofFields (labelledOrder (js "constructor")) = .ok w ∧ NoMarks w ∧
        MarksStripped (labelledOrder (js "constructor")) w ∧
        stripSyntheticOneofFields w = .ok w := by
  refine ⟨labelledOrder_paramsTree, ?_⟩
  rintro ⟨w, hw, -, hm, -⟩
  have hrun : stripSyntheticOneofFields (labelledOrder (js "constructor"))
      = .ok (.obj [(js "labels", .obj []), (js "note", .str (js "x"))]) := rfl
  obtain rfl := Except.ok.inj (hrun.symm.trans hw)
  rcases hm with ⟨h, -⟩ | ⟨labels, rest, heq, h, -⟩
  · exact h
  · obtain ⟨rfl, -⟩ := by simpa using heq
    rcases h with ⟨h, -⟩ | ⟨_, _, h, -⟩
    · exact absurd h.2 (by decide)
    · simp at h

end DiiaApp
