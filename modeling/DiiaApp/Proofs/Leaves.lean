import DiiaApp.Js.Value

/-!
# Trees as values, and their string leaves

A tree is the value `JSON.parse` gives for its text, and the value is written as that tree again.
Changing the string leaves of the one is changing those of the other, keeps the names, and is undone
leaf by leaf.
-/

namespace Js

variable {N : Type}

namespace Value

mutual

theorem toJson_ofJson : ∀ j : Json N, (ofJson j).toJson = some (some j)
  | .null => rfl
  | .bool _ => rfl
  | .num _ => rfl
  | .str _ => rfl
  | .arr xs => by rw [ofJson, toJson, toItems_ofItems xs]; rfl
  | .obj es => by rw [ofJson, toJson, toEntries_ofEntries es]; rfl

theorem toItems_ofItems : ∀ xs : List (Json N), toItems (ofItems xs) = some xs
  | [] => rfl
  | x :: xs => by rw [ofItems, toItems, toJson_ofJson x, toItems_ofItems xs]; rfl

theorem toEntries_ofEntries : ∀ es : List (JsString × Json N), toEntries (ofEntries es) = some es
  | [] => rfl
  | (k, x) :: es => by rw [ofEntries, toEntries, toJson_ofJson x, toEntries_ofEntries es]; rfl

end

theorem ofJson_inj {j j' : Json N} (h : ofJson j = ofJson j') : j = j' := by
  have hj := congrArg toJson h
  rw [toJson_ofJson, toJson_ofJson] at hj
  exact Option.some.inj (Option.some.inj hj)

variable (f : JsString → Option JsString)

mutual

theorem mapStrings_ofJson : ∀ j : Json N, (ofJson j).mapStrings f = (j.mapStrings f).map ofJson
  | .null => rfl
  | .bool _ => rfl
  | .num _ => rfl
  | .str s => by
    rw [ofJson, mapStrings, Json.mapStrings]
    rcases f s with _ | t <;> rfl
  | .arr xs => by
    rw [ofJson, mapStrings, Json.mapStrings, mapItems_ofItems xs]
    rcases Json.mapItems f xs with _ | ys <;> rfl
  | .obj es => by
    rw [ofJson, mapStrings, Json.mapStrings, mapEntries_ofEntries es]
    rcases Json.mapEntries f es with _ | fs <;> rfl

theorem mapItems_ofItems :
    ∀ xs : List (Json N), mapItems f (ofItems xs) = (Json.mapItems f xs).map ofItems
  | [] => rfl
  | x :: xs => by
    rw [ofItems, mapItems, Json.mapItems, mapStrings_ofJson x, mapItems_ofItems xs]
    rcases x.mapStrings f with _ | y
    · rfl
    · rcases Json.mapItems f xs with _ | ys <;> rfl

theorem mapEntries_ofEntries : ∀ es : List (JsString × Json N),
    mapEntries f (ofEntries es) = (Json.mapEntries f es).map ofEntries
  | [] => rfl
  | (k, x) :: es => by
    rw [ofEntries, mapEntries, Json.mapEntries, mapStrings_ofJson x, mapEntries_ofEntries es]
    rcases x.mapStrings f with _ | y
    · rfl
    · rcases Json.mapEntries f es with _ | fs <;> rfl

end

theorem find_ofEntries (k : JsString) :
    ∀ es : List (JsString × Json N), Map.find k (ofEntries es) = (Map.find k es).map ofJson
  | [] => rfl
  | (k', x) :: es => by
    simp only [ofEntries, Map.find]
    split_ifs
    · rfl
    · exact find_ofEntries k es

theorem put_ofEntries (k : JsString) (j : Json N) :
    ∀ es : List (JsString × Json N),
      Map.put k (ofJson j) (ofEntries es) = ofEntries (Map.put k j es)
  | [] => rfl
  | (k', x) :: es => by
    simp only [ofEntries, Map.put]
    split_ifs
    · rfl
    · rw [put_ofEntries k j es, ofEntries]

end Value

namespace Json

section

variable {f g : JsString → Option JsString}

mutual

/-- What undoes `f` on strings undoes it on string leaves. -/
theorem mapStrings_undo (h : ∀ {s t}, f s = some t → g t = some s) :
    ∀ {j j' : Json N}, j.mapStrings f = some j' → j'.mapStrings g = some j
  | .null, _, hj => by obtain rfl := Option.some.inj hj; rfl
  | .bool _, _, hj => by obtain rfl := Option.some.inj hj; rfl
  | .num _, _, hj => by obtain rfl := Option.some.inj hj; rfl
  | .str s, _, hj => by
    obtain ⟨t, ht, rfl⟩ := Option.map_eq_some_iff.1 hj
    rw [mapStrings, h ht]
    rfl
  | .arr xs, _, hj => by
    obtain ⟨ys, hys, rfl⟩ := Option.map_eq_some_iff.1 hj
    rw [mapStrings, mapItems_undo h hys]
    rfl
  | .obj es, _, hj => by
    obtain ⟨fs, hfs, rfl⟩ := Option.map_eq_some_iff.1 hj
    rw [mapStrings, mapEntries_undo h hfs]
    rfl

theorem mapItems_undo (h : ∀ {s t}, f s = some t → g t = some s) :
    ∀ {xs ys : List (Json N)}, mapItems f xs = some ys → mapItems g ys = some xs
  | [], _, hj => by obtain rfl := Option.some.inj hj; rfl
  | x :: xs, _, hj => by
    obtain ⟨y, hy, hj⟩ := Option.bind_eq_some_iff.1 hj
    obtain ⟨ys, hys, rfl⟩ := Option.map_eq_some_iff.1 hj
    rw [mapItems, mapStrings_undo h hy, mapItems_undo h hys]
    rfl

theorem mapEntries_undo (h : ∀ {s t}, f s = some t → g t = some s) :
    ∀ {es fs : List (JsString × Json N)}, mapEntries f es = some fs → mapEntries g fs = some es
  | [], _, hj => by obtain rfl := Option.some.inj hj; rfl
  | (k, x) :: es, _, hj => by
    obtain ⟨y, hy, hj⟩ := Option.bind_eq_some_iff.1 hj
    obtain ⟨ys, hys, rfl⟩ := Option.map_eq_some_iff.1 hj
    rw [mapEntries, mapStrings_undo h hy, mapEntries_undo h hys]
    rfl

end

theorem mapEntries_names : ∀ {es fs : List (JsString × Json N)}, mapEntries f es = some fs →
    fs.map Prod.fst = es.map Prod.fst
  | [], _, hj => by obtain rfl := Option.some.inj hj; rfl
  | (k, x) :: es, _, hj => by
    obtain ⟨y, hy, hj⟩ := Option.bind_eq_some_iff.1 hj
    obtain ⟨ys, hys, rfl⟩ := Option.map_eq_some_iff.1 hj
    rw [List.map_cons, List.map_cons, mapEntries_names hys]

mutual

/-- The names of a tree stay, so none comes to be given twice. -/
theorem mapStrings_wellFormed : ∀ {j j' : Json N}, j.mapStrings f = some j' → j.WellFormed →
    j'.WellFormed
  | .null, _, hj, _ => by obtain rfl := Option.some.inj hj; trivial
  | .bool _, _, hj, _ => by obtain rfl := Option.some.inj hj; trivial
  | .num _, _, hj, _ => by obtain rfl := Option.some.inj hj; trivial
  | .str s, _, hj, _ => by
    obtain ⟨t, -, rfl⟩ := Option.map_eq_some_iff.1 hj
    trivial
  | .arr xs, _, hj, h => by
    obtain ⟨ys, hys, rfl⟩ := Option.map_eq_some_iff.1 hj
    exact mapItems_wellFormed hys h
  | .obj es, _, hj, h => by
    obtain ⟨fs, hfs, rfl⟩ := Option.map_eq_some_iff.1 hj
    exact ⟨mapEntries_names hfs ▸ h.1, mapEntries_wellFormed hfs h.2⟩

theorem mapItems_wellFormed : ∀ {xs ys : List (Json N)}, mapItems f xs = some ys →
    ItemsWellFormed xs → ItemsWellFormed ys
  | [], _, hj, _ => by obtain rfl := Option.some.inj hj; trivial
  | x :: xs, _, hj, h => by
    obtain ⟨y, hy, hj⟩ := Option.bind_eq_some_iff.1 hj
    obtain ⟨ys, hys, rfl⟩ := Option.map_eq_some_iff.1 hj
    exact ⟨mapStrings_wellFormed hy h.1, mapItems_wellFormed hys h.2⟩

theorem mapEntries_wellFormed : ∀ {es fs : List (JsString × Json N)}, mapEntries f es = some fs →
    EntriesWellFormed es → EntriesWellFormed fs
  | [], _, hj, _ => by obtain rfl := Option.some.inj hj; trivial
  | (k, x) :: es, _, hj, h => by
    obtain ⟨y, hy, hj⟩ := Option.bind_eq_some_iff.1 hj
    obtain ⟨ys, hys, rfl⟩ := Option.map_eq_some_iff.1 hj
    exact ⟨mapStrings_wellFormed hy h.1, mapEntries_wellFormed hys h.2⟩

end

end

theorem entriesWellFormed_put {k : JsString} {v : Json N} (hv : v.WellFormed) :
    ∀ {es : List (JsString × Json N)}, EntriesWellFormed es → EntriesWellFormed (Map.put k v es)
  | [], _ => ⟨hv, trivial⟩
  | (k', x) :: es, h => by
    rw [Map.put]
    split_ifs
    · exact ⟨hv, h.2⟩
    · exact ⟨h.1, entriesWellFormed_put hv h.2⟩

theorem wellFormed_put {k : JsString} {v : Json N} (hv : v.WellFormed)
    {es : List (JsString × Json N)} (h : (Json.obj es).WellFormed) :
    (Json.obj (Map.put k v es)).WellFormed :=
  ⟨Map.nodup_put k v h.1, entriesWellFormed_put hv h.2⟩

end Json

end Js
