import Mathlib.Data.List.Nodup

/-!
# Trees of named objects

An object has a name, what it is, and the objects nested in it. What it is decides the names under
which objects can be nested in it (`Opens`). A path from an object leads to one of three: an object
there (`taken`), a place that is still to be filled (`free`), or, past a name that cannot be opened,
nowhere (`blocked`).

Where each of a series of steps leaves alone what is not free, a place is taken by the first step
that fills it (`foldl_taken`). So what the steps have for a place decides what comes there
(`Fills.slot_foldl`), and the tree comes out the same in any order just where they have the same
(`Fills.perm_iff`).

A search goes into an object of the name it looks for, and where there is none comes to the last of
the nested objects in which it meets one (`search`).
-/

/-- An object with its name, what it is and the objects nested in it. -/
inductive NameTree (κ δ : Type)
  | mk (name : κ) (data : δ) (nested : List (NameTree κ δ))

namespace NameTree

variable {κ δ : Type}

def name : NameTree κ δ → κ
  | mk name _ _ => name

def data : NameTree κ δ → δ
  | mk _ data _ => data

def nested : NameTree κ δ → List (NameTree κ δ)
  | mk _ _ nested => nested

@[simp] theorem name_mk (x : κ) (d : δ) (l : List (NameTree κ δ)) : (mk x d l).name = x := rfl

@[simp] theorem data_mk (x : κ) (d : δ) (l : List (NameTree κ δ)) : (mk x d l).data = d := rfl

@[simp] theorem nested_mk (x : κ) (d : δ) (l : List (NameTree κ δ)) : (mk x d l).nested = l := rfl

/-- The names that can be given to objects nested in one. -/
class Opens (κ δ : Type) where
  opens : δ → κ → Bool

export Opens (opens)

/-- No two objects nested in one have the same name, and each has a name that it can have. -/
inductive Proper [Opens κ δ] : NameTree κ δ → Prop
  | mk {x : κ} {d : δ} {l : List (NameTree κ δ)} (nodup : (l.map name).Nodup)
    (opened : ∀ c ∈ l, opens d c.name) (inner : ∀ c ∈ l, Proper c) : Proper (mk x d l)

namespace Proper

variable [Opens κ δ] {t : NameTree κ δ}

theorem nodup (h : t.Proper) : (t.nested.map name).Nodup := by
  cases h with
  | mk nodup _ _ => exact nodup

theorem opened (h : t.Proper) {c : NameTree κ δ} (hc : c ∈ t.nested) : opens t.data c.name := by
  cases h with
  | mk _ opened _ => exact opened c hc

theorem inner (h : t.Proper) {c : NameTree κ δ} (hc : c ∈ t.nested) : c.Proper := by
  cases h with
  | mk _ _ inner => exact inner c hc

end Proper

mutual

/-- The paths to the objects of a tree. -/
def paths : NameTree κ δ → List (List κ)
  | mk _ _ nested => [] :: nestedPaths nested

def nestedPaths : List (NameTree κ δ) → List (List κ)
  | [] => []
  | c :: cs => (paths c).map (c.name :: ·) ++ nestedPaths cs

end

theorem mem_nestedPaths {c : NameTree κ δ} {p : List κ} {l : List (NameTree κ δ)} (hc : c ∈ l)
    (hp : p ∈ c.paths) : c.name :: p ∈ nestedPaths l := by
  induction l with
  | nil => cases hc
  | cons d l ih =>
    rw [nestedPaths, List.mem_append]
    rcases List.mem_cons.1 hc with rfl | hc
    · exact .inl (List.mem_map_of_mem hp)
    · exact .inr (ih hc)

/-- What a path leads to. -/
inductive Slot (δ : Type)
  | free
  | taken (d : δ)
  | blocked
  deriving DecidableEq

variable [DecidableEq κ]

/-- The object nested in `t` under a name. -/
def child (t : NameTree κ δ) (x : κ) : Option (NameTree κ δ) := t.nested.find? fun c => c.name = x

/-- `c` in the place of the object of its name, or last where there is none. -/
def put (c : NameTree κ δ) : List (NameTree κ δ) → List (NameTree κ δ)
  | [] => [c]
  | d :: l => if d.name = c.name then c :: l else d :: put c l

def setChild (t c : NameTree κ δ) : NameTree κ δ := mk t.name t.data (put c t.nested)

@[simp] theorem name_setChild (t c : NameTree κ δ) : (t.setChild c).name = t.name := rfl

@[simp] theorem data_setChild (t c : NameTree κ δ) : (t.setChild c).data = t.data := rfl

theorem find?_put (c : NameTree κ δ) (x : κ) : ∀ l : List (NameTree κ δ),
    (put c l).find? (·.name = x) = if x = c.name then some c else l.find? (·.name = x)
  | [] => by
    rcases eq_or_ne x c.name with rfl | h
    · simp [put]
    · simp [put, h, h.symm]
  | d :: l => by
    have ih := find?_put c x l
    rw [put]
    by_cases hd : d.name = c.name
    · rw [if_pos hd, List.find?_cons, List.find?_cons]
      by_cases hx : x = c.name
      · simp [hx]
      · simp [hx, Ne.symm hx, hd]
    · rw [if_neg hd, List.find?_cons, List.find?_cons, ih]
      by_cases hx : x = c.name
      · simp [hx, hd]
      · simp [hx]

theorem mem_put {c e : NameTree κ δ} :
    ∀ {l : List (NameTree κ δ)}, e ∈ put c l → e = c ∨ e ∈ l
  | [], h => by simpa [put] using h
  | d :: l, h => by
    rw [put] at h
    split_ifs at h with hd
    · rcases List.mem_cons.1 h with rfl | h
      · exact .inl rfl
      · exact .inr (List.mem_cons_of_mem _ h)
    · rcases List.mem_cons.1 h with rfl | h
      · exact .inr List.mem_cons_self
      · exact (mem_put h).imp_right (List.mem_cons_of_mem _)

theorem nodup_put (c : NameTree κ δ) : ∀ {l : List (NameTree κ δ)},
    (l.map name).Nodup → ((put c l).map name).Nodup
  | [], _ => by simp [put]
  | d :: l, h => by
    rw [List.map_cons, List.nodup_cons] at h
    rw [put]
    split_ifs with hd
    · rw [List.map_cons, List.nodup_cons, ← hd]
      exact h
    · rw [List.map_cons, List.nodup_cons]
      refine ⟨fun hm => ?_, nodup_put c h.2⟩
      obtain ⟨e, he, hn⟩ := List.mem_map.1 hm
      rcases mem_put he with rfl | he
      · exact hd hn.symm
      · exact h.1 (hn ▸ List.mem_map_of_mem he)

theorem child_setChild (t c : NameTree κ δ) (x : κ) :
    (t.setChild c).child x = if x = c.name then some c else t.child x := find?_put c x t.nested

theorem name_of_child {t c : NameTree κ δ} {x : κ} (h : t.child x = some c) : c.name = x := by
  simpa using List.find?_some h

theorem mem_of_child {t c : NameTree κ δ} {x : κ} (h : t.child x = some c) : c ∈ t.nested :=
  List.mem_of_find?_eq_some h

variable [Opens κ δ]

/-- What a path from `t` leads to. -/
def slot (t : NameTree κ δ) : List κ → Slot δ
  | [] => .taken t.data
  | x :: p =>
    if opens t.data x then
      match t.child x with
      | some c => c.slot p
      | none => .free
    else .blocked

@[simp] theorem slot_nil (t : NameTree κ δ) : t.slot [] = .taken t.data := rfl

theorem slot_cons_of_child {t c : NameTree κ δ} {x : κ} (hx : opens t.data x)
    (h : t.child x = some c) (p : List κ) : t.slot (x :: p) = c.slot p := by
  simp [slot, hx, h]

theorem slot_cons_of_none {t : NameTree κ δ} {x : κ} (hx : opens t.data x)
    (h : t.child x = none) (p : List κ) : t.slot (x :: p) = .free := by
  simp [slot, hx, h]

theorem slot_cons_of_not_opens {t : NameTree κ δ} {x : κ} (hx : ¬ opens t.data x) (p : List κ) :
    t.slot (x :: p) = .blocked := by
  simp [slot, hx]

/-- Setting a child changes what the paths through it lead to, and no others. -/
theorem slot_setChild (t c : NameTree κ δ) (x : κ) (p : List κ) :
    (t.setChild c).slot (x :: p) =
      if x = c.name ∧ opens t.data x then c.slot p else t.slot (x :: p) := by
  by_cases hx : opens t.data x
  · simp only [slot, data_setChild, hx, child_setChild]
    split_ifs with h <;> simp_all
  · simp [slot, hx]

theorem Proper.setChild {t c : NameTree κ δ} (ht : t.Proper) (hc : c.Proper)
    (ho : opens t.data c.name) : (t.setChild c).Proper := by
  refine .mk (nodup_put c ht.nodup) (fun e he => ?_) fun e he => ?_
  · rcases mem_put he with rfl | he
    · exact ho
    · exact ht.opened he
  · rcases mem_put he with rfl | he
    · exact hc
    · exact ht.inner he

theorem Proper.child {t c : NameTree κ δ} {x : κ} (ht : t.Proper) (h : t.child x = some c) :
    c.Proper := ht.inner (mem_of_child h)

/-- In a proper tree the objects nested in one are those found by their names. -/
theorem Proper.child_name {t c : NameTree κ δ} (ht : t.Proper) (hc : c ∈ t.nested) :
    t.child c.name = some c := by
  obtain ⟨e, he⟩ : ∃ e, t.child c.name = some e := by
    rcases h : t.child c.name with _ | e
    · have hn := List.find?_eq_none.1 h c hc
      simp at hn
    · exact ⟨e, rfl⟩
  rw [he, List.inj_on_of_nodup_map ht.nodup (mem_of_child he) hc (name_of_child he)]

/-- A path of a proper tree is taken past the first name where it is in the object of that name. -/
theorem Proper.slot_cons_eq_taken {t : NameTree κ δ} (ht : t.Proper) {x : κ} {p : List κ} {d : δ} :
    t.slot (x :: p) = .taken d ↔ ∃ c ∈ t.nested, c.name = x ∧ c.slot p = .taken d := by
  constructor
  · intro h
    rw [slot] at h
    split_ifs at h with hx
    rcases hc : t.child x with _ | c
    · simp [hc] at h
    · exact ⟨c, mem_of_child hc, name_of_child hc, by simpa [hc] using h⟩
  · rintro ⟨c, hc, rfl, h⟩
    rwa [slot_cons_of_child (ht.opened hc) (ht.child_name hc)]

/-- Where a path is taken, what its first name leads to is a nested object. -/
theorem exists_child_of_taken {t : NameTree κ δ} {x : κ} {p : List κ} {d : δ}
    (h : t.slot (x :: p) = .taken d) : ∃ c, opens t.data x = true ∧ t.child x = some c ∧
      ∀ q, t.slot (x :: q) = c.slot q := by
  rw [slot] at h
  split_ifs at h with hx
  rcases hc : t.child x with _ | c
  · simp [hc] at h
  · exact ⟨c, hx, rfl, slot_cons_of_child hx hc⟩

/-- Every object of `t` is one of `u`, at the same path. -/
def PartOf (t u : NameTree κ δ) : Prop := ∀ p d, t.slot p = .taken d → u.slot p = .taken d

theorem PartOf.refl (t : NameTree κ δ) : t.PartOf t := fun _ _ h => h

/-- A tree is part of one that is the same at its root and has all that is nested in it. -/
theorem PartOf.of_nested {t u : NameTree κ δ} (hd : t.data = u.data)
    (h : ∀ c ∈ t.nested, ∃ e, u.child c.name = some e ∧ c.PartOf e) : t.PartOf u
  | [], d, hs => by rwa [slot_nil, ← hd]
  | x :: p, d, hs => by
    obtain ⟨c, hx, hc, hslot⟩ := exists_child_of_taken hs
    obtain ⟨e, he, hpart⟩ := h c (mem_of_child hc)
    rw [name_of_child hc] at he
    rw [slot_cons_of_child (hd ▸ hx) he]
    exact hpart p d (hslot p ▸ hs)

/-- The object that a path leads to. -/
def objectAt (t : NameTree κ δ) : List κ → Option (NameTree κ δ)
  | [] => some t
  | x :: p => if opens t.data x then (t.child x).bind fun c => c.objectAt p else none

theorem slot_eq_taken {d : δ} : ∀ {p : List κ} {t : NameTree κ δ},
    t.slot p = .taken d ↔ ∃ c, t.objectAt p = some c ∧ c.data = d
  | [], t => by simp [objectAt]
  | x :: p, t => by
    rw [slot, objectAt]
    split_ifs with hx
    · cases t.child x with
      | none => simp
      | some c => exact slot_eq_taken
    · simp

section Search

variable (own : δ → κ → Option δ)

mutual

/-- What a search for a path meets: it goes into the object of the first name, or, where none has
it, into each of the nested objects. Past a name that an object does not open there is at most what
the object has of its own. -/
def search : NameTree κ δ → List κ → Option (NameTree κ δ)
  | mk x d l, [] => some (mk x d l)
  | mk _ d l, x :: p =>
    if opens d x then
      if (l.map name).contains x then searchUnder x p l else searchLast (x :: p) l
    else if p = [] then (own d x).map fun e => mk x e [] else none

def searchUnder (x : κ) (p : List κ) : List (NameTree κ δ) → Option (NameTree κ δ)
  | [] => none
  | c :: l => if c.name = x then search c p else searchUnder x p l

/-- What it meets in the last object in which it meets anything. -/
def searchLast (p : List κ) : List (NameTree κ δ) → Option (NameTree κ δ)
  | [] => none
  | c :: l => (searchLast p l).or (search c p)

end

theorem searchUnder_eq (x : κ) (p : List κ) : ∀ l : List (NameTree κ δ),
    searchUnder own x p l = (l.find? (·.name = x)).bind (·.search own p)
  | [] => rfl
  | c :: l => by
    rw [searchUnder, List.find?_cons]
    split_ifs with h
    · simp [h]
    · rw [searchUnder_eq x p l]
      simp [h]

theorem search_cons_of_child {t c : NameTree κ δ} {x : κ} (hx : opens t.data x)
    (h : t.child x = some c) (p : List κ) : t.search own (x :: p) = c.search own p := by
  obtain ⟨y, d, l⟩ := t
  have hl : l.find? (·.name = x) = some c := h
  have hmem : x ∈ l.map name := List.mem_map.2 ⟨c, mem_of_child h, name_of_child h⟩
  rw [data_mk] at hx
  rw [search, if_pos hx, if_pos (by simpa using hmem), searchUnder_eq, hl, Option.bind_some]

/-- A search meets the object that is at the path. -/
theorem search_of_objectAt {c : NameTree κ δ} : ∀ {p : List κ} {t : NameTree κ δ},
    t.objectAt p = some c → t.search own p = some c
  | [], t, h => by
    obtain ⟨x, d, l⟩ := t
    rwa [search]
  | x :: p, t, h => by
    rw [objectAt] at h
    split_ifs at h with hx
    obtain ⟨e, he, h⟩ := Option.bind_eq_some_iff.1 h
    rw [search_cons_of_child own hx he]
    exact search_of_objectAt h

theorem exists_of_searchLast {o : NameTree κ δ} {p : List κ} : ∀ {l : List (NameTree κ δ)},
    searchLast own p l = some o → ∃ c ∈ l, c.search own p = some o
  | [], h => nomatch h
  | c :: l, h => by
    rw [searchLast, Option.or_eq_some_iff] at h
    rcases h with h | ⟨-, h⟩
    · obtain ⟨e, he, hs⟩ := exists_of_searchLast h
      exact ⟨e, List.mem_cons_of_mem c he, hs⟩
    · exact ⟨c, List.mem_cons_self, h⟩

/-- What a search meets in a proper tree is there, or is something that an object has of its own. -/
theorem Proper.taken_of_search {t : NameTree κ δ} (ht : t.Proper) : ∀ {p : List κ}
    {o : NameTree κ δ}, t.search own p = some o →
      (∃ q, t.slot q = .taken o.data) ∨ ∃ d x, own d x = some o.data := by
  induction ht with
  | @mk y d l nodup opened inner ih =>
    have lift : ∀ c ∈ l, ∀ {p o}, c.search own p = some o →
        (∃ q, (NameTree.mk y d l).slot q = .taken o.data) ∨ ∃ d x, own d x = some o.data := by
      intro c hc p o h
      refine (ih c hc h).imp_left fun ⟨q, hq⟩ => ⟨c.name :: q, ?_⟩
      exact (Proper.mk nodup opened inner).slot_cons_eq_taken.2 ⟨c, hc, rfl, hq⟩
    intro p o h
    cases p with
    | nil =>
      rw [search, Option.some.injEq] at h
      subst h
      exact .inl ⟨[], slot_nil _⟩
    | cons x p =>
      rw [search] at h
      split_ifs at h with hx hl hp
      · rw [searchUnder_eq] at h
        obtain ⟨c, hc, h⟩ := Option.bind_eq_some_iff.1 h
        exact lift c (List.mem_of_find?_eq_some hc) h
      · obtain ⟨c, hc, h⟩ := exists_of_searchLast own h
        exact lift c hc h
      · obtain ⟨e, he, rfl⟩ := Option.map_eq_some_iff.1 h
        exact .inr ⟨d, x, he⟩

end Search

/-- A path that is taken goes through objects that open it. -/
theorem opens_of_taken {q : List κ} {x : κ} {r : List κ} {e : δ} : ∀ {t : NameTree κ δ},
    t.slot (q ++ x :: r) = .taken e → ∃ d, t.slot q = .taken d ∧ opens d x = true := by
  induction q with
  | nil =>
    intro t h
    obtain ⟨c, hx, -, -⟩ := exists_child_of_taken h
    exact ⟨t.data, slot_nil t, hx⟩
  | cons y q ih =>
    intro t h
    obtain ⟨c, -, -, hc⟩ := exists_child_of_taken h
    rw [List.cons_append, hc] at h
    obtain ⟨d, hd, hx⟩ := ih h
    exact ⟨d, by rw [hc, hd], hx⟩

/-- A path is blocked at an object that does not open it. -/
theorem slot_eq_blocked {p : List κ} : ∀ {t : NameTree κ δ}, t.slot p = .blocked ↔
    ∃ q x r d, p = q ++ x :: r ∧ t.slot q = .taken d ∧ ¬ opens d x = true := by
  induction p with
  | nil => simp
  | cons y p ih =>
    intro t
    constructor
    · intro h
      by_cases hy : opens t.data y
      · rcases hc : t.child y with _ | c
        · rw [slot_cons_of_none hy hc] at h
          cases h
        · rw [slot_cons_of_child hy hc] at h
          obtain ⟨q, x, r, d, rfl, hd, hx⟩ := ih.1 h
          exact ⟨y :: q, x, r, d, rfl, by rwa [slot_cons_of_child hy hc], hx⟩
      · exact ⟨[], y, p, t.data, rfl, slot_nil t, hy⟩
    · rintro ⟨_ | ⟨z, q⟩, x, r, d, he, hd, hx⟩
      · obtain ⟨rfl, rfl⟩ := List.cons.inj he
        rw [slot_nil, Slot.taken.injEq] at hd
        exact slot_cons_of_not_opens (hd ▸ hx) _
      · obtain ⟨rfl, rfl⟩ := List.cons.inj he
        obtain ⟨c, -, -, hc⟩ := exists_child_of_taken hd
        rw [hc] at hd ⊢
        exact ih.2 ⟨q, x, r, d, rfl, hd, hx⟩

/-- Trees with the same objects at the same paths are the same at every path. -/
theorem slot_ext {t u : NameTree κ δ} (h : ∀ p d, t.slot p = .taken d ↔ u.slot p = .taken d) :
    t.slot = u.slot := by
  have blocked : ∀ p, t.slot p = .blocked ↔ u.slot p = .blocked := fun p => by
    rw [slot_eq_blocked, slot_eq_blocked]
    simp only [h]
  funext p
  have hb := blocked p
  have ht := h p
  rcases hu : u.slot p with _ | d | _
  · rcases hp : t.slot p with _ | d | _
    · rfl
    · rw [ht, hu] at hp
      cases hp
    · rw [hb, hu] at hp
      cases hp
  · exact (ht d).2 hu
  · exact hb.2 hu

/-! ## Trees that agree -/

/-- Where two of the trees have an object at one path, it is the same. -/
def Agree (ts : List (NameTree κ δ)) : Prop :=
  ∀ t ∈ ts, ∀ u ∈ ts, ∀ p d e, p ≠ [] → t.slot p = .taken d → u.slot p = .taken e → d = e

/-- Below its root a tree has the objects of some trees, and no others. -/
def Unites (t : NameTree κ δ) (ts : List (NameTree κ δ)) : Prop :=
  ∀ p d, p ≠ [] → (t.slot p = .taken d ↔ ∃ u ∈ ts, u.slot p = .taken d)

theorem Agree.of_subset {ts us : List (NameTree κ δ)} (h : Agree ts) (hs : us ⊆ ts) : Agree us :=
  fun t ht u hu => h t (hs ht) u (hs hu)

theorem Unites.congr {t : NameTree κ δ} {ts us : List (NameTree κ δ)} (h : t.Unites ts)
    (hs : ∀ v, v ∈ ts ↔ v ∈ us) : t.Unites us := fun p d hp => by
  rw [h p d hp]
  simp only [hs]

/-- Trees that unite the same trees are the same at every path. -/
theorem Unites.slot_eq {t u : NameTree κ δ} {ts us : List (NameTree κ δ)} (ht : t.Unites ts)
    (hu : u.Unites us) (hd : t.data = u.data) (hs : ∀ v, v ∈ ts ↔ v ∈ us) : t.slot = u.slot := by
  refine slot_ext fun p d => ?_
  by_cases hp : p = []
  · rw [hp, slot_nil, slot_nil, hd]
  · rw [ht.congr hs p d hp, hu p d hp]

/-- No path of `u` is blocked in a tree that opens every name at its root and unites trees that
agree with `u`. -/
theorem Unites.not_blocked {t u : NameTree κ δ} {ts : List (NameTree κ δ)} (ht : t.Unites ts)
    (ho : ∀ x : κ, opens t.data x = true) (ha : Agree (u :: ts)) {p : List κ} {d : δ}
    (hu : u.slot p = .taken d) : t.slot p ≠ .blocked := by
  intro hb
  obtain ⟨q, x, r, e, rfl, he, hx⟩ := slot_eq_blocked.1 hb
  obtain ⟨e', he', hx'⟩ := opens_of_taken hu
  by_cases hq : q = []
  · rw [hq, slot_nil, Slot.taken.injEq] at he
    exact hx (he ▸ ho x)
  · obtain ⟨v, hv, hve⟩ := (ht q e hq).1 he
    have := ha v (List.mem_cons_of_mem _ hv) u List.mem_cons_self q e e' hq hve he'
    exact hx (this ▸ hx')

/-- What leaves alone what is not free, and puts at a free path what `u` has there, adds `u` to the
trees that are united. -/
theorem Unites.add {t t' u : NameTree κ δ} {ts : List (NameTree κ δ)} (ht : t.Unites ts)
    (ho : ∀ x : κ, opens t.data x = true) (ha : Agree (u :: ts))
    (keeps : ∀ p, t.slot p ≠ .free → t'.slot p = t.slot p)
    (fill : ∀ p d, t.slot p = .free → (t'.slot p = .taken d ↔ u.slot p = .taken d)) :
    t'.Unites (u :: ts) := by
  intro p d hp
  have hother : t.slot p = .taken d ↔ ∃ v ∈ ts, v.slot p = .taken d := ht p d hp
  simp only [List.mem_cons, exists_eq_or_imp, ← hother]
  rcases hs : t.slot p with _ | e | _
  · rw [fill p d hs]
    simp
  · rw [keeps p (by simp [hs]), hs]
    obtain ⟨v, hv, hve⟩ := (ht p e hp).1 hs
    refine ⟨.inr, fun h => h.elim (fun hu => ?_) id⟩
    rw [ha v (List.mem_cons_of_mem _ hv) u List.mem_cons_self p e d hp hve hu]
  · rw [keeps p (by simp [hs]), hs]
    refine ⟨.inr, fun h => h.elim (fun hu => absurd hs ?_) id⟩
    exact ht.not_blocked ho ha hu

/-! ## Whether a tree is proper -/

mutual

def isProper : NameTree κ δ → Bool
  | mk _ d nested => (nested.map name).Nodup ∧ (nested.all fun c => opens d c.name) ∧
    areProper nested

def areProper : List (NameTree κ δ) → Bool
  | [] => true
  | c :: cs => isProper c && areProper cs

end

mutual

theorem isProper_iff : ∀ t : NameTree κ δ, isProper t = true ↔ t.Proper
  | mk x d nested => by
    rw [isProper, decide_eq_true_iff, areProper_iff, List.all_eq_true]
    exact ⟨fun h => .mk h.1 h.2.1 h.2.2, fun h => ⟨h.nodup, fun _ => h.opened, fun _ => h.inner⟩⟩

theorem areProper_iff : ∀ l : List (NameTree κ δ), areProper l = true ↔ ∀ c ∈ l, Proper c
  | [] => by simp [areProper]
  | c :: cs => by
    rw [areProper, Bool.and_eq_true, isProper_iff, areProper_iff, List.forall_mem_cons]

end

instance (t : NameTree κ δ) : Decidable t.Proper := decidable_of_iff _ (isProper_iff t)

/-! ## Whether trees agree -/

theorem mem_paths {p : List κ} {d : δ} : ∀ {t : NameTree κ δ}, t.slot p = .taken d →
    p ∈ t.paths := by
  induction p with
  | nil =>
    rintro ⟨_, _, nested⟩ -
    rw [paths]
    exact List.mem_cons_self
  | cons x p ih =>
    intro t h
    obtain ⟨c, -, hc, hslot⟩ := exists_child_of_taken h
    have hmem := mem_nestedPaths (mem_of_child hc) (ih (hslot p ▸ h))
    rw [name_of_child hc] at hmem
    obtain ⟨_, _, nested⟩ := t
    rw [paths]
    exact List.mem_cons_of_mem _ hmem

/-- Two that are not both taken, or taken by the same. -/
def Slot.Agrees : Slot δ → Slot δ → Prop
  | .taken d, .taken e => d = e
  | _, _ => True

instance [DecidableEq δ] : ∀ a b : Slot δ, Decidable (a.Agrees b)
  | .taken d, .taken e => inferInstanceAs (Decidable (d = e))
  | .free, _ | .blocked, _ | .taken _, .free | .taken _, .blocked => .isTrue trivial

theorem agree_iff {ts : List (NameTree κ δ)} : Agree ts ↔
    ∀ t ∈ ts, ∀ u ∈ ts, ∀ p ∈ t.paths, p ≠ [] → (t.slot p).Agrees (u.slot p) := by
  constructor
  · intro h t ht u hu p _ hp
    rcases hs : t.slot p with _ | d | _
    · exact trivial
    · rcases hv : u.slot p with _ | e | _
      · exact trivial
      · exact h t ht u hu p d e hp hs hv
      · exact trivial
    · exact trivial
  · intro h t ht u hu p d e hp hs hv
    have := h t ht u hu p (mem_paths hs) hp
    rwa [hs, hv] at this

instance [DecidableEq δ] (ts : List (NameTree κ δ)) : Decidable (Agree ts) :=
  decidable_of_iff _ agree_iff.symm

/-! ## First come -/

section FirstCome

variable {σ ι : Type} {v : σ → Slot δ} {step : σ → ι → σ} {fills : ι → δ → Prop}

/-- What is not free stays over all steps. -/
theorem foldl_keeps (keeps : ∀ s i, v s ≠ .free → v (step s i) = v s) :
    ∀ (is : List ι) {s : σ}, v s ≠ .free → v (is.foldl step s) = v s
  | [], _, _ => rfl
  | i :: is, s, h => by
    have hi := keeps s i h
    rw [List.foldl_cons, foldl_keeps keeps is (hi ▸ h), hi]

/-- A free place is taken in the end by the first step that fills it. -/
theorem foldl_taken (keeps : ∀ s i, v s ≠ .free → v (step s i) = v s)
    (fill : ∀ s i d, v s = .free → (v (step s i) = .taken d ↔ fills i d)) {d : δ} :
    ∀ (is : List ι) {s : σ}, v s = .free → (v (is.foldl step s) = .taken d ↔
      ∃ pre i post, is = pre ++ i :: post ∧ v (pre.foldl step s) = .free ∧ fills i d)
  | [], s, h => by simp [h]
  | i :: is, s, h => by
    rw [List.foldl_cons]
    constructor
    · intro hd
      by_cases hi : v (step s i) = .free
      · obtain ⟨pre, j, post, rfl, hpre, hj⟩ := (foldl_taken keeps fill is hi).1 hd
        exact ⟨i :: pre, j, post, rfl, hpre, hj⟩
      · rw [foldl_keeps keeps is hi] at hd
        exact ⟨[], i, is, rfl, h, (fill s i d h).1 hd⟩
    · rintro ⟨pre, j, post, he, hpre, hj⟩
      rcases pre with _ | ⟨i', pre⟩
      · obtain ⟨rfl, rfl⟩ := List.cons.inj he
        have hd := (fill s i d h).2 hj
        rw [foldl_keeps keeps is (by simp [hd]), hd]
      · obtain ⟨rfl, rfl⟩ := List.cons.inj he
        have hi : v (step s i) = .free := by
          by_contra hne
          exact hne (by rw [← foldl_keeps keeps pre hne]; exact hpre)
        exact (foldl_taken keeps fill _ hi).2 ⟨pre, j, post, rfl, hpre, hj⟩

end FirstCome

/-- Each step leaves alone what is not free, and fills a free place with what it has for it. -/
structure Fills {ι : Type} (step : NameTree κ δ → ι → NameTree κ δ)
    (has : ι → List κ → δ → Prop) : Prop where
  keeps : ∀ t i p, t.slot p ≠ .free → (step t i).slot p = t.slot p
  fill : ∀ t i p d, t.slot p = .free → ((step t i).slot p = .taken d ↔ has i p d)

/-- The first of the steps to have anything for a path has `d`. -/
def FirstHas {ι : Type} (has : ι → List κ → δ → Prop) (is : List ι) (p : List κ) (d : δ) : Prop :=
  ∃ pre i post, is = pre ++ i :: post ∧ has i p d ∧ ∀ j ∈ pre, ∀ e, ¬ has j p e

namespace Fills

variable {ι : Type} {step : NameTree κ δ → ι → NameTree κ δ} {has : ι → List κ → δ → Prop}
  {is : List ι} {t : NameTree κ δ} {p : List κ} {d : δ}

theorem slot_keeps (h : Fills step has) (is : List ι) (ht : t.slot p ≠ .free) :
    (is.foldl step t).slot p = t.slot p :=
  foldl_keeps (v := fun t : NameTree κ δ => t.slot p) (fun t i => h.keeps t i p) is ht

theorem slot_taken (h : Fills step has) (is : List ι) (ht : t.slot p = .free) :
    (is.foldl step t).slot p = .taken d ↔ ∃ pre i post, is = pre ++ i :: post ∧
      (pre.foldl step t).slot p = .free ∧ has i p d :=
  foldl_taken (v := fun t : NameTree κ δ => t.slot p) (fun t i => h.keeps t i p)
    (fun t i d => h.fill t i p d) is ht

/-- Where a step has something for a path the path does not stay free. -/
theorem not_free (h : Fills step has) {i : ι} (hi : i ∈ is) (hd : has i p d) :
    (is.foldl step t).slot p ≠ .free := by
  obtain ⟨pre, post, rfl⟩ := List.append_of_mem hi
  rw [List.foldl_append, List.foldl_cons]
  have hstep : (step (pre.foldl step t) i).slot p ≠ .free := by
    by_cases hpre : (pre.foldl step t).slot p = .free
    · simp [(h.fill _ i p d hpre).2 hd]
    · rwa [h.keeps _ i p hpre]
  rwa [h.slot_keeps post hstep]

/-- What comes to a free place is what the first step to have anything for it has. -/
theorem firstHas_of_taken (h : Fills step has) (ht : t.slot p = .free)
    (hd : (is.foldl step t).slot p = .taken d) : FirstHas has is p d := by
  obtain ⟨pre, i, post, rfl, hpre, hi⟩ := (h.slot_taken is ht).1 hd
  exact ⟨pre, i, post, rfl, hi, fun j hj e he => h.not_free hj he hpre⟩

theorem firstHas_unique (h : Fills step has) (ht : t.slot p = .free) {e : δ}
    (hd : FirstHas has is p d) (he : FirstHas has is p e) : d = e := by
  have hone : ∀ {i}, has i p d → has i p e → d = e := fun {i} hi hi' =>
    Slot.taken.inj (((h.fill t i p d ht).2 hi).symm.trans ((h.fill t i p e ht).2 hi'))
  obtain ⟨pre, i, post, rfl, hi, hpre⟩ := hd
  obtain ⟨pre', j, post', heq, hj, hpre'⟩ := he
  rcases List.append_eq_append_iff.1 heq with ⟨k, rfl, hk⟩ | ⟨k, rfl, hk⟩
  · rcases k with _ | ⟨i', k⟩
    · exact hone hi ((List.cons.inj hk).1 ▸ hj)
    · exact absurd ((List.cons.inj hk).1 ▸ hi) (hpre' i' (by simp) d)
  · rcases k with _ | ⟨j', k⟩
    · exact hone hi ((List.cons.inj hk).1 ▸ hj)
    · exact absurd ((List.cons.inj hk).1 ▸ hj) (hpre j' (by simp) e)

/-- A free place is taken by what the first step to have anything for it has, unless what comes on
the way to it does not open it. -/
theorem slot_foldl (h : Fills step has) (ht : t.slot p = .free) :
    (is.foldl step t).slot p = .taken d ↔ FirstHas has is p d ∧
      ∀ q x, q ++ [x] <+: p → t.slot q = .free → ∀ e, FirstHas has is q e → opens e x = true := by
  constructor
  · refine fun hd => ⟨h.firstHas_of_taken ht hd, fun q x hq htq e he => ?_⟩
    obtain ⟨r, rfl⟩ := hq
    rw [List.append_assoc] at hd
    obtain ⟨e', he', ho⟩ := opens_of_taken hd
    rwa [h.firstHas_unique htq he (h.firstHas_of_taken htq he')]
  · rintro ⟨hd, hopen⟩
    rcases hs : (is.foldl step t).slot p with _ | e | _
    · obtain ⟨pre, i, post, rfl, hi, -⟩ := hd
      exact absurd hs (h.not_free (by simp) hi)
    · rw [h.firstHas_unique ht hd (h.firstHas_of_taken ht hs)]
    · obtain ⟨q, x, r, e, rfl, he, ho⟩ := slot_eq_blocked.1 hs
      by_cases htq : t.slot q = .free
      · exact absurd (hopen q x ⟨r, by simp⟩ htq e (h.firstHas_of_taken htq he)) ho
      · rw [h.slot_keeps is htq] at he
        rw [slot_eq_blocked.2 ⟨q, x, r, e, rfl, he, ho⟩] at ht
        cases ht

/-- Any two of the steps have the same for a place that is free at first. -/
def Alike (has : ι → List κ → δ → Prop) (is : List ι) (t : NameTree κ δ) : Prop :=
  ∀ i ∈ is, ∀ j ∈ is, ∀ p d e, t.slot p = .free → has i p d → has j p e → d = e

theorem taken_of_perm (h : Fills step has) : ∀ {is js : List ι}, js.Perm is → Alike has is t →
    (is.foldl step t).slot p = .taken d → (js.foldl step t).slot p = .taken d := by
  induction hn : p.length using Nat.strongRecOn generalizing p d with
  | ind n ih =>
    intro is js hperm ha hd
    by_cases ht : t.slot p = .free
    · obtain ⟨pre, i, post, hi, -, hhas⟩ := (h.slot_taken is ht).1 hd
      have himem : i ∈ is := by simp [hi]
      rcases hs : (js.foldl step t).slot p with _ | e | _
      · exact absurd hs (h.not_free (hperm.mem_iff.2 himem) hhas)
      · obtain ⟨pre', j, post', hj, -, hhas'⟩ := (h.slot_taken js ht).1 hs
        have hjmem : j ∈ is := hperm.mem_iff.1 (by simp [hj])
        rw [ha i himem j hjmem p d e ht hhas hhas']
      · obtain ⟨q, x, r, e, rfl, he, ho⟩ := slot_eq_blocked.1 hs
        have hlt : q.length < n := by
          rw [← hn, List.length_append, List.length_cons]
          omega
        have ha' : Alike has js t := fun i hi j hj =>
          ha i (hperm.mem_iff.1 hi) j (hperm.mem_iff.1 hj)
        have hq := ih q.length hlt rfl hperm.symm ha' he
        rw [slot_eq_blocked.2 ⟨q, x, r, e, rfl, hq, ho⟩] at hd
        cases hd
    · rw [h.slot_keeps is ht] at hd
      rw [h.slot_keeps js ht, hd]

/-- The tree comes out the same in every order just where the steps have the same for every place
that is free at first. -/
theorem perm_iff (h : Fills step has) (is : List ι) (t : NameTree κ δ) :
    (∀ js : List ι, js.Perm is → (js.foldl step t).slot = (is.foldl step t).slot) ↔
      Alike has is t := by
  constructor
  · intro hall i hi j hj p d e ht hd he
    have first : ∀ {i d}, i ∈ is → has i p d → (is.foldl step t).slot p = .taken d := by
      intro i d hi hd
      obtain ⟨pre, post, rfl⟩ := List.append_of_mem hi
      have hstep := (h.fill t i p d ht).2 hd
      rw [← hall (i :: (pre ++ post)) List.perm_middle.symm, List.foldl_cons,
        h.slot_keeps _ (by simp [hstep]), hstep]
    exact Slot.taken.inj ((first hi hd).symm.trans (first hj he))
  · intro ha js hperm
    refine slot_ext fun p d => ⟨fun hd => ?_, h.taken_of_perm hperm ha⟩
    refine h.taken_of_perm hperm.symm (fun i hi j hj => ?_) hd
    exact ha i (hperm.mem_iff.1 hi) j (hperm.mem_iff.1 hj)

end Fills

end NameTree
