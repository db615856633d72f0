import DiiaApp.GrpcClient
import DiiaApp.StandIn
import DiiaApp.Steps
import Mathlib.Tactic.SplitIfs

/-!
# Metadata left by earlier calls

What a call writes is known key by key: an entry it sets in any case, else the one the metadata has,
else one of its log data. So a call sends what it would send from the caller's own entries exactly
where each entry that is not the caller's is one the call writes itself (`Clean`).
-/

namespace DiiaApp

open Js

variable {N : Type}

section Set

variable (rules : MetadataRules N)

/-- What `setAll` leaves under a key it sets. -/
def lastStored (key : JsString) : List (JsString × Value N) → Option (List JsString)
  | [] => none
  | e :: es => (lastStored key es).or
      (if rules.normalizeKey e.1 = key then rules.stored e.1 e.2 else none)

theorem setMetadata_stored {rules : MetadataRules N} {key : JsString} {value : Value N}
    {values : List JsString} (m : Metadata) (h : rules.stored key value = some values) :
    setMetadata rules key value m = (.ok (), m.set (rules.normalizeKey key) values) := by
  simp only [setMetadata, h]

theorem setMetadata_none {rules : MetadataRules N} {key : JsString} {value : Value N}
    (m : Metadata) (h : rules.stored key value = none) :
    setMetadata rules key value m
      = (throwNative .error (js "Metadata value contains illegal characters"), m) := by
  simp only [setMetadata, h]

theorem setAll_ok : ∀ {es : List (JsString × Value N)} {m m' : Metadata},
    setAll rules es m = (.ok (), m') →
      (∀ e ∈ es, (rules.stored e.1 e.2).isSome) ∧
        ∀ key, m'.get key = (lastStored rules key es).or (m.get key)
  | [], m, m', h => by
    obtain rfl : m = m' := (Prod.mk.inj h).2
    exact ⟨by simp, fun key => rfl⟩
  | e :: es, m, m', h => by
    rcases hst : rules.stored e.1 e.2 with _ | values
    · simp only [setAll, setMetadata_none m hst, throwNative, Prod.mk.injEq, reduceCtorEq,
        false_and] at h
    · simp only [setAll, setMetadata_stored m hst] at h
      obtain ⟨h1, h2⟩ := setAll_ok h
      refine ⟨List.forall_mem_cons.2 ⟨by simp [hst], h1⟩, fun key => ?_⟩
      rw [h2, lastStored, Option.or_assoc, Map.get_set]
      by_cases hk : rules.normalizeKey e.1 = key
      · rw [if_pos hk.symm, if_pos hk, hst, Option.some_or]
      · rw [if_neg (Ne.symm hk), if_neg hk, Option.none_or]

theorem setAll_error : ∀ {es : List (JsString × Value N)} {m m' : Metadata} {err : Thrown N},
    setAll rules es m = (.error err, m') → ∃ e ∈ es, rules.stored e.1 e.2 = none
  | [], m, m', err, h => by simp [setAll] at h
  | e :: es, m, m', err, h => by
    rcases hst : rules.stored e.1 e.2 with _ | values
    · exact ⟨e, List.mem_cons_self, hst⟩
    · simp only [setAll, setMetadata_stored m hst] at h
      obtain ⟨e', he', hn⟩ := setAll_error h
      exact ⟨e', List.mem_cons_of_mem _ he', hn⟩

/-- Keys are set, and never removed. -/
theorem setAll_keys : ∀ (es : List (JsString × Value N)) {m : Metadata} {key : JsString},
    (m.get key).isSome → ((setAll rules es m).2.get key).isSome
  | [], _, _, h => h
  | e :: es, m, key, h => by
    rcases hst : rules.stored e.1 e.2 with _ | values
    · simpa only [setAll, setMetadata_none m hst, throwNative] using h
    · simp only [setAll, setMetadata_stored m hst]
      refine setAll_keys es ?_
      rw [Map.get_set]
      split_ifs
      · rfl
      · exact h

end Set

section LogData

variable [JsNumber N] (rules : MetadataRules N)

/-- The entry of the log data for a key. -/
def logEntry (key : JsString) (logData : List (JsString × Value N)) : Option (JsString × Value N) :=
  logData.find? fun e => e.1 ≠ js "actionVersion" ∧ e.2.truthy ∧ rules.normalizeKey e.1 = key

theorem logEntry_cons (key : JsString) (e : JsString × Value N) (es : List (JsString × Value N)) :
    logEntry rules key (e :: es)
      = if e.1 ≠ js "actionVersion" ∧ e.2.truthy ∧ rules.normalizeKey e.1 = key then some e
        else logEntry rules key es := by
  unfold logEntry
  split_ifs with h
  · rw [List.find?_cons_of_pos (by simpa using h)]
  · rw [List.find?_cons_of_neg (by simpa using h)]

theorem setLogData_ok : ∀ {es : List (JsString × Value N)} {m m' : Metadata},
    setLogData rules es m = (.ok (), m') → ∀ key,
      (∀ e, logEntry rules key es = some e → m.get key = none →
        (rules.stored e.1 e.2).isSome) ∧
      m'.get key = (m.get key).or
        ((logEntry rules key es).bind fun e => rules.stored e.1 e.2)
  | [], m, m', h, key => by
    obtain rfl : m = m' := (Prod.mk.inj h).2
    simp [logEntry]
  | e :: es, m, m', h, key => by
    rw [logEntry_cons]
    by_cases hc : e.1 ≠ js "actionVersion" ∧ e.2.truthy ∧ ¬ m.has (rules.normalizeKey e.1)
    · rcases hst : rules.stored e.1 e.2 with _ | values
      · simp only [setLogData, if_pos hc, setMetadata_none m hst, throwNative, Prod.mk.injEq,
          reduceCtorEq, false_and] at h
      simp only [setLogData, if_pos hc, setMetadata_stored m hst] at h
      obtain ⟨h1, h2⟩ := setLogData_ok h key
      by_cases hk : rules.normalizeKey e.1 = key
      · subst hk
        have hn : m.get (rules.normalizeKey e.1) = none := Map.not_has.1 hc.2.2
        rw [if_pos ⟨hc.1, hc.2.1, rfl⟩, h2, Map.get_set_self, hn]
        refine ⟨fun e' he' _ => ?_, by simp [hst]⟩
        obtain rfl := Option.some.inj he'
        simp [hst]
      · rw [Map.get_set_of_ne _ _ (Ne.symm hk)] at h1 h2
        rw [if_neg fun h => hk h.2.2]
        exact ⟨h1, h2⟩
    · simp only [setLogData, if_neg hc] at h
      obtain ⟨h1, h2⟩ := setLogData_ok h key
      split_ifs with hk
      · -- the entry is passed over, so the metadata has the key already
        have hs : (m.get key).isSome := by
          by_contra hn
          exact hc ⟨hk.1, hk.2.1, by rw [hk.2.2, Map.has]; exact hn⟩
        refine ⟨fun e' _ hn => absurd hs (by simp [hn]), ?_⟩
        obtain ⟨v, hv⟩ := Option.isSome_iff_exists.1 hs
        rw [h2, hv]
        rfl
      · exact ⟨h1, h2⟩

theorem setLogData_error : ∀ {es : List (JsString × Value N)} {m m' : Metadata} {err : Thrown N},
    setLogData rules es m = (.error err, m') →
      ∃ key e, logEntry rules key es = some e ∧ m.get key = none ∧ rules.stored e.1 e.2 = none
  | [], m, m', err, h => by simp [setLogData] at h
  | e :: es, m, m', err, h => by
    by_cases hc : e.1 ≠ js "actionVersion" ∧ e.2.truthy ∧ ¬ m.has (rules.normalizeKey e.1)
    · have hn : m.get (rules.normalizeKey e.1) = none := Map.not_has.1 hc.2.2
      rcases hst : rules.stored e.1 e.2 with _ | values
      · exact ⟨_, e, by rw [logEntry_cons, if_pos ⟨hc.1, hc.2.1, rfl⟩], hn, hst⟩
      simp only [setLogData, if_pos hc, setMetadata_stored m hst] at h
      obtain ⟨key, e', he', hk, hs⟩ := setLogData_error h
      rw [Map.get_set] at hk
      split_ifs at hk with hne
      refine ⟨key, e', ?_, hk, hs⟩
      rw [logEntry_cons, if_neg fun h => hne h.2.2.symm]
      exact he'
    · simp only [setLogData, if_neg hc] at h
      obtain ⟨key, e', he', hk, hs⟩ := setLogData_error h
      refine ⟨key, e', ?_, hk, hs⟩
      rw [logEntry_cons, if_neg fun h => hc ⟨h.1, h.2.1, by rw [h.2.2]; exact Map.not_has.2 hk⟩]
      exact he'

theorem setLogData_keys : ∀ (es : List (JsString × Value N)) {m : Metadata} {key : JsString},
    (m.get key).isSome → ((setLogData rules es m).2.get key).isSome
  | [], _, _, h => h
  | e :: es, m, key, h => by
    unfold setLogData
    split_ifs
    · rcases hst : rules.stored e.1 e.2 with _ | values
      · simpa only [setMetadata_none m hst, throwNative] using h
      · simp only [setMetadata_stored m hst]
        refine setLogData_keys es ?_
        rw [Map.get_set]
        split_ifs
        · rfl
        · exact h
    · exact setLogData_keys es h

end LogData

section Call

variable [JsNumber N] (p : Packages N) (systemServiceName : JsString) (rules : MetadataRules N)

/-- A value that the call sets in any case, or one of its log data, is refused. -/
def Blocked (call : ClientCall N) (m : Metadata) : Prop :=
  (∃ e ∈ ownEntries p systemServiceName call, rules.stored e.1 e.2 = none) ∨
    ∃ key e, logEntry rules key call.logData = some e ∧ m.get key = none ∧
      rules.stored e.1 e.2 = none

/-- What the call sets under a key in any case. -/
def ownValue (call : ClientCall N) (key : JsString) : Option (List JsString) :=
  lastStored rules key (ownEntries p systemServiceName call)

/-- What the log data of the call has for a key. -/
def logValue (call : ClientCall N) (key : JsString) : Option (List JsString) :=
  (logEntry rules key call.logData).bind fun e => rules.stored e.1 e.2

/-- Each entry of `m` that is not one of `original` is the one the call takes from its own log data,
or is under a key the call sets in any case, unless the call is refused either way. -/
def Clean (original m : Metadata) (call : ClientCall N) : Prop :=
  Blocked p systemServiceName rules call m ∨
    ∀ key values, m.get key = some values → original.get key ≠ some values →
      (original.get key = none ∧ logValue rules call key = some values) ∨
      ((ownValue p systemServiceName rules call key).isSome ∧ (original.get key = none →
        ∀ e, logEntry rules key call.logData = some e → (rules.stored e.1 e.2).isSome))

/-- What a call writes, key by key. -/
theorem sentMetadata_cases (call : ClientCall N) (m : Metadata) :
    (Blocked p systemServiceName rules call m ∧
      sentMetadata p systemServiceName rules call m = none) ∨
    (¬ Blocked p systemServiceName rules call m ∧
      ∃ m', sentMetadata p systemServiceName rules call m = some m' ∧ ∀ key, m'.get key
        = (ownValue p systemServiceName rules call key).or
            ((m.get key).or (logValue rules call key))) := by
  unfold sentMetadata writeMetadata Blocked
  rcases hl : setLogData rules call.logData m with ⟨err | _, m₁⟩
  · exact .inl ⟨.inr (setLogData_error rules hl), rfl⟩
  have hlog := setLogData_ok rules hl
  rcases ho : setAll rules (ownEntries p systemServiceName call) m₁ with ⟨err | _, m₂⟩
  · exact .inl ⟨.inl (setAll_error rules ho), by simp only [ho]⟩
  obtain ⟨h1, h2⟩ := setAll_ok rules ho
  refine .inr ⟨?_, m₂, by simp only [ho], fun key => ?_⟩
  · rintro (⟨e, he, hn⟩ | ⟨key, e, he, hk, hn⟩)
    · exact absurd (h1 e he) (by simp [hn])
    · exact absurd ((hlog key).1 e he hk) (by simp [hn])
  · rw [h2, (hlog key).2]
    rfl

/-- A call sends from `m` what it would send from the caller's own entries exactly where what was
left in `m` is clean. -/
theorem sentMetadata_alike {original m : Metadata}
    (hkeys : ∀ key, (original.get key).isSome → (m.get key).isSome) (call : ClientCall N) :
    (sentMetadata p systemServiceName rules call m).map Map.get
        = (sentMetadata p systemServiceName rules call original).map Map.get ↔
      Clean p systemServiceName rules original m call := by
  have hnone : ∀ key, m.get key = none → original.get key = none := fun key hk => by
    by_contra hn
    exact absurd (hkeys key (Option.isSome_iff_ne_none.2 hn)) (by simp [hk])
  have hblocked : Blocked p systemServiceName rules call m →
      Blocked p systemServiceName rules call original := by
    rintro (h | ⟨key, e, he, hk, hn⟩)
    · exact .inl h
    · exact .inr ⟨key, e, he, hnone key hk, hn⟩
  rcases sentMetadata_cases p systemServiceName rules call m with ⟨hm, hw⟩ | ⟨hm, m', hw, hget⟩
  · refine iff_of_true ?_ (.inl hm)
    rcases sentMetadata_cases p systemServiceName rules call original with ⟨-, ho⟩ | ⟨ho, -⟩
    · rw [hw, ho]
    · exact absurd (hblocked hm) ho
  rcases sentMetadata_cases p systemServiceName rules call original with
    ⟨ho, hwo⟩ | ⟨ho, o', hwo, hgeto⟩
  · -- what was left lets a call through that is refused alone
    refine iff_of_false (by simp [hw, hwo]) ?_
    rintro (h | h)
    · exact hm h
    rcases ho with ho | ⟨key, e, he, hk, hn⟩
    · exact hm (.inl ho)
    rcases hmk : m.get key with _ | values
    · exact hm (.inr ⟨key, e, he, hmk, hn⟩)
    rcases h key values hmk (by simp [hk]) with ⟨-, hv⟩ | ⟨-, hv⟩
    · simp [logValue, he, hn] at hv
    · exact absurd (hv hk e he) (by simp [hn])
  · rw [hw, hwo, Option.map_some, Option.map_some, Option.some.injEq]
    constructor
    · intro heq
      refine .inr fun key values hk hne => ?_
      have hkey : m'.get key = o'.get key := congrFun heq key
      rw [hget, hgeto, hk] at hkey
      rcases hv : ownValue p systemServiceName rules call key with _ | v
      · rw [hv] at hkey
        simp only [Option.none_or, Option.some_or] at hkey
        rcases hok : original.get key with _ | w
        · rw [hok, Option.none_or] at hkey
          exact .inl ⟨rfl, hkey.symm⟩
        · rw [hok, Option.some_or] at hkey
          exact absurd (hok.trans hkey.symm) hne
      · refine .inr ⟨rfl, fun hok e he => ?_⟩
        by_contra hn
        exact ho (.inr ⟨key, e, he, hok, by simpa using hn⟩)
    · intro hc
      have hc := hc.resolve_left hm
      funext key
      rw [hget, hgeto]
      rcases hv : ownValue p systemServiceName rules call key with _ | v
      · rcases hk : m.get key with _ | values
        · rw [hnone key hk]
        · by_cases hok : original.get key = some values
          · rw [hok]
          rcases hc key values hk hok with ⟨h1, h2⟩ | ⟨h1, -⟩
          · rw [h1, h2]
            rfl
          · simp [hv] at h1
      · rfl

theorem writeMetadata_keys (call : ClientCall N) {m : Metadata} {key : JsString}
    (h : (m.get key).isSome) :
    ((writeMetadata p systemServiceName rules call m).2.get key).isSome := by
  have hl := setLogData_keys rules call.logData h
  unfold writeMetadata
  rcases hw : setLogData rules call.logData m with ⟨err | _, m₁⟩ <;> rw [hw] at hl
  · exact hl
  · exact setAll_keys rules _ hl

end Call

section Calls

/-- No object loses a key where the metadata of `o` becomes `m` with all its keys. -/
theorem store_keys {heap : ClientHeap} {o : OptionsRef} {m : Metadata}
    (hm : ∀ key, ((heap.metadata o).get key).isSome → (m.get key).isSome) (o' : OptionsRef)
    {key : JsString} (h : ((heap.metadata o').get key).isSome) :
    (((heap.store o m).metadata o').get key).isSome := by
  rcases ho' : heap.metadataOf o' with _ | r'
  · simp [ClientHeap.metadata, ho'] at h
  rcases ho : heap.metadataOf o with _ | r
  · have hr : r' ≠ heap.next := (heap.allocated o' r' ho').ne
    have hne : o' ≠ o := fun he => by simp [he, ho] at ho'
    simp only [ClientHeap.metadata, ho'] at h
    simpa [ClientHeap.metadata, ClientHeap.store, ho, ho', hne, hr] using h
  · by_cases hr : r' = r
    · subst hr
      have hmo : heap.metadata o' = heap.metadata o := by simp [ClientHeap.metadata, ho, ho']
      simpa [ClientHeap.metadata, ClientHeap.store, ho, ho'] using hm key (hmo ▸ h)
    · simp only [ClientHeap.metadata, ho'] at h
      simpa [ClientHeap.metadata, ClientHeap.store, ho, ho', hr] using h

variable [JsNumber N] (p : Packages N) (systemServiceName : JsString) (rules : MetadataRules N)

theorem metadataMiddleware_keys (heap : ClientHeap) (call : ClientCall N) (o : OptionsRef)
    {key : JsString} (h : ((heap.metadata o).get key).isSome) :
    (((metadataMiddleware p systemServiceName rules heap call).metadata o).get key).isSome := by
  have hw : ∀ key, ((heap.metadata call.options).get key).isSome →
      ((writeMetadata p systemServiceName rules call (heap.metadata call.options)).2.get
        key).isSome := fun key => writeMetadata_keys p systemServiceName rules call
  unfold metadataMiddleware
  rcases hwr : writeMetadata p systemServiceName rules call (heap.metadata call.options)
    with ⟨err | _, m⟩ <;> rw [hwr] at hw
  · dsimp only
    split_ifs
    · exact store_keys hw o h
    · exact h
  · exact store_keys hw o h

def clientStep (heap : ClientHeap) (call : ClientCall N) : Option ClientHeap :=
  some (metadataMiddleware p systemServiceName rules heap call)

/-- The call sends the same entries as it would alone, on the heap `start`. -/
def SentAsAlone (start heap : ClientHeap) (call : ClientCall N) : Prop :=
  (sentMetadata p systemServiceName rules call (heap.metadata call.options)).map Map.get
    = (sentMetadata p systemServiceName rules call (start.metadata call.options)).map Map.get

/-- Every call of a sequence sends what it would alone exactly where each finds its metadata
`Clean`. -/
theorem sent_as_alone (start : ClientHeap) (calls : List (ClientCall N)) :
    Steps.Along (clientStep p systemServiceName rules)
        (SentAsAlone p systemServiceName rules start) start calls ↔
      Steps.Along (clientStep p systemServiceName rules) (fun heap call =>
        Clean p systemServiceName rules (start.metadata call.options)
          (heap.metadata call.options) call) start calls := by
  refine Steps.along_iff (fun heap => ∀ o key, ((start.metadata o).get key).isSome →
    ((heap.metadata o).get key).isSome) ?_ ?_ fun _ _ h => h
  · intro heap call heap' hkeys _ hstep o key h
    obtain rfl := Option.some.inj hstep
    exact metadataMiddleware_keys p systemServiceName rules heap call o (hkeys o key h)
  · exact fun heap call hkeys =>
      sentMetadata_alike p systemServiceName rules (hkeys call.options) call

end Calls

/-- Keys in lower case, and any printable text stored. -/
def standInRules : MetadataRules ℤ where
  normalizeKey key := key.map fun u => if 65 ≤ u.toNat ∧ u.toNat ≤ 90 then u + 32 else u
  stored _ value := match value with
    | .str text => if Metadata.isLegal text then some [text] else none
    | _ => none

/-- One empty `Metadata` object that the options `0` and `1` hold. -/
def sharedMetadata : ClientHeap where
  metadataOf o := if o < 2 then some 0 else none
  objects _ := Map.empty
  next := 1
  allocated := by
    intro o r h
    split_ifs at h
    exact Option.some.inj h ▸ Nat.zero_lt_one

def callOf (options : OptionsRef) (mobileUid : JsString) : ClientCall ℤ :=
  ⟨options, [(js "mobileUid", .str mobileUid)], []⟩

theorem sent_of_another :
    ¬ Steps.Along (clientStep standIn (js "service") standInRules)
      (SentAsAlone standIn (js "service") standInRules sharedMetadata) sharedMetadata
      [callOf 0 (js "A"), callOf 1 (js "B")] := by
  intro h
  have h2 := (h.2 _ rfl).1
  have hk := congrArg (Option.map fun get => get (js "mobileuid")) h2
  revert hk
  decide

end DiiaApp
