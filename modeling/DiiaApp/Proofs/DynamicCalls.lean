import DiiaApp.DynamicCalls
import DiiaApp.Proofs.RootBuild
import Mathlib.Data.List.TakeWhile

/-!
# The clients and the schemas of calls at once

Whatever calls overlap, the open clients are those over which a request was sent since the client
was last closed, one for an address (`open_clients`). A call takes its types from a root that a call
with its key loaded, with the answers it got itself and as if it had been alone
(`types_of_sent`).
-/

namespace DiiaApp

open Js

/-! ## The path of a method -/

theorem afterLast_append {u : CodeUnit} (s : JsString) {t : JsString} (ht : u ∉ t) :
    afterLast u (s ++ u :: t) = t := by
  have hpos : ∀ v ∈ t.reverse, decide (v ≠ u) = true := fun v hv =>
    decide_eq_true fun he => ht (he ▸ List.mem_reverse.1 hv)
  rw [afterLast, List.reverse_append, List.reverse_cons, List.append_assoc,
    List.takeWhile_append_of_pos hpos]
  simp

theorem beforeLast_eq_none {u : CodeUnit} : ∀ {s : JsString}, beforeLast u s = none ↔ u ∉ s
  | [] => by simp [beforeLast]
  | v :: s => by
    rw [beforeLast, List.mem_cons, not_or]
    rcases h : beforeLast u s with _ | t
    · have := beforeLast_eq_none.1 h
      by_cases hv : v = u
      · simp [hv]
      · simp [hv, this, Ne.symm hv]
    · have : ¬ u ∉ s := fun hn => by simp [beforeLast_eq_none.2 hn] at h
      simp [this]

/-- A text with a `u` is what stands before the last one, it, and what stands after it. -/
theorem beforeLast_eq_some {u : CodeUnit} : ∀ {s t : JsString},
    beforeLast u s = some t ↔ ∃ rest, s = t ++ u :: rest ∧ u ∉ rest
  | [], t => by simp [beforeLast]
  | v :: s, t => by
    rw [beforeLast]
    rcases h : beforeLast u s with _ | before
    · have hs := beforeLast_eq_none.1 h
      dsimp only
      split_ifs with hv
      · subst hv
        constructor
        · rintro ⟨⟩
          exact ⟨s, rfl, hs⟩
        · rintro ⟨rest, he, -⟩
          rcases t with _ | ⟨w, t⟩
          · rfl
          · obtain ⟨-, rfl⟩ := List.cons.inj he
            exact absurd (List.mem_append_right t List.mem_cons_self) hs
      · refine iff_of_false nofun ?_
        rintro ⟨rest, he, -⟩
        rcases t with _ | ⟨w, t⟩
        · exact hv (List.cons.inj he).1
        · obtain ⟨-, rfl⟩ := List.cons.inj he
          exact hs (List.mem_append_right t List.mem_cons_self)
    · obtain ⟨rest, hs, hrest⟩ := beforeLast_eq_some.1 h
      constructor
      · rintro ⟨⟩
        exact ⟨rest, congrArg (v :: ·) hs, hrest⟩
      · rintro ⟨rest', he, hrest'⟩
        rcases t with _ | ⟨w, t⟩
        · obtain ⟨-, rfl⟩ := List.cons.inj he
          exact absurd (hs ▸ List.mem_append_right before List.mem_cons_self) hrest'
        · obtain ⟨rfl, hrest⟩ := List.cons.inj he
          rw [beforeLast_eq_some.2 ⟨rest', hrest, hrest'⟩] at h
          rw [Option.some.inj h]

/-- The paths that parse, and what they parse to. -/
theorem parseMethodPath_eq_some {method : JsString} {path : MethodPath} :
    parseMethodPath method = some path ↔
      method = pathSep :: (path.serviceName ++ pathSep :: path.methodName) ∧
        path.serviceName ≠ [] ∧ path.methodName ≠ [] ∧ pathSep ∉ path.methodName ∧
        ∀ u ∈ path.serviceName, isLineTerminator u = false := by
  obtain ⟨serviceName, methodName⟩ := path
  constructor
  · intro h
    rw [parseMethodPath.eq_def] at h
    split at h
    · cases h
    · rename_i u rest
      split_ifs at h with hu
      split at h
      · cases h
      · rename_i before hb
        dsimp only at h
        split_ifs at h with hcond
        obtain ⟨h1, h2, h3⟩ := hcond
        obtain ⟨after, rfl, hafter⟩ := beforeLast_eq_some.1 hb
        rw [afterLast_append before hafter] at h h2
        obtain ⟨rfl, rfl⟩ := MethodPath.mk.inj (Option.some.inj h)
        exact ⟨by rw [hu], h1, h2, hafter, by simpa using h3⟩
  · rintro ⟨rfl, h1, h2, h3, h4⟩
    have hb : beforeLast pathSep (serviceName ++ pathSep :: methodName) = some serviceName :=
      beforeLast_eq_some.2 ⟨methodName, rfl, h3⟩
    have hany : ¬ serviceName.any isLineTerminator := by simpa using h4
    simp only [parseMethodPath, if_true, hb, afterLast_append serviceName h3]
    rw [if_pos ⟨h1, h2, hany⟩]

/-- Keys tell addresses and services apart where the name of a service has no `:`. -/
theorem cacheKey_inj {path path' : MethodPath} {address address' : JsString}
    (h : path.cacheKey address = path'.cacheKey address') (hn : (58 : CodeUnit) ∉ path.serviceName)
    (hn' : (58 : CodeUnit) ∉ path'.serviceName) :
    address = address' ∧ path.serviceName = path'.serviceName := by
  have hafter (path : MethodPath) (address : JsString) (hn : (58 : CodeUnit) ∉ path.serviceName) :
      afterLast 58 (path.cacheKey address) = path.serviceName := by
    show afterLast 58 (address ++ [58] ++ path.serviceName) = _
    rw [List.append_assoc]
    exact afterLast_append address hn
  have hs : path.serviceName = path'.serviceName := by
    rw [← hafter path address hn, h, hafter path' address' hn']
  refine ⟨?_, hs⟩
  simpa [MethodPath.cacheKey, hs] using h

variable {β φ : Type} {pb : Protobuf β φ}

/-! ## Loading a schema -/

/-- What the reflection answered is what it answers. -/
def Agrees (reflection : Reflection β) (answers : List (Fetch β)) : Prop :=
  ∀ fetch ∈ answers, reflection fetch.typeName = fetch.descriptors

/-- The root that a lone load gives. -/
def loadedRoot (pb : Protobuf β φ) (reflection : Reflection β) (serviceName : DottedName) :
    Option ProtoObject :=
  (loadSchema pb reflection serviceName).map Resolution.root

/-- The root that the rest of a load comes to if the reflection answers it as given. -/
def CallState.restOf (pb : Protobuf β φ) (reflection : Reflection β) (serviceName : DottedName) :
    CallState → Option ProtoObject
  | .first => loadedRoot pb reflection serviceName
  | .fetching r n typeName rest =>
    some (resolveAllTypes pb reflection n ⟨(fetchesOf reflection (typeName :: rest)).foldl
      (takeIn pb) r.root, r.fetchedTypes ++ rest⟩).root
  | .resolved root => some root
  | _ => none

/-- The symbols that have been asked for, and those of the round that are to be. -/
def CallState.AsksOnce (asked : List DottedName) : CallState → Prop
  | .first => asked = []
  | .fetching r _ typeName rest => asked ≠ [] ∧ r.fetchedTypes = asked.tail ++ [typeName] ∧
    (r.fetchedTypes ++ rest).Nodup
  | _ => asked.tail.Nodup

theorem restOf_beginRound (reflection : Reflection β) (serviceName : DottedName) (n : ℕ)
    (r : Resolution) : (beginRound pb n r).restOf pb reflection serviceName
      = some (resolveAllTypes pb reflection n r).root := by
  rcases n with _ | n
  · rfl
  rw [beginRound, resolveAllTypes]
  rcases ht : typesToFetch pb r with _ | ⟨typeName, rest⟩
  · rfl
  · rw [if_neg (List.cons_ne_nil _ _), fetchRound, ht]
    show some (resolveAllTypes pb reflection n ⟨_, r.fetchedTypes ++ [typeName] ++ rest⟩).root = _
    rw [List.append_assoc]
    rfl

theorem restOf_nextType (reflection : Reflection β) (serviceName : DottedName) (n : ℕ)
    (r : Resolution) (rest : List DottedName) :
    (nextType pb n r rest).restOf pb reflection serviceName
      = some (resolveAllTypes pb reflection n
          ⟨(fetchesOf reflection rest).foldl (takeIn pb) r.root, r.fetchedTypes ++ rest⟩).root := by
  rcases rest with _ | ⟨typeName, rest⟩
  · rw [nextType, restOf_beginRound, List.append_nil]
    rfl
  · show some (resolveAllTypes pb reflection n ⟨_, r.fetchedTypes ++ [typeName] ++ rest⟩).root = _
    rw [List.append_assoc]
    rfl

/-- An answer leaves what the load comes to as it is. -/
theorem restOf_answered {call : DynamicCall β} {symbol : DottedName} {reflection : Reflection β}
    {descriptors : Option (List β)} (hs : call.symbol? = some symbol)
    (hr : reflection symbol = descriptors) :
    (call.state.answered pb descriptors).restOf pb reflection call.path.service
      = call.state.restOf pb reflection call.path.service := by
  unfold DynamicCall.symbol? at hs
  split at hs
  · rename_i hstate
    obtain rfl := Option.some.inj hs
    rw [hstate]
    subst hr
    show CallState.restOf pb reflection _ (CallState.answered pb _ .first)
      = (loadSchema pb reflection _).map Resolution.root
    rw [loadSchema]
    rcases hd : reflection call.path.service with _ | fileDescriptors
    · rfl
    · exact restOf_beginRound reflection _ maxIterations ⟨buildProtoRoot pb fileDescriptors, []⟩
  · rename_i r n typeName rest hstate
    obtain rfl := Option.some.inj hs
    rw [hstate]
    subst hr
    show CallState.restOf pb reflection _ (nextType pb n _ rest) = _
    rw [restOf_nextType]
    rfl
  · cases hs

theorem nodup_eraseDups : ∀ (l : List DottedName), l.eraseDups.Nodup
  | [] => List.nodup_nil
  | name :: l => by
    rw [List.eraseDups_cons, List.nodup_cons, List.mem_eraseDups]
    exact ⟨by simp, nodup_eraseDups (l.filter fun b => !b == name)⟩
termination_by l => l.length
decreasing_by exact Nat.lt_succ_of_le (List.length_filter_le _ _)

theorem nodup_typesToFetch (pb : Protobuf β φ) {r : Resolution} (h : r.fetchedTypes.Nodup) :
    (r.fetchedTypes ++ typesToFetch pb r).Nodup := by
  refine List.nodup_append'.2 ⟨h, ((nodup_eraseDups _).filter _).filter _, fun name hf ht => ?_⟩
  simpa [hf] using (List.mem_filter.1 ht).2

theorem asksOnce_beginRound {asked : List DottedName} (n : ℕ) {r : Resolution} (hne : asked ≠ [])
    (hr : r.fetchedTypes = asked.tail) (h : r.fetchedTypes.Nodup) :
    (beginRound pb n r).AsksOnce asked := by
  have htail : asked.tail.Nodup := hr ▸ h
  rcases n with _ | n
  · exact htail
  have hd := nodup_typesToFetch pb h
  rw [beginRound]
  rcases ht : typesToFetch pb r with _ | ⟨typeName, rest⟩
  · exact htail
  · rw [ht] at hd
    exact ⟨hne, by rw [hr], by rwa [List.append_assoc]⟩

theorem asksOnce_nextType {asked : List DottedName} (n : ℕ) {r : Resolution}
    {rest : List DottedName} (hne : asked ≠ []) (hr : r.fetchedTypes = asked.tail)
    (h : (r.fetchedTypes ++ rest).Nodup) : (nextType pb n r rest).AsksOnce asked := by
  rcases rest with _ | ⟨typeName, rest⟩
  · rw [List.append_nil] at h
    exact asksOnce_beginRound n hne hr h
  · exact ⟨hne, by rw [hr], by rwa [List.append_assoc]⟩

theorem asksOnce_answered {call : DynamicCall β} {asked : List DottedName} {symbol : DottedName}
    (descriptors : Option (List β)) (hs : call.symbol? = some symbol)
    (h : call.state.AsksOnce asked) :
    (call.state.answered pb descriptors).AsksOnce (asked ++ [symbol]) := by
  have hne : asked ++ [symbol] ≠ [] := by simp
  unfold DynamicCall.symbol? at hs
  split at hs
  · rename_i hstate
    rw [hstate] at h ⊢
    obtain rfl : asked = [] := h
    rcases descriptors with _ | fileDescriptors
    · exact List.nodup_nil
    · have hnil : (⟨buildProtoRoot pb fileDescriptors, []⟩ : Resolution).fetchedTypes.Nodup :=
        List.nodup_nil
      exact asksOnce_beginRound maxIterations hne rfl hnil
  · rename_i r n typeName rest hstate
    obtain rfl := Option.some.inj hs
    rw [hstate] at h ⊢
    obtain ⟨hasked, hr, hd⟩ := h
    refine asksOnce_nextType n hne ?_ hd
    rw [List.tail_append_of_ne_nil hasked]
    exact hr
  · cases hs

namespace DynamicSystem

/-! ## Clients -/

/-- Some requests are sent, each over the client kept for its address, and no client goes. -/
def Sends (s s' : DynamicSystem β) : Prop :=
  ∃ more, s'.requests = s.requests ++ more ∧ ∀ role address client,
    (s'.pool role).kept.get address = some client ↔
      (s.pool role).kept.get address = some client ∨ ⟨role, address, client⟩ ∈ more

theorem Sends.of_eq {s s' : DynamicSystem β} (hr : s'.requests = s.requests)
    (hp : ∀ role, s'.pool role = s.pool role) : s.Sends s' :=
  ⟨[], by simp [hr], fun role address client => by simp [hp]⟩

theorem Sends.trans {s s' s'' : DynamicSystem β} (h : s.Sends s') (h' : s'.Sends s'') :
    s.Sends s'' := by
  obtain ⟨more, hm, hk⟩ := h
  obtain ⟨more', hm', hk'⟩ := h'
  refine ⟨more ++ more', by rw [hm', hm, List.append_assoc], fun role address client => ?_⟩
  rw [hk', hk, List.mem_append, or_assoc]

theorem sends_requestSymbol (s : DynamicSystem β) (address : JsString) :
    s.Sends (s.requestSymbol address) := by
  refine ⟨_, rfl, fun role a client => ?_⟩
  cases role with
  | reflection => simp [pool, requestSymbol, Pool.get_acquire_iff]
  | methods => simp [pool, requestSymbol]

theorem sends_requestMethod (s : DynamicSystem β) (address : JsString) :
    s.Sends (s.requestMethod address) := by
  refine ⟨_, rfl, fun role a client => ?_⟩
  cases role with
  | reflection => simp [pool, requestMethod]
  | methods => simp [pool, requestMethod, Pool.get_acquire_iff]

theorem sends_asking (s : DynamicSystem β) (call : DynamicCall β) : s.Sends (s.asking call) := by
  unfold asking
  split_ifs
  · exact sends_requestSymbol s call.address
  · exact .of_eq rfl fun _ => rfl

theorem sends_goOn (s : DynamicSystem β) (i : ℕ) (call : DynamicCall β) :
    s.Sends (s.goOn i call) :=
  (sends_asking s call).trans (.of_eq rfl fun role => by cases role <;> rfl)

theorem sends_begin (s : DynamicSystem β) (call : DynamicCall β) : s.Sends (s.begin call) :=
  (sends_asking s call).trans (.of_eq rfl fun role => by cases role <;> rfl)

/-- What a step does. -/
inductive Stepped (pb : Protobuf β φ) (s : DynamicSystem β) :
    DynamicEvent β → DynamicSystem β → Prop
  | refused {address method encodes} (h : parseMethodPath method = none) :
    Stepped pb s (.call address method encodes) s
  | called {address method encodes path} (h : parseMethodPath method = some path) :
    Stepped pb s (.call address method encodes) (s.begin (s.started address path encodes))
  | answered {i descriptors call symbol} (hi : s.calls[i]? = some call)
    (hs : call.symbol? = some symbol) :
    Stepped pb s (.answer i descriptors) (s.goOn i { call with
      answers := call.answers ++ [⟨symbol, descriptors⟩]
      state := call.state.answered pb descriptors })
  | kept {i call root} (hi : s.calls[i]? = some call) (hs : call.state = .resolved root) :
    Stepped pb s (.resume i) ({ s with
      schemaCache := s.schemaCache.set (call.path.cacheKey call.address) root }.goOn i
        { call with state := .ready root })
  | thrown {i call root} (hi : s.calls[i]? = some call) (hs : call.state = .ready root) :
    Stepped pb s (.resume i) (s.goOn i { call with state := .over })
  | sent {i call root types} (hi : s.calls[i]? = some call) (hs : call.state = .ready root)
    (ht : getMethodTypes pb root call.path.service call.path.methodName = some types) :
    Stepped pb s (.resume i)
      ((s.requestMethod call.address).goOn i { call with state := .sent root types })
  | responded {i call root types} (hi : s.calls[i]? = some call)
    (hs : call.state = .sent root types) :
    Stepped pb s (.respond i) (s.goOn i { call with state := .over })
  | closed : Stepped pb s .close s.close

theorem stepped {s s' : DynamicSystem β} {e : DynamicEvent β} (h : s.step pb e = some s') :
    Stepped pb s e s' := by
  cases e with
  | call address method encodes =>
    rw [step] at h
    split at h <;> rename_i hp <;> obtain rfl := Option.some.inj h
    · exact .refused hp
    · exact .called hp
  | answer i descriptors =>
    obtain ⟨call, hi, h⟩ := Option.bind_eq_some_iff.1 h
    obtain ⟨symbol, hs, h⟩ := Option.bind_eq_some_iff.1 h
    obtain rfl := Option.some.inj h
    exact .answered hi hs
  | resume i =>
    obtain ⟨call, hi, h⟩ := Option.bind_eq_some_iff.1 h
    rw [resumed] at h
    split at h
    · rename_i root hs
      obtain rfl := Option.some.inj h
      exact .kept hi hs
    · rename_i root hs
      split at h
      · obtain rfl := Option.some.inj h
        exact .thrown hi hs
      · rename_i types ht
        split_ifs at h
        · obtain rfl := Option.some.inj h
          exact .sent hi hs ht
        · obtain rfl := Option.some.inj h
          exact .thrown hi hs
    · cases h
  | respond i =>
    obtain ⟨call, hi, h⟩ := Option.bind_eq_some_iff.1 h
    split at h
    · rename_i root types hs
      obtain rfl := Option.some.inj h
      exact .responded hi hs
    · cases h
  | close =>
    obtain rfl := Option.some.inj h
    exact .closed

theorem sends_step {s s' : DynamicSystem β} {e : DynamicEvent β} (he : e ≠ .close)
    (h : s.step pb e = some s') : s.Sends s' := by
  rcases stepped h with _ | _ | _ | _ | _ | _ | _ | _
  · exact .of_eq rfl fun _ => rfl
  · exact sends_begin _ _
  · exact sends_goOn _ _ _
  · exact (Sends.of_eq rfl fun role => by cases role <;> rfl).trans (sends_goOn _ _ _)
  · exact sends_goOn _ _ _
  · exact (sends_requestMethod _ _).trans (sends_goOn _ _ _)
  · exact sends_goOn _ _ _
  · exact absurd rfl he

/-- From where the client was new or just closed, and up to where it is closed next: the open
clients are those over which requests were sent, and requests to one address are sent over one. -/
theorem open_clients {s₀ s : DynamicSystem β} {es : List (DynamicEvent β)}
    (h0 : s₀ = .new ∨ ∃ s, s₀ = close s) (hr : Steps.Runs (step pb) s₀ es s) (hc : .close ∉ es) :
    ∃ more, s.requests = s₀.requests ++ more ∧
      (∀ role client, (s.pool role).IsOpen client ↔ ∃ address, ⟨role, address, client⟩ ∈ more) ∧
      (∀ r ∈ more, ∀ r' ∈ more, r.role = r'.role →
        (r.address = r'.address ↔ r.client = r'.client)) := by
  have hempty : ∀ role address, (s₀.pool role).kept.get address = none := by
    rcases h0 with rfl | ⟨s, rfl⟩ <;> rintro (_ | _) address <;> rfl
  obtain ⟨more, hm, hk⟩ : s₀.Sends s :=
    Steps.Runs.inv_of (fun s => s₀.Sends s) (.of_eq rfl fun _ => rfl)
      (fun s e t hs he ht => hs.trans (sends_step he ht)) hr (Steps.along_ne hc)
  replace hk : ∀ role address client, (s.pool role).kept.get address = some client ↔
      ⟨role, address, client⟩ ∈ more := by simpa [hempty] using hk
  refine ⟨more, hm, fun role client => ?_, ?_⟩
  · rw [Pool.isOpen_iff]
    exact exists_congr fun address => hk role address client
  · rintro ⟨role, a, c⟩ h1 ⟨role', a', c'⟩ h2 (rfl : role = role')
    rw [← hk] at h1 h2
    constructor
    · rintro (rfl : a = a')
      exact Option.some.inj (h1.symm.trans h2)
    · rintro (rfl : c = c')
      have hm1 := ((s.pool role).kept_iff a c).1 h1
      have hm2 := ((s.pool role).kept_iff a' c).1 h2
      exact Option.some.inj (hm1.1.symm.trans hm2.1)

end DynamicSystem

/-! ## Schemas -/

def CallState.root? : CallState → Option ProtoObject
  | .ready root => some root
  | .sent root _ => some root
  | _ => none

namespace DynamicCall

def key (call : DynamicCall β) : JsString := call.path.cacheKey call.address

/-- The symbols that the call has asked for. -/
def symbols (call : DynamicCall β) : List DottedName := call.answers.map Fetch.typeName

/-- A lone load that is answered as the call was comes to the root. -/
def Loads (pb : Protobuf β φ) (call : DynamicCall β) (root : ProtoObject) : Prop :=
  ∀ reflection, Agrees reflection call.answers →
    loadedRoot pb reflection call.path.service = some root

/-- The call is `call` after some answers more. -/
structure Follows (call' call : DynamicCall β) : Prop where
  address : call'.address = call.address
  path : call'.path = call.path
  answers : call.answers <+: call'.answers

theorem Follows.key {call call' : DynamicCall β} (h : call'.Follows call) :
    call'.key = call.key := by
  rw [DynamicCall.key, DynamicCall.key, h.address, h.path]

theorem Follows.loads {call call' : DynamicCall β} {root : ProtoObject} (h : call'.Follows call)
    (hl : call.Loads pb root) : call'.Loads pb root := fun reflection ha => by
  rw [h.path]
  exact hl reflection fun fetch hf => ha fetch (h.answers.subset hf)

theorem Follows.withState (call : DynamicCall β) (state : CallState) :
    Follows { call with state } call := ⟨rfl, rfl, List.prefix_rfl⟩

end DynamicCall

/-- One of the calls loaded the root for the key. -/
def LoadedFor (pb : Protobuf β φ) (calls : List (DynamicCall β)) (key : JsString)
    (root : ProtoObject) : Prop :=
  ∃ loader ∈ calls, loader.key = key ∧ loader.Loads pb root

/-- What holds of a call among others. -/
structure CallSound (pb : Protobuf β φ) (calls : List (DynamicCall β)) (call : DynamicCall β) :
    Prop where
  once : call.state.AsksOnce call.symbols
  rest : ∀ reflection root, Agrees reflection call.answers →
    call.state.restOf pb reflection call.path.service = some root →
      loadedRoot pb reflection call.path.service = some root
  root : ∀ root, call.state.root? = some root → LoadedFor pb calls call.key root
  types : ∀ root types, call.state = .sent root types →
    getMethodTypes pb root call.path.service call.path.methodName = some types

theorem CallState.AsksOnce.nodup {state : CallState} {asked : List DottedName}
    (h : state.AsksOnce asked) : asked.tail.Nodup := by
  unfold CallState.AsksOnce at h
  split at h
  · rw [h]
    exact List.nodup_nil
  · obtain ⟨-, hr, hd⟩ := h
    rw [hr, List.append_assoc] at hd
    exact hd.of_append_left
  · exact h

namespace DynamicSystem

/-- Every call is sound, and every root that is kept was loaded for its key. -/
structure Sound (pb : Protobuf β φ) (s : DynamicSystem β) : Prop where
  calls : ∀ call ∈ s.calls, CallSound pb s.calls call
  kept : ∀ key root, s.schemaCache.get key = some root → LoadedFor pb s.calls key root

theorem Sound.of_eq {s s' : DynamicSystem β} (h : s.Sound pb) (hc : s'.calls = s.calls)
    (hk : s'.schemaCache = s.schemaCache) : s'.Sound pb :=
  ⟨hc ▸ h.calls, hk ▸ hc ▸ h.kept⟩

theorem asking_calls (s : DynamicSystem β) (call : DynamicCall β) :
    (s.asking call).calls = s.calls ∧ (s.asking call).schemaCache = s.schemaCache := by
  unfold asking
  split_ifs
  · exact ⟨rfl, rfl⟩
  · exact ⟨rfl, rfl⟩

/-- What the calls become keeps what was loaded. -/
theorem loadedFor_mono {calls calls' : List (DynamicCall β)} {key : JsString} {root : ProtoObject}
    (hg : ∀ call ∈ calls, ∃ call' ∈ calls', call'.Follows call) (h : LoadedFor pb calls key root) :
    LoadedFor pb calls' key root := by
  obtain ⟨loader, hl, hk, hloads⟩ := h
  obtain ⟨loader', hl', hf⟩ := hg loader hl
  exact ⟨loader', hl', hf.key.trans hk, hf.loads hloads⟩

theorem callSound_mono {calls calls' : List (DynamicCall β)} {call : DynamicCall β}
    (hg : ∀ call ∈ calls, ∃ call' ∈ calls', call'.Follows call) (h : CallSound pb calls call) :
    CallSound pb calls' call :=
  { h with root := fun root hr => loadedFor_mono hg (h.root root hr) }

theorem sound_begin {s : DynamicSystem β} {call : DynamicCall β} (hs : s.Sound pb)
    (hc : CallSound pb s.calls call) : (s.begin call).Sound pb := by
  have hg : ∀ c ∈ s.calls, ∃ c' ∈ s.calls ++ [call], c'.Follows c := fun c hc =>
    ⟨c, List.mem_append_left _ hc, .withState c c.state⟩
  obtain ⟨h1, h2⟩ := asking_calls s call
  have hcalls : (s.begin call).calls = s.calls ++ [call] := congrArg (· ++ [call]) h1
  constructor
  · rw [hcalls]
    intro c hmem
    rcases List.mem_append.1 hmem with hmem | hmem
    · exact callSound_mono hg (hs.calls c hmem)
    · obtain rfl := List.mem_singleton.1 hmem
      exact callSound_mono hg hc
  · intro key root hk
    rw [hcalls]
    exact loadedFor_mono hg (hs.kept key root (h2 ▸ hk))

theorem sound_goOn {s : DynamicSystem β} {i : ℕ} {call call' : DynamicCall β} (hs : s.Sound pb)
    (hi : s.calls[i]? = some call) (hf : call'.Follows call) (hc : CallSound pb s.calls call') :
    (s.goOn i call').Sound pb := by
  have hlt : i < s.calls.length := (List.getElem?_eq_some_iff.1 hi).1
  have hg : ∀ c ∈ s.calls, ∃ c' ∈ s.calls.set i call', c'.Follows c := by
    intro c hmem
    obtain ⟨j, hj⟩ := List.mem_iff_getElem?.1 hmem
    by_cases hij : i = j
    · subst hij
      obtain rfl := Option.some.inj (hi.symm.trans hj)
      exact ⟨call', List.mem_set hlt call', hf⟩
    · refine ⟨c, List.mem_iff_getElem?.2 ⟨j, ?_⟩, .withState c c.state⟩
      rw [List.getElem?_set_ne hij, hj]
  obtain ⟨h1, h2⟩ := asking_calls s call'
  have hcalls : (s.goOn i call').calls = s.calls.set i call' := congrArg (·.set i call') h1
  constructor
  · rw [hcalls]
    intro c hmem
    rcases List.mem_or_eq_of_mem_set hmem with hmem | rfl
    · exact callSound_mono hg (hs.calls c hmem)
    · exact callSound_mono hg hc
  · intro key root hk
    rw [hcalls]
    exact loadedFor_mono hg (hs.kept key root (h2 ▸ hk))

theorem callSound_started {s : DynamicSystem β} (hs : s.Sound pb) (address : JsString)
    (path : MethodPath) (encodes : MethodTypes → Bool) :
    CallSound pb s.calls (s.started address path encodes) := by
  unfold started
  split
  · rename_i cached hk
    refine ⟨List.nodup_nil, nofun, fun root hr => ?_, nofun⟩
    obtain rfl := Option.some.inj hr
    exact hs.kept _ _ hk
  · exact ⟨rfl, fun reflection root _ h => h, nofun, nofun⟩

theorem root?_nextType (n : ℕ) (r : Resolution) (rest : List DottedName) :
    (nextType pb n r rest).root? = none ∧ (beginRound pb n r).root? = none := by
  have hb : (beginRound pb n r).root? = none := by
    rcases n with _ | n
    · rfl
    rw [beginRound]
    split <;> rfl
  rcases rest with _ | _
  · exact ⟨hb, hb⟩
  · exact ⟨rfl, hb⟩

/-- No root is there yet while descriptors come. -/
theorem root?_answered (pb : Protobuf β φ) {call : DynamicCall β} {symbol : DottedName}
    (descriptors : Option (List β))
    (hs : call.symbol? = some symbol) : (call.state.answered pb descriptors).root? = none := by
  unfold DynamicCall.symbol? at hs
  split at hs
  · rename_i hstate
    rw [hstate]
    rcases descriptors with _ | fileDescriptors
    · rfl
    · exact (root?_nextType maxIterations ⟨buildProtoRoot pb fileDescriptors, []⟩ []).2
  · rename_i r n typeName rest hstate
    rw [hstate]
    exact (root?_nextType n _ rest).1
  · cases hs

theorem callSound_answered {calls : List (DynamicCall β)} {call : DynamicCall β}
    {symbol : DottedName} (descriptors : Option (List β)) (hs : call.symbol? = some symbol)
    (h : CallSound pb calls call) : CallSound pb calls { call with
      answers := call.answers ++ [⟨symbol, descriptors⟩]
      state := call.state.answered pb descriptors } := by
  have hnone := root?_answered pb descriptors hs
  constructor
  · rw [DynamicCall.symbols, List.map_append]
    exact asksOnce_answered descriptors hs h.once
  · intro reflection root ha hr
    refine h.rest reflection root (fun fetch hf => ha fetch (List.mem_append_left _ hf)) ?_
    rw [← restOf_answered hs (ha ⟨symbol, descriptors⟩ List.mem_concat_self)]
    exact hr
  · intro root hr
    rw [hnone] at hr
    cases hr
  · intro root types hr
    dsimp only at hr
    rw [hr] at hnone
    cases hnone

theorem sound_step {s s' : DynamicSystem β} {e : DynamicEvent β} (hs : s.Sound pb)
    (h : s.step pb e = some s') : s'.Sound pb := by
  rcases stepped h with _ | hp | ⟨hi, hsym⟩ | ⟨hi, hst⟩ | ⟨hi, hst⟩ | ⟨hi, hst, ht⟩ | ⟨hi, hst⟩ | _
  · exact hs
  · exact sound_begin hs (callSound_started hs _ _ _)
  · have hc := hs.calls _ (List.mem_of_getElem? hi)
    exact sound_goOn hs hi ⟨rfl, rfl, List.prefix_append _ _⟩ (callSound_answered _ hsym hc)
  · -- the call that goes on has loaded the root that is kept
    rename_i i call root
    have hc := hs.calls call (List.mem_of_getElem? hi)
    have hloads : LoadedFor pb s.calls call.key root :=
      ⟨call, List.mem_of_getElem? hi, rfl, fun reflection ha =>
        hc.rest reflection root ha (by rw [hst]; rfl)⟩
    refine sound_goOn ⟨hs.calls, fun key root' hk => ?_⟩ hi (.withState call _)
      ⟨hc.once.nodup, nofun, fun root' hr => ?_, nofun⟩
    · rw [Map.get_set] at hk
      split_ifs at hk with he
      · obtain rfl := Option.some.inj hk
        subst he
        exact hloads
      · exact hs.kept key root' hk
    · obtain rfl := Option.some.inj hr
      exact hloads
  · have hc := hs.calls _ (List.mem_of_getElem? hi)
    exact sound_goOn hs hi (.withState _ _) ⟨hc.once.nodup, nofun, nofun, nofun⟩
  · have hc := hs.calls _ (List.mem_of_getElem? hi)
    refine sound_goOn (hs.of_eq rfl rfl) hi (.withState _ _)
      ⟨hc.once.nodup, nofun, fun root' hr => ?_, fun root' types' hr => ?_⟩
    · exact hc.root root' (by rw [hst]; exact hr)
    · obtain ⟨rfl, rfl⟩ := CallState.sent.inj hr
      exact ht
  · have hc := hs.calls _ (List.mem_of_getElem? hi)
    exact sound_goOn hs hi (.withState _ _) ⟨hc.once.nodup, nofun, nofun, nofun⟩
  · exact ⟨hs.calls, nofun⟩

/-- Where no symbol is asked for twice there is a reflection that answers as the call was. -/
theorem exists_agrees {answers : List (Fetch β)} (h : (answers.map Fetch.typeName).Nodup) :
    ∃ reflection, Agrees reflection answers := by
  refine ⟨fun name => (answers.find? (·.typeName = name)).bind Fetch.descriptors,
    fun fetch hf => ?_⟩
  have hfind : answers.find? (·.typeName = fetch.typeName) = some fetch := by
    obtain ⟨found, hfound⟩ := Option.isSome_iff_exists.1
      (List.find?_isSome (p := fun f : Fetch β => decide (f.typeName = fetch.typeName)).2
        ⟨fetch, hf, by simp⟩)
    rw [hfound, List.inj_on_of_nodup_map h (List.mem_of_find?_eq_some hfound) hf
      (by simpa using List.find?_some hfound)]
  dsimp only
  rw [hfind, Option.bind_some]

/-- A request is encoded with the types of its method in a root that a call of the key loaded,
having asked for no type twice, and that it would have loaded alone. -/
theorem types_of_sent {s : DynamicSystem β} {es : List (DynamicEvent β)}
    (hr : Steps.Runs (step pb) .new es s) {call : DynamicCall β} (hc : call ∈ s.calls)
    {root : ProtoObject} {types : MethodTypes} (hs : call.state = .sent root types) :
    getMethodTypes pb root call.path.service call.path.methodName = some types ∧
      ∃ loader ∈ s.calls, loader.key = call.key ∧
        ((58 : CodeUnit) ∉ call.path.serviceName → (58 : CodeUnit) ∉ loader.path.serviceName →
          loader.address = call.address ∧ loader.path.serviceName = call.path.serviceName) ∧
        loader.symbols.tail.Nodup ∧
        (loader.symbols.Nodup → ∃ reflection, Agrees reflection loader.answers) ∧
        loader.Loads pb root := by
  have hsound : s.Sound pb := Steps.Runs.inv (fun s => s.Sound pb) ⟨nofun, nofun⟩
    (fun s e t hs ht => sound_step hs ht) hr
  have h := hsound.calls call hc
  obtain ⟨loader, hl, hk, hloads⟩ := h.root root (by rw [hs]; rfl)
  exact ⟨h.types root types hs, loader, hl, hk, fun hn hn' => cacheKey_inj hk hn' hn,
    (hsound.calls loader hl).once.nodup, exists_agrees, hloads⟩

/-- `message Req {} service S { rpc M (Req) returns (Req); }` -/
def wholeServiceFile : ParsedRoot where
  root := fileOf [.mk (js "Req") .empty [],
    .mk (js "S") (.service [⟨js "M", [[], js "p", js "Req"], [[], js "p", js "Req"]⟩]) []]
  proper := by decide

/-- Two calls of one method at once, the first of which gets to its request. -/
def twoCalls : List (DynamicEvent ParsedRoot) :=
  [.call (js "host") (js "/p.S/M") (fun _ => true), .call (js "host") (js "/p.S/M") (fun _ => true),
    .answer 1 none, .answer 0 (some [wholeServiceFile]), .resume 0, .resume 0]

def isSent (call : DynamicCall ParsedRoot) : Bool := call.state matches .sent _ _

theorem twoCalls_runs : ∃ s, Steps.Runs (step bySearch) .new twoCalls s ∧
    ∃ call ∈ s.calls, isSent call := by
  have h : ((twoCalls.foldlM (step bySearch) .new).map fun s => s.calls.any isSent) =
    some true := by decide +kernel
  obtain ⟨s, hs, hany⟩ := Option.map_eq_some_iff.1 h
  exact ⟨s, hs, List.any_eq_true.1 hany⟩

theorem types_of_sent_twoCalls : ∃ s root types, Steps.Runs (step bySearch) .new twoCalls s ∧
    ∃ call ∈ s.calls, getMethodTypes bySearch root call.path.service call.path.methodName
      = some types := by
  obtain ⟨s, hr, call, hc, hsent⟩ := twoCalls_runs
  unfold isSent at hsent
  split at hsent
  · rename_i root types hs
    exact ⟨s, root, types, hr, call, hc, (types_of_sent hr hc hs).1⟩
  · cases hsent

theorem open_clients_twoCalls : ∃ s, Steps.Runs (step bySearch) .new twoCalls s ∧
    ∀ role client,
      (s.pool role).IsOpen client ↔ ∃ address, ⟨role, address, client⟩ ∈ s.requests := by
  obtain ⟨s, hr, -⟩ := twoCalls_runs
  obtain ⟨more, hm, hopen, -⟩ := open_clients (.inl rfl) hr (by simp [twoCalls])
  rw [show DynamicSystem.new.requests = ([] : List SentRequest) from rfl, List.nil_append] at hm
  exact ⟨s, hr, hm ▸ hopen⟩

end DynamicSystem

end DiiaApp
