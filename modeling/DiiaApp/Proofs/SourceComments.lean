import DiiaApp.ProtoSource
import Mathlib.Data.List.DropRight

/-!
# Comments in the proto source

The source with its comments taken out is the one without comments, and the lines of the comments on
messages and enums that come after the first (`inserted_message`), since these are not commented
out. The comment on a field is on one line, so nothing of it is left (`stripComments_protoLine`).
-/

namespace DiiaApp

open Js

def slash : CodeUnit := 47

/-- A line without what follows `//`. -/
def cutComment : JsString → JsString
  | [] => []
  | u :: s => if u = slash ∧ s.head? = some slash then [] else u :: cutComment s

/-- A line without its comment and without trailing blanks. -/
def stripLine (l : JsString) : JsString := (cutComment l).rdropWhile isWhiteSpace

/-- What is left of the lines of a source, without the blank ones. -/
def stripComments (source : JsString) : List JsString :=
  ((source.splitOn newLine).map stripLine).filter (· ≠ [])

theorem stripComments_append (a b : JsString) :
    stripComments (a ++ newLine :: b) = stripComments a ++ stripComments b := by
  simp [stripComments, List.splitOn_append_cons_self]

theorem stripComments_line {l : JsString} (h : newLine ∉ l) :
    stripComments l = [stripLine l].filter (· ≠ []) := by
  rw [stripComments, List.splitOn_eq_singleton h, List.map_singleton]

theorem stripComments_lines : ∀ ls : List JsString,
    stripComments (lines ls) = ls.flatMap stripComments
  | [] => rfl
  | [l] => by simp [lines]
  | l :: l' :: ls => by
    have hl : lines (l :: l' :: ls) = l ++ newLine :: lines (l' :: ls) := by
      simp [lines, List.intercalate_cons_cons]
    rw [hl, stripComments_append, stripComments_lines]
    rfl

/-- The last line of a text. -/
theorem exists_lastLine (s : JsString) :
    newLine ∉ s ∨ ∃ a b, s = a ++ newLine :: b ∧ newLine ∉ b := by
  by_cases hs : newLine ∈ s
  · obtain ⟨a, b, hab, ha⟩ := List.eq_append_cons_of_mem (List.mem_reverse.2 hs)
    refine .inr ⟨b.reverse, a.reverse, ?_, fun h => ha (List.mem_reverse.1 h)⟩
    rw [← List.reverse_reverse s, hab]
    simp
  · exact .inl hs

theorem cutComment_note (c : JsString) : ∀ b : JsString,
    cutComment (b ++ js ";" ++ (js " // " ++ c)) = cutComment (b ++ js ";") ∨
      cutComment (b ++ js ";" ++ (js " // " ++ c)) = cutComment (b ++ js ";") ++ js " "
  | [] => .inr rfl
  | u :: b => by
    have hhead : (b ++ js ";" ++ (js " // " ++ c)).head? = (b ++ js ";").head? := by
      rcases b with _ | ⟨v, b⟩ <;> rfl
    simp only [List.cons_append, cutComment, hhead]
    split_ifs
    · exact .inl rfl
    · rcases cutComment_note c b with h | h
      · exact .inl (congrArg (u :: ·) h)
      · exact .inr (congrArg (u :: ·) h)

theorem stripLine_note (b c : JsString) :
    stripLine (b ++ js ";" ++ (js " // " ++ c)) = stripLine (b ++ js ";") := by
  unfold stripLine
  rcases cutComment_note c b with h | h
  · rw [h]
  · rw [h]
    exact List.rdropWhile_concat_pos _ _ _ (by decide)

/-- What stands in a comment behind a field does not count. -/
theorem stripComments_note (s : JsString) {c : JsString} (hc : newLine ∉ c) :
    stripComments (s ++ js ";" ++ (js " // " ++ c)) = stripComments (s ++ js ";") := by
  have hline : ∀ b, newLine ∉ b →
      stripComments (b ++ js ";" ++ (js " // " ++ c)) = stripComments (b ++ js ";") := by
    intro b hb
    have h1 : newLine ∉ b ++ js ";" := by
      rw [List.mem_append, not_or]
      exact ⟨hb, by decide⟩
    have h2 : newLine ∉ b ++ js ";" ++ (js " // " ++ c) := by
      rw [List.mem_append, not_or, List.mem_append (s := js " // "), not_or]
      exact ⟨h1, by decide, hc⟩
    rw [stripComments_line h1, stripComments_line h2, stripLine_note]
  rcases exists_lastLine s with hs | ⟨a, b, rfl, hb⟩
  · exact hline s hs
  · have happend : ∀ t, a ++ newLine :: b ++ t = a ++ newLine :: (b ++ t) := by simp
    rw [List.append_assoc, happend, happend, stripComments_append, stripComments_append,
      ← List.append_assoc, hline b hb]

theorem not_mem_of_mem_splitOn {x : CodeUnit} {s l : JsString} (h : l ∈ s.splitOn x) : x ∉ l := by
  by_cases hs : x ∈ s
  · obtain ⟨a, b, rfl, ha⟩ := List.eq_append_cons_of_mem hs
    rw [List.splitOn_append_cons_self_of_not_mem ha] at h
    rcases List.mem_cons.1 h with rfl | h
    · exact ha
    · exact not_mem_of_mem_splitOn h
  · rw [List.splitOn_eq_singleton hs, List.mem_singleton] at h
    exact h ▸ hs
termination_by s.length
decreasing_by simp [*]; omega

theorem mem_trim {u : CodeUnit} {s : JsString} (h : u ∈ trim s) : u ∈ s := by
  rw [trim, List.mem_reverse] at h
  have h := (List.dropWhile_sublist _).subset h
  rw [List.mem_reverse] at h
  exact (List.dropWhile_sublist _).subset h

theorem mem_intercalate {u : CodeUnit} {sep : JsString} : ∀ {ls : List JsString},
    u ∈ List.intercalate sep ls → u ∈ sep ∨ ∃ l ∈ ls, u ∈ l
  | [], h => by simp at h
  | [l], h => by
    rw [List.intercalate_singleton] at h
    exact .inr ⟨l, List.mem_cons_self, h⟩
  | l :: l' :: ls, h => by
    rw [List.intercalate_cons_cons, List.mem_append, List.mem_append] at h
    rcases h with (h | h) | h
    · exact .inr ⟨l, List.mem_cons_self, h⟩
    · exact .inl h
    · rcases mem_intercalate h with h | ⟨k, hk, h⟩
      · exact .inl h
      · exact .inr ⟨k, List.mem_cons_of_mem _ hk, h⟩

/-- The comment on a field is on one line. -/
theorem not_mem_cleanComment (comment : JsString) : newLine ∉ cleanComment comment := by
  intro h
  rcases mem_intercalate h with h | ⟨l, hl, h⟩
  · revert h
    decide
  · obtain ⟨piece, hp, rfl⟩ := List.mem_map.1 (List.mem_filter.1 hl).1
    exact not_mem_of_mem_splitOn hp (mem_trim h)

def uncommented : Comments := ⟨Map.empty, Map.empty⟩

theorem stripComments_protoLine (comments : Comments) (indent part name : JsString)
    (field : ProtoField) (parentTypeName : JsString) :
    stripComments (indent ++ protoLine comments part name field parentTypeName) =
      stripComments (indent ++ protoLine uncommented part name field parentTypeName) := by
  have hnone : getFieldComment uncommented name parentTypeName = none := by
    simp [getFieldComment, commentAt, uncommented]
  rw [protoLine, protoLine, hnone]
  rcases getFieldComment comments name parentTypeName with _ | comment
  · rfl
  · have h := stripComments_note
      (indent ++ (part ++ js " " ++ name ++ js " = " ++ decimal field.id))
      (not_mem_cleanComment comment)
    simpa only [List.append_assoc, List.append_nil] using h

/-- What is left of the comment on a message or an enum: its lines after the first. -/
def escapedLines (comments : Comments) (name : JsString) : List JsString :=
  ((commentAt comments.message name).elim [] fun comment =>
    ((trim comment).splitOn newLine).tail.map stripLine).filter (· ≠ [])

def IsIndent (indent : JsString) : Prop := ∀ u ∈ indent, u = 32

theorem IsIndent.inner {indent : JsString} (h : IsIndent indent) :
    IsIndent (innerIndent indent) := by
  intro u hu
  rcases List.mem_append.1 hu with hu | hu
  · exact h u hu
  · have hblanks : js "  " = List.replicate 2 32 := rfl
    exact List.eq_of_mem_replicate (hblanks ▸ hu)

theorem IsIndent.newLine {indent : JsString} (h : IsIndent indent) : newLine ∉ indent :=
  fun hm => absurd (h _ hm) (by decide)

theorem cutComment_indent (s : JsString) : ∀ {indent : JsString}, IsIndent indent →
    cutComment (indent ++ js "// " ++ s) = indent
  | [], _ => rfl
  | u :: indent, h => by
    have hu : u = 32 := h u List.mem_cons_self
    have hs : ¬ (u = slash ∧ (indent ++ js "// " ++ s).head? = some slash) :=
      fun hc => absurd (hu.symm.trans hc.1) (by decide)
    simp only [List.cons_append, cutComment]
    rw [if_neg hs, cutComment_indent s fun v hv => h v (List.mem_cons_of_mem _ hv)]

theorem stripLine_indent {indent : JsString} (h : IsIndent indent) (s : JsString) :
    stripLine (indent ++ js "// " ++ s) = [] := by
  rw [stripLine, cutComment_indent s h, List.rdropWhile_eq_nil_iff]
  exact fun u hu => h u hu ▸ by decide

/-- Text before the first line of another. -/
theorem splitOn_append {a : JsString} (ha : newLine ∉ a) (s : JsString) :
    (a ++ s).splitOn newLine =
      (a ++ (s.splitOn newLine).headD []) :: (s.splitOn newLine).tail := by
  by_cases hs : newLine ∈ s
  · obtain ⟨l, r, rfl, hl⟩ := List.eq_append_cons_of_mem hs
    have hal : newLine ∉ a ++ l := by simp [ha, hl]
    rw [← List.append_assoc, List.splitOn_append_cons_self_of_not_mem hal,
      List.splitOn_append_cons_self_of_not_mem hl]
    rfl
  · have has : newLine ∉ a ++ s := by simp [ha, hs]
    rw [List.splitOn_eq_singleton has, List.splitOn_eq_singleton hs]
    rfl

theorem stripComments_commentLine (comments : Comments) {indent : JsString} (h : IsIndent indent)
    (name : JsString) :
    (commentLine comments indent name).flatMap stripComments = escapedLines comments name := by
  unfold commentLine escapedLines
  rcases commentAt comments.message name with _ | comment
  · rfl
  · have hn : newLine ∉ indent ++ js "// " := by
      rw [List.mem_append, not_or]
      exact ⟨h.newLine, by decide⟩
    rw [Option.elim_some, List.flatMap_singleton, stripComments, splitOn_append hn, List.map_cons,
      stripLine_indent h, List.filter_cons_of_neg (by simp)]

/-- A list of lines is another, with extra lines put in. -/
structure Inserted (base extra all : List JsString) : Prop where
  length : all.length = base.length + extra.length
  same : extra = [] → all = base

theorem Inserted.refl (base : List JsString) : Inserted base [] base := ⟨by simp, fun _ => rfl⟩

theorem Inserted.extra (extra : List JsString) : Inserted [] extra extra := ⟨by simp, id⟩

theorem Inserted.append {base base' extra extra' all all' : List JsString}
    (h : Inserted base extra all) (h' : Inserted base' extra' all') :
    Inserted (base ++ base') (extra ++ extra') (all ++ all') := by
  constructor
  · have := h.length
    have := h'.length
    simp only [List.length_append]
    omega
  · intro he
    obtain ⟨he, he'⟩ := List.append_eq_nil_iff.1 he
    rw [h.same he, h'.same he']

theorem Inserted.eq_iff {base extra all : List JsString} (h : Inserted base extra all) :
    all = base ↔ extra = [] := by
  constructor
  · rintro rfl
    have := h.length
    exact List.eq_nil_of_length_eq_zero (by omega)
  · exact h.same

mutual

/-- The names of a message and of the messages and enums in it. -/
def ProtoType.namesIn : ProtoType → List JsString
  | .mk name _ _ _ nested => name :: namesInAll nested

def namesInAll : List ProtoNested → List JsString
  | [] => []
  | .type t :: nested => t.namesIn ++ namesInAll nested
  | .enum e :: nested => e.name :: namesInAll nested

end

theorem inserted_commentLine (comments : Comments) {indent : JsString} (h : IsIndent indent)
    (name : JsString) (rest : List JsString) :
    Inserted rest (escapedLines comments name)
      ((commentLine comments indent name).flatMap stripComments ++ rest) := by
  rw [stripComments_commentLine comments h]
  have hg := (Inserted.extra (escapedLines comments name)).append (Inserted.refl rest)
  rwa [List.append_nil] at hg

theorem inserted_enum (comments : Comments) (e : ProtoEnum) {indent : JsString}
    (h : IsIndent indent) :
    Inserted (stripComments (generateEnumProtoSource uncommented e indent))
      (escapedLines comments e.name)
      (stripComments (generateEnumProtoSource comments e indent)) := by
  have hnone : commentLine uncommented indent e.name = [] := rfl
  simp only [generateEnumProtoSource, hnone, stripComments_lines, List.flatMap_append,
    List.nil_append, List.append_assoc]
  exact inserted_commentLine comments h e.name _

/-- The lines of the fields of a oneof, without their comments. -/
theorem strip_oneofBlock (comments : Comments) (indent name : JsString)
    (fields : Js.Map JsString ProtoField) (oneof : OneOf) :
    (oneofBlock comments indent name fields oneof).flatMap stripComments =
      (oneofBlock uncommented indent name fields oneof).flatMap stripComments := by
  have hfield : ∀ fieldName : JsString, ((fields.get fieldName).map fun field =>
      innerIndent (innerIndent indent) ++
        generateOneofFieldProtoLine comments fieldName field name).map stripComments =
      ((fields.get fieldName).map fun field => innerIndent (innerIndent indent) ++
        generateOneofFieldProtoLine uncommented fieldName field name).map stripComments := by
    intro fieldName
    rw [Option.map_map, Option.map_map]
    exact congrArg (fun g => (fields.get fieldName).map g)
      (funext fun field => stripComments_protoLine comments _ _ _ _ _)
  have hfields : (oneof.oneof.filterMap fun fieldName => (fields.get fieldName).map fun field =>
      innerIndent (innerIndent indent) ++
        generateOneofFieldProtoLine comments fieldName field name).flatMap stripComments =
      (oneof.oneof.filterMap fun fieldName => (fields.get fieldName).map fun field =>
        innerIndent (innerIndent indent) ++
          generateOneofFieldProtoLine uncommented fieldName field name).flatMap stripComments := by
    rw [List.flatMap_def, List.flatMap_def, List.map_filterMap, List.map_filterMap]
    exact congrArg (fun g => (oneof.oneof.filterMap g).flatten) (funext hfield)
  simp only [oneofBlock, List.flatMap_append, hfields]

theorem strip_fields (comments : Comments) (indent name : JsString)
    (es : List (JsString × ProtoField)) :
    (es.map fun e => indent ++ generateFieldProtoLine comments e.1 e.2 name).flatMap stripComments =
      (es.map fun e => indent ++ generateFieldProtoLine uncommented e.1 e.2 name).flatMap
        stripComments := by
  rw [List.flatMap_map, List.flatMap_map]
  exact congrArg (fun g => es.flatMap g)
    (funext fun e => stripComments_protoLine comments _ _ _ _ _)

mutual

theorem inserted_message (comments : Comments) : ∀ (t : ProtoType) {indent : JsString},
    IsIndent indent → Inserted (stripComments (generateMessageProtoSource uncommented indent t))
      (t.namesIn.flatMap (escapedLines comments))
      (stripComments (generateMessageProtoSource comments indent t))
  | .mk name fullName fields oneofs nested, indent, h => by
    have hnone : commentLine uncommented indent name = [] := rfl
    have hblocks : ((realOneofs oneofs).flatMap (oneofBlock comments indent name fields)).flatMap
        stripComments = ((realOneofs oneofs).flatMap
          (oneofBlock uncommented indent name fields)).flatMap stripComments := by
      rw [List.flatMap_assoc, List.flatMap_assoc]
      exact congrArg (fun g => (realOneofs oneofs).flatMap g)
        (funext fun oneof => strip_oneofBlock comments indent name fields oneof)
    have hnested := inserted_nested comments nested h.inner
    have hg := inserted_commentLine comments h name
      (stripComments (indent ++ js "message " ++ name ++ js " \x7b"))
    have hg := (hg.append hnested).append (.refl (((realOneofs oneofs).flatMap
      (oneofBlock uncommented indent name fields)).flatMap stripComments ++
        ((fields.entries.filter fun e => e.1 ∉ (realOneofs oneofs).flatMap OneOf.oneof).map
          fun e => innerIndent indent ++ generateFieldProtoLine uncommented e.1 e.2 name).flatMap
            stripComments
        ++ stripComments (indent ++ js "\x7d")))
    simp only [generateMessageProtoSource, hnone, stripComments_lines, List.flatMap_append, hblocks,
      strip_fields comments (innerIndent indent) name, ProtoType.namesIn, List.flatMap_cons,
      List.flatMap_nil, List.append_nil, List.nil_append, List.append_assoc] at hg ⊢
    exact hg

theorem inserted_nested (comments : Comments) : ∀ (nested : List ProtoNested) {indent : JsString},
    IsIndent indent → Inserted ((nestedProtoSource uncommented indent nested).flatMap stripComments)
      ((namesInAll nested).flatMap (escapedLines comments))
      ((nestedProtoSource comments indent nested).flatMap stripComments)
  | [], _, _ => .refl []
  | .type t :: nested, indent, h => by
    have hg := (inserted_message comments t h).append (inserted_nested comments nested h)
    simp only [nestedProtoSource, namesInAll, List.flatMap_cons, List.flatMap_append]
    exact hg
  | .enum e :: nested, indent, h => by
    have hg := (inserted_enum comments e h).append (inserted_nested comments nested h)
    simp only [nestedProtoSource, namesInAll, List.flatMap_cons]
    exact hg

end

/-- Every line after the first of a comment on these names is blank without what follows `//` in
it. -/
def OneLine (comments : Comments) (names : List JsString) : Prop :=
  ∀ name ∈ names, ∀ comment, commentAt comments.message name = some comment →
    ∀ line ∈ ((trim comment).splitOn newLine).tail, stripLine line = []

theorem escapedLines_eq_nil {comments : Comments} {names : List JsString} :
    names.flatMap (escapedLines comments) = [] ↔ OneLine comments names := by
  rw [List.flatMap_eq_nil_iff]
  refine forall_congr' fun name => imp_congr_right fun _ => ?_
  unfold escapedLines
  rcases commentAt comments.message name with _ | comment
  · simp
  · simp only [Option.elim_some, List.filter_eq_nil_iff, List.forall_mem_map, decide_eq_true_eq,
      not_not, Option.some.injEq, forall_eq']

/-- With its comments taken out the source of a message or an enum is the one without comments, just
where no comment on it or in it goes on after its first line. -/
theorem stripComments_source_iff (comments : Comments) :
    (∀ type : ProtoType, stripComments (generateMessageProtoSource comments [] type) =
      stripComments (generateMessageProtoSource uncommented [] type) ↔
        OneLine comments type.namesIn) ∧
      ∀ e : ProtoEnum, stripComments (generateEnumProtoSource comments e []) =
        stripComments (generateEnumProtoSource uncommented e []) ↔ OneLine comments [e.name] := by
  have hindent : IsIndent [] := fun u hu => by cases hu
  constructor
  · intro type
    rw [(inserted_message comments type hindent).eq_iff, escapedLines_eq_nil]
  · intro e
    have hg := inserted_enum comments e hindent
    rw [hg.eq_iff, ← escapedLines_eq_nil, List.flatMap_singleton]

/-- The second line of the comment on a message is a line of the source. -/
theorem not_stripComments_source : ¬ ∀ (comments : Comments) (type : ProtoType),
    stripComments (generateMessageProtoSource comments [] type) =
      stripComments (generateMessageProtoSource uncommented [] type) := by
  intro h
  have hs := h ⟨Map.empty, Map.empty.set (js "User") (js "User" ++ newLine :: js "@see docs")⟩
    (.mk (js "User") (js ".User") Map.empty [] [])
  exact absurd hs (by decide)

end DiiaApp
