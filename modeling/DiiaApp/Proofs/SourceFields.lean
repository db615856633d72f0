import DiiaApp.ProtoSource

/-!
# Fields in the proto source

The source of a message is the text of a message whose parts are known (`print_outline`): what is
nested in it, the blocks of its oneofs and the lines of its other fields. Where each oneof lists the
fields that belong to it, the lines in the blocks and outside them are those of its fields, each
once (`printings_perm`).
-/

namespace DiiaApp

open Js

/-- The word before the type of a field. -/
inductive Mark
  | none
  | repeated
  | optional

def Mark.text : Mark → JsString
  | none => []
  | repeated => js "repeated "
  | optional => js "optional "

structure FieldLine where
  mark : Mark
  name : JsString
  field : ProtoField

structure OneofText where
  name : JsString
  fields : List FieldLine

mutual

inductive MessageText
  | mk (name : JsString) (nested : List NestedText) (oneofs : List OneofText)
    (fields : List FieldLine)

inductive NestedText
  | message (m : MessageText)
  | enum (e : ProtoEnum)

end

section Print

variable (comments : Comments)

/-- The line of a field of the message `parentTypeName`, with its type, name and number and the
comment on it. -/
def FieldLine.text (parentTypeName : JsString) (l : FieldLine) : JsString :=
  l.mark.text ++ typePart l.field ++ js " " ++ l.name ++ js " = " ++ decimal l.field.id ++ js ";"
    ++ match getFieldComment comments l.name parentTypeName with
      | some comment => js " // " ++ cleanComment comment
      | none => []

def OneofText.print (indent parentTypeName : JsString) (o : OneofText) : List JsString :=
  [innerIndent indent ++ js "oneof " ++ o.name ++ js " \x7b"]
    ++ o.fields.map (fun l => innerIndent (innerIndent indent) ++ l.text comments parentTypeName)
    ++ [innerIndent indent ++ js "\x7d"]

mutual

def MessageText.print (indent : JsString) : MessageText → JsString
  | .mk name nested oneofs fields =>
    lines (commentLine comments indent name ++ [indent ++ js "message " ++ name ++ js " \x7b"]
      ++ printNested (innerIndent indent) nested
      ++ oneofs.flatMap (OneofText.print comments indent name)
      ++ fields.map (fun l => innerIndent indent ++ l.text comments name)
      ++ [indent ++ js "\x7d"])

def printNested (indent : JsString) : List NestedText → List JsString
  | [] => []
  | .message m :: nested => m.print indent :: [] :: printNested indent nested
  | .enum e :: nested =>
    generateEnumProtoSource comments e indent :: [] :: printNested indent nested

end

def fieldMark (field : ProtoField) : Mark :=
  if field.keyType.isSome then .none
  else if field.repeated then .repeated
  else if isExplicitlyOptional field then .optional
  else .none

def oneofText (fields : Js.Map JsString ProtoField) (o : OneOf) : OneofText where
  name := o.name
  fields := o.oneof.filterMap fun fieldName => (fields.get fieldName).map (⟨.none, fieldName, ·⟩)

/-- The fields that stand in no block. -/
def plainEntries (fields : Js.Map JsString ProtoField) (oneofs : List OneOf) :
    List (JsString × ProtoField) :=
  fields.entries.filter fun e => e.1 ∉ (realOneofs oneofs).flatMap OneOf.oneof

mutual

def ProtoType.outline : ProtoType → MessageText
  | .mk name _ fields oneofs nested =>
    .mk name (outlineNested nested) ((realOneofs oneofs).map (oneofText fields))
      ((plainEntries fields oneofs).map fun e => ⟨fieldMark e.2, e.1, e.2⟩)

def outlineNested : List ProtoNested → List NestedText
  | [] => []
  | .type t :: nested => .message t.outline :: outlineNested nested
  | .enum e :: nested => .enum e :: outlineNested nested

end

theorem print_oneofText (indent name : JsString) (fields : Js.Map JsString ProtoField) (o : OneOf) :
    (oneofText fields o).print comments indent name
      = oneofBlock comments indent name fields o := by
  rw [OneofText.print, oneofBlock, oneofText, List.map_filterMap]
  simp only [Option.map_map]
  rfl

theorem text_fieldMark (parentTypeName name : JsString) (field : ProtoField) :
    (FieldLine.mk (fieldMark field) name field).text comments parentTypeName
      = generateFieldProtoLine comments name field parentTypeName := by
  unfold generateFieldProtoLine FieldLine.text fieldMark
  dsimp only
  split_ifs <;> rfl

mutual

/-- The source of a type is the text of its outline. -/
theorem print_outline : ∀ (t : ProtoType) (indent : JsString),
    t.outline.print comments indent = generateMessageProtoSource comments indent t
  | .mk name _ fields oneofs nested, indent => by
    rw [ProtoType.outline, MessageText.print, generateMessageProtoSource, print_outlineNested,
      List.flatMap_map, List.map_map]
    simp only [print_oneofText, Function.comp_def, text_fieldMark]
    rfl

theorem print_outlineNested : ∀ (nested : List ProtoNested) (indent : JsString),
    printNested comments indent (outlineNested nested) =
      nestedProtoSource comments indent nested
  | [], _ => rfl
  | .type t :: nested, indent => by
    rw [outlineNested, printNested, nestedProtoSource, print_outline t, print_outlineNested nested]
  | .enum e :: nested, indent => by
    rw [outlineNested, printNested, nestedProtoSource, print_outlineNested nested]

end

end Print

/-- A line of a field and the oneof in whose block it stands, where it is in one. -/
structure Printing where
  block : Option JsString
  line : FieldLine

/-- All lines of fields of a message. -/
def printings (oneofs : List OneofText) (fields : List FieldLine) : List Printing :=
  oneofs.flatMap (fun o => o.fields.map (Printing.mk (some o.name)))
    ++ fields.map (Printing.mk none)

/-- The mark that a field is to have: none in the block of a oneof or where it is a map, `repeated`
where it is that, and `optional` where the name of its oneof starts with an underscore. -/
def ProtoField.mark (field : ProtoField) : Mark :=
  if field.partOf.any fun oneof => oneof.head? ≠ some 95 then .none
  else if field.keyType.isSome then .none
  else if field.repeated then .repeated
  else if field.partOf.isSome then .optional
  else .none

/-- The line that a field is to have, in the block of its oneof unless the name of that starts with
an underscore. -/
def ProtoField.printing (name : JsString) (field : ProtoField) : Printing where
  block := field.partOf.filter fun oneof => oneof.head? ≠ some 95
  line := ⟨field.mark, name, field⟩

mutual

/-- A text of a type has each of its fields once, where and as it is to be, and each nested message
and enum once, in order, with a text of it. -/
inductive Prints : ProtoType → MessageText → Prop
  | mk {name fullName : JsString} {fields : Js.Map JsString ProtoField} {oneofs : List OneOf}
      {nested : List ProtoNested} {nestedTexts : List NestedText} {oneofTexts : List OneofText}
      {fieldLines : List FieldLine} (hn : PrintsNested nested nestedTexts)
      (ho : oneofTexts.map OneofText.name = (realOneofs oneofs).map OneOf.name)
      (hf : (printings oneofTexts fieldLines).Perm
        (fields.entries.map fun e => e.2.printing e.1)) :
      Prints (.mk name fullName fields oneofs nested) (.mk name nestedTexts oneofTexts fieldLines)

inductive PrintsNested : List ProtoNested → List NestedText → Prop
  | nil : PrintsNested [] []
  | type {t : ProtoType} {m : MessageText} {nested : List ProtoNested} {texts : List NestedText}
      (h : Prints t m) (hn : PrintsNested nested texts) :
      PrintsNested (.type t :: nested) (.message m :: texts)
  | enum {e : ProtoEnum} {nested : List ProtoNested} {texts : List NestedText}
      (hn : PrintsNested nested texts) : PrintsNested (.enum e :: nested) (.enum e :: texts)

end

/-- Each oneof lists the fields that belong to it, and no other. -/
structure OneofsListed (fields : Js.Map JsString ProtoField) (oneofs : List OneOf) : Prop where
  names : (oneofs.map OneOf.name).Nodup
  distinct : ∀ o ∈ oneofs, o.oneof.Nodup
  known : ∀ o ∈ oneofs, ∀ name ∈ o.oneof, name ∈ fields.keys
  listed : ∀ e ∈ fields.entries, ∀ o ∈ oneofs, e.1 ∈ o.oneof ↔ e.2.partOf = some o.name
  belongs : ∀ e ∈ fields.entries, ∀ name ∈ e.2.partOf, name ∈ oneofs.map OneOf.name

mutual

/-- The oneofs of a type and of all types in it list the fields that belong to them. -/
def ProtoType.Listed : ProtoType → Prop
  | .mk _ _ fields oneofs nested => OneofsListed fields oneofs ∧ AllListed nested

def AllListed : List ProtoNested → Prop
  | [] => True
  | .type t :: nested => t.Listed ∧ AllListed nested
  | .enum _ :: nested => AllListed nested

end

section Partition

variable {fields : Js.Map JsString ProtoField} {oneofs : List OneOf}

theorem mem_realOneofs {o : OneOf} :
    o ∈ realOneofs oneofs ↔ o ∈ oneofs ∧ o.name.head? ≠ some 95 := by
  simp [realOneofs]

/-- A field that a real oneof lists is to stand in the block of that. -/
theorem OneofsListed.printing_block (h : OneofsListed fields oneofs) {e : JsString × ProtoField}
    (he : e ∈ fields.entries) {o : OneOf} (ho : o ∈ realOneofs oneofs) (hl : e.1 ∈ o.oneof) :
    e.2.printing e.1 = ⟨some o.name, .none, e.1, e.2⟩ := by
  obtain ⟨ho, hreal⟩ := mem_realOneofs.1 ho
  have hp := (h.listed e he o ho).1 hl
  simp [ProtoField.printing, ProtoField.mark, hp, hreal, Option.filter]

/-- Any other field is to stand outside, marked as it is. -/
theorem OneofsListed.printing_plain (h : OneofsListed fields oneofs) {e : JsString × ProtoField}
    (he : e ∈ plainEntries fields oneofs) :
    e.2.printing e.1 = ⟨none, fieldMark e.2, e.1, e.2⟩ := by
  obtain ⟨he, hout⟩ := List.mem_filter.1 he
  have hout : ∀ o ∈ realOneofs oneofs, e.1 ∉ o.oneof := fun o ho hl =>
    of_decide_eq_true hout (List.mem_flatMap.2 ⟨o, ho, hl⟩)
  have hreal : ∀ name, e.2.partOf = some name → name.head? = some 95 := by
    intro name hp
    by_contra hne
    obtain ⟨o, ho, rfl⟩ := List.mem_map.1 (h.belongs e he name hp)
    exact hout o (mem_realOneofs.2 ⟨ho, hne⟩) ((h.listed e he o ho).2 hp)
  rcases hp : e.2.partOf with _ | name
  · simp [ProtoField.printing, ProtoField.mark, fieldMark, isExplicitlyOptional, hp]
  · simp [ProtoField.printing, ProtoField.mark, fieldMark, isExplicitlyOptional, hp, hreal name hp,
      Option.filter]

/-- The lines of a field in the block of a oneof. -/
theorem mem_block {o : OneOf} {p : Printing} :
    p ∈ (oneofText fields o).fields.map (Printing.mk (some o.name)) ↔
      ∃ e ∈ fields.entries, e.1 ∈ o.oneof ∧ p = ⟨some o.name, .none, e.1, e.2⟩ := by
  simp only [oneofText, List.map_filterMap, List.mem_filterMap, Option.map_map,
    Option.map_eq_some_iff]
  constructor
  · rintro ⟨fieldName, hm, field, hg, rfl⟩
    exact ⟨(fieldName, field), Map.mem_entries.2 hg, hm, rfl⟩
  · rintro ⟨e, he, hm, rfl⟩
    exact ⟨e.1, hm, e.2, Map.mem_entries.1 he, rfl⟩

theorem mem_plain {p : Printing} :
    p ∈ ((plainEntries fields oneofs).map fun e =>
        (⟨fieldMark e.2, e.1, e.2⟩ : FieldLine)).map (Printing.mk none) ↔
      ∃ e ∈ plainEntries fields oneofs, p = ⟨none, fieldMark e.2, e.1, e.2⟩ := by
  rw [List.map_map, List.mem_map]
  simp only [eq_comm (a := p)]
  rfl

theorem OneofsListed.nodup (h : OneofsListed fields oneofs) :
    (printings ((realOneofs oneofs).map (oneofText fields))
      ((plainEntries fields oneofs).map fun e => ⟨fieldMark e.2, e.1, e.2⟩)).Nodup := by
  rw [printings, List.flatMap_map, List.nodup_append]
  refine ⟨List.nodup_flatMap.2 ⟨?_, ?_⟩, ?_, ?_⟩
  · -- a oneof lists no field twice
    intro o ho
    refine List.Nodup.of_map (fun p : Printing => p.line.name) ?_
    have hnames : ((oneofText fields o).fields.map
        (Printing.mk (some o.name))).map (fun p : Printing => p.line.name) =
        o.oneof.filterMap fun fieldName => (fields.get fieldName).map fun _ => fieldName := by
      rw [oneofText, List.map_filterMap, List.map_filterMap]
      simp only [Option.map_map]
      rfl
    rw [oneofText] at hnames ⊢
    rw [hnames]
    refine (h.distinct o (mem_realOneofs.1 ho).1).filterMap ?_
    intro a b c ha hb
    obtain ⟨-, -, rfl⟩ := Option.map_eq_some_iff.1 ha
    obtain ⟨-, -, rfl⟩ := Option.map_eq_some_iff.1 hb
    rfl
  · -- two oneofs have blocks of different names
    refine (List.Pairwise.filter _ (List.pairwise_map.1 h.names)).imp ?_
    intro o o' hne p hp hp'
    obtain ⟨e, -, -, rfl⟩ := mem_block.1 hp
    obtain ⟨e', -, -, he⟩ := mem_block.1 hp'
    exact hne (Option.some.inj (congrArg Printing.block he))
  · refine List.Nodup.of_map (fun p : Printing => p.line.name) ?_
    rw [List.map_map, List.map_map]
    exact fields.nodup.sublist (List.filter_sublist.map _)
  · intro p hp q hq he
    obtain ⟨o, -, hp⟩ := List.mem_flatMap.1 hp
    obtain ⟨e, -, -, rfl⟩ := mem_block.1 hp
    obtain ⟨e', -, rfl⟩ := mem_plain.1 hq
    cases congrArg Printing.block he

/-- The lines in the blocks and those outside are the lines that the fields are to have, each
once. -/
theorem OneofsListed.printings_perm (h : OneofsListed fields oneofs) :
    (printings ((realOneofs oneofs).map (oneofText fields))
      ((plainEntries fields oneofs).map fun e => ⟨fieldMark e.2, e.1, e.2⟩)).Perm
      (fields.entries.map fun e => e.2.printing e.1) := by
  have hnodup : (fields.entries.map fun e => e.2.printing e.1).Nodup := by
    refine List.Nodup.of_map (fun p : Printing => p.line.name) ?_
    rw [List.map_map]
    exact fields.nodup
  rw [List.perm_ext_iff_of_nodup h.nodup hnodup]
  intro p
  rw [printings, List.flatMap_map, List.mem_append, List.mem_flatMap, mem_plain, List.mem_map]
  constructor
  · rintro (⟨o, ho, hp⟩ | ⟨e, he, rfl⟩)
    · obtain ⟨e, he, hl, rfl⟩ := mem_block.1 hp
      exact ⟨e, he, h.printing_block he ho hl⟩
    · exact ⟨e, (List.mem_filter.1 he).1, h.printing_plain he⟩
  · rintro ⟨e, he, rfl⟩
    by_cases hin : e.1 ∈ (realOneofs oneofs).flatMap OneOf.oneof
    · obtain ⟨o, ho, hl⟩ := List.mem_flatMap.1 hin
      exact .inl ⟨o, ho, mem_block.2 ⟨e, he, hl, h.printing_block he ho hl⟩⟩
    · have hplain : e ∈ plainEntries fields oneofs := List.mem_filter.2 ⟨he, decide_eq_true hin⟩
      exact .inr ⟨e, hplain, h.printing_plain hplain⟩

end Partition

mutual

theorem prints_outline : ∀ {t : ProtoType}, t.Listed → Prints t t.outline
  | .mk name _ fields oneofs nested, h => by
    rw [ProtoType.outline]
    refine .mk (printsNested_outline h.2) ?_ h.1.printings_perm
    rw [List.map_map]
    rfl

theorem printsNested_outline : ∀ {nested : List ProtoNested},
    AllListed nested → PrintsNested nested (outlineNested nested)
  | [], _ => .nil
  | .type _ :: _, h => .type (prints_outline h.1) (printsNested_outline h.2)
  | .enum _ :: _, h => .enum (printsNested_outline h)

end

/-- A message with a oneof, an optional field, a map and a nested message. -/
def cardType : ProtoType :=
  .mk (js "Card") (js ".Card")
    (((((Map.empty.set (js "number") ⟨js "string", 1, none, false, none, some (js "id")⟩).set
      (js "token") ⟨js "string", 2, none, false, none, some (js "id")⟩).set
      (js "note") ⟨js "string", 3, none, false, none, some (js "_note")⟩).set
      (js "tags") ⟨js "string", 4, some (js "string"), false, none, none⟩))
    [⟨js "id", [js "token", js "number"]⟩, ⟨js "_note", [js "note"]⟩]
    [.type (.mk (js "Item") (js ".Card.Item")
      (Map.empty.set (js "names") ⟨js "string", 1, none, true, none, none⟩) [] [])]

end DiiaApp
