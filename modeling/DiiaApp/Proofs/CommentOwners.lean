import DiiaApp.ProtoComments
import DiiaApp.Proofs.RequiredFields

/-!
# Whose comments a schema shows

The comments are looked up by the short names of messages and enums. Each element gets its own
comment, and no other, just where no two elements of one short name differ in their comments, nor do
two of their fields of one name (`attributed_iff`).
-/

namespace DiiaApp

open Js

namespace Element

variable (x : Element)

/-- The comment on a message or an enum, as an entry. -/
def messageEntries : List (JsString × JsString) :=
  (ownComment x.comment).toList.map fun comment => (x.name.val, comment)

/-- The comment on a field, under its two keys. -/
def entriesOfField (field : Identifier × Option JsString) : List (JsString × JsString) :=
  (ownComment field.2).toList.flatMap fun comment =>
    [(fieldKey x.name field.1, comment), (fieldKey x.path field.1, comment)]

def fieldEntries : List (JsString × JsString) := x.fields.flatMap x.entriesOfField

end Element

theorem setFieldComment_eq (x : Element) (comments : Js.Map JsString JsString)
    (field : Identifier × Option JsString) :
    setFieldComment x.name x.path comments field = comments.setAll (x.entriesOfField field) := by
  unfold setFieldComment Element.entriesOfField
  rcases ownComment field.2 with _ | comment <;> rfl

theorem setFieldComments_eq (x : Element) (comments : Js.Map JsString JsString) :
    x.fields.foldl (setFieldComment x.name x.path) comments = comments.setAll x.fieldEntries := by
  rw [Map.setAll, Element.fieldEntries, List.foldl_flatMap]
  congr 1
  funext m field
  exact setFieldComment_eq x m field

theorem setMessageComment_eq (x : Element) (comments : Js.Map JsString JsString) :
    setMessageComment x.name x.comment comments = comments.setAll x.messageEntries := by
  unfold setMessageComment Element.messageEntries
  rcases ownComment x.comment with _ | comment <;> rfl

mutual

theorem fieldCommentsOf_eq (parentPath : JsString) : ∀ (comments : Js.Map JsString JsString) (o),
    fieldCommentsOf parentPath comments o
      = comments.setAll ((elementsOf parentPath o).flatMap Element.fieldEntries)
  | comments, .mk name (.type comment fields) nested => by
    have h := setFieldComments_eq ⟨pathIn parentPath name, name, true, comment, fields⟩ comments
    rw [fieldCommentsOf, elementsOf, List.flatMap_cons, Map.setAll_append, ← h]
    exact fieldCommentsIn_eq _ _ nested
  | comments, .mk name .plain nested => by
    rw [fieldCommentsOf, elementsOf]
    exact fieldCommentsIn_eq _ comments nested
  | _, .mk _ (.enum _) _ => by simp [fieldCommentsOf, elementsOf, Element.fieldEntries, Map.setAll]
  | _, .mk _ .other _ => by simp [fieldCommentsOf, elementsOf, Map.setAll]

theorem fieldCommentsIn_eq (parentPath : JsString) : ∀ (comments : Js.Map JsString JsString) (os),
    fieldCommentsIn parentPath comments os
      = comments.setAll ((elementsIn parentPath os).flatMap Element.fieldEntries)
  | _, [] => rfl
  | comments, o :: os => by
    rw [fieldCommentsIn, elementsIn, List.flatMap_append, Map.setAll_append,
      ← fieldCommentsOf_eq parentPath comments o]
    exact fieldCommentsIn_eq parentPath _ os

end

mutual

theorem messageCommentsOf_eq (parentPath : JsString) : ∀ (comments : Js.Map JsString JsString) (o),
    messageCommentsOf comments o
      = comments.setAll ((elementsOf parentPath o).flatMap Element.messageEntries)
  | comments, .mk name (.type comment fields) nested => by
    have h := setMessageComment_eq ⟨pathIn parentPath name, name, true, comment, fields⟩ comments
    rw [messageCommentsOf, elementsOf, List.flatMap_cons, Map.setAll_append, ← h]
    exact messageCommentsIn_eq _ _ nested
  | comments, .mk name .plain nested => by
    rw [messageCommentsOf, elementsOf]
    exact messageCommentsIn_eq _ comments nested
  | comments, .mk name (.enum comment) _ => by
    have h := setMessageComment_eq ⟨pathIn parentPath name, name, false, comment, []⟩ comments
    rw [messageCommentsOf, elementsOf, List.flatMap_singleton, ← h]
  | _, .mk _ .other _ => by simp [messageCommentsOf, elementsOf, Map.setAll]

theorem messageCommentsIn_eq (parentPath : JsString) : ∀ (comments : Js.Map JsString JsString) (os),
    messageCommentsIn comments os
      = comments.setAll ((elementsIn parentPath os).flatMap Element.messageEntries)
  | _, [] => rfl
  | comments, o :: os => by
    rw [messageCommentsIn, elementsIn, List.flatMap_append, Map.setAll_append,
      ← messageCommentsOf_eq parentPath comments o]
    exact messageCommentsIn_eq parentPath _ os

end

theorem path_pathIn (parentPath : JsString) (name : Identifier) :
    pathIn parentPath name = name ∨ dot ∈ pathIn parentPath name := by
  unfold pathIn
  split_ifs with h
  · exact .inl rfl
  · exact .inr (by simp)

mutual

/-- An element at the top has its name for a path, and the path of any other has a dot. -/
theorem path_elementsOf (parentPath : JsString) : ∀ o : DocObject, ∀ x ∈ elementsOf parentPath o,
    x.path = x.name ∨ dot ∈ x.path
  | .mk name (.type comment fields) nested => by
    rw [elementsOf, List.forall_mem_cons]
    exact ⟨path_pathIn parentPath name, path_elementsIn _ nested⟩
  | .mk name .plain nested => by
    rw [elementsOf]
    exact path_elementsIn _ nested
  | .mk name (.enum _) _ => by
    rw [elementsOf, List.forall_mem_singleton]
    exact path_pathIn parentPath name
  | .mk _ .other _ => by simp [elementsOf]

theorem path_elementsIn (parentPath : JsString) : ∀ os : List DocObject,
    ∀ x ∈ elementsIn parentPath os, x.path = x.name ∨ dot ∈ x.path
  | [] => by simp [elementsIn]
  | o :: os => by
    rw [elementsIn, List.forall_mem_append]
    exact ⟨path_elementsOf parentPath o, path_elementsIn parentPath os⟩

end

/-- The key of a name and a field has no other reading. -/
theorem fieldKey_inj {name field field' : Identifier} {path : JsString}
    (h : fieldKey name field = fieldKey path field') : name.val = path ∧ field = field' := by
  unfold fieldKey at h
  rw [List.append_assoc, List.append_assoc, List.singleton_append, List.singleton_append,
    List.append_cons_inj_of_notMem name.2.2 field.2.2] at h
  exact ⟨h.1, Subtype.ext h.2.2⟩

theorem ownComment_ne {comment : Option JsString} {c : JsString} (h : ownComment comment = some c) :
    c ≠ [] := by
  simpa using (Option.filter_eq_some_iff.1 h).2

theorem shortNameOf_dotless {name : JsString} (h : dot ∉ name) : shortNameOf name = name := by
  unfold shortNameOf
  rw [List.splitOn_eq_singleton h, List.getLast?_singleton]
  split <;> simp_all

namespace DocumentedRoot

variable (R : DocumentedRoot)

/-- The fields of the elements, each with its element. -/
def fieldsWithOwner : List (Element × Identifier × Option JsString) :=
  R.elements.flatMap fun x => x.fields.map fun f => (x, f)

variable {R}

theorem message_eq :
    R.comments.message = Map.empty.setAll (R.elements.flatMap Element.messageEntries) :=
  messageCommentsIn_eq [] Map.empty R.nested

theorem field_eq :
    R.comments.field = Map.empty.setAll (R.elements.flatMap Element.fieldEntries) :=
  fieldCommentsIn_eq [] Map.empty R.nested

theorem mem_fieldsWithOwner {x : Element} {f : Identifier × Option JsString} :
    (x, f) ∈ R.fieldsWithOwner ↔ x ∈ R.elements ∧ f ∈ x.fields := by
  simp [fieldsWithOwner]

/-- Each element finds its own comment under its name just where those of one name have one
comment. -/
theorem get_message_iff :
    (∀ x ∈ R.elements, R.comments.message.get x.name = ownComment x.comment) ↔
      ∀ x ∈ R.elements, ∀ y ∈ R.elements, x.name = y.name →
        ownComment x.comment = ownComment y.comment := by
  have hes : ∀ x ∈ R.elements, ∀ c,
      (x.name.val, c) ∈ R.elements.flatMap Element.messageEntries ↔
        ∃ y ∈ R.elements, y.name.val = x.name.val ∧ ownComment y.comment = some c := by
    intro x _ c
    simp [Element.messageEntries, and_comm]
  rw [message_eq, Map.get_setAll_iff hes]
  simp only [Subtype.val_inj]

theorem mem_fieldEntries {x : Element} (hx : x ∈ R.elements) {name field : Identifier}
    {c : JsString} : (fieldKey name field, c) ∈ x.fieldEntries ↔
      x.name = name ∧ ∃ f ∈ x.fields, f.1 = field ∧ ownComment f.2 = some c := by
  unfold Element.fieldEntries Element.entriesOfField
  constructor
  · intro h
    obtain ⟨f, hf, h⟩ := List.mem_flatMap.1 h
    obtain ⟨c', hc, h⟩ := List.mem_flatMap.1 h
    rw [Option.mem_toList] at hc
    rcases List.mem_pair.1 h with h | h <;> obtain ⟨hk, rfl⟩ := Prod.mk.inj h <;>
      obtain ⟨hn, rfl⟩ := fieldKey_inj hk
    · exact ⟨Subtype.ext hn.symm, f, hf, rfl, hc⟩
    · -- a path that is a name is that of an element at the top
      refine ⟨?_, f, hf, rfl, hc⟩
      rcases path_elementsIn [] R.nested x hx with hp | hp
      · exact Subtype.ext (hp.symm.trans hn.symm)
      · exact absurd (hn ▸ hp) name.2.2
  · rintro ⟨rfl, f, hf, rfl, hc⟩
    exact List.mem_flatMap.2 ⟨f, hf, List.mem_flatMap.2 ⟨c, Option.mem_toList.2 hc, by simp⟩⟩

/-- Each field finds its own comment under the name of its message just where those of one name, in
messages of one name, have one comment. -/
theorem get_field_iff :
    (∀ x ∈ R.elements, ∀ f ∈ x.fields,
      R.comments.field.get (fieldKey x.name f.1) = ownComment f.2) ↔
      ∀ x ∈ R.elements, ∀ y ∈ R.elements, x.name = y.name →
        ∀ f ∈ x.fields, ∀ g ∈ y.fields, f.1 = g.1 → ownComment f.2 = ownComment g.2 := by
  have hes : ∀ a ∈ R.fieldsWithOwner, ∀ c,
      (fieldKey a.1.name a.2.1, c) ∈ R.elements.flatMap Element.fieldEntries ↔
        ∃ b ∈ R.fieldsWithOwner, fieldKey b.1.name b.2.1 = fieldKey a.1.name a.2.1 ∧
          ownComment b.2.2 = some c := by
    rintro ⟨x, f⟩ - c
    rw [List.mem_flatMap]
    constructor
    · rintro ⟨y, hy, hm⟩
      obtain ⟨hn, g, hg, hf, hc⟩ := (mem_fieldEntries hy).1 hm
      exact ⟨(y, g), mem_fieldsWithOwner.2 ⟨hy, hg⟩, by rw [hn, hf], hc⟩
    · rintro ⟨⟨y, g⟩, hb, hk, hc⟩
      obtain ⟨hy, hg⟩ := mem_fieldsWithOwner.1 hb
      obtain ⟨hn, hf⟩ := fieldKey_inj hk
      exact ⟨y, hy, (mem_fieldEntries hy).2 ⟨Subtype.ext hn, g, hg, hf, hc⟩⟩
  have hiff := Map.get_setAll_iff hes
  rw [← field_eq] at hiff
  constructor
  · intro h x hx y hy hn f hf g hg hfg
    refine hiff.1 ?_ (x, f) (mem_fieldsWithOwner.2 ⟨hx, hf⟩) (y, g) (mem_fieldsWithOwner.2 ⟨hy, hg⟩)
      (by rw [hn, hfg])
    rintro ⟨z, k⟩ ha
    obtain ⟨hz, hk⟩ := mem_fieldsWithOwner.1 ha
    exact h z hz k hk
  · intro h x hx f hf
    refine hiff.2 ?_ (x, f) (mem_fieldsWithOwner.2 ⟨hx, hf⟩)
    rintro ⟨y, g⟩ hb ⟨z, k⟩ hc hk
    obtain ⟨hy, hg⟩ := mem_fieldsWithOwner.1 hb
    obtain ⟨hz, hk'⟩ := mem_fieldsWithOwner.1 hc
    obtain ⟨hn, hf⟩ := fieldKey_inj hk
    exact h y hy z hz (Subtype.ext hn) g hg k hk' hf

/-- What is found is not empty, as nothing empty is set. -/
theorem commentAt_setAll {es : List (JsString × JsString)} (h : ∀ e ∈ es, e.2 ≠ [])
    (key : JsString) :
    commentAt (Map.empty.setAll es) key = (Map.empty.setAll es).get key := by
  unfold commentAt
  rcases hg : (Map.empty.setAll es).get key with _ | c
  · rfl
  · rw [Option.filter_some, if_pos (by simpa using h _ (Map.mem_of_get_setAll hg))]

theorem commentAt_message (key : JsString) :
    commentAt R.comments.message key = R.comments.message.get key := by
  rw [message_eq]
  refine commentAt_setAll (fun e he => ?_) key
  obtain ⟨x, -, hx⟩ := List.mem_flatMap.1 he
  obtain ⟨c, hc, rfl⟩ := List.mem_map.1 hx
  exact ownComment_ne (Option.mem_toList.1 hc)

theorem commentAt_field (key : JsString) :
    commentAt R.comments.field key = R.comments.field.get key := by
  rw [field_eq]
  refine commentAt_setAll (fun e he => ?_) key
  obtain ⟨x, -, hx⟩ := List.mem_flatMap.1 he
  obtain ⟨f, -, hf⟩ := List.mem_flatMap.1 hx
  obtain ⟨c, hc, h⟩ := List.mem_flatMap.1 hf
  rcases List.mem_pair.1 h with rfl | rfl <;> exact ownComment_ne (Option.mem_toList.1 hc)

theorem getFieldComment_eq (name field : Identifier) :
    getFieldComment R.comments field name = R.comments.field.get (fieldKey name field) := by
  unfold getFieldComment
  rw [commentAt_field]
  rcases h : R.comments.field.get (fieldKey name field) with _ | c
  · rw [fieldKey] at h
    rw [h]
    exact if_neg name.2.2
  · rw [fieldKey] at h
    rw [h]

end DocumentedRoot

def Schema.description : Schema → Option JsString
  | .any description | .ref _ description | .primitive _ _ description | .enum _ description _
  | .array _ description | .map _ description | .object _ description _ _ => description

def describedBy (comment : Option JsString) (schema : Schema) : Schema :=
  (comment.map schema.withDescription).getD schema

/-- The name of a definition with a comment, where there is one. -/
def namedWith (comment : Option JsString) (definitionName : JsString) : JsString :=
  (comment.map fun c => definitionName ++ [newLine] ++ c).getD definitionName

/-- Wherever the generator shows a comment of a message, a field or an enum, it shows that element's
own comment, and none where it has none. -/
structure Attributed (R : DocumentedRoot) : Prop where
  schema : ∀ n type, foundType R.root n = some type → ∀ x ∈ R.elements, x.OfType type →
    (generateSchema R.root R.comments n).description = ownComment x.comment
  definitions : ∀ n d s, (generateSchema R.root R.comments n).defs.get d = some s →
    ∃ c ∈ searchCalls R.root R.comments n, c.Expands R.root ∧ c.definitionName = d ∧
      ∃ x ∈ R.elements, R.Finds c.typeName x ∧
        s.description = some (namedWith (ownComment x.comment) d)
  definition : ∀ x ∈ R.elements, ∀ n, shortNameOf n = x.name → ∀ d,
    definitionDescription R.comments d n = namedWith (ownComment x.comment) d
  sourceLine : ∀ x ∈ R.elements, ∀ indent, commentLine R.comments indent x.name
    = (ownComment x.comment).toList.map fun c => indent ++ js "// " ++ trim c
  field : ∀ x ∈ R.elements, ∀ f ∈ x.fields, ∀ schema,
    addFieldDescription R.comments schema f.1 x.name = describedBy (ownComment f.2) schema
  fieldLine : ∀ x ∈ R.elements, ∀ f ∈ x.fields, ∀ part field,
    protoLine R.comments part f.1 field x.name
      = part ++ js " " ++ f.1 ++ js " = " ++ decimal field.id ++ js ";"
        ++ ((ownComment f.2).map fun c => js " // " ++ cleanComment c).getD []

theorem namedWith_inj {comment comment' : Option JsString}
    (h : namedWith comment [] = namedWith comment' []) : comment = comment' := by
  rcases comment with _ | c <;> rcases comment' with _ | c' <;> simp_all [namedWith]

theorem describedBy_inj {comment comment' : Option JsString}
    (h : describedBy comment (.any none) = describedBy comment' (.any none)) :
    comment = comment' := by
  rcases comment with _ | c <;> rcases comment' with _ | c' <;>
    simp_all [describedBy, Schema.withDescription]

section

variable {R : DocumentedRoot}

theorem definitionDescription_eq {n : JsString} {name : Identifier} (hn : shortNameOf n = name)
    (d : JsString) : definitionDescription R.comments d n
      = namedWith (R.comments.message.get name) d := by
  unfold definitionDescription namedWith
  rw [R.commentAt_message, hn]
  rcases R.comments.message.get name.val with _ | c <;> rfl

theorem addFieldDescription_eq (schema : Schema) (name field : Identifier) :
    addFieldDescription R.comments schema field name
      = describedBy (R.comments.field.get (fieldKey name field)) schema := by
  unfold addFieldDescription describedBy
  rw [R.getFieldComment_eq]
  rcases R.comments.field.get (fieldKey name field) with _ | c <;> rfl

/-- The definition that a call makes shows the comment kept for the element it finds. -/
theorem Describes.description_eq {c : TypeCall} {s : Schema}
    (h : c.Describes R.root R.comments s) : ∃ x ∈ R.elements, R.Finds c.typeName x ∧
      s.description = some (definitionDescription R.comments c.definitionName c.typeName) ∧
      shortNameOf c.typeName = x.name := by
  rcases h with ⟨type, properties, ht, -, rfl⟩ | ⟨hn, e, he, rfl⟩
  · obtain ⟨x, hx, hxt⟩ := R.types type (R.root.lookupType_mem ht)
    exact ⟨x, hx, .inl ⟨type, ht, hxt⟩, rfl, (R.lookupType_name ht).trans hxt.2.2.1⟩
  · obtain ⟨x, hx, hxe⟩ := R.enums he
    exact ⟨x, hx, .inr ⟨hn, e, he, hxe⟩, rfl, (R.lookupEnum_name he).trans hxe.2.2⟩

theorem description_generateSchema {n : JsString} {type : ProtoType}
    (ht : foundType R.root n = some type) :
    (generateSchema R.root R.comments n).description
      = R.comments.message.get type.name := by
  have hl : R.root.lookupType n = some type := by
    unfold foundType at ht
    split_ifs at ht
    exact ht
  rw [← R.lookupType_name hl, ← R.commentAt_message]
  unfold foundType at ht
  rw [generateSchema, ht]
  rfl

end

/-- The comments that schemas show are those of the elements themselves just where messages and
enums of one name have the same comment, and so have fields of one name in messages of one name. -/
theorem attributed_iff (R : DocumentedRoot) : Attributed R ↔
    (∀ x ∈ R.elements, ∀ y ∈ R.elements, x.name = y.name →
      ownComment x.comment = ownComment y.comment) ∧
    ∀ x ∈ R.elements, ∀ y ∈ R.elements, x.name = y.name →
      ∀ f ∈ x.fields, ∀ g ∈ y.fields, f.1 = g.1 → ownComment f.2 = ownComment g.2 := by
  rw [← R.get_message_iff, ← R.get_field_iff]
  constructor
  · intro h
    refine ⟨fun x hx => ?_, fun x hx f hf => ?_⟩
    · have hn := shortNameOf_dotless x.name.2.2
      exact namedWith_inj ((definitionDescription_eq hn []).symm.trans (h.definition x hx _ hn []))
    · exact describedBy_inj ((addFieldDescription_eq (.any none) x.name f.1).symm.trans
        (h.field x hx f hf (.any none)))
  · rintro ⟨hmessage, hfield⟩
    refine ⟨fun n type ht x hx hxt => ?_, fun n d s hs => ?_, fun x hx n hn d => ?_,
      fun x hx indent => ?_, fun x hx f hf schema => ?_, fun x hx f hf part field => ?_⟩
    · rw [description_generateSchema ht, hxt.2.2.1, hmessage x hx]
    · obtain ⟨c, hc, he, rfl⟩ := (defs_has_iff R.root R.comments n d).1
        (Option.isSome_iff_exists.2 ⟨s, hs⟩)
      obtain ⟨⟨s', hs', hdesc⟩, -⟩ := (searchCalls_spec R.root R.comments n).2.2 c hc he
      obtain rfl := Option.some.inj (hs.symm.trans hs')
      obtain ⟨x, hx, hfinds, hd, hn⟩ := Describes.description_eq hdesc
      refine ⟨c, hc, he, rfl, x, hx, hfinds, ?_⟩
      rw [hd, definitionDescription_eq hn, hmessage x hx]
    · rw [definitionDescription_eq hn, hmessage x hx]
    · rw [commentLine, R.commentAt_message, hmessage x hx]
      rcases ownComment x.comment with _ | c <;> rfl
    · rw [addFieldDescription_eq, hfield x hx f hf]
    · rw [protoLine, R.getFieldComment_eq, hfield x hx f hf]
      rcases ownComment f.2 with _ | c <;> rfl

def orderPackage (package : Identifier) (comment : String) : DocObject :=
  .mk package .plain [.mk ⟨js "Order", by decide⟩ (.type (some (js comment)) []) []]

def orderIn (fullName : String) : ProtoType := .mk (js "Order") (js fullName) Map.empty [] []

def twoOrders : DocumentedRoot where
  root := rootOf [orderIn ".shop.Order", orderIn ".bank.Order"] []
  nested := [orderPackage ⟨js "shop", by decide⟩ "An order of goods.",
    orderPackage ⟨js "bank", by decide⟩ "A payment order."]
  paths := by decide
  types type ht := by
    rcases List.mem_pair.1 ht with rfl | rfl
    · exact ⟨_, List.mem_cons_self .., rfl, rfl, rfl, rfl⟩
    · exact ⟨_, List.mem_cons_of_mem _ (List.mem_cons_self ..), rfl, rfl, rfl, rfl⟩
  enums h := by cases h
  lookupType_name {n type} h := by
    have hn : withoutDot type.fullName = n := by simpa using List.find?_some h
    have hmem : type ∈ [orderIn ".shop.Order", orderIn ".bank.Order"] := ProtoRoot.lookupType_mem _ h
    rcases List.mem_pair.1 hmem with rfl | rfl <;> subst hn <;> rfl
  lookupEnum_name h := by cases h

/-- The order of the shop is described as one of the bank. -/
theorem not_attributed : ¬ Attributed twoOrders := by
  intro h
  have hown := h.schema (js "shop.Order") (orderIn ".shop.Order") rfl _
    (List.mem_cons_self ..) ⟨rfl, rfl, rfl, rfl⟩
  have hother : (generateSchema twoOrders.root twoOrders.comments (js "shop.Order")).description
      = some (js "A payment order.") := rfl
  exact absurd (hother.symm.trans hown) (by decide)

end DiiaApp
