import Classwright.Proofs.Counts

/-!
# Annotations are found again as they were declared

What an annotation says is its type and its named values, with all texts and numbers in place of pool
indexes.  The attributes of a generated class file say what was declared: each annotation is in the
list for its retention, in order, and those of a parameter are in that parameter's row.
-/

namespace Classwright

/-- What an element of an annotation says; types are given by their descriptors. -/
inductive ElementContent where
  | boolean (value : Bool)
  | byte (value : Int8)
  | char (value : UInt16)
  | short (value : Int16)
  | int (value : Int32)
  | long (value : Int64)
  | float (bits : UInt32)
  | double (bits : UInt64)
  | string (value : String)
  | enum (descriptor name : String)
  | type (descriptor : String)
  | array (values : List ElementContent)
  | nested (descriptor : String) (elements : List (String × ElementContent))

structure AnnotationContent where
  descriptor : String
  elements : List (String × ElementContent)

namespace AnnotationValue

mutual

/-- What a declared value says.  The retention of a nested annotation does not matter. -/
def content : AnnotationValue → ElementContent
  | boolean b => .boolean b
  | byte v => .byte v
  | char v => .char v
  | short v => .short v
  | int v => .int v
  | long v => .long v
  | float bits => .float bits
  | double bits => .double bits
  | string s => .string s
  | enum owner name => .enum (JavaType.object owner).descriptor name
  | type t => .type t.descriptor
  | array values => .array (contents values)
  | nested interface _ elements => .nested (JavaType.object interface).descriptor (elementContents elements)

def contents : List AnnotationValue → List ElementContent
  | [] => []
  | v :: rest => content v :: contents rest

def elementContents : List (String × AnnotationValue) → List (String × ElementContent)
  | [] => []
  | (name, v) :: rest => (name, content v) :: elementContents rest

end

private theorem induction_each {P : AnnotationValue → Prop} (plain : ∀ v, v.isPlain = true → P v)
    (array : ∀ values, (∀ v ∈ values, P v) → P (.array values))
    (nested : ∀ interface retention elements, (∀ e ∈ elements, P e.2) →
      P (.nested interface retention elements)) (v : AnnotationValue) : P v := by
  apply @AnnotationValue.rec P (fun values => ∀ v ∈ values, P v) (fun elements => ∀ e ∈ elements, P e.2)
    (fun e => P e.2)
  case array => exact array
  case nested => exact nested
  case nil => simp
  case nil => simp
  case cons =>
    intro v rest hv hrest
    exact List.forall_mem_cons.mpr ⟨hv, hrest⟩
  case cons =>
    intro e rest he hrest
    exact List.forall_mem_cons.mpr ⟨he, hrest⟩
  case mk =>
    intro name v hv
    exact hv
  all_goals
    intros
    exact plain _ rfl

end AnnotationValue

namespace Annotation

def content (a : Annotation) : AnnotationContent where
  descriptor := (JavaType.object a.type).descriptor
  elements := AnnotationValue.elementContents a.elements

/-- Whether the annotation is listed among those that the running program can see, or among those that
it cannot. -/
def isListed (visible : Bool) (a : Annotation) : Bool :=
  match a.retention with
  | some .runtime => visible
  | some .classFile | none => !visible
  | some .source => false

def listed (visible : Bool) (declared : List Annotation) : List AnnotationContent :=
  (declared.filter (isListed visible)).map content

private theorem isListed_eq (visible : Bool) (a : Annotation) :
    a.isListed visible = (decide ((a.effectiveRetention == .runtime) = visible) && a.isKept) := by
  obtain ⟨type, retention, elements⟩ := a
  rcases retention with _ | _ | _ | _ <;> cases visible <;> rfl

end Annotation

open Annotation (storeKept isListed listed)
open KeptAnnotation (listName tableName)

namespace ElementContent

/-- What an integer with a tag says, if it is a value of the type with the tag. -/
def ofInteger? (tag : UInt8) (v : Int32) : Option ElementContent :=
  if tag = 0x5a then
    if v = 0 then some (.boolean false) else if v = 1 then some (.boolean true) else none
  else if tag = 0x42 then if v.toInt8.toInt32 = v then some (.byte v.toInt8) else none
  else if tag = 0x43 then
    if 0 ≤ v.toInt ∧ v.toInt < 65536 then some (.char (UInt16.ofNat v.toInt.toNat)) else none
  else if tag = 0x53 then if v.toInt16.toInt32 = v then some (.short v.toInt16) else none
  else if tag = 0x49 then some (.int v)
  else none

def ofEntry? (tag : UInt8) : Entry → Option ElementContent
  | .integer v => ofInteger? tag v
  | .long v => if tag = 0x4a then some (.long v) else none
  | .float bits => if tag = 0x46 then some (.float bits) else none
  | .double bits => if tag = 0x44 then some (.double bits) else none
  | .utf8 bytes => if tag = 0x73 then some (.string (ModifiedUtf8.decode bytes)) else none
  | _ => none

end ElementContent

namespace ClassFile

mutual

def content? (file : ClassFile) : ElementValue → Option ElementContent
  | .const tag index => (entryAt? file.pool index).bind (ElementContent.ofEntry? tag)
  | .enum type name => do
    let descriptor ← file.text? type
    let name ← file.text? name
    return .enum descriptor name
  | .classInfo descriptor => (file.text? descriptor).map .type
  | .array values => (contents? file values).map .array
  | .nested type elements => do
    let descriptor ← file.text? type
    let elements ← elementContents? file elements
    return .nested descriptor elements

def contents? (file : ClassFile) : List ElementValue → Option (List ElementContent)
  | [] => some []
  | v :: rest => do
    let head ← content? file v
    let rest ← contents? file rest
    return head :: rest

def elementContents? (file : ClassFile) :
    List (UInt16 × ElementValue) → Option (List (String × ElementContent))
  | [] => some []
  | (name, v) :: rest => do
    let name ← file.text? name
    let head ← content? file v
    let rest ← elementContents? file rest
    return (name, head) :: rest

end

def stored? (file : ClassFile) (s : StoredAnnotation) : Option AnnotationContent := do
  let descriptor ← file.text? s.type
  let elements ← file.elementContents? s.elements
  return { descriptor, elements }

def annotations? (file : ClassFile) : AttributeBody → Option (List AnnotationContent)
  | .annotations list => list.mapM file.stored?
  | _ => none

def parameterAnnotations? (file : ClassFile) : AttributeBody → Option (List (List AnnotationContent))
  | .parameterAnnotations table => table.mapM fun list => list.mapM file.stored?
  | _ => none

private theorem contents?_of_forall₂ {file : ClassFile} {values : List AnnotationValue}
    {stored : List ElementValue}
    (h : List.Forall₂ (fun v e => file.content? e = some v.content) values stored) :
    file.contents? stored = some (AnnotationValue.contents values) := by
  induction h with
  | nil => rfl
  | cons hhead _ ih => simp [contents?, AnnotationValue.contents, hhead, ih]

private theorem elementContents?_of_forall₂ {file : ClassFile}
    {elements : List (String × AnnotationValue)} {stored : List (UInt16 × ElementValue)}
    (h : List.Forall₂ (fun v e => file.text? e.1 = some v.1 ∧ file.content? e.2 = some v.2.content) elements
      stored) :
    file.elementContents? stored = some (AnnotationValue.elementContents elements) := by
  induction h with
  | nil => rfl
  | cons hhead _ ih => simp [elementContents?, AnnotationValue.elementContents, hhead, ih]

end ClassFile

/-- A constant says what was declared if it is read with the tag under which it was stored. -/
theorem AnnotationValue.ofEntry?_of_constant? {v : AnnotationValue} {tag : UInt8} {r : Pool.Request}
    (hv : v.constant? = some (tag, r)) {q : Pool} {entry : Entry} (h : q.StandsFor entry r) :
    ElementContent.ofEntry? tag entry = some v.content := by
  cases v with
  | boolean b =>
    cases hv
    cases h
    cases b <;> simp [ElementContent.ofEntry?, ElementContent.ofInteger?, content]
  | char v =>
    cases hv
    cases h
    have hlt := v.toNat_lt
    have hint : (Int32.ofNat v.toNat).toInt = v.toNat := Int32.toInt_ofNat_of_lt (by omega)
    simp [ElementContent.ofEntry?, ElementContent.ofInteger?, content, hint]
    omega
  | byte | short | int | long | float | double =>
    cases hv
    cases h
    simp [ElementContent.ofEntry?, ElementContent.ofInteger?, content]
  | string s =>
    cases hv
    obtain ⟨bytes, rfl, hbytes⟩ := h
    simp [ElementContent.ofEntry?, content, hbytes]
  | enum | type | array | nested => cases hv

section Stored

variable {file : ClassFile} {q : Pool} (hpool : file.pool = q.entries)
include hpool

private theorem ClassFile.text?_of_ran {text : String} {index : UInt16}
    (h : Ran q (pooled (Pool.utf8 text)) index) :
    file.text? index = some text :=
  text?_of_meaning? hpool (meaning?_of_ran (r := .utf8 text) h)

private theorem AnnotationValue.content?_of_isPlain {v : AnnotationValue} (hv : v.isPlain = true)
    {e : ElementValue} (h : Ran q v.store e) : file.content? e = some v.content := by
  cases hconstant : v.constant? with
  | some c =>
    obtain ⟨index, rfl, hmeaning⟩ := exists_const hconstant h
    obtain ⟨entry, hentry, hreading⟩ := Pool.meaning?_eq_some_iff.mp hmeaning
    have hentry : entryAt? file.pool index = some entry := hpool ▸ hentry
    rw [ClassFile.content?, hentry]
    exact ofEntry?_of_constant? hconstant (Pool.standsFor_of_reading? hreading)
  | none =>
    cases v with
    | enum owner name =>
      rw [store] at h
      obtain ⟨type, htype, h⟩ := h.of_bind (Grows.utf8 _) fun _ => (Grows.utf8 _).bind fun _ => .pure _
      obtain ⟨index, hindex, h⟩ := h.of_bind (Grows.utf8 _) fun _ => .pure _
      have htype := ClassFile.text?_of_ran hpool htype
      have hname := ClassFile.text?_of_ran hpool hindex
      rw [h.eq_of_pure]
      simp [ClassFile.content?, htype, hname, content]
    | type t =>
      rw [store] at h
      obtain ⟨index, hindex, h⟩ := h.of_bind (Grows.utf8 _) fun _ => .pure _
      have htext := ClassFile.text?_of_ran hpool hindex
      rw [h.eq_of_pure]
      simp [ClassFile.content?, htext, content]
    | array | nested => cases hv
    | _ => cases hconstant

private theorem AnnotationValue.elementContents?_of_storeElements
    {elements : List (String × AnnotationValue)}
    (ih : ∀ v ∈ elements, ∀ e, Ran q v.2.store e → file.content? e = some v.2.content)
    {out : List (UInt16 × ElementValue)} (h : Ran q (storeElements elements []) out) :
    file.elementContents? out = some (elementContents elements) := by
  obtain ⟨_, rfl, hstored⟩ := forall₂_of_storeElements h
  apply ClassFile.elementContents?_of_forall₂
  apply ((List.forall₂_and_left _ _).mpr ⟨ih, hstored⟩).imp
  rintro v e ⟨hcontent, hname, hran⟩
  exact ⟨ClassFile.text?_of_meaning? hpool hname, hcontent e.2 hran⟩

private theorem AnnotationValue.content?_of_store (v : AnnotationValue) :
    ∀ e, Ran q v.store e → file.content? e = some v.content := by
  induction v using induction_each with
  | plain v hv =>
    intro e he
    exact content?_of_isPlain hpool hv he
  | array values ih =>
    intro e he
    rw [store] at he
    obtain ⟨out, hout, he⟩ := he.of_bind (grows_storeValues values []) fun _ => .pure _
    obtain ⟨_, rfl, hstored⟩ := forall₂_of_storeValues hout
    have hcontents : file.contents? out = some (contents values) := by
      apply ClassFile.contents?_of_forall₂
      apply ((List.forall₂_and_left _ _).mpr ⟨ih, hstored⟩).imp
      rintro v e ⟨hcontent, hran⟩
      exact hcontent e hran
    rw [he.eq_of_pure]
    simp [ClassFile.content?, content, hcontents]
  | nested interface retention elements ih =>
    intro e he
    rw [store] at he
    obtain ⟨index, hindex, he⟩ := he.of_bind (Grows.utf8 _) fun _ =>
      (grows_storeElements elements []).bind fun _ => .pure _
    obtain ⟨out, hout, he⟩ := he.of_bind (grows_storeElements elements []) fun _ => .pure _
    have htype := ClassFile.text?_of_ran hpool hindex
    have helements := elementContents?_of_storeElements hpool ih hout
    rw [he.eq_of_pure]
    simp [ClassFile.content?, content, htype, helements]

private theorem Annotation.stored?_of_store {a : Annotation} {kept : KeptAnnotation}
    (h : Ran q a.store kept) :
    kept.visible = (a.effectiveRetention == .runtime) ∧ file.stored? kept.stored = some a.content := by
  obtain ⟨type, htype, h⟩ := h.of_bind (Grows.utf8 _) fun _ =>
    (AnnotationValue.grows_storeElements a.elements []).bind fun _ => .pure _
  obtain ⟨out, hout, h⟩ := h.of_bind (AnnotationValue.grows_storeElements a.elements []) fun _ => .pure _
  have htype := ClassFile.text?_of_ran hpool htype
  have helements := AnnotationValue.elementContents?_of_storeElements hpool
    (fun v _ => AnnotationValue.content?_of_store hpool v.2) hout
  rw [h.eq_of_pure]
  refine ⟨rfl, ?_⟩
  simp [ClassFile.stored?, htype, helements, content]

private theorem KeptAnnotation.forall₂_withVisibility (visible : Bool) {declared : List Annotation}
    {kept : List KeptAnnotation} (h : Ran q (storeKept declared) kept) :
    List.Forall₂ (fun a s => file.stored? s = some a.content)
      (declared.filter (isListed visible)) (withVisibility visible kept) := by
  have hlisted : declared.filter (isListed visible) =
      (declared.filter Annotation.isKept).filter
        fun a => decide ((a.effectiveRetention == .runtime) = visible) := by
    rw [List.filter_filter]
    exact List.filter_congr fun a _ => Annotation.isListed_eq visible a
  have hkept := (h.of_mapM grows_storeAnnotated).imp fun a k => Annotation.stored?_of_store hpool
  rw [hlisted, withVisibility]
  clear h
  generalize declared.filter Annotation.isKept = annotations at hkept
  induction hkept with
  | nil => exact .nil
  | @cons a k annotations kept hhead _ ih =>
    obtain ⟨hvisible, hstored⟩ := hhead
    by_cases hsame : k.visible = visible
    · simp only [List.filter_cons, List.filterMap_cons, ← hvisible, hsame, decide_true, ↓reduceIte]
      exact .cons hstored ih
    · simp only [List.filter_cons, List.filterMap_cons, ← hvisible, hsame, decide_false, ↓reduceIte,
        Bool.false_eq_true]
      exact ih

end Stored

private theorem mapM_eq_some_of_forall₂ {α β γ : Type} {f : β → Option γ} {g : α → γ} {as : List α}
    {bs : List β}
    (h : List.Forall₂ (fun a b => f b = some (g a)) as bs) : bs.mapM f = some (as.map g) := by
  induction h with
  | nil => rfl
  | cons hhead _ ih => simp [hhead, ih]

private theorem forall_mem_iff_of_forall₂ {α β : Type} {P : α → Prop} {Q : β → Prop} {as : List α}
    {bs : List β} (h : List.Forall₂ (fun a b => P a ↔ Q b) as bs) : (∀ a ∈ as, P a) ↔ ∀ b ∈ bs, Q b := by
  induction h with
  | nil => simp
  | cons hhead _ ih => simp [hhead, ih]

namespace MethodDecl

private theorem slotsFrom_eq (next : Nat) (done : List Nat) (parameters : List Parameter) :
    slotsFrom next done parameters = done.reverse ++ slotsFrom next [] parameters := by
  induction parameters generalizing next done with
  | nil => simp [slotsFrom]
  | cons p rest ih =>
    rw [slotsFrom, ih, slotsFrom, ih _ [next]]
    simp

theorem length_slotsFrom (next : Nat) (parameters : List Parameter) :
    (slotsFrom next [] parameters).length = parameters.length := by
  induction parameters generalizing next with
  | nil => rfl
  | cons p rest ih =>
    rw [slotsFrom, slotsFrom_eq]
    simp [ih]

private theorem pairwise_slotsFrom {parameters : List Parameter}
    (h : ∀ p ∈ parameters, p.type.isVoid = false)
    (next : Nat) : (slotsFrom next [] parameters).Pairwise (· < ·) ∧
      ∀ slot ∈ slotsFrom next [] parameters, next ≤ slot := by
  induction parameters generalizing next with
  | nil => simp [slotsFrom]
  | cons p rest ih =>
    obtain ⟨hp, hrest⟩ := List.forall_mem_cons.mp h
    obtain ⟨kind, -, hwidth⟩ := JavaType.exists_kind? hp
    have hpos := Kind.width_pos kind
    obtain ⟨hpairwise, hle⟩ := ih hrest (next + p.type.width)
    rw [slotsFrom, slotsFrom_eq]
    simp only [List.reverse_singleton, List.singleton_append, List.pairwise_cons, List.mem_cons]
    refine ⟨⟨fun slot hslot => ?_, hpairwise⟩, ?_⟩
    · have hslot := hle slot hslot
      omega
    · rintro slot (rfl | hslot)
      · exact Nat.le_refl _
      · have hslot := hle slot hslot
        omega

end MethodDecl

namespace KeptAnnotation

private theorem filter_slot {α : Type} {all : List (Nat × α)} (hnodup : (all.map Prod.fst).Nodup)
    {p : Nat × α} (hp : p ∈ all) : all.filter (·.1 = p.1) = [p] := by
  induction all with
  | nil => cases hp
  | cons a rest ih =>
    obtain ⟨hnew, hnodup⟩ := List.nodup_cons.mp hnodup
    rcases List.mem_cons.mp hp with rfl | hp
    · rw [List.filter_cons_of_pos (by simp), List.filter_eq_nil_iff.mpr]
      intro other hother hslot
      exact hnew (List.mem_map.mpr ⟨other, hother, by simpa using hslot⟩)
    · rw [List.filter_cons_of_neg, ih hnodup hp]
      intro hslot
      exact hnew (List.mem_map.mpr ⟨p, hp, by simpa using (of_decide_eq_true hslot).symm⟩)

/-- If no slots are shared, each row has the annotations of its own parameter. -/
theorem rowsAfter_eq_map {all rest : List (Nat × List StoredAnnotation)}
    (hall : (all.map Prod.fst).Nodup) (hrest : (rest.map Prod.fst).Nodup) (hsub : ∀ p ∈ rest, p ∈ all)
    {seen : List Nat} (hseen : ∀ p ∈ rest, p.1 ∉ seen) : rowsAfter seen all rest = rest.map Prod.snd := by
  induction rest generalizing seen with
  | nil => rfl
  | cons p rest ih =>
    obtain ⟨hnew, hrest⟩ := List.nodup_cons.mp hrest
    obtain ⟨hp, hsub⟩ := List.forall_mem_cons.mp hsub
    obtain ⟨hunseen, hseen⟩ := List.forall_mem_cons.mp hseen
    have hothers : ∀ other ∈ rest, other.1 ∉ p.1 :: seen := by
      intro other hother hmem
      rcases List.mem_cons.mp hmem with heq | hmem
      · exact hnew (heq ▸ List.mem_map_of_mem hother)
      · exact hseen other hother hmem
    simp [rowsAfter, hunseen, filter_slot hall hp, ih hrest hsub hothers]

private theorem rowsAfter_zip {slots : List Nat} {rows : List (List StoredAnnotation)}
    (hslots : slots.Nodup)
    (hlength : slots.length = rows.length) : rowsAfter [] (slots.zip rows) (slots.zip rows) = rows := by
  have hfst : (slots.zip rows).map Prod.fst = slots := List.map_fst_zip (Nat.le_of_eq hlength)
  rw [← hfst] at hslots
  rw [rowsAfter_eq_map hslots hslots (fun _ h => h) (by simp)]
  exact List.map_snd_zip (Nat.le_of_eq hlength.symm)

end KeptAnnotation

namespace ClassFile

section Carries

variable {α : Type} (file : ClassFile) (attributes : List Attribute) (name : String)
  (read? : AttributeBody → Option α) (nothing : Prop) (expected : α)

/-- There is one attribute with the name, which says what is expected; there is none if nothing is to be
said. -/
structure Carries : Prop where
  once : (attributes.filter fun a => file.text? a.name == some name).length ≤ 1
  absent_iff : file.attribute? attributes name = none ↔ nothing
  found : ¬ nothing → (file.bodyOf? attributes name).bind read? = some expected

inductive Writes : List Attribute → Prop where
  | absent (h : nothing) : Writes []
  | single {a : Attribute} {x : AttributeBody} (h : ¬ nothing) (text : file.text? a.name = some name)
      (body : a.body = x.encode) (mem : name ∈ x.names) (wellFormed : x.WellFormed)
      (read : read? x = some expected) : Writes [a]

variable {file attributes name read? nothing expected} {out : List Attribute}

private theorem Writes.text? (h : file.Writes name read? nothing expected out) :
    ∀ a ∈ out, file.text? a.name = some name := by
  cases h with
  | absent => simp
  | single _ text => simpa using text

/-- What was written is found among other attributes if these have other names. -/
theorem Writes.carries (h : file.Writes name read? nothing expected out)
    (hfilter : (attributes.filter fun a => file.text? a.name == some name) = out) :
    file.Carries attributes name read? nothing expected := by
  have hfind : file.attribute? attributes name = out.head? := by
    rw [attribute?, ← hfilter, List.head?_filter]
  cases h with
  | absent hnothing =>
    exact ⟨by simp [hfilter], by simp [hfind, hnothing], fun h => absurd hnothing h⟩
  | single hsome text body mem wellFormed read =>
    refine ⟨by simp [hfilter], by simp [hfind, hsome], fun _ => ?_⟩
    rw [bodyOf?, hfind, List.head?_singleton]
    dsimp only
    rw [body, wellFormed.decode?_eq mem]
    exact read

private theorem filter_of_text? {other : String} (h : ∀ a ∈ out, file.text? a.name = some other) :
    (out.filter fun a => file.text? a.name == some name) = if other = name then out else [] := by
  split
  · rename_i heq
    apply List.filter_eq_self.mpr
    intro a ha
    simp [h a ha, heq]
  · rename_i hne
    apply List.filter_eq_nil_iff.mpr
    intro a ha
    simp [h a ha, hne]

end Carries

/-- The attributes say which annotations a declaration and its parameters have, and nothing else about
annotations. -/
structure Annotated (file : ClassFile) (attributes : List Attribute) (declared : List Annotation)
    (parameters : List Parameter) : Prop where
  own : ∀ visible, file.Carries attributes (listName visible) file.annotations?
    (listed visible declared = []) (listed visible declared)
  /-- One list for each parameter, if any parameter has annotations. -/
  ofParameters : ∀ visible, file.Carries attributes (tableName visible)
    file.parameterAnnotations? (∀ p ∈ parameters, Annotation.listed visible p.annotations = [])
    (parameters.map fun p => Annotation.listed visible p.annotations)

private theorem annotated_of_writes {file : ClassFile} {front : List Attribute} {frontName : String}
    (hfront : ∀ a ∈ front, file.text? a.name = some frontName)
    (hname : frontName ∈ ["SourceFile", "ConstantValue", "Code"]) {declared : List Annotation}
    {parameters : List Parameter} {lists tables : Bool → List Attribute}
    (hlists : ∀ visible, file.Writes (listName visible) file.annotations?
      (listed visible declared = []) (listed visible declared) (lists visible))
    (htables : ∀ visible, file.Writes (tableName visible) file.parameterAnnotations?
      (∀ p ∈ parameters, Annotation.listed visible p.annotations = [])
      (parameters.map fun p => Annotation.listed visible p.annotations) (tables visible)) :
    file.Annotated (front ++ (lists true ++ lists false ++ (tables true ++ tables false))) declared
      parameters := by
  simp only [List.mem_cons, List.not_mem_nil, or_false] at hname
  refine ⟨fun visible => (hlists visible).carries ?_, fun visible => (htables visible).carries ?_⟩
  all_goals
    simp only [List.filter_append, filter_of_text? hfront, filter_of_text? (hlists _).text?,
      filter_of_text? (htables _).text?]
    rcases hname with rfl | rfl | rfl <;> cases visible <;>
      simp [listName, tableName]

end ClassFile

namespace KeptAnnotation

variable {file : ClassFile} {q : Pool} (hpool : file.pool = q.entries)
include hpool

section Own

variable {declared : List Annotation} {kept : List KeptAnnotation}
  (hkept : Ran q (storeKept declared) kept)
include hkept

private theorem mapM_withVisibility (visible : Bool) :
    (withVisibility visible kept).mapM file.stored? = some (listed visible declared) :=
  mapM_eq_some_of_forall₂ (forall₂_withVisibility hpool visible hkept)

theorem withVisibility_eq_nil_iff (visible : Bool) :
    withVisibility visible kept = [] ↔ Annotation.listed visible declared = [] := by
  have hlength := (forall₂_withVisibility hpool visible hkept).length_eq
  rw [← List.length_eq_zero_iff, ← hlength, List.length_eq_zero_iff, Annotation.listed, List.map_eq_nil_iff]

end Own

private theorem Attached.writes {declared : List Annotation} {out : List Attribute}
    (h : Attached q declared out) (hdeclared : ∀ a ∈ declared, a.isKept = true → a.Countable) :
    ∃ lists : Bool → List Attribute, out = lists true ++ lists false ∧ ∀ visible,
      file.Writes (listName visible) file.annotations? (listed visible declared = [])
        (listed visible declared) (lists visible) := by
  obtain ⟨kept, hkept, h⟩ := h
  obtain ⟨lists, rfl, hlists⟩ := exists_of_attributes h
  refine ⟨lists, rfl, fun visible => ?_⟩
  have hempty := withVisibility_eq_nil_iff hpool hkept visible
  rcases listAttribute_cases (hlists visible) with ⟨hnil, hnone⟩ | ⟨hne, hlength, a, hone, hbody, hname⟩
  · rw [hnone]
    exact .absent (hempty.mp hnil)
  · rw [hone]
    refine .single (fun hnil => hne (hempty.mpr hnil)) (ClassFile.text?_of_meaning? hpool hname) hbody ?_
      ⟨hlength, fun s hs => ?_⟩ (mapM_withVisibility hpool hkept visible)
    · cases visible <;> simp [AttributeBody.names, listName]
    · exact (forall_withVisibility (of_of_ran hkept) visible s hs).wellFormed hdeclared

/-- The attributes for the annotations of parameters say what was declared, if no parameters share a
slot. -/
theorem AttachedTo.writes {slots : List Nat} {parameters : List Parameter} {out : List Attribute}
    (h : AttachedTo q slots parameters out) (hslots : slots.Nodup)
    (hlength : slots.length = parameters.length)
    (hdeclared : ∀ p ∈ parameters, ∀ a ∈ p.annotations, a.isKept = true → a.Countable) :
    ∃ tables : Bool → List Attribute, out = tables true ++ tables false ∧ ∀ visible,
      file.Writes (tableName visible) file.parameterAnnotations?
        (∀ p ∈ parameters, Annotation.listed visible p.annotations = [])
        (parameters.map fun p => Annotation.listed visible p.annotations) (tables visible) := by
  obtain ⟨keptBy, hkeptBy, h⟩ := h
  obtain ⟨hcount, tables, rfl, htables⟩ := exists_of_parameterAttributes h
  refine ⟨tables, rfl, fun visible => ?_⟩
  have hrows : slots.length = (keptBy.map (withVisibility visible)).length := by
    rw [List.length_map, hlength, hkeptBy.length_eq]
  have hselect : ((slots.zip keptBy).map fun p => (p.1, withVisibility visible p.2)) =
      slots.zip (keptBy.map (withVisibility visible)) := by
    rw [List.zip_map_right]
    rfl
  have hempty : (∀ p ∈ slots.zip (keptBy.map (withVisibility visible)), p.2 = []) ↔
      ∀ p ∈ parameters, Annotation.listed visible p.annotations = [] := by
    rw [← List.forall_mem_map (f := Prod.snd) (P := (· = [])), List.map_snd_zip (Nat.le_of_eq hrows.symm),
      List.forall_mem_map]
    exact (forall_mem_iff_of_forall₂ (hkeptBy.imp fun p kept hkept =>
      (withVisibility_eq_nil_iff hpool hkept visible).symm)).symm
  have htable := htables visible
  rw [hselect] at htable
  rcases tableAttribute_cases htable with ⟨hnil, hnone⟩ | ⟨hsome, hlengths, a, hone, hbody, hname⟩
  · rw [hnone]
    exact .absent (hempty.mp hnil)
  · rw [rowsAfter_zip hslots hrows] at hbody hlengths
    rw [hone]
    refine .single (fun hnil => hsome (hempty.mpr hnil)) (ClassFile.text?_of_meaning? hpool hname) hbody
      ?_ ⟨?_, fun row hrow => ⟨hlengths row hrow, fun s hs => ?_⟩⟩ ?_
    · cases visible <;> simp [AttributeBody.names, tableName]
    · rw [List.length_zip] at hcount
      rw [List.length_map] at hrows ⊢
      omega
    · obtain ⟨kept, hkept, rfl⟩ := List.mem_map.mp hrow
      obtain ⟨p, hp, hran⟩ := exists_left_of_forall₂ hkeptBy hkept
      exact (forall_withVisibility (of_of_ran hran) visible s hs).wellFormed (hdeclared p hp)
    · apply mapM_eq_some_of_forall₂
      rw [List.forall₂_map_right_iff]
      exact hkeptBy.imp fun p kept hkept => mapM_withVisibility hpool hkept visible

end KeptAnnotation

/-!
## Annotations that end with the source
-/

/-- The parameter without annotations that end with the source. -/
def Parameter.withoutSource (p : Parameter) : Parameter :=
  { p with annotations := p.annotations.filter Annotation.isKept }

def FieldDecl.withoutSource (f : FieldDecl) : FieldDecl :=
  { f with annotations := f.annotations.filter Annotation.isKept }

def MethodDecl.withoutSource (m : MethodDecl) : MethodDecl :=
  { m with
    parameters := m.parameters.map Parameter.withoutSource
    annotations := m.annotations.filter Annotation.isKept }

def ClassDecl.withoutSource (c : ClassDecl) : ClassDecl :=
  { c with
    fields := c.fields.map FieldDecl.withoutSource
    methods := c.methods.map MethodDecl.withoutSource
    annotations := c.annotations.filter Annotation.isKept }

private theorem Annotation.storeKept_filter (declared : List Annotation) :
    storeKept (declared.filter isKept) = storeKept declared := by
  simp [storeKept, List.filter_filter]

private theorem FieldDecl.generate_withoutSource (f : FieldDecl) :
    f.withoutSource.generate = f.generate := by
  have hvalue : f.withoutSource.valueAttribute = f.valueAttribute := rfl
  simp only [generate, hvalue]
  simp only [withoutSource, Annotation.storeKept_filter]

namespace MethodDecl

private theorem slotsFrom_withoutSource (next : Nat) (done : List Nat) (parameters : List Parameter) :
    slotsFrom next done (parameters.map Parameter.withoutSource) = slotsFrom next done parameters := by
  induction parameters generalizing next done with
  | nil => rfl
  | cons p rest ih => exact ih _ _

private theorem generate_withoutSource (options : Options) (c : ClassDecl) (fields : List Initializer)
    (m : MethodDecl) :
    m.withoutSource.generate options c.withoutSource fields = m.generate options c fields := by
  -- code depends on no annotations, neither of the method nor of its class
  have hcode : m.withoutSource.codeAttributes options c.withoutSource fields =
      m.codeAttributes options c fields := rfl
  have hslots : m.withoutSource.parameterSlots = m.parameterSlots := slotsFrom_withoutSource _ _ _
  have hcheck : m.withoutSource.checkSlots = m.checkSlots := by
    rw [checkSlots, checkSlots, withoutSource, List.map_map]
    rfl
  have hdescriptor : m.withoutSource.descriptor = m.descriptor := by
    rw [descriptor, descriptor, withoutSource, List.map_map]
    rfl
  have hparameters : (m.withoutSource.parameters.mapM fun p => Annotation.storeKept p.annotations) =
      m.parameters.mapM fun p => Annotation.storeKept p.annotations := by
    simp only [withoutSource, List.mapM_map, Parameter.withoutSource, Function.comp_def,
      Annotation.storeKept_filter]
  simp only [generate, hcode, hslots, hcheck, hdescriptor, hparameters]
  simp only [withoutSource, Annotation.storeKept_filter]

end MethodDecl

namespace ClassDecl

private theorem initializers_withoutSource (c : ClassDecl) :
    c.withoutSource.initializers = c.initializers := by
  have htypes : c.withoutSource.fieldTypes = c.fieldTypes := by
    simp only [fieldTypes, withoutSource, List.foldl_map]
    rfl
  simp only [initializers, htypes]
  simp only [withoutSource, List.filterMap_map]
  rfl

private theorem allMethods_withoutSource (c : ClassDecl) :
    c.withoutSource.allMethods = c.allMethods.map MethodDecl.withoutSource := by
  have hany : c.withoutSource.methods.any MethodDecl.isStaticInitializer =
      c.methods.any MethodDecl.isStaticInitializer := by
    simp only [withoutSource, List.any_map]
    rfl
  simp only [allMethods, initializers_withoutSource, hany]
  split
  · rfl
  · rw [List.map_append]
    rfl

private theorem generateMethods_withoutSource (options : Options) (c : ClassDecl)
    (fields : List Initializer) (done : List Member) (methods : List MethodDecl) :
    generateMethods options c.withoutSource fields done (methods.map MethodDecl.withoutSource) =
      generateMethods options c fields done methods := by
  induction methods generalizing fields done with
  | nil => rfl
  | cons m rest ih =>
    have hstatic : m.withoutSource.isStaticInitializer = m.isStaticInitializer := rfl
    have hbody : m.withoutSource.body? = m.body? := rfl
    simp only [List.map_cons, generateMethods, MethodDecl.generate_withoutSource, ih, hstatic, hbody]

/-- Annotations that end with the source leave no trace in the class file, nor in its pool. -/
theorem generate_withoutSource (options : Options) (c : ClassDecl) :
    c.withoutSource.generate options = c.generate options := by
  have hsuper : c.withoutSource.superIndex = c.superIndex := rfl
  have hsource : c.withoutSource.sourceAttribute = c.sourceAttribute := rfl
  have hfields : c.withoutSource.fields.mapM FieldDecl.generate = c.fields.mapM FieldDecl.generate := by
    simp only [withoutSource, List.mapM_map, Function.comp_def, FieldDecl.generate_withoutSource]
  have hmethods : generateMethods options c.withoutSource c.withoutSource.initializers []
      c.withoutSource.allMethods = generateMethods options c c.initializers [] c.allMethods := by
    rw [initializers_withoutSource, allMethods_withoutSource, generateMethods_withoutSource]
  have hbuild : c.withoutSource.build options = c.build options := by
    simp only [build, hsuper, hsource, hfields, hmethods]
    simp only [withoutSource, Annotation.storeKept_filter]
  rw [generate, generate, hbuild]

end ClassDecl

/-!
## Annotations of a generated class
-/

namespace ClassDecl

variable {options : Options} {c : ClassDecl} {file : ClassFile} {q : Pool}

section Generated

variable (h : c.Generated options file q)
include h

private theorem Generated.annotated {front own : List Attribute} {frontName : String}
    (hfront : ∀ a ∈ front, ∃ x, a.Holds q frontName x)
    (hname : frontName ∈ ["SourceFile", "ConstantValue", "Code"]) {declared : List Annotation}
    (hown : KeptAnnotation.Attached q declared own)
    (hdeclared : ∀ a ∈ declared, a.isKept = true → a.Countable) :
    file.Annotated (front ++ own) declared [] := by
  obtain ⟨lists, rfl, hlists⟩ := hown.writes h.pool hdeclared
  have hnone : ∀ visible, file.Writes (tableName visible) file.parameterAnnotations?
      (∀ p ∈ ([] : List Parameter), Annotation.listed visible p.annotations = [])
      (([] : List Parameter).map fun p => Annotation.listed visible p.annotations) [] :=
    fun visible => .absent (by simp)
  have hannotated := ClassFile.annotated_of_writes (fun a ha => (hfront a ha).elim fun x hx => h.text? hx.2)
    hname hlists hnone
  simpa using hannotated

private theorem Generated.annotated_method {m : MethodDecl} {fields : List Initializer} {member : Member}
    (hm : m.Generated options c fields member q) (hvalued : ∀ p ∈ m.parameters, p.type.isVoid = false)
    (hown : ∀ a ∈ m.annotations, a.isKept = true → a.Countable)
    (hof : ∀ p ∈ m.parameters, ∀ a ∈ p.annotations, a.isKept = true → a.Countable) :
    file.Annotated member.attributes m.annotations m.parameters := by
  obtain ⟨code, own, ofParameters, heq, hcode, hattached, hattachedTo⟩ := hm.attributes_eq
  have hslots := (MethodDecl.pairwise_slotsFrom hvalued (if m.isStatic then 0 else 1)).1
  obtain ⟨lists, rfl, hlists⟩ := hattached.writes h.pool hown
  obtain ⟨tables, rfl, htables⟩ := hattachedTo.writes h.pool (hslots.imp Nat.ne_of_lt)
    (MethodDecl.length_slotsFrom _ _) hof
  have hfront : ∀ a ∈ code, file.text? a.name = some "Code" := by
    rcases MethodDecl.code_of_ran hcode with ⟨-, rfl⟩ | ⟨b, a, compiled, -, rfl, -, hholds⟩
    · simp
    · simpa using h.text? hholds.2
  rw [heq]
  exact ClassFile.annotated_of_writes hfront (by simp) hlists htables

end Generated

/-- The annotations of a generated class, of its fields and methods and of their parameters are found
again in the class file, each list under the name for its retention, if all parameters have values and
the lists in annotations can be counted.  The class file has no others, and it is the same without those
that end with the source. -/
theorem annotated_of_generate (hgenerate : c.generate options = .ok file)
    (hvalued : ∀ m ∈ c.methods, ∀ p ∈ m.parameters, p.type.isVoid = false)
    (hannotations : ∀ a ∈ c.allAnnotations, a.isKept = true → a.Countable) :
    file.Annotated file.attributes c.annotations [] ∧
    List.Forall₂ (fun f member => file.Annotated member.attributes f.annotations []) c.fields file.fields ∧
    List.Forall₂ (fun m member => file.Annotated member.attributes m.annotations m.parameters) c.allMethods
      file.methods ∧
    c.withoutSource.generate options = .ok file := by
  obtain ⟨q, h⟩ := generated_of_generate hgenerate
  refine ⟨?_, ?_, ?_, (generate_withoutSource options c).trans hgenerate⟩
  · obtain ⟨source, own, heq, hsource, hown⟩ := h.attributes_eq
    rw [heq]
    have hfront : ∀ a ∈ source, ∃ x, a.Holds q "SourceFile" x := fun a ha =>
      (holds_of_sourceAttribute hsource a ha).elim fun index hholds => ⟨_, hholds⟩
    apply h.annotated hfront (by simp) hown
    intro a ha
    exact hannotations a (List.mem_append_left _ (List.mem_append_left _ ha))
  · have hfields : ∀ f ∈ c.fields, ∀ a ∈ f.annotations, a.isKept = true → a.Countable := by
      intro f hf a ha
      exact hannotations a
        (List.mem_append_left _ (List.mem_append_right _ (List.mem_flatMap.mpr ⟨f, hf, ha⟩)))
    apply ((List.forall₂_and_left _ _).mpr ⟨hfields, h.fields.2⟩).imp
    rintro f member ⟨hdeclared, hfield⟩
    obtain ⟨value, own, heq, hvalue, hown⟩ := hfield.attributes_eq
    have hfront : ∀ a ∈ value, ∃ x, a.Holds q "ConstantValue" x := fun a ha =>
      (FieldDecl.holds_of_valueAttribute hvalue a ha).elim fun index hholds => ⟨_, hholds⟩
    rw [heq]
    exact h.annotated hfront (by simp) hown hdeclared
  · rw [← map_share c.initializers c.allMethods, List.forall₂_map_left_iff]
    apply ((List.forall₂_and_left _ _).mpr ⟨fun m hm => hm, h.methods.2⟩).imp
    rintro m member ⟨hm, hmethod⟩
    have hparameters : ∀ p ∈ m.1.parameters, p.type.isVoid = false := by
      rcases mem_methods_of_mem_plan hm with hmem | heq
      · exact hvalued m.1 hmem
      · rw [heq]
        simp [addedInitializer]
    obtain ⟨hown, hof⟩ := forall_annotations_of_mem_plan hannotations hm
    exact h.annotated_method hmethod hparameters hown hof

end ClassDecl

namespace Ledger

/-!
## An example

A class with annotations of all retentions, one of them in another, and a method with an annotated
parameter behind a wide one.
-/

def entered : Annotation where
  type := { name := "Entered" }
  retention := some .runtime
  elements := [("by", .array [.int 7, .nested { name := "Clerk" } (some .source) []])]

def draft : Annotation where
  type := { name := "Draft" }
  retention := some .source

def positive : Annotation where
  type := { name := "Positive" }

def method : MethodDecl where
  name := "post"
  modifiers := ⟨0x0401⟩
  parameters := [
    { name := "account", type := .primitive .long },
    { name := "amount", type := .primitive .int, annotations := [draft, positive] }]
  result := .void

def owner : ClassDecl where
  this := { name := "Ledger" }
  annotations := [entered, draft]
  methods := [method]

private theorem succeeds_storeKept {n : Nat} {declared : List Annotation}
    (h : ∀ a ∈ declared.filter Annotation.isKept, Succeeds n a.store fun _ => True) :
    Succeeds (n * (declared.filter Annotation.isKept).length) (storeKept declared)
      fun kept => kept.length = (declared.filter Annotation.isKept).length :=
  (SucceedsIn.mapM h).imp fun _ hkept => hkept.1

private theorem succeeds_entered : Succeeds 5 entered.store fun _ => True := by
  have hinteger : Succeeds 1 (AnnotationValue.store (.int 7)) fun _ => True := by
    rw [AnnotationValue.store]
    exact (Succeeds.request (.integer 7) (by simp [Pool.Request.texts])
      (by simp [Pool.Request.parts, Pool.Request.width])).bind (k := 0) fun _ _ => .pure trivial
  have hnested : Succeeds 1 (AnnotationValue.store (.nested { name := "Clerk" } (some .source) []))
      fun _ => True := by
    rw [AnnotationValue.store, AnnotationValue.storeElements]
    exact (Succeeds.utf8 (by decide)).bind (k := 0) fun _ _ => .pure trivial
  have hvalues : Succeeds 2 (AnnotationValue.storeValues
      [.int 7, .nested { name := "Clerk" } (some .source) []] []) fun _ => True := by
    simp only [AnnotationValue.storeValues]
    exact hinteger.bind (k := 1) fun _ _ => hnested.bind (k := 0) fun _ _ => .pure trivial
  have helements : Succeeds 3 (AnnotationValue.storeElements entered.elements []) fun _ => True := by
    rw [entered, AnnotationValue.storeElements]
    refine (Succeeds.utf8 (by decide)).bind (k := 2) fun _ _ => ?_
    rw [AnnotationValue.store]
    refine (hvalues.bind (Q := fun _ => True) (k := 0) fun _ _ => .pure trivial).bind (k := 0) fun _ _ => ?_
    rw [AnnotationValue.storeElements]
    exact .pure trivial
  exact (Succeeds.utf8 (by decide)).bind (k := 4) fun _ _ => helements.bind (k := 1) fun _ _ => .pure trivial

private theorem succeeds_positive : Succeeds 1 positive.store fun _ => True := by
  have helements : Succeeds 0 (AnnotationValue.storeElements positive.elements []) fun _ => True := by
    rw [positive, AnnotationValue.storeElements]
    exact .pure trivial
  exact (Succeeds.utf8 (by decide)).bind (k := 0) fun _ _ => helements.bind (k := 0) fun _ _ => .pure trivial

private theorem succeeds_method (options : Options) :
    Succeeds 8 (method.generate options owner []) fun _ => True := by
  have hparameter : ∀ p ∈ method.parameters, Succeeds 1 (storeKept p.annotations)
      fun kept => kept.length ≤ 1 := by
    simp only [method, List.forall_mem_cons, List.not_mem_nil, false_imp_iff, implies_true, and_true]
    have hkept : ∀ a ∈ [draft, positive].filter Annotation.isKept, Succeeds 1 a.store fun _ => True :=
      List.forall_mem_singleton.mpr succeeds_positive
    exact ⟨.pure (Nat.zero_le 1), (succeeds_storeKept hkept).imp fun _ h => Nat.le_of_eq h⟩
  have hcode : Succeeds 0 (method.codeAttributes options owner []) fun out => out.length ≤ 1 :=
    MethodDecl.succeeds_codeAttributes_of_none rfl
  refine (MethodDecl.succeeds_generate_of (a := 2) (b := 2) hcode (by decide) (by decide) (by decide)
    (succeeds_storeKept (n := 0) (by simp [method])) (SucceedsIn.mapM hparameter)
    (fun kept hkept => KeptAnnotation.succeeds_attributes_of_length (by rw [hkept]; decide))
    (fun keptBy ⟨hlength, hrows⟩ => ?_)).mono (by decide)
  match keptBy, hlength with
  | [first, second], _ =>
    have hfirst := hrows first (by simp)
    have hsecond := hrows second (by simp)
    apply KeptAnnotation.succeeds_parameterAttributes_of_length
    · simp
    · simp [MethodDecl.parameterSlots, MethodDecl.slotsFrom, method]
      omega

private theorem exists_file (options : Options) : ∃ file, owner.generate options = .ok file := by
  have hplan : owner.plan = [(method, [])] := rfl
  obtain ⟨file, hfile, -⟩ := ClassDecl.exists_generate (c := owner) (n := 0) (k := 8) (by decide) (by decide)
    rfl rfl (fun f hf => absurd hf List.not_mem_nil)
    (by rw [hplan]; exact List.forall_mem_singleton.mpr (succeeds_method options))
    (succeeds_storeKept (List.forall_mem_singleton.mpr succeeds_entered))
    (fun kept hkept => KeptAnnotation.succeeds_attributes_of_length (by rw [hkept]; decide))
    (fun out hout => Nat.le_trans hout (by decide)) ⟨by decide, by rw [hplan]; decide⟩
    (by rw [hplan]; decide)
  exact ⟨file, hfile⟩

/-- The annotations that do not end with the source are found with what they hold, also if that does. -/
theorem annotated_ledger : ∃ file member, owner.generate {} = .ok file ∧
    owner.withoutSource.generate {} = .ok file ∧ file.methods = [member] ∧
    file.Annotated file.attributes [entered, draft] [] ∧
    file.Annotated member.attributes [] method.parameters ∧
    (file.bodyOf? file.attributes "RuntimeVisibleAnnotations").bind file.annotations? =
      some [⟨"LEntered;", [("by", .array [.int 7, .nested "LClerk;" []])]⟩] ∧
    (file.bodyOf? member.attributes "RuntimeInvisibleParameterAnnotations").bind
      file.parameterAnnotations? = some [[], [⟨"LPositive;", []⟩]] := by
  obtain ⟨file, hfile⟩ := exists_file {}
  have hcountable : ∀ a ∈ [entered, draft, draft, positive], a.isKept = true → a.Countable := by
    have hvalue :
        (AnnotationValue.array [.int 7, .nested { name := "Clerk" } (some .source) []]).Countable :=
      .array (by decide) (List.forall_mem_cons.mpr
        ⟨.plain rfl, List.forall_mem_singleton.mpr (.nested (by decide) (by simp))⟩)
    have hdraft : draft.isKept = true → draft.Countable := fun h => absurd h (by decide)
    simp only [List.forall_mem_cons, List.not_mem_nil, false_imp_iff, implies_true, and_true]
    exact ⟨fun _ => ⟨by decide, List.forall_mem_singleton.mpr hvalue⟩, hdraft, hdraft,
      fun _ => ⟨by decide, by simp [positive]⟩⟩
  obtain ⟨hclass, -, hmethods, hwithout⟩ := ClassDecl.annotated_of_generate hfile (by decide) hcountable
  obtain ⟨member, rest, hmethod, hrest, heq⟩ := List.forall₂_cons_left_iff.mp hmethods
  cases List.forall₂_nil_left_iff.mp hrest
  refine ⟨file, member, hfile, hwithout, heq, hclass, hmethod, ?_, ?_⟩
  · exact (hclass.own true).found nofun
  · apply (hmethod.ofParameters false).found
    intro hnone
    cases hnone { name := "amount", type := .primitive .int, annotations := [draft, positive] }
      (by simp [method])

end Ledger

end Classwright
