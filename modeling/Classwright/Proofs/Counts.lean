import Classwright.Proofs.BodyCodec
import Classwright.Proofs.ClassFileCodec
import Classwright.Proofs.Limits
import Classwright.Proofs.Resolution

/-!
# The counts of a generated class file

Every list of a generated class file is written after its length.  Lists that are too long for the
field of their length are refused, except for the elements of annotations and the values of arrays in
them, which are not checked.  If these are short enough, and no body is too long for its attribute,
every count in the class file is the number of what follows it.
-/

namespace Classwright

namespace AnnotationValue

def isPlain : AnnotationValue → Bool
  | array _ | nested .. => false
  | _ => true

/-- The lists in the value are short enough to be counted. -/
inductive Countable : AnnotationValue → Prop where
  | plain {v : AnnotationValue} (h : v.isPlain = true) : Countable v
  | array {values : List AnnotationValue} (length_le : values.length ≤ 65535)
      (each : ∀ v ∈ values, Countable v) : Countable (array values)
  | nested {type : ClassType} {retention : Option Retention}
      {elements : List (String × AnnotationValue)} (length_le : elements.length ≤ 65535)
      (each : ∀ e ∈ elements, Countable e.2) : Countable (nested type retention elements)

variable {q : Pool}

theorem forall₂_of_storeValues {values : List AnnotationValue} {done out : List ElementValue}
    (h : Ran q (storeValues values done) out) :
    ∃ more, out = done.reverse ++ more ∧ List.Forall₂ (fun v e => Ran q v.store e) values more := by
  induction values generalizing done with
  | nil =>
    rw [storeValues] at h
    exact ⟨[], by rw [h.eq_of_pure, List.append_nil], .nil⟩
  | cons v rest ih =>
    rw [storeValues] at h
    obtain ⟨e, he, h⟩ := h.of_bind (grows_store v) fun _ => grows_storeValues rest _
    obtain ⟨more, rfl, hmore⟩ := ih h
    exact ⟨e :: more, by rw [List.reverse_cons, List.append_assoc, List.singleton_append],
      .cons he hmore⟩

theorem forall₂_of_storeElements {elements : List (String × AnnotationValue)}
    {done out : List (UInt16 × ElementValue)} (h : Ran q (storeElements elements done) out) :
    ∃ more, out = done.reverse ++ more ∧
      List.Forall₂ (fun v e => q.meaning? e.1 = some (.utf8 v.1) ∧ Ran q v.2.store e.2) elements
        more := by
  induction elements generalizing done with
  | nil =>
    rw [storeElements] at h
    exact ⟨[], by rw [h.eq_of_pure, List.append_nil], .nil⟩
  | cons v rest ih =>
    obtain ⟨name, v⟩ := v
    rw [storeElements] at h
    obtain ⟨index, hindex, h⟩ := h.of_bind (Grows.utf8 name) fun _ =>
      (grows_store v).bind fun _ => grows_storeElements rest _
    obtain ⟨e, he, h⟩ := h.of_bind (grows_store v) fun _ => grows_storeElements rest _
    obtain ⟨more, rfl, hmore⟩ := ih h
    exact ⟨(index, e) :: more, by rw [List.reverse_cons, List.append_assoc, List.singleton_append],
      .cons ⟨meaning?_of_ran (r := .utf8 name) hindex, he⟩ hmore⟩

def constant? : AnnotationValue → Option (UInt8 × Pool.Request)
  | boolean b => some (0x5a, .integer (if b then 1 else 0))
  | byte v => some (0x42, .integer v.toInt32)
  | char v => some (0x43, .integer (Int32.ofNat v.toNat))
  | short v => some (0x53, .integer v.toInt32)
  | int v => some (0x49, .integer v)
  | long v => some (0x4a, .long v)
  | float bits => some (0x46, .float bits)
  | double bits => some (0x44, .double bits)
  | string s => some (0x73, .utf8 s)
  | enum .. | type _ | array _ | nested .. => none

theorem exists_const {v : AnnotationValue} {tag : UInt8} {r : Pool.Request}
    (hv : v.constant? = some (tag, r)) {e : ElementValue} (h : Ran q v.store e) :
    ∃ index, e = .const tag index ∧ q.meaning? index = some r := by
  have hstore : v.store = do return ElementValue.const tag (← pooled r.intern) := by
    cases v <;> cases hv <;> rw [store] <;> rfl
  rw [hstore] at h
  obtain ⟨index, hindex, h⟩ := h.of_bind (Grows.pooled r) fun _ => .pure _
  exact ⟨index, h.eq_of_pure, meaning?_of_ran hindex⟩

private theorem wellFormed_of_isPlain {v : AnnotationValue} (hv : v.isPlain = true) {e : ElementValue}
    (h : Ran q v.store e) : e.WellFormed := by
  cases v with
  | boolean | byte | char | short | int | long | float | double | string =>
    obtain ⟨index, rfl, -⟩ := exists_const rfl h
    exact .const index (by decide)
  | enum =>
    rw [store] at h
    obtain ⟨type, -, h⟩ := h.of_bind (Grows.utf8 _) fun _ => (Grows.utf8 _).bind fun _ => .pure _
    obtain ⟨name, -, h⟩ := h.of_bind (Grows.utf8 _) fun _ => .pure _
    rw [h.eq_of_pure]
    exact .enum type name
  | type =>
    rw [store] at h
    obtain ⟨index, -, h⟩ := h.of_bind (Grows.utf8 _) fun _ => .pure _
    rw [h.eq_of_pure]
    exact .classInfo index
  | array | nested => cases hv

/-- A value whose lists can be counted is stored as one whose counts are right. -/
theorem Countable.wellFormed {v : AnnotationValue} (h : v.Countable) :
    ∀ {e : ElementValue}, Ran q v.store e → e.WellFormed := by
  induction h with
  | plain h => exact wellFormed_of_isPlain h
  | @array values hlength _ ih =>
    intro e he
    rw [store] at he
    obtain ⟨out, hout, he⟩ := he.of_bind (grows_storeValues values []) fun _ => .pure _
    obtain ⟨more, rfl, hmore⟩ := forall₂_of_storeValues hout
    rw [he.eq_of_pure]
    refine .array (by rwa [← hmore.length_eq]) fun e he => ?_
    obtain ⟨v, hv, hran⟩ := exists_left_of_forall₂ hmore he
    exact ih v hv hran
  | @nested type retention elements hlength _ ih =>
    intro e he
    rw [store] at he
    obtain ⟨index, -, he⟩ := he.of_bind (Grows.utf8 _) fun _ =>
      (grows_storeElements elements []).bind fun _ => .pure _
    obtain ⟨out, hout, he⟩ := he.of_bind (grows_storeElements elements []) fun _ => .pure _
    obtain ⟨more, rfl, hmore⟩ := forall₂_of_storeElements hout
    rw [he.eq_of_pure]
    refine .nested _ (by rwa [← hmore.length_eq]) fun e he => ?_
    obtain ⟨v, hv, -, hran⟩ := exists_left_of_forall₂ hmore he
    exact ih v hv hran

end AnnotationValue

structure Annotation.Countable (a : Annotation) : Prop where
  length_le : a.elements.length ≤ 65535
  each : ∀ e ∈ a.elements, e.2.Countable

theorem StoredAnnotation.Of.wellFormed {q : Pool} {declared : List Annotation} {s : StoredAnnotation}
    (h : s.Of q declared) (hdeclared : ∀ a ∈ declared, a.isKept = true → a.Countable) :
    s.WellFormed := by
  obtain ⟨d, hd, hkept, kept, hran, rfl⟩ := h
  obtain ⟨hlength, heach⟩ := hdeclared d hd hkept
  obtain ⟨type, -, h⟩ := hran.of_bind (Grows.utf8 _) fun _ =>
    (AnnotationValue.grows_storeElements d.elements []).bind fun _ => .pure _
  obtain ⟨out, hout, h⟩ := h.of_bind (AnnotationValue.grows_storeElements d.elements []) fun _ => .pure _
  obtain ⟨more, rfl, hmore⟩ := AnnotationValue.forall₂_of_storeElements hout
  rw [h.eq_of_pure]
  refine ⟨by rwa [← hmore.length_eq], fun e he => ?_⟩
  obtain ⟨v, hv, -, hran⟩ := exists_left_of_forall₂ hmore he
  exact (heach v hv).wellFormed hran

/-- The attribute is found by a name, and its body is what the name says, with right counts, so that it
is read back in full. -/
def ClassFile.Counts (file : ClassFile) (a : Attribute) (x : AttributeBody) : Prop :=
  ∃ name ∈ x.names, file.text? a.name = some name ∧ a.body = x.encode ∧ x.WellFormed ∧
    a.body.length < 4294967296 ∧ AttributeBody.decode? name a.body = some (.ok x)

/-- The attribute has right counts, and so have those in it if it is code. -/
def ClassFile.CountsWithin (file : ClassFile) (a : Attribute) : Prop :=
  ∃ x, file.Counts a x ∧
    ∀ code, x = .code code → ∀ inner ∈ code.attributes, ∃ y, file.Counts inner y

private theorem ClassFile.Counts.within {file : ClassFile} {a : Attribute} {x : AttributeBody}
    (h : file.Counts a x) (hx : ∀ code, x ≠ .code code) : file.CountsWithin a :=
  ⟨x, h, fun code hcode => absurd hcode (hx code)⟩

namespace ClassDecl

def allAnnotations (c : ClassDecl) : List Annotation :=
  c.annotations ++ c.fields.flatMap FieldDecl.annotations ++
    c.methods.flatMap fun m => m.annotations ++ m.parameters.flatMap Parameter.annotations

variable {options : Options} {c : ClassDecl} {file : ClassFile} {q : Pool}

private theorem Generated.counts (h : c.Generated options file q) {a : Attribute} {name : String}
    {x : AttributeBody} (hholds : a.Holds q name x) (hname : name ∈ x.names) (hx : x.WellFormed)
    (hbody : a.body.length < 4294967296) : file.Counts a x := by
  refine ⟨name, hname, h.text? hholds.2, hholds.1, hx, hbody, ?_⟩
  rw [hholds.1]
  exact hx.decode?_eq hname

section Attributes

variable (h : c.Generated options file q) {a : Attribute} (hbody : a.body.length < 4294967296)
include h hbody

private theorem Generated.counts_annotations {declared : List Annotation} (ha : a.Annotates q declared)
    (hdeclared : ∀ a ∈ declared, a.isKept = true → a.Countable) : file.CountsWithin a := by
  obtain ⟨visible, list, hholds, hlength, hlist⟩ := ha
  refine (h.counts hholds ?_ ⟨hlength, fun s hs => (hlist s hs).wellFormed hdeclared⟩ hbody).within
    (by simp)
  cases visible <;> simp [AttributeBody.names]

private theorem Generated.counts_parameters {parameters : List Parameter}
    (ha : a.AnnotatesParameters q parameters)
    (hdeclared : ∀ p ∈ parameters, ∀ a ∈ p.annotations, a.isKept = true → a.Countable) :
    file.CountsWithin a := by
  obtain ⟨visible, table, hholds, hlength, htable⟩ := ha
  refine (h.counts hholds ?_ ⟨hlength, fun row hrow => ⟨(htable row hrow).1, fun s hs => ?_⟩⟩
    hbody).within (by simp)
  · cases visible <;> simp [AttributeBody.names]
  · obtain ⟨p, hp, hstored⟩ := (htable row hrow).2 s hs
    exact hstored.wellFormed (hdeclared p hp)

private theorem Generated.counts_code {m : MethodDecl} {fields : List Initializer} {code : List Attribute}
    (hcode : Ran q (m.codeAttributes options c fields) code) (ha : a ∈ code) : file.CountsWithin a := by
  rcases MethodDecl.code_of_ran hcode with ⟨-, rfl⟩ | ⟨b, a', compiled, -, rfl, hcompiles, hholds⟩
  · cases ha
  · cases List.mem_singleton.mp ha
    have hfits := hcompiles.fits
    refine ⟨_, h.counts hholds (List.mem_singleton_self _) hfits hbody, ?_⟩
    rintro _ ⟨⟩ inner hinner
    have hinner' := hfits.attributes.2 inner hinner
    rcases hcompiles.holds inner hinner with ⟨table, htable, hholds⟩ | hholds
    · exact ⟨_, h.counts hholds (List.mem_singleton_self _) htable hinner'⟩
    · have hframes := hcompiles.frames_fit
      exact ⟨_, h.counts hholds (List.mem_singleton_self _) ⟨hframes.1, hframes.2.1⟩ hinner'⟩

end Attributes

theorem mem_methods_of_mem_plan {m : MethodDecl} {fields : List Initializer} (hm : (m, fields) ∈ c.plan) :
    m ∈ c.methods ∨ m = addedInitializer := by
  have hall : m ∈ c.allMethods := by
    rw [← map_share c.initializers c.allMethods]
    exact List.mem_map_of_mem hm
  obtain ⟨added, hadded, heq⟩ := c.exists_added
  rw [heq] at hall
  apply (List.mem_append.mp hall).imp_right
  intro hmem
  rcases hadded with rfl | rfl
  · cases hmem
  · exact List.mem_singleton.mp hmem

theorem forall_annotations_of_mem_plan {P : Annotation → Prop} (h : ∀ a ∈ c.allAnnotations, P a)
    {m : MethodDecl} {fields : List Initializer} (hm : (m, fields) ∈ c.plan) :
    (∀ a ∈ m.annotations, P a) ∧ ∀ p ∈ m.parameters, ∀ a ∈ p.annotations, P a := by
  rcases mem_methods_of_mem_plan hm with hmem | rfl
  · have hmethod : ∀ a ∈ m.annotations ++ m.parameters.flatMap Parameter.annotations, P a := fun a ha =>
      h a (List.mem_append_right _ (List.mem_flatMap.mpr ⟨m, hmem, ha⟩))
    refine ⟨fun a ha => hmethod a (List.mem_append_left _ ha), fun p hp a ha => ?_⟩
    exact hmethod a (List.mem_append_right _ (List.mem_flatMap.mpr ⟨p, hp, ha⟩))
  · exact ⟨by simp [addedInitializer], by simp [addedInitializer]⟩

private theorem Generated.lengths (h : c.Generated options file q) :
    file.interfaces.length = c.interfaces.length ∧ file.fields.length = c.fields.length ∧
      file.methods.length = c.allMethods.length := by
  refine ⟨h.interfaces.2.length_eq.symm, h.fields.2.length_eq.symm, ?_⟩
  rw [← h.methods.2.length_eq, plan, ← List.length_map Prod.fst, map_share]

private theorem Generated.countsWithin (h : c.Generated options file q)
    (hannotations : ∀ a ∈ c.allAnnotations, a.isKept = true → a.Countable)
    (hbodies : ∀ a ∈ file.allAttributes, a.body.length < 4294967296) :
    ∀ a ∈ file.allAttributes, file.CountsWithin a := by
  intro a ha
  have hbody := hbodies a ha
  rcases List.mem_append.mp ha with ha | ha
  · rcases h.attributes.2 a ha with ⟨index, hholds⟩ | ha
    · exact (h.counts hholds (List.mem_singleton_self _) trivial hbody).within (by simp)
    · refine h.counts_annotations hbody ha fun a ha => hannotations a ?_
      exact List.mem_append_left _ (List.mem_append_left _ ha)
  · obtain ⟨member, hmember, ha⟩ := List.mem_flatMap.mp ha
    rcases List.mem_append.mp hmember with hmember | hmember
    · obtain ⟨f, hf, hgenerated⟩ := exists_left_of_forall₂ h.fields.2 hmember
      rcases hgenerated.attributes a ha with ⟨index, hholds⟩ | ha
      · exact (h.counts hholds (List.mem_singleton_self _) trivial hbody).within (by simp)
      · refine h.counts_annotations hbody ha fun a ha => hannotations a ?_
        exact List.mem_append_left _ (List.mem_append_right _ (List.mem_flatMap.mpr ⟨f, hf, ha⟩))
    · obtain ⟨⟨m, fields⟩, hm, hgenerated⟩ := exists_left_of_forall₂ h.methods.2 hmember
      obtain ⟨hown, hparameters⟩ := forall_annotations_of_mem_plan hannotations hm
      obtain ⟨code, rest, hcode, hattributes, hrest⟩ := hgenerated.code
      rw [hattributes] at ha
      rcases List.mem_append.mp ha with ha | ha
      · exact h.counts_code hbody hcode ha
      · rcases hrest a ha with ha | ha
        · exact h.counts_annotations hbody ha hown
        · exact h.counts_parameters hbody ha hparameters

/-- Every count and length in a generated class file, and in its attributes, is that of what follows,
if the elements of its annotations can be counted and its bodies are not too long for attributes.  No
interface, field or method is left out: where there are too many, generation fails.  It fails with the
limit that is exceeded, unless a member is refused for what it says. -/
theorem counts_of_generate (c : ClassDecl) (options : Options) :
    (∀ file, c.generate options = .ok file →
      (∀ a ∈ c.allAnnotations, a.isKept = true → a.Countable) →
      (∀ a ∈ file.allAttributes, a.body.length < 4294967296) →
      file.WellCounted ∧
        (file.interfaces.length = c.interfaces.length ∧ file.fields.length = c.fields.length ∧
          file.methods.length = c.allMethods.length) ∧
        ∀ a ∈ file.allAttributes, file.CountsWithin a) ∧
    (65535 < c.interfaces.length ∨ 65535 < c.fields.length ∨ 65535 < c.allMethods.length →
      ∃ e, c.generate options = .error e) ∧
    ∀ e, c.generate options = .error e → (∃ limit, e = .limitExceeded limit) ∨ c.Refuses e := by
  refine ⟨fun file hgenerate hannotations hbodies => ?_, fun hlong => ?_,
    fun e => limitExceeded_or_refuses⟩
  · obtain ⟨q, h⟩ := generated_of_generate hgenerate
    exact ⟨ClassFile.wellCounted_of_generated h hbodies, h.lengths,
      h.countsWithin hannotations hbodies⟩
  · cases hgenerate : c.generate options with
    | error e => exact ⟨e, rfl⟩
    | ok file =>
      obtain ⟨q, h⟩ := generated_of_generate hgenerate
      obtain ⟨hinterfaces, hfields, hmethods⟩ := h.lengths
      have hbounds := And.intro h.interfaces.1 (And.intro h.fields.1 h.methods.1)
      omega

end ClassDecl

namespace Roster

open Annotation KeptAnnotation

/-!
## An example

A class with an annotation that holds an array of empty arrays, which need no room in the pool.
-/

def value (n : Nat) : AnnotationValue := .array (List.replicate n (.array []))

def marker (n : Nat) : Annotation where
  type := { name := "Marker" }
  retention := some .runtime
  elements := [("value", value n)]

def owner (n : Nat) : ClassDecl where
  this := { name := "Roster" }
  annotations := [marker n]

def crowded : ClassDecl where
  this := { name := "Roster" }
  interfaces := List.replicate 65536 { name := "Marker" }

def stored (type name : UInt16) (n : Nat) : StoredAnnotation where
  type := type
  elements := [(name, .array (List.replicate n (.array [])))]

private theorem succeeds_storeValues (n : Nat) (done : List ElementValue) :
    Succeeds 0 (AnnotationValue.storeValues (List.replicate n (.array [])) done)
      (· = done.reverse ++ List.replicate n (.array [])) := by
  induction n generalizing done with
  | zero =>
    rw [List.replicate_zero, AnnotationValue.storeValues, List.replicate_zero, List.append_nil]
    exact .pure rfl
  | succ n ih =>
    have hstore : AnnotationValue.store (.array []) = pure (.array []) := by
      simp [AnnotationValue.store, AnnotationValue.storeValues]
    rw [List.replicate_succ, AnnotationValue.storeValues, hstore, pure_bind]
    have hrest := ih (.array [] :: done)
    rw [List.reverse_cons, List.append_assoc, List.singleton_append, ← List.replicate_succ] at hrest
    exact hrest

private theorem succeeds_store (n : Nat) : Succeeds 2 (marker n).store
    fun kept => ∃ type name, kept = ⟨true, stored type name n⟩ := by
  have hvalue : Succeeds 0 (value n).store (· = .array (List.replicate n (.array []))) := by
    rw [value, AnnotationValue.store]
    exact (succeeds_storeValues n []).bind (k := 0) fun out hout => .pure (by rw [hout]; rfl)
  have helements : Succeeds 1 (AnnotationValue.storeElements (marker n).elements [])
      fun out => ∃ name, out = [(name, .array (List.replicate n (.array [])))] := by
    rw [marker, AnnotationValue.storeElements]
    refine SucceedsIn.mono (n := 1 + (0 + 0)) ?_ (by decide)
    refine (Succeeds.utf8 (by decide)).bind fun name _ => hvalue.bind fun out hout => ?_
    rw [AnnotationValue.storeElements, hout]
    exact .pure ⟨name, rfl⟩
  have htype : (ModifiedUtf8.encode (JavaType.object (marker n).type).descriptor).length ≤ 65535 :=
    show (ModifiedUtf8.encode (JavaType.object { name := "Marker" }).descriptor).length ≤ 65535 by decide
  refine (Succeeds.utf8 htype).bind fun type _ => helements.bind (k := 0) fun out hout => .pure ?_
  obtain ⟨name, rfl⟩ := hout
  exact ⟨type, name, rfl⟩

private theorem succeeds_storeKept (n : Nat) : Succeeds 2 (storeKept (owner n).annotations)
    fun kept => ∃ type name, kept = [⟨true, stored type name n⟩] := by
  have hkept : Annotation.storeKept (owner n).annotations = [marker n].mapM Annotation.store := rfl
  rw [hkept, List.mapM_cons]
  refine (succeeds_store n).bind (k := 0) fun kept hkept => .pure ?_
  obtain ⟨type, name, rfl⟩ := hkept
  exact ⟨type, name, rfl⟩

private theorem succeeds_attributes {n : Nat} {kept : List KeptAnnotation}
    (h : ∃ type name, kept = [⟨true, stored type name n⟩]) :
    Succeeds 1 (attributes kept) fun out => ∃ index type name,
      out = [⟨index, (AttributeBody.annotations [stored type name n]).encode⟩] := by
  obtain ⟨type, name, rfl⟩ := h
  have hnamed : Succeeds 1
      ((AttributeBody.annotations [stored type name n]).named "RuntimeVisibleAnnotations")
      fun a => a.body = (AttributeBody.annotations [stored type name n]).encode :=
    (Succeeds.utf8 (by decide)).bind (k := 0) fun _ _ => .pure rfl
  have hlist : Succeeds 1 (listAttribute "RuntimeVisibleAnnotations" [stored type name n])
      fun out => ∃ index, out = [⟨index, (AttributeBody.annotations [stored type name n]).encode⟩] := by
    refine Succeeds.bounded (Nat.le_of_ble_eq_true rfl) (hnamed.bind (k := 0) fun a ha => .pure ?_)
    exact ⟨a.name, by rw [← ha]⟩
  refine hlist.bind (k := 0) fun out hout => ?_
  obtain ⟨index, rfl⟩ := hout
  exact .pure ⟨index, type, name, rfl⟩

private theorem exists_file (options : Options) (n : Nat) :
    ∃ file, (owner n).generate options = .ok file ∧
    ∃ index type name,
      file.attributes = [⟨index, (AttributeBody.annotations [stored type name n]).encode⟩] := by
  have hthis : (ModifiedUtf8.encode "Roster").length ≤ 65535 := by decide
  have hsuper : ∀ super ∈ some ({ name := "java/lang/Object" } : ClassType),
      (ModifiedUtf8.encode super.name).length ≤ 65535 := by decide
  exact ClassDecl.exists_generate (c := owner n) (n := 0) (k := 0) hthis hsuper rfl rfl
    (fun f hf => absurd hf List.not_mem_nil) (fun m hm => absurd hm List.not_mem_nil)
    (succeeds_storeKept n) (fun kept => succeeds_attributes)
    (by rintro out ⟨index, type, name, rfl⟩; exact Nat.le_of_ble_eq_true rfl)
    ⟨Nat.zero_le _, Nat.zero_le _⟩ (Nat.le_of_ble_eq_true rfl)

/-- The bytes of empty arrays. -/
def blanks (n : Nat) : List UInt8 :=
  (List.replicate n (ElementValue.array [])).flatMap ElementValue.encode

theorem length_blanks (n : Nat) : (blanks n).length = 3 * n := by
  induction n with
  | zero => rfl
  | succ n ih =>
    rw [blanks, List.replicate_succ, List.flatMap_cons, List.length_append, ← blanks, ih, Nat.mul_succ,
      Nat.add_comm]
    rfl

private theorem encode_stored (type name : UInt16) (n : Nat) :
    (AttributeBody.annotations [stored type name n]).encode =
      (Bytes.u16 1 ++ Bytes.u16 type ++ Bytes.u16 1 ++ Bytes.u16 name ++ [0x5b]) ++
        (Bytes.u16 (UInt16.ofNat n) ++ blanks n) := by
  simp only [AttributeBody.encode, StoredAnnotation.encodeList, Bytes.counted16, StoredAnnotation.encode_eq,
    stored, ElementValue.encodeElement, ElementValue.encode_array, List.flatMap_cons, List.flatMap_nil,
    List.length_replicate, List.length_singleton, List.append_nil, List.append_assoc, blanks]
  rfl

theorem length_encode_stored (type name : UInt16) (n : Nat) :
    (AttributeBody.annotations [stored type name n]).encode.length = 11 + 3 * n := by
  rw [encode_stored]
  simp only [List.length_append, List.length_singleton, Bytes.length_u16, length_blanks]
  omega

/-- With as many values as make the count start again, none is counted. -/
theorem encode_stored_wrap (type name : UInt16) :
    (AttributeBody.annotations [stored type name 65536]).encode =
      (AttributeBody.annotations [stored type name 0]).encode ++ blanks 65536 := by
  have hcount : UInt16.ofNat 65536 = UInt16.ofNat 0 := by decide
  have hnone : blanks 0 = [] := rfl
  rw [encode_stored, encode_stored, hcount, hnone, List.append_nil]
  exact (List.append_assoc ..).symm

/-- What is written for too many values is not written for annotations whose counts are right: these
would be read back in full, where only an empty array is found. -/
theorem encode_ne_of_wellFormed {list : List StoredAnnotation}
    (h : (AttributeBody.annotations list).WellFormed) {type name : UInt16} :
    (AttributeBody.annotations [stored type name 65536]).encode ≠
      (AttributeBody.annotations list).encode := by
  intro heq
  have hempty : StoredAnnotation.ListWellFormed [stored type name 0] :=
    ⟨Nat.le_of_ble_eq_true rfl, List.forall_mem_singleton.mpr ⟨Nat.le_of_ble_eq_true rfl,
      List.forall_mem_singleton.mpr (.array (Nat.zero_le _) nofun)⟩⟩
  have hread := StoredAnnotation.reads_readList list [] h
  have hfound := StoredAnnotation.reads_readList [stored type name 0] (blanks 65536) hempty
  rw [encode_stored_wrap] at heq
  have hinput : StoredAnnotation.encodeList [stored type name 0] ++ blanks 65536 =
      StoredAnnotation.encodeList list ++ [] := by
    rw [List.append_nil]
    exact heq
  rw [hinput, hread] at hfound
  have hlength := length_blanks 65536
  rw [← (Prod.mk.inj (Except.ok.inj hfound)).2] at hlength
  cases hlength

private theorem allAttributes_eq {options : Options} {n : Nat} {file : ClassFile}
    (h : (owner n).generate options = .ok file) : file.allAttributes = file.attributes := by
  obtain ⟨q, hgenerated⟩ := ClassDecl.generated_of_generate h
  have hfields := List.forall₂_nil_left_iff.mp hgenerated.fields.2
  have hmethods := List.forall₂_nil_left_iff.mp hgenerated.methods.2
  rw [ClassFile.allAttributes, hfields, hmethods]
  exact List.append_nil _

theorem length_body_lt {options : Options} {n : Nat} {file : ClassFile}
    (h : (owner n).generate options = .ok file) {index type name : UInt16}
    (hattributes : file.attributes = [⟨index, (AttributeBody.annotations [stored type name n]).encode⟩])
    (hn : n ≤ 65536) : ∀ a ∈ file.allAttributes, a.body.length < 4294967296 := by
  rw [allAttributes_eq h, hattributes]
  refine List.forall_mem_singleton.mpr ?_
  rw [length_encode_stored]
  omega

end Roster

namespace ClassDecl

/-- The class with one value is counted right, and the one with too many interfaces is not generated. -/
theorem roster_counts : (∃ file, (Roster.owner 1).generate {} = .ok file ∧ file.WellCounted ∧
    (file.interfaces.length = 0 ∧ file.fields.length = 0 ∧ file.methods.length = 0) ∧
      ∀ a ∈ file.allAttributes, file.CountsWithin a) ∧
    ∃ limit, Roster.crowded.generate {} = .error (.limitExceeded limit) := by
  constructor
  · obtain ⟨file, hfile, index, type, name, hattributes⟩ := Roster.exists_file {} 1
    refine ⟨file, hfile, (counts_of_generate (Roster.owner 1) {}).1 file hfile ?_
      (Roster.length_body_lt hfile hattributes (by decide))⟩
    refine List.forall_mem_singleton.mpr fun _ => ⟨by decide, List.forall_mem_singleton.mpr ?_⟩
    exact .array (by decide) (List.forall_mem_singleton.mpr (.array (by decide) (by simp)))
  · obtain ⟨-, hfails, hcause⟩ := counts_of_generate Roster.crowded {}
    have hmany : 65535 < Roster.crowded.interfaces.length := by
      rw [Roster.crowded, List.length_replicate]
      omega
    obtain ⟨e, he⟩ := hfails (.inl hmany)
    rcases hcause e he with ⟨limit, rfl⟩ | hrefuses
    · exact ⟨limit, he⟩
    · cases hrefuses with
      | value declared => cases declared
      | statement planned | branch planned | parameters planned => cases planned

/-- The class with so many values that their count starts again is generated, but the count in its
annotation is wrong. -/
theorem roster_counts_wrap : ∃ file, (Roster.owner 65536).generate {} = .ok file ∧
    (∀ a ∈ file.allAttributes, a.body.length < 4294967296) ∧
      ∃ a ∈ file.allAttributes, ¬ file.CountsWithin a := by
  obtain ⟨file, hfile, index, type, name, hattributes⟩ := Roster.exists_file {} 65536
  refine ⟨file, hfile, Roster.length_body_lt hfile hattributes (Nat.le_refl _), ?_⟩
  rw [Roster.allAttributes_eq hfile, hattributes]
  refine ⟨_, List.mem_singleton_self _, ?_⟩
  rintro ⟨x, ⟨name', hname, htext, hbody, hx, -⟩, -⟩
  obtain ⟨q, h⟩ := generated_of_generate hfile
  rcases h.attributes.2 _ (by rw [hattributes]; exact List.mem_singleton_self _) with
    ⟨source, hholds, -⟩ | ⟨visible, list, hholds, -⟩
  · have hlength := congrArg List.length hholds
    rw [Roster.length_encode_stored] at hlength
    cases hlength
  · rw [h.text? hholds.2, Option.some.injEq] at htext
    cases x with
    | annotations list =>
      exact Roster.encode_ne_of_wellFormed hx hbody
    | _ =>
      rw [← htext] at hname
      cases visible <;> simp [AttributeBody.names] at hname

end ClassDecl

end Classwright
