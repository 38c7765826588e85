import Classwright.Proofs.Literals

/-!
# What the attributes of declarations hold

Every attribute is found under its name and has the bytes of a body of known form.  For those with
annotations it is said which declared annotations they store and how many lists of them there are.
-/

namespace Classwright

theorem exists_left_of_forall₂ {α β : Type} {R : α → β → Prop} {as : List α} {bs : List β}
    (h : List.Forall₂ R as bs) {b : β} (hb : b ∈ bs) : ∃ a ∈ as, R a b := by
  induction h with
  | nil => cases hb
  | cons hhead _ ih =>
    rcases List.mem_cons.mp hb with rfl | hb
    · exact ⟨_, List.mem_cons_self, hhead⟩
    · obtain ⟨a, ha, hab⟩ := ih hb
      exact ⟨a, List.mem_cons_of_mem _ ha, hab⟩

section Ran

variable {α β : Type} {q : Pool}

theorem Ran.of_mapM {f : α → Pooling β} (hf : ∀ a, Grows id (f a)) {items : List α} {out : List β}
    (h : Ran q (items.mapM f) out) : List.Forall₂ (fun a b => Ran q (f a) b) items out := by
  induction items generalizing out with
  | nil =>
    rw [h.eq_of_pure]
    exact .nil
  | cons a items ih =>
    rw [List.mapM_cons] at h
    obtain ⟨b, hb, h⟩ := h.of_bind (hf a) fun _ => (Grows.mapM hf items).bind fun _ => .pure _
    obtain ⟨bs, hbs, h⟩ := h.of_bind (Grows.mapM hf items) fun _ => .pure _
    rw [h.eq_of_pure]
    exact .cons hb (ih hbs)

private theorem Ran.of_bounded {limit : Limit} {items out : List α}
    (h : Ran q (bounded limit items) out) :
    items.length ≤ 65535 ∧ out = items := by
  obtain ⟨p, p', hrun, -⟩ := h
  obtain ⟨hlength, rfl, -⟩ := run_bounded_iff.mp hrun
  exact ⟨hlength, rfl⟩

end Ran

/-- The attribute has a name and the bytes of a body. -/
def Attribute.Holds (q : Pool) (name : String) (body : AttributeBody) (a : Attribute) : Prop :=
  a.body = body.encode ∧ q.meaning? a.name = some (.utf8 name)

theorem holds_of_ran {body : AttributeBody} {name : String} {a : Attribute} {q : Pool}
    (h : Ran q (body.named name) a) : a.Holds q name body := by
  obtain ⟨index, hindex, h⟩ := Ran.of_bind (Grows.utf8 name) (fun _ => .pure _) h
  cases h.eq_of_pure
  exact ⟨rfl, meaning?_of_ran (r := .utf8 name) hindex⟩

/-- The stored annotation is one of the declared ones that the class file keeps. -/
def StoredAnnotation.Of (q : Pool) (declared : List Annotation) (s : StoredAnnotation) : Prop :=
  ∃ d ∈ declared, d.isKept = true ∧ ∃ kept, Ran q d.store kept ∧ kept.stored = s

def Attribute.Annotates (q : Pool) (declared : List Annotation) (a : Attribute) : Prop :=
  ∃ (visible : Bool) (list : List StoredAnnotation),
    a.Holds q (if visible then "RuntimeVisibleAnnotations" else "RuntimeInvisibleAnnotations")
      (.annotations list) ∧
    list.length ≤ 65535 ∧ ∀ s ∈ list, s.Of q declared

def Attribute.AnnotatesParameters (q : Pool) (parameters : List Parameter) (a : Attribute) : Prop :=
  ∃ (visible : Bool) (table : List (List StoredAnnotation)),
    a.Holds q
      (if visible then "RuntimeVisibleParameterAnnotations"
        else "RuntimeInvisibleParameterAnnotations") (.parameterAnnotations table) ∧
    table.length ≤ 255 ∧ ∀ row ∈ table, row.length ≤ 65535 ∧
      ∀ s ∈ row, ∃ p ∈ parameters, s.Of q p.annotations

namespace KeptAnnotation

open Annotation (storeKept)

variable {q : Pool} {P : StoredAnnotation → Prop}

theorem of_of_ran {declared : List Annotation} {kept : List KeptAnnotation}
    (h : Ran q (storeKept declared) kept) : ∀ k ∈ kept, k.stored.Of q declared := by
  intro k hk
  obtain ⟨d, hd, hran⟩ := exists_left_of_forall₂ (h.of_mapM grows_storeAnnotated) hk
  rw [List.mem_filter] at hd
  exact ⟨d, hd.1, hd.2, k, hran, rfl⟩

theorem forall_withVisibility {kept : List KeptAnnotation} (h : ∀ k ∈ kept, P k.stored)
    (visible : Bool) : ∀ s ∈ withVisibility visible kept, P s := by
  intro s hs
  obtain ⟨k, hk, hsome⟩ := List.mem_filterMap.mp hs
  split at hsome
  · cases hsome
    exact h k hk
  · cases hsome

theorem listAttribute_cases {name : String} {list : List StoredAnnotation} {out : List Attribute}
    (h : Ran q (listAttribute name list) out) :
    (list = [] ∧ out = []) ∨ (list ≠ [] ∧ list.length ≤ 65535 ∧
      ∃ a, out = [a] ∧ a.Holds q name (.annotations list)) := by
  unfold listAttribute at h
  split at h
  · rename_i hempty
    exact .inl ⟨List.isEmpty_iff.mp hempty, h.eq_of_pure⟩
  · rename_i hempty
    obtain ⟨checked, hchecked, hnamed⟩ := h.of_bind (grows_bounded _ _) fun _ =>
      (grows_named _ _).bind fun _ => .pure _
    obtain ⟨hlength, rfl⟩ := hchecked.of_bounded
    obtain ⟨a, ha, hnamed⟩ := hnamed.of_bind (grows_named _ _) fun _ => .pure _
    refine .inr ⟨?_, hlength, a, hnamed.eq_of_pure, holds_of_ran ha⟩
    rwa [List.isEmpty_iff] at hempty

def listName (visible : Bool) : String :=
  if visible then "RuntimeVisibleAnnotations" else "RuntimeInvisibleAnnotations"

def tableName (visible : Bool) : String :=
  if visible then "RuntimeVisibleParameterAnnotations" else "RuntimeInvisibleParameterAnnotations"

theorem exists_of_attributes {kept : List KeptAnnotation} {out : List Attribute}
    (h : Ran q (attributes kept) out) :
    ∃ lists : Bool → List Attribute, out = lists true ++ lists false ∧ ∀ visible,
      Ran q (listAttribute (listName visible) (withVisibility visible kept)) (lists visible) := by
  obtain ⟨visible, hvisible, h⟩ := h.of_bind (grows_listAttribute _ _) fun _ =>
    (grows_listAttribute _ _).bind fun _ => .pure _
  obtain ⟨invisible, hinvisible, h⟩ := h.of_bind (grows_listAttribute _ _) fun _ => .pure _
  refine ⟨fun b => bif b then visible else invisible, h.eq_of_pure, fun b => ?_⟩
  cases b with
  | true => exact hvisible
  | false => exact hinvisible

/-- The attributes are those for the annotations of a declaration. -/
def Attached (q : Pool) (declared : List Annotation) (out : List Attribute) : Prop :=
  ∃ kept, Ran q (storeKept declared) kept ∧ Ran q (attributes kept) out

theorem Attached.annotates {declared : List Annotation} {out : List Attribute}
    (h : Attached q declared out) : ∀ a ∈ out, a.Annotates q declared := by
  obtain ⟨kept, hkept, h⟩ := h
  obtain ⟨lists, rfl, hlists⟩ := exists_of_attributes h
  have hannotates : ∀ visible, ∀ a ∈ lists visible, a.Annotates q declared := by
    intro visible
    rcases listAttribute_cases (hlists visible) with ⟨-, hnone⟩ | ⟨-, hlength, a, hone, hholds⟩
    · simp [hnone]
    · rw [hone]
      exact List.forall_mem_singleton.mpr
        ⟨visible, _, hholds, hlength, forall_withVisibility (of_of_ran hkept) visible⟩
  exact List.forall_mem_append.mpr ⟨hannotates true, hannotates false⟩

theorem length_rowsAfter (seen : List Nat) (all parameters : List (Nat × List StoredAnnotation)) :
    (rowsAfter seen all parameters).length = parameters.length := by
  induction parameters generalizing seen with
  | nil => rfl
  | cons p rest ih => rw [rowsAfter, List.length_cons, List.length_cons, ih]

private theorem forall_rowsAfter {all : List (Nat × List StoredAnnotation)}
    (h : ∀ p ∈ all, ∀ s ∈ p.2, P s) (seen : List Nat) (parameters : List (Nat × List StoredAnnotation)) :
    ∀ row ∈ rowsAfter seen all parameters, ∀ s ∈ row, P s := by
  induction parameters generalizing seen with
  | nil => simp [rowsAfter]
  | cons p rest ih =>
    rw [rowsAfter]
    refine List.forall_mem_cons.mpr ⟨fun s hs => ?_, ih _⟩
    split at hs
    · cases hs
    · obtain ⟨p', hp', hs⟩ := List.mem_flatMap.mp hs
      exact h p' (List.mem_of_mem_filter hp') s hs

theorem tableAttribute_cases {name : String} {parameters : List (Nat × List StoredAnnotation)}
    {out : List Attribute} (h : Ran q (tableAttribute name parameters) out) :
    ((∀ p ∈ parameters, p.2 = []) ∧ out = []) ∨ ((¬ ∀ p ∈ parameters, p.2 = []) ∧
      (∀ row ∈ rowsAfter [] parameters parameters, row.length ≤ 65535) ∧ ∃ a, out = [a] ∧
        a.Holds q name (.parameterAnnotations (rowsAfter [] parameters parameters))) := by
  have hnone : parameters.all (·.2.isEmpty) = true ↔ ∀ p ∈ parameters, p.2 = [] := by
    simp [List.all_eq_true]
  unfold tableAttribute at h
  split at h
  · rename_i hempty
    exact .inl ⟨hnone.mp hempty, h.eq_of_pure⟩
  · rename_i hempty
    obtain ⟨table, htable, h⟩ := h.of_bind (Grows.mapM (grows_bounded _) _) fun _ =>
      (grows_named _ _).bind fun _ => .pure _
    obtain ⟨a, ha, h⟩ := h.of_bind (grows_named _ _) fun _ => .pure _
    have hrows := (htable.of_mapM (grows_bounded _)).imp fun row checked => Ran.of_bounded
    have heq : rowsAfter [] parameters parameters = table := by
      rw [← List.forall₂_eq_eq_eq]
      exact hrows.imp fun row checked hrow => hrow.2.symm
    refine .inr ⟨fun hall => hempty (hnone.mpr hall), fun row hrow => ?_, a, h.eq_of_pure, ?_⟩
    · rw [heq] at hrow
      obtain ⟨checked, -, hlength, rfl⟩ := exists_left_of_forall₂ hrows hrow
      exact hlength
    · rw [heq]
      exact holds_of_ran ha

theorem exists_of_parameterAttributes {parameters : List (Nat × List KeptAnnotation)}
    {out : List Attribute} (h : Ran q (parameterAttributes parameters) out) :
    parameters.length ≤ 255 ∧
      ∃ tables : Bool → List Attribute, out = tables true ++ tables false ∧ ∀ visible,
        Ran q (tableAttribute (tableName visible)
          (parameters.map fun p => (p.1, withVisibility visible p.2))) (tables visible) := by
  unfold parameterAttributes at h
  split at h
  · rename_i hcount
    obtain ⟨visible, hvisible, h⟩ := h.of_bind (grows_tableAttribute _ _) fun _ =>
      (grows_tableAttribute _ _).bind fun _ => .pure _
    obtain ⟨invisible, hinvisible, h⟩ := h.of_bind (grows_tableAttribute _ _) fun _ => .pure _
    refine ⟨hcount, fun b => bif b then visible else invisible, h.eq_of_pure, fun b => ?_⟩
    cases b with
    | true => exact hvisible
    | false => exact hinvisible
  · exact absurd h Ran.of_throw

def AttachedTo (q : Pool) (slots : List Nat) (declared : List Parameter) (out : List Attribute) : Prop :=
  ∃ keptBy, List.Forall₂ (fun p kept => Ran q (storeKept p.annotations) kept) declared
      keptBy ∧
    Ran q (parameterAttributes (slots.zip keptBy)) out

theorem AttachedTo.annotatesParameters {slots : List Nat} {declared : List Parameter}
    {out : List Attribute} (h : AttachedTo q slots declared out) :
    ∀ a ∈ out, a.AnnotatesParameters q declared := by
  obtain ⟨keptBy, hkeptBy, h⟩ := h
  obtain ⟨hcount, tables, rfl, htables⟩ := exists_of_parameterAttributes h
  have hannotates : ∀ visible, ∀ a ∈ tables visible, a.AnnotatesParameters q declared := by
    intro visible
    have hselect : ∀ p ∈ (slots.zip keptBy).map fun p => (p.1, withVisibility visible p.2),
        ∀ s ∈ p.2, ∃ d ∈ declared, s.Of q d.annotations := by
      intro p hp
      obtain ⟨row, hrow, rfl⟩ := List.mem_map.mp hp
      obtain ⟨d, hd, hran⟩ := exists_left_of_forall₂ hkeptBy (List.of_mem_zip hrow).2
      exact forall_withVisibility (fun k hk => ⟨d, hd, of_of_ran hran k hk⟩) visible
    rcases tableAttribute_cases (htables visible) with ⟨-, hnone⟩ | ⟨-, hlength, a, hone, hholds⟩
    · simp [hnone]
    · rw [hone]
      refine List.forall_mem_singleton.mpr ⟨visible, _, hholds, ?_, fun row hrow =>
        ⟨hlength row hrow, forall_rowsAfter hselect [] _ row hrow⟩⟩
      rwa [length_rowsAfter, List.length_map]
  exact List.forall_mem_append.mpr ⟨hannotates true, hannotates false⟩

end KeptAnnotation

end Classwright
