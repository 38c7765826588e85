import Classwright.Proofs.TypeEquality

/-!
# Assignability as an order

Whether a value can be stored is judged by the supertypes that are recorded with its class.  If the
records agree with each other as those of one hierarchy do, assignability orders the types: it follows
the records between classes, the classes that arrays belong to are closed upwards, and arrays are
ordered by their components.
-/

namespace Classwright

def arraySupertypes : List String := ["java/lang/Object", "java/lang/Cloneable", "java/io/Serializable"]

/-- Class types whose records come from one hierarchy: those of one name record the same, whatever is
above a supertype is recorded as well, no class is above itself, and the classes that arrays belong to
have at most the root above them. -/
structure IsHierarchy (classes : Set ClassType) : Prop where
  same : ∀ c ∈ classes, ∀ d ∈ classes, c.name = d.name → c.supertypes = d.supertypes
  closed : ∀ c ∈ classes, ∀ d ∈ classes, d.name ∈ c.supertypes → d.supertypes ⊆ c.supertypes
  acyclic : ∀ c ∈ classes, c.name ∉ c.supertypes
  root : ∀ c ∈ classes, c.name = "java/lang/Object" → c.supertypes = []
  arrays : ∀ c ∈ classes, c.name ∈ arraySupertypes → c.supertypes ⊆ ["java/lang/Object"]

namespace ClassType

/-- A class is below the root, itself and the supertypes that it records. -/
def Below (c d : ClassType) : Prop :=
  d.name = "java/lang/Object" ∨ c.name = d.name ∨ d.name ∈ c.supertypes

section Below

variable {classes : Set ClassType} (h : IsHierarchy classes) {c d e : ClassType} (hc : c ∈ classes)
  (hd : d ∈ classes)
include h hc

private theorem Below.eq_root (hroot : c.name = "java/lang/Object") (hcd : c.Below d) :
    d.name = "java/lang/Object" := by
  rcases hcd with hname | hname | hsuper
  · exact hname
  · exact hname ▸ hroot
  · rw [h.root c hc hroot] at hsuper
    cases hsuper

include hd

theorem Below.trans (hcd : c.Below d) (hde : d.Below e) : c.Below e := by
  rcases hcd with hname | hname | hsuper
  · exact .inl (hde.eq_root h hd hname)
  · rwa [Below, hname, h.same c hc d hd hname]
  · rcases hde with hname | hname | htop
    · exact .inl hname
    · exact .inr (.inr (hname ▸ hsuper))
    · exact .inr (.inr (h.closed c hc d hd hsuper htop))

theorem Below.antisymm (hcd : c.Below d) (hdc : d.Below c) : c.name = d.name := by
  rcases hcd with hname | hname | hsuper
  · exact (hdc.eq_root h hd hname).trans hname.symm
  · exact hname
  · rcases hdc with hname | hname | hback
    · rw [h.root c hc hname] at hsuper
      cases hsuper
    · exact hname.symm
    · exact absurd (h.closed c hc d hd hsuper hback) (h.acyclic c hc)

omit hd

private theorem Below.mem_arraySupertypes (harrays : c.name ∈ arraySupertypes) (hcd : c.Below d) :
    d.name ∈ arraySupertypes := by
  rcases hcd with hname | hname | hsuper
  · exact hname ▸ List.mem_cons_self
  · exact hname ▸ harrays
  · have hname := List.mem_singleton.mp (h.arrays c hc harrays hsuper)
    exact hname ▸ List.mem_cons_self

end Below

end ClassType

namespace JavaType

/-- The class that a type is made of, if any, is one of the given ones. -/
def Within (classes : Set ClassType) : JavaType → Prop
  | primitive _ => True
  | object c => c ∈ classes
  | array component => component.Within classes

theorem accepts_object_iff {target source : ClassType} :
    accepts (.object target) (.object source) = true ↔ source.Below target := by
  simp only [accepts, ClassType.isSubtypeOf, ClassType.Below, Bool.or_eq_true, beq_iff_eq,
    List.contains_iff_mem]

theorem accepts_array_iff {target : ClassType} {component : JavaType} :
    accepts (.object target) (.array component) = true ↔ target.name ∈ arraySupertypes :=
  List.contains_iff_mem

theorem accepts_refl (t : JavaType) : t.accepts t = true := by
  induction t with
  | primitive p => exact beq_self_eq_true p
  | object c => exact accepts_object_iff.mpr (.inr (.inl rfl))
  | array component ih => exact ih

section Order

variable {classes : Set ClassType} (h : IsHierarchy classes) {t u v : JavaType} (hu : u.Within classes)
include h hu

theorem accepts_trans (hv : v.Within classes) (htu : t.accepts u = true) (huv : u.accepts v = true) :
    t.accepts v = true := by
  induction t generalizing u v with
  | primitive p =>
    cases u with
    | primitive q =>
      cases v with
      | primitive r => exact beq_iff_eq.mpr ((eq_of_beq htu).trans (eq_of_beq huv))
      | object | array => cases huv
    | object | array => cases htu
  | object target =>
    cases u with
    | primitive q => cases htu
    | object middle =>
      have habove := accepts_object_iff.mp htu
      cases v with
      | primitive r => cases huv
      | object source =>
        exact accepts_object_iff.mpr ((accepts_object_iff.mp huv).trans h hv hu habove)
      | array component =>
        exact accepts_array_iff.mpr (habove.mem_arraySupertypes h hu (accepts_array_iff.mp huv))
    | array b =>
      cases v with
      | primitive | object => cases huv
      | array component => exact accepts_array_iff.mpr (accepts_array_iff.mp htu)
  | array a ih =>
    cases u with
    | primitive | object => cases htu
    | array b =>
      cases v with
      | primitive | object => cases huv
      | array component => exact ih (u := b) (v := component) hu hv htu huv

private theorem beq_of_accepts (ht : t.Within classes) (htu : t.accepts u = true)
    (hut : u.accepts t = true) :
    (t == u) = true := by
  induction t generalizing u with
  | primitive p =>
    cases u with
    | primitive q => exact htu
    | object | array => cases htu
  | object c =>
    cases u with
    | primitive q => cases htu
    | object d =>
      have hcd := accepts_object_iff.mp hut
      exact object_beq_iff.mpr (hcd.antisymm h ht hu (accepts_object_iff.mp htu))
    | array b => cases hut
  | array a ih =>
    cases u with
    | primitive | object => cases htu
    | array b => exact ih (u := b) hu ht htu hut

end Order

/-- On the types that are made of the classes of one hierarchy, assignability is a partial order:
reflexive, transitive, and antisymmetric up to the equality of types. -/
theorem accepts_partial_order {classes : Set ClassType} (h : IsHierarchy classes) :
    (∀ t : JavaType, t.Within classes → t.accepts t = true) ∧
    (∀ t u v : JavaType, t.Within classes → u.Within classes → v.Within classes →
      t.accepts u = true → u.accepts v = true → t.accepts v = true) ∧
    ∀ t u : JavaType, t.Within classes → u.Within classes →
      t.accepts u = true → u.accepts t = true → (t == u) = true := by
  refine ⟨fun t _ => accepts_refl t, ?_, ?_⟩
  · intro t u v _ hu hv htu huv
    exact accepts_trans h hu hv htu huv
  · intro t u ht hu htu hut
    exact beq_of_accepts h hu ht htu hut

def serializable : ClassType :=
  { name := "java/io/Serializable", isInterface := true, supertypes := ["java/lang/Object"] }

/-- The root, an interface of arrays, strings and the boxes of primitives. -/
def coreClasses : List ClassType :=
  [javaLangObject, .object serializable, string].filterMap classType? ++
    [Primitive.boolean, .byte, .char, .short, .int, .long, .float, .double].filterMap fun p =>
      (boxed? p).bind classType?

private theorem isHierarchy_coreClasses : IsHierarchy { c | c ∈ coreClasses } where
  same := show ∀ c ∈ coreClasses, ∀ d ∈ coreClasses, _ by decide +kernel
  closed := show ∀ c ∈ coreClasses, ∀ d ∈ coreClasses, _ by decide +kernel
  acyclic := show ∀ c ∈ coreClasses, _ by decide +kernel
  root := show ∀ c ∈ coreClasses, _ by decide +kernel
  arrays := show ∀ c ∈ coreClasses, _ by decide +kernel

/-- Arrays of arrays of strings are accepted as arrays of serializable objects, and these as arrays of
objects. -/
theorem accepts_partial_order_core :
    IsHierarchy { c | c ∈ coreClasses } ∧
    (array (.object serializable)).accepts (array (array string)) = true ∧
    (array javaLangObject).accepts (array (.object serializable)) = true ∧
    (array javaLangObject).accepts (array (array string)) = true := by
  have hobject : (array javaLangObject).Within { c | c ∈ coreClasses } :=
    List.mem_of_getElem? (i := 0) rfl
  have hserializable : (array (.object serializable)).Within { c | c ∈ coreClasses } :=
    List.mem_of_getElem? (i := 1) rfl
  have hstring : (array (array string)).Within { c | c ∈ coreClasses } :=
    List.mem_of_getElem? (i := 2) rfl
  have hlow : (array (.object serializable)).accepts (array (array string)) = true := by decide
  have hhigh : (array javaLangObject).accepts (array (.object serializable)) = true := by decide
  obtain ⟨-, htrans, -⟩ := accepts_partial_order isHierarchy_coreClasses
  exact ⟨isHierarchy_coreClasses, hlow, hhigh, htrans _ _ _ hobject hserializable hstring hhigh hlow⟩

end JavaType

end Classwright
