import Classwright.Proofs.Words
import Mathlib.Data.List.TakeWhile

/-!
# Which descriptors are measured right

The words of arguments and result are found by a scan of the descriptor that stops at the first `)`.
It finds the widths of the types if no class among the parameters has that character in its name.  The
character is allowed there, and where it occurs the scan takes what follows it for the result.
-/

namespace Classwright

namespace JavaType

/-- The name of a class in a class file: packages are parted by `/`, and the characters that part
other names do not occur. -/
def LegalName (name : String) : Prop := '.' ∉ name.toList ∧ ';' ∉ name.toList ∧ '[' ∉ name.toList

instance (name : String) : Decidable (LegalName name) :=
  inferInstanceAs (Decidable (_ ∧ _ ∧ _))

theorem Names.and {N M : String → Prop} {t : JavaType} (hN : t.Names N) (hM : t.Names M) :
    t.Names fun name => N name ∧ M name := by
  induction t with
  | primitive p => trivial
  | object c => exact ⟨hN, hM⟩
  | array component ih => exact ih hN hM

private theorem exists_kinds {types : List JavaType} (h : ∀ t ∈ types, t.isVoid = false) :
    ∃ kinds : List Kind, types.map kind? = kinds.map some ∧ words kinds = totalWidth types := by
  induction types with
  | nil => exact ⟨[], rfl, rfl⟩
  | cons t types ih =>
    obtain ⟨hvalued, hrest⟩ := List.forall_mem_cons.mp h
    obtain ⟨kind, hkind, hwidth⟩ := exists_kind? hvalued
    obtain ⟨kinds, hkinds, hwords⟩ := ih hrest
    refine ⟨kind :: kinds, ?_, ?_⟩
    · simp [hkind, hkinds]
    · simp [totalWidth, hwidth, hwords]

end JavaType

namespace Descriptor

open JavaType

theorem mem_descriptorChars_iff (t : JavaType) :
    ')' ∈ t.descriptorChars ↔ ¬ t.Names fun name => ')' ∉ name.toList := by
  induction t with
  | primitive p => cases p <;> simp [descriptorChars, Names, Primitive.letter]
  | object c => simp [descriptorChars, Names]
  | array component ih => simpa [descriptorChars, Names] using ih

private theorem getLast?_descriptorChars (t : JavaType) : t.descriptorChars.getLast? ≠ some ')' := by
  induction t with
  | primitive p => cases p <;> decide
  | object c => simp [descriptorChars, List.getLast?_cons]
  | array component ih =>
    cases hlast : component.descriptorChars.getLast? <;> simp_all [descriptorChars, List.getLast?_cons]

private theorem getLast?_flatMap_descriptorChars (parameters : List JavaType) :
    (parameters.flatMap descriptorChars).getLast? ≠ some ')' := by
  induction parameters with
  | nil => simp
  | cons t parameters ih =>
    intro hlast
    rw [List.flatMap_cons, List.getLast?_append, Option.or_eq_some_iff] at hlast
    rcases hlast with hlast | ⟨-, hlast⟩
    · exact ih hlast
    · exact getLast?_descriptorChars t hlast

private theorem exists_dropWhile {parameters : List JavaType}
    (h : ')' ∈ parameters.flatMap descriptorChars) :
    ∃ c rest, (parameters.flatMap descriptorChars).dropWhile (· ≠ ')') = ')' :: c :: rest := by
  cases hdrop : (parameters.flatMap descriptorChars).dropWhile (· ≠ ')') with
  | nil =>
    have hall := List.dropWhile_eq_nil_iff.mp hdrop ')' h
    simp at hall
  | cons found tail =>
    have hfound : found = ')' := by
      have hhead := List.head?_dropWhile_not (· ≠ ')') (parameters.flatMap descriptorChars)
      rw [hdrop] at hhead
      simpa using hhead
    subst hfound
    cases tail with
    | cons c rest => exact ⟨c, rest, rfl⟩
    | nil =>
      have hsplit := List.takeWhile_append_dropWhile (p := (· ≠ ')'))
        (l := parameters.flatMap descriptorChars)
      rw [hdrop] at hsplit
      apply absurd _ (getLast?_flatMap_descriptorChars parameters)
      rw [← hsplit, List.getLast?_concat]

/-- If there is a `)` among the parameters, the words of the result do not depend on the result. -/
theorem methodWords_snd_of_mem {parameters : List JavaType}
    (h : ')' ∈ parameters.flatMap descriptorChars) :
    ∃ words, ∀ result, (methodWords (methodDescriptor parameters result)).2 = words := by
  obtain ⟨c, rest, hdrop⟩ := exists_dropWhile h
  refine ⟨valueWords (c :: rest), fun result => ?_⟩
  have hbehind : ∀ more, (parameters.flatMap descriptorChars ++ more).dropWhile (· ≠ ')') =
      ')' :: c :: (rest ++ more) := by
    intro more
    rw [List.dropWhile_append, hdrop]
    simp
  rw [methodWords, methodDescriptor, String.toList_ofList, methodDescriptorChars]
  simp only [hbehind]
  rfl

/-- The words of arguments and result that are read from the descriptor of a method are the widths of
their types, whatever the result, exactly if no class among the parameters has a `)` in its name. -/
theorem methodWords_eq_widths_iff {parameters : List JavaType}
    (hvalued : ∀ t ∈ parameters, t.isVoid = false) (hnames : ∀ t ∈ parameters, t.Names LegalName) :
    (∀ result : JavaType, methodWords (methodDescriptor parameters result) =
        (totalWidth parameters, result.width)) ↔
      ∀ t ∈ parameters, t.Names fun name => ')' ∉ name.toList := by
  constructor
  · intro hwords t ht
    by_contra hname
    have hmem : ')' ∈ parameters.flatMap descriptorChars :=
      List.mem_flatMap.mpr ⟨t, ht, (mem_descriptorChars_iff t).mpr hname⟩
    obtain ⟨words, hconstant⟩ := methodWords_snd_of_mem hmem
    have hvoid := hconstant .void
    have hint := hconstant .int
    rw [hwords] at hvoid hint
    have hsame : JavaType.void.width = JavaType.int.width := hvoid.trans hint.symm
    exact absurd hsame (by decide)
  · intro hclosed result
    have hclean : ∀ t ∈ parameters, t.Names Clean := by
      intro t ht
      apply ((hnames t ht).and (hclosed t ht)).imp
      intro name h
      exact ⟨h.1.2.1, h.2⟩
    obtain ⟨kinds, hkinds, hwords⟩ := exists_kinds hvalued
    rw [methodWords_methodDescriptor hclean hkinds result, hwords, words_kind?]

/-- A method that takes a long, an array of objects and a class with `(` in its name. -/
theorem methodWords_widths_sample :
    methodWords (methodDescriptor [.long, .array (.object { name := "a/b" }), .object { name := "f(x" }]
      .double) = (4, 2) :=
  (methodWords_eq_widths_iff (by decide) (by decide)).mpr (by decide) .double

/-- A class named `a)V` is legal, but a method that takes it and returns a long is measured as one
without result. -/
theorem methodWords_closed_name :
    LegalName "a)V" ∧
      methodWords (methodDescriptor [.object { name := "a)V" }] .long) = (1, 0) ∧
      (totalWidth [.object { name := "a)V" }], JavaType.long.width) = (1, 2) := by
  decide

end Descriptor

end Classwright
