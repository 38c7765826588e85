import Classwright.Generate.StackDepth
import Classwright.JavaType.Descriptor
import Classwright.Proofs.Bodies
import Mathlib.Algebra.Ring.Nat

/-!
# Words

A value takes one word or two, in the slots and on the operand stack.  The words of arguments are counted
in 16 bits, which may not suffice, and they are read off descriptors, which say how many there are if the
names of classes in them contain neither `;` nor `)`.
-/

namespace Classwright

def words (kinds : List Kind) : Nat := (kinds.map Kind.width).sum

@[simp]
theorem words_nil : words [] = 0 := rfl

@[simp]
theorem words_cons (kind : Kind) (kinds : List Kind) :
    words (kind :: kinds) = kind.width + words kinds := rfl

@[simp]
theorem words_append (kinds more : List Kind) : words (kinds ++ more) = words kinds + words more := by
  simp [words]

@[simp]
theorem words_reverse (kinds : List Kind) : words kinds.reverse = words kinds := by
  simp [words, List.sum_reverse]

@[simp]
theorem words_replicate_int (n : Nat) : words (List.replicate n .int) = n := by
  simp [words, Kind.width, Kind.isWide]

theorem length_le_words (kinds : List Kind) : kinds.length ≤ words kinds := by
  induction kinds with
  | nil => simp
  | cons kind kinds ih =>
    have hpos := kind.width_pos
    rw [List.length_cons, words_cons]
    omega

namespace JavaType

def totalWidth (types : List JavaType) : Nat := (types.map width).sum

@[simp]
theorem totalWidth_nil : totalWidth [] = 0 := rfl

@[simp]
theorem totalWidth_cons (t : JavaType) (types : List JavaType) :
    totalWidth (t :: types) = t.width + totalWidth types := rfl

theorem totalWidth_replicate (n : Nat) (t : JavaType) :
    totalWidth (List.replicate n t) = n * t.width := by
  rw [totalWidth, List.map_replicate, List.sum_replicate_nat]

theorem totalWidth_le (types : List JavaType) : totalWidth types ≤ 2 * types.length := by
  induction types with
  | nil => exact Nat.le_refl 0
  | cons t types ih =>
    have hwidth : t.width ≤ 2 := by
      unfold width
      split
      · exact Nat.zero_le 2
      · split <;> decide
    rw [totalWidth_cons, List.length_cons]
    omega

theorem words_kind? (t : JavaType) : words t.kind?.toList = t.width := by
  cases t with
  | primitive p => cases p <;> rfl
  | object c => rfl
  | array component => rfl

theorem totalWidth_eq_words {types : List JavaType} {kinds : List Kind}
    (h : types.map kind? = kinds.map some) : totalWidth types = words kinds := by
  induction types generalizing kinds with
  | nil =>
    cases kinds with
    | nil => rfl
    | cons => cases h
  | cons t types ih =>
    cases kinds with
    | nil => cases h
    | cons kind kinds =>
      obtain ⟨hkind, hrest⟩ := List.cons.inj h
      have hwidth := t.words_kind?
      rw [hkind, Option.toList_some, words_cons, words_nil, Nat.add_zero] at hwidth
      rw [totalWidth_cons, words_cons, ih hrest, hwidth]

/-- Words are counted right, or not at all if 16 bits cannot hold their number. -/
theorem countWords?_eq (start : UInt16) (types : List JavaType) :
    countWords? start types =
      if start.toNat + totalWidth types < 65536 then some (UInt16.ofNat (start.toNat + totalWidth types))
      else none := by
  induction types generalizing start with
  | nil => simp [countWords?, start.toNat_lt]
  | cons t types ih =>
    rw [countWords?, List.foldlM_cons, totalWidth_cons]
    split
    · rename_i hfits
      have hsum : (start + UInt16.ofNat t.width).toNat = start.toNat + t.width := by
        rw [UInt16.toNat_add, UInt16.toNat_ofNat']
        omega
      have hrest := ih (start + UInt16.ofNat t.width)
      rw [hsum, Nat.add_assoc] at hrest
      exact hrest
    · rw [if_neg (by omega)]
      rfl

end JavaType

theorem MethodSymbol.callWords?_eq (m : MethodSymbol) :
    m.callWords? =
      if 1 + JavaType.totalWidth m.parameters < 65536 then
        some (UInt16.ofNat (1 + JavaType.totalWidth m.parameters))
      else none := by
  rw [callWords?, argumentWords?, JavaType.countWords?_eq, UInt16.toNat_zero, Nat.zero_add]
  generalize JavaType.totalWidth m.parameters = words
  by_cases hwords : words < 65536
  · have hcount : (UInt16.ofNat words).toNat = words := by
      rw [UInt16.toNat_ofNat']
      omega
    simp only [if_pos hwords, Option.bind_eq_bind, Option.bind_some, hcount, Nat.add_comm words 1,
      UInt16.ofNat_add]
    rfl
  · rw [if_neg hwords, if_neg (by omega)]
    rfl

theorem MethodSymbol.toNat_of_callWords? (m : MethodSymbol) {count : UInt16}
    (h : m.callWords? = some count) (hbyte : count.toNat ≤ 255) :
    count.toUInt8.toNat = 1 + JavaType.totalWidth m.parameters := by
  rw [callWords?_eq] at h
  split at h
  · cases h
    rw [UInt16.toNat_ofNat'] at hbyte
    rw [UInt16.toNat_toUInt8, UInt16.toNat_ofNat']
    omega
  · cases h

namespace Descriptor

/-- A name of a class that ends at the next `;`. -/
def Ended (name : String) : Prop := ';' ∉ name.toList

instance decidableEnded : DecidablePred Ended := fun name =>
  inferInstanceAs (Decidable (';' ∉ name.toList))

/-- A name of a class that ends where it should in a descriptor. -/
def Clean (name : String) : Prop := ';' ∉ name.toList ∧ ')' ∉ name.toList

instance decidableClean : DecidablePred Clean := fun name =>
  inferInstanceAs (Decidable (';' ∉ name.toList ∧ ')' ∉ name.toList))

theorem Clean.ended {name : String} (h : Clean name) : Ended name := h.1

theorem words_name {name : List Char} (h : ';' ∉ name) (rest : List Char) :
    words .name (name ++ ';' :: rest) = words .outside rest := by
  induction name with
  | nil => rfl
  | cons c name ih =>
    rw [List.mem_cons, not_or] at h
    rw [List.cons_append, words, if_neg (Ne.symm h.1), ih h.2]

theorem words_array {t : JavaType} (h : t.Names Clean) (rest : List Char) :
    words .array (t.descriptorChars ++ rest) = words .outside rest := by
  induction t with
  | primitive p => cases p <;> exact Nat.zero_add _
  | object c =>
    rw [JavaType.descriptorChars, List.cons_append, List.append_assoc]
    exact words_name h.1 rest
  | array component ih => exact ih h

theorem words_outside {t : JavaType} {kind : Kind} (h : t.Names Clean) (hkind : t.kind? = some kind)
    (rest : List Char) :
    words .outside (t.descriptorChars ++ rest) = kind.width + words .outside rest := by
  cases t with
  | primitive p => cases p <;> cases hkind <;> rfl
  | object c =>
    cases hkind
    rw [JavaType.descriptorChars, List.cons_append, List.append_assoc]
    exact congrArg (1 + ·) (words_name h.1 rest)
  | array component =>
    cases hkind
    exact congrArg (1 + ·) (words_array h rest)

theorem words_parameters {parameters : List JavaType} {arguments : List Kind}
    (hnames : ∀ t ∈ parameters, t.Names Clean)
    (hkinds : parameters.map JavaType.kind? = arguments.map some) :
    words .outside (parameters.flatMap JavaType.descriptorChars) = Classwright.words arguments := by
  induction parameters generalizing arguments with
  | nil =>
    cases arguments with
    | nil => rfl
    | cons => cases hkinds
  | cons t parameters ih =>
    cases arguments with
    | nil => cases hkinds
    | cons kind arguments =>
      obtain ⟨hkind, hkinds⟩ := List.cons.inj hkinds
      obtain ⟨hname, hnames⟩ := List.forall_mem_cons.mp hnames
      rw [List.flatMap_cons, words_outside hname hkind, ih hnames hkinds, words_cons]

theorem valueWords_descriptor (t : JavaType) :
    valueWords t.descriptor.toList = Classwright.words t.kind?.toList := by
  rw [JavaType.descriptor, String.toList_ofList]
  cases t with
  | primitive p => cases p <;> rfl
  | object c => rfl
  | array component => rfl

private theorem not_mem_descriptorChars {t : JavaType} (h : t.Names Clean) : ')' ∉ t.descriptorChars := by
  induction t with
  | primitive p => cases p <;> decide
  | object c =>
    have hname := h.2
    simp [JavaType.descriptorChars, hname]
  | array component ih => simpa [JavaType.descriptorChars] using ih h

theorem methodWords_methodDescriptor {parameters : List JavaType} {arguments : List Kind}
    (hnames : ∀ t ∈ parameters, t.Names Clean)
    (hkinds : parameters.map JavaType.kind? = arguments.map some) (type : JavaType) :
    methodWords (JavaType.methodDescriptor parameters type) =
      (Classwright.words arguments, Classwright.words type.kind?.toList) := by
  have hinside : ∀ c ∈ parameters.flatMap JavaType.descriptorChars, decide (c ≠ ')') = true := by
    intro c hc
    obtain ⟨t, ht, hc⟩ := List.mem_flatMap.mp hc
    refine decide_eq_true fun hend => ?_
    rw [hend] at hc
    exact not_mem_descriptorChars (hnames t ht) hc
  have hresult := valueWords_descriptor type
  rw [JavaType.descriptor, String.toList_ofList] at hresult
  rw [methodWords, JavaType.methodDescriptor, String.toList_ofList, JavaType.methodDescriptorChars]
  simp only [List.dropWhile_append_of_pos hinside, List.takeWhile_append_of_pos hinside]
  rw [List.dropWhile_cons_of_neg (by simp), List.takeWhile_cons_of_neg (by simp), List.append_nil,
    words_parameters hnames hkinds]
  exact congrArg (Prod.mk _) hresult

end Descriptor

end Classwright
