import Classwright.Proofs.Descriptors
import Classwright.Proofs.Lowering
import Classwright.Proofs.StackNeutrality

/-!
# Types and their descriptors

Types are compared by their shape and the names of their classes, and so are their descriptors.  In the
descriptor of a method the types stand without separators, and a name may hold any character; but as
long as no name of a parameter holds the `;` that ends it, no descriptor is the beginning of another one,
and the list can be taken apart in one way only.
-/

namespace Classwright

theorem ClassType.beq_iff {c d : ClassType} : (c == d) = true ↔ c.name = d.name :=
  beq_iff_eq (a := c.name)

namespace JavaType

open Descriptor

theorem object_beq_iff {c d : ClassType} : (object c == object d) = true ↔ c.name = d.name :=
  ClassType.beq_iff

private theorem descriptorChars_eq_of_beq {t u : JavaType} (h : (t == u) = true) :
    t.descriptorChars = u.descriptorChars := by
  induction t generalizing u with
  | primitive p =>
    cases u with
    | primitive q => rw [eq_of_beq (show (p == q) = true from h)]
    | object d => cases h
    | array b => cases h
  | object c =>
    cases u with
    | primitive q => cases h
    | object d => rw [descriptorChars, descriptorChars, object_beq_iff.mp h]
    | array b => cases h
  | array a ih =>
    cases u with
    | primitive q => cases h
    | object d => cases h
    | array b => rw [descriptorChars, descriptorChars, ih h]

private theorem flatMap_descriptorChars_eq_of_beq {ts us : List JavaType} (h : (ts == us) = true) :
    ts.flatMap descriptorChars = us.flatMap descriptorChars := by
  induction ts generalizing us with
  | nil =>
    cases us with
    | nil => rfl
    | cons u us => cases h
  | cons t ts ih =>
    cases us with
    | nil => cases h
    | cons u us =>
      rw [List.cons_beq_cons] at h
      obtain ⟨hhead, htail⟩ := Bool.and_eq_true_iff.mp h
      rw [List.flatMap_cons, List.flatMap_cons, descriptorChars_eq_of_beq hhead, ih htail]

private theorem letter_injective {p q : Primitive} (h : p.letter = q.letter) : p = q := by
  cases p <;> cases q <;> first | rfl | exact absurd h (by decide)

private theorem letter_ne (p : Primitive) : p.letter ≠ 'L' ∧ p.letter ≠ '[' ∧ p.letter ≠ ')' := by
  cases p <;> decide

/-- Types whose descriptors become the same text when `rest` and `more` are put behind them. -/
inductive Aligned (rest more : List Char) : JavaType → JavaType → Prop where
  | primitive (p : Primitive) (h : rest = more) : Aligned rest more (.primitive p) (.primitive p)
  | object (c d : ClassType) (h : c.name.toList ++ ';' :: rest = d.name.toList ++ ';' :: more) :
    Aligned rest more (.object c) (.object d)
  | array {a b : JavaType} (h : Aligned rest more a b) : Aligned rest more (.array a) (.array b)

private theorem aligned_of_eq {t u : JavaType} {rest more : List Char}
    (h : t.descriptorChars ++ rest = u.descriptorChars ++ more) : Aligned rest more t u := by
  induction t generalizing u with
  | primitive p =>
    obtain ⟨hobject, harray, -⟩ := letter_ne p
    cases u with
    | primitive q =>
      obtain ⟨hletter, hrest⟩ := List.cons.inj h
      exact letter_injective hletter ▸ .primitive p hrest
    | object d => exact absurd (List.cons.inj h).1 hobject
    | array b => exact absurd (List.cons.inj h).1 harray
  | object c =>
    cases u with
    | primitive q => exact absurd (List.cons.inj h).1.symm (letter_ne q).1
    | object d => exact .object c d (by simpa [descriptorChars] using h)
    | array b => exact absurd (List.cons.inj h).1 (by decide)
  | array a ih =>
    cases u with
    | primitive q => exact absurd (List.cons.inj h).1.symm (letter_ne q).2.1
    | object d => exact absurd (List.cons.inj h).1 (by decide)
    | array b => exact .array (ih (List.cons.inj h).2)

private theorem name_append_inj {name other rest more : List Char} (hname : ';' ∉ name)
    (hother : ';' ∉ other) (h : name ++ ';' :: rest = other ++ ';' :: more) :
    name = other ∧ rest = more := by
  induction name generalizing other with
  | nil =>
    cases other with
    | nil => exact ⟨rfl, (List.cons.inj h).2⟩
    | cons d other => exact absurd (List.mem_cons.mpr (.inl (List.cons.inj h).1)) hother
  | cons c name ih =>
    rw [List.mem_cons, not_or] at hname
    cases other with
    | nil => exact absurd (List.cons.inj h).1.symm hname.1
    | cons d other =>
      rw [List.mem_cons, not_or] at hother
      obtain ⟨hhead, htail⟩ := List.cons.inj h
      obtain ⟨hsame, hrest⟩ := ih hname.2 hother.2 htail
      exact ⟨by rw [hhead, hsame], hrest⟩

/-- A descriptor can be told from what follows it. -/
theorem descriptorChars_append_inj {t u : JavaType} (ht : t.Names Ended) (hu : u.Names Ended)
    {rest more : List Char} (h : t.descriptorChars ++ rest = u.descriptorChars ++ more) :
    (t == u) = true ∧ rest = more := by
  induction aligned_of_eq h with
  | primitive p hrest => exact ⟨beq_self_eq_true p, hrest⟩
  | object c d hname =>
    obtain ⟨hsame, hrest⟩ := name_append_inj ht hu hname
    exact ⟨object_beq_iff.mpr (String.toList_inj.mp hsame), hrest⟩
  | array haligned ih => exact ih ht hu (List.cons.inj h).2

private theorem descriptorChars_append_ne (t : JavaType) (rest more : List Char) :
    t.descriptorChars ++ rest ≠ ')' :: more := by
  intro h
  cases t with
  | primitive p => exact (letter_ne p).2.2 (List.cons.inj h).1
  | object c => exact absurd (List.cons.inj h).1 (by decide)
  | array a => exact absurd (List.cons.inj h).1 (by decide)

private theorem parameters_append_inj {ps qs : List JavaType} (hps : ∀ t ∈ ps, t.Names Ended)
    (hqs : ∀ t ∈ qs, t.Names Ended) {rest more : List Char}
    (h : ps.flatMap descriptorChars ++ ')' :: rest = qs.flatMap descriptorChars ++ ')' :: more) :
    (ps == qs) = true ∧ rest = more := by
  induction ps generalizing qs with
  | nil =>
    cases qs with
    | nil => exact ⟨rfl, (List.cons.inj h).2⟩
    | cons q qs =>
      rw [List.flatMap_cons, List.append_assoc] at h
      exact absurd h.symm (descriptorChars_append_ne q _ _)
  | cons p ps ih =>
    obtain ⟨hp, hps⟩ := List.forall_mem_cons.mp hps
    rw [List.flatMap_cons, List.append_assoc] at h
    cases qs with
    | nil => exact absurd h (descriptorChars_append_ne p _ _)
    | cons q qs =>
      obtain ⟨hq, hqs⟩ := List.forall_mem_cons.mp hqs
      rw [List.flatMap_cons, List.append_assoc] at h
      obtain ⟨hhead, htail⟩ := descriptorChars_append_inj hp hq h
      obtain ⟨hsame, hrest⟩ := ih hps hqs htail
      exact ⟨by rw [List.cons_beq_cons, hhead, hsame, Bool.and_true], hrest⟩

/-- Where nothing follows the descriptor, the class may have any name. -/
theorem beq_of_descriptorChars_eq {t u : JavaType} (h : t.descriptorChars = u.descriptorChars) :
    (t == u) = true := by
  have haligned : Aligned [] [] t u := aligned_of_eq (congrArg (· ++ []) h)
  clear h
  induction haligned with
  | primitive p _ => exact beq_self_eq_true p
  | object c d hname =>
    have hsame : c.name.toList = d.name.toList := List.append_cancel_right hname
    exact object_beq_iff.mpr (String.toList_inj.mp hsame)
  | array _ ih => exact ih

theorem descriptor_eq_iff (t u : JavaType) : t.descriptor = u.descriptor ↔ (t == u) = true := by
  rw [descriptor, descriptor, String.ofList_inj]
  exact ⟨beq_of_descriptorChars_eq, descriptorChars_eq_of_beq⟩

theorem methodDescriptor_eq_iff {ps qs : List JavaType} (hps : ∀ t ∈ ps, t.Names Ended)
    (hqs : ∀ t ∈ qs, t.Names Ended) (r s : JavaType) :
    methodDescriptor ps r = methodDescriptor qs s ↔ (ps == qs) = true ∧ (r == s) = true := by
  rw [methodDescriptor, methodDescriptor, String.ofList_inj]
  constructor
  · intro h
    obtain ⟨hparameters, hresult⟩ := parameters_append_inj hps hqs (List.cons.inj h).2
    exact ⟨hparameters, beq_of_descriptorChars_eq hresult⟩
  · rintro ⟨hparameters, hresult⟩
    rw [methodDescriptorChars, methodDescriptorChars, flatMap_descriptorChars_eq_of_beq hparameters,
      descriptorChars_eq_of_beq hresult]

end JavaType

private theorem MethodSymbol.eq_of_reference_eq {m n : MethodSymbol} (h : m.reference = n.reference) :
    m.owner.name = n.owner.name ∧ m.name = n.name ∧ m.descriptor = n.descriptor := by
  unfold reference at h
  split at h <;> split at h
  · exact Pool.Request.interfaceMethodRef.inj h
  · cases h
  · cases h
  · exact Pool.Request.methodRef.inj h

private theorem Pool.request_eq_of_answers {history : List Request} {k l : Nat} {r s : Request}
    {i : UInt16} (hr : history[k]? = some r) (hs : history[l]? = some s)
    (hk : (answers history)[k]? = some (.ok i)) (hl : (answers history)[l]? = some (.ok i)) : r = s :=
  Option.some.inj ((sound_empty.meaning?_serve hr hk).symm.trans (sound_empty.meaning?_serve hs hl))

/-- Methods have the same descriptor exactly if their parameters and results are the same, as long as
no class among the parameters has a `;` in its name, and fields and locals exactly if their types are.
So two methods to which the pool gave one index agree in all that tells methods apart, and two locals
whose descriptors have one index have the same type. -/
theorem JavaType.descriptors_tell_types_apart :
    (∀ (ps qs : List JavaType) (r s : JavaType), (∀ t ∈ ps ++ qs, t.Names Descriptor.Ended) →
      (methodDescriptor ps r = methodDescriptor qs s ↔ (ps == qs) = true ∧ (r == s) = true)) ∧
    (∀ t u : JavaType, t.descriptor = u.descriptor ↔ (t == u) = true) ∧
    ∀ (history : List Pool.Request) (k l : Nat) (i : UInt16),
      (Pool.answers history)[k]? = some (.ok i) → (Pool.answers history)[l]? = some (.ok i) →
      (∀ m n : MethodSymbol, (∀ t ∈ m.parameters ++ n.parameters, t.Names Descriptor.Ended) →
        history[k]? = some m.reference → history[l]? = some n.reference →
        (m.owner == n.owner) = true ∧ m.name = n.name ∧ (m.parameters == n.parameters) = true ∧
          (m.result == n.result) = true) ∧
      ∀ t u : JavaType, history[k]? = some (.utf8 t.descriptor) →
        history[l]? = some (.utf8 u.descriptor) → (t == u) = true := by
  have hmethods : ∀ (ps qs : List JavaType) (r s : JavaType),
      (∀ t ∈ ps ++ qs, t.Names Descriptor.Ended) →
      (methodDescriptor ps r = methodDescriptor qs s ↔ (ps == qs) = true ∧ (r == s) = true) := by
    intro ps qs r s hnames
    obtain ⟨hps, hqs⟩ := List.forall_mem_append.mp hnames
    exact methodDescriptor_eq_iff hps hqs r s
  refine ⟨hmethods, descriptor_eq_iff, fun history k l i hk hl => ⟨?_, ?_⟩⟩
  · intro m n hnames hm hn
    obtain ⟨howner, hname, hdescriptor⟩ :=
      MethodSymbol.eq_of_reference_eq (Pool.request_eq_of_answers hm hn hk hl)
    obtain ⟨hparameters, hresult⟩ := (hmethods _ _ _ _ hnames).mp hdescriptor
    exact ⟨ClassType.beq_iff.mpr howner, hname, hparameters, hresult⟩
  · intro t u ht hu
    have hsame := Pool.request_eq_of_answers ht hu hk hl
    exact (descriptor_eq_iff t u).mp (Pool.Request.utf8.inj hsame)

/-- A method on pages, of which the given supertypes are known.  The name of their class looks like the
end of a descriptor. -/
def MethodSymbol.pages (supertypes : List String) : MethodSymbol where
  owner := { name := "Book" }
  name := "pages"
  parameters := [.object { name := "Page)V", supertypes }, .array (.array .long)]
  result := .array (.object { name := "Page)V", supertypes })

/-- A method that is asked for twice before all others has the index behind its parts both times. -/
private theorem Pool.answers_methodRef_twice {owner name descriptor : String}
    (howner : (ModifiedUtf8.encode owner).length ≤ 65535)
    (hname : (ModifiedUtf8.encode name).length ≤ 65535)
    (hdescriptor : (ModifiedUtf8.encode descriptor).length ≤ 65535)
    (hon : owner ≠ name) (hod : owner ≠ descriptor) (hnd : name ≠ descriptor) :
    answers [.methodRef owner name descriptor, .methodRef owner name descriptor] = [.ok 6, .ok 6] := by
  have hon := mt ModifiedUtf8.encode_injective hon
  have hod := mt ModifiedUtf8.encode_injective hod
  have hnd := mt ModifiedUtf8.encode_injective hnd
  have hfirst : (Request.intern (.methodRef owner name descriptor) {}).1 = .ok 6 := by
    simp [Request.intern, methodRef, member, classInfo, nameAndType, utf8, ModifiedUtf8.encode16?, howner,
      hname, hdescriptor, bind, ExceptT.bind, ExceptT.mk, ExceptT.bindCont, StateT.bind, intern, push, count,
      maxSlots, Entry.slots, Entry.width, Entry.isWide, hon, hod, hnd]
  have hsound := sound_empty.answers (.methodRef owner name descriptor)
  have hsecond := hsound.sound.intern_of_meaning? (hsound.of_ok 6 hfirst).1
  rw [answers, serve, serve, serve, hfirst, hsecond]

/-- The method is the same one whether or not the supertypes of its parameter are known. -/
theorem JavaType.pages_told_apart :
    let m := MethodSymbol.pages ["java/lang/Object"]
    let n := MethodSymbol.pages []
    (∀ t ∈ m.parameters ++ n.parameters, t.Names Descriptor.Ended) ∧
    Pool.answers [m.reference, n.reference] = [.ok 6, .ok 6] ∧
    methodDescriptor m.parameters m.result = methodDescriptor n.parameters n.result ∧
    (m.parameters == n.parameters) = true ∧ (m.result == n.result) = true := by
  intro m n
  have hnames : ∀ t ∈ m.parameters ++ n.parameters, t.Names Descriptor.Ended := by decide
  have hanswers : Pool.answers [m.reference, n.reference] = [.ok 6, .ok 6] :=
    Pool.answers_methodRef_twice (by decide) (by decide) (by decide) (by decide) (by decide) (by decide)
  obtain ⟨hmethods, -, hpool⟩ := descriptors_tell_types_apart
  obtain ⟨-, -, hparameters, hresult⟩ :=
    (hpool [m.reference, n.reference] 0 1 6 (by rw [hanswers]; rfl) (by rw [hanswers]; rfl)).1
      m n hnames rfl rfl
  exact ⟨hnames, hanswers, (hmethods _ _ _ _ hnames).mpr ⟨hparameters, hresult⟩, hparameters, hresult⟩

end Classwright
