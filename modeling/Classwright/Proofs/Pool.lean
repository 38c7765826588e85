import Mathlib.Algebra.BigOperators.Group.Finset.Basic
import Mathlib.Algebra.Order.BigOperators.Group.Finset
import Classwright.Pool.Basic
import Classwright.Proofs.Text

/-!
# Soundness of the constant pool

What a pool stands for is read off its slots: every index means one request, a text, a number or a
member by its names.  A pool is sound when its slots and its index of entries agree, every
entry refers to earlier ones of the right kind, and the slots are exactly those of the requests it
knows.  Interning keeps a pool sound, adds only what a request is made of, and fails only if a
text is too long or the slots do not suffice.
-/

namespace Classwright

namespace Entry

/-- Every long and double is followed by an unusable slot, and no other slot is unusable. -/
def WellSlotted (entries : List Entry) : Prop :=
  (∀ i e, entries[i]? = some e → e.isWide = true → entries[i + 1]? = some .unusable) ∧
    ∀ i, entries[i]? = some .unusable →
      ∃ j e, i = j + 1 ∧ entries[j]? = some e ∧ e.isWide = true

theorem slots_of_wide {e : Entry} (h : e.isWide = true) : e.slots = [e, .unusable] := by
  rw [slots, if_pos h]

theorem slots_of_not_wide {e : Entry} (h : e.isWide = false) : e.slots = [e] := by
  rw [slots, h]
  rfl

theorem length_slots (e : Entry) : e.slots.length = e.width := by
  cases h : e.isWide <;> simp [slots, width, h]

theorem slots_head? (e : Entry) : e.slots[0]? = some e := by
  cases h : e.isWide <;> simp [slots, h]

theorem wellSlotted_nil : WellSlotted [] := by
  constructor <;> simp

private theorem WellSlotted.append_slots {entries : List Entry} (h : WellSlotted entries) {e : Entry}
    (he : e ≠ .unusable) : WellSlotted (entries ++ e.slots) := by
  obtain ⟨hwide, hunusable⟩ := h
  constructor
  · intro i f hf hw
    by_cases hi : i < entries.length
    · rw [List.getElem?_append_left hi] at hf
      have hnext := hwide i f hf hw
      have hlt : i + 1 < entries.length := (List.getElem?_eq_some_iff.mp hnext).1
      rw [List.getElem?_append_left hlt]
      exact hnext
    · rw [List.getElem?_append_right (by omega)] at hf ⊢
      cases hew : e.isWide with
      | false =>
        rw [slots_of_not_wide hew, List.getElem?_singleton] at hf
        split at hf
        · cases hf
          rw [hew] at hw
          cases hw
        · cases hf
      | true =>
        rw [slots_of_wide hew] at hf ⊢
        have hpos : i - entries.length = 0 := by
          rcases Nat.lt_or_ge (i - entries.length) 1 with hlt | hge
          · omega
          · have hlen := (List.getElem?_eq_some_iff.mp hf).1
            have hone : i - entries.length = 1 := by
              simp only [List.length_cons, List.length_nil] at hlen
              omega
            rw [hone] at hf
            cases hf
            cases hw
        rw [show i + 1 - entries.length = 1 by omega]
        rfl
  · intro i hi
    by_cases hlt : i < entries.length
    · rw [List.getElem?_append_left hlt] at hi
      obtain ⟨j, f, rfl, hj, hw⟩ := hunusable i hi
      exact ⟨j, f, rfl, by rw [List.getElem?_append_left (by omega)]; exact hj, hw⟩
    · rw [List.getElem?_append_right (by omega)] at hi
      cases hew : e.isWide with
      | false =>
        rw [slots_of_not_wide hew, List.getElem?_singleton] at hi
        split at hi
        · cases hi
          exact absurd rfl he
        · cases hi
      | true =>
        rw [slots_of_wide hew] at hi
        have hlen := (List.getElem?_eq_some_iff.mp hi).1
        simp only [List.length_cons, List.length_nil] at hlen
        have hne : i - entries.length ≠ 0 := by
          intro hz
          rw [hz] at hi
          cases hi
          exact he rfl
        refine ⟨entries.length, e, by omega, ?_, hew⟩
        rw [List.getElem?_append_right (Nat.le_refl _), Nat.sub_self]
        exact slots_head? e

end Entry

namespace Pool

/-- A constant that is asked for by what it says. -/
inductive Request where
  | utf8 (text : String)
  | integer (value : Int32)
  | float (bits : UInt32)
  | long (value : Int64)
  | double (bits : UInt64)
  | classInfo (name : String)
  | string (value : String)
  | nameAndType (name descriptor : String)
  | fieldRef (owner name descriptor : String)
  | methodRef (owner name descriptor : String)
  | interfaceMethodRef (owner name descriptor : String)
  deriving DecidableEq

namespace Request

def intern : Request → Interning UInt16
  | utf8 text => Pool.utf8 text
  | integer value => Pool.integer value
  | float bits => Pool.float bits
  | long value => Pool.long value
  | double bits => Pool.double bits
  | classInfo name => Pool.classInfo name
  | string value => Pool.string value
  | nameAndType name descriptor => Pool.nameAndType name descriptor
  | fieldRef owner name descriptor => Pool.fieldRef owner name descriptor
  | methodRef owner name descriptor => Pool.methodRef owner name descriptor
  | interfaceMethodRef owner name descriptor => Pool.interfaceMethodRef owner name descriptor

def width : Request → Nat
  | long _ | double _ => 2
  | _ => 1

def texts : Request → List String
  | utf8 text | classInfo text | string text => [text]
  | nameAndType name descriptor => [name, descriptor]
  | fieldRef owner name descriptor | methodRef owner name descriptor
  | interfaceMethodRef owner name descriptor => [owner, name, descriptor]
  | _ => []

def memberParts (owner name descriptor : String) : Finset Request :=
  {utf8 owner, classInfo owner, utf8 name, utf8 descriptor, nameAndType name descriptor}

/-- The constant with all that it refers to. -/
def parts : Request → Finset Request
  | classInfo name => {utf8 name, classInfo name}
  | string value => {utf8 value, string value}
  | nameAndType name descriptor =>
    {utf8 name, utf8 descriptor, nameAndType name descriptor}
  | fieldRef owner name descriptor =>
    memberParts owner name descriptor ∪ {fieldRef owner name descriptor}
  | methodRef owner name descriptor =>
    memberParts owner name descriptor ∪ {methodRef owner name descriptor}
  | interfaceMethodRef owner name descriptor =>
    memberParts owner name descriptor ∪ {interfaceMethodRef owner name descriptor}
  | r => {r}

end Request

/-- The slots of one pool are the first slots of the other. -/
instance : LE Pool := ⟨fun p q => p.entries.toList <+: q.entries.toList⟩

protected theorem le_refl (p : Pool) : p ≤ p := List.prefix_refl _

protected theorem le_trans {p q r : Pool} (hpq : p ≤ q) (hqr : q ≤ r) : p ≤ r :=
  List.IsPrefix.trans hpq hqr

def className? (p : Pool) (i : UInt16) : Option String :=
  match p.get? i with
  | some (.classInfo name) => p.text? name
  | _ => none

def memberName? (p : Pool) (i : UInt16) : Option String :=
  match p.get? i with
  | some (.nameAndType name _) => p.text? name
  | _ => none

def memberType? (p : Pool) (i : UInt16) : Option String :=
  match p.get? i with
  | some (.nameAndType _ descriptor) => p.text? descriptor
  | _ => none

def memberReading? (p : Pool) (make : String → String → String → Request) (owner nt : UInt16) :
    Option Request := do
  let owner ← p.className? owner
  let name ← p.memberName? nt
  let descriptor ← p.memberType? nt
  return make owner name descriptor

/-- What an entry stands for, with the entries it refers to. -/
def reading? (p : Pool) : Entry → Option Request
  | .utf8 bytes => some (.utf8 (ModifiedUtf8.decode bytes))
  | .integer value => some (.integer value)
  | .float bits => some (.float bits)
  | .long value => some (.long value)
  | .double bits => some (.double bits)
  | .classInfo name => (p.text? name).map .classInfo
  | .string text => (p.text? text).map .string
  | .nameAndType name descriptor => do
    let name ← p.text? name
    let descriptor ← p.text? descriptor
    return .nameAndType name descriptor
  | .fieldRef owner nt => p.memberReading? .fieldRef owner nt
  | .methodRef owner nt => p.memberReading? .methodRef owner nt
  | .interfaceMethodRef owner nt => p.memberReading? .interfaceMethodRef owner nt
  | _ => none

def meaning? (p : Pool) (i : UInt16) : Option Request := (p.get? i).bind p.reading?

def known (p : Pool) : Finset Request :=
  ((List.range p.entries.size).filterMap fun k => p.meaning? (UInt16.ofNat (k + 1))).toFinset

theorem get?_eq_some_iff {p : Pool} {i : UInt16} {e : Entry} :
    p.get? i = some e ↔ i ≠ 0 ∧ p.entries.toList[i.toNat - 1]? = some e := by
  unfold get? entryAt?
  split
  · rename_i h
    simp [h]
  · rename_i h
    simp [h, Array.getElem?_toList]

private theorem toNat_le_of_get? {p : Pool} {i : UInt16} {e : Entry} (h : p.get? i = some e) :
    0 < i.toNat ∧ i.toNat ≤ p.entries.size := by
  obtain ⟨hne, hget⟩ := get?_eq_some_iff.mp h
  have hlt := (List.getElem?_eq_some_iff.mp hget).1
  have hpos : i.toNat ≠ 0 := fun hz => hne (UInt16.toNat_inj.mp hz)
  simp only [Array.length_toList] at hlt
  omega

section Monotone

variable {p q : Pool} {i : UInt16}

theorem get?_mono (hpq : p ≤ q) {e : Entry} (h : p.get? i = some e) : q.get? i = some e := by
  obtain ⟨hne, hget⟩ := get?_eq_some_iff.mp h
  obtain ⟨more, hmore⟩ := hpq
  have hlt := (List.getElem?_eq_some_iff.mp hget).1
  refine get?_eq_some_iff.mpr ⟨hne, ?_⟩
  rw [← hmore, List.getElem?_append_left hlt]
  exact hget

theorem text?_eq_some_iff {text : String} :
    p.text? i = some text ↔
      ∃ bytes, p.get? i = some (.utf8 bytes) ∧ ModifiedUtf8.decode bytes = text := by
  unfold text?
  split
  · rename_i bytes h
    simp [h]
  · rename_i h
    constructor
    · intro hnone
      cases hnone
    · rintro ⟨bytes, hget, -⟩
      exact absurd hget (h bytes)

theorem text?_mono (hpq : p ≤ q) {text : String} (h : p.text? i = some text) :
    q.text? i = some text := by
  obtain ⟨bytes, hget, htext⟩ := text?_eq_some_iff.mp h
  exact text?_eq_some_iff.mpr ⟨bytes, get?_mono hpq hget, htext⟩

theorem className?_eq_some_iff {name : String} :
    p.className? i = some name ↔
      ∃ j, p.get? i = some (.classInfo j) ∧ p.text? j = some name := by
  unfold className?
  split
  · rename_i j h
    simp [h]
  · rename_i h
    constructor
    · intro hnone
      cases hnone
    · rintro ⟨j, hget, -⟩
      exact absurd hget (h j)

theorem className?_mono (hpq : p ≤ q) {name : String} (h : p.className? i = some name) :
    q.className? i = some name := by
  obtain ⟨j, hget, htext⟩ := className?_eq_some_iff.mp h
  exact className?_eq_some_iff.mpr ⟨j, get?_mono hpq hget, text?_mono hpq htext⟩

theorem memberName?_eq_some_iff {name : String} :
    p.memberName? i = some name ↔
      ∃ j k, p.get? i = some (.nameAndType j k) ∧ p.text? j = some name := by
  unfold memberName?
  split
  · rename_i j k h
    simp [h]
  · rename_i h
    constructor
    · intro hnone
      cases hnone
    · rintro ⟨j, k, hget, -⟩
      exact absurd hget (h j k)

theorem memberType?_eq_some_iff {descriptor : String} :
    p.memberType? i = some descriptor ↔
      ∃ j k, p.get? i = some (.nameAndType j k) ∧ p.text? k = some descriptor := by
  unfold memberType?
  split
  · rename_i j k h
    simp [h]
  · rename_i h
    constructor
    · intro hnone
      cases hnone
    · rintro ⟨j, k, hget, -⟩
      exact absurd hget (h j k)

theorem memberDescriptor?_eq_memberType? {owner nt : UInt16}
    (h : p.get? i = some (.fieldRef owner nt) ∨ p.get? i = some (.methodRef owner nt) ∨
      p.get? i = some (.interfaceMethodRef owner nt)) :
    p.memberDescriptor? i = p.memberType? nt := by
  rcases h with h | h | h <;>
  · simp only [memberDescriptor?, h]
    rfl

theorem memberName?_mono (hpq : p ≤ q) {name : String} (h : p.memberName? i = some name) :
    q.memberName? i = some name := by
  obtain ⟨j, k, hget, htext⟩ := memberName?_eq_some_iff.mp h
  exact memberName?_eq_some_iff.mpr ⟨j, k, get?_mono hpq hget, text?_mono hpq htext⟩

theorem memberType?_mono (hpq : p ≤ q) {descriptor : String}
    (h : p.memberType? i = some descriptor) : q.memberType? i = some descriptor := by
  obtain ⟨j, k, hget, htext⟩ := memberType?_eq_some_iff.mp h
  exact memberType?_eq_some_iff.mpr ⟨j, k, get?_mono hpq hget, text?_mono hpq htext⟩

theorem memberReading?_eq_some_iff {make : String → String → String → Request}
    {owner nt : UInt16} {r : Request} :
    p.memberReading? make owner nt = some r ↔
      ∃ o n d, p.className? owner = some o ∧ p.memberName? nt = some n ∧
        p.memberType? nt = some d ∧ make o n d = r := by
  simp [memberReading?, Option.bind_eq_some_iff]

private theorem memberReading?_mono (hpq : p ≤ q) {make : String → String → String → Request}
    {owner nt : UInt16} {r : Request} (h : p.memberReading? make owner nt = some r) :
    q.memberReading? make owner nt = some r := by
  obtain ⟨o, n, d, ho, hn, hd, rfl⟩ := memberReading?_eq_some_iff.mp h
  exact memberReading?_eq_some_iff.mpr
    ⟨o, n, d, className?_mono hpq ho, memberName?_mono hpq hn, memberType?_mono hpq hd, rfl⟩

theorem reading?_mono (hpq : p ≤ q) {e : Entry} {r : Request} (h : p.reading? e = some r) :
    q.reading? e = some r := by
  cases e with
  | classInfo name =>
    obtain ⟨text, htext, rfl⟩ := Option.map_eq_some_iff.mp h
    simp [reading?, text?_mono hpq htext]
  | string text =>
    obtain ⟨value, hvalue, rfl⟩ := Option.map_eq_some_iff.mp h
    simp [reading?, text?_mono hpq hvalue]
  | nameAndType name descriptor =>
    simp only [reading?, Option.bind_eq_bind, Option.bind_eq_some_iff] at h
    obtain ⟨n, hn, d, hd, hr⟩ := h
    simpa [reading?, text?_mono hpq hn, text?_mono hpq hd] using hr
  | fieldRef owner nt => exact memberReading?_mono hpq h
  | methodRef owner nt => exact memberReading?_mono hpq h
  | interfaceMethodRef owner nt => exact memberReading?_mono hpq h
  | _ => exact h

theorem meaning?_eq_some_iff {r : Request} :
    p.meaning? i = some r ↔ ∃ e, p.get? i = some e ∧ p.reading? e = some r :=
  Option.bind_eq_some_iff

theorem meaning?_mono (hpq : p ≤ q) {r : Request} (h : p.meaning? i = some r) :
    q.meaning? i = some r := by
  obtain ⟨e, hget, hreading⟩ := meaning?_eq_some_iff.mp h
  exact meaning?_eq_some_iff.mpr ⟨e, get?_mono hpq hget, reading?_mono hpq hreading⟩

end Monotone

/-- The slot `j` stands before `i` and holds a text. -/
def TextBefore (p : Pool) (i j : UInt16) : Prop :=
  j.toNat < i.toNat ∧ ∃ bytes, p.get? j = some (.utf8 bytes)

def ClassBefore (p : Pool) (i j : UInt16) : Prop :=
  j.toNat < i.toNat ∧ ∃ name, p.get? j = some (.classInfo name)

def TypeBefore (p : Pool) (i j : UInt16) : Prop :=
  j.toNat < i.toNat ∧ ∃ name descriptor, p.get? j = some (.nameAndType name descriptor)

/-- The entry at `i` refers only to earlier slots with entries of the right kind, and a text is the
written form of one. -/
def Grounded (p : Pool) (i : UInt16) : Entry → Prop
  | .utf8 bytes => ∃ text, ModifiedUtf8.encode16? text = some bytes
  | .classInfo name => p.TextBefore i name
  | .string text => p.TextBefore i text
  | .nameAndType name descriptor => p.TextBefore i name ∧ p.TextBefore i descriptor
  | .fieldRef owner nt => p.ClassBefore i owner ∧ p.TypeBefore i nt
  | .methodRef owner nt => p.ClassBefore i owner ∧ p.TypeBefore i nt
  | .interfaceMethodRef owner nt => p.ClassBefore i owner ∧ p.TypeBefore i nt
  | .methodHandle .. | .methodType _ | .invokeDynamic .. => False
  | .integer _ | .float _ | .long _ | .double _ | .unusable => True

/-- The slots, the index of entries and what the pool stands for agree. -/
structure Sound (p : Pool) : Prop where
  size_le : p.entries.size ≤ maxSlots
  wellSlotted : Entry.WellSlotted p.entries.toList
  index_iff : ∀ e i, p.index[e]? = some i ↔ e ≠ .unusable ∧ p.get? i = some e
  grounded : ∀ i e, p.get? i = some e → p.Grounded i e
  size_eq : p.entries.size = ∑ r ∈ p.known, r.width

theorem get?_empty (i : UInt16) : ({} : Pool).get? i = none := by
  simp [get?, entryAt?]

theorem sound_empty : ({} : Pool).Sound where
  size_le := by simp
  wellSlotted := Entry.wellSlotted_nil
  index_iff e i := by simp [get?_empty]
  grounded i e h := by simp [get?_empty] at h
  size_eq := by simp [known]

theorem toNat_count {p : Pool} (h : p.entries.size ≤ maxSlots) :
    p.count.toNat = p.entries.size + 1 := by
  simp only [maxSlots] at h
  rw [count, UInt16.toNat_ofNat']
  omega

section Grounded

variable {p q : Pool} {i j : UInt16}

theorem TextBefore.mono (hpq : p ≤ q) (h : p.TextBefore i j) : q.TextBefore i j :=
  ⟨h.1, h.2.imp fun _ => get?_mono hpq⟩

theorem ClassBefore.mono (hpq : p ≤ q) (h : p.ClassBefore i j) : q.ClassBefore i j :=
  ⟨h.1, h.2.imp fun _ => get?_mono hpq⟩

theorem TypeBefore.mono (hpq : p ≤ q) (h : p.TypeBefore i j) : q.TypeBefore i j :=
  ⟨h.1, h.2.imp fun _ => Exists.imp fun _ => get?_mono hpq⟩

theorem Grounded.mono (hpq : p ≤ q) {e : Entry} (h : p.Grounded i e) : q.Grounded i e := by
  cases e with
  | classInfo name => exact TextBefore.mono hpq h
  | string text => exact TextBefore.mono hpq h
  | nameAndType name descriptor => exact ⟨h.1.mono hpq, h.2.mono hpq⟩
  | fieldRef owner nt => exact ⟨h.1.mono hpq, h.2.mono hpq⟩
  | methodRef owner nt => exact ⟨h.1.mono hpq, h.2.mono hpq⟩
  | interfaceMethodRef owner nt => exact ⟨h.1.mono hpq, h.2.mono hpq⟩
  | _ => exact h

private theorem TextBefore.text? (h : p.TextBefore i j) : ∃ text, p.text? j = some text := by
  obtain ⟨-, bytes, hbytes⟩ := h
  exact ⟨_, text?_eq_some_iff.mpr ⟨bytes, hbytes, rfl⟩⟩

private theorem ClassBefore.className? (hp : p.Sound) (h : p.ClassBefore i j) :
    ∃ name, p.className? j = some name := by
  obtain ⟨-, k, hk⟩ := h
  obtain ⟨name, hname⟩ := TextBefore.text? (hp.grounded j _ hk)
  exact ⟨name, className?_eq_some_iff.mpr ⟨k, hk, hname⟩⟩

private theorem TypeBefore.memberName? (hp : p.Sound) (h : p.TypeBefore i j) :
    ∃ name descriptor, p.memberName? j = some name ∧ p.memberType? j = some descriptor := by
  obtain ⟨-, k, l, hkl⟩ := h
  have hground := hp.grounded j _ hkl
  obtain ⟨name, hname⟩ := hground.1.text?
  obtain ⟨descriptor, hdescriptor⟩ := hground.2.text?
  exact ⟨name, descriptor, memberName?_eq_some_iff.mpr ⟨k, l, hkl, hname⟩,
    memberType?_eq_some_iff.mpr ⟨k, l, hkl, hdescriptor⟩⟩

private theorem memberReading?_of_grounded (hp : p.Sound) {owner nt : UInt16}
    (make : String → String → String → Request)
    (h : p.ClassBefore i owner ∧ p.TypeBefore i nt) :
    ∃ r, p.memberReading? make owner nt = some r := by
  obtain ⟨o, ho⟩ := h.1.className? hp
  obtain ⟨n, d, hn, hd⟩ := h.2.memberName? hp
  exact ⟨_, memberReading?_eq_some_iff.mpr ⟨o, n, d, ho, hn, hd, rfl⟩⟩

private theorem Grounded.reading? (hp : p.Sound) {e : Entry} (h : p.Grounded i e) (he : e ≠ .unusable) :
    ∃ r, p.reading? e = some r := by
  cases e with
  | classInfo name =>
    obtain ⟨text, htext⟩ := TextBefore.text? h
    exact ⟨_, by rw [Pool.reading?, htext]; rfl⟩
  | string text =>
    obtain ⟨value, hvalue⟩ := TextBefore.text? h
    exact ⟨_, by rw [Pool.reading?, hvalue]; rfl⟩
  | nameAndType name descriptor =>
    obtain ⟨n, hn⟩ := h.1.text?
    obtain ⟨d, hd⟩ := h.2.text?
    exact ⟨_, by rw [Pool.reading?, hn, hd]; rfl⟩
  | fieldRef owner nt => exact memberReading?_of_grounded hp _ h
  | methodRef owner nt => exact memberReading?_of_grounded hp _ h
  | interfaceMethodRef owner nt => exact memberReading?_of_grounded hp _ h
  | unusable => exact absurd rfl he
  | methodHandle kind reference => exact h.elim
  | methodType descriptor => exact h.elim
  | invokeDynamic bootstrap nt => exact h.elim
  | _ => exact ⟨_, rfl⟩

end Grounded

section Injective

variable {p : Pool} {i j : UInt16}

def StandsFor (p : Pool) (e : Entry) : Request → Prop
  | .utf8 text => ∃ bytes, e = .utf8 bytes ∧ ModifiedUtf8.decode bytes = text
  | .integer value => e = .integer value
  | .float bits => e = .float bits
  | .long value => e = .long value
  | .double bits => e = .double bits
  | .classInfo name => ∃ k, e = .classInfo k ∧ p.text? k = some name
  | .string value => ∃ k, e = .string k ∧ p.text? k = some value
  | .nameAndType name descriptor =>
    ∃ k l, e = .nameAndType k l ∧ p.text? k = some name ∧ p.text? l = some descriptor
  | .fieldRef owner name descriptor =>
    ∃ k l, e = .fieldRef k l ∧ p.className? k = some owner ∧ p.memberName? l = some name ∧
      p.memberType? l = some descriptor
  | .methodRef owner name descriptor =>
    ∃ k l, e = .methodRef k l ∧ p.className? k = some owner ∧ p.memberName? l = some name ∧
      p.memberType? l = some descriptor
  | .interfaceMethodRef owner name descriptor =>
    ∃ k l, e = .interfaceMethodRef k l ∧ p.className? k = some owner ∧
      p.memberName? l = some name ∧ p.memberType? l = some descriptor

theorem standsFor_of_reading? {e : Entry} {r : Request} (h : p.reading? e = some r) :
    p.StandsFor e r := by
  cases e with
  | classInfo name =>
    obtain ⟨text, htext, rfl⟩ := Option.map_eq_some_iff.mp h
    exact ⟨name, rfl, htext⟩
  | string text =>
    obtain ⟨value, hvalue, rfl⟩ := Option.map_eq_some_iff.mp h
    exact ⟨text, rfl, hvalue⟩
  | nameAndType name descriptor =>
    simp only [reading?, Option.bind_eq_bind, Option.bind_eq_some_iff] at h
    obtain ⟨n, hn, d, hd, hr⟩ := h
    cases hr
    exact ⟨name, descriptor, rfl, hn, hd⟩
  | fieldRef owner nt =>
    obtain ⟨o, n, d, ho, hn, hd, rfl⟩ := memberReading?_eq_some_iff.mp h
    exact ⟨owner, nt, rfl, ho, hn, hd⟩
  | methodRef owner nt =>
    obtain ⟨o, n, d, ho, hn, hd, rfl⟩ := memberReading?_eq_some_iff.mp h
    exact ⟨owner, nt, rfl, ho, hn, hd⟩
  | interfaceMethodRef owner nt =>
    obtain ⟨o, n, d, ho, hn, hd, rfl⟩ := memberReading?_eq_some_iff.mp h
    exact ⟨owner, nt, rfl, ho, hn, hd⟩
  | utf8 bytes =>
    cases h
    exact ⟨bytes, rfl, rfl⟩
  | integer value => cases h; rfl
  | float bits => cases h; rfl
  | long value => cases h; rfl
  | double bits => cases h; rfl
  | methodHandle kind reference => cases h
  | methodType descriptor => cases h
  | invokeDynamic bootstrap nt => cases h
  | unusable => cases h

theorem Sound.eq_of_get? (hp : p.Sound) {e : Entry} (hi : p.get? i = some e)
    (hj : p.get? j = some e) (he : e ≠ .unusable) : i = j := by
  have hi' := (hp.index_iff e i).mpr ⟨he, hi⟩
  have hj' := (hp.index_iff e j).mpr ⟨he, hj⟩
  rw [hi'] at hj'
  exact Option.some.inj hj'

private theorem utf8_eq {b c : List UInt8} (hb : p.Grounded i (.utf8 b))
    (hc : p.Grounded j (.utf8 c)) (h : ModifiedUtf8.decode b = ModifiedUtf8.decode c) : b = c := by
  obtain ⟨s, hs⟩ := hb
  obtain ⟨t, ht⟩ := hc
  obtain ⟨rfl, -⟩ := ModifiedUtf8.encode16?_eq_some_iff.mp hs
  obtain ⟨rfl, -⟩ := ModifiedUtf8.encode16?_eq_some_iff.mp ht
  rw [ModifiedUtf8.decode_encode, ModifiedUtf8.decode_encode] at h
  rw [h]

theorem Sound.eq_of_text? (hp : p.Sound) {text : String} (hi : p.text? i = some text)
    (hj : p.text? j = some text) : i = j := by
  obtain ⟨b, hb, hbt⟩ := text?_eq_some_iff.mp hi
  obtain ⟨c, hc, hct⟩ := text?_eq_some_iff.mp hj
  have hbc : b = c := utf8_eq (hp.grounded i _ hb) (hp.grounded j _ hc) (hbt.trans hct.symm)
  subst hbc
  exact hp.eq_of_get? hb hc (by simp)

theorem Sound.eq_of_className? (hp : p.Sound) {name : String} (hi : p.className? i = some name)
    (hj : p.className? j = some name) : i = j := by
  obtain ⟨k, hk, hkt⟩ := className?_eq_some_iff.mp hi
  obtain ⟨l, hl, hlt⟩ := className?_eq_some_iff.mp hj
  have hkl : k = l := hp.eq_of_text? hkt hlt
  subst hkl
  exact hp.eq_of_get? hk hl (by simp)

theorem Sound.eq_of_memberType? (hp : p.Sound) {name descriptor : String}
    (hin : p.memberName? i = some name) (hid : p.memberType? i = some descriptor)
    (hjn : p.memberName? j = some name) (hjd : p.memberType? j = some descriptor) : i = j := by
  obtain ⟨k, l, hkl, hk⟩ := memberName?_eq_some_iff.mp hin
  obtain ⟨k', l', hkl', hl⟩ := memberType?_eq_some_iff.mp hid
  rw [hkl] at hkl'
  cases hkl'
  obtain ⟨m, n, hmn, hm⟩ := memberName?_eq_some_iff.mp hjn
  obtain ⟨m', n', hmn', hn⟩ := memberType?_eq_some_iff.mp hjd
  rw [hmn] at hmn'
  cases hmn'
  have hkm : k = m := hp.eq_of_text? hk hm
  have hln : l = n := hp.eq_of_text? hl hn
  subst hkm hln
  exact hp.eq_of_get? hkl hmn (by simp)

/-- In a sound pool grounded entries that stand for the same are the same. -/
theorem Sound.entry_eq (hp : p.Sound) {e f : Entry} {r : Request} (hi : p.Grounded i e)
    (hj : p.Grounded j f) (he : p.reading? e = some r) (hf : p.reading? f = some r) : e = f := by
  have hse := standsFor_of_reading? he
  have hsf := standsFor_of_reading? hf
  cases r with
  | utf8 text =>
    obtain ⟨b, rfl, hb⟩ := hse
    obtain ⟨c, rfl, hc⟩ := hsf
    rw [utf8_eq hi hj (hb.trans hc.symm)]
  | classInfo name =>
    obtain ⟨k, rfl, hk⟩ := hse
    obtain ⟨l, rfl, hl⟩ := hsf
    rw [hp.eq_of_text? hk hl]
  | string value =>
    obtain ⟨k, rfl, hk⟩ := hse
    obtain ⟨l, rfl, hl⟩ := hsf
    rw [hp.eq_of_text? hk hl]
  | nameAndType name descriptor =>
    obtain ⟨k, l, rfl, hk, hl⟩ := hse
    obtain ⟨m, n, rfl, hm, hn⟩ := hsf
    rw [hp.eq_of_text? hk hm, hp.eq_of_text? hl hn]
  | fieldRef owner name descriptor =>
    obtain ⟨k, l, rfl, hk, hl, hl'⟩ := hse
    obtain ⟨m, n, rfl, hm, hn, hn'⟩ := hsf
    rw [hp.eq_of_className? hk hm, hp.eq_of_memberType? hl hl' hn hn']
  | methodRef owner name descriptor =>
    obtain ⟨k, l, rfl, hk, hl, hl'⟩ := hse
    obtain ⟨m, n, rfl, hm, hn, hn'⟩ := hsf
    rw [hp.eq_of_className? hk hm, hp.eq_of_memberType? hl hl' hn hn']
  | interfaceMethodRef owner name descriptor =>
    obtain ⟨k, l, rfl, hk, hl, hl'⟩ := hse
    obtain ⟨m, n, rfl, hm, hn, hn'⟩ := hsf
    rw [hp.eq_of_className? hk hm, hp.eq_of_memberType? hl hl' hn hn']
  | integer value => exact hse.trans hsf.symm
  | float bits => exact hse.trans hsf.symm
  | long value => exact hse.trans hsf.symm
  | double bits => exact hse.trans hsf.symm

private theorem ne_unusable_of_reading? {e : Entry} {r : Request} (h : p.reading? e = some r) :
    e ≠ .unusable := by
  rintro rfl
  cases h

theorem Sound.eq_of_meaning? (hp : p.Sound) {r : Request} (hi : p.meaning? i = some r)
    (hj : p.meaning? j = some r) : i = j := by
  obtain ⟨e, hge, hre⟩ := meaning?_eq_some_iff.mp hi
  obtain ⟨f, hgf, hrf⟩ := meaning?_eq_some_iff.mp hj
  have hef : e = f := hp.entry_eq (hp.grounded i e hge) (hp.grounded j f hgf) hre hrf
  subst hef
  exact hp.eq_of_get? hge hgf (ne_unusable_of_reading? hre)

end Injective

theorem mem_known {p : Pool} {r : Request} :
    r ∈ p.known ↔ ∃ i, p.meaning? i = some r := by
  simp only [known, List.mem_toFinset, List.mem_filterMap, List.mem_range]
  constructor
  · rintro ⟨k, -, hk⟩
    exact ⟨_, hk⟩
  · rintro ⟨i, hi⟩
    obtain ⟨e, hget, -⟩ := meaning?_eq_some_iff.mp hi
    obtain ⟨hpos, hle⟩ := toNat_le_of_get? hget
    refine ⟨i.toNat - 1, by omega, ?_⟩
    rw [Nat.sub_add_cancel hpos, UInt16.ofNat_toNat]
    exact hi

section Push

variable {p : Pool} {e : Entry} {r : Request} {i : UInt16}

private theorem toList_push (p : Pool) (e : Entry) :
    (p.push e).entries.toList = p.entries.toList ++ e.slots := by
  simp [push]

private theorem le_push (p : Pool) (e : Entry) : p ≤ p.push e :=
  ⟨e.slots, (toList_push p e).symm⟩

theorem size_push (p : Pool) (e : Entry) :
    (p.push e).entries.size = p.entries.size + e.width := by
  rw [← Array.length_toList, toList_push, List.length_append, Entry.length_slots,
    Array.length_toList]

private theorem get?_push_count (h : p.entries.size ≤ maxSlots) :
    (p.push e).get? p.count = some e := by
  have hcount := toNat_count h
  refine get?_eq_some_iff.mpr ⟨?_, ?_⟩
  · intro hz
    rw [hz] at hcount
    simp at hcount
  · rw [toList_push, hcount, Nat.add_sub_cancel,
      List.getElem?_append_right (by simp), Array.length_toList, Nat.sub_self]
    exact Entry.slots_head? e

/-- A pool with an entry added has the old entries, the new one, and perhaps an unusable slot. -/
theorem get?_push_cases (h : p.entries.size ≤ maxSlots) {f : Entry}
    (hf : (p.push e).get? i = some f) :
    p.get? i = some f ∨ i = p.count ∧ f = e ∨ f = .unusable := by
  obtain ⟨hne, hget⟩ := get?_eq_some_iff.mp hf
  have hpos : i.toNat ≠ 0 := fun hz => hne (UInt16.toNat_inj.mp hz)
  rw [toList_push] at hget
  by_cases hlt : i.toNat - 1 < p.entries.toList.length
  · rw [List.getElem?_append_left hlt] at hget
    exact .inl (get?_eq_some_iff.mpr ⟨hne, hget⟩)
  · rw [List.getElem?_append_right (by omega)] at hget
    simp only [Array.length_toList] at hlt hget
    by_cases hz : i.toNat - 1 - p.entries.size = 0
    · rw [hz, Entry.slots_head?] at hget
      cases hget
      refine .inr (.inl ⟨UInt16.toNat_inj.mp ?_, rfl⟩)
      rw [toNat_count h]
      omega
    · refine .inr (.inr ?_)
      cases hw : e.isWide with
      | false =>
        rw [Entry.slots_of_not_wide hw, List.getElem?_singleton, if_neg hz] at hget
        cases hget
      | true =>
        rw [Entry.slots_of_wide hw] at hget
        have hlen := (List.getElem?_eq_some_iff.mp hget).1
        simp only [List.length_cons, List.length_nil] at hlen
        rw [show i.toNat - 1 - p.entries.size = 1 by omega] at hget
        exact (Option.some.inj hget).symm

private theorem width_eq_of_reading? (h : p.reading? e = some r) : r.width = e.width := by
  cases e with
  | classInfo name =>
    obtain ⟨_, _, rfl⟩ := Option.map_eq_some_iff.mp h
    rfl
  | string text =>
    obtain ⟨_, _, rfl⟩ := Option.map_eq_some_iff.mp h
    rfl
  | nameAndType name descriptor =>
    simp only [reading?, Option.bind_eq_bind, Option.bind_eq_some_iff] at h
    obtain ⟨n, -, d, -, hr⟩ := h
    cases hr
    rfl
  | fieldRef owner nt =>
    obtain ⟨o, n, d, -, -, -, rfl⟩ := memberReading?_eq_some_iff.mp h
    rfl
  | methodRef owner nt =>
    obtain ⟨o, n, d, -, -, -, rfl⟩ := memberReading?_eq_some_iff.mp h
    rfl
  | interfaceMethodRef owner nt =>
    obtain ⟨o, n, d, -, -, -, rfl⟩ := memberReading?_eq_some_iff.mp h
    rfl
  | _ => cases h <;> rfl

theorem Sound.known_push (hp : p.Sound) (hr : p.reading? e = some r) :
    (p.push e).known = insert r p.known := by
  ext q
  rw [Finset.mem_insert, mem_known, mem_known]
  constructor
  · rintro ⟨i, hi⟩
    obtain ⟨f, hget, hq⟩ := meaning?_eq_some_iff.mp hi
    rcases get?_push_cases hp.size_le hget with hold | ⟨-, rfl⟩ | rfl
    · have hf : f ≠ .unusable := ne_unusable_of_reading? hq
      obtain ⟨q', hq'⟩ := (hp.grounded i f hold).reading? hp hf
      have hmono := reading?_mono (le_push p e) hq'
      rw [hq] at hmono
      cases hmono
      exact .inr ⟨i, meaning?_eq_some_iff.mpr ⟨f, hold, hq'⟩⟩
    · have hmono := reading?_mono (le_push p f) hr
      rw [hq] at hmono
      exact .inl (Option.some.inj hmono)
    · cases hq
  · rintro (rfl | ⟨i, hi⟩)
    · exact ⟨p.count, meaning?_eq_some_iff.mpr
        ⟨e, get?_push_count hp.size_le, reading?_mono (le_push p e) hr⟩⟩
    · exact ⟨i, meaning?_mono (le_push p e) hi⟩

theorem Sound.notMem_known (hp : p.Sound) (hnew : p.index[e]? = none) (hground : p.Grounded i e)
    (hr : p.reading? e = some r) : r ∉ p.known := by
  intro hmem
  obtain ⟨j, hj⟩ := mem_known.mp hmem
  obtain ⟨f, hget, hf⟩ := meaning?_eq_some_iff.mp hj
  have hfe : f = e := hp.entry_eq (hp.grounded j f hget) hground hf hr
  rw [(hp.index_iff e j).mpr ⟨ne_unusable_of_reading? hr, hfe ▸ hget⟩] at hnew
  cases hnew

/-- A sound pool stays sound when an entry is added that it does not have. -/
theorem Sound.push (hp : p.Sound) (hroom : p.entries.size + e.width ≤ maxSlots)
    (hnew : p.index[e]? = none) (hground : p.Grounded p.count e) (hr : p.reading? e = some r) :
    (p.push e).Sound := by
  have he : e ≠ .unusable := ne_unusable_of_reading? hr
  have habsent : ∀ i, p.get? i ≠ some e := by
    intro i hi
    rw [(hp.index_iff e i).mpr ⟨he, hi⟩] at hnew
    cases hnew
  exact {
    size_le := by
      rw [size_push]
      exact hroom
    wellSlotted := by
      rw [toList_push]
      exact hp.wellSlotted.append_slots he
    index_iff := by
      intro f i
      simp only [Pool.push, Std.HashMap.getElem?_insert, beq_iff_eq]
      by_cases hfe : e = f
      · subst hfe
        rw [if_pos rfl]
        constructor
        · intro h
          cases h
          exact ⟨he, get?_push_count hp.size_le⟩
        · rintro ⟨-, hget⟩
          rcases get?_push_cases hp.size_le hget with hold | ⟨hi, -⟩ | hu
          · exact absurd hold (habsent i)
          · rw [hi]
          · exact absurd hu he
      · rw [if_neg hfe, hp.index_iff f i]
        refine and_congr_right fun hf => ⟨get?_mono (le_push p e), fun hget => ?_⟩
        rcases get?_push_cases hp.size_le hget with hold | ⟨-, hfe'⟩ | hu
        · exact hold
        · exact absurd hfe'.symm hfe
        · exact absurd hu hf
    grounded := by
      intro i f hget
      rcases get?_push_cases hp.size_le hget with hold | ⟨rfl, rfl⟩ | rfl
      · exact (hp.grounded i f hold).mono (le_push p e)
      · exact hground.mono (le_push p f)
      · trivial
    size_eq := by
      rw [size_push, hp.known_push hr, Finset.sum_insert (hp.notMem_known hnew hground hr),
        ← hp.size_eq, width_eq_of_reading? hr, Nat.add_comm] }

end Push

section Meaning

variable {p : Pool} {i : UInt16}

theorem text?_of_meaning? {text : String} (h : p.meaning? i = some (.utf8 text)) :
    p.text? i = some text := by
  obtain ⟨e, hget, hr⟩ := meaning?_eq_some_iff.mp h
  obtain ⟨bytes, rfl, htext⟩ := standsFor_of_reading? hr
  exact text?_eq_some_iff.mpr ⟨bytes, hget, htext⟩

theorem className?_of_meaning? {name : String} (h : p.meaning? i = some (.classInfo name)) :
    p.className? i = some name := by
  obtain ⟨e, hget, hr⟩ := meaning?_eq_some_iff.mp h
  obtain ⟨k, rfl, htext⟩ := standsFor_of_reading? hr
  exact className?_eq_some_iff.mpr ⟨k, hget, htext⟩

private theorem memberType?_of_meaning? {name descriptor : String}
    (h : p.meaning? i = some (.nameAndType name descriptor)) :
    p.memberName? i = some name ∧ p.memberType? i = some descriptor := by
  obtain ⟨e, hget, hr⟩ := meaning?_eq_some_iff.mp h
  obtain ⟨k, l, rfl, hk, hl⟩ := standsFor_of_reading? hr
  exact ⟨memberName?_eq_some_iff.mpr ⟨k, l, hget, hk⟩,
    memberType?_eq_some_iff.mpr ⟨k, l, hget, hl⟩⟩

theorem Sound.lt_count (hp : p.Sound) {e : Entry} (h : p.get? i = some e) :
    i.toNat < p.count.toNat := by
  have hle := (toNat_le_of_get? h).2
  rw [toNat_count hp.size_le]
  omega

theorem Sound.textBefore (hp : p.Sound) {text : String} (h : p.text? i = some text) :
    p.TextBefore p.count i := by
  obtain ⟨bytes, hget, -⟩ := text?_eq_some_iff.mp h
  exact ⟨hp.lt_count hget, bytes, hget⟩

theorem Sound.classBefore (hp : p.Sound) {name : String} (h : p.className? i = some name) :
    p.ClassBefore p.count i := by
  obtain ⟨k, hget, -⟩ := className?_eq_some_iff.mp h
  exact ⟨hp.lt_count hget, k, hget⟩

theorem Sound.typeBefore (hp : p.Sound) {name : String} (h : p.memberName? i = some name) :
    p.TypeBefore p.count i := by
  obtain ⟨k, l, hget, -⟩ := memberName?_eq_some_iff.mp h
  exact ⟨hp.lt_count hget, k, l, hget⟩

end Meaning

/-- What becomes of a pool that is asked for a constant made of the given parts and texts.  A
success knows exactly the parts in addition; a failure is due to a text that is too long or to the
slots that all the parts would take. -/
structure Answers (p : Pool) (parts : Finset Request) (texts : List String) (r : Request)
    (out : Except Overflow UInt16 × Pool) : Prop where
  sound : out.2.Sound
  le : p ≤ out.2
  same : parts ⊆ p.known → out.2 = p
  known_subset : out.2.known ⊆ p.known ∪ parts
  of_ok : ∀ i, out.1 = .ok i → out.2.meaning? i = some r ∧ out.2.known = p.known ∪ parts
  of_error : ∀ o, out.1 = .error o →
    (o = .utf8Length ∧ ∃ text ∈ texts, 65535 < (ModifiedUtf8.encode text).length) ∨
      (o = .entries ∧ maxSlots < ∑ q ∈ p.known ∪ parts, q.width)

section Answers

variable {p : Pool} {e : Entry} {r : Request}

theorem Sound.intern (hp : p.Sound) (hground : p.Grounded p.count e) (hr : p.reading? e = some r) :
    Answers p {r} [] r (Pool.intern e p) := by
  unfold Pool.intern
  split
  · rename_i i hi
    have hget : p.get? i = some e := ((hp.index_iff e i).mp hi).2
    have hmeaning : p.meaning? i = some r := meaning?_eq_some_iff.mpr ⟨e, hget, hr⟩
    have hknown : p.known ∪ {r} = p.known :=
      Finset.union_eq_left.mpr (Finset.singleton_subset_iff.mpr (mem_known.mpr ⟨i, hmeaning⟩))
    exact {
      sound := hp
      le := Pool.le_refl p
      same := fun _ => rfl
      known_subset := Finset.subset_union_left
      of_ok := by
        rintro j ⟨⟩
        exact ⟨hmeaning, hknown.symm⟩
      of_error := by
        rintro o ⟨⟩ }
  · rename_i hnone
    have hunknown : r ∉ p.known := hp.notMem_known hnone hground hr
    have hunion : p.known ∪ {r} = insert r p.known := by
      rw [Finset.union_comm, Finset.insert_eq]
    split
    · rename_i hroom
      have hsound : (p.push e).Sound := hp.push hroom hnone hground hr
      exact {
        sound := hsound
        le := le_push p e
        same := fun h => absurd (h (Finset.mem_singleton_self r)) hunknown
        known_subset := by
          rw [hp.known_push hr, hunion]
        of_ok := by
          rintro j ⟨⟩
          exact ⟨meaning?_eq_some_iff.mpr
            ⟨e, get?_push_count hp.size_le, reading?_mono (le_push p e) hr⟩,
            by rw [hp.known_push hr, hunion]⟩
        of_error := by
          rintro o ⟨⟩ }
    · rename_i hfull
      exact {
        sound := hp
        le := Pool.le_refl p
        same := fun _ => rfl
        known_subset := Finset.subset_union_left
        of_ok := by
          rintro j ⟨⟩
        of_error := by
          rintro o ⟨⟩
          refine .inr ⟨rfl, ?_⟩
          rw [hunion, Finset.sum_insert hunknown, ← hp.size_eq, width_eq_of_reading? hr]
          omega }

private theorem bind_apply {α β : Type} (x : Interning α) (f : α → Interning β) (p : Pool) :
    (x >>= f) p =
      match x p with
      | (.ok a, q) => f a q
      | (.error o, q) => (.error o, q) := by
  change ExceptT.bind x f p = _
  unfold ExceptT.bind ExceptT.mk
  change (ExceptT.bindCont f (x p).1) (x p).2 = _
  rcases x p with ⟨_ | a, q⟩ <;> rfl

/-- Answers in sequence: the second action works in the pool that the first leaves. -/
theorem Answers.bind {parts₁ parts₂ : Finset Request} {texts₁ texts₂ : List String}
    {r₁ r₂ : Request} {x : Interning UInt16} {f : UInt16 → Interning UInt16}
    (hx : Answers p parts₁ texts₁ r₁ (x p))
    (hf : ∀ i q, p ≤ q → q.Sound → q.meaning? i = some r₁ →
      Answers q parts₂ texts₂ r₂ (f i q)) :
    Answers p (parts₁ ∪ parts₂) (texts₁ ++ texts₂) r₂ ((x >>= f) p) := by
  rw [bind_apply]
  rcases hxp : x p with ⟨o | i, q⟩ <;> rw [hxp] at hx
  · exact {
      sound := hx.sound
      le := hx.le
      same := fun h => hx.same (Finset.union_subset_left h)
      known_subset := by
        rw [← Finset.union_assoc]
        exact hx.known_subset.trans Finset.subset_union_left
      of_ok := by
        rintro j ⟨⟩
      of_error := by
        rintro o' ⟨⟩
        rcases hx.of_error o rfl with ⟨rfl, text, hmem, hlong⟩ | ⟨rfl, hfull⟩
        · exact .inl ⟨rfl, text, List.mem_append_left _ hmem, hlong⟩
        · refine .inr ⟨rfl, hfull.trans_le (Finset.sum_le_sum_of_subset ?_)⟩
          rw [← Finset.union_assoc]
          exact Finset.subset_union_left }
  · obtain ⟨hmeaning, hknown⟩ := hx.of_ok i rfl
    have hy := hf i q hx.le hx.sound hmeaning
    have hunion : q.known ∪ parts₂ = p.known ∪ (parts₁ ∪ parts₂) := by
      rw [show q.known = p.known ∪ parts₁ from hknown, Finset.union_assoc]
    exact {
      sound := hy.sound
      le := Pool.le_trans hx.le hy.le
      same := by
        intro h
        have hqp : q = p := hx.same (Finset.union_subset_left h)
        subst hqp
        exact hy.same (Finset.union_subset_right h)
      known_subset := by
        rw [← hunion]
        exact hy.known_subset
      of_ok := by
        intro j hj
        rw [← hunion]
        exact hy.of_ok j hj
      of_error := by
        intro o ho
        rcases hy.of_error o ho with ⟨rfl, text, hmem, hlong⟩ | ⟨rfl, hfull⟩
        · exact .inl ⟨rfl, text, List.mem_append_right _ hmem, hlong⟩
        · rw [hunion] at hfull
          exact .inr ⟨rfl, hfull⟩ }

theorem Answers.texts_mono {parts : Finset Request} {texts texts' : List String}
    {out : Except Overflow UInt16 × Pool} (h : Answers p parts texts r out)
    (hsub : texts ⊆ texts') : Answers p parts texts' r out :=
  { h with
    of_error := fun o ho => (h.of_error o ho).imp_left fun ⟨heq, text, hmem, hlong⟩ =>
      ⟨heq, text, hsub hmem, hlong⟩ }

theorem Sound.utf8 (hp : p.Sound) (text : String) :
    Answers p {.utf8 text} [text] (.utf8 text) (Pool.utf8 text p) := by
  unfold Pool.utf8
  cases hbytes : ModifiedUtf8.encode16? text with
  | some bytes =>
    obtain ⟨rfl, -⟩ := ModifiedUtf8.encode16?_eq_some_iff.mp hbytes
    have hground : p.Grounded p.count (.utf8 (ModifiedUtf8.encode text)) := ⟨text, hbytes⟩
    have hreading : p.reading? (.utf8 (ModifiedUtf8.encode text)) = some (.utf8 text) := by
      rw [reading?, ModifiedUtf8.decode_encode]
    exact (hp.intern hground hreading).texts_mono (List.nil_subset _)
  | none =>
    exact {
      sound := hp
      le := Pool.le_refl p
      same := fun _ => rfl
      known_subset := Finset.subset_union_left
      of_ok := by
        rintro j ⟨⟩
      of_error := by
        rintro o ⟨⟩
        exact .inl ⟨rfl, text, List.mem_singleton_self text,
          ModifiedUtf8.encode16?_eq_none_iff.mp hbytes⟩ }

theorem Sound.classInfo (hp : p.Sound) (name : String) :
    Answers p {.utf8 name, .classInfo name} [name] (.classInfo name) (Pool.classInfo name p) := by
  change Answers p ({.utf8 name} ∪ {.classInfo name}) ([name] ++ []) _
    ((Pool.utf8 name >>= fun i => Pool.intern (.classInfo i)) p)
  refine (hp.utf8 name).bind fun i q _ hq hi => ?_
  have htext := text?_of_meaning? hi
  exact hq.intern (hq.textBefore htext) (by rw [reading?, htext]; rfl)

theorem Sound.string (hp : p.Sound) (value : String) :
    Answers p {.utf8 value, .string value} [value] (.string value) (Pool.string value p) := by
  change Answers p ({.utf8 value} ∪ {.string value}) ([value] ++ []) _
    ((Pool.utf8 value >>= fun i => Pool.intern (.string i)) p)
  refine (hp.utf8 value).bind fun i q _ hq hi => ?_
  have htext := text?_of_meaning? hi
  exact hq.intern (hq.textBefore htext) (by rw [reading?, htext]; rfl)

theorem Sound.nameAndType (hp : p.Sound) (name descriptor : String) :
    Answers p {.utf8 name, .utf8 descriptor, .nameAndType name descriptor} [name, descriptor]
      (.nameAndType name descriptor) (Pool.nameAndType name descriptor p) := by
  change Answers p ({.utf8 name} ∪ ({.utf8 descriptor} ∪ {.nameAndType name descriptor}))
    ([name] ++ ([descriptor] ++ [])) _ ((Pool.utf8 name >>= fun i =>
      Pool.utf8 descriptor >>= fun j => Pool.intern (.nameAndType i j)) p)
  refine (hp.utf8 name).bind fun i q _ hq hi => (hq.utf8 descriptor).bind fun j q' hle hq' hj => ?_
  have hname := text?_mono hle (text?_of_meaning? hi)
  have hdescriptor := text?_of_meaning? hj
  exact hq'.intern ⟨hq'.textBefore hname, hq'.textBefore hdescriptor⟩
    (by rw [reading?, hname, hdescriptor]; rfl)

theorem Sound.member (hp : p.Sound) (make : UInt16 → UInt16 → Entry)
    (request : String → String → String → Request)
    (hground : ∀ q i a b, Pool.ClassBefore q i a ∧ Pool.TypeBefore q i b → q.Grounded i (make a b))
    (hreading : ∀ q a b, Pool.reading? q (make a b) = q.memberReading? request a b)
    (owner name descriptor : String) :
    Answers p (Request.memberParts owner name descriptor ∪ {request owner name descriptor})
      [owner, name, descriptor] (request owner name descriptor)
      (Pool.member make owner name descriptor p) := by
  have h : Answers p _ _ (request owner name descriptor)
      (Pool.member make owner name descriptor p) :=
    (hp.classInfo owner).bind fun i q _ hq hi =>
      (hq.nameAndType name descriptor).bind fun j q' hle hq' hj => by
        have howner := className?_mono hle (className?_of_meaning? hi)
        obtain ⟨hname, hdescriptor⟩ := memberType?_of_meaning? hj
        refine hq'.intern (hground q' _ i j ⟨hq'.classBefore howner, hq'.typeBefore hname⟩) ?_
        rw [hreading]
        exact memberReading?_eq_some_iff.mpr ⟨_, _, _, howner, hname, hdescriptor, rfl⟩
  have hparts : ({.utf8 owner, .classInfo owner} : Finset Request) ∪
      ({.utf8 name, .utf8 descriptor, .nameAndType name descriptor} ∪
        {request owner name descriptor}) =
      Request.memberParts owner name descriptor ∪ {request owner name descriptor} := by
    simp only [Request.memberParts, Finset.insert_eq, Finset.union_assoc]
  rw [hparts] at h
  exact h

/-- Every request is answered as its parts and texts say. -/
theorem Sound.answers (hp : p.Sound) (r : Request) : Answers p r.parts r.texts r (r.intern p) := by
  cases r with
  | utf8 text => exact hp.utf8 text
  | integer value => exact hp.intern trivial rfl
  | float bits => exact hp.intern trivial rfl
  | long value => exact hp.intern trivial rfl
  | double bits => exact hp.intern trivial rfl
  | classInfo name => exact hp.classInfo name
  | string value => exact hp.string value
  | nameAndType name descriptor => exact hp.nameAndType name descriptor
  | fieldRef owner name descriptor =>
    exact hp.member .fieldRef .fieldRef (fun _ _ _ _ h => h) (fun _ _ _ => rfl) _ _ _
  | methodRef owner name descriptor =>
    exact hp.member .methodRef .methodRef (fun _ _ _ _ h => h) (fun _ _ _ => rfl) _ _ _
  | interfaceMethodRef owner name descriptor =>
    exact hp.member .interfaceMethodRef .interfaceMethodRef (fun _ _ _ _ h => h) (fun _ _ _ => rfl) _ _ _

end Answers

end Pool

end Classwright
