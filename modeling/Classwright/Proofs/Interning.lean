import Classwright.Proofs.Pool

/-!
# Histories of requests

A history is any list of requests, met or refused, served one after the other by a pool that starts
empty.  Every pool that a history leaves is sound, so what is known of sound pools holds after
every step of every history.
-/

namespace Classwright

namespace Pool

namespace Request

def text? : Request → Option String
  | utf8 text => some text
  | _ => none

def descriptor? : Request → Option String
  | fieldRef _ _ descriptor | methodRef _ _ descriptor | interfaceMethodRef _ _ descriptor =>
    some descriptor
  | _ => none

private theorem utf8_mem_parts {r : Request} {text : String} (h : text ∈ r.texts) :
    utf8 text ∈ r.parts := by
  cases r with
  | utf8 _ | classInfo _ | string _ =>
    cases List.mem_singleton.mp h
    simp [parts]
  | nameAndType name descriptor =>
    simp only [texts, List.mem_cons, List.not_mem_nil, or_false] at h
    rcases h with rfl | rfl <;> simp [parts]
  | fieldRef owner name descriptor | methodRef owner name descriptor
  | interfaceMethodRef owner name descriptor =>
    simp only [texts, List.mem_cons, List.not_mem_nil, or_false] at h
    rcases h with rfl | rfl | rfl <;> simp [parts, memberParts]
  | integer _ | float _ | long _ | double _ => cases h

end Request

section Known

variable {p : Pool} {i j : UInt16}

private theorem utf8_mem_known {text : String} (h : p.text? i = some text) : .utf8 text ∈ p.known := by
  obtain ⟨bytes, hget, htext⟩ := text?_eq_some_iff.mp h
  refine mem_known.mpr ⟨i, meaning?_eq_some_iff.mpr ⟨_, hget, ?_⟩⟩
  rw [reading?, htext]

private theorem class_subset_known {name : String} (h : p.className? i = some name) :
    ({.utf8 name, .classInfo name} : Finset Request) ⊆ p.known := by
  obtain ⟨k, hget, htext⟩ := className?_eq_some_iff.mp h
  have hclass : .classInfo name ∈ p.known := by
    refine mem_known.mpr ⟨i, meaning?_eq_some_iff.mpr ⟨_, hget, ?_⟩⟩
    rw [reading?, htext]
    rfl
  exact Finset.insert_subset (utf8_mem_known htext) (Finset.singleton_subset_iff.mpr hclass)

private theorem nameAndType_subset_known {name descriptor : String} (hn : p.memberName? i = some name)
    (hd : p.memberType? i = some descriptor) :
    ({.utf8 name, .utf8 descriptor, .nameAndType name descriptor} : Finset Request) ⊆ p.known := by
  obtain ⟨k, l, hget, hk⟩ := memberName?_eq_some_iff.mp hn
  obtain ⟨k', l', hget', hl⟩ := memberType?_eq_some_iff.mp hd
  rw [hget] at hget'
  cases hget'
  have hnt : .nameAndType name descriptor ∈ p.known := by
    refine mem_known.mpr ⟨i, meaning?_eq_some_iff.mpr ⟨_, hget, ?_⟩⟩
    rw [reading?, hk, hl]
    rfl
  exact Finset.insert_subset (utf8_mem_known hk)
    (Finset.insert_subset (utf8_mem_known hl) (Finset.singleton_subset_iff.mpr hnt))

private theorem memberParts_subset_known {owner name descriptor : String}
    (ho : p.className? i = some owner) (hn : p.memberName? j = some name)
    (hd : p.memberType? j = some descriptor) :
    Request.memberParts owner name descriptor ⊆ p.known := by
  have hunion := Finset.union_subset (class_subset_known ho) (nameAndType_subset_known hn hd)
  intro q hq
  apply hunion
  simp only [Request.memberParts, Finset.mem_insert, Finset.mem_singleton, Finset.mem_union] at hq ⊢
  tauto

private theorem parts_subset_known {r : Request} (h : r ∈ p.known) : r.parts ⊆ p.known := by
  obtain ⟨i, hi⟩ := mem_known.mp h
  obtain ⟨e, -, hr⟩ := meaning?_eq_some_iff.mp hi
  have hself := Finset.singleton_subset_iff.mpr h
  cases r with
  | classInfo name =>
    obtain ⟨k, -, htext⟩ := standsFor_of_reading? hr
    exact Finset.insert_subset (utf8_mem_known htext) hself
  | string value =>
    obtain ⟨k, -, htext⟩ := standsFor_of_reading? hr
    exact Finset.insert_subset (utf8_mem_known htext) hself
  | nameAndType name descriptor =>
    obtain ⟨k, l, -, hk, hl⟩ := standsFor_of_reading? hr
    exact Finset.insert_subset (utf8_mem_known hk) (Finset.insert_subset (utf8_mem_known hl) hself)
  | fieldRef owner name descriptor =>
    obtain ⟨k, l, -, hk, hn, hd⟩ := standsFor_of_reading? hr
    exact Finset.union_subset (memberParts_subset_known hk hn hd) hself
  | methodRef owner name descriptor =>
    obtain ⟨k, l, -, hk, hn, hd⟩ := standsFor_of_reading? hr
    exact Finset.union_subset (memberParts_subset_known hk hn hd) hself
  | interfaceMethodRef owner name descriptor =>
    obtain ⟨k, l, -, hk, hn, hd⟩ := standsFor_of_reading? hr
    exact Finset.union_subset (memberParts_subset_known hk hn hd) hself
  | _ => exact hself

theorem Sound.length_le_of_known (hp : p.Sound) {text : String} (h : .utf8 text ∈ p.known) :
    (ModifiedUtf8.encode text).length ≤ 65535 := by
  obtain ⟨i, hi⟩ := mem_known.mp h
  obtain ⟨bytes, hget, htext⟩ := text?_eq_some_iff.mp (text?_of_meaning? hi)
  obtain ⟨text', htext'⟩ := hp.grounded i _ hget
  obtain ⟨rfl, hlength⟩ := ModifiedUtf8.encode16?_eq_some_iff.mp htext'
  rw [ModifiedUtf8.decode_encode] at htext
  exact htext ▸ hlength

theorem Sound.sum_union (hp : p.Sound) (parts : Finset Request) :
    ∑ q ∈ p.known ∪ parts, q.width = p.entries.size + ∑ q ∈ parts \ p.known, q.width := by
  rw [← Finset.union_sdiff_self_eq_union, Finset.sum_union Finset.disjoint_sdiff, ← hp.size_eq]

theorem Sound.intern_of_meaning? (hp : p.Sound) {r : Request} (h : p.meaning? i = some r) :
    r.intern p = (.ok i, p) := by
  have hparts : r.parts ⊆ p.known := parts_subset_known (mem_known.mpr ⟨i, h⟩)
  have ha := hp.answers r
  have hsame : (r.intern p).2 = p := ha.same hparts
  cases hout : (r.intern p).1 with
  | ok j =>
    obtain ⟨hmeaning, -⟩ := ha.of_ok j hout
    rw [hsame] at hmeaning
    have hji : j = i := hp.eq_of_meaning? hmeaning h
    exact Prod.ext (by rw [hout, hji]) hsame
  | error o =>
    rcases ha.of_error o hout with ⟨-, text, htext, hlong⟩ | ⟨-, hfull⟩
    · have hle := hp.length_le_of_known (hparts (Request.utf8_mem_parts htext))
      omega
    · rw [Finset.union_eq_left.mpr hparts, ← hp.size_eq] at hfull
      exact absurd hp.size_le (Nat.not_le_of_lt hfull)

/-- A request is met exactly when its texts can be written and its missing parts have room. -/
theorem Sound.intern_eq_ok_iff (hp : p.Sound) (r : Request) :
    (∃ i, (r.intern p).1 = .ok i) ↔
      (∀ text ∈ r.texts, (ModifiedUtf8.encode text).length ≤ 65535) ∧
        p.entries.size + ∑ q ∈ r.parts \ p.known, q.width ≤ maxSlots := by
  have ha := hp.answers r
  constructor
  · rintro ⟨i, hi⟩
    obtain ⟨-, hknown⟩ := ha.of_ok i hi
    refine ⟨fun text htext => ?_, ?_⟩
    · refine ha.sound.length_le_of_known ?_
      rw [hknown]
      exact Finset.mem_union_right _ (Request.utf8_mem_parts htext)
    · rw [← hp.sum_union, ← hknown, ← ha.sound.size_eq]
      exact ha.sound.size_le
  · rintro ⟨htexts, hroom⟩
    cases hout : (r.intern p).1 with
    | ok i => exact ⟨i, rfl⟩
    | error o =>
      rcases ha.of_error o hout with ⟨-, text, htext, hlong⟩ | ⟨-, hfull⟩
      · have hle := htexts text htext
        omega
      · rw [hp.sum_union] at hfull
        omega

private theorem views_of_meaning? {r : Request} (h : p.meaning? i = some r) :
    p.text? i = r.text? ∧ p.memberDescriptor? i = r.descriptor? := by
  obtain ⟨e, hget, hr⟩ := meaning?_eq_some_iff.mp h
  cases r with
  | utf8 text =>
    obtain ⟨bytes, rfl, htext⟩ := standsFor_of_reading? hr
    simp only [Pool.text?, memberDescriptor?, hget, htext, Request.text?, Request.descriptor?,
      and_self]
  | integer value | float bits | long value | double bits =>
    cases standsFor_of_reading? hr
    simp only [Pool.text?, memberDescriptor?, hget, Request.text?, Request.descriptor?, and_self]
  | classInfo name | string value =>
    obtain ⟨k, rfl, -⟩ := standsFor_of_reading? hr
    simp only [Pool.text?, memberDescriptor?, hget, Request.text?, Request.descriptor?, and_self]
  | nameAndType name descriptor =>
    obtain ⟨k, l, rfl, -⟩ := standsFor_of_reading? hr
    simp only [Pool.text?, memberDescriptor?, hget, Request.text?, Request.descriptor?, and_self]
  | fieldRef owner name descriptor =>
    obtain ⟨k, l, rfl, -, -, hd⟩ := standsFor_of_reading? hr
    rw [memberDescriptor?_eq_memberType? (.inl hget), hd]
    simp only [Pool.text?, hget, Request.text?, Request.descriptor?, and_self]
  | methodRef owner name descriptor =>
    obtain ⟨k, l, rfl, -, -, hd⟩ := standsFor_of_reading? hr
    rw [memberDescriptor?_eq_memberType? (.inr (.inl hget)), hd]
    simp only [Pool.text?, hget, Request.text?, Request.descriptor?, and_self]
  | interfaceMethodRef owner name descriptor =>
    obtain ⟨k, l, rfl, -, -, hd⟩ := standsFor_of_reading? hr
    rw [memberDescriptor?_eq_memberType? (.inr (.inr hget)), hd]
    simp only [Pool.text?, hget, Request.text?, Request.descriptor?, and_self]

end Known

/-- The answers to requests, served in order, and the pool that they leave. -/
def serve : List Request → Pool → List (Except Overflow UInt16) × Pool
  | [], p => ([], p)
  | r :: more, p =>
    let first := r.intern p
    let others := serve more first.2
    (first.1 :: others.1, others.2)

def answers (history : List Request) : List (Except Overflow UInt16) := (serve history {}).1

def after (history : List Request) : Pool := (serve history {}).2

section Serve

variable {p : Pool}

/-- A sound pool stays sound and keeps its entries, whatever it is asked for. -/
theorem Sound.serve (hp : p.Sound) (requests : List Request) :
    (Pool.serve requests p).2.Sound ∧ p ≤ (Pool.serve requests p).2 := by
  induction requests generalizing p with
  | nil => exact ⟨hp, Pool.le_refl p⟩
  | cons r more ih =>
    have ha := hp.answers r
    obtain ⟨hsound, hle⟩ := ih ha.sound
    exact ⟨hsound, Pool.le_trans ha.le hle⟩

theorem Sound.meaning?_serve (hp : p.Sound) {requests : List Request} {k : Nat} {r : Request}
    {i : UInt16} (hr : requests[k]? = some r) (hi : (Pool.serve requests p).1[k]? = some (.ok i)) :
    (Pool.serve requests p).2.meaning? i = some r := by
  induction requests generalizing p k with
  | nil => cases hr
  | cons first more ih =>
    have ha := hp.answers first
    cases k with
    | zero =>
      cases hr
      obtain ⟨hmeaning, -⟩ := ha.of_ok i (Option.some.inj hi)
      exact meaning?_mono (ha.sound.serve more).2 hmeaning
    | succ k => exact ih ha.sound hr hi

theorem serve_append (requests more : List Request) (p : Pool) :
    (serve (requests ++ more) p).2 = (serve more (serve requests p).2).2 := by
  induction requests generalizing p with
  | nil => rfl
  | cons r requests ih => exact ih (r.intern p).2

private theorem sound_after (history : List Request) : (after history).Sound :=
  (sound_empty.serve history).1

theorem after_le_append (history more : List Request) : after history ≤ after (history ++ more) := by
  rw [after, after, serve_append]
  exact ((sound_after history).serve more).2

end Serve

/-- After every history of requests, met and refused ones mixed, the slots are few enough for their
count not to wrap, well slotted, grounded, without duplicates and a prefix of what any
continuation leaves.  Every index ever given resolves to what was asked, asking again gives it
again and changes nothing, and different requests have different indexes.  A further request is
met exactly when its texts can be written and its missing parts have room, and refused for the
reason that fails. -/
theorem integrity_after (history : List Request) :
    (after history).entries.size ≤ maxSlots ∧
    (after history).count.toNat = (after history).entries.size + 1 ∧
    Entry.WellSlotted (after history).entries.toList ∧
    (∀ i e, (after history).get? i = some e → (after history).Grounded i e) ∧
    (∀ i j e, (after history).get? i = some e → (after history).get? j = some e →
      e ≠ .unusable → i = j) ∧
    (∀ more, after history ≤ after (history ++ more)) ∧
    (∀ (k : Nat) (r : Request) (i : UInt16), history[k]? = some r →
      (answers history)[k]? = some (.ok i) → (after history).meaning? i = some r ∧
        (after history).text? i = r.text? ∧ (after history).memberDescriptor? i = r.descriptor? ∧
        r.intern (after history) = (.ok i, after history)) ∧
    (∀ (k l : Nat) (r s : Request) (i j : UInt16), history[k]? = some r →
      (answers history)[k]? = some (.ok i) → history[l]? = some s →
      (answers history)[l]? = some (.ok j) → (i = j ↔ r = s)) ∧
    (∀ r : Request, (∃ i, (r.intern (after history)).1 = .ok i) ↔
      (∀ text ∈ r.texts, (ModifiedUtf8.encode text).length ≤ 65535) ∧
        (after history).entries.size + ∑ q ∈ r.parts \ (after history).known, q.width ≤
          maxSlots) ∧
    ∀ (r : Request) (o : Overflow), (r.intern (after history)).1 = .error o →
      (o = .utf8Length ∧ ∃ text ∈ r.texts, 65535 < (ModifiedUtf8.encode text).length) ∨
      (o = .entries ∧ maxSlots <
        (after history).entries.size + ∑ q ∈ r.parts \ (after history).known, q.width) := by
  have hp := sound_after history
  have hmeaning : ∀ (k : Nat) (r : Request) (i : UInt16), history[k]? = some r →
      (answers history)[k]? = some (.ok i) → (after history).meaning? i = some r :=
    fun _ _ _ hr hi => sound_empty.meaning?_serve hr hi
  refine ⟨hp.size_le, toNat_count hp.size_le, hp.wellSlotted, hp.grounded, ?_,
    after_le_append history, ?_, ?_, hp.intern_eq_ok_iff, ?_⟩
  · intro i j e hi hj he
    exact hp.eq_of_get? hi hj he
  · intro k r i hr hi
    have hm := hmeaning k r i hr hi
    obtain ⟨htext, hdescriptor⟩ := views_of_meaning? hm
    exact ⟨hm, htext, hdescriptor, hp.intern_of_meaning? hm⟩
  · intro k l r s i j hr hi hs hj
    have hmi := hmeaning k r i hr hi
    have hmj := hmeaning l s j hs hj
    constructor
    · rintro rfl
      rw [hmi] at hmj
      exact Option.some.inj hmj
    · rintro rfl
      exact hp.eq_of_meaning? hmi hmj
  · intro r o ho
    have hcause := (hp.answers r).of_error o ho
    rw [hp.sum_union] at hcause
    exact hcause

end Pool

end Classwright
