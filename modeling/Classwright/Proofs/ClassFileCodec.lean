import Classwright.Proofs.Bytes
import Classwright.Proofs.Generation

/-!
# Class files read back

Encoding and reading class files are inverse to each other up to the pool.  The second slot of a
long or double is not written, and a slot that was read from a tag of zero is written as nothing, so
the bytes of a file are restored except for such tags.
-/

namespace Classwright

namespace Entry

def Fits : Entry → Prop
  | utf8 bytes => bytes.length ≤ 65535
  | _ => True

/-- The bytes from which an entry is read. -/
def wire (e : Entry) : List UInt8 := if e = unusable then [0] else e.encode

/-- The entries that a file stores for the given slots: the slot after a long or double is left
out. -/
def stored : List Entry → List Entry
  | [] => []
  | e :: rest =>
    if e.isWide then
      match rest with
      | [] => [e]
      | _ :: rest => e :: stored rest
    else e :: stored rest

private theorem readPair_append (make : UInt16 → UInt16 → Entry) (a b : UInt16)
    (rest : List UInt8) :
    readPair make (Bytes.u16 a ++ Bytes.u16 b ++ rest) = .ok (make a b, rest) := by
  rw [readPair, List.append_assoc, Reader.bind_of_ok (Reader.reads_u16 _ _ trivial),
    Reader.bind_of_ok (Reader.reads_u16 _ _ trivial), Reader.pure_apply]

private theorem eq_of_readPair {make : UInt16 → UInt16 → Entry} {input rest : List UInt8}
    {e : Entry} (h : readPair make input = .ok (e, rest)) :
    ∃ a b, e = make a b ∧ input = Bytes.u16 a ++ Bytes.u16 b ++ rest := by
  simp only [readPair, Reader.bind_eq_ok_iff, Reader.pure_eq_ok_iff] at h
  obtain ⟨a, middle, ha, b, last, hb, rfl, rfl⟩ := h
  rw [(Reader.takes_u16 _ _ _ ha).1, (Reader.takes_u16 _ _ _ hb).1]
  exact ⟨a, b, rfl, (List.append_assoc _ _ _).symm⟩

theorem reads_read : Reader.Reads read encode (fun e => e ≠ unusable ∧ e.Fits) := by
  intro e rest ⟨hne, hfits⟩
  rw [read, Reader.tagged_eq_ok_iff]
  cases e with
  | utf8 bytes =>
    change readContents 1 (Bytes.u16 (UInt16.ofNat bytes.length) ++ bytes ++ rest) = _
    rw [List.append_assoc]
    change (Reader.u16 >>= _) _ = _
    rw [Reader.bind_of_ok (Reader.reads_u16 _ _ trivial), Bytes.toNat_length16 hfits,
      Reader.bind_of_ok (Reader.bytes_append bytes rest), Reader.pure_apply]
  | integer v =>
    change readContents 3 (Bytes.u32 v.toUInt32 ++ rest) = _
    change (Reader.u32 >>= _) _ = _
    rw [Reader.bind_of_ok (Reader.reads_u32 _ _ trivial), Reader.pure_apply,
      Int32.toInt32_toUInt32]
  | float bits =>
    change readContents 4 (Bytes.u32 bits ++ rest) = _
    change (Reader.u32 >>= _) _ = _
    rw [Reader.bind_of_ok (Reader.reads_u32 _ _ trivial), Reader.pure_apply]
  | long v =>
    change readContents 5 (Bytes.u64 v.toUInt64 ++ rest) = _
    change (Reader.u64 >>= _) _ = _
    rw [Reader.bind_of_ok (Reader.reads_u64 _ _ trivial), Reader.pure_apply,
      Int64.toInt64_toUInt64]
  | double bits =>
    change readContents 6 (Bytes.u64 bits ++ rest) = _
    change (Reader.u64 >>= _) _ = _
    rw [Reader.bind_of_ok (Reader.reads_u64 _ _ trivial), Reader.pure_apply]
  | classInfo name =>
    change readContents 7 (Bytes.u16 name ++ rest) = _
    change (Reader.u16 >>= _) _ = _
    rw [Reader.bind_of_ok (Reader.reads_u16 _ _ trivial), Reader.pure_apply]
  | string text =>
    change readContents 8 (Bytes.u16 text ++ rest) = _
    change (Reader.u16 >>= _) _ = _
    rw [Reader.bind_of_ok (Reader.reads_u16 _ _ trivial), Reader.pure_apply]
  | fieldRef owner nt => exact readPair_append fieldRef owner nt rest
  | methodRef owner nt => exact readPair_append methodRef owner nt rest
  | interfaceMethodRef owner nt => exact readPair_append interfaceMethodRef owner nt rest
  | nameAndType name descriptor => exact readPair_append nameAndType name descriptor rest
  | methodHandle kind reference =>
    change readContents 15 (kind :: (Bytes.u16 reference ++ rest)) = _
    change (Reader.u8 >>= _) _ = _
    have hkind : Reader.u8 (kind :: (Bytes.u16 reference ++ rest)) = .ok (kind, _) := rfl
    rw [Reader.bind_of_ok hkind, Reader.bind_of_ok (Reader.reads_u16 _ _ trivial), Reader.pure_apply]
  | methodType descriptor =>
    change readContents 16 (Bytes.u16 descriptor ++ rest) = _
    change (Reader.u16 >>= _) _ = _
    rw [Reader.bind_of_ok (Reader.reads_u16 _ _ trivial), Reader.pure_apply]
  | invokeDynamic bootstrap nt => exact readPair_append invokeDynamic bootstrap nt rest
  | unusable => exact absurd rfl hne

private theorem eq_of_readContents {tag : UInt8} {input rest : List UInt8} {e : Entry}
    (h : readContents tag input = .ok (e, rest)) : tag :: input = e.wire ++ rest ∧ e.Fits := by
  unfold readContents at h
  split at h
  · simp only [Reader.pure_eq_ok_iff] at h
    obtain ⟨rfl, rfl⟩ := h
    exact ⟨rfl, trivial⟩
  · simp only [Reader.bind_eq_ok_iff, Reader.pure_eq_ok_iff] at h
    obtain ⟨n, middle, hn, bytes, last, hbytes, rfl, rfl⟩ := h
    obtain ⟨rfl, hlength⟩ := Reader.eq_append_of_bytes hbytes
    have hlt := n.toNat_lt
    refine ⟨?_, show bytes.length ≤ 65535 by omega⟩
    rw [(Reader.takes_u16 _ _ _ hn).1]
    simp [wire, encode, hlength]
  · simp only [Reader.bind_eq_ok_iff, Reader.pure_eq_ok_iff] at h
    obtain ⟨v, middle, hv, rfl, rfl⟩ := h
    rw [(Reader.takes_u32 _ _ _ hv).1]
    exact ⟨by simp [wire, encode], trivial⟩
  · simp only [Reader.bind_eq_ok_iff, Reader.pure_eq_ok_iff] at h
    obtain ⟨v, middle, hv, rfl, rfl⟩ := h
    rw [(Reader.takes_u32 _ _ _ hv).1]
    exact ⟨by simp [wire, encode], trivial⟩
  · simp only [Reader.bind_eq_ok_iff, Reader.pure_eq_ok_iff] at h
    obtain ⟨v, middle, hv, rfl, rfl⟩ := h
    rw [(Reader.takes_u64 _ _ _ hv).1]
    exact ⟨by simp [wire, encode], trivial⟩
  · simp only [Reader.bind_eq_ok_iff, Reader.pure_eq_ok_iff] at h
    obtain ⟨v, middle, hv, rfl, rfl⟩ := h
    rw [(Reader.takes_u64 _ _ _ hv).1]
    exact ⟨by simp [wire, encode], trivial⟩
  · simp only [Reader.bind_eq_ok_iff, Reader.pure_eq_ok_iff] at h
    obtain ⟨v, middle, hv, rfl, rfl⟩ := h
    rw [(Reader.takes_u16 _ _ _ hv).1]
    exact ⟨by simp [wire, encode], trivial⟩
  · simp only [Reader.bind_eq_ok_iff, Reader.pure_eq_ok_iff] at h
    obtain ⟨v, middle, hv, rfl, rfl⟩ := h
    rw [(Reader.takes_u16 _ _ _ hv).1]
    exact ⟨by simp [wire, encode], trivial⟩
  · obtain ⟨a, b, rfl, rfl⟩ := eq_of_readPair h
    exact ⟨by simp [wire, encode], trivial⟩
  · obtain ⟨a, b, rfl, rfl⟩ := eq_of_readPair h
    exact ⟨by simp [wire, encode], trivial⟩
  · obtain ⟨a, b, rfl, rfl⟩ := eq_of_readPair h
    exact ⟨by simp [wire, encode], trivial⟩
  · obtain ⟨a, b, rfl, rfl⟩ := eq_of_readPair h
    exact ⟨by simp [wire, encode], trivial⟩
  · simp only [Reader.bind_eq_ok_iff, Reader.pure_eq_ok_iff] at h
    obtain ⟨kind, middle, hkind, v, last, hv, rfl, rfl⟩ := h
    rw [(Reader.takes_u8 _ _ _ hkind).1, (Reader.takes_u16 _ _ _ hv).1]
    exact ⟨by simp [wire, encode], trivial⟩
  · simp only [Reader.bind_eq_ok_iff, Reader.pure_eq_ok_iff] at h
    obtain ⟨v, middle, hv, rfl, rfl⟩ := h
    rw [(Reader.takes_u16 _ _ _ hv).1]
    exact ⟨by simp [wire, encode], trivial⟩
  · obtain ⟨a, b, rfl, rfl⟩ := eq_of_readPair h
    exact ⟨by simp [wire, encode], trivial⟩
  · exact absurd h Reader.fail_ne_ok

theorem takes_read : Reader.Takes read wire Fits := by
  intro input e rest h
  rw [read, Reader.tagged_eq_ok_iff, Reader.bind_eq_ok_iff] at h
  obtain ⟨tag, middle, htag, hcontents⟩ := h
  rw [(Reader.takes_u8 _ _ _ htag).1]
  exact eq_of_readContents hcontents

private theorem wire_of_ne {e : Entry} (h : e ≠ unusable) : e.wire = e.encode := if_neg h

private theorem flatMap_encode_slots (entries : List Entry) :
    (entries.flatMap slots).flatMap encode = entries.flatMap encode := by
  induction entries with
  | nil => rfl
  | cons e entries ih =>
    have he : e.slots.flatMap encode = e.encode := by
      cases hw : e.isWide with
      | true => simp [slots_of_wide hw, encode]
      | false => simp [slots_of_not_wide hw]
    rw [List.flatMap_cons, List.flatMap_append, List.flatMap_cons, he, ih]

private theorem stored_cons_of_not_wide {e : Entry} (h : e.isWide = false) (rest : List Entry) :
    stored (e :: rest) = e :: stored rest := by
  rw [stored.eq_def]
  simp [h]

private theorem stored_flatMap_slots (entries : List Entry) :
    stored (entries.flatMap slots) = entries := by
  induction entries with
  | nil => rfl
  | cons e entries ih =>
    rw [List.flatMap_cons]
    cases hw : e.isWide with
    | true => simp [slots_of_wide hw, stored, hw, ih]
    | false => simp [slots_of_not_wide hw, stored_cons_of_not_wide hw, ih]

/-- What an unusable slot is read from is left out when it is written. -/
theorem flatMap_encode_eq_filter (entries : List Entry) :
    entries.flatMap encode = (entries.filter (· ≠ unusable)).flatMap wire := by
  induction entries with
  | nil => rfl
  | cons e entries ih =>
    by_cases he : e = unusable
    · subst he
      simpa [encode] using ih
    · simp [he, ih, wire_of_ne he]

private theorem WellSlotted.tail {e : Entry} {rest : List Entry} (h : WellSlotted (e :: rest))
    (hw : e.isWide = false) : WellSlotted rest := by
  refine ⟨fun i f hf hfw => h.1 (i + 1) f hf hfw, fun i hi => ?_⟩
  obtain ⟨j, f, hij, hj, hfw⟩ := h.2 (i + 1) hi
  cases j with
  | zero =>
    cases hj
    rw [hw] at hfw
    cases hfw
  | succ j => exact ⟨j, f, by omega, hj, hfw⟩

private theorem WellSlotted.tail_tail {e : Entry} {rest : List Entry}
    (h : WellSlotted (e :: unusable :: rest)) : WellSlotted rest := by
  refine ⟨fun i f hf hfw => h.1 (i + 2) f hf hfw, fun i hi => ?_⟩
  obtain ⟨j, f, hij, hj, hfw⟩ := h.2 (i + 2) hi
  match j, hij, hj with
  | 1, _, hj =>
    cases hj
    cases hfw
  | j + 2, hij, hj => exact ⟨j, f, by omega, hj, hfw⟩

private theorem WellSlotted.flatMap_stored {entries : List Entry} (h : WellSlotted entries) :
    (stored entries).flatMap slots = entries ∧ unusable ∉ stored entries := by
  fun_induction stored entries with
  | case1 => simp
  | case2 e hw =>
    have hnext := h.1 0 e rfl hw
    cases hnext
  | case3 e hw f rest ih =>
    have hnext := h.1 0 e rfl hw
    have hf : f = unusable := Option.some.inj hnext
    subst hf
    obtain ⟨hslots, hnot⟩ := ih h.tail_tail
    refine ⟨?_, ?_⟩
    · rw [List.flatMap_cons, slots_of_wide hw, hslots]
      rfl
    · rintro (_ | ⟨_, hmem⟩)
      · cases hw
      · exact hnot hmem
  | case4 e rest hw ih =>
    have hw' : e.isWide = false := by simpa using hw
    obtain ⟨hslots, hnot⟩ := ih (h.tail hw')
    refine ⟨?_, ?_⟩
    · rw [List.flatMap_cons, slots_of_not_wide hw', hslots]
      rfl
    · rintro (_ | ⟨_, hmem⟩)
      · obtain ⟨j, f, hj, -⟩ := h.2 0 rfl
        cases hj
      · exact hnot hmem

private theorem readSlotsFrom_flatMap (entries : List Entry) (acc : Array Entry)
    (rest : List UInt8) (h : ∀ e ∈ entries, e ≠ unusable ∧ e.Fits) :
    readSlotsFrom (entries.flatMap slots).length acc (entries.flatMap encode ++ rest) =
      .ok (acc ++ entries.flatMap slots, rest) := by
  induction entries generalizing acc with
  | nil => simp [readSlotsFrom]
  | cons e entries ih =>
    have he := reads_read e (entries.flatMap encode ++ rest) (h e (by simp))
    have hrest := fun acc => ih acc fun f hf => h f (by simp [hf])
    rw [List.flatMap_cons, List.flatMap_cons, List.append_assoc]
    cases hw : e.isWide with
    | true =>
      rw [slots_of_wide hw]
      change readSlotsFrom ((entries.flatMap slots).length + 2) acc _ = _
      simp only [readSlotsFrom, he, hw, if_true, hrest]
      simp
    | false =>
      rw [slots_of_not_wide hw]
      change readSlotsFrom ((entries.flatMap slots).length + 1) acc _ = _
      simp only [readSlotsFrom, he, hw, Bool.false_eq_true, if_false, hrest]
      simp

theorem readSlots_append {entries : Array Entry} (h : WellSlotted entries.toList)
    (hfits : ∀ e ∈ entries.toList, e.Fits) (rest : List UInt8) :
    readSlots entries.size (entries.toList.flatMap encode ++ rest) = .ok (entries, rest) := by
  obtain ⟨hslots, hnot⟩ := h.flatMap_stored
  have hread : ∀ e ∈ stored entries.toList, e ≠ unusable ∧ e.Fits := by
    intro e he
    refine ⟨fun hu => hnot (hu ▸ he), hfits e ?_⟩
    rw [← hslots]
    exact List.mem_flatMap.mpr ⟨e, he, List.mem_of_getElem? (slots_head? e)⟩
  have hstored := readSlotsFrom_flatMap (stored entries.toList) #[] rest hread
  rw [← flatMap_encode_slots, hslots] at hstored
  rw [readSlots, ← Array.length_toList, hstored]
  simp

private theorem eq_of_readSlotsFrom {n : Nat} {acc out : Array Entry} {input rest : List UInt8}
    (h : readSlotsFrom n acc input = .ok (out, rest)) :
    ∃ entries : List Entry, input = entries.flatMap wire ++ rest ∧
      out.toList = acc.toList ++ entries.flatMap slots := by
  induction n using Nat.strongRecOn generalizing acc input with
  | _ n ih =>
    cases n with
    | zero =>
      cases h
      exact ⟨[], by simp⟩
    | succ n =>
      simp only [readSlotsFrom] at h
      split at h
      · cases h
      · rename_i e middle he
        rw [(takes_read _ _ _ he).1]
        split at h
        · rename_i hw
          cases n with
          | zero =>
            cases h
            exact ⟨[e], by simp, by simp [slots_of_wide hw]⟩
          | succ n =>
            obtain ⟨entries, rfl, hout⟩ := ih n (by omega) h
            exact ⟨e :: entries, by simp, by simp [hout, slots_of_wide hw]⟩
        · rename_i hw
          obtain ⟨entries, rfl, hout⟩ := ih n (by omega) h
          exact ⟨e :: entries, by simp, by simp [hout, slots_of_not_wide (by simpa using hw)]⟩

private theorem eq_of_readSlots {n : Nat} {out : Array Entry} {input rest : List UInt8}
    (h : readSlots n input = .ok (out, rest)) :
    input = (stored out.toList).flatMap wire ++ rest ∧
      out.toList.flatMap encode = ((stored out.toList).filter (· ≠ unusable)).flatMap wire := by
  obtain ⟨entries, hinput, hout⟩ := eq_of_readSlotsFrom h
  rw [List.nil_append] at hout
  rw [hout, stored_flatMap_slots, flatMap_encode_slots]
  exact ⟨hinput, flatMap_encode_eq_filter entries⟩

end Entry

namespace Attribute

theorem reads_read : Reader.Reads read encode (fun a => a.body.length < 4294967296) := by
  intro a rest h
  have hlength : (UInt32.ofNat a.body.length).toNat = a.body.length := by
    rw [UInt32.toNat_ofNat']
    omega
  rw [encode, read, List.append_assoc, List.append_assoc,
    Reader.bind_of_ok (Reader.reads_u16 _ _ trivial),
    Reader.bind_of_ok (Reader.reads_u32 _ _ trivial), hlength,
    Reader.bind_of_ok (Reader.bytes_append _ _), Reader.pure_apply]

theorem takes_read : Reader.Takes read encode (fun a => a.body.length < 4294967296) := by
  intro input a rest h
  simp only [read, Reader.bind_eq_ok_iff, Reader.pure_eq_ok_iff] at h
  obtain ⟨name, rest₁, hname, n, rest₂, hn, body, rest₃, hbody, rfl, rfl⟩ := h
  obtain ⟨rfl, hlength⟩ := Reader.eq_append_of_bytes hbody
  have hlt := n.toNat_lt
  refine ⟨?_, show body.length < _ by omega⟩
  rw [(Reader.takes_u16 _ _ _ hname).1, (Reader.takes_u32 _ _ _ hn).1, encode, hlength,
    UInt32.ofNat_toNat, List.append_assoc, List.append_assoc]

end Attribute

namespace Member

def Fits (m : Member) : Prop :=
  m.attributes.length ≤ 65535 ∧ ∀ a ∈ m.attributes, a.body.length < 4294967296

theorem reads_read : Reader.Reads read encode Fits := by
  intro m rest h
  rw [encode, read, List.append_assoc, List.append_assoc, List.append_assoc,
    Reader.bind_of_ok (Reader.reads_u16 _ _ trivial),
    Reader.bind_of_ok (Reader.reads_u16 _ _ trivial),
    Reader.bind_of_ok (Reader.reads_u16 _ _ trivial),
    Reader.bind_of_ok (Reader.reads_counted16 Attribute.reads_read _ _ h), Reader.pure_apply]

theorem takes_read : Reader.Takes read encode Fits := by
  intro input m rest h
  simp only [read, Reader.bind_eq_ok_iff, Reader.pure_eq_ok_iff] at h
  obtain ⟨flags, rest₁, hflags, name, rest₂, hname, descriptor, rest₃, hdescriptor, attributes,
    rest₄, hattributes, rfl, rfl⟩ := h
  obtain ⟨rfl, hfits⟩ := Reader.takes_counted16 Attribute.takes_read _ _ _ hattributes
  refine ⟨?_, hfits⟩
  rw [(Reader.takes_u16 _ _ _ hflags).1, (Reader.takes_u16 _ _ _ hname).1,
    (Reader.takes_u16 _ _ _ hdescriptor).1, encode]
  simp only [List.append_assoc]

end Member

namespace ClassFile

def allAttributes (c : ClassFile) : List Attribute :=
  c.attributes ++ (c.fields ++ c.methods).flatMap Member.attributes

/-- The counts and lengths that are written hold what they count, and the slots of the pool are laid
out as they are read. -/
structure WellCounted (c : ClassFile) : Prop where
  poolCount : c.poolCount.toNat = c.pool.size + 1
  slots : Entry.WellSlotted c.pool.toList
  texts : ∀ bytes, .utf8 bytes ∈ c.pool.toList → bytes.length ≤ 65535
  interfaces : c.interfaces.length ≤ 65535
  fields : c.fields.length ≤ 65535
  methods : c.methods.length ≤ 65535
  attributes : c.attributes.length ≤ 65535
  members : ∀ m ∈ c.fields ++ c.methods, m.attributes.length ≤ 65535
  bodies : ∀ a ∈ c.allAttributes, a.body.length < 4294967296

def head (c : ClassFile) : List UInt8 :=
  Bytes.u32 magic ++ Bytes.u16 c.minor ++ Bytes.u16 c.major ++ Bytes.u16 c.poolCount

def tail (c : ClassFile) : List UInt8 :=
  Bytes.u16 c.flags ++ Bytes.u16 c.this ++ Bytes.u16 c.super ++
    Bytes.counted16 Bytes.u16 c.interfaces ++ Bytes.counted16 Member.encode c.fields ++
    Bytes.counted16 Member.encode c.methods ++ Bytes.counted16 Attribute.encode c.attributes

private theorem encode_eq (c : ClassFile) :
    c.encode = c.head ++ c.pool.toList.flatMap Entry.encode ++ c.tail := by
  simp only [encode, head, tail, List.append_assoc]

private theorem WellCounted.member_fits {c : ClassFile} (h : c.WellCounted) {m : Member}
    (hm : m ∈ c.fields ++ c.methods) : m.Fits :=
  ⟨h.members m hm, fun a ha =>
    h.bodies a (List.mem_append_right _ (List.mem_flatMap.mpr ⟨m, hm, ha⟩))⟩

private theorem readMagic_append (rest : List UInt8) :
    readMagic (Bytes.u32 magic ++ rest) = .ok ((), rest) := by
  rw [readMagic, Reader.bind_of_ok (Reader.reads_u32 _ _ trivial), if_pos rfl]
  rfl

/-- A class file with right counts is read back, whatever follows it. -/
theorem read_encode_append {c : ClassFile} (h : c.WellCounted) (rest : List UInt8) :
    read (c.encode ++ rest) = .ok (c, rest) := by
  have hfits : ∀ e ∈ c.pool.toList, e.Fits := by
    intro e he
    cases e with
    | utf8 bytes => exact h.texts bytes he
    | _ => trivial
  have hfields : ∀ m ∈ c.fields, m.Fits := fun m hm => h.member_fits (List.mem_append_left _ hm)
  have hmethods : ∀ m ∈ c.methods, m.Fits := fun m hm => h.member_fits (List.mem_append_right _ hm)
  have hattributes : ∀ a ∈ c.attributes, a.body.length < 4294967296 :=
    fun a ha => h.bodies a (List.mem_append_left _ ha)
  have hcount : c.poolCount.toNat - 1 = c.pool.size := by
    rw [h.poolCount, Nat.add_sub_cancel]
  simp only [encode, List.append_assoc]
  rw [read, Reader.bind_of_ok (readMagic_append _),
    Reader.bind_of_ok (Reader.reads_u16 _ _ trivial),
    Reader.bind_of_ok (Reader.reads_u16 _ _ trivial),
    Reader.bind_of_ok (Reader.reads_u16 _ _ trivial), hcount,
    Reader.bind_of_ok (Entry.readSlots_append h.slots hfits _),
    Reader.bind_of_ok (Reader.reads_u16 _ _ trivial),
    Reader.bind_of_ok (Reader.reads_u16 _ _ trivial),
    Reader.bind_of_ok (Reader.reads_u16 _ _ trivial),
    Reader.bind_of_ok (Reader.reads_counted16 Reader.reads_u16 _ _
      ⟨h.interfaces, fun _ _ => trivial⟩),
    Reader.bind_of_ok (Reader.reads_counted16 Member.reads_read _ _ ⟨h.fields, hfields⟩),
    Reader.bind_of_ok (Reader.reads_counted16 Member.reads_read _ _ ⟨h.methods, hmethods⟩),
    Reader.bind_of_ok (Reader.reads_counted16 Attribute.reads_read _ _
      ⟨h.attributes, hattributes⟩), Reader.pure_apply]

private theorem eq_of_readMagic {input rest : List UInt8} (h : readMagic input = .ok ((), rest)) :
    input = Bytes.u32 magic ++ rest := by
  simp only [readMagic, Reader.bind_eq_ok_iff] at h
  obtain ⟨found, middle, hfound, hcheck⟩ := h
  split at hcheck
  · rename_i hmagic
    obtain ⟨-, rfl⟩ := Reader.pure_eq_ok_iff.mp hcheck
    rw [(Reader.takes_u32 _ _ _ hfound).1, hmagic]
  · exact absurd hcheck Reader.fail_ne_ok

private theorem eq_of_read {c : ClassFile} {input rest : List UInt8} (h : read input = .ok (c, rest)) :
    input = c.head ++ (Entry.stored c.pool.toList).flatMap Entry.wire ++ c.tail ++ rest ∧
      c.encode = c.head ++
        ((Entry.stored c.pool.toList).filter (· ≠ .unusable)).flatMap Entry.wire ++ c.tail := by
  simp only [read, Reader.bind_eq_ok_iff, Reader.pure_eq_ok_iff] at h
  obtain ⟨⟨⟩, _, hmagic, minor, _, hminor, major, _, hmajor, count, _, hcount, pool, _, hpool,
    flags, _, hflags, this, _, hthis, super, _, hsuper, interfaces, _, hinterfaces,
    fields, _, hfields, methods, _, hmethods, attributes, _, hattributes, rfl, rfl⟩ := h
  obtain ⟨hbytes, hencode⟩ := Entry.eq_of_readSlots hpool
  refine ⟨?_, ?_⟩
  · rw [eq_of_readMagic hmagic, (Reader.takes_u16 _ _ _ hminor).1,
      (Reader.takes_u16 _ _ _ hmajor).1, (Reader.takes_u16 _ _ _ hcount).1, hbytes,
      (Reader.takes_u16 _ _ _ hflags).1, (Reader.takes_u16 _ _ _ hthis).1,
      (Reader.takes_u16 _ _ _ hsuper).1,
      (Reader.takes_counted16 Reader.takes_u16 _ _ _ hinterfaces).1,
      (Reader.takes_counted16 Member.takes_read _ _ _ hfields).1,
      (Reader.takes_counted16 Member.takes_read _ _ _ hmethods).1,
      (Reader.takes_counted16 Attribute.takes_read _ _ _ hattributes).1]
    simp only [head, tail, List.append_assoc]
  · rw [encode_eq, hencode]

private theorem length_filter_wire (entries : List Entry) :
    ((entries.filter (· ≠ .unusable)).flatMap Entry.wire).length + entries.count .unusable =
      (entries.flatMap Entry.wire).length := by
  induction entries with
  | nil => rfl
  | cons e entries ih =>
    by_cases he : e = .unusable
    · subst he
      simp only [ne_eq, not_true_eq_false, decide_false, Bool.false_eq_true, not_false_eq_true,
        List.filter_cons_of_neg, List.count_cons_self, List.flatMap_cons, List.length_append,
        Entry.wire, if_true, List.length_singleton] at ih ⊢
      omega
    · simp only [ne_eq, he, not_false_eq_true, decide_true, List.filter_cons_of_pos,
        List.flatMap_cons, List.length_append, List.count_cons_of_ne] at ih ⊢
      omega

/-- Encoding restores what was read exactly when no slot was read from a tag of zero. -/
theorem encode_append_eq_iff {c : ClassFile} {input rest : List UInt8}
    (h : read input = .ok (c, rest)) :
    c.encode ++ rest = input ↔ .unusable ∉ Entry.stored c.pool.toList := by
  obtain ⟨hinput, hencode⟩ := eq_of_read h
  have hlength := length_filter_wire (Entry.stored c.pool.toList)
  rw [hinput, hencode, ← List.count_eq_zero]
  constructor
  · intro heq
    have hsame := congrArg List.length heq
    simp only [List.length_append] at hsame
    omega
  · intro hzero
    have hall : (Entry.stored c.pool.toList).filter (· ≠ .unusable) =
        Entry.stored c.pool.toList := by
      rw [List.filter_eq_self]
      intro e he
      have hne : e ≠ .unusable := fun hu => List.count_eq_zero.mp hzero (hu ▸ he)
      simpa using hne
    rw [hall]

/-- Generated class files have right counts, bodies too long for their length field aside. -/
theorem wellCounted_of_generated {options : Options} {d : ClassDecl} {file : ClassFile} {q : Pool}
    (h : d.Generated options file q)
    (hbodies : ∀ a ∈ file.allAttributes, a.body.length < 4294967296) : file.WellCounted where
  poolCount := by
    rw [h.poolCount, h.pool, Pool.toNat_count h.sound.size_le]
  slots := by
    rw [h.pool]
    exact h.sound.wellSlotted
  texts := by
    intro bytes hmem
    rw [h.pool] at hmem
    obtain ⟨k, hk⟩ := List.mem_iff_getElem?.mp hmem
    have hlt := (List.getElem?_eq_some_iff.mp hk).1
    have hsize := h.sound.size_le
    simp only [Array.length_toList, Pool.maxSlots] at hlt hsize
    have hindex : (UInt16.ofNat (k + 1)).toNat = k + 1 := by
      rw [UInt16.toNat_ofNat']
      omega
    have hget : q.get? (UInt16.ofNat (k + 1)) = some (.utf8 bytes) := by
      refine Pool.get?_eq_some_iff.mpr ⟨fun hz => ?_, ?_⟩
      · rw [hz] at hindex
        simp at hindex
      · rw [hindex]
        exact hk
    obtain ⟨text, htext⟩ := h.sound.grounded _ _ hget
    obtain ⟨rfl, hlength⟩ := ModifiedUtf8.encode16?_eq_some_iff.mp htext
    exact hlength
  interfaces := h.interfaces.1
  fields := h.fields.1
  methods := h.methods.1
  attributes := h.attributes.1
  members := by
    intro m hm
    rcases List.mem_append.mp hm with hm | hm
    · obtain ⟨f, -, hgenerated⟩ := exists_left_of_forall₂ h.fields.2 hm
      exact hgenerated.length_le
    · obtain ⟨d, -, hgenerated⟩ := exists_left_of_forall₂ h.methods.2 hm
      exact hgenerated.length_le
  bodies := hbodies

/-- Class files with right counts are read back from their bytes, whatever follows.  A class file
that is read was made of its own bytes, among which the slots read from a tag of zero had one more
byte each, so it is encoded as it was exactly if there were no such slots.  Generated class files
have right counts if their attributes can state their lengths. -/
theorem encode_decode_inverse :
    (∀ (c : ClassFile) (rest : List UInt8), c.WellCounted → decode (c.encode ++ rest) = .ok c) ∧
    (∀ (input : List UInt8) (c : ClassFile), decode input = .ok c →
      ∃ rest, read input = .ok (c, rest) ∧
        input = c.head ++ (Entry.stored c.pool.toList).flatMap Entry.wire ++ c.tail ++ rest ∧
        c.encode = c.head ++
          ((Entry.stored c.pool.toList).filter (· ≠ .unusable)).flatMap Entry.wire ++ c.tail ∧
        (c.encode ++ rest = input ↔ .unusable ∉ Entry.stored c.pool.toList)) ∧
    ∀ (d : ClassDecl) (options : Options) (file : ClassFile), d.generate options = .ok file →
      (∀ a ∈ file.allAttributes, a.body.length < 4294967296) → file.WellCounted := by
  refine ⟨?_, ?_, ?_⟩
  · intro c rest h
    exact Reader.run_of_ok (read_encode_append h rest)
  · intro input c h
    obtain ⟨rest, hread⟩ := Reader.run_eq_ok_iff.mp h
    obtain ⟨hinput, hencode⟩ := eq_of_read hread
    exact ⟨rest, hread, hinput, hencode, encode_append_eq_iff hread⟩
  · intro d options file h hbodies
    obtain ⟨q, hq⟩ := ClassDecl.generated_of_generate h
    exact wellCounted_of_generated hq hbodies

end ClassFile

end Classwright
