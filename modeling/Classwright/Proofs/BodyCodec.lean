import Classwright.Proofs.AttributeCodec

/-!
# Bodies of attributes are read exactly

Every attribute body of known form is read back from its bytes, and what is taken off an input is what
would be written for the body that was found.  The second holds also where an element value with a tag
of its own was cut short and read as a plain constant, since that is written with the same tag.
-/

namespace Classwright

namespace Reader

variable {α : Type} {encode : α → List UInt8} {P : α → Prop} {r s : Reader α}

private theorem Takes.tagged (h : Takes r encode P) : Takes (tagged r) encode P :=
  fun input a rest hread => h input a rest (tagged_eq_ok_iff.mp hread)

private theorem Takes.orElse (hr : Takes r encode P) (hs : Takes s encode P) :
    Takes (orElse r s) encode P := by
  intro input a rest h
  unfold Reader.orElse at h
  split at h
  · rename_i hread
    exact hr input a rest (hread.trans h)
  · exact hs input a rest h

private theorem orElse_of_ok {input : List UInt8} {result : α × List UInt8} (h : r input = .ok result) :
    orElse r s input = .ok result := by
  rw [orElse, h]

/-- Continuations that agree on all inputs up to a length agree after a reader that adds nothing. -/
theorem bind_congr {β : Type} (hr : Takes r encode P) {f g : α → Reader β} {n : Nat}
    (h : ∀ a input, input.length ≤ n → f a input = g a input) {input : List UInt8}
    (hinput : input.length ≤ n) : (r >>= f) input = (r >>= g) input := by
  rw [bind_apply, bind_apply]
  split
  · rfl
  · rename_i a rest hread
    rw [(hr _ _ _ hread).1, List.length_append] at hinput
    exact h a rest (by omega)

private theorem timesFrom_congr (hr : Takes r encode P) {n : Nat}
    (h : ∀ input, input.length ≤ n → r input = s input) (k : Nat) (done : List α)
    {input : List UInt8} (hinput : input.length ≤ n) :
    timesFrom r k done input = timesFrom s k done input := by
  induction k generalizing done input with
  | zero => rfl
  | succ k ih =>
    simp only [timesFrom, ← h input hinput]
    split
    · rfl
    · rename_i a rest hread
      rw [(hr _ _ _ hread).1, List.length_append] at hinput
      exact ih (a :: done) (by omega)

private theorem times_congr (hr : Takes r encode P) {n : Nat}
    (h : ∀ input, input.length ≤ n → r input = s input) (k : Nat) {input : List UInt8}
    (hinput : input.length ≤ n) : times k r input = times k s input :=
  timesFrom_congr hr h k [] hinput

private theorem counted16_congr (hr : Takes r encode P) {n : Nat}
    (h : ∀ input, input.length ≤ n → r input = s input) {input : List UInt8}
    (hinput : input.length ≤ n) : counted16 r input = counted16 s input :=
  bind_congr takes_u16 (fun k _ hrest => times_congr hr h k.toNat hrest) hinput

private theorem orElse_of_error {input : List UInt8} {e : Fault} (h : r input = .error e) :
    orElse r s input = s input := by
  rw [orElse, h]

end Reader

theorem Handler.takes_read : Reader.Takes Handler.read Handler.encode (fun _ => True) := by
  intro input h rest hread
  simp only [read, Reader.bind_eq_ok_iff, Reader.pure_eq_ok_iff] at hread
  obtain ⟨start, _, hstart, stop, _, hstop, target, _, htarget, type, _, htype, rfl, rfl⟩ := hread
  rw [(Reader.takes_u16 _ _ _ hstart).1, (Reader.takes_u16 _ _ _ hstop).1,
    (Reader.takes_u16 _ _ _ htarget).1, (Reader.takes_u16 _ _ _ htype).1]
  simp [encode]

theorem Code.takes_read : Reader.Takes Code.read Code.encode Code.Fits := by
  intro input c rest h
  simp only [read, Reader.bind_eq_ok_iff, Reader.pure_eq_ok_iff] at h
  obtain ⟨maxStack, _, hstack, maxLocals, _, hlocals, length, _, hlength, code, _, hcode, handlers, _,
    hhandlers, attributes, _, hattributes, rfl, rfl⟩ := h
  obtain ⟨rfl, hcount⟩ := Reader.eq_append_of_bytes hcode
  obtain ⟨rfl, hhandlersFit⟩ := Reader.takes_counted16 Handler.takes_read _ _ _ hhandlers
  obtain ⟨rfl, hattributesFit⟩ := Reader.takes_counted16 Attribute.takes_read _ _ _ hattributes
  have hlt : code.length < 4294967296 := hcount ▸ length.toNat_lt
  refine ⟨?_, hlt, hhandlersFit.1, hattributesFit⟩
  rw [(Reader.takes_u16 _ _ _ hstack).1, (Reader.takes_u16 _ _ _ hlocals).1,
    (Reader.takes_u32 _ _ _ hlength).1, encode, hcount, UInt32.ofNat_toNat]
  simp

namespace LocalVariable

theorem reads_read : Reader.Reads read encode (fun _ => True) := by
  intro v rest _
  rw [encode, read]
  simp only [List.append_assoc]
  rw [Reader.bind_of_ok (Reader.reads_u16 _ _ trivial),
    Reader.bind_of_ok (Reader.reads_u16 _ _ trivial),
    Reader.bind_of_ok (Reader.reads_u16 _ _ trivial),
    Reader.bind_of_ok (Reader.reads_u16 _ _ trivial),
    Reader.bind_of_ok (Reader.reads_u16 _ _ trivial), Reader.pure_apply]

theorem takes_read : Reader.Takes read encode (fun _ => True) := by
  intro input v rest h
  simp only [read, Reader.bind_eq_ok_iff, Reader.pure_eq_ok_iff] at h
  obtain ⟨start, _, hstart, length, _, hlength, name, _, hname, descriptor, _, hdescriptor, slot, _,
    hslot, rfl, rfl⟩ := h
  rw [(Reader.takes_u16 _ _ _ hstart).1, (Reader.takes_u16 _ _ _ hlength).1,
    (Reader.takes_u16 _ _ _ hname).1, (Reader.takes_u16 _ _ _ hdescriptor).1,
    (Reader.takes_u16 _ _ _ hslot).1]
  simp [encode]

end LocalVariable

theorem VerificationType.takes_read :
    Reader.Takes VerificationType.read VerificationType.encode (fun _ => True) := by
  refine Reader.Takes.tagged fun input t rest h => ⟨?_, trivial⟩
  obtain ⟨tag, middle, htag, h⟩ := Reader.bind_eq_ok_iff.mp h
  rw [(Reader.takes_u8 _ _ _ htag).1]
  unfold readContents at h
  split at h
  case h_8 | h_9 =>
    simp only [Reader.bind_eq_ok_iff, Reader.pure_eq_ok_iff] at h
    obtain ⟨index, _, hindex, rfl, rfl⟩ := h
    rw [(Reader.takes_u16 _ _ _ hindex).1]
    rfl
  case h_10 => exact absurd h Reader.fail_ne_ok
  all_goals
    obtain ⟨rfl, rfl⟩ := Reader.pure_eq_ok_iff.mp h
    rfl

namespace MapFrame

private theorem ofNat_toNat {type : UInt8} {k : Nat} (h : k = type.toNat) : UInt8.ofNat k = type := by
  rw [h, UInt8.ofNat_toNat]

private theorem eq_of_readContents {type : UInt8} {input rest : List UInt8} {f : MapFrame}
    (h : readContents type input = .ok (f, rest)) :
    f.type = type ∧ input = f.contents ++ rest ∧ f.Fits := by
  have hlt := type.toNat_lt
  unfold readContents at h
  split at h
  · obtain ⟨rfl, rfl⟩ := Reader.pure_eq_ok_iff.mp h
    exact ⟨ofNat_toNat (by rw [Fin.val_ofNat]; omega), rfl, trivial⟩
  split at h
  · simp only [Reader.bind_eq_ok_iff, Reader.pure_eq_ok_iff] at h
    obtain ⟨item, _, hitem, rfl, rfl⟩ := h
    exact ⟨ofNat_toNat (by rw [Fin.val_ofNat]; omega), (VerificationType.takes_read _ _ _ hitem).1,
      trivial⟩
  split at h
  · exact absurd h Reader.fail_ne_ok
  split at h
  · rename_i htype
    simp only [Reader.bind_eq_ok_iff, Reader.pure_eq_ok_iff] at h
    obtain ⟨delta, _, hdelta, item, _, hitem, rfl, rfl⟩ := h
    refine ⟨ofNat_toNat htype.symm, ?_, trivial⟩
    rw [(Reader.takes_u16 _ _ _ hdelta).1, (VerificationType.takes_read _ _ _ hitem).1, contents,
      List.append_assoc]
  split at h
  · simp only [Reader.bind_eq_ok_iff, Reader.pure_eq_ok_iff] at h
    obtain ⟨delta, _, hdelta, rfl, rfl⟩ := h
    exact ⟨ofNat_toNat (by rw [Fin.val_ofNat]; omega), (Reader.takes_u16 _ _ _ hdelta).1, trivial⟩
  split at h
  · rename_i htype
    simp only [Reader.bind_eq_ok_iff, Reader.pure_eq_ok_iff] at h
    obtain ⟨delta, _, hdelta, rfl, rfl⟩ := h
    exact ⟨ofNat_toNat htype.symm, (Reader.takes_u16 _ _ _ hdelta).1, trivial⟩
  split at h
  · simp only [Reader.bind_eq_ok_iff, Reader.pure_eq_ok_iff] at h
    obtain ⟨delta, _, hdelta, locals, _, hlocals, rfl, rfl⟩ := h
    obtain ⟨rfl, hlength, -⟩ := Reader.eq_flatMap_of_times VerificationType.takes_read hlocals
    refine ⟨ofNat_toNat (by rw [hlength]; omega), ?_, by rw [hlength]; omega, by rw [hlength]; omega⟩
    rw [(Reader.takes_u16 _ _ _ hdelta).1, contents, List.append_assoc]
  · simp only [Reader.bind_eq_ok_iff, Reader.pure_eq_ok_iff] at h
    obtain ⟨delta, _, hdelta, locals, _, hlocals, stack, _, hstack, rfl, rfl⟩ := h
    obtain ⟨rfl, hlocalsFit⟩ := Reader.takes_counted16 VerificationType.takes_read _ _ _ hlocals
    obtain ⟨rfl, hstackFit⟩ := Reader.takes_counted16 VerificationType.takes_read _ _ _ hstack
    have htype : 255 = type.toNat := by omega
    refine ⟨ofNat_toNat htype, ?_, hlocalsFit.1, hstackFit.1⟩
    rw [(Reader.takes_u16 _ _ _ hdelta).1, contents, List.append_assoc, List.append_assoc]

theorem takes_read : Reader.Takes read encode Fits := by
  intro input f rest h
  obtain ⟨type, middle, htype, h⟩ := Reader.bind_eq_ok_iff.mp h
  obtain ⟨rfl, rfl, hfits⟩ := eq_of_readContents (Reader.tagged_eq_ok_iff.mp h)
  exact ⟨(Reader.takes_u8 _ _ _ htype).1, hfits⟩

end MapFrame

namespace ElementValue

def encodeElement (e : UInt16 × ElementValue) : List UInt8 := Bytes.u16 e.1 ++ e.2.encode

private theorem encodeValues_eq (values : List ElementValue) (done : List (List UInt8)) :
    encodeValues values done = done.reverse.flatten ++ values.flatMap encode := by
  induction values generalizing done with
  | nil => simp [encodeValues]
  | cons v rest ih => simp [encodeValues, ih]

private theorem encodeElements_eq (elements : List (UInt16 × ElementValue)) (done : List (List UInt8)) :
    encodeElements elements done = done.reverse.flatten ++ elements.flatMap encodeElement := by
  induction elements generalizing done with
  | nil => simp [encodeElements]
  | cons e rest ih => simp [encodeElements, encodeElement, ih]

private theorem encode_nested (type : UInt16) (elements : List (UInt16 × ElementValue)) :
    encode (nested type elements) =
      0x40 :: (Bytes.u16 type ++ Bytes.counted16 encodeElement elements) := by
  simp [encode, encodeElements_eq, Bytes.counted16]

theorem encode_array (values : List ElementValue) :
    encode (array values) = 0x5b :: Bytes.counted16 encode values := by
  simp [encode, encodeValues_eq, Bytes.counted16]

/-- The length fields of a value hold its lengths, and no plain constant has a tag that announces
other contents. -/
inductive WellFormed : ElementValue → Prop where
  | enum (type name : UInt16) : WellFormed (enum type name)
  | classInfo (descriptor : UInt16) : WellFormed (classInfo descriptor)
  | nested (type : UInt16) {elements : List (UInt16 × ElementValue)}
      (length_le : elements.length ≤ 65535) (each : ∀ e ∈ elements, WellFormed e.2) :
      WellFormed (nested type elements)
  | array {values : List ElementValue} (length_le : values.length ≤ 65535)
      (each : ∀ v ∈ values, WellFormed v) : WellFormed (array values)
  | const {tag : UInt8} (index : UInt16)
      (plain : tag ≠ 0x65 ∧ tag ≠ 0x63 ∧ tag ≠ 0x40 ∧ tag ≠ 0x5b) : WellFormed (const tag index)

theorem length_le_of_mem {α : Type} {f : α → List UInt8} {items : List α} {a : α} (h : a ∈ items) :
    (f a).length ≤ (Bytes.counted16 f items).length := by
  have hsub := (List.sublist_flatten_of_mem (List.mem_map_of_mem h : f a ∈ items.map f)).length_le
  rw [Bytes.counted16, List.length_append, List.flatMap_def]
  omega

section Special

variable (r : Reader ElementValue) (input : List UInt8)

private theorem readSpecial_enum : readSpecial r (0x65 :: input) =
    (do let type ← Reader.u16; return enum type (← Reader.u16)) input := rfl

private theorem readSpecial_classInfo : readSpecial r (0x63 :: input) =
    (do return classInfo (← Reader.u16)) input := rfl

private theorem readSpecial_nested : readSpecial r (0x40 :: input) =
    (do let type ← Reader.u16; return nested type (← Reader.counted16 (readElement r))) input := rfl

private theorem readSpecial_array : readSpecial r (0x5b :: input) =
    (do return array (← Reader.counted16 r)) input := rfl

private theorem readSpecial_plain {tag : UInt8}
    (h : tag ≠ 0x65 ∧ tag ≠ 0x63 ∧ tag ≠ 0x40 ∧ tag ≠ 0x5b) :
    readSpecial r (tag :: input) = .error .truncated := by
  have htag : Reader.u8 (tag :: input) = .ok (tag, input) := rfl
  rw [readSpecial, Reader.bind_of_ok htag]
  obtain ⟨henum, hclass, hnested, harray⟩ := h
  split <;> first | contradiction | rfl

end Special

theorem readElement_append {r : Reader ElementValue} {e : UInt16 × ElementValue}
    {rest : List UInt8} (h : r (e.2.encode ++ rest) = .ok (e.2, rest)) :
    readElement r (encodeElement e ++ rest) = .ok (e, rest) := by
  rw [encodeElement, List.append_assoc, readElement,
    Reader.bind_of_ok (Reader.reads_u16 _ _ trivial), Reader.bind_of_ok h, Reader.pure_apply]

private theorem read_of_special {v : ElementValue} {depth : Nat} (hdepth : v.encode.length ≤ depth)
    {rest : List UInt8} (h : ∀ d, v.encode.length ≤ d + 1 →
      readSpecial (read d) (v.encode ++ rest) = .ok (v, rest)) :
    read depth (v.encode ++ rest) = .ok (v, rest) := by
  cases depth with
  | zero => cases v <;> simp [encode] at hdepth
  | succ d =>
    rw [read, Reader.tagged_eq_ok_iff]
    exact Reader.orElse_of_ok (h d hdepth)

/-- A value is read back if as many levels of nesting are allowed as it has bytes. -/
theorem WellFormed.read_append {v : ElementValue} (h : v.WellFormed) {depth : Nat}
    (hdepth : v.encode.length ≤ depth) (rest : List UInt8) :
    read depth (v.encode ++ rest) = .ok (v, rest) := by
  induction h generalizing depth rest with
  | enum type name =>
    refine read_of_special hdepth fun depth _ => ?_
    rw [encode, List.cons_append, readSpecial_enum, List.append_assoc,
      Reader.bind_of_ok (Reader.reads_u16 _ _ trivial),
      Reader.bind_of_ok (Reader.reads_u16 _ _ trivial), Reader.pure_apply]
  | classInfo descriptor =>
    refine read_of_special hdepth fun depth _ => ?_
    rw [encode, List.cons_append, readSpecial_classInfo,
      Reader.bind_of_ok (Reader.reads_u16 _ _ trivial), Reader.pure_apply]
  | @nested type elements length_le each ih =>
    refine read_of_special hdepth fun depth hdepth => ?_
    rw [encode_nested] at hdepth ⊢
    rw [List.length_cons, List.length_append] at hdepth
    have helements : ∀ e ∈ elements, ∀ rest,
        readElement (read depth) (encodeElement e ++ rest) = .ok (e, rest) := by
      intro e he rest
      have hle := length_le_of_mem (f := encodeElement) he
      rw [encodeElement, List.length_append] at hle
      exact readElement_append (ih e he (by omega) rest)
    have hcounted := Reader.reads_counted16 (fun _ rest h => h rest) elements rest
      ⟨length_le, helements⟩
    rw [List.cons_append, readSpecial_nested, List.append_assoc,
      Reader.bind_of_ok (Reader.reads_u16 _ _ trivial), Reader.bind_of_ok hcounted, Reader.pure_apply]
  | @array values length_le each ih =>
    refine read_of_special hdepth fun depth hdepth => ?_
    rw [encode_array] at hdepth ⊢
    rw [List.length_cons] at hdepth
    have hvalues : ∀ v ∈ values, ∀ rest, read depth (encode v ++ rest) = .ok (v, rest) := by
      intro v hv rest
      have hle := length_le_of_mem (f := encode) hv
      exact ih v hv (by omega) rest
    have hcounted := Reader.reads_counted16 (fun _ rest h => h rest) values rest
      ⟨length_le, hvalues⟩
    rw [List.cons_append, readSpecial_array, Reader.bind_of_ok hcounted, Reader.pure_apply]
  | @const tag index plain =>
    obtain ⟨depth, rfl⟩ : ∃ d, depth = d + 1 := Nat.exists_eq_add_one.mpr (Nat.lt_of_lt_of_le (by
      simp [encode]) hdepth)
    rw [read, Reader.tagged_eq_ok_iff, encode, List.cons_append,
      Reader.orElse_of_error (readSpecial_plain _ _ plain)]
    exact (Reader.bind_of_ok (Reader.reads_u16 index rest trivial) :
      (Reader.u16 >>= fun index => pure (ElementValue.const tag index)) (Bytes.u16 index ++ rest) = _)

private theorem takes_readConst : Reader.Takes readConst encode (fun _ => True) := by
  intro input v rest h
  simp only [readConst, Reader.bind_eq_ok_iff, Reader.pure_eq_ok_iff] at h
  obtain ⟨tag, _, htag, index, _, hindex, rfl, rfl⟩ := h
  rw [(Reader.takes_u8 _ _ _ htag).1, (Reader.takes_u16 _ _ _ hindex).1]
  exact ⟨rfl, trivial⟩

private theorem takes_readElement {r : Reader ElementValue} (hr : Reader.Takes r encode (fun _ => True)) :
    Reader.Takes (readElement r) encodeElement (fun _ => True) := by
  intro input e rest h
  simp only [readElement, Reader.bind_eq_ok_iff, Reader.pure_eq_ok_iff] at h
  obtain ⟨name, _, hname, v, _, hv, rfl, rfl⟩ := h
  rw [(Reader.takes_u16 _ _ _ hname).1, (hr _ _ _ hv).1]
  exact ⟨(List.append_assoc _ _ _).symm, trivial⟩

private theorem takes_readSpecial {r : Reader ElementValue}
    (hr : Reader.Takes r encode (fun _ => True)) :
    Reader.Takes (readSpecial r) encode (fun _ => True) := by
  intro input v rest h
  obtain ⟨tag, middle, htag, h⟩ := Reader.bind_eq_ok_iff.mp h
  rw [(Reader.takes_u8 _ _ _ htag).1]
  refine ⟨?_, trivial⟩
  split at h
  · simp only [Reader.bind_eq_ok_iff, Reader.pure_eq_ok_iff] at h
    obtain ⟨type, _, htype, name, _, hname, rfl, rfl⟩ := h
    rw [(Reader.takes_u16 _ _ _ htype).1, (Reader.takes_u16 _ _ _ hname).1, encode]
    simp
  · simp only [Reader.bind_eq_ok_iff, Reader.pure_eq_ok_iff] at h
    obtain ⟨descriptor, _, hdescriptor, rfl, rfl⟩ := h
    rw [(Reader.takes_u16 _ _ _ hdescriptor).1, encode]
    simp
  · simp only [Reader.bind_eq_ok_iff, Reader.pure_eq_ok_iff] at h
    obtain ⟨type, _, htype, elements, _, helements, rfl, rfl⟩ := h
    rw [(Reader.takes_u16 _ _ _ htype).1,
      (Reader.takes_counted16 (takes_readElement hr) _ _ _ helements).1, encode_nested]
    simp
  · simp only [Reader.bind_eq_ok_iff, Reader.pure_eq_ok_iff] at h
    obtain ⟨values, _, hvalues, rfl, rfl⟩ := h
    rw [(Reader.takes_counted16 hr _ _ _ hvalues).1, encode_array]
    simp
  · exact absurd h Reader.fail_ne_ok

theorem takes_read (depth : Nat) : Reader.Takes (read depth) encode (fun _ => True) := by
  induction depth with
  | zero => exact Reader.Takes.tagged fun input v rest h => absurd h Reader.fail_ne_ok
  | succ depth ih => exact ((takes_readSpecial ih).orElse takes_readConst).tagged

private theorem readElement_congr {r s : Reader ElementValue} {n : Nat}
    (h : ∀ input, input.length ≤ n → r input = s input) {input : List UInt8}
    (hinput : input.length ≤ n) : readElement r input = readElement s input := by
  refine Reader.bind_congr Reader.takes_u16 (fun name rest hrest => ?_) hinput
  rw [Reader.bind_apply, Reader.bind_apply, h rest hrest]

private theorem readSpecial_congr {r s : Reader ElementValue}
    (hr : Reader.Takes r encode (fun _ => True)) {n : Nat}
    (h : ∀ input, input.length ≤ n → r input = s input) (tag : UInt8) {input : List UInt8}
    (hinput : input.length ≤ n) : readSpecial r (tag :: input) = readSpecial s (tag :: input) := by
  have htag : Reader.u8 (tag :: input) = .ok (tag, input) := rfl
  rw [readSpecial, readSpecial, Reader.bind_of_ok htag, Reader.bind_of_ok htag]
  split
  · rfl
  · rfl
  · refine Reader.bind_congr Reader.takes_u16 (fun type rest hrest => ?_) hinput
    rw [Reader.bind_apply, Reader.bind_apply, Reader.counted16_congr (takes_readElement hr)
      (fun _ hrest => readElement_congr h hrest) hrest]
  · rw [Reader.bind_apply, Reader.bind_apply, Reader.counted16_congr hr h hinput]
  · rfl

/-- A bound on the nesting that is no less than the input's length is no bound: each level takes at
least its tag. -/
theorem read_add {depth : Nat} (k : Nat) {input : List UInt8} (h : input.length ≤ depth) :
    read (depth + k) input = read depth input := by
  induction depth generalizing input with
  | zero =>
    obtain rfl := List.eq_nil_of_length_eq_zero (Nat.le_zero.mp h)
    cases k <;> rfl
  | succ depth ih =>
    cases input with
    | nil => rw [Nat.add_right_comm]; rfl
    | cons tag input =>
      have hspecial := readSpecial_congr (takes_read (depth + k)) (fun _ hrest => ih hrest) tag
        (Nat.le_of_succ_le_succ h)
      rw [Nat.add_right_comm, read, read, Reader.tagged, Reader.tagged, Reader.orElse, Reader.orElse,
        hspecial]

end ElementValue

namespace StoredAnnotation

theorem encode_eq (a : StoredAnnotation) :
    a.encode = Bytes.u16 a.type ++ Bytes.counted16 ElementValue.encodeElement a.elements := by
  simp [encode, ElementValue.encodeElements_eq, Bytes.counted16]

structure WellFormed (a : StoredAnnotation) : Prop where
  length_le : a.elements.length ≤ 65535
  each : ∀ e ∈ a.elements, e.2.WellFormed

theorem WellFormed.read_append {a : StoredAnnotation} (h : a.WellFormed) {depth : Nat}
    (hdepth : a.encode.length ≤ depth) (rest : List UInt8) :
    read depth (a.encode ++ rest) = .ok (a, rest) := by
  rw [encode_eq] at hdepth ⊢
  rw [List.length_append] at hdepth
  have helements : ∀ e ∈ a.elements, ∀ rest, ElementValue.readElement (ElementValue.read depth)
      (ElementValue.encodeElement e ++ rest) = .ok (e, rest) := by
    intro e he rest
    have hle := ElementValue.length_le_of_mem (f := ElementValue.encodeElement) he
    rw [ElementValue.encodeElement, List.length_append] at hle
    exact ElementValue.readElement_append ((h.each e he).read_append (by omega) rest)
  have hcounted := Reader.reads_counted16 (fun _ rest h => h rest) a.elements rest
    ⟨h.length_le, helements⟩
  rw [read, List.append_assoc, Reader.bind_of_ok (Reader.reads_u16 _ _ trivial),
    Reader.bind_of_ok hcounted, Reader.pure_apply]

theorem takes_read (depth : Nat) : Reader.Takes (read depth) encode (fun _ => True) := by
  intro input a rest h
  simp only [read, Reader.bind_eq_ok_iff, Reader.pure_eq_ok_iff] at h
  obtain ⟨type, _, htype, elements, _, helements, rfl, rfl⟩ := h
  rw [(Reader.takes_u16 _ _ _ htype).1, encode_eq, (Reader.takes_counted16
    (ElementValue.takes_readElement (ElementValue.takes_read depth)) _ _ _ helements).1]
  exact ⟨(List.append_assoc _ _ _).symm, trivial⟩

def ListWellFormed (annotations : List StoredAnnotation) : Prop :=
  annotations.length ≤ 65535 ∧ ∀ a ∈ annotations, a.WellFormed

theorem ListWellFormed.counted16_append {list : List StoredAnnotation} (h : ListWellFormed list)
    {depth : Nat} (hdepth : (encodeList list).length ≤ depth) (rest : List UInt8) :
    Reader.counted16 (read depth) (encodeList list ++ rest) = .ok (list, rest) := by
  have hlist : ∀ a ∈ list, ∀ rest, read depth (a.encode ++ rest) = .ok (a, rest) := by
    intro a ha rest
    have hle := ElementValue.length_le_of_mem (f := encode) ha
    exact (h.2 a ha).read_append (Nat.le_trans hle hdepth) rest
  exact Reader.reads_counted16 (fun _ rest h => h rest) list rest ⟨h.1, hlist⟩

theorem reads_readList : Reader.Reads readList encodeList ListWellFormed := by
  intro list rest h
  exact h.counted16_append (by rw [List.length_append]; omega) rest

private theorem takes_readList : Reader.Takes readList encodeList (fun _ => True) := by
  intro input list rest h
  exact ⟨(Reader.takes_counted16 (takes_read input.length) _ _ _ h).1, trivial⟩

private theorem read_add {depth : Nat} (k : Nat) {input : List UInt8} (h : input.length ≤ depth) :
    read (depth + k) input = read depth input := by
  refine Reader.bind_congr Reader.takes_u16 (fun type rest hrest => ?_) h
  have helements := Reader.counted16_congr
    (ElementValue.takes_readElement (ElementValue.takes_read (depth + k)))
    (fun _ hrest => ElementValue.readElement_congr (fun _ hrest => ElementValue.read_add k hrest) hrest)
    hrest
  rw [Reader.bind_apply, Reader.bind_apply, helements]

private theorem counted16_read_add {depth : Nat} (k : Nat) {input : List UInt8}
    (h : input.length ≤ depth) :
    Reader.counted16 (read (depth + k)) input = Reader.counted16 (read depth) input :=
  Reader.counted16_congr (takes_read _) (fun _ hrest => read_add k hrest) h

private theorem readList_eq {depth : Nat} {input : List UInt8} (h : input.length ≤ depth) :
    readList input = Reader.counted16 (read depth) input := by
  obtain ⟨k, rfl⟩ := Nat.exists_eq_add_of_le h
  exact (counted16_read_add k (Nat.le_refl _)).symm

private theorem readTable_eq {depth : Nat} {input : List UInt8} (h : input.length ≤ depth) :
    readTable input = readParameters depth input := by
  obtain ⟨k, rfl⟩ := Nat.exists_eq_add_of_le h
  exact (Reader.bind_congr Reader.takes_u8 (fun n _ hrest => Reader.times_congr
    (Reader.takes_counted16 (takes_read _)) (fun _ hrest => counted16_read_add k hrest) n.toNat hrest)
    (Nat.le_refl _)).symm

private theorem length_le_encodeTable {table : List (List StoredAnnotation)}
    {list : List StoredAnnotation} (h : list ∈ table) :
    (encodeList list).length ≤ (encodeTable table).length := by
  have hsub := (List.sublist_flatten_of_mem
    (List.mem_map_of_mem h : encodeList list ∈ table.map encodeList)).length_le
  rw [encodeTable, List.length_cons, List.flatMap_def]
  omega

private theorem reads_readTable : Reader.Reads readTable encodeTable
    (fun table => table.length ≤ 255 ∧ ∀ list ∈ table, ListWellFormed list) := by
  intro table rest h
  have hlength : (UInt8.ofNat table.length).toNat = table.length := by
    rw [UInt8.toNat_ofNat']
    exact Nat.mod_eq_of_lt (by omega)
  have hlists : ∀ list ∈ table, ∀ rest', Reader.counted16 (read (encodeTable table ++ rest).length)
      (encodeList list ++ rest') = .ok (list, rest') := by
    intro list hlist rest'
    have hle := length_le_encodeTable hlist
    exact (h.2 list hlist).counted16_append (by rw [List.length_append]; omega) rest'
  have htimes := Reader.times_flatMap (fun _ rest h => h rest) table rest hlists
  rw [← hlength] at htimes
  exact htimes

private theorem takes_readTable : Reader.Takes readTable encodeTable (fun _ => True) := by
  intro input table rest h
  obtain ⟨n, middle, hn, htimes⟩ := Reader.bind_eq_ok_iff.mp h
  obtain ⟨rfl, hlength, -⟩ := Reader.eq_flatMap_of_times
    (Reader.takes_counted16 (takes_read input.length)) htimes
  refine ⟨?_, trivial⟩
  rw [(Reader.takes_u8 _ _ _ hn).1, encodeTable, hlength, UInt8.ofNat_toNat]
  rfl

end StoredAnnotation

open StoredAnnotation (reads_readList reads_readTable takes_readList takes_readTable readList_eq
  readTable_eq)

namespace AttributeBody

/-- The lengths of all lists fit the fields they are written in, the forms of frames agree with what
they hold, and no plain constant has the tag of another kind of value. -/
def WellFormed : AttributeBody → Prop
  | code c => c.Fits
  | constantValue _ => True
  | sourceFile _ => True
  | localVariables table => table.length ≤ 65535
  | annotations list => StoredAnnotation.ListWellFormed list
  | parameterAnnotations table =>
    table.length ≤ 255 ∧ ∀ list ∈ table, StoredAnnotation.ListWellFormed list
  | stackMap frames => frames.length ≤ 65535 ∧ ∀ f ∈ frames, f.Fits

/-- The names of the attributes that hold a body of this kind. -/
def names : AttributeBody → List String
  | code _ => ["Code"]
  | constantValue _ => ["ConstantValue"]
  | sourceFile _ => ["SourceFile"]
  | localVariables _ => ["LocalVariableTable"]
  | annotations _ => ["RuntimeVisibleAnnotations", "RuntimeInvisibleAnnotations"]
  | parameterAnnotations _ =>
    ["RuntimeVisibleParameterAnnotations", "RuntimeInvisibleParameterAnnotations"]
  | stackMap _ => ["StackMapTable"]

/-- A body is read back, and nothing after it, by the reader of every name it can stand under. -/
theorem WellFormed.exists_reader {x : AttributeBody} (h : x.WellFormed) {name : String}
    (hname : name ∈ x.names) (rest : List UInt8) :
    ∃ r, reader? name = some r ∧ r (x.encode ++ rest) = .ok (x, rest) := by
  cases x with
  | code c =>
    obtain rfl := List.mem_singleton.mp hname
    exact ⟨_, rfl, Reader.bind_of_ok (Code.reads_read c rest h)⟩
  | constantValue index | sourceFile index =>
    obtain rfl := List.mem_singleton.mp hname
    exact ⟨_, rfl, Reader.bind_of_ok (Reader.reads_u16 index rest trivial)⟩
  | localVariables table =>
    obtain rfl := List.mem_singleton.mp hname
    exact ⟨_, rfl, Reader.bind_of_ok (Reader.reads_counted16 LocalVariable.reads_read table rest
      ⟨h, fun _ _ => trivial⟩)⟩
  | annotations list =>
    have hread := Reader.bind_of_ok (f := fun list => pure (annotations list))
      (reads_readList list rest h)
    rcases List.mem_pair.mp hname with rfl | rfl <;> exact ⟨_, rfl, hread⟩
  | parameterAnnotations table =>
    have hread := Reader.bind_of_ok (f := fun table => pure (parameterAnnotations table))
      (reads_readTable table rest h)
    rcases List.mem_pair.mp hname with rfl | rfl <;> exact ⟨_, rfl, hread⟩
  | stackMap frames =>
    obtain rfl := List.mem_singleton.mp hname
    exact ⟨_, rfl, Reader.bind_of_ok (Reader.reads_counted16 MapFrame.reads_read frames rest h)⟩

theorem WellFormed.decode?_eq {x : AttributeBody} (h : x.WellFormed) {name : String}
    (hname : name ∈ x.names) : decode? name x.encode = some (.ok x) := by
  obtain ⟨r, hr, hread⟩ := h.exists_reader hname []
  rw [List.append_nil] at hread
  rw [decode?, hr]
  exact congrArg some (Reader.run_of_ok hread)

/-- What a reader takes off an input is what is written for the body it found there. -/
theorem eq_of_reader {name : String} {r : Reader AttributeBody} (hr : reader? name = some r)
    {input rest : List UInt8} {x : AttributeBody} (h : r input = .ok (x, rest)) :
    name ∈ x.names ∧ input = x.encode ++ rest := by
  unfold reader? at hr
  split at hr
  case h_10 => cases hr
  all_goals
    obtain rfl := Option.some.inj hr
    obtain ⟨a, middle, ha, hx⟩ := Reader.bind_eq_ok_iff.mp h
    obtain ⟨rfl, rfl⟩ := Reader.pure_eq_ok_iff.mp hx
    refine ⟨by simp [names], ?_⟩
  · exact (Code.takes_read _ _ _ ha).1
  · exact (Reader.takes_u16 _ _ _ ha).1
  · exact (Reader.takes_u16 _ _ _ ha).1
  · exact (Reader.takes_counted16 LocalVariable.takes_read _ _ _ ha).1
  · exact (takes_readList _ _ _ ha).1
  · exact (takes_readList _ _ _ ha).1
  · exact (takes_readTable _ _ _ ha).1
  · exact (takes_readTable _ _ _ ha).1
  · exact (Reader.takes_counted16 MapFrame.takes_read _ _ _ ha).1

/-- Bodies are read exactly: every well-formed body is found again at the front of whatever it is
written before, and a body that was found is written as the bytes that were taken for it.  The bound
under which nested values are read does not show. -/
theorem body_codec_exact (name : String) :
    (∀ x : AttributeBody, x.WellFormed → name ∈ x.names → ∀ rest,
      decode? name (x.encode ++ rest) = some (.ok x)) ∧
    (∀ (bytes : List UInt8) (x : AttributeBody), decode? name bytes = some (.ok x) →
      ∃ r rest, reader? name = some r ∧ r bytes = .ok (x, rest) ∧ name ∈ x.names ∧
        x.encode ++ rest = bytes) ∧
    (∀ (bytes : List UInt8) (depth : Nat), bytes.length ≤ depth →
      StoredAnnotation.readList bytes = (Reader.counted16 <| StoredAnnotation.read depth) bytes ∧
      StoredAnnotation.readTable bytes = StoredAnnotation.readParameters depth bytes) := by
  refine ⟨?_, ?_, fun bytes depth h =>
    ⟨readList_eq h, readTable_eq h⟩⟩
  · intro x hx hname rest
    obtain ⟨r, hr, hread⟩ := hx.exists_reader hname rest
    rw [decode?, hr]
    exact congrArg some (Reader.run_of_ok hread)
  · intro bytes x h
    rw [decode?, Option.map_eq_some_iff] at h
    obtain ⟨r, hr, hrun⟩ := h
    obtain ⟨rest, hread⟩ := Reader.run_eq_ok_iff.mp hrun
    obtain ⟨hname, hbytes⟩ := eq_of_reader hr hread
    exact ⟨r, rest, hr, hread, hname, hbytes.symm⟩

-- An array of nine values without a byte of them is read as a constant with the tag of an array.
example : decode? "RuntimeVisibleAnnotations" [0, 1, 0, 5, 0, 1, 0, 6, 0x5b, 0, 9] =
    some (.ok (annotations [{ type := 5, elements := [(6, .const 0x5b 9)] }])) := rfl

end AttributeBody

/-- The body of the first attribute with a name, if it can be read. -/
def ClassFile.bodyOf? (c : ClassFile) (attributes : List Attribute) (name : String) :
    Option AttributeBody :=
  match c.attribute? attributes name with
  | none => none
  | some a => (AttributeBody.decode? name a.body).bind Except.toOption

end Classwright
