import Classwright.Attribute.Body
import Classwright.ClassFile.Basic
import Classwright.Proofs.ClassFileCodec

/-!
# Reading back code and stack maps

The bodies of the attributes that carry code are read back from their bytes when the length fields
hold the lengths: the code of a method with its attributes, and the frames of a stack map in each of
their seven forms.
-/

namespace Classwright

theorem Handler.reads_read : Reader.Reads Handler.read Handler.encode (fun _ => True) := by
  intro h rest _
  rw [encode, read, List.append_assoc, List.append_assoc, List.append_assoc,
    Reader.bind_of_ok (Reader.reads_u16 _ _ trivial),
    Reader.bind_of_ok (Reader.reads_u16 _ _ trivial),
    Reader.bind_of_ok (Reader.reads_u16 _ _ trivial),
    Reader.bind_of_ok (Reader.reads_u16 _ _ trivial), Reader.pure_apply]

namespace Code

/-- Whether the length fields of code hold its lengths. -/
structure Fits (c : Code) : Prop where
  code : c.code.length < 4294967296
  handlers : c.handlers.length ≤ 65535
  attributes : c.attributes.length ≤ 65535 ∧ ∀ a ∈ c.attributes, a.body.length < 4294967296

theorem reads_read : Reader.Reads read encode Fits := by
  intro c rest h
  have hlength : (UInt32.ofNat c.code.length).toNat = c.code.length := by
    rw [UInt32.toNat_ofNat']
    exact Nat.mod_eq_of_lt h.code
  have hhandlers : c.handlers.length ≤ 65535 ∧ ∀ a ∈ c.handlers, True :=
    ⟨h.handlers, fun _ _ => trivial⟩
  rw [encode, read]
  simp only [List.append_assoc]
  rw [Reader.bind_of_ok (Reader.reads_u16 _ _ trivial),
    Reader.bind_of_ok (Reader.reads_u16 _ _ trivial),
    Reader.bind_of_ok (Reader.reads_u32 _ _ trivial), hlength,
    Reader.bind_of_ok (Reader.bytes_append _ _),
    Reader.bind_of_ok (Reader.reads_counted16 Handler.reads_read _ _ hhandlers),
    Reader.bind_of_ok (Reader.reads_counted16 Attribute.reads_read _ _ h.attributes),
    Reader.pure_apply]

end Code

theorem VerificationType.reads_read :
    Reader.Reads VerificationType.read VerificationType.encode (fun _ => True) := by
  intro t rest _
  rw [read, Reader.tagged_eq_ok_iff]
  cases t with
  | object index =>
    exact (Reader.bind_of_ok (Reader.reads_u16 index rest trivial) :
      (Reader.u16 >>= fun index => pure (object index)) (Bytes.u16 index ++ rest) = _)
  | uninitialized address =>
    exact (Reader.bind_of_ok (Reader.reads_u16 address rest trivial) :
      (Reader.u16 >>= fun address => pure (uninitialized address)) (Bytes.u16 address ++ rest) = _)
  | _ => rfl

namespace MapFrame

def Fits : MapFrame → Prop
  | append _ locals => 0 < locals.length ∧ locals.length ≤ 3
  | full _ locals stack => locals.length ≤ 65535 ∧ stack.length ≤ 65535
  | _ => True

private theorem toNat_small {n : Nat} (h : n < 256) : (UInt8.ofNat n).toNat = n := by
  rw [UInt8.toNat_ofNat']
  exact Nat.mod_eq_of_lt h

private theorem forall_true (types : List VerificationType) : ∀ t ∈ types, True :=
  fun _ _ => trivial

private theorem readContents_contents {f : MapFrame} (h : f.Fits) (rest : List UInt8) :
    readContents f.type (f.contents ++ rest) = .ok (f, rest) := by
  cases f with
  | same delta =>
    have hn : (type (same delta)).toNat = delta.val := toNat_small (by omega)
    simp only [readContents, hn]
    rw [if_pos delta.isLt]
    simp [contents]
  | stack1 delta item =>
    have hn : (type (stack1 delta item)).toNat = 64 + delta.val := toNat_small (by omega)
    simp only [readContents, hn]
    rw [if_neg (by omega), if_pos (by omega), contents,
      Reader.bind_of_ok (VerificationType.reads_read item rest trivial)]
    simp
  | stack1Extended delta item =>
    have hn : (type (stack1Extended delta item)).toNat = 247 := rfl
    simp only [readContents, hn]
    rw [if_neg (by omega), if_neg (by omega), if_neg (by omega), if_pos trivial, contents,
      List.append_assoc, Reader.bind_of_ok (Reader.reads_u16 _ _ trivial),
      Reader.bind_of_ok (VerificationType.reads_read item rest trivial), Reader.pure_apply]
  | chop dropped delta =>
    have hn : (type (chop dropped delta)).toNat = 250 - dropped.val := toNat_small (by omega)
    have hdropped : Fin.ofNat 3 (250 - (250 - dropped.val)) = dropped := by
      apply Fin.ext
      simp only [Fin.val_ofNat]
      omega
    simp only [readContents, hn]
    rw [if_neg (by omega), if_neg (by omega), if_neg (by omega), if_neg (by omega),
      if_pos (by omega), contents, Reader.bind_of_ok (Reader.reads_u16 _ _ trivial),
      Reader.pure_apply, hdropped]
  | sameExtended delta =>
    have hn : (type (sameExtended delta)).toNat = 251 := rfl
    simp only [readContents, hn]
    rw [if_neg (by omega), if_neg (by omega), if_neg (by omega), if_neg (by omega),
      if_neg (by omega), if_pos trivial, contents, Reader.bind_of_ok (Reader.reads_u16 _ _ trivial),
      Reader.pure_apply]
  | append delta locals =>
    obtain ⟨hpos, hle⟩ := h
    have hn : (type (append delta locals)).toNat = 251 + locals.length := toNat_small (by omega)
    simp only [readContents, hn]
    rw [if_neg (by omega), if_neg (by omega), if_neg (by omega), if_neg (by omega),
      if_neg (by omega), if_neg (by omega), if_pos (by omega), contents, List.append_assoc,
      Reader.bind_of_ok (Reader.reads_u16 _ _ trivial), Nat.add_sub_cancel_left,
      Reader.bind_of_ok (Reader.times_flatMap VerificationType.reads_read locals rest
        (forall_true locals)), Reader.pure_apply]
  | full delta locals stack =>
    obtain ⟨hlocals, hstack⟩ := h
    have hn : (type (full delta locals stack)).toNat = 255 := rfl
    simp only [readContents, hn]
    rw [if_neg (by omega), if_neg (by omega), if_neg (by omega), if_neg (by omega),
      if_neg (by omega), if_neg (by omega), if_neg (by omega), contents, List.append_assoc,
      List.append_assoc, Reader.bind_of_ok (Reader.reads_u16 _ _ trivial),
      Reader.bind_of_ok (Reader.reads_counted16 VerificationType.reads_read locals _
        ⟨hlocals, forall_true locals⟩),
      Reader.bind_of_ok (Reader.reads_counted16 VerificationType.reads_read stack _
        ⟨hstack, forall_true stack⟩), Reader.pure_apply]

theorem reads_read : Reader.Reads read encode Fits := by
  intro f rest h
  have hcontents : Reader.tagged (readContents f.type) (f.contents ++ rest) = .ok (f, rest) :=
    Reader.tagged_eq_ok_iff.mpr (readContents_contents h rest)
  rw [read, encode, List.cons_append]
  exact hcontents

end MapFrame

namespace AttributeBody

theorem decode?_stackMap {frames : List MapFrame} (hlength : frames.length ≤ 65535)
    (h : ∀ f ∈ frames, f.Fits) :
    decode? "StackMapTable" (stackMap frames).encode = some (.ok (stackMap frames)) := by
  have hread := Reader.bind_of_ok (f := fun frames => pure (stackMap frames))
    (Reader.reads_counted16 MapFrame.reads_read frames [] ⟨hlength, h⟩)
  rw [List.append_nil] at hread
  exact congrArg some (Reader.run_of_ok hread)

end AttributeBody

namespace ClassFile

def codeOf? (c : ClassFile) (m : Member) : Option Code := do
  let a ← c.attribute? m.attributes "Code"
  (Code.read.run a.body).toOption

/-- The frames of the code of a method, if they can be read; code without a stack map has none. -/
def framesOf? (c : ClassFile) (code : Code) : Option (List MapFrame) :=
  match c.attribute? code.attributes "StackMapTable" with
  | none => some []
  | some a =>
    match AttributeBody.decode? "StackMapTable" a.body with
    | some (.ok (.stackMap frames)) => some frames
    | _ => none

end ClassFile

end Classwright
