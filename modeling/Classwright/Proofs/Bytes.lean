import Classwright.Bytes.Reader

/-!
# Readers against writers

A reader is compared with the function that writes its values: it reads back what was written,
whatever follows, and what it takes off an input is what would be written for the value it found.
Both directions go through sequences, words and counted lists once and for all here.
-/

namespace Classwright

namespace Bytes

private theorem word16_u16 (w : UInt16) :
    word16 (UInt8.ofNat (w.toNat / 256)) (UInt8.ofNat w.toNat) = w := by
  apply UInt16.toNat_inj.mp
  have hw := w.toNat_lt
  simp only [word16, UInt16.toNat_ofNat', UInt8.toNat_ofNat']
  omega

private theorem u16_word16 (a b : UInt8) : u16 (word16 a b) = [a, b] := by
  have ha := a.toNat_lt
  have hb := b.toNat_lt
  have hw : (word16 a b).toNat = a.toNat * 256 + b.toNat := by
    simp only [word16, UInt16.toNat_ofNat']
    omega
  simp only [u16, hw, List.cons.injEq, and_true]
  constructor
  · apply UInt8.toNat_inj.mp
    simp only [UInt8.toNat_ofNat']
    omega
  · apply UInt8.toNat_inj.mp
    simp only [UInt8.toNat_ofNat']
    omega

private theorem word32_u32 (w : UInt32) :
    word32 (UInt8.ofNat (w.toNat / 16777216)) (UInt8.ofNat (w.toNat / 65536))
      (UInt8.ofNat (w.toNat / 256)) (UInt8.ofNat w.toNat) = w := by
  apply UInt32.toNat_inj.mp
  have hw := w.toNat_lt
  simp only [word32, UInt32.toNat_ofNat', UInt8.toNat_ofNat']
  omega

private theorem u32_word32 (a b c d : UInt8) : u32 (word32 a b c d) = [a, b, c, d] := by
  have ha := a.toNat_lt
  have hb := b.toNat_lt
  have hc := c.toNat_lt
  have hd := d.toNat_lt
  have hw : (word32 a b c d).toNat =
      ((a.toNat * 256 + b.toNat) * 256 + c.toNat) * 256 + d.toNat := by
    simp only [word32, UInt32.toNat_ofNat']
    omega
  simp only [u32, hw, List.cons.injEq, and_true]
  refine ⟨?_, ?_, ?_, ?_⟩ <;>
  · apply UInt8.toNat_inj.mp
    simp only [UInt8.toNat_ofNat']
    omega

private theorem word64_halves (w : UInt64) :
    word64 (UInt32.ofNat (w.toNat / 4294967296)) (UInt32.ofNat w.toNat) = w := by
  apply UInt64.toNat_inj.mp
  have hw := w.toNat_lt
  simp only [word64, UInt64.toNat_ofNat', UInt32.toNat_ofNat']
  omega

private theorem u64_word64 (hi lo : UInt32) : u64 (word64 hi lo) = u32 hi ++ u32 lo := by
  have hhi := hi.toNat_lt
  have hlo := lo.toNat_lt
  have hw : (word64 hi lo).toNat = hi.toNat * 4294967296 + lo.toNat := by
    simp only [word64, UInt64.toNat_ofNat']
    omega
  have hfirst : UInt32.ofNat ((word64 hi lo).toNat / 4294967296) = hi := by
    apply UInt32.toNat_inj.mp
    rw [hw]
    simp only [UInt32.toNat_ofNat']
    omega
  have hsecond : UInt32.ofNat (word64 hi lo).toNat = lo := by
    apply UInt32.toNat_inj.mp
    rw [hw]
    simp only [UInt32.toNat_ofNat']
    omega
  rw [u64, hfirst, hsecond]

@[simp] theorem length_u16 (w : UInt16) : (u16 w).length = 2 := rfl

theorem toNat_length16 {α : Type} {items : List α} (h : items.length ≤ 65535) :
    (UInt16.ofNat items.length).toNat = items.length := by
  rw [UInt16.toNat_ofNat']
  omega

end Bytes

namespace Reader

variable {α β : Type}

/-- The reader gives back every value that satisfies `P` from its written form. -/
def Reads (r : Reader α) (encode : α → List UInt8) (P : α → Prop) : Prop :=
  ∀ a rest, P a → r (encode a ++ rest) = .ok (a, rest)

/-- What the reader takes off an input is the written form of its value, which satisfies `P`. -/
def Takes (r : Reader α) (encode : α → List UInt8) (P : α → Prop) : Prop :=
  ∀ input a rest, r input = .ok (a, rest) → input = encode a ++ rest ∧ P a

theorem bind_apply (r : Reader α) (f : α → Reader β) (input : List UInt8) :
    (r >>= f) input =
      match r input with
      | .error e => .error e
      | .ok (a, rest) => f a rest := rfl

@[simp] theorem pure_apply (a : α) (input : List UInt8) :
    (pure a : Reader α) input = .ok (a, input) := rfl

@[simp] theorem fail_apply (fault : Fault) (input : List UInt8) :
    (fail fault : Reader α) input = .error fault := rfl

theorem bind_of_ok {r : Reader α} {f : α → Reader β} {input rest : List UInt8} {a : α}
    (h : r input = .ok (a, rest)) : (r >>= f) input = f a rest := by
  rw [bind_apply, h]

theorem bind_eq_ok_iff {r : Reader α} {f : α → Reader β} {input rest : List UInt8} {b : β} :
    (r >>= f) input = .ok (b, rest) ↔
      ∃ a middle, r input = .ok (a, middle) ∧ f a middle = .ok (b, rest) := by
  rw [bind_apply]
  constructor
  · intro h
    split at h
    · cases h
    · rename_i a middle hr
      exact ⟨a, middle, hr, h⟩
  · rintro ⟨a, middle, hr, hf⟩
    rw [hr]
    exact hf

theorem pure_eq_ok_iff {a b : α} {input rest : List UInt8} :
    (pure a : Reader α) input = .ok (b, rest) ↔ a = b ∧ input = rest := by
  simp

theorem fail_ne_ok {fault : Fault} {input : List UInt8} {result : α × List UInt8} :
    (fail fault : Reader α) input ≠ .ok result := by
  simp

theorem takes_u8 : Takes u8 (fun b => [b]) (fun _ => True) := by
  intro input b rest h
  cases input with
  | nil => cases h
  | cons c cs =>
    simp only [u8, Except.ok.injEq, Prod.mk.injEq] at h
    obtain ⟨rfl, rfl⟩ := h
    exact ⟨rfl, trivial⟩

theorem reads_u16 : Reads u16 Bytes.u16 (fun _ => True) := by
  intro w rest _
  simp only [Bytes.u16, List.cons_append, List.nil_append, u16, Bytes.word16_u16]

theorem takes_u16 : Takes u16 Bytes.u16 (fun _ => True) := by
  intro input w rest h
  match input, h with
  | a :: b :: bytes, h =>
    simp only [u16, Except.ok.injEq, Prod.mk.injEq] at h
    obtain ⟨rfl, rfl⟩ := h
    rw [Bytes.u16_word16]
    exact ⟨rfl, trivial⟩

theorem reads_u32 : Reads u32 Bytes.u32 (fun _ => True) := by
  intro w rest _
  simp only [Bytes.u32, List.cons_append, List.nil_append, u32, Bytes.word32_u32]

theorem takes_u32 : Takes u32 Bytes.u32 (fun _ => True) := by
  intro input w rest h
  match input, h with
  | a :: b :: c :: d :: bytes, h =>
    simp only [u32, Except.ok.injEq, Prod.mk.injEq] at h
    obtain ⟨rfl, rfl⟩ := h
    rw [Bytes.u32_word32]
    exact ⟨rfl, trivial⟩

theorem reads_u64 : Reads u64 Bytes.u64 (fun _ => True) := by
  intro w rest _
  rw [Bytes.u64, List.append_assoc, u64, bind_of_ok (reads_u32 _ _ trivial),
    bind_of_ok (reads_u32 _ _ trivial), Bytes.word64_halves]
  rfl

theorem takes_u64 : Takes u64 Bytes.u64 (fun _ => True) := by
  intro input w rest h
  simp only [u64, bind_eq_ok_iff, pure_eq_ok_iff] at h
  obtain ⟨hi, middle, hhi, lo, last, hlo, rfl, rfl⟩ := h
  rw [(takes_u32 _ _ _ hhi).1, (takes_u32 _ _ _ hlo).1, Bytes.u64_word64, List.append_assoc]
  exact ⟨rfl, trivial⟩

theorem bytes_append (front rest : List UInt8) :
    bytes front.length (front ++ rest) = .ok (front, rest) := by
  simp [bytes, List.splitAt_eq]

theorem eq_append_of_bytes {n : Nat} {input front rest : List UInt8}
    (h : bytes n input = .ok (front, rest)) : input = front ++ rest ∧ front.length = n := by
  simp only [bytes, List.splitAt_eq] at h
  split at h
  · rename_i hn
    simp only [Except.ok.injEq, Prod.mk.injEq] at h
    obtain ⟨rfl, rfl⟩ := h
    exact ⟨(List.take_append_drop n input).symm, hn⟩
  · cases h

private theorem timesFrom_flatMap {r : Reader α} {encode : α → List UInt8} {P : α → Prop}
    (hr : Reads r encode P) (items done : List α) (rest : List UInt8) (h : ∀ a ∈ items, P a) :
    timesFrom r items.length done (items.flatMap encode ++ rest) =
      .ok (done.reverse ++ items, rest) := by
  induction items generalizing done with
  | nil => simp [timesFrom]
  | cons a items ih =>
    have ha := hr a (items.flatMap encode ++ rest) (h a (by simp))
    simp only [List.length_cons, List.flatMap_cons, List.append_assoc, timesFrom, ha]
    rw [ih (a :: done) (fun b hb => h b (by simp [hb]))]
    simp

theorem times_flatMap {r : Reader α} {encode : α → List UInt8} {P : α → Prop}
    (hr : Reads r encode P) (items : List α) (rest : List UInt8) (h : ∀ a ∈ items, P a) :
    times items.length r (items.flatMap encode ++ rest) = .ok (items, rest) := by
  rw [times, timesFrom_flatMap hr items [] rest h]
  rfl

private theorem eq_flatMap_of_timesFrom {r : Reader α} {encode : α → List UInt8} {P : α → Prop}
    (hr : Takes r encode P) (n : Nat) (done items : List α) (input rest : List UInt8)
    (h : timesFrom r n done input = .ok (items, rest)) :
    ∃ more, items = done.reverse ++ more ∧ input = more.flatMap encode ++ rest ∧
      more.length = n ∧ ∀ a ∈ more, P a := by
  induction n generalizing done input with
  | zero =>
    simp only [timesFrom, Except.ok.injEq, Prod.mk.injEq] at h
    obtain ⟨rfl, rfl⟩ := h
    exact ⟨[], by simp⟩
  | succ n ih =>
    simp only [timesFrom] at h
    split at h
    · cases h
    · rename_i a middle ha
      obtain ⟨rfl, hPa⟩ := hr _ _ _ ha
      obtain ⟨more, rfl, rfl, rfl, hP⟩ := ih (a :: done) middle h
      refine ⟨a :: more, by simp, by simp, by simp, ?_⟩
      intro b hb
      rcases List.mem_cons.mp hb with rfl | hb
      · exact hPa
      · exact hP b hb

theorem eq_flatMap_of_times {r : Reader α} {encode : α → List UInt8} {P : α → Prop}
    (hr : Takes r encode P) {n : Nat} {items : List α} {input rest : List UInt8}
    (h : times n r input = .ok (items, rest)) :
    input = items.flatMap encode ++ rest ∧ items.length = n ∧ ∀ a ∈ items, P a := by
  obtain ⟨more, rfl, hrest⟩ := eq_flatMap_of_timesFrom hr n [] items input rest h
  simpa using hrest

theorem reads_counted16 {r : Reader α} {encode : α → List UInt8} {P : α → Prop}
    (hr : Reads r encode P) :
    Reads (counted16 r) (Bytes.counted16 encode)
      (fun items => items.length ≤ 65535 ∧ ∀ a ∈ items, P a) := by
  intro items rest h
  rw [Bytes.counted16, List.append_assoc, counted16, bind_of_ok (reads_u16 _ _ trivial),
    Bytes.toNat_length16 h.1, times_flatMap hr items rest h.2]

theorem takes_counted16 {r : Reader α} {encode : α → List UInt8} {P : α → Prop}
    (hr : Takes r encode P) :
    Takes (counted16 r) (Bytes.counted16 encode)
      (fun items => items.length ≤ 65535 ∧ ∀ a ∈ items, P a) := by
  intro input items rest h
  simp only [counted16, bind_eq_ok_iff] at h
  obtain ⟨n, middle, hn, htimes⟩ := h
  obtain ⟨rfl, -⟩ := takes_u16 _ _ _ hn
  obtain ⟨rfl, hlen, hP⟩ := eq_flatMap_of_times hr htimes
  have hlt := n.toNat_lt
  refine ⟨?_, by omega, hP⟩
  rw [Bytes.counted16, hlen, UInt16.ofNat_toNat, List.append_assoc]

/-- Reporting a failure elsewhere does not change what is read. -/
theorem tagged_eq_ok_iff {r : Reader α} {input : List UInt8} {result : α × List UInt8} :
    tagged r input = .ok result ↔ r input = .ok result := by
  unfold tagged
  split
  · rename_i h
    rw [h]
  · rename_i e h
    simp [h]

theorem run_of_ok {r : Reader α} {input rest : List UInt8} {a : α}
    (h : r input = .ok (a, rest)) : r.run input = .ok a := by
  rw [run, h]

theorem run_eq_ok_iff {r : Reader α} {input : List UInt8} {a : α} :
    r.run input = .ok a ↔ ∃ rest, r input = .ok (a, rest) := by
  unfold run
  split
  · rename_i b rest h
    simp [h]
  · rename_i e h
    simp [h]

end Reader

end Classwright
