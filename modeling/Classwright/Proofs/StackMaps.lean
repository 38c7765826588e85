import Classwright.Proofs.Frames
import Classwright.Proofs.Verifier

/-!
# The frames a stack map stands for

Every frame of a stack map is a change from the frame before it.  Following the changes gives back the
frames that were recorded, in the order of their offsets, each with what was recorded there last.  Any
other stack map for these frames is at least as long in every place.
-/

namespace Classwright

namespace MapFrame

def expand? (next : Nat) (before : List VerificationType) (forms : List MapFrame) :
    Option (List (Nat × FrameTypes)) :=
  follow? id (fun locals stack => some ⟨locals, stack⟩) next before forms

/-- The form stands for the frame, `distance` bytes after the first offset it may have. -/
structure Denotes (f : MapFrame) (before : List VerificationType) (frame : FrameTypes)
    (distance : Nat) : Prop where
  delta : f.delta = distance
  locals : f.localsAfter? id before = some frame.locals
  operands : f.operands = frame.stack

private theorem denotes_ofTypes (before : List VerificationType) (frame : FrameTypes) {distance : Nat}
    (h : distance < 65536) : (ofTypes before frame distance).Denotes before frame distance := by
  have hword : (UInt16.ofNat distance).toNat = distance := by
    rw [UInt16.toNat_ofNat']
    exact Nat.mod_eq_of_lt h
  unfold ofTypes
  split
  · rename_i hstack
    unfold ofLocals
    split
    · rename_i hsame
      split
      · exact ⟨rfl, congrArg some hsame, hstack.symm⟩
      · exact ⟨hword, congrArg some hsame, hstack.symm⟩
    split
    · rename_i hmore
      have hprefix := List.prefix_iff_eq_append.mp (List.isPrefixOf_iff_prefix.mp hmore.2.2)
      refine ⟨hword, ?_, hstack.symm⟩
      rw [localsAfter?, List.map_id]
      exact congrArg some hprefix
    split
    · rename_i hfewer
      have hlength : (before.length - frame.locals.length - 1) % 3 + 1 =
          before.length - frame.locals.length := by omega
      refine ⟨hword, ?_, hstack.symm⟩
      rw [localsAfter?]
      dsimp only
      rw [if_pos (by omega), hlength,
        show before.length - (before.length - frame.locals.length) = frame.locals.length by omega,
        ← List.prefix_iff_eq_take.mp (List.isPrefixOf_iff_prefix.mp hfewer.2.2)]
    · exact ⟨hword, congrArg some (List.map_id _), hstack.symm⟩
  · rename_i item hstack
    split
    · rename_i hsame
      split
      · exact ⟨rfl, congrArg some hsame, hstack.symm⟩
      · exact ⟨hword, congrArg some hsame, hstack.symm⟩
    · exact ⟨hword, congrArg some (List.map_id _), hstack.symm⟩
  · exact ⟨hword, congrArg some (List.map_id _), rfl⟩

section Shortest

variable {before : List VerificationType} {frame : FrameTypes}

/-- No form that stands for a frame is shorter than the one that is chosen. -/
theorem length_encode_ofTypes_le_of_denotes {f : MapFrame} {distance : Nat} (hfits : f.Fits)
    (h : f.Denotes before frame distance) :
    (ofTypes before frame distance).encode.length ≤ f.encode.length := by
  obtain ⟨locals, stack⟩ := frame
  obtain ⟨rfl, hlocals, rfl⟩ := h
  cases f with
  | same delta =>
    cases hlocals
    simp [ofTypes, ofLocals, operands, MapFrame.delta, encode, contents]
  | stack1 delta item =>
    cases hlocals
    simp [ofTypes, operands, MapFrame.delta, encode, contents]
  | stack1Extended delta item =>
    cases hlocals
    simp only [ofTypes, operands, if_pos]
    split <;> simp [encode, contents]
  | chop dropped delta =>
    rw [localsAfter?] at hlocals
    split at hlocals
    · rename_i hdropped
      cases hlocals
      have hlength : (before.take (before.length - (dropped.val + 1))).length =
          before.length - (dropped.val + 1) := List.length_take_of_le (Nat.sub_le _ _)
      have hne : before ≠ before.take (before.length - (dropped.val + 1)) := by
        intro heq
        have hsame := congrArg List.length heq
        omega
      have hprefix : (before.take (before.length - (dropped.val + 1))).isPrefixOf before = true :=
        List.isPrefixOf_iff_prefix.mpr (List.take_prefix _ _)
      simp only [ofTypes, operands, ofLocals]
      rw [if_neg hne, if_neg (by omega), if_pos ⟨by omega, by omega, hprefix⟩]
      simp [encode, contents]
    · cases hlocals
  | sameExtended delta =>
    cases hlocals
    simp only [ofTypes, operands, ofLocals, if_pos]
    split <;> simp [encode, contents]
  | append delta more =>
    rw [localsAfter?, List.map_id] at hlocals
    obtain rfl : before ++ more = locals := Option.some.inj hlocals
    obtain ⟨hpos, hle⟩ := hfits
    have hlength : (before ++ more).length = before.length + more.length := List.length_append
    have hne : before ≠ before ++ more := by
      intro heq
      have hsame := congrArg List.length heq
      omega
    have hprefix : before.isPrefixOf (before ++ more) = true :=
      List.isPrefixOf_iff_prefix.mpr (List.prefix_append _ _)
    simp only [ofTypes, operands, ofLocals]
    rw [if_neg hne, if_pos ⟨by omega, by omega, hprefix⟩, List.drop_left]
    simp [encode, contents]
  | full delta locals' stack' =>
    rw [localsAfter?, List.map_id] at hlocals
    obtain rfl : locals' = locals := Option.some.inj hlocals
    exact length_encode_ofTypes_le_full delta _

end Shortest

section Expand

variable {next : Nat} {before : List VerificationType}

theorem expand?_cons_iff {f : MapFrame} {rest : List MapFrame} {entries : List (Nat × FrameTypes)} :
    expand? next before (f :: rest) = some entries ↔
      ∃ distance frame more, f.Denotes before frame distance ∧
        expand? (next + distance + 1) frame.locals rest = some more ∧
        entries = (next + distance, frame) :: more := by
  simp only [expand?, follow?, Option.bind_eq_bind, Option.bind_some, Option.bind_eq_some_iff,
    Option.pure_def, Option.some_inj]
  constructor
  · rintro ⟨locals, hlocals, more, hmore, rfl⟩
    exact ⟨f.delta, ⟨locals, f.operands⟩, more, ⟨rfl, hlocals, rfl⟩, hmore, rfl⟩
  · rintro ⟨distance, ⟨locals, stack⟩, more, ⟨rfl, hlocals, rfl⟩, hmore, rfl⟩
    exact ⟨locals, hlocals, more, hmore, rfl⟩

theorem expand?_chooseFrom {entries : List (Nat × FrameTypes)}
    (hordered : entries.Pairwise fun a b => a.1 < b.1) (hnext : ∀ entry ∈ entries, next ≤ entry.1)
    (hbound : ∀ entry ∈ entries, entry.1 < 65536) :
    expand? next before (chooseFrom next before [] entries) = some entries := by
  induction entries generalizing next before with
  | nil => rfl
  | cons entry entries ih =>
    obtain ⟨offset, frame⟩ := entry
    obtain ⟨hfirst, hrest⟩ := List.pairwise_cons.mp hordered
    have hle : next ≤ offset := hnext _ List.mem_cons_self
    have hlt : offset < 65536 := hbound _ List.mem_cons_self
    rw [chooseFrom_cons, expand?_cons_iff]
    refine ⟨offset - next, frame, entries, denotes_ofTypes before frame (by omega), ?_, ?_⟩
    · rw [Nat.add_sub_cancel' hle]
      exact ih hrest hfirst fun e he => hbound e (List.mem_cons_of_mem _ he)
    · rw [Nat.add_sub_cancel' hle]

/-- Stack maps for the same frames are nowhere shorter. -/
theorem forall₂_chooseFrom {forms : List MapFrame} {entries : List (Nat × FrameTypes)}
    (hfits : ∀ f ∈ forms, f.Fits) (h : expand? next before forms = some entries) :
    List.Forall₂ (fun chosen f => chosen.encode.length ≤ f.encode.length)
      (chooseFrom next before [] entries) forms := by
  induction forms generalizing next before entries with
  | nil =>
    cases h
    exact .nil
  | cons f rest ih =>
    obtain ⟨distance, frame, more, hdenotes, hmore, rfl⟩ := expand?_cons_iff.mp h
    rw [chooseFrom_cons, Nat.add_sub_cancel_left]
    exact .cons (length_encode_ofTypes_le_of_denotes (hfits f List.mem_cons_self) hdenotes)
      (ih (fun g hg => hfits g (List.mem_cons_of_mem _ hg)) hmore)

end Expand

end MapFrame

namespace FrameTable

def recorded (records : List (Nat × FrameTypes)) : FrameTable :=
  records.foldl (fun table r => table.insert r.1 r.2) {}

def LastRecord (records : List (Nat × FrameTypes)) (offset : Nat) (frame : FrameTypes) : Prop :=
  ∃ before after, records = before ++ (offset, frame) :: after ∧ ∀ r ∈ after, r.1 ≠ offset

theorem ordered_toList (table : FrameTable) : table.toList.Pairwise fun a b => a.1 < b.1 :=
  (@Std.TreeMap.ordered_keys_toList Nat FrameTypes compare table _).imp Nat.compare_eq_lt.mp

section Recorded

variable {records : List (Nat × FrameTypes)}

private theorem mem_toList_recorded {offset : Nat} {frame : FrameTypes} :
    (offset, frame) ∈ (recorded records).toList ↔ LastRecord records offset frame := by
  have hlast := eq_some_iff_last (p := fun r : Nat × FrameTypes => r.1 == offset)
    (g := fun _ r => r.2) (f := fun records => (recorded records)[offset]?) (by simp [recorded])
    (fun records r => by
      simp [recorded, List.foldl_append, Std.TreeMap.getElem?_insert]) records frame
  rw [Std.TreeMap.mem_toList_iff_getElem?_eq_some, hlast]
  constructor
  · rintro ⟨before, ⟨offset', frame'⟩, after, heq, hoffset, hafter, rfl⟩
    obtain rfl : offset' = offset := by simpa using hoffset
    exact ⟨before, after, heq, fun r hr => by simpa using hafter r hr⟩
  · rintro ⟨before, after, heq, hafter⟩
    exact ⟨before, (offset, frame), after, heq, by simp, fun r hr => by simpa using hafter r hr, rfl⟩

private theorem LastRecord.mem {offset : Nat} {frame : FrameTypes} (h : LastRecord records offset frame) :
    (offset, frame) ∈ records := by
  obtain ⟨before, after, rfl, -⟩ := h
  simp

private theorem mem_of_mem_recorded {entry : Nat × FrameTypes} (h : entry ∈ (recorded records).toList) :
    entry ∈ records := (mem_toList_recorded.mp h).mem

theorem length_toList_recorded_le :
    (recorded records).toList.length ≤ (records.map Prod.fst).toFinset.card := by
  have hnodup : ((recorded records).toList.map Prod.fst).Nodup := by
    rw [List.nodup_iff_pairwise_ne, List.pairwise_map]
    exact (ordered_toList _).imp Nat.ne_of_lt
  rw [← List.length_map (f := Prod.fst), ← List.toFinset_card_of_nodup hnodup]
  refine Finset.card_le_card fun offset hoffset => ?_
  rw [List.mem_toFinset, List.mem_map] at hoffset ⊢
  obtain ⟨entry, hentry, rfl⟩ := hoffset
  exact ⟨entry, mem_of_mem_recorded hentry, rfl⟩

theorem toList_recorded_eq_nil_iff : (recorded records).toList = [] ↔ records = [] := by
  constructor
  · intro hnil
    rcases List.eq_nil_or_concat' records with rfl | ⟨init, ⟨offset, frame⟩, rfl⟩
    · rfl
    · have hlast : (offset, frame) ∈ (recorded (init ++ [(offset, frame)])).toList :=
        mem_toList_recorded.mpr ⟨init, [], rfl, by simp⟩
      rw [hnil] at hlast
      cases hlast
  · rintro rfl
    rfl

end Recorded

/-- The stack map stands for the frames that were recorded last at their offsets. -/
structure Represented (initial : List VerificationType) (records : List (Nat × FrameTypes))
    (forms : List MapFrame) : Prop where
  empty : forms = [] ↔ records = []
  /-- It is read back from the body of its attribute. -/
  decode : AttributeBody.decode? "StackMapTable" (AttributeBody.stackMap forms).encode =
    some (.ok (.stackMap forms))
  /-- It gives the frames in order, and no stack map that gives them is shorter in any place. -/
  expand : ∃ entries, MapFrame.expand? 0 initial forms = some entries ∧
    entries.Pairwise (fun a b => a.1 < b.1) ∧
    (∀ offset frame, (offset, frame) ∈ entries ↔ LastRecord records offset frame) ∧
    ∀ others : List MapFrame, (∀ f ∈ others, f.Fits) →
      MapFrame.expand? 0 initial others = some entries →
      List.Forall₂ (fun f g => f.encode.length ≤ g.encode.length) forms others

theorem represented_write (initial : List VerificationType) (records : List (Nat × FrameTypes))
    (hoffset : ∀ r ∈ records, r.1 ≤ 65535) (hcount : (records.map Prod.fst).toFinset.card ≤ 65535)
    (hlength : ∀ r ∈ records, r.2.locals.length ≤ 65535 ∧ r.2.stack.length ≤ 65535) :
    Represented initial records ((recorded records).write initial) := by
  have hsize : ((recorded records).write initial).length = (recorded records).toList.length :=
    MapFrame.length_chooseFrom 0 initial _
  constructor
  case empty =>
    rw [← toList_recorded_eq_nil_iff, ← List.length_eq_zero_iff, hsize, List.length_eq_zero_iff]
  case decode =>
    refine AttributeBody.decode?_stackMap ?_ ?_
    · rw [hsize]
      exact Nat.le_trans length_toList_recorded_le hcount
    · exact MapFrame.fits_chooseFrom fun entry hentry => hlength entry (mem_of_mem_recorded hentry)
  case expand =>
    refine ⟨(recorded records).toList, ?_, ordered_toList _, fun offset frame => mem_toList_recorded,
      fun others hfits h => MapFrame.forall₂_chooseFrom hfits h⟩
    exact MapFrame.expand?_chooseFrom (ordered_toList _) (fun _ _ => Nat.zero_le _)
      fun entry hentry => Nat.lt_succ_of_le (hoffset entry (mem_of_mem_recorded hentry))

/-- A local is added, a frame is recorded anew at offset 70, and a caught object follows far behind. -/
def sampleRecords : List (Nat × FrameTypes) :=
  [(70, ⟨[], []⟩), (6, ⟨[.integer, .long], []⟩), (70, ⟨[.integer, .long], []⟩),
    (1000, ⟨[.integer], [.object 9]⟩)]

theorem represented_write_sample :
    (∀ r ∈ sampleRecords, r.1 ≤ 65535) ∧ (sampleRecords.map Prod.fst).toFinset.card ≤ 65535 ∧
      (∀ r ∈ sampleRecords, r.2.locals.length ≤ 65535 ∧ r.2.stack.length ≤ 65535) ∧
      Represented [.integer] sampleRecords ((recorded sampleRecords).write [.integer]) :=
  ⟨by decide, by decide, by decide,
    represented_write [.integer] sampleRecords (by decide) (by decide) (by decide)⟩

end FrameTable

end Classwright
