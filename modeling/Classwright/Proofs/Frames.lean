import Classwright.Proofs.AttributeCodec
import Classwright.Proofs.CodeBytes

/-!
# The frames of a method

A method has a frame at every line that a reachable branch leads to, with the locals that the
analysis finds there, and at the start of every unreachable stretch.  All frames together fit the
length fields of a stack map: a branch takes three bytes, so there are few frames with many locals.
-/

namespace Classwright

namespace FrameTable

def record (table : FrameTable) : Option (Nat × FrameTypes) → FrameTable
  | some (address, frame) => table.insert address frame
  | none => table

/-- The sum of a measure over all frames. -/
def weigh (f : Nat × FrameTypes → Nat) (table : FrameTable) : Nat :=
  table.toList.foldr (fun entry total => f entry + total) 0

section Record

variable {found? : Nat → Option (Nat × FrameTypes)} {lines : List Nat} {table : FrameTable}

/-- Of several frames for one address the table has the last; here all of them are the same. -/
theorem getElem?_foldl_record
    (hsame : ∀ i ∈ lines, ∀ j ∈ lines, ∀ k v v', found? i = some (k, v) →
      found? j = some (k, v') → v = v') {k : Nat} {v : FrameTypes} :
    (lines.foldl (fun t i => t.record (found? i)) table)[k]? = some v ↔
      (∃ i ∈ lines, found? i = some (k, v)) ∨
        ((∀ i ∈ lines, ∀ v', found? i ≠ some (k, v')) ∧ table[k]? = some v) := by
  induction lines generalizing table with
  | nil => simp
  | cons i lines ih =>
    have hrest : ∀ i ∈ lines, ∀ j ∈ lines, ∀ k v v', found? i = some (k, v) →
        found? j = some (k, v') → v = v' := fun i hi j hj =>
      hsame i (List.mem_cons_of_mem _ hi) j (List.mem_cons_of_mem _ hj)
    rw [List.foldl_cons, ih hrest]
    cases hentry : found? i with
    | none => simp [record, hentry]
    | some entry =>
      obtain ⟨k', v'⟩ := entry
      simp only [record, Std.TreeMap.getElem?_insert, Nat.compare_eq_eq]
      by_cases hk : k' = k
      · subst hk
        rw [if_pos rfl]
        constructor
        · rintro (⟨j, hj, hjentry⟩ | ⟨-, hv⟩)
          · exact .inl ⟨j, List.mem_cons_of_mem _ hj, hjentry⟩
          · cases hv
            exact .inl ⟨i, List.mem_cons_self, hentry⟩
        · rintro (⟨j, hj, hjentry⟩ | ⟨hnone, -⟩)
          · have hv : v' = v := hsame i List.mem_cons_self j hj k' v' v hentry hjentry
            rcases List.mem_cons.mp hj with rfl | hj
            · by_cases hlater : ∃ j ∈ lines, ∃ v'', found? j = some (k', v'')
              · obtain ⟨j', hj', v'', hj''⟩ := hlater
                have hv' : v' = v'' := hsame j List.mem_cons_self j'
                  (List.mem_cons_of_mem _ hj') k' v' v'' hentry hj''
                refine .inl ⟨j', hj', ?_⟩
                rw [hj'', ← hv', hv]
              · refine .inr ⟨fun j' hj' v'' hj'' => hlater ⟨j', hj', v'', hj''⟩, ?_⟩
                rw [hv]
            · exact .inl ⟨j, hj, hjentry⟩
          · exact absurd hentry (hnone i List.mem_cons_self v')
      · rw [if_neg hk]
        simp only [List.mem_cons, exists_eq_or_imp, forall_eq_or_imp, hentry, Option.some.injEq,
          Prod.mk.injEq, hk, false_and, false_or, ne_eq, not_false_eq_true, implies_true, true_and]

private theorem of_getElem?_foldl_record {k : Nat} {v : FrameTypes}
    (h : (lines.foldl (fun t i => t.record (found? i)) table)[k]? = some v) :
    (∃ i ∈ lines, found? i = some (k, v)) ∨ table[k]? = some v := by
  induction lines generalizing table with
  | nil => exact .inr h
  | cons i lines ih =>
    rcases ih h with ⟨j, hj, hentry⟩ | hrecorded
    · exact .inl ⟨j, List.mem_cons_of_mem _ hj, hentry⟩
    dsimp only at hrecorded
    cases hentry : found? i with
    | none =>
      rw [hentry] at hrecorded
      exact .inr hrecorded
    | some entry =>
      obtain ⟨k', v'⟩ := entry
      rw [hentry, record, Std.TreeMap.getElem?_insert] at hrecorded
      split at hrecorded
      · rename_i hk
        rw [Nat.compare_eq_eq] at hk
        subst hk
        cases hrecorded
        exact .inl ⟨i, List.mem_cons_self, hentry⟩
      · exact .inr hrecorded

variable {f : Nat × FrameTypes → Nat}

private theorem weigh_one (table : FrameTable) : weigh (fun _ => 1) table = table.toList.length := by
  unfold weigh
  induction table.toList with
  | nil => rfl
  | cons entry rest ih => rw [List.foldr_cons, ih, List.length_cons, Nat.add_comm]

theorem weigh_empty : weigh f {} = 0 := rfl

private theorem weigh_insert_le (table : FrameTable) (k : Nat) (v : FrameTypes) :
    weigh f (table.insert k v) ≤ f (k, v) + weigh f table := by
  have hperm := @Std.TreeMap.toList_insert_perm Nat FrameTypes compare table _ _ _ k v
  have hcomm : ∀ (x y : Nat × FrameTypes) (z : Nat), f y + (f x + z) = f x + (f y + z) := by
    intro x y z
    omega
  have hfilter : ∀ (p : Nat × FrameTypes → Bool) (l : List (Nat × FrameTypes)),
      (l.filter p).foldr (fun entry total => f entry + total) 0 ≤
        l.foldr (fun entry total => f entry + total) 0 := by
    intro p l
    induction l with
    | nil => exact Nat.le_refl 0
    | cons e l ih =>
      rw [List.filter_cons]
      split
      · exact Nat.add_le_add_left ih (f e)
      · exact Nat.le_trans ih (Nat.le_add_left _ _)
  unfold weigh
  rw [hperm.foldr_eq' (fun x _ y _ z => hcomm x y z) 0, List.foldr_cons]
  exact Nat.add_le_add_left (hfilter _ _) _

private theorem weigh_foldl_record_le (f : Nat × FrameTypes → Nat) (table : FrameTable) {bound : Nat}
    (hbound : ∀ i ∈ lines, ∀ entry, found? i = some entry → f entry ≤ bound) :
    weigh f (lines.foldl (fun t i => t.record (found? i)) table) ≤
      bound * lines.countP (fun i => (found? i).isSome) + weigh f table := by
  induction lines generalizing table with
  | nil => simp
  | cons i lines ih =>
    have hrest := ih (table.record (found? i)) fun j hj => hbound j (List.mem_cons_of_mem _ hj)
    rw [List.foldl_cons, List.countP_cons]
    cases hentry : found? i with
    | none =>
      rw [hentry] at hrest
      simpa [record] using hrest
    | some entry =>
      rw [hentry] at hrest
      have hinsert : weigh f (table.record (some entry)) ≤ f entry + weigh f table :=
        weigh_insert_le table entry.1 entry.2
      have hle := hbound i List.mem_cons_self entry hentry
      simp only [Option.isSome_some, if_true, Nat.mul_add, Nat.mul_one]
      omega

end Record

end FrameTable

section Locals

theorem length_collapseSlots_le (acc slots : List VerificationType) :
    (collapseSlots acc slots).length ≤ acc.length + slots.length := by
  fun_induction collapseSlots acc slots with
  | case1 acc => simp
  | case2 acc t => simp
  | case3 acc t u rest hwide ih =>
    simp only [List.length_cons] at ih ⊢
    omega
  | case4 acc t u rest hnarrow ih =>
    simp only [List.length_cons] at ih ⊢
    omega

theorem length_frameLocals_le (slots : List VerificationType) :
    (frameLocals slots).length ≤ slots.length := by
  have hcollapse := length_collapseSlots_le [] slots
  have hdrop : ((collapseSlots [] slots).dropWhile (· = .top)).length ≤
      (collapseSlots [] slots).length := (List.dropWhile_suffix _).length_le
  rw [frameLocals, List.length_reverse]
  simp only [List.length_nil, Nat.zero_add] at hcollapse
  exact Nat.le_trans hdrop hcollapse

end Locals

namespace MapFrame

private theorem chooseFrom_eq (next : Nat) (before : List VerificationType) (done : List MapFrame)
    (entries : List (Nat × FrameTypes)) :
    chooseFrom next before done entries = done.reverse ++ chooseFrom next before [] entries := by
  induction entries generalizing next before done with
  | nil => simp [chooseFrom]
  | cons entry entries ih =>
    obtain ⟨address, frame⟩ := entry
    rw [chooseFrom, chooseFrom, ih, ih _ _ [_]]
    simp

theorem chooseFrom_cons (next : Nat) (before : List VerificationType) (address : Nat)
    (frame : FrameTypes) (rest : List (Nat × FrameTypes)) :
    chooseFrom next before [] ((address, frame) :: rest) =
      ofTypes before frame (address - next) :: chooseFrom (address + 1) frame.locals [] rest := by
  rw [chooseFrom, chooseFrom_eq]
  rfl

def room (entry : Nat × FrameTypes) : Nat :=
  7 + 3 * (entry.2.locals.length + entry.2.stack.length)

private theorem length_encodeType_le (t : VerificationType) : t.encode.length ≤ 3 := by
  cases t <;> simp [VerificationType.encode]

private theorem length_encodeTypes_le (types : List VerificationType) :
    (types.flatMap VerificationType.encode).length ≤ 3 * types.length := by
  induction types with
  | nil => simp
  | cons t types ih =>
    have hle := length_encodeType_le t
    simp only [List.flatMap_cons, List.length_append, List.length_cons]
    omega

private theorem length_encode_full (delta : UInt16) (locals stack : List VerificationType) :
    (full delta locals stack).encode.length =
      7 + (locals.flatMap VerificationType.encode).length +
        (stack.flatMap VerificationType.encode).length := by
  simp only [encode, contents, Bytes.counted16, List.length_cons, List.length_append,
    Bytes.length_u16]
  omega

theorem length_encode_ofTypes_le_full {before : List VerificationType} {frame : FrameTypes}
    (delta : UInt16) (distance : Nat) :
    (ofTypes before frame distance).encode.length ≤
      (full delta frame.locals frame.stack).encode.length := by
  rw [length_encode_full]
  unfold ofTypes
  split
  · rename_i hstack
    unfold ofLocals
    split
    · split <;> simp [encode, contents] <;> omega
    split
    · have hparts : (frame.locals.flatMap VerificationType.encode).length =
          ((frame.locals.take before.length).flatMap VerificationType.encode).length +
            ((frame.locals.drop before.length).flatMap VerificationType.encode).length := by
        rw [← List.length_append, ← List.flatMap_append, List.take_append_drop]
      simp only [encode, contents, List.length_cons, List.length_append, Bytes.length_u16]
      omega
    split
    · simp [encode, contents]
      omega
    · rw [length_encode_full, hstack]
  · rename_i item hstack
    have hitem : (frame.stack.flatMap VerificationType.encode).length = item.encode.length := by
      rw [hstack, List.flatMap_singleton]
    split
    · split
      · simp only [encode, contents, List.length_cons]
        omega
      · simp only [encode, contents, List.length_cons, List.length_append, Bytes.length_u16]
        omega
    · rw [length_encode_full, hstack]
  · rw [length_encode_full]

theorem length_encode_ofTypes_le (before : List VerificationType) (address delta : Nat)
    (frame : FrameTypes) : (ofTypes before frame delta).encode.length ≤ room (address, frame) := by
  have hlocals := length_encodeTypes_le frame.locals
  have hstack := length_encodeTypes_le frame.stack
  calc
    (ofTypes before frame delta).encode.length
      ≤ (full 0 frame.locals frame.stack).encode.length := length_encode_ofTypes_le_full 0 delta
    _ ≤ 7 + 3 * (frame.locals.length + frame.stack.length) := by
      rw [length_encode_full]
      omega
    _ = room (address, frame) := rfl

private theorem fits_ofTypes (before : List VerificationType) {frame : FrameTypes} (delta : Nat)
    (hlocals : frame.locals.length ≤ 65535) (hstack : frame.stack.length ≤ 65535) :
    (ofTypes before frame delta).Fits := by
  unfold ofTypes
  split
  · unfold ofLocals
    split
    · split <;> trivial
    split
    · rename_i hmore
      have hlength : (frame.locals.drop before.length).length =
          frame.locals.length - before.length := List.length_drop
      exact ⟨by omega, by omega⟩
    split
    · trivial
    · exact ⟨hlocals, by simp⟩
  · rename_i item hitem
    split
    · split <;> trivial
    · exact ⟨hlocals, by simp⟩
  · exact ⟨hlocals, hstack⟩

theorem length_chooseFrom (next : Nat) (before : List VerificationType)
    (entries : List (Nat × FrameTypes)) :
    (chooseFrom next before [] entries).length = entries.length := by
  induction entries generalizing next before with
  | nil => rfl
  | cons entry entries ih => rw [chooseFrom_cons, List.length_cons, ih, List.length_cons]

theorem length_encode_chooseFrom_le (next : Nat) (before : List VerificationType)
    (entries : List (Nat × FrameTypes)) :
    ((chooseFrom next before [] entries).flatMap encode).length ≤
      entries.foldr (fun entry total => room entry + total) 0 := by
  induction entries generalizing next before with
  | nil => simp [chooseFrom]
  | cons entry entries ih =>
    have hhead := length_encode_ofTypes_le before entry.1 (entry.1 - next) entry.2
    rw [chooseFrom_cons, List.flatMap_cons, List.length_append, List.foldr_cons]
    exact Nat.add_le_add hhead (ih _ _)

theorem fits_chooseFrom {next : Nat} {before : List VerificationType}
    {entries : List (Nat × FrameTypes)}
    (h : ∀ entry ∈ entries, entry.2.locals.length ≤ 65535 ∧ entry.2.stack.length ≤ 65535) :
    ∀ f ∈ chooseFrom next before [] entries, f.Fits := by
  induction entries generalizing next before with
  | nil => simp [chooseFrom]
  | cons entry entries ih =>
    obtain ⟨hlocals, hstack⟩ := h entry List.mem_cons_self
    rw [chooseFrom_cons]
    exact List.forall_mem_cons.mpr ⟨fits_ofTypes before _ hlocals hstack,
      ih fun e he => h e (List.mem_cons_of_mem _ he)⟩

end MapFrame

namespace Flow

variable {w n : Nat}

/-- The frame that the branch at a line asks for. -/
def targetFrame? (d : Draft) (steps : Array Step) (states : States w n) (i : Nat) :
    Option (Nat × FrameTypes) :=
  match steps[i]?.bind Step.target with
  | none => none
  | some target =>
    if isDead states i then none
    else (localsAt? states target).map fun locals =>
      (d.address target, { locals := frameLocals locals.toList })

def deadFrame (throwable : UInt16) : FrameTypes :=
  { locals := [], stack := [.object throwable] }

theorem targetFrames_eq (d : Draft) (steps : Array Step) (states : States w n) :
    targetFrames d steps states =
      (List.range n).foldl (fun t i => t.record (targetFrame? d steps states i)) {} := by
  have hrecord : recordTarget d steps states =
      fun t i => t.record (targetFrame? d steps states i) := by
    funext t i
    unfold recordTarget targetFrame?
    cases steps[i]?.bind Step.target with
    | none => rfl
    | some target =>
      cases isDead states i with
      | true => rfl
      | false =>
        dsimp only
        cases localsAt? states target <;> rfl
  rw [targetFrames, hrecord]

theorem frames_eq (d : Draft) (steps : Array Step) (states : States w n) (throwable : UInt16) :
    frames d steps states throwable =
      (deadStarts states).foldl
        (fun t i => t.record (some (d.address i, deadFrame throwable)))
        (targetFrames d steps states) := rfl

section Bounds

variable {d : Draft} {steps : Array Step} {states : States w n}

theorem targetFrame?_eq_some_iff {i : Nat} {entry : Nat × FrameTypes} :
    targetFrame? d steps states i = some entry ↔
      ∃ step target locals, steps[i]? = some step ∧ step.target = some target ∧
        isDead states i = false ∧ localsAt? states target = some locals ∧
        entry = (d.address target, { locals := frameLocals locals.toList }) := by
  unfold targetFrame?
  constructor
  · intro h
    split at h
    · cases h
    rename_i target htarget
    split at h
    · cases h
    rename_i hlive
    obtain ⟨step, hstep, htarget⟩ := Option.bind_eq_some_iff.mp htarget
    obtain ⟨locals, hlocals, rfl⟩ := Option.map_eq_some_iff.mp h
    exact ⟨step, target, locals, hstep, htarget, Bool.eq_false_iff.mpr hlive, hlocals, rfl⟩
  · rintro ⟨step, target, locals, hstep, htarget, hlive, hlocals, rfl⟩
    simp [hstep, htarget, hlive, hlocals]

theorem length_of_targetFrame? {i : Nat} {entry : Nat × FrameTypes}
    (h : targetFrame? d steps states i = some entry) :
    entry.2.locals.length ≤ w ∧ entry.2.stack = [] := by
  obtain ⟨step, target, locals, -, -, -, -, rfl⟩ := targetFrame?_eq_some_iff.mp h
  refine ⟨?_, rfl⟩
  have hle := length_frameLocals_le locals.toList
  rwa [Vector.length_toList] at hle

end Bounds

section Sizes

variable {items : List Item} {steps : Array Step} {states : States w steps.size}
  (hresolve : (Draft.ofItems items).resolve = .ok steps)

include hresolve

theorem address_size_le : address items steps.size ≤ 65535 := by
  refine Nat.le_trans (Line.total_take_le _ _) ?_
  rw [← Draft.size_ofItems]
  exact (Draft.resolves_of_resolve hresolve).1

/-- A frame for a branch stands against the three bytes of the branch, and a frame for an unreachable
stretch against a byte of it. -/
theorem count_entries_le (states : States w steps.size) {k : Nat} (hk : k ≤ steps.size) :
    3 * (List.range k).countP (fun i => (targetFrame? (Draft.ofItems items) steps states i).isSome) +
      (List.range k).countP (isDead states) ≤ address items k := by
  induction k with
  | zero => simp
  | succ k ih =>
    have hbefore := ih (Nat.le_of_succ_le hk)
    obtain ⟨step, hstep⟩ : ∃ step, steps[k]? = some step :=
      ⟨_, Array.getElem?_eq_getElem (Nat.lt_of_succ_le hk)⟩
    obtain ⟨line, hline, hresolves⟩ := resolves_line hresolve hstep
    have hsize : address items (k + 1) = address items k + line.size := Line.total_take_succ hline
    have hpos := line.size_pos
    rw [List.range_succ, List.countP_append, List.countP_append, List.countP_singleton,
      List.countP_singleton, hsize]
    cases hentry : targetFrame? (Draft.ofItems items) steps states k with
    | none =>
      simp only [Option.isSome_none, Bool.false_eq_true, if_false, Nat.add_zero]
      split <;> omega
    | some entry =>
      obtain ⟨step', target, locals, hstep', htarget, hlive, -⟩ := targetFrame?_eq_some_iff.mp hentry
      rw [hstep] at hstep'
      cases hstep'
      have hbranch : line.size = 3 := by
        cases line with
        | plain instr =>
          rw [show step = { instr } from hresolves] at htarget
          cases htarget
        | branch when label => rfl
      simp only [Option.isSome_some, if_true, hlive, Bool.false_eq_true, if_false]
      omega

omit hresolve in
theorem length_deadStarts_le :
    (deadStarts states).length ≤ (List.range steps.size).countP (isDead states) := by
  rw [deadStarts, ← List.countP_eq_length_filter]
  exact List.countP_mono_left fun i _ h => (Bool.and_eq_true_iff.mp h).1

/-- Few enough branches fit the code, as it does not end in one. -/
theorem count_targets_le (states : States w steps.size) {instr : Instr}
    (hlast : (Item.lines items).getLast? = some (.plain instr)) :
    3 * (List.range steps.size).countP
        (fun i => (targetFrame? (Draft.ofItems items) steps states i).isSome) ≤ 65534 := by
  have htotal : Line.total (Item.lines items) ≤ 65535 := by
    rw [← Draft.size_ofItems]
    exact (Draft.resolves_of_resolve hresolve).1
  have hsize := size_steps hresolve
  have hpos : 0 < steps.size := by
    rw [hsize, List.length_pos_iff]
    rintro hnil
    rw [hnil] at hlast
    cases hlast
  obtain ⟨k, hk⟩ : ∃ k, steps.size = k + 1 := ⟨steps.size - 1, by omega⟩
  have hline : (Item.lines items)[k]? = some (.plain instr) := by
    rw [← hlast, List.getLast?_eq_getElem?, ← hsize, hk]
    rfl
  have hnone : targetFrame? (Draft.ofItems items) steps states k = none := by
    cases hentry : targetFrame? (Draft.ofItems items) steps states k with
    | none => rfl
    | some entry =>
      obtain ⟨step, target, locals, hstep, htarget, -⟩ := targetFrame?_eq_some_iff.mp hentry
      obtain ⟨line, hline', hresolves⟩ := resolves_line hresolve hstep
      rw [hline] at hline'
      cases hline'
      rw [show step = { instr } from hresolves] at htarget
      cases htarget
  have hrange : List.range steps.size = List.range k ++ [k] := by rw [hk, List.range_succ]
  have hfront := count_entries_le hresolve states (show k ≤ steps.size by omega)
  have hend : address items k < Line.total (Item.lines items) := by
    have hlt := Line.total_take_lt (Nat.lt_succ_self k) (Nat.le_of_eq (hk.symm.trans hsize))
    exact Nat.lt_of_lt_of_le hlt (Line.total_take_le _ _)
  rw [hrange, List.countP_append, List.countP_singleton, hnone]
  simp only [Option.isSome_none, Bool.false_eq_true, if_false, Nat.add_zero]
  omega

omit hresolve in
private theorem entry_of_mem_frames {d : Draft} {throwable : UInt16} {entry : Nat × FrameTypes}
    (h : entry ∈ (frames d steps states throwable).toList) :
    (∃ i, targetFrame? d steps states i = some entry) ∨ entry.2 = deadFrame throwable := by
  obtain ⟨k, v⟩ := entry
  rw [Std.TreeMap.mem_toList_iff_getElem?_eq_some, frames_eq] at h
  rcases FrameTable.of_getElem?_foldl_record h with ⟨i, -, hdead⟩ | htarget
  · cases hdead
    exact .inr rfl
  rw [targetFrames_eq] at htarget
  rcases FrameTable.of_getElem?_foldl_record htarget with ⟨i, -, hentry⟩ | hempty
  · exact .inl ⟨i, hentry⟩
  · rw [Std.TreeMap.getElem?_emptyc] at hempty
    cases hempty

omit hresolve in
private theorem weigh_frames_le (f : Nat × FrameTypes → Nat) (d : Draft) (states : States w steps.size)
    (throwable : UInt16) {target dead : Nat}
    (htarget : ∀ i entry, targetFrame? d steps states i = some entry → f entry ≤ target)
    (hdead : ∀ address, f (address, deadFrame throwable) ≤ dead) :
    (frames d steps states throwable).weigh f ≤
      dead * (List.range steps.size).countP (isDead states) +
        target * (List.range steps.size).countP
          (fun i => (targetFrame? d steps states i).isSome) := by
  have hdeadEntry : ∀ i ∈ deadStarts states, ∀ entry,
      some (d.address i, deadFrame throwable) = some entry → f entry ≤ dead := by
    intro i _ entry hentry
    cases hentry
    exact hdead _
  have hstarts :=
    FrameTable.weigh_foldl_record_le f (targetFrames d steps states) hdeadEntry
  have htargetEntry : ∀ i ∈ List.range steps.size, ∀ entry,
      targetFrame? d steps states i = some entry → f entry ≤ target := fun i _ => htarget i
  have htargets := FrameTable.weigh_foldl_record_le f {} htargetEntry
  rw [← targetFrames_eq, FrameTable.weigh_empty, Nat.add_zero] at htargets
  rw [← frames_eq] at hstarts
  have hcount : (deadStarts states).countP (fun _ => true) ≤
      (List.range steps.size).countP (isDead states) := by
    rw [List.countP_true]
    exact length_deadStarts_le
  have hmul := Nat.mul_le_mul_left dead hcount
  simp only [Option.isSome_some] at hstarts
  omega

theorem length_write_frames_le (states : States w steps.size) (throwable : UInt16)
    (initial : List VerificationType) :
    ((frames (Draft.ofItems items) steps states throwable).write initial).length ≤ 65535 := by
  have hboth := count_entries_le hresolve states (Nat.le_refl _)
  have htotal := address_size_le hresolve
  have hcount := weigh_frames_le (fun _ => 1) (Draft.ofItems items) states throwable
    (fun _ _ _ => Nat.le_refl 1) (fun _ => Nat.le_refl 1)
  rw [FrameTable.weigh_one] at hcount
  rw [FrameTable.write, MapFrame.length_chooseFrom]
  omega

omit hresolve in
theorem fits_write_frames (hwidth : w ≤ 65535) {d : Draft} {throwable : UInt16}
    {initial : List VerificationType} :
    ∀ f ∈ (frames d steps states throwable).write initial, f.Fits := by
  refine MapFrame.fits_chooseFrom fun entry hentry => ?_
  rcases entry_of_mem_frames hentry with ⟨i, htarget⟩ | hdead
  · obtain ⟨hlocals, hstack⟩ := length_of_targetFrame? htarget
    rw [hstack]
    exact ⟨Nat.le_trans hlocals hwidth, by simp⟩
  · rw [hdead]
    simp [deadFrame]

/-- The stack map of a method fits its length fields. -/
theorem stackMap_fits {instr : Instr} (hlast : (Item.lines items).getLast? = some (.plain instr))
    (hwidth : w ≤ 65535) (states : States w steps.size) (throwable : UInt16)
    (initial : List VerificationType) :
    ((frames (Draft.ofItems items) steps states throwable).write initial).length ≤ 65535 ∧
      (∀ f ∈ (frames (Draft.ofItems items) steps states throwable).write initial, f.Fits) ∧
      (AttributeBody.stackMap
        ((frames (Draft.ofItems items) steps states throwable).write initial)).encode.length <
          4294967296 := by
  have htargets := count_targets_le hresolve states hlast
  have hboth := count_entries_le hresolve states (Nat.le_refl _)
  have htotal := address_size_le hresolve
  refine ⟨length_write_frames_le hresolve states throwable initial, fits_write_frames hwidth, ?_⟩
  have hroom : ∀ i entry, targetFrame? (Draft.ofItems items) steps states i = some entry →
      MapFrame.room entry ≤ 196612 := by
    intro i entry hentry
    obtain ⟨hlocals, hstack⟩ := length_of_targetFrame? hentry
    rw [MapFrame.room, hstack, List.length_nil]
    omega
  have hbytes := weigh_frames_le MapFrame.room (Draft.ofItems items) states throwable hroom
    (fun _ => Nat.le_refl 10)
  have hencode := MapFrame.length_encode_chooseFrom_le 0 initial
    (frames (Draft.ofItems items) steps states throwable).toList
  rw [AttributeBody.encode, Bytes.counted16, List.length_append, Bytes.length_u16]
  have hencode' : ((frames (Draft.ofItems items) steps states throwable).write initial |>.flatMap
      MapFrame.encode).length ≤ (frames (Draft.ofItems items) steps states throwable).weigh
        MapFrame.room := hencode
  omega

end Sizes

end Flow

end Classwright
