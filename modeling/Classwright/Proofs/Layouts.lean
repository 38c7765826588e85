import Classwright.Proofs.Literals
import Classwright.Proofs.Slots

/-!
# The layout of a method

Before code is followed, every slot at which a local starts has the type of the local, and the slots
of the parameters have their values.  A constructor is entered with a receiver that is not
initialized yet.
-/

namespace Classwright

/-- The type stands in stack maps for the values of a declared type. -/
def VerificationType.Describes (pool : Pool) (t : JavaType) (v : VerificationType) : Prop :=
  match t.kind? with
  | some .reference =>
    ∃ index, pool.meaning? index = some (.classInfo t.internalName) ∧ v = .object index
  | some .int => v = .integer
  | some .long => v = .long
  | some .float => v = .float
  | some .double => v = .double
  | none => v = .top

private theorem VerificationType.describes_of_ran {q : Pool} {t : JavaType} {v : VerificationType}
    (h : Ran q (ofType t) v) : v.Describes q t := by
  cases hkind : t.kind? with
  | none =>
    simp only [ofType, hkind] at h
    simpa only [Describes, hkind] using h.eq_of_pure
  | some kind =>
    cases kind with
    | reference =>
      simp only [ofType, hkind] at h
      obtain ⟨index, hindex, h⟩ := Ran.of_bind (Grows.classInfo _) (fun _ => .pure _) h
      simp only [Describes, hkind]
      exact ⟨index, meaning?_of_ran (r := .classInfo t.internalName) hindex, h.eq_of_pure⟩
    | _ =>
      simp only [ofType, hkind] at h
      simpa only [Describes, hkind] using h.eq_of_pure

namespace Layout

variable {q : Pool} {w : Nat}

def HasSlot (slots : Slots) (locals : List Local) (k : Nat) : Prop :=
  ∃ l ∈ locals, ∃ slot, slots.index[l.name]? = some slot ∧ slot.toNat = k

structure Of (owner : ClassDecl) (method : MethodDecl) (b : Body) (slots : Slots) (q : Pool)
    (layout : Layout) : Prop where
  width : layout.width = slots.next.toNat
  declared : ∀ entry ∈ slots.locals.toList,
    ∃ v, layout.declared[entry.2.toNat]? = some v ∧ v.Describes q entry.1.type
  undeclared : ∀ k < layout.width, (∀ entry ∈ slots.locals.toList, entry.2.toNat ≠ k) →
    layout.declared[k]? = some .top
  this : method.initializesThis = true → 0 < layout.width →
    layout.entry[0]? = some .uninitializedThis
  parameter : ∀ k < layout.width, HasSlot slots b.parameters k →
    (method.initializesThis = true → k ≠ 0) → layout.entry[k]? = layout.declared[k]?
  other : ∀ k < layout.width, ¬ HasSlot slots b.parameters k →
    (method.initializesThis = true → k ≠ 0) → layout.entry[k]? = some .top
  initialized : if method.initializesThis then
      ∃ index, q.meaning? index = some (.classInfo owner.this.name) ∧
        layout.initializedThis = some (.object index)
    else layout.initializedThis = none

private theorem declare_of_ran {types out : Locals w} {entries : List (Local × UInt16)}
    (hdistinct : entries.Pairwise fun a b => a.2.toNat ≠ b.2.toNat)
    (h : Ran q (declare types entries) out) :
    (∀ entry ∈ entries, entry.2.toNat < w →
        ∃ v, out[entry.2.toNat]? = some v ∧ v.Describes q entry.1.type) ∧
      ∀ k, (∀ entry ∈ entries, entry.2.toNat ≠ k) → out[k]? = types[k]? := by
  induction entries generalizing types with
  | nil =>
    rw [h.eq_of_pure]
    exact ⟨fun _ hmem => absurd hmem List.not_mem_nil, fun _ _ => rfl⟩
  | cons entry entries ih =>
    obtain ⟨l, slot⟩ := entry
    obtain ⟨hfirst, hrest⟩ := List.pairwise_cons.mp hdistinct
    obtain ⟨v, hv, h⟩ := Ran.of_bind (VerificationType.grows_ofType l.type)
      (fun v => grows_declare _ _) h
    obtain ⟨hdeclared, hsame⟩ := ih hrest h
    constructor
    · intro entry hentry hlt
      rcases List.mem_cons.mp hentry with rfl | hentry
      · refine ⟨v, ?_, VerificationType.describes_of_ran hv⟩
        rw [hsame slot.toNat fun other hother => (hfirst other hother).symm]
        simp [hlt]
      · exact hdeclared entry hentry hlt
    · intro k hk
      rw [hsame k fun other hother => hk other (List.mem_cons_of_mem _ hother)]
      have hne : slot.toNat ≠ k := hk (l, slot) List.mem_cons_self
      simp [hne]

private def enterParameter (declared : Locals w) (slots : Slots) (entry : Locals w) (l : Local) :
    Locals w :=
  match slots.lookup l with
  | .ok slot => entry.setIfInBounds slot.toNat (declared[slot.toNat]?.getD .top)
  | .error _ => entry

private theorem getElem?_foldl_enterParameter {declared : Locals w} {slots : Slots}
    {parameters : List Local} {k : Nat} (hk : k < w) (entry : Locals w) :
    (HasSlot slots parameters k →
        (parameters.foldl (enterParameter declared slots) entry)[k]? = declared[k]?) ∧
      (¬ HasSlot slots parameters k →
        (parameters.foldl (enterParameter declared slots) entry)[k]? = entry[k]?) := by
  induction parameters generalizing entry with
  | nil => exact ⟨fun ⟨_, hmem, _⟩ => absurd hmem List.not_mem_nil, fun _ => rfl⟩
  | cons l parameters ih =>
    obtain ⟨hin, hout⟩ := ih (enterParameter declared slots entry l)
    rw [List.foldl_cons]
    by_cases hrest : HasSlot slots parameters k
    · refine ⟨fun _ => hin hrest, fun hnot => absurd ?_ hnot⟩
      obtain ⟨l', hl', hslot⟩ := hrest
      exact ⟨l', List.mem_cons_of_mem _ hl', hslot⟩
    rw [hout hrest]
    unfold enterParameter
    constructor
    · rintro ⟨l', hl', slot, hslot, rfl⟩
      rcases List.mem_cons.mp hl' with rfl | hl'
      · rw [Slots.lookup_eq_ok_iff.mpr hslot]
        simp [hk]
      · exact absurd ⟨l', hl', slot, hslot, rfl⟩ hrest
    · intro hnot
      split
      · rename_i slot hslot
        have hne : slot.toNat ≠ k := fun heq =>
          hnot ⟨l, List.mem_cons_self, slot, Slots.lookup_eq_ok_iff.mp hslot, heq⟩
        simp [hne]
      · rfl

private theorem getElem?_entryOf {declared : Locals w} {slots : Slots} {parameters : List Local} {k : Nat}
    (hk : k < w) :
    (HasSlot slots parameters k → (entryOf declared slots parameters)[k]? = declared[k]?) ∧
      (¬ HasSlot slots parameters k → (entryOf declared slots parameters)[k]? = some .top) := by
  obtain ⟨hin, hout⟩ := getElem?_foldl_enterParameter hk (Vector.replicate w .top)
  exact ⟨hin, fun hnot => (hout hnot).trans (by simp [hk])⟩

/-- The layout that a method is given describes its slots. -/
theorem of_ran {owner : ClassDecl} {method : MethodDecl} {b : Body} {slots : Slots}
    {layout : Layout} (hslots : slots.WellFormed) (h : Ran q (ofSlots owner method b slots) layout) :
    Of owner method b slots q layout := by
  have hdistinct : slots.locals.toList.Pairwise fun a b => a.2.toNat ≠ b.2.toNat :=
    hslots.tiles.pairwise.imp Nat.ne_of_lt
  obtain ⟨declared, hdeclared, h⟩ := Ran.of_bind (grows_declare _ _)
    (fun _ => by
      dsimp only
      split
      · exact (Grows.classInfo _).bind fun _ => .pure _
      · exact .pure _) h
  obtain ⟨hin, hout⟩ := declare_of_ran hdistinct hdeclared
  have htypes : ∀ entry ∈ slots.locals.toList,
      ∃ v, declared[entry.2.toNat]? = some v ∧ v.Describes q entry.1.type := by
    intro entry hentry
    have hpos := Slots.widthOf_pos entry.1
    have hbound := (hslots.tiles.bounds hentry).2
    exact hin entry hentry (by omega)
  have hunused : ∀ k < slots.next.toNat, (∀ entry ∈ slots.locals.toList, entry.2.toNat ≠ k) →
      declared[k]? = some .top := by
    intro k hk hnone
    rw [hout k hnone]
    simp [hk]
  dsimp only at h
  split at h
  · rename_i hinit
    obtain ⟨index, hindex, h⟩ := Ran.of_bind (Grows.classInfo _) (fun _ => .pure _) h
    rw [h.eq_of_pure]
    refine ⟨rfl, htypes, hunused, ?_, ?_, ?_, ?_⟩
    · intro _ hpos
      have hzero : 0 < slots.next.toNat := hpos
      simp [hzero]
    · intro k hk hslot hzero
      have hne : 0 ≠ k := (hzero hinit).symm
      simpa [hne] using (getElem?_entryOf hk).1 hslot
    · intro k hk hslot hzero
      have hne : 0 ≠ k := (hzero hinit).symm
      simpa [hne] using (getElem?_entryOf hk).2 hslot
    · rw [if_pos hinit]
      exact ⟨index, meaning?_of_ran (r := .classInfo owner.this.name) hindex, rfl⟩
  · rename_i hinit
    rw [h.eq_of_pure]
    refine ⟨rfl, htypes, hunused, fun h => absurd h hinit, ?_, ?_, ?_⟩
    · intro k hk hslot _
      exact (getElem?_entryOf hk).1 hslot
    · intro k hk hslot _
      exact (getElem?_entryOf hk).2 hslot
    · rw [if_neg hinit]

end Layout

end Classwright
