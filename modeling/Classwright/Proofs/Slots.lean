import Classwright.Generate.Slots

/-!
# Slots are laid out without overlap

The locals of a method take consecutive slots in the order in which they were met.  Hence no slot
belongs to two locals, every local keeps its slot while others are added, and the first locals are
the parameters in their order.
-/

namespace Classwright

namespace Slots

/-- The locals take consecutive slots, from `start` up to `stop`. -/
def Tiles (start stop : Nat) : List (Local × UInt16) → Prop
  | [] => start = stop
  | (l, slot) :: rest => slot.toNat = start ∧ Tiles (start + widthOf l) stop rest

theorem widthOf_pos (l : Local) :
    0 < widthOf l := Nat.lt_of_lt_of_le Nat.zero_lt_one (Nat.le_max_right _ _)

section Tiles

variable {start stop : Nat} {locals : List (Local × UInt16)}

theorem Tiles.le (h : Tiles start stop locals) : start ≤ stop := by
  induction locals generalizing start with
  | nil => exact Nat.le_of_eq h
  | cons entry rest ih => exact Nat.le_trans (Nat.le_add_right _ _) (ih h.2)

theorem Tiles.concat (h : Tiles start stop locals) {l : Local} {slot : UInt16}
    (hslot : slot.toNat = stop) : Tiles start (stop + widthOf l) (locals ++ [(l, slot)]) := by
  induction locals generalizing start with
  | nil =>
    cases h
    exact ⟨hslot, rfl⟩
  | cons entry rest ih => exact ⟨h.1, ih h.2⟩

theorem Tiles.bounds (h : Tiles start stop locals) {l : Local} {slot : UInt16}
    (hmem : (l, slot) ∈ locals) : start ≤ slot.toNat ∧ slot.toNat + widthOf l ≤ stop := by
  induction locals generalizing start with
  | nil => cases hmem
  | cons entry rest ih =>
    obtain ⟨hslot, hrest⟩ := h
    rcases List.mem_cons.mp hmem with heq | hmem
    · subst heq
      exact ⟨Nat.le_of_eq hslot.symm, hslot ▸ hrest.le⟩
    · have hbounds := ih hrest hmem
      exact ⟨Nat.le_trans (Nat.le_add_right _ _) hbounds.1, hbounds.2⟩

theorem Tiles.separate (h : Tiles start stop locals) {a b : Local × UInt16} (ha : a ∈ locals)
    (hb : b ∈ locals) :
    a = b ∨ a.2.toNat + widthOf a.1 ≤ b.2.toNat ∨ b.2.toNat + widthOf b.1 ≤ a.2.toNat := by
  induction locals generalizing start with
  | nil => cases ha
  | cons entry rest ih =>
    obtain ⟨hslot, hrest⟩ := h
    rcases List.mem_cons.mp ha with ha | ha <;> rcases List.mem_cons.mp hb with hb | hb
    · exact .inl (ha.trans hb.symm)
    · refine .inr (.inl ?_)
      rw [ha, hslot]
      exact (hrest.bounds hb).1
    · refine .inr (.inr ?_)
      rw [hb, hslot]
      exact (hrest.bounds ha).1
    · exact ih hrest ha hb

theorem Tiles.length_le (h : Tiles start stop locals) : start + locals.length ≤ stop := by
  induction locals generalizing start with
  | nil => exact Nat.le_of_eq h
  | cons entry rest ih =>
    have hpos := widthOf_pos entry.1
    have hle := ih h.2
    rw [List.length_cons]
    omega

theorem Tiles.pairwise (h : Tiles start stop locals) :
    locals.Pairwise fun a b => a.2.toNat < b.2.toNat := by
  induction locals generalizing start with
  | nil => exact .nil
  | cons entry rest ih =>
    obtain ⟨hslot, hrest⟩ := h
    refine List.pairwise_cons.mpr ⟨fun other hother => ?_, ih hrest⟩
    have hpos := widthOf_pos entry.1
    have hbounds := (hrest.bounds hother).1
    omega

end Tiles

/-- The index of names agrees with the list of locals, whose slots are laid out in order. -/
structure WellFormed (s : Slots) : Prop where
  tiles : Tiles 0 s.next.toNat s.locals.toList
  index : ∀ name slot,
    s.index[name]? = some slot ↔ ∃ l, (l, slot) ∈ s.locals.toList ∧ l.name = name

/-- One list of locals starts with the other. -/
instance : LE Slots := ⟨fun s t => s.locals.toList <+: t.locals.toList⟩

protected theorem le_refl (s : Slots) : s ≤ s := List.prefix_refl _

protected theorem le_trans {s t u : Slots} (hst : s ≤ t) (htu : t ≤ u) : s ≤ u :=
  List.IsPrefix.trans hst htu

theorem wellFormed_empty : WellFormed {} where
  tiles := rfl
  index := by simp

section WellFormed

variable {s t : Slots} {l : Local} {slot : UInt16}

theorem index_mono (hs : s.WellFormed) (ht : t.WellFormed) (hle : s ≤ t) {name : String}
    (h : s.index[name]? = some slot) : t.index[name]? = some slot := by
  obtain ⟨l, hmem, hname⟩ := (hs.index name slot).mp h
  exact (ht.index name slot).mpr ⟨l, List.IsPrefix.subset hle hmem, hname⟩

theorem WellFormed.separate (hs : s.WellFormed) {a b : Local × UInt16} (ha : a ∈ s.locals.toList)
    (hb : b ∈ s.locals.toList) (hne : a.1.name ≠ b.1.name) :
    a.2.toNat + widthOf a.1 ≤ b.2.toNat ∨ b.2.toNat + widthOf b.1 ≤ a.2.toNat := by
  rcases hs.tiles.separate ha hb with heq | h
  · exact absurd (by rw [heq]) hne
  · exact h

theorem WellFormed.allocate (hs : s.WellFormed) (h : Slots.allocate l s = (.ok slot, t)) :
    t.WellFormed ∧ t.locals.toList = s.locals.toList ++ [(l, slot)] := by
  unfold Slots.allocate at h
  split at h
  · cases h
  rename_i hnew
  split at h
  · rename_i hroom
    cases h
    have hnext : (UInt16.ofNat (s.next.toNat + widthOf l)).toNat = s.next.toNat + widthOf l := by
      rw [UInt16.toNat_ofNat']
      exact Nat.mod_eq_of_lt (by omega)
    refine ⟨⟨?_, ?_⟩, by simp⟩
    · simp only [Array.toList_push, hnext]
      exact hs.tiles.concat rfl
    · intro name slot
      have hold := hs.index name slot
      simp only [Std.HashMap.getElem?_insert, Array.toList_push, List.mem_append,
        List.mem_singleton, beq_iff_eq]
      split
      · rename_i hname
        subst hname
        -- the name was not known before, so only the new entry has it
        have hnone : ∀ slot, ¬ ∃ l', (l', slot) ∈ s.locals.toList ∧ l'.name = l.name := by
          intro slot hex
          have hget := (hs.index l.name slot).mpr hex
          have hmem : l.name ∈ s.index := by
            rw [Std.HashMap.mem_iff_isSome_getElem?, hget]
            rfl
          exact hnew (Std.HashMap.contains_iff_mem.mpr hmem)
        constructor
        · intro heq
          exact ⟨l, .inr (by rw [Option.some.inj heq]), rfl⟩
        · rintro ⟨l', hmem | hmem, hname⟩
          · exact absurd ⟨l', hmem, hname⟩ (hnone slot)
          · rw [(Prod.mk.inj hmem).2]
      · rename_i hne
        rw [hold]
        constructor
        · rintro ⟨l', hmem, hname⟩
          exact ⟨l', .inl hmem, hname⟩
        · rintro ⟨l', hmem | hmem, hname⟩
          · exact ⟨l', hmem, hname⟩
          · rw [(Prod.mk.inj hmem).1] at hname
            exact absurd hname hne
  · cases h

theorem WellFormed.forStore (hs : s.WellFormed) (h : Slots.forStore l s = (.ok slot, t)) :
    t.WellFormed ∧ t.index[l.name]? = some slot ∧
      (t = s ∨ t.locals.toList = s.locals.toList ++ [(l, slot)]) := by
  unfold Slots.forStore at h
  split at h
  · rename_i found hfound
    cases h
    exact ⟨hs, hfound, .inl rfl⟩
  · obtain ⟨ht, hlocals⟩ := hs.allocate h
    refine ⟨ht, (ht.index l.name slot).mpr ⟨l, ?_, rfl⟩, .inr hlocals⟩
    rw [hlocals]
    simp

theorem WellFormed.allocateAll {locals : List Local} (hs : s.WellFormed)
    (h : s.allocateAll locals = .ok t) :
    t.WellFormed ∧ s ≤ t ∧ t.locals.toList.map Prod.fst = s.locals.toList.map Prod.fst ++ locals := by
  induction locals generalizing s with
  | nil =>
    cases h
    exact ⟨hs, Slots.le_refl _, by simp⟩
  | cons l locals ih =>
    simp only [Slots.allocateAll] at h
    split at h
    · cases h
    rename_i slot u hu
    obtain ⟨hu, hlocals⟩ := hs.allocate hu
    obtain ⟨ht, hle, hmap⟩ := ih hu h
    refine ⟨ht, Slots.le_trans ⟨[(l, slot)], hlocals.symm⟩ hle, ?_⟩
    rw [hmap, hlocals]
    simp

theorem lookup_eq_ok_iff : s.lookup l = .ok slot ↔ s.index[l.name]? = some slot := by
  unfold Slots.lookup
  split
  · rename_i found hfound
    rw [hfound, Except.ok.injEq, Option.some.injEq]
  · rename_i hnone
    simp [hnone]

def Knows (s : Slots) (name : String) : Prop := ∃ entry ∈ s.locals.toList, entry.1.name = name

theorem WellFormed.knows_iff (hs : s.WellFormed) {name : String} :
    s.Knows name ↔ ∃ slot, s.index[name]? = some slot := by
  constructor
  · rintro ⟨⟨l, slot⟩, hmem, hname⟩
    exact ⟨slot, (hs.index name slot).mpr ⟨l, hmem, hname⟩⟩
  · rintro ⟨slot, hslot⟩
    obtain ⟨l, hmem, hname⟩ := (hs.index name slot).mp hslot
    exact ⟨(l, slot), hmem, hname⟩

theorem WellFormed.contains_iff (hs : s.WellFormed) {name : String} :
    s.index.contains name = true ↔ s.Knows name := by
  rw [hs.knows_iff, Std.HashMap.contains_iff_mem, Std.HashMap.mem_iff_isSome_getElem?,
    Option.isSome_iff_exists]

theorem WellFormed.eq_of_name (hs : s.WellFormed) {a b : Local × UInt16} (ha : a ∈ s.locals.toList)
    (hb : b ∈ s.locals.toList) (hname : a.1.name = b.1.name) : a = b := by
  have hslots : a.2 = b.2 := by
    have hfound := (hs.index a.1.name a.2).mpr ⟨a.1, ha, rfl⟩
    rw [(hs.index a.1.name b.2).mpr ⟨b.1, hb, hname.symm⟩] at hfound
    exact (Option.some.inj hfound).symm
  rcases hs.tiles.separate ha hb with heq | hsep | hsep
  · exact heq
  · have hpos := widthOf_pos a.1
    rw [hslots] at hsep
    omega
  · have hpos := widthOf_pos b.1
    rw [hslots] at hsep
    omega

end WellFormed

section Calls

inductive Call where
  | allocate (l : Local)
  | forStore (l : Local)

namespace Call

def run : Call → Allocating UInt16
  | allocate l => Slots.allocate l
  | forStore l => Slots.forStore l

/-- The call fails with the error: the name is taken, or there are not enough slots. -/
def Fails (s : Slots) : Call → GenerateError → Prop
  | allocate l, e =>
    (s.Knows l.name ∧ e = .duplicateLocal l.name) ∨
      (¬ s.Knows l.name ∧ 65535 < s.next.toNat + widthOf l ∧ e = .limitExceeded .localSlots)
  | forStore l, e =>
    ¬ s.Knows l.name ∧ 65535 < s.next.toNat + widthOf l ∧ e = .limitExceeded .localSlots

end Call

/-- The slots after some calls, those that failed among them. -/
def after (s : Slots) (calls : List Call) : Slots := calls.foldl (fun s call => (call.run s).2) s

variable {s : Slots}

theorem WellFormed.allocate_cases (hs : s.WellFormed) (l : Local) :
    (∃ t, Slots.allocate l s = (.ok s.next, t) ∧ t.WellFormed) ∨
      ∃ e, Slots.allocate l s = (.error e, s) ∧ (Call.allocate l).Fails s e := by
  by_cases hknown : s.Knows l.name
  · refine .inr ⟨.duplicateLocal l.name, ?_, .inl ⟨hknown, rfl⟩⟩
    rw [Slots.allocate, if_pos (hs.contains_iff.mpr hknown)]
  · have hnew : ¬ s.index.contains l.name = true := fun h => hknown (hs.contains_iff.mp h)
    by_cases hroom : s.next.toNat + widthOf l ≤ 65535
    · have hrun : ∃ t, Slots.allocate l s = (.ok s.next, t) := by
        rw [Slots.allocate, if_neg hnew, if_pos hroom]
        exact ⟨_, rfl⟩
      obtain ⟨t, hrun⟩ := hrun
      exact .inl ⟨t, hrun, (hs.allocate hrun).1⟩
    · refine .inr ⟨.limitExceeded .localSlots, ?_, .inr ⟨hknown, by omega, rfl⟩⟩
      rw [Slots.allocate, if_neg hnew, if_neg hroom]

/-- A call succeeds and keeps the slots well-formed, or it fails and they stay as they are. -/
theorem WellFormed.run_cases (hs : s.WellFormed) (call : Call) :
    (∃ slot t, call.run s = (.ok slot, t) ∧ t.WellFormed) ∨
      ∃ e, call.run s = (.error e, s) ∧ call.Fails s e := by
  cases call with
  | allocate l =>
    rcases hs.allocate_cases l with ⟨t, hrun, ht⟩ | hfails
    · exact .inl ⟨s.next, t, hrun, ht⟩
    · exact .inr hfails
  | forStore l =>
    rw [Call.run, Slots.forStore]
    split
    · rename_i slot hslot
      exact .inl ⟨slot, s, rfl, hs⟩
    · rename_i hnone
      have hunknown : ¬ s.Knows l.name := by
        rw [hs.knows_iff, hnone]
        simp
      rcases hs.allocate_cases l with ⟨t, hrun, ht⟩ | ⟨e, hrun, hfails⟩
      · exact .inl ⟨s.next, t, hrun, ht⟩
      · exact .inr ⟨e, hrun, hfails.resolve_left fun h => hunknown h.1⟩

theorem WellFormed.after (hs : s.WellFormed) (calls : List Call) : (s.after calls).WellFormed := by
  induction calls generalizing s with
  | nil => exact hs
  | cons call calls ih =>
    apply ih
    dsimp only
    rcases hs.run_cases call with ⟨slot, t, hrun, ht⟩ | ⟨e, hrun, -⟩
    · rw [hrun]
      exact ht
    · rw [hrun]
      exact hs

theorem WellFormed.run_of_error (hs : s.WellFormed) {call : Call} {e : GenerateError}
    (h : (call.run s).1 = .error e) : (call.run s).2 = s ∧ call.Fails s e := by
  rcases hs.run_cases call with ⟨slot, t, hrun, -⟩ | ⟨e', hrun, hfails⟩
  · rw [hrun] at h
    cases h
  · rw [hrun] at h
    cases h
    exact ⟨by rw [hrun], hfails⟩

end Calls

theorem exists_allocateAll_pair {a b : Local} (hname : a.name ≠ b.name)
    (hfit : widthOf a + widthOf b ≤ 65535) :
    ∃ slots : Slots, allocateAll {} [a, b] = .ok slots ∧ slots.index[a.name]? = some 0 ∧
      slots.index[b.name]? = some (UInt16.ofNat (widthOf a)) ∧
        slots.locals.toList = [(a, 0), (b, UInt16.ofNat (widthOf a))] := by
  have hnext : (UInt16.ofNat (widthOf a)).toNat = widthOf a := by
    rw [UInt16.toNat_ofNat', Nat.mod_eq_of_lt (by omega)]
  refine ⟨{ index := (Std.HashMap.insert {} a.name 0).insert b.name (UInt16.ofNat (widthOf a))
            locals := #[(a, 0), (b, UInt16.ofNat (widthOf a))]
            next := UInt16.ofNat (widthOf a + widthOf b) }, ?_, ?_, ?_, rfl⟩
  · have hfirst : widthOf a ≤ 65535 := by omega
    simp [allocateAll, allocate, hname, hfirst, hnext, hfit]
  · rw [Std.HashMap.getElem?_insert, if_neg (by simpa using hname.symm), Std.HashMap.getElem?_insert_self]
  · rw [Std.HashMap.getElem?_insert_self]

end Slots

end Classwright
