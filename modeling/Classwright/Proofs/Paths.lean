import Classwright.Proofs.Effects
import Classwright.Proofs.Locals

/-!
# Paths through code and through the body

A path through the code of a method goes from block to block as a path through the body goes from
statement to statement, and the slots hold what the locals hold.  So the analysis knows the slot of every
local that is read where all paths through the body have given it a value.
-/

namespace Classwright

namespace Lower

variable {ctx : MethodContext} {final : Lowering} {st : Statement} {items : List Item}

private theorem Emits.last_line (h : Emits ctx final st items) (hst : st.passesOn = false) {k : Nat}
    {line : Line}
    (hline : (Item.lines items)[k]? = some line) (hlast : k + 1 = (Item.lines items).length) :
    (∃ label, line = .branch .always label) ∨ ∃ instr : Instr, line = .plain instr ∧
      instr.endsMethod = true := by
  have hget : (Item.lines items).getLast? = some line := by
    rw [List.getLast?_eq_getElem?, ← hlast]
    exact hline
  cases st with
  | goto label =>
    rw [show items = _ from h] at hget
    exact .inl ⟨label, (Option.some.inj hget).symm⟩
  | ret value =>
    obtain ⟨front, instr, rfl, hends⟩ : ∃ front instr, items = front ++ [.op instr] ∧
        instr.endsMethod = true := by
      cases value with
      | none => exact ⟨[], .returnVoid, h.2, rfl⟩
      | some l =>
        obtain ⟨-, kind, -, x, -, cast, -, rfl⟩ := h
        exact ⟨x :: cast.map .op, .returnValue kind, rfl, rfl⟩
    rw [Item.lines_append] at hget
    have hplain : some (Line.plain instr) = some line := List.getLast?_concat.symm.trans hget
    exact .inr ⟨instr, (Option.some.inj hplain).symm, hends⟩
  | _ => cases hst

end Lower

namespace Flow

/-- The slots hold what the locals hold: the receiver while it is raw, and values of their types. -/
def Models (slots : Slots) (layout : Layout) (held : String → Content) (locals : Locals layout.width) :
    Prop :=
  ∀ name slot, slots.index[name]? = some slot →
    (held name = .raw → locals[slot.toNat]? = some .uninitializedThis) ∧
      (held name = .value → locals[slot.toNat]? = layout.declared[slot.toNat]?)

def Writes (b : Body) (slots : Slots) (thisInit : Option Nat) (i : Nat) (instr : Instr) (name : String) :
    Prop :=
  (∃ kind form slot, instr = .store kind form ∧ slots.index[name]? = some slot ∧
      form.slot = slot.toNat) ∨
    (thisInit = some i ∧ b.isReceiver name = true)

/-- The code of a method, taken apart, with what is known of its slots. -/
structure Setting (owner : ClassDecl) (m : MethodDecl) (b : Body) (final : Lowering) (layout : Layout)
    (steps : Array Step) (thisInit : Option Nat) (before : List Item) (blocks : List (List Item))
    (ending : List Item) : Prop where
  chains : Lower.Chains owner m b final before
  emits : List.Forall₂ (Lower.Emits ⟨owner, m, Std.HashSet.ofList b.labels⟩ final) b.statements blocks
  ends : Lower.Ends m b ending
  thisInit : thisInit = (Draft.ofItems (before ++ blocks.flatten ++ ending)).thisInit
  resolve : (Draft.ofItems (before ++ blocks.flatten ++ ending)).resolve = .ok steps
  labels : (b.statements.filterMap Statement.marked?).Nodup
  kinds : layout.Kinds final.slots
  stores : ∀ (i : Nat) (step : Step), steps[i]? = some step → StoresInto final.slots step.instr
  /-- Stores leave the declared types. -/
  stored : ∀ entry ∈ final.slots.locals.toList, ∀ kind, entry.1.type.kind? = some kind →
    layout.declared[entry.2.toNat]? = some (storedType layout entry.2.toNat kind)
  receiver : m.initializesThis = true → ∀ name slot, final.slots.index[name]? = some slot →
    (slot = 0 ↔ b.isReceiver name = true)
  /-- The initialized receiver has its declared type. -/
  initialized : m.initializesThis = true →
    ∃ t, layout.initializedThis = some t ∧ layout.declared[0]? = some t
  raw : m.initializesThis = true → layout.entry[0]? = some .uninitializedThis
  parameters : ∀ l ∈ b.parameters, ∀ slot, final.slots.index[l.name]? = some slot →
    (m.initializesThis = true → slot ≠ 0) →
    layout.entry[slot.toNat]? = layout.declared[slot.toNat]?

namespace Setting

variable {owner : ClassDecl} {m : MethodDecl} {b : Body} {final : Lowering} {layout : Layout}
  {steps : Array Step} {thisInit : Option Nat} {before : List Item} {blocks : List (List Item)}
  {ending : List Item} (h : Setting owner m b final layout steps thisInit before blocks ending)
include h

theorem exists_statement {n : Nat} {block : List Item} (hblock : blocks[n]? = some block) :
    ∃ st, b.statements[n]? = some st ∧
      Lower.Emits ⟨owner, m, Std.HashSet.ofList b.labels⟩ final st block ∧
      ∃ p, Lower.UsesSlots final st (b.initializes owner m st) block p := by
  obtain ⟨hlt, hget⟩ := List.getElem?_eq_some_iff.mp hblock
  have hlt' : n < b.statements.length := by
    rw [h.emits.length_eq]
    exact hlt
  have hemits := h.emits.get hlt' hlt
  rw [List.get_eq_getElem, List.get_eq_getElem, hget] at hemits
  exact ⟨_, List.getElem?_eq_getElem hlt', hemits, (hemits.shape h.receiver).usesSlots⟩

theorem exists_block {n : Nat} {st : Statement} (hst : b.statements[n]? = some st) :
    ∃ block, blocks[n]? = some block := by
  obtain ⟨hlt, -⟩ := List.getElem?_eq_some_iff.mp hst
  rw [h.emits.length_eq] at hlt
  exact ⟨_, List.getElem?_eq_getElem hlt⟩

section ThisInit

private theorem initializes_of_mem {n : Nat} {block : List Item} (hblock : blocks[n]? = some block)
    {st : Statement} (hst : b.statements[n]? = some st) :
    (∀ item ∈ block, item.initializes = false) ↔ b.initializes owner m st = false := by
  obtain ⟨st', hst', -, p, huses⟩ := h.exists_statement hblock
  rw [hst] at hst'
  cases hst'
  rw [← Draft.thisInit_eq_none_iff, huses.thisInit]
  cases b.initializes owner m st <;> simp

private theorem thisInit_drop (n : Nat) :
    (Draft.ofItems ((blocks.drop n).flatten ++ ending)).thisInit = none ↔
      (b.statements.drop n).any (b.initializes owner m) = false := by
  have hending : ∀ item ∈ ending, item.initializes = false := by
    intro item hitem
    rcases h.ends with ⟨-, rfl⟩ | ⟨-, -, rfl⟩
    · cases hitem
    · rw [List.mem_singleton.mp hitem]
      rfl
  rw [Draft.thisInit_eq_none_iff, List.any_eq_false]
  constructor
  · intro hall st hst
    obtain ⟨k, hk⟩ := List.mem_iff_getElem?.mp hst
    rw [List.getElem?_drop] at hk
    obtain ⟨block, hblock⟩ := h.exists_block hk
    rw [Bool.not_eq_true, ← h.initializes_of_mem hblock hk]
    intro item hitem
    refine hall item (List.mem_append_left _ (List.mem_flatten.mpr ⟨block, ?_, hitem⟩))
    exact List.mem_of_getElem? (i := k) (by rw [List.getElem?_drop]; exact hblock)
  · intro hall item hitem
    rcases List.mem_append.mp hitem with hitem | hitem
    · obtain ⟨block, hblock, hitem⟩ := List.mem_flatten.mp hitem
      obtain ⟨k, hk⟩ := List.mem_iff_getElem?.mp hblock
      rw [List.getElem?_drop] at hk
      obtain ⟨st, hst, -⟩ := h.exists_statement hk
      have hnot := hall st (List.mem_of_getElem? (i := k) (by rw [List.getElem?_drop]; exact hst))
      exact (h.initializes_of_mem hk hst).mpr (Bool.not_eq_true _ ▸ hnot) item hitem
    · exact hending item hitem

/-- The receiver is initialized inside a block if its statement is the one that does so, at the line
before which the block reads. -/
theorem thisInit_block {n : Nat} {block : List Item} (hblock : blocks[n]? = some block) {st : Statement}
    {p : Nat}
    (huses : Lower.UsesSlots final st (b.initializes owner m st) block p) {j : Nat}
    (hj : j < (Item.lines block).length) :
    thisInit = some (Lower.startLine before blocks n + j) ↔
      b.initializesAt owner m n st = true ∧ j = p := by
  have hlength : (Item.lines ((before ++ (blocks.take n).flatten) ++ block)).length =
      Lower.startLine before blocks n + (Item.lines block).length := by
    rw [Item.lines_append, List.length_append]
    rfl
  rw [h.thisInit, Lower.split_at hblock, ← List.append_assoc, Draft.thisInit_append, hlength,
    Draft.thisInit_append (before ++ (blocks.take n).flatten), huses.thisInit, Body.initializesAt,
    Bool.and_eq_true, Bool.not_eq_true', ← h.thisInit_drop]
  cases hlater : (Draft.ofItems ((blocks.drop (n + 1)).flatten ++ ending)).thisInit with
  | some t =>
    simp only [Option.map_some, Option.some_or, Option.some.injEq, reduceCtorEq, and_false, false_and,
      iff_false]
    omega
  | none =>
    cases hinit : b.initializes owner m st with
    | true =>
      simp only [Option.map_none, Option.none_or, if_true, Option.map_some, Option.some_or,
        Option.some.injEq, true_and, and_self, Lower.startLine]
      omega
    | false =>
      simp only [Option.map_none, Option.none_or, Bool.false_eq_true, if_false, false_and, iff_false]
      intro hearlier
      have hlt := Draft.thisInit_lt hearlier
      exact absurd hlt (Nat.not_lt.mpr (Nat.le_add_right _ _))

private theorem initializesThis_of_thisInit {i : Nat} (hi : thisInit = some i) :
    m.initializesThis = true := by
  apply Classical.byContradiction
  intro hnot
  have hfalse : m.initializesThis = false := by simpa using hnot
  have hbefore : before = [] := by
    have hchains := h.chains
    rw [Lower.Chains, hfalse] at hchains
    exact hchains
  have hrest := (h.thisInit_drop 0).mpr (by
    rw [List.any_eq_false]
    intro st _
    cases st with
    | invoke symbol receiver arguments result isSuper =>
      cases receiver <;> simp [Body.initializes, hfalse]
    | _ => simp [Body.initializes])
  rw [h.thisInit, hbefore, List.nil_append] at hi
  rw [List.drop_zero, hi] at hrest
  cases hrest

end ThisInit

private theorem exists_step {n : Nat} {block : List Item} (hblock : blocks[n]? = some block) {k : Nat}
    {line : Line} (hline : (Item.lines block)[k]? = some line) :
    ∃ step, steps[Lower.startLine before blocks n + k]? = some step ∧
      (Draft.ofItems (before ++ blocks.flatten ++ ending)).Resolves
        (Lower.startLine before blocks n + k) line step := by
  have hget : (Item.lines (before ++ blocks.flatten ++ ending))[Lower.startLine before blocks n + k]? =
      some line := Lower.lines_block hblock hline
  have hlt : Lower.startLine before blocks n + k < steps.size := by
    rw [size_steps h.resolve]
    exact (List.getElem?_eq_some_iff.mp hget).1
  have hstep : steps[Lower.startLine before blocks n + k]? = some _ := Array.getElem?_eq_getElem hlt
  obtain ⟨line', hline', hresolves⟩ := resolves_line h.resolve hstep
  rw [hget] at hline'
  cases hline'
  exact ⟨_, hstep, hresolves⟩

section Models

private theorem getElem?_transfer {i : Nat} {instr : Instr} {locals : Locals layout.width} (k : Nat) :
    (transfer layout thisInit i instr locals)[k]? =
      if thisInit = some i ∧ k = 0 then layout.declared[0]?
      else (applyStore layout locals instr)[k]? := by
  unfold transfer
  by_cases hi : thisInit = some i
  · obtain ⟨t, ht, hdeclared⟩ := h.initialized (h.initializesThis_of_thisInit hi)
    have hpos : 0 < layout.width := (Vector.getElem?_eq_some_iff.mp hdeclared).1
    by_cases hk : k = 0
    · simp only [hi, hk, ht, and_self, if_true, hdeclared]
      simp [hpos]
    · simp [hi, hk, ht, Ne.symm hk]
  · simp [hi]

private theorem models_transfer {i : Nat} {step : Step} (hat : steps[i]? = some step)
    {held held' : String → Content} {locals : Locals layout.width}
    (hmodels : Models final.slots layout held locals)
    (hwritten : ∀ name, Writes b final.slots thisInit i step.instr name → held' name = .value)
    (hkept : ∀ name, ¬ Writes b final.slots thisInit i step.instr name → held' name = held name) :
    Models final.slots layout held' (transfer layout thisInit i step.instr locals) := by
  intro name slot hslot
  have hzero : thisInit = some i → (slot.toNat = 0 ↔ b.isReceiver name = true) := by
    intro hi
    rw [← h.receiver (h.initializesThis_of_thisInit hi) name slot hslot, ← UInt16.toNat_inj]
    rfl
  obtain ⟨l, hmem, -⟩ := (h.kinds.wellFormed.index name slot).mp hslot
  rw [h.getElem?_transfer]
  by_cases hw : Writes b final.slots thisInit i step.instr name
  · rw [hwritten name hw]
    refine ⟨Content.noConfusion, fun _ => ?_⟩
    split
    · rename_i hinit
      rw [hinit.2]
    · rename_i hinit
      rcases hw with ⟨kind, form, slot', hinstr, hslot', hform⟩ | ⟨hi, hreceiver⟩
      · rw [hslot] at hslot'
        cases hslot'
        obtain ⟨entry, hentry, hform', hkind⟩ := h.stores i step hat kind form hinstr
        have heq : slot.toNat = entry.2.toNat := hform.symm.trans hform'
        rw [hinstr, getElem?_applyStore h.kinds hentry hform' hkind, if_pos heq, heq,
          h.stored entry hentry kind hkind]
      · exact absurd ⟨hi, (hzero hi).mpr hreceiver⟩ hinit
  · have hsame : (applyStore layout locals step.instr)[slot.toNat]? = locals[slot.toNat]? := by
      cases hinstr : step.instr with
      | store kind form =>
        obtain ⟨entry, hentry, hform, hkind⟩ := h.stores i step hat kind form hinstr
        rw [getElem?_applyStore h.kinds hentry hform hkind, if_neg, if_neg]
        · rintro ⟨hwide, hnext⟩
          exact h.kinds.not_inside hentry hkind hwide hmem hnext
        · intro heq
          exact hw (.inl ⟨kind, form, slot, hinstr, hslot, hform.trans heq.symm⟩)
      | _ => rfl
    rw [hkept name hw, if_neg, hsame]
    · exact hmodels name slot hslot
    · rintro ⟨hi, hk⟩
      exact hw (.inr ⟨hi, (hzero hi).mp hk⟩)

end Models

def WrittenIn (b : Body) (slots : Slots) (steps : Array Step) (thisInit : Option Nat) (start k : Nat)
    (name : String) : Prop :=
  ∃ j < k, ∃ step, steps[start + j]? = some step ∧
    Writes b slots thisInit (start + j) step.instr name

open Classical in
/-- What locals hold behind the first `k` lines of a block. -/
noncomputable def heldIn (b : Body) (slots : Slots) (steps : Array Step) (thisInit : Option Nat)
    (start k : Nat) (held : String → Content) (name : String) : Content :=
  if WrittenIn b slots steps thisInit start k name then .value else held name

omit h in
private theorem heldIn_zero (start : Nat) (held : String → Content) :
    heldIn b final.slots steps thisInit start 0 held = held := by
  funext name
  rw [heldIn, if_neg]
  rintro ⟨j, hj, -⟩
  exact absurd hj (Nat.not_lt_zero j)

private theorem models_heldIn {start k : Nat} {step : Step} (hat : steps[start + k]? = some step)
    {held : String → Content} {locals : Locals layout.width}
    (hmodels : Models final.slots layout (heldIn b final.slots steps thisInit start k held) locals) :
    Models final.slots layout (heldIn b final.slots steps thisInit start (k + 1) held)
      (transfer layout thisInit (start + k) step.instr locals) := by
  refine h.models_transfer hat hmodels ?_ ?_
  · intro name hwrites
    rw [heldIn, if_pos]
    exact ⟨k, Nat.lt_succ_self k, step, hat, hwrites⟩
  · intro name hnot
    have hiff : WrittenIn b final.slots steps thisInit start (k + 1) name ↔
        WrittenIn b final.slots steps thisInit start k name := by
      constructor
      · rintro ⟨j, hj, step', hat', hwrites⟩
        rcases Nat.lt_succ_iff_lt_or_eq.mp hj with hj | rfl
        · exact ⟨j, hj, step', hat', hwrites⟩
        · rw [hat] at hat'
          cases hat'
          exact absurd hwrites hnot
      · rintro ⟨j, hj, rest⟩
        exact ⟨j, Nat.lt_succ_of_lt hj, rest⟩
    by_cases hwritten : WrittenIn b final.slots steps thisInit start k name
    · rw [heldIn, heldIn, if_pos (hiff.mpr hwritten), if_pos hwritten]
    · rw [heldIn, heldIn, if_neg (mt hiff.mp hwritten), if_neg hwritten]

private theorem writtenIn_block {n : Nat} {block : List Item} (hblock : blocks[n]? = some block)
    {st : Statement} (hst : b.statements[n]? = some st) {name : String} {slot : UInt16}
    (hslot : final.slots.index[name]? = some slot) :
    WrittenIn b final.slots steps thisInit (Lower.startLine before blocks n) (Item.lines block).length
        name ↔
      st.assigned?.any (·.name == name) = true ∨
        b.initializesAt owner m n st = true ∧ b.isReceiver name = true := by
  obtain ⟨st', hst', -, p, huses⟩ := h.exists_statement hblock
  rw [hst] at hst'
  cases hst'
  constructor
  · rintro ⟨j, hj, step, hat, ⟨kind, form, slot', hinstr, hslot', hform⟩ | ⟨hi, hreceiver⟩⟩
    · rw [hslot] at hslot'
      cases hslot'
      obtain ⟨step', hat', hresolves⟩ := h.exists_step hblock (List.getElem?_eq_getElem hj)
      rw [hat] at hat'
      cases hat'
      have hline : (Item.lines block)[j]? = some (.plain (.store kind form)) := by
        rw [List.getElem?_eq_getElem hj, hresolves.eq_plain (by rw [hinstr]; rfl), hinstr]
      obtain ⟨-, l, hl, kind', -, slot', hslot', hitem⟩ := huses.store j kind form hline
      cases hitem
      rw [SlotForm.slot_ofSlot] at hform
      -- the local that is assigned has the slot of the name, and so the name
      obtain ⟨e, he, hename⟩ := (h.kinds.wellFormed.index _ _).mp hslot
      obtain ⟨e', he', hename'⟩ := (h.kinds.wellFormed.index _ _).mp hslot'
      have heq := h.kinds.entry_eq he he' hform.symm
      cases heq
      left
      rw [Option.mem_def.mp hl]
      simp [← hename', hename]
    · exact .inr ⟨((h.thisInit_block hblock huses hj).mp hi).1, hreceiver⟩
  · rintro (hassigned | ⟨hinit, hreceiver⟩)
    · obtain ⟨l, hl, hname⟩ := (Option.any_eq_true ..).mp hassigned
      have hname : l.name = name := by simpa using hname
      obtain ⟨j, kind, form, hline, kind', -, slot', hslot', hitem⟩ := huses.assigned l hl
      cases hitem
      obtain ⟨step, hat, hresolves⟩ := h.exists_step hblock hline
      rw [hname, hslot] at hslot'
      cases hslot'
      refine ⟨j, (List.getElem?_eq_some_iff.mp hline).1, step, hat, .inl ⟨kind, _, slot, ?_, hslot,
        SlotForm.slot_ofSlot slot⟩⟩
      rw [show step = _ from hresolves]
    · have hinits : b.initializes owner m st = true := (Bool.and_eq_true_iff.mp hinit).1
      have hp : p < (Item.lines block).length := by
        have hthis : (Draft.ofItems block).thisInit = some p := by
          rw [huses.thisInit, hinits]
          rfl
        exact Draft.thisInit_lt hthis
      obtain ⟨step, hat, -⟩ := h.exists_step hblock (List.getElem?_eq_getElem hp)
      exact ⟨p, hp, step, hat, .inr ⟨(h.thisInit_block hblock huses hp).mpr ⟨hinit, rfl⟩, hreceiver⟩⟩

private theorem models_after {n : Nat} {block : List Item} (hblock : blocks[n]? = some block)
    {st : Statement}
    (hst : b.statements[n]? = some st) {held : String → Content} {locals : Locals layout.width}
    (hmodels : Models final.slots layout (heldIn b final.slots steps thisInit
      (Lower.startLine before blocks n) (Item.lines block).length held) locals) :
    Models final.slots layout (b.after owner m n st held) locals := by
  intro name slot hslot
  have hafter : heldIn b final.slots steps thisInit (Lower.startLine before blocks n)
      (Item.lines block).length held name = b.after owner m n st held name := by
    simp only [heldIn, Body.after, h.writtenIn_block hblock hst hslot, Bool.or_eq_true,
      Bool.and_eq_true]
  rw [← hafter]
  exact hmodels name slot hslot

private theorem models_branch {n k : Nat} {block : List Item} (hblock : blocks[n]? = some block)
    {st : Statement}
    (hst : b.statements[n]? = some st) {label : Label} (htarget : st.target? = some label)
    (hk : k ≤ (Item.lines block).length) {held : String → Content} {locals : Locals layout.width}
    (hmodels : Models final.slots layout (heldIn b final.slots steps thisInit
      (Lower.startLine before blocks n) k held) locals) :
    Models final.slots layout (b.after owner m n st held) locals := by
  have hnone : st.assigned? = none ∧ b.initializes owner m st = false := by
    cases st <;> first | exact ⟨rfl, rfl⟩ | cases htarget
  have hafter : b.after owner m n st held = held := by
    funext name
    simp [Body.after, Body.initializesAt, hnone.1, hnone.2]
  rw [hafter]
  intro name slot hslot
  have hheld : heldIn b final.slots steps thisInit (Lower.startLine before blocks n) k held name =
      held name := by
    rw [heldIn, if_neg]
    rintro ⟨j, hj, rest⟩
    have hwritten := (h.writtenIn_block hblock hst hslot).mp ⟨j, Nat.lt_of_lt_of_le hj hk, rest⟩
    simp [Body.initializesAt, hnone.1, hnone.2] at hwritten
  rw [← hheld]
  exact hmodels name slot hslot

/-- Where a path through the code stands: in the code before the statements, in that of a statement which
a path through the body reaches, or behind the statements. -/
inductive Stands (owner : ClassDecl) (m : MethodDecl) (b : Body) (slots : Slots) (layout : Layout)
    (steps : Array Step) (thisInit : Option Nat) (before : List Item) (blocks : List (List Item))
    (locals : Locals layout.width) : Nat → Prop where
  | chained {i : Nat} (inside : i < (Item.lines before).length) (entry : locals = layout.entry) :
      Stands owner m b slots layout steps thisInit before blocks locals i
  | within {n k : Nat} {block : List Item} {held : String → Content} (at_ : blocks[n]? = some block)
      (inside : k < (Item.lines block).length) (reaches : Body.Reaches owner m b n held)
      (models : Models slots layout
        (heldIn b slots steps thisInit (Lower.startLine before blocks n) k held) locals) :
      Stands owner m b slots layout steps thisInit before blocks locals
        (Lower.startLine before blocks n + k)
  | behind {i : Nat} (behind : Lower.startLine before blocks blocks.length ≤ i) :
      Stands owner m b slots layout steps thisInit before blocks locals i

/-- A path that comes to a statement stands in its code, or in that of a later one if there are only
marks in between. -/
theorem stands_start {n : Nat} {held : String → Content} {locals : Locals layout.width}
    (hn : n ≤ blocks.length) (hreaches : Body.Reaches owner m b n held)
    (hmodels : Models final.slots layout held locals) :
    Stands owner m b final.slots layout steps thisInit before blocks locals
      (Lower.startLine before blocks n) := by
  induction hrest : blocks.length - n generalizing n held with
  | zero =>
    have heq : n = blocks.length := by omega
    rw [heq]
    exact .behind (Nat.le_refl _)
  | succ rest ih =>
    have hlt : n < blocks.length := by omega
    have hblock : blocks[n]? = some blocks[n] := List.getElem?_eq_getElem hlt
    obtain ⟨st, hst, hemits, -⟩ := h.exists_statement hblock
    by_cases hnil : Item.lines blocks[n] = []
    · have hmark : ∃ label, st = .mark label := by
        cases hmarked : st.marked? with
        | none => exact absurd hnil (hemits.lines_ne_nil hmarked)
        | some label => cases st <;> first | exact ⟨_, rfl⟩ | cases hmarked
      obtain ⟨label, rfl⟩ := hmark
      have hafter : b.after owner m n (.mark label) held = held := by
        funext name
        simp [Body.after, Body.initializesAt, Body.initializes, Statement.assigned?]
      have hnext := hreaches.next (k := n + 1) hst
        (by simp [Body.successors, Statement.target?, Statement.passesOn])
      rw [hafter] at hnext
      have hstands := ih (by omega) hnext hmodels (by omega)
      rw [Lower.startLine_succ hblock, hnil] at hstands
      exact hstands
    · refine .within (k := 0) hblock (List.length_pos_iff.mpr hnil) hreaches ?_
      rw [heldIn_zero]
      exact hmodels

private theorem chain_cases :
    (before = [] ∧ (m.initializesThis = true →
        Lower.startsWithConstructor owner b = true ∨ owner.super.isNone = true)) ∨
      (∃ index, before = [.op (.loadSlot .reference 0), .initThis (.invokeSpecial index)]) ∧
        m.initializesThis = true ∧ Lower.startsWithConstructor owner b = false ∧
        owner.super.isNone = false := by
  have hchains := h.chains
  unfold Lower.Chains at hchains
  split at hchains
  · rename_i hinit
    obtain ⟨hinit, hstarts⟩ := Bool.and_eq_true_iff.mp hinit
    split at hchains
    · rename_i hsuper
      exact .inl ⟨hchains, fun _ => .inr (by rw [hsuper]; rfl)⟩
    · rename_i super hsuper
      obtain ⟨index, -, hbefore⟩ := hchains
      exact .inr ⟨⟨index, hbefore⟩, hinit, by simpa using hstarts, by rw [hsuper]; rfl⟩
  · rename_i hinit
    refine .inl ⟨hchains, fun hthis => .inl ?_⟩
    simpa [hthis] using hinit

private theorem line_chained {i : Nat} (hi : i < (Item.lines before).length) {line : Line}
    (hline : (Item.lines (before ++ blocks.flatten ++ ending))[i]? = some line) :
    ∃ index, before = [.op (.loadSlot .reference 0), .initThis (.invokeSpecial index)] ∧
      (i = 0 ∧ line = .plain (.loadSlot .reference 0) ∨
        i = 1 ∧ line = .plain (.invokeSpecial index)) := by
  rcases h.chain_cases with ⟨hnil, -⟩ | ⟨⟨index, hchain⟩, -⟩
  · rw [hnil] at hi
    exact absurd hi (Nat.not_lt_zero i)
  · refine ⟨index, hchain, ?_⟩
    rw [Item.lines_append, Item.lines_append, List.append_assoc, List.getElem?_append_left hi,
      hchain] at hline
    match i, hline with
    | 0, hline => exact .inl ⟨rfl, (Option.some.inj hline).symm⟩
    | 1, hline => exact .inr ⟨rfl, (Option.some.inj hline).symm⟩

private theorem line_behind {i : Nat} (hi : Lower.startLine before blocks blocks.length ≤ i) {line : Line}
    (hline : (Item.lines (before ++ blocks.flatten ++ ending))[i]? = some line) :
    line = .plain .returnVoid := by
  obtain ⟨k, rfl⟩ := Nat.exists_eq_add_of_le hi
  rw [Lower.lines_ending] at hline
  rcases h.ends with ⟨-, rfl⟩ | ⟨-, -, rfl⟩
  · cases hline
  · cases k with
    | zero => exact (Option.some.inj hline).symm
    | succ k => cases hline

omit h in
private theorem name_of_parameter {name : String} (hname : b.parameters.any (·.name == name) = true) :
    ∃ l ∈ b.parameters, l.name = name := by
  obtain ⟨l, hl, hname⟩ := List.any_eq_true.mp hname
  exact ⟨l, hl, by simpa using hname⟩

private theorem models_initial (hbefore : before = []) :
    Models final.slots layout (b.initial owner m) layout.entry := by
  intro name slot hslot
  rcases h.chain_cases with ⟨-, hchain⟩ | ⟨⟨index, hchain⟩, -⟩
  · unfold Body.initial
    split
    · rename_i hparameter
      obtain ⟨l, hl, rfl⟩ := name_of_parameter hparameter
      split
      · rename_i hraw
        simp only [Body.startsRaw, Bool.and_eq_true] at hraw
        obtain ⟨hreceiver, hthis, -⟩ := hraw
        rw [(h.receiver hthis _ slot hslot).mpr hreceiver]
        exact ⟨fun _ => h.raw hthis, Content.noConfusion⟩
      · rename_i hraw
        refine ⟨Content.noConfusion, fun _ => h.parameters l hl slot hslot fun hthis hzero => ?_⟩
        have hreceiver := (h.receiver hthis _ slot hslot).mp hzero
        rcases hchain hthis with hstarts | hnone
        · simp [Body.startsRaw, hreceiver, hthis, hstarts] at hraw
        · simp [Body.startsRaw, hreceiver, hthis, hnone] at hraw
    · exact ⟨Content.noConfusion, Content.noConfusion⟩
  · rw [hbefore] at hchain
    cases hchain

section Chained

variable {index : UInt16}
  (hbefore : before = [.op (.loadSlot .reference 0), .initThis (.invokeSpecial index)])
include hbefore

private theorem thisInit_chained :
    thisInit ≠ some 0 ∧
      (thisInit = some 1 ↔ b.statements.any (b.initializes owner m) = false) := by
  have hthis : (Draft.ofItems before).thisInit = some 1 := by
    rw [hbefore]
    rfl
  have hlength : (Item.lines before).length = 2 := by
    rw [hbefore]
    rfl
  rw [h.thisInit, List.append_assoc, Draft.thisInit_append, hthis, hlength,
    ← List.drop_zero (l := b.statements), ← h.thisInit_drop, List.drop_zero]
  cases (Draft.ofItems (blocks.flatten ++ ending)).thisInit with
  | none => simp
  | some t => simp; omega

private theorem models_chained :
    Models final.slots layout (b.initial owner m)
      (transfer layout thisInit 1 (.invokeSpecial index) layout.entry) := by
  intro name slot hslot
  rcases h.chain_cases with ⟨hnil, -⟩ | ⟨-, hthis, hstarts, hsuper⟩
  · rw [hbefore] at hnil
    cases hnil
  have hzero := h.receiver hthis name slot hslot
  have hraw : b.startsRaw owner m = b.statements.any (b.initializes owner m) := by
    simp [Body.startsRaw, hthis, hstarts, hsuper]
  have hinit := (h.thisInit_chained hbefore).2
  rw [← hraw] at hinit
  rw [h.getElem?_transfer]
  unfold Body.initial
  split
  · rename_i hparameter
    obtain ⟨l, hl, rfl⟩ := name_of_parameter hparameter
    split
    · rename_i hstartsRaw
      obtain ⟨hreceiver, hstartsRaw⟩ := Bool.and_eq_true_iff.mp hstartsRaw
      refine ⟨fun _ => ?_, Content.noConfusion⟩
      rw [if_neg, hzero.mpr hreceiver]
      · exact h.raw hthis
      · rintro ⟨hone, -⟩
        rw [hinit.mp hone] at hstartsRaw
        cases hstartsRaw
    · rename_i hstartsRaw
      refine ⟨Content.noConfusion, fun _ => ?_⟩
      split
      · rename_i hset
        rw [hset.2]
      · rename_i hset
        refine h.parameters l hl slot hslot fun _ hslotZero => hset ⟨hinit.mpr ?_, ?_⟩
        · simpa [hzero.mp hslotZero] using hstartsRaw
        · rw [hslotZero]
          rfl
  · exact ⟨Content.noConfusion, Content.noConfusion⟩

end Chained

theorem passesOn_of_falls {n k : Nat} {block : List Item} (hblock : blocks[n]? = some block)
    {st : Statement} (hst : b.statements[n]? = some st) (hlast : k + 1 = (Item.lines block).length)
    {step : Step} (hat : steps[Lower.startLine before blocks n + k]? = some step)
    (hfalls : step.falls = true) : st.passesOn = true := by
  obtain ⟨st', hst', hemits, -⟩ := h.exists_statement hblock
  rw [hst] at hst'
  cases hst'
  have hk : k < (Item.lines block).length := by omega
  have hline : (Item.lines block)[k]? = some _ := List.getElem?_eq_getElem hk
  obtain ⟨step', hat', hresolves⟩ := h.exists_step hblock hline
  rw [hat] at hat'
  cases hat'
  apply Classical.byContradiction
  intro hnot
  rcases hemits.last_line (by simpa using hnot) hline hlast with ⟨label, hbranch⟩ | ⟨instr, hplain, hends⟩
  · rw [hbranch] at hresolves
    obtain ⟨target, -, -, -, -, rfl⟩ := hresolves
    simp [Step.falls, Instr.isGoto] at hfalls
  · rw [hplain] at hresolves
    rw [show step = { instr } from hresolves] at hfalls
    simp [Step.falls, hends] at hfalls

private theorem target_block {n k j : Nat} {block : List Item} (hblock : blocks[n]? = some block)
    {st : Statement} (hst : b.statements[n]? = some st) (hk : k < (Item.lines block).length) {step : Step}
    (hat : steps[Lower.startLine before blocks n + k]? = some step) (htarget : step.target = some j) :
    ∃ label position, st.target? = some label ∧ b.position? label = some position ∧
      j = Lower.startLine before blocks position := by
  obtain ⟨st', hst', hemits, -⟩ := h.exists_statement hblock
  rw [hst] at hst'
  cases hst'
  have hline : (Item.lines block)[k]? = some _ := List.getElem?_eq_getElem hk
  obtain ⟨step', hat', hresolves⟩ := h.exists_step hblock hline
  rw [hat] at hat'
  cases hat'
  cases hfound : (Item.lines block)[k] with
  | plain instr =>
    rw [hfound] at hresolves
    rw [show step = { instr } from hresolves] at htarget
    cases htarget
  | branch when label =>
    rw [hfound] at hresolves hline
    obtain ⟨target, hplaced, -, -, -, rfl⟩ := hresolves
    cases htarget
    rw [Lower.placed_eq_position? h.emits h.labels h.chains.plain h.ends.plain,
      Option.map_eq_some_iff] at hplaced
    obtain ⟨position, hposition, rfl⟩ := hplaced
    obtain ⟨item, hitem, hbranch⟩ := List.mem_filterMap.mp (List.mem_of_getElem? hline)
    refine ⟨label, position, ?_, hposition, rfl⟩
    rcases hemits.belongs item hitem with ⟨instr, -, rfl | rfl⟩ | ⟨when', label', rfl, hlabel⟩ |
      ⟨label', rfl, -⟩
    · cases hbranch
    · cases hbranch
    · cases hbranch
      exact hlabel
    · cases hbranch

private theorem stands_next_chained {i j : Nat} {step : Step} (hi : i < (Item.lines before).length)
    (hat : steps[i]? = some step) (hfollows : j ∈ successors i step) :
    Stands owner m b final.slots layout steps thisInit before blocks
      (transfer layout thisInit i step.instr layout.entry) j := by
  obtain ⟨line, hline, hresolves⟩ := resolves_line h.resolve hat
  obtain ⟨index, hchain, ⟨rfl, rfl⟩ | ⟨rfl, rfl⟩⟩ := h.line_chained hi hline
  · rw [show step = { instr := Instr.loadSlot .reference 0 } from hresolves] at hfollows ⊢
    have hj : j = 1 := List.mem_singleton.mp hfollows
    have hsame : transfer layout thisInit 0 (.loadSlot .reference 0) layout.entry = layout.entry := by
      rw [transfer, if_neg (h.thisInit_chained hchain).1]
      rfl
    rw [hsame, hj]
    refine .chained ?_ rfl
    rw [hchain]
    exact Nat.one_lt_two
  · rw [show step = { instr := Instr.invokeSpecial index } from hresolves] at hfollows ⊢
    have hj : j = Lower.startLine before blocks 0 := by
      rw [List.mem_singleton.mp hfollows, Lower.startLine, hchain]
      rfl
    rw [hj]
    exact h.stands_start (Nat.zero_le _) .start (h.models_chained hchain)

/-- From a line of a statement control branches to where the statement does, passes to the next line, or
passes on behind the statement. -/
theorem stands_next_within {n k j : Nat} {block : List Item} {held : String → Content}
    {locals : Locals layout.width} {step : Step} (hblock : blocks[n]? = some block)
    (hk : k < (Item.lines block).length) (hreach : Body.Reaches owner m b n held)
    (hmodels : Models final.slots layout
      (heldIn b final.slots steps thisInit (Lower.startLine before blocks n) k held) locals)
    (hat : steps[Lower.startLine before blocks n + k]? = some step)
    (hfollows : j ∈ successors (Lower.startLine before blocks n + k) step) :
    Stands owner m b final.slots layout steps thisInit before blocks
      (transfer layout thisInit (Lower.startLine before blocks n + k) step.instr locals) j := by
  obtain ⟨st, hst, -⟩ := h.exists_statement hblock
  have hmodels := h.models_heldIn hat hmodels
  have hn : n < blocks.length := (List.getElem?_eq_some_iff.mp hblock).1
  rcases mem_successors.mp hfollows with htarget | ⟨hfalls, rfl⟩
  · obtain ⟨label, position, hlabel, hposition, rfl⟩ := h.target_block hblock hst hk hat htarget
    have hle : position ≤ blocks.length := by
      have hmarked := Body.marked_of_position? hposition
      rw [← h.emits.length_eq]
      exact Nat.le_of_lt (List.getElem?_eq_some_iff.mp hmarked).1
    refine h.stands_start hle (hreach.next hst ?_) (h.models_branch hblock hst hlabel hk hmodels)
    simp [Body.successors, hlabel, hposition]
  · by_cases hend : k + 1 < (Item.lines block).length
    · exact .within hblock hend hreach hmodels
    · have hlast : k + 1 = (Item.lines block).length := by omega
      have hpasses := h.passesOn_of_falls hblock hst hlast hat hfalls
      rw [hlast] at hmodels
      have hstands := h.stands_start hn
        (hreach.next hst (by simp [Body.successors, hpasses])) (h.models_after hblock hst hmodels)
      rw [Lower.startLine_succ hblock, ← hlast] at hstands
      exact hstands

/-- Paths through the code follow paths through the body. -/
theorem stands {i : Nat} {locals : Locals layout.width}
    (hreaches : Reaches steps layout thisInit i locals) :
    Stands owner m b final.slots layout steps thisInit before blocks locals i := by
  induction hreaches with
  | start hpos =>
    rcases h.chain_cases with ⟨hnil, -⟩ | ⟨⟨index, hchain⟩, -⟩
    · have hstart : Lower.startLine before blocks 0 = 0 := by
        rw [Lower.startLine, hnil]
        rfl
      rw [← hstart]
      exact h.stands_start (Nat.zero_le _) .start (h.models_initial hnil)
    · refine .chained ?_ rfl
      rw [hchain]
      exact Nat.zero_lt_succ 1
  | @next i j step locals reaches hat hfollows inside ih =>
    cases ih with
    | chained hi hentry => exact hentry ▸ h.stands_next_chained hi hat hfollows
    | within hblock hk hreach hmodels =>
      exact h.stands_next_within hblock hk hreach hmodels hat hfollows
    | behind hi =>
      obtain ⟨line, hline, hresolves⟩ := resolves_line h.resolve hat
      rw [h.line_behind hi hline] at hresolves
      rw [show step = { instr := Instr.returnVoid } from hresolves] at hfollows
      cases hfollows

private theorem heldIn_of_le {n k p : Nat} {block : List Item} (hblock : blocks[n]? = some block)
    {st : Statement} (huses : Lower.UsesSlots final st (b.initializes owner m st) block p)
    (hk : k < (Item.lines block).length) (hkp : k ≤ p) (held : String → Content) :
    heldIn b final.slots steps thisInit (Lower.startLine before blocks n) k held = held := by
  funext name
  rw [heldIn, if_neg]
  rintro ⟨j, hj, step, hat, ⟨kind, form, slot, hinstr, -⟩ | ⟨hi, -⟩⟩
  · have hjlt : j < (Item.lines block).length := Nat.lt_trans hj hk
    obtain ⟨step', hat', hresolves⟩ := h.exists_step hblock (List.getElem?_eq_getElem hjlt)
    rw [hat] at hat'
    cases hat'
    have hstore : (Item.lines block)[j]? = some (.plain (.store kind form)) := by
      rw [List.getElem?_eq_getElem hjlt, hresolves.eq_plain (by rw [hinstr]; rfl), hinstr]
    exact absurd (Nat.lt_of_lt_of_le hj hkp) (Nat.not_lt.mpr (huses.store j kind form hstore).1)
  · have heq := ((h.thisInit_block hblock huses (Nat.lt_trans hj hk)).mp hi).2
    omega

private theorem exists_held {n k p : Nat} {block : List Item} (hblock : blocks[n]? = some block)
    {st : Statement} (huses : Lower.UsesSlots final st (b.initializes owner m st) block p)
    (hk : k < (Item.lines block).length) (hkp : k ≤ p) {locals : Locals layout.width}
    (hlocals : Reaches steps layout thisInit (Lower.startLine before blocks n + k) locals) :
    ∃ held, Body.Reaches owner m b n held ∧ Models final.slots layout held locals := by
  generalize hline : Lower.startLine before blocks n + k = line at hlocals
  cases h.stands hlocals with
  | chained hinside _ =>
    have hle := Lower.startLine_mono before blocks (Nat.zero_le n)
    rw [Lower.startLine, List.take_zero, List.flatten_nil, List.append_nil] at hle
    omega
  | @within n' k' block' held hblock' hk' hreach hmodels =>
    obtain ⟨rfl, rfl⟩ := Lower.block_unique hblock hk hblock' hk' hline
    rw [h.heldIn_of_le hblock huses hk hkp] at hmodels
    exact ⟨held, hreach, hmodels⟩
  | behind hbehind =>
    have hle : Lower.startLine before blocks (n + 1) ≤ Lower.startLine before blocks blocks.length :=
      Lower.startLine_mono before blocks (List.getElem?_eq_some_iff.mp hblock).1
    rw [Lower.startLine_succ hblock] at hle
    omega

private theorem lt_of_thisInit {i : Nat} (hinit : thisInit = some i) :
    i < Lower.startLine before blocks blocks.length := by
  have hnone := (h.thisInit_drop blocks.length).mpr (by
    rw [← h.emits.length_eq, List.drop_length]
    rfl)
  rw [List.drop_length, List.flatten_nil, List.nil_append] at hnone
  have hfront := h.thisInit
  rw [Draft.thisInit_append, hnone, Option.map_none, Option.none_or, hinit] at hfront
  rw [Lower.startLine, List.take_length]
  exact Draft.thisInit_lt hfront.symm

private theorem exists_receiver_read {st : Statement} {block : List Item}
    (hemits : Lower.Emits ⟨owner, m, Std.HashSet.ofList b.labels⟩ final st block)
    (hinits : b.initializes owner m st = true) :
    ∃ l ∈ st.reads, final.slots.index[l.name]? = some 0 := by
  cases st with
  | invoke symbol receiver arguments result isSuper =>
    cases receiver with
    | none => cases hinits
    | some object =>
      simp only [Body.initializes, Bool.and_eq_true, Bool.not_eq_true'] at hinits
      obtain ⟨⟨⟨hstatic, hthis⟩, -⟩, hreceiver⟩ := hinits
      simp only [Lower.Emits, hstatic, Bool.false_eq_true, if_false] at hemits
      obtain ⟨_, hobject, slot, hslot, -⟩ := hemits
      cases hobject
      refine ⟨object, by simp [Statement.reads, hstatic], ?_⟩
      rw [hslot, (h.receiver hthis _ slot hslot).mpr hreceiver]
  | _ => cases hinits

section Known

variable (hassigned : b.DefinitelyAssigned owner m) {i : Nat} {state : Locals layout.width}
  (hstate : localsAt? (analyze steps layout thisInit) i = some state)
include hstate

omit h in
/-- A type on which all paths agree is known. -/
theorem known_of_paths {k : Nat} {t : VerificationType}
    (hpaths : ∀ locals, Reaches steps layout thisInit i locals → locals[k]? = some t) :
    known state k = t.kind? := by
  obtain ⟨⟨path, hpath⟩, hslots⟩ := justified_of_localsAt? hstate
  have hk : k < layout.width := (Vector.getElem?_eq_some_iff.mp (hpaths path hpath)).1
  have hget : ∀ locals, Reaches steps layout thisInit i locals → locals[k] = t := fun locals hlocals =>
    (Vector.getElem?_eq_some_iff.mp (hpaths locals hlocals)).2
  have hat : state[k] = t := by
    rcases hslots k hk with ⟨locals, hlocals, heq⟩ | ⟨-, one, other, hone, hother, hdiffer⟩
    · rw [← heq, hget locals hlocals]
    · exact absurd ((hget one hone).trans (hget other hother).symm) hdiffer
  rw [known, Vector.getElem?_eq_getElem hk, hat]
  rfl

private theorem known_chained (hi : i < (Item.lines before).length) : known state 0 ≠ none := by
  have hthis : m.initializesThis = true := by
    rcases h.chain_cases with ⟨hnil, -⟩ | ⟨-, hthis, -⟩
    · rw [hnil] at hi
      exact absurd hi (Nat.not_lt_zero i)
    · exact hthis
  rw [known_of_paths hstate (t := .uninitializedThis) fun locals hlocals => ?_]
  · simp [VerificationType.kind?]
  · rw [← h.raw hthis]
    cases h.stands hlocals with
    | chained _ hentry => rw [hentry]
    | @within n k block held hblock hk hreach hmodels =>
      have hle := Lower.startLine_mono before blocks (Nat.zero_le n)
      simp only [Lower.startLine, List.take_zero, List.flatten_nil, List.append_nil] at hle hi
      omega
    | behind hbehind =>
      have hle := Lower.startLine_mono before blocks (Nat.zero_le blocks.length)
      simp only [Lower.startLine, List.take_zero, List.flatten_nil, List.append_nil] at hle hbehind
      omega

include hassigned

omit hstate in
private theorem known_of_reads {n k p : Nat} {block : List Item} (hblock : blocks[n]? = some block)
    {st : Statement} (hst : b.statements[n]? = some st)
    (huses : Lower.UsesSlots final st (b.initializes owner m st) block p)
    (hk : k < (Item.lines block).length) (hkp : k ≤ p) {l : Local} (hl : l ∈ st.reads) {slot : UInt16}
    (hslot : final.slots.index[l.name]? = some slot)
    (hstate : localsAt? (analyze steps layout thisInit) (Lower.startLine before blocks n + k) =
      some state) : known state slot.toNat ≠ none := by
  obtain ⟨entry, hentry, -⟩ := (h.kinds.wellFormed.index _ _).mp hslot
  obtain ⟨v, hv, hkind⟩ := h.kinds.declared _ hentry
  have hvalued : v.kind? ≠ none := by
    obtain ⟨kind, hkind', -⟩ := JavaType.exists_kind? (h.kinds.valued _ hentry)
    rw [hkind, hkind']
    simp
  obtain ⟨content, hne, hheld⟩ := hassigned n st hst l hl
  have hpaths : ∀ locals, Reaches steps layout thisInit (Lower.startLine before blocks n + k) locals →
      ∃ held, held l.name = content ∧ Models final.slots layout held locals := by
    intro locals hlocals
    obtain ⟨held, hreach, hmodels⟩ := h.exists_held hblock huses hk hkp hlocals
    exact ⟨held, hheld held hreach, hmodels⟩
  cases content with
  | nothing => exact absurd rfl hne
  | raw =>
    rw [known_of_paths hstate (t := .uninitializedThis) fun locals hlocals => ?_]
    · simp [VerificationType.kind?]
    · obtain ⟨held, hcontent, hmodels⟩ := hpaths locals hlocals
      exact (hmodels l.name slot hslot).1 hcontent
  | value =>
    rw [known_of_paths hstate (t := v) fun locals hlocals => ?_]
    · exact hvalued
    · obtain ⟨held, hcontent, hmodels⟩ := hpaths locals hlocals
      rw [(hmodels l.name slot hslot).2 hcontent, hv]

theorem known_of_load {step : Step} (hat : steps[i]? = some step) {kind : Kind} {form : SlotForm}
    (hinstr : step.instr = .load kind form) : known state form.slot ≠ none := by
  obtain ⟨⟨path, hpath⟩, -⟩ := justified_of_localsAt? hstate
  obtain ⟨line, hline, hresolves⟩ := resolves_line h.resolve hat
  rw [hresolves.eq_plain (by rw [hinstr]; rfl), hinstr] at hline
  cases h.stands hpath with
  | chained hinside _ =>
    have hslot : form.slot = 0 := by
      obtain ⟨index, -, ⟨-, hload⟩ | ⟨-, hcall⟩⟩ := h.line_chained hinside hline
      · cases hload
        rfl
      · cases hcall
    rw [hslot]
    exact h.known_chained hstate hinside
  | @within n k block held hblock hk hreach hmodels =>
    obtain ⟨st, hst, -, p, huses⟩ := h.exists_statement hblock
    have hline' : (Item.lines block)[k]? = some (.plain (.load kind form)) := by
      have hget : (Item.lines (before ++ blocks.flatten ++ ending))[_]? = _ :=
        Lower.lines_block hblock (List.getElem?_eq_getElem hk)
      rw [hline] at hget
      rw [List.getElem?_eq_getElem hk, ← hget]
    obtain ⟨hkp, l, hl, slot, hslot, kind', -, hitem⟩ := huses.load k kind form hline'
    cases hitem
    rw [SlotForm.slot_ofSlot]
    exact h.known_of_reads hassigned hblock hst huses hk (Nat.le_of_lt hkp) hl hslot hstate
  | behind hbehind =>
    cases h.line_behind hbehind hline

/-- Where the receiver is initialized it is known, and nothing is stored. -/
theorem known_of_thisInit {step : Step} (hat : steps[i]? = some step) (hinit : thisInit = some i) :
    (∀ kind form, step.instr ≠ .store kind form) ∧ known state 0 ≠ none := by
  obtain ⟨⟨path, hpath⟩, -⟩ := justified_of_localsAt? hstate
  obtain ⟨line, hline, hresolves⟩ := resolves_line h.resolve hat
  cases h.stands hpath with
  | chained hinside _ =>
    refine ⟨?_, h.known_chained hstate hinside⟩
    obtain ⟨index, hchain, ⟨rfl, -⟩ | ⟨-, rfl⟩⟩ := h.line_chained hinside hline
    · exact absurd hinit (h.thisInit_chained hchain).1
    · rw [show step = _ from hresolves]
      exact fun _ _ => Instr.noConfusion
  | @within n k block held hblock hk hreach hmodels =>
    obtain ⟨st, hst, hemits, p, huses⟩ := h.exists_statement hblock
    obtain ⟨hat', rfl⟩ := (h.thisInit_block hblock huses hk).mp hinit
    have hinits : b.initializes owner m st = true := (Bool.and_eq_true_iff.mp hat').1
    obtain ⟨instr, hoperation, hcall⟩ := huses.call hinits
    have hplain : line = .plain instr := by
      have hget : (Item.lines (before ++ blocks.flatten ++ ending))[_]? = _ :=
        Lower.lines_block hblock hcall
      rw [hline] at hget
      exact Option.some.inj hget
    rw [hplain] at hresolves
    refine ⟨fun kind form heq => ?_, ?_⟩
    · rw [show step = { instr } from hresolves] at heq
      rw [show instr = _ from heq] at hoperation
      cases hoperation
    · obtain ⟨l, hl, hslot⟩ := h.exists_receiver_read hemits hinits
      exact h.known_of_reads hassigned hblock hst huses hk (Nat.le_refl _) hl hslot hstate
  | behind hbehind => exact absurd (h.lt_of_thisInit hinit) (Nat.not_lt.mpr hbehind)

end Known

end Setting

end Flow

end Classwright
