import Classwright.Proofs.FrameMap
import Classwright.Proofs.LocalSlots

/-!
# Slots and the locals of frames determine each other

A frame lists wide values once and leaves out what is unknown at its end.  Where every wide value has
the slot behind it to itself, the list still says what is in all slots, and nowhere else.  The locals
of a method lie side by side and are stored in their own slots only, so this is the case in every
state that the analysis of its code finds.
-/

namespace Classwright

section Fill

variable {slots : List VerificationType}

/-- The types in `n` slots of which a frame lists the given locals; nothing is known of the others. -/
def fill (n : Nat) (locals : List VerificationType) : List VerificationType :=
  (spread locals).rightpad n .top

theorem spaced_replicate_top (n : Nat) : Spaced (List.replicate n .top) := by
  intro k t ht hwide
  rw [List.getElem?_replicate] at ht
  split at ht
  · cases ht
    cases hwide
  · cases ht

theorem Spaced.cons {t : VerificationType} (h : Spaced slots)
    (hwide : t.isWide = true → slots[0]? = some .top) : Spaced (t :: slots) := by
  intro k u hu huwide
  cases k with
  | zero =>
    cases hu
    exact hwide huwide
  | succ k => exact h k u hu huwide

private theorem spaced_spread (locals : List VerificationType) (n : Nat) :
    Spaced (spread locals ++ List.replicate n .top) := by
  fun_induction spread locals with
  | case1 => exact spaced_replicate_top n
  | case2 t rest hwide ih => exact (ih.cons (by simp [VerificationType.isWide])).cons fun _ => rfl
  | case3 t rest hnarrow ih => exact ih.cons fun hwide => absurd hwide hnarrow

/-- The slots are read back from the locals of their frame just if they are spaced. -/
theorem fill_frameLocals_iff : fill slots.length (frameLocals slots) = slots ↔ Spaced slots := by
  constructor
  · intro h
    have hspaced := spaced_spread (frameLocals slots) (slots.length - (spread (frameLocals slots)).length)
    rwa [show spread (frameLocals slots) ++ _ = slots from h] at hspaced
  · intro h
    obtain ⟨n, hn⟩ := exists_spread_frameLocals h
    have hlength := congrArg List.length hn
    rw [List.length_append, List.length_replicate] at hlength
    rw [fill, List.rightpad, show slots.length - (spread (frameLocals slots)).length = n by omega]
    exact hn.symm

example : fill 5 (frameLocals [.long, .top, .integer, .top, .top]) = [.long, .top, .integer, .top, .top] :=
  rfl

private theorem Spaced.eq_of_frameLocals_eq {other : List VerificationType} (h : Spaced slots)
    (hother : Spaced other) (hlength : slots.length = other.length)
    (hframes : frameLocals slots = frameLocals other) : slots = other := by
  rw [← fill_frameLocals_iff.mpr h, hframes, hlength, fill_frameLocals_iff.mpr hother]

end Fill

namespace Lower

variable {final : Lowering} {owner : ClassDecl} {m : MethodDecl} {b : Body} {fields : List Initializer}

theorem Touches.exists_performs {uses : List LocalUse} {items : List Item} (h : Touches final uses items)
    {item : Item} (hitem : item ∈ items) {access : SlotAccess} (haccess : item.slotAccess? = some access) :
    ∃ use ∈ uses, Performs final use access := by
  induction h with
  | nil => cases hitem
  | load pushes _ ih =>
    rcases List.mem_cons.mp hitem with rfl | hitem
    · obtain ⟨slot, hslot, kind, hkind, rfl⟩ := pushes
      cases haccess
      exact ⟨_, List.mem_cons_self, rfl, hkind, slot, hslot, SlotForm.slot_ofSlot slot⟩
    · obtain ⟨use, huse, hperforms⟩ := ih hitem
      exact ⟨use, List.mem_cons_of_mem _ huse, hperforms⟩
  | store pops _ ih =>
    rcases List.mem_cons.mp hitem with rfl | hitem
    · obtain ⟨kind, hkind, slot, hslot, rfl⟩ := pops
      cases haccess
      exact ⟨_, List.mem_cons_self, rfl, hkind, slot, hslot, SlotForm.slot_ofSlot slot⟩
    · obtain ⟨use, huse, hperforms⟩ := ih hitem
      exact ⟨use, List.mem_cons_of_mem _ huse, hperforms⟩
  | other silent _ ih =>
    rcases List.mem_cons.mp hitem with rfl | hitem
    · rw [silent] at haccess
      cases haccess
    · exact ih hitem

private theorem Chains.not_isStore {items : List Item} (h : Chains owner m b final items) {item : Item}
    (hitem : item ∈ items) {access : SlotAccess} (haccess : item.slotAccess? = some access) :
    access.isStore = false := by
  rcases h.eq_nil_or with rfl | ⟨-, index, -, -, -, -, rfl⟩
  · cases hitem
  · rcases List.mem_pair.mp hitem with rfl | rfl
    · cases haccess
      rfl
    · cases haccess

private theorem EmitsBody.exists_performs {items : List Item} (h : EmitsBody owner m b fields final items)
    {item : Item} (hitem : item ∈ items) {access : SlotAccess} (haccess : item.slotAccess? = some access)
    (hstore : access.isStore = true) : ∃ use, use.target ∈ b.locals ∧ Performs final use access := by
  obtain ⟨parts, hparts, rfl⟩ := h.exists_parts
  simp only [Parts.all, List.cons_append, List.flatten_cons, List.flatten_append, List.flatten_nil,
    List.append_nil, List.mem_append] at hitem
  rcases hitem with hitem | (hitem | hitem) | hitem
  · rw [hparts.chained.not_isStore hitem haccess] at hstore
    cases hstore
  · obtain ⟨part, hpart, hitem⟩ := List.mem_flatten.mp hitem
    obtain ⟨i, -, hfills⟩ := exists_left_of_forall₂ hparts.filled hpart
    obtain ⟨use, huse, -⟩ := hfills.touches.exists_performs hitem haccess
    cases huse
  · obtain ⟨block, hblock, hitem⟩ := List.mem_flatten.mp hitem
    obtain ⟨st, hst, hemits⟩ := exists_left_of_forall₂ hparts.blocks hblock
    obtain ⟨use, huse, hperforms⟩ := hemits.touches.exists_performs hitem haccess
    exact ⟨use, List.mem_append_right _
      (List.mem_flatMap.mpr ⟨st, hst, Statement.mem_locals_of_localUses huse⟩), hperforms⟩
  · have htouches : Touches final [] parts.ending := hparts.ending.touches
    obtain ⟨use, huse, -⟩ := htouches.exists_performs hitem haccess
    cases huse

private theorem EmitsBody.exists_hits {items : List Item} {steps : Array Step}
    (h : EmitsBody owner m b fields final items) (hok : final.Ok (· ∈ b.locals)) (hb : b.Typed)
    (hresolve : (Draft.ofItems items).resolve = .ok steps) {i : Nat} {step : Step}
    (hstep : steps[i]? = some step) {kind : Kind} {form : SlotForm}
    (hinstr : step.instr = .store kind form) :
    ∃ entry, SlotAccess.Hits final.slots.locals.toList ⟨true, kind, form.slot⟩ entry := by
  obtain ⟨line, hline, hresolves⟩ := Flow.resolves_line hresolve hstep
  rw [hresolves.eq_plain (by rw [hinstr]; rfl), hinstr] at hline
  obtain ⟨item, hitem, hplain⟩ := List.mem_filterMap.mp (List.mem_of_getElem? hline)
  have haccess : item.slotAccess? = some ⟨true, kind, form.slot⟩ := by
    cases item with
    | op instr | initThis instr =>
      cases hplain
      rfl
    | branch | mark => cases hplain
  obtain ⟨use, huse, -, hkind, slot, hslot, hform⟩ := h.exists_performs hitem haccess rfl
  obtain ⟨entry, hmem, -, hwidth⟩ := hok.exists_entry hb huse hslot hkind
  exact ⟨(entry, slot), hmem, hform, hwidth.symm⟩

end Lower

namespace Layout.Of

variable {owner : ClassDecl} {m : MethodDecl} {b : Body} {slots : Slots} {q : Pool} {layout : Layout}
  (h : layout.Of owner m b slots q)
include h

private theorem admits_declared : Flow.Everywhere (Slots.Admits slots.locals.toList) layout.declared :=
  h.everywhere_declared fun _ hentry _ hdescribes => Slots.admits_of_kind? hentry hdescribes.kind?

variable (hslots : slots.WellFormed)
include hslots

private theorem admits_zero (hpos : 0 < layout.width) {t : VerificationType} (ht : t.isWide = false) :
    Slots.Admits slots.locals.toList 0 t := by
  have htiles := hslots.tiles
  rw [← h.width] at htiles
  cases hlocals : slots.locals.toList with
  | nil =>
    rw [hlocals] at htiles
    exact absurd htiles (Nat.ne_of_lt hpos)
  | cons entry rest =>
    rw [hlocals] at htiles
    exact ⟨entry, List.mem_cons_self, htiles.1, fun hwide => by rw [ht] at hwide; cases hwide⟩

private theorem admits_entry : Flow.Everywhere (Slots.Admits slots.locals.toList) layout.entry :=
  h.everywhere_entry h.admits_declared fun _ hpos => h.admits_zero hslots hpos rfl

private theorem admits_initialized (hpos : 0 < layout.width) {t : VerificationType}
    (ht : layout.initializedThis = some t) : Slots.Admits slots.locals.toList 0 t := by
  have hinitialized := h.initialized
  split at hinitialized
  · obtain ⟨index, -, hobject⟩ := hinitialized
    rw [hobject] at ht
    cases ht
    exact h.admits_zero hslots hpos rfl
  · rw [hinitialized] at ht
    cases ht

omit hslots in
private theorem admits_storedType {kind : Kind} {slot : Nat} {entry : Local × UInt16}
    (hhits : SlotAccess.Hits slots.locals.toList ⟨true, kind, slot⟩ entry) :
    Slots.Admits slots.locals.toList slot (Flow.storedType layout slot kind) := by
  obtain ⟨hentry, hslot, hwidth⟩ := hhits
  dsimp only at hslot hwidth
  by_cases htop : Flow.storedType layout slot kind = .top
  · rw [htop]
    exact ⟨entry, hentry, hslot.symm, nofun⟩
  cases kind with
  | reference =>
    cases hdeclared : layout.declared[slot]? with
    | none =>
      rw [Flow.storedType, hdeclared] at htop
      exact absurd rfl htop
    | some t =>
      rw [Flow.storedType, hdeclared] at htop ⊢
      exact h.admits_declared slot t hdeclared htop
  | _ =>
    refine ⟨entry, hentry, hslot.symm, fun hwide => ?_⟩
    rw [← hwidth]
    first | rfl | cases hwide

private theorem spaced_of_localsAt? {steps : Array Step} {thisInit : Option Nat}
    (hstores : ∀ (i : Nat) (step : Step), steps[i]? = some step → ∀ kind form,
      step.instr = .store kind form →
        ∃ entry, SlotAccess.Hits slots.locals.toList ⟨true, kind, form.slot⟩ entry)
    {j : Nat} {state : Locals layout.width}
    (hstate : Flow.localsAt? (Flow.analyze steps layout thisInit) j = some state) :
    Spaced state.toList := by
  refine Flow.spaced_of_admits (h.width ▸ hslots.tiles)
    (Flow.everywhere_of_localsAt? ?_ (h.admits_entry hslots) ?_ hstate)
  · exact fun hpos t ht => h.admits_initialized hslots hpos ht
  · intro i step hstep kind form hstore
    obtain ⟨entry, hhits⟩ := hstores i step hstep kind form hstore
    exact h.admits_storedType hhits

end Layout.Of

namespace MethodDecl

variable {options : Options} {owner : ClassDecl} {m : MethodDecl} {b : Body} {fields : List Initializer}
  {p : Pool}

/-- When the code of the method is generated on the pool `p`, the analysis finds the types in its slots
on entry to the line at position `j`. -/
def Finds (options : Options) (owner : ClassDecl) (m : MethodDecl) (b : Body) (fields : List Initializer)
    (p : Pool) (j : Nat) (types : List VerificationType) : Prop :=
  ∃ items slots layout? steps p₁ p₂, m.lower owner b fields p = .ok ((items, slots), p₁) ∧
    m.layout? options owner b slots p₁ = .ok (layout?, p₂) ∧
    (Draft.ofItems items).resolve = .ok steps ∧
    ∃ state, Flow.localsAt? (Flow.analyze steps (layout?.getD .empty) (Draft.ofItems items).thisInit) j =
      some state ∧ state.toList = types

/-- Wide values never overlap with others, whatever the receiver and the types of the locals are. -/
theorem Finds.spaced {j : Nat} {types : List VerificationType}
    (h : m.Finds options owner b fields p j types) (hp : p.Sound) (hb : b.Typed) : Spaced types := by
  obtain ⟨items, slots, layout?, steps, p₁, p₂, hlower, hlayout, hresolve, state, hstate, rfl⟩ := h
  obtain ⟨hok, -, -, hemits⟩ := Lower.body_spec (T := (· ∈ b.locals)) owner m b fields hp (fun _ hl => hl)
    (run_lower_iff.mp hlower)
  unfold MethodDecl.layout? at hlayout
  split at hlayout
  · obtain ⟨layout, hrun, rfl⟩ := run_map_iff.mp hlayout
    have hof : layout.Of owner m b slots p₂ :=
      Layout.of_ran hok.slots ⟨p₁, p₂, hrun, hok.sound, Pool.le_refl p₂⟩
    exact hof.spaced_of_localsAt? hok.slots
      (fun i step hstep kind form hstore => hemits.exists_hits hok hb hresolve hstep hstore) hstate
  · -- without frames there is no layout, and no slot
    obtain ⟨rfl, rfl⟩ := Prod.mk.inj (run_pure_iff.mp hlayout)
    intro k t ht
    rw [Vector.getElem?_toList] at ht
    exact absurd (Vector.getElem?_eq_some_iff.mp ht).1 (Nat.not_lt_zero k)

private theorem exists_finds (hp : p.Sound) {a : Attribute} {q : Pool}
    (h : m.codeAttribute options owner b fields p = .ok (a, q)) :
    ∃ types, m.Finds options owner b fields p 0 types := by
  simp only [codeAttribute, run_bind_iff] at h
  obtain ⟨⟨items, slots⟩, p₁, hlower, layout?, p₂, hlayout, assembly, p₃, hassembly, -⟩ := h
  obtain ⟨-, -, -, hemits⟩ := Lower.body_spec (T := (· ∈ b.locals)) owner m b fields hp (fun _ hl => hl)
    (run_lower_iff.mp hlower)
  obtain ⟨steps, hresolve, -⟩ := Assembly.run_ofItems_iff.mp hassembly
  have hpos : 0 < steps.size := by
    obtain ⟨instr, hlast, -⟩ := hemits.getLast?_lines
    rw [Flow.size_steps hresolve]
    exact List.length_pos_of_mem (List.mem_of_getLast? hlast)
  have hstart : Flow.Reaches steps (layout?.getD .empty) (Draft.ofItems items).thisInit 0 _ := .start hpos
  obtain ⟨state, hstate, -⟩ := hstart.covered
  exact ⟨_, items, slots, layout?, steps, p₁, p₂, hlower, hlayout, hresolve, state, hstate, rfl⟩

end MethodDecl

namespace ClassDecl

variable {options : Options} {c : ClassDecl} {file : ClassFile}

/-- In the code of a generated method whose names have one type each, every wide value that the analysis
finds is followed by a slot of which nothing is known.  These are exactly the slots that are read back
from the locals of their frame, so frames that are the same stand for slots that are the same. -/
theorem frames_determine_slots (hgenerate : c.generate options = .ok file) {i : Nat} {m : MethodDecl}
    {fields : List Initializer} {b : Body} (hm : c.plan[i]? = some (m, fields))
    (hbody : m.body? = some b) (hb : b.Typed) :
    (∃ member a p q, file.methods[i]? = some member ∧ a ∈ member.attributes ∧ p.Sound ∧
      m.codeAttribute options c b fields p = .ok (a, q) ∧
        ∃ first, m.Finds options c b fields p 0 first) ∧
    (∀ p, p.Sound → ∀ j types, m.Finds options c b fields p j types → Spaced types) ∧
    (∀ slots, fill slots.length (frameLocals slots) = slots ↔ Spaced slots) ∧
    ∀ one other, one.length = other.length → Spaced one → Spaced other →
      frameLocals one = frameLocals other → one = other := by
  refine ⟨?_, fun p hp j types hfinds => hfinds.spaced hp hb, fun slots => fill_frameLocals_iff,
    fun one other hlength hone hother hframes => hone.eq_of_frameLocals_eq hother hlength hframes⟩
  obtain ⟨q, h⟩ := generated_of_generate hgenerate
  obtain ⟨member, -, hmember, hgenerated, -⟩ := h.exists_lowered hm hbody
  obtain ⟨code, rest, ⟨p, p', hrun, hp, -⟩, hattributes, -⟩ := hgenerated.code
  rw [MethodDecl.codeAttributes, hbody] at hrun
  obtain ⟨a, p₁, hattribute, hpure⟩ := run_bind_iff.mp hrun
  obtain ⟨rfl, rfl⟩ := Prod.mk.inj (run_pure_iff.mp hpure)
  refine ⟨member, a, p, _, hmember, ?_, hp, hattribute, MethodDecl.exists_finds hp hattribute⟩
  simp [hattributes]

end ClassDecl

namespace Mirror

/-!
## An example

The lines of a method that keeps a wide parameter in a wide local.
-/

def steps : Array Step :=
  #[⟨.loadSlot .long 1, none⟩, ⟨.storeSlot .long 3, none⟩, ⟨.loadSlot .long 3, none⟩,
    ⟨.storeSlot .long 1, none⟩, ⟨.returnVoid, none⟩]

private theorem resolve_items : (Draft.ofItems items).resolve = .ok steps := rfl

private theorem not_targeted (layout : Layout) (j : Nat) : ¬ Flow.Targeted steps layout none j := by
  rintro ⟨i, step, state, -, hstep, htarget⟩
  have hmem : step ∈ steps.toList := Array.mem_toList_iff.mpr (Array.mem_of_getElem? hstep)
  simp only [steps, List.mem_cons, List.not_mem_nil, or_false] at hmem
  rcases hmem with rfl | rfl | rfl | rfl | rfl <;> cases htarget

section Layout

variable {slots : Slots} {q : Pool} {layout : Layout} (hslots : slots.WellFormed)
  (hlocals : slots.locals.toList = [(this, 0), (value, 1), (copy, 3)])
  (h : layout.Of owner method body slots q)
include hslots hlocals h

private theorem width_eq : layout.width = 5 := by
  have htiles := hslots.tiles
  rw [hlocals] at htiles
  rw [h.width]
  exact htiles.2.2.2.symm

private theorem entry_eq :
    ∃ receiver, layout.entry.toList = [.object receiver, .long, .top, .top, .top] := by
  have hwidth := width_eq hslots hlocals h
  have hthis : slots.index[this.name]? = some 0 := (hslots.index _ _).mpr ⟨this, by simp [hlocals], rfl⟩
  have hvalue : slots.index[value.name]? = some 1 :=
    (hslots.index _ _).mpr ⟨value, by simp [hlocals], rfl⟩
  have hhas : ∀ k, Layout.HasSlot slots body.parameters k → k = 0 ∨ k = 1 := by
    rintro k ⟨l, hl, slot, hslot, rfl⟩
    rcases List.mem_pair.mp hl with rfl | rfl
    · rw [hthis] at hslot
      cases hslot
      exact .inl rfl
    · rw [hvalue] at hslot
      cases hslot
      exact .inr rfl
  obtain ⟨t, ht, index, -, rfl⟩ := h.declared (this, 0) (by simp [hlocals])
  obtain ⟨u, hu, hlong⟩ := h.declared (value, 1) (by simp [hlocals])
  cases show u = .long from hlong
  have hother : ∀ k, 1 < k → k < 5 → layout.entry[k]? = some .top := fun k hk hlt =>
    h.other k (by omega) (fun hslot => by have := hhas k hslot; omega) nofun
  refine ⟨index, List.ext_getElem? fun k => ?_⟩
  rw [Vector.getElem?_toList]
  match k with
  | 0 => exact (h.parameter 0 (by omega) ⟨this, List.mem_cons_self, 0, hthis, rfl⟩ nofun).trans ht
  | 1 =>
    have hslot : Layout.HasSlot slots body.parameters 1 :=
      ⟨value, List.mem_cons_of_mem _ List.mem_cons_self, 1, hvalue, rfl⟩
    exact (h.parameter 1 (by omega) hslot nofun).trans hu
  | 2 => exact hother 2 (by decide) (by decide)
  | 3 => exact hother 3 (by decide) (by decide)
  | 4 => exact hother 4 (by decide) (by decide)
  | k + 5 => exact Vector.getElem?_eq_none (by omega)

private theorem localsAt?_two : ∃ receiver state,
    Flow.localsAt? (Flow.analyze steps layout none) 2 = some state ∧
      state.toList = [.object receiver, .long, .top, .long, .top] := by
  obtain ⟨receiver, hentry⟩ := entry_eq hslots hlocals h
  have hzero := Flow.localsAt?_zero (by decide : 0 < steps.size) (not_targeted layout 0)
  have hone := Flow.localsAt?_succ hzero
    (show steps[0]? = some ⟨.loadSlot .long 1, none⟩ from rfl) rfl (by decide) (not_targeted layout 1)
  have htwo := Flow.localsAt?_succ hone
    (show steps[1]? = some ⟨.storeSlot .long 3, none⟩ from rfl) rfl (by decide) (not_targeted layout 2)
  refine ⟨receiver, _, htwo, ?_⟩
  change ((layout.entry.setIfInBounds 3 .long).setIfInBounds 4 .top).toList = _
  simp [hentry]

end Layout

/-- When the other local has its value, the frame lists the receiver and two wide values, and the five
slots are read back from it. -/
theorem frames_determine_wide_slots : body.Typed ∧ ∃ file member a p q receiver,
    owner.generate {} = .ok file ∧ file.methods[0]? = some member ∧ a ∈ member.attributes ∧ p.Sound ∧
      method.codeAttribute {} owner body [] p = .ok (a, q) ∧
      method.Finds {} owner body [] p 2 [.object receiver, .long, .top, .long, .top] ∧
      Spaced [.object receiver, .long, .top, .long, .top] ∧
      frameLocals [.object receiver, .long, .top, .long, .top] = [.object receiver, .long, .long] ∧
      fill 5 [.object receiver, .long, .long] = [.object receiver, .long, .top, .long, .top] ∧
      ∀ other, other.length = 5 → Spaced other → frameLocals other = [.object receiver, .long, .long] →
        other = [.object receiver, .long, .top, .long, .top] := by
  have htyped : body.Typed := by
    unfold Body.Typed
    decide
  obtain ⟨file, hfile⟩ := exists_file {}
  have hplan : owner.plan[0]? = some (method, []) := rfl
  obtain ⟨⟨member, a, p, q, hmember, ha, hp, hrun, -, _, slots, _, _, _, p₂, hslots, hlayout, -⟩, hspaced,
    hfill, hinjective⟩ := ClassDecl.frames_determine_slots hfile hplan rfl htyped
  obtain ⟨taken, hlocals, hlower⟩ := exists_lower
  cases (hlower p).symm.trans hslots
  obtain ⟨hok, -⟩ := Lower.body_spec (T := fun _ => True) owner method body [] hp (fun _ _ => trivial)
    (MethodDecl.run_lower_iff.mp (hlower p))
  obtain ⟨layout, hofSlots, rfl⟩ := run_map_iff.mp hlayout
  obtain ⟨receiver, state, hstate, htypes⟩ := localsAt?_two hok.slots hlocals
    (Layout.of_ran hok.slots ⟨p, p₂, hofSlots, hp, Pool.le_refl p₂⟩)
  have hfinds : method.Finds {} owner body [] p 2 [.object receiver, .long, .top, .long, .top] :=
    ⟨items, slots, some layout, steps, p, p₂, hlower p, hlayout, resolve_items, state, hstate, htypes⟩
  have htwo := hspaced p hp 2 _ hfinds
  exact ⟨htyped, file, member, a, p, q, receiver, hfile, hmember, ha, hp, hrun, hfinds, htwo, rfl,
    (hfill _).mpr htwo, fun other hlength hother hframes => hinjective _ _ hlength hother htwo hframes⟩

end Mirror

end Classwright
