import Classwright.Proofs.BodyCodec
import Classwright.Proofs.LocalAccesses

/-!
# The slots of a generated method

The locals of a method take all its slots in order: first the parameters, then the others as statements
assign them.  Code accesses a local in exactly the slots that it has, and the table of names lists the
locals with these slots.
-/

namespace Classwright

/-- The locals with one more, unless its name is there already. -/
def Local.addTo (known : List Local) (l : Local) : List Local :=
  if known.any (·.name == l.name) then known else known ++ [l]

/-- The locals of a body in the order in which they get slots: the parameters, and then those that are
assigned by the first assignment. -/
def Body.allocated (b : Body) : List Local :=
  (b.statements.filterMap Statement.assigned?).foldl Local.addTo b.parameters

namespace Slots

variable {s t : Slots}

private theorem knows_iff_any {name : String} :
    s.Knows name ↔ (s.locals.toList.map Prod.fst).any (·.name == name) = true := by
  rw [List.any_map, List.any_eq_true]
  simp only [Knows, Function.comp_apply, beq_iff_eq]

section Added

variable {new : List (Local × UInt16)} (ht : t.WellFormed)
  (hlocals : s.locals.toList ++ new = t.locals.toList)
include ht hlocals

private theorem WellFormed.not_knows : ∀ entry ∈ new, ¬ s.Knows entry.1.name := by
  intro entry hentry hknows
  obtain ⟨old, hold, hname⟩ := hknows
  have hordered := ht.tiles.pairwise
  rw [← hlocals, List.pairwise_append] at hordered
  have hlt := hordered.2.2 old hold entry hentry
  have heq : old = entry := by
    apply ht.eq_of_name
    · simp [← hlocals, hold]
    · simp [← hlocals, hentry]
    · exact hname
  rw [heq] at hlt
  exact Nat.lt_irrefl _ hlt

private theorem WellFormed.eq_singleton {entry : Local × UInt16} (hentry : entry ∈ new)
    (hall : ∀ other ∈ new, other.1.name = entry.1.name) : new = [entry] := by
  have hmem : ∀ other ∈ new, other ∈ t.locals.toList := by
    intro other hother
    simp [← hlocals, hother]
  have hreplicate : new = List.replicate new.length entry := by
    apply List.eq_replicate_of_mem
    intro other hother
    exact ht.eq_of_name (hmem other hother) (hmem entry hentry) (hall other hother)
  have hordered := ht.tiles.pairwise
  rw [← hlocals, List.pairwise_append] at hordered
  have hnodup : new.Nodup := by
    apply hordered.2.1.imp
    intro a b hlt heq
    rw [heq] at hlt
    exact Nat.lt_irrefl _ hlt
  rw [hreplicate, List.nodup_replicate] at hnodup
  have hpos := List.length_pos_of_mem hentry
  rw [hreplicate, show new.length = 1 by omega]
  rfl

end Added

/-- If no locals were added but possibly one, and that one is there now, then it was added behind the
others unless it was there before. -/
theorem map_fst_of_le (ht : t.WellFormed) (hle : s ≤ t) {target : Option Local}
    (hnew : ∀ entry ∈ t.locals.toList, entry.1 ∈ s.locals.toList.map Prod.fst ∨ entry.1 ∈ target)
    (hknown : ∀ l ∈ target, t.Knows l.name) :
    t.locals.toList.map Prod.fst =
      target.toList.foldl Local.addTo (s.locals.toList.map Prod.fst) := by
  obtain ⟨new, hlocals⟩ := hle
  have hfresh := ht.not_knows hlocals
  have hadded : ∀ entry ∈ new, entry.1 ∈ target := by
    intro entry hentry
    apply (hnew entry (by simp [← hlocals, hentry])).resolve_left
    intro hold
    obtain ⟨old, hold, heq⟩ := List.mem_map.mp hold
    exact hfresh entry hentry ⟨old, hold, by rw [heq]⟩
  rw [← hlocals, List.map_append]
  cases target with
  | none =>
    have hnil : new = [] := by
      apply List.eq_nil_iff_forall_not_mem.mpr
      intro entry hentry
      cases hadded entry hentry
    simp [hnil]
  | some l =>
    rw [Option.toList_some, List.foldl_cons, List.foldl_nil, Local.addTo]
    by_cases hold : s.Knows l.name
    · have hnil : new = [] := by
        apply List.eq_nil_iff_forall_not_mem.mpr
        intro entry hentry
        cases hadded entry hentry
        exact hfresh entry hentry hold
      rw [if_pos (knows_iff_any.mp hold)]
      simp [hnil]
    · obtain ⟨entry, hentry, hname⟩ := hknown l rfl
      rw [← hlocals, List.mem_append] at hentry
      have hentry := hentry.resolve_left fun hmem => hold ⟨entry, hmem, hname⟩
      have hone : new = [entry] := by
        apply ht.eq_singleton hlocals hentry
        intro other hother
        cases hadded other hother
        exact hname.symm
      have hl : entry.1 = l := (Option.some.inj (hadded entry hentry)).symm
      rw [if_neg fun h => hold (knows_iff_any.mpr h)]
      simp [hone, hl]

end Slots

namespace Lower

section Meets

variable {α β : Type}

/-- The step gives slots to those of the locals that have none, in order, and to no others. -/
def Meets (act : Lower α) (targets : List Local) : Prop :=
  ∀ s a s', act s = .ok (a, s') → s.Ok (fun _ => True) → s'.Ok (fun _ => True) ∧
    s'.slots.locals.toList.map Prod.fst =
      targets.foldl Local.addTo (s.slots.locals.toList.map Prod.fst)

theorem Meets.pure (a : α) : Meets (Pure.pure a) [] := by
  intro s b s' h hs
  obtain ⟨rfl, rfl⟩ := Prod.mk.inj (run_pure_iff.mp h)
  exact ⟨hs, rfl⟩

theorem Meets.bind {x : Lower α} {f : α → Lower β} {targets more : List Local} (hx : Meets x targets)
    (hf : ∀ a, Meets (f a) more) : Meets (x >>= f) (targets ++ more) := by
  intro s b s' h hs
  obtain ⟨a, t, hxs, hft⟩ := run_bind_iff.mp h
  obtain ⟨ht, hlocals⟩ := hx s a t hxs hs
  obtain ⟨hs', hlocals'⟩ := hf a t b s' hft ht
  exact ⟨hs', by rw [hlocals', hlocals, List.foldl_append]⟩

theorem Meets.mapM {f : α → Lower β} {targets : α → List Local} (hf : ∀ a, Meets (f a) (targets a))
    (items : List α) : Meets (items.mapM f) (items.flatMap targets) := by
  induction items with
  | nil => exact .pure []
  | cons a items ih =>
    rw [List.mapM_cons, List.flatMap_cons]
    refine (hf a).bind fun b => ?_
    have hrest := ih.bind fun bs => Meets.pure (b :: bs)
    rwa [List.append_nil] at hrest

private theorem Meets.of_yields {act : Lower α} {P : Lowering → α → Prop} {target : Option Local}
    (h : ∀ T : Local → Prop, (∀ l ∈ target, T l) → Yields T act P)
    (hknown : ∀ final a, P final a → ∀ l ∈ target, ∃ slot, final.slots.index[l.name]? = some slot) :
    Meets act target.toList := by
  intro s a s' hrun hs
  obtain ⟨hs', hle, hP⟩ := h (fun l => l ∈ s.slots.locals.toList.map Prod.fst ∨ l ∈ target)
    (fun l hl => .inr hl) s a s' hrun
    ⟨hs.sound, hs.slots, fun entry hentry => .inl (List.mem_map_of_mem hentry)⟩
  refine ⟨⟨hs'.sound, hs'.slots, fun _ _ => trivial⟩, ?_⟩
  apply Slots.map_fst_of_le hs'.slots hle.2 hs'.locals
  intro l hl
  exact hs'.slots.knows_iff.mpr (hknown s' a (hP s' hs' (Lowering.le_refl s')) l hl)

theorem Touches.exists_slot {final : Lowering} {uses : List LocalUse} {items : List Item}
    (h : Touches final uses items) :
    ∀ use ∈ uses, ∃ slot, final.slots.index[use.target.name]? = some slot := by
  induction h with
  | nil => simp
  | load pushes _ ih =>
    obtain ⟨slot, hslot, -⟩ := pushes
    exact List.forall_mem_cons.mpr ⟨⟨slot, hslot⟩, ih⟩
  | store pops _ ih =>
    obtain ⟨-, -, slot, hslot, -⟩ := pops
    exact List.forall_mem_cons.mpr ⟨⟨slot, hslot⟩, ih⟩
  | other _ _ ih => exact ih

private theorem meets_statement (ctx : MethodContext) (st : Statement) :
    Meets (statement ctx st) st.assigned?.toList := by
  refine .of_yields (fun T hT => yields_statement ctx hT) fun final items hemits l hl => ?_
  refine hemits.touches.exists_slot (.store l) (List.mem_append_right _ ?_)
  exact List.mem_map_of_mem (Option.mem_toList.mpr hl)

private theorem meets_nothing {act : Lower α} {P : Lowering → α → Prop}
    (h : ∀ T : Local → Prop, Yields T act P) : Meets act [] := by
  have hmeets : Meets act (none : Option Local).toList :=
    .of_yields (fun T _ => h T) fun _ _ _ l hl => by cases hl
  exact hmeets

/-- The locals of a method get slots in the order of their first assignment, after the parameters. -/
theorem map_fst_of_body {owner : ClassDecl} {m : MethodDecl} {b : Body} {fields : List Initializer}
    {p : Pool} {items : List Item} {final : Lowering} (hp : p.Sound)
    (h : body owner m b fields ⟨p, {}⟩ = .ok (items, final)) :
    final.slots.locals.toList.map Prod.fst = b.allocated := by
  obtain ⟨_, start, hallocate, h⟩ := run_bind_iff.mp h
  obtain ⟨hstart, -, hparameters⟩ := allocate_spec (T := fun _ => True) hp (fun _ _ => trivial) hallocate
  let ctx : MethodContext := ⟨owner, m, Std.HashSet.ofList b.labels⟩
  have hfields : Meets (fields.mapM (fillField owner)) [] := by
    have hfield : ∀ i, Meets (fillField owner i) [] := fun i =>
      meets_nothing fun T => yields_fillField (T := T) owner i
    have hmeets := Meets.mapM hfield fields
    rwa [List.flatMap_eq_nil_iff.mpr fun _ _ => rfl] at hmeets
  have hstatements : Meets (statements ctx b.statements)
      (b.statements.flatMap fun st => st.assigned?.toList) := by
    have hmeets := (Meets.mapM (meets_statement ctx) b.statements).bind fun blocks =>
      Meets.pure blocks.flatten
    rwa [List.append_nil] at hmeets
  have hrest := (meets_nothing fun T => yields_chain (T := T) owner m b).bind fun chained =>
    hfields.bind fun filled => hstatements.bind fun code =>
      (meets_nothing fun T => yields_finalReturn (T := T) m b).bind fun ending =>
        Meets.pure (chained ++ filled.flatten ++ code ++ ending)
  obtain ⟨-, hlocals⟩ := hrest start items final h hstart
  rw [hlocals, hparameters, Body.allocated, List.filterMap_eq_flatMap_toList]
  simp

end Meets

end Lower

/-- The access is to exactly the slots of the local in the table. -/
def SlotAccess.Hits (table : List (Local × UInt16)) (access : SlotAccess) (entry : Local × UInt16) : Prop :=
  entry ∈ table ∧ access.slot = entry.2.toNat ∧ access.kind.width = Slots.widthOf entry.1

private theorem SlotAccess.Hits.apart {table : List (Local × UInt16)} {access : SlotAccess}
    {entry : Local × UInt16} (h : access.Hits table entry) {stop : Nat} (htiles : Slots.Tiles 0 stop table) :
    access.slot + access.kind.width ≤ stop ∧ ∀ other ∈ table, other ≠ entry →
      access.slot + access.kind.width ≤ other.2.toNat ∨
        other.2.toNat + Slots.widthOf other.1 ≤ access.slot := by
  obtain ⟨hentry, hslot, hwidth⟩ := h
  rw [hslot, hwidth]
  refine ⟨(htiles.bounds hentry).2, fun other hother hne => ?_⟩
  exact (htiles.separate hentry hother).resolve_left (Ne.symm hne)

/-- Code in the given parts, in order: every part loads and stores the locals given for it, each in its
own slots, unless control does not come to it. -/
structure Code.AccessesIn (code : Code) (table : List (Local × UInt16)) (segments : List (List Instr))
    (uses : List (List LocalUse)) : Prop where
  decodes : Instr.decodeAll code.code = .ok segments.flatten
  length : segments.length = uses.length
  accesses : ∀ n segment expected, segments[n]? = some segment → uses[n]? = some expected →
    List.Forall₂ (fun use access => access.isStore = use.isStore ∧
        ∃ entry, access.Hits table entry ∧ entry.1.name = use.target.name)
      expected (segment.filterMap Instr.slotAccess?) ∨
    (∀ instr ∈ segment, instr.isFiller = true) ∧
      ¬ Instr.Visits code.code (Instr.encodeAll (segments.take n).flatten).length
  /-- Every access stays below the limit and away from all other locals. -/
  apart : ∀ instr ∈ segments.flatten, ∀ access ∈ instr.slotAccess?, ∃ entry, access.Hits table entry ∧
    access.slot + access.kind.width ≤ code.maxLocals.toNat ∧ ∀ other ∈ table, other ≠ entry →
      access.slot + access.kind.width ≤ other.2.toNat ∨
        other.2.toNat + Slots.widthOf other.1 ≤ access.slot

/-- The table of names has the locals with their slots, each for all of the code, if the table is asked
for and there are locals; otherwise there is no such table. -/
def ClassFile.NamesLocals (file : ClassFile) (options : Options) (code : Code)
    (table : List (Local × UInt16)) : Prop :=
  if options.localNames && !table.isEmpty then
    ∃ listed, file.bodyOf? code.attributes "LocalVariableTable" = some (.localVariables listed) ∧
      List.Forall₂ (fun entry v => v.start = 0 ∧ v.length.toNat = code.code.length ∧
        file.text? v.name = some entry.1.name ∧
        file.text? v.descriptor = some entry.1.type.descriptor ∧ v.slot = entry.2) table listed
  else file.attribute? code.attributes "LocalVariableTable" = none

/-- The locals of a method lie side by side in its slots, in the order in which they are met; its code
accesses them there, and its table of names tells where they are. -/
structure ClassFile.PlacesLocals (file : ClassFile) (options : Options) (code : Code) (b : Body)
    (uses : List (List LocalUse)) (table : List (Local × UInt16)) : Prop where
  order : table.map Prod.fst = b.allocated
  tiles : Slots.Tiles 0 code.maxLocals.toNat table
  accesses : ∃ segments, code.AccessesIn table segments uses
  names : file.NamesLocals options code table

private theorem MethodDecl.mem_locals_of_localUses {owner : ClassDecl} {m : MethodDecl}
    {fields : List Initializer} {b : Body} {expected : List LocalUse}
    (h : expected ∈ m.localUses owner fields b) {use : LocalUse} (huse : use ∈ expected) :
    use.target ∈ b.locals := by
  simp only [localUses, List.cons_append, List.mem_cons, List.mem_append, List.mem_map,
    List.not_mem_nil, or_false] at h
  rcases h with h | (⟨_, -, rfl⟩ | ⟨st, hst, rfl⟩) | rfl
  · rw [h] at huse
    split at huse
    · obtain ⟨l, hl, rfl⟩ := List.mem_map.mp huse
      exact List.mem_append_left _ (List.mem_of_mem_head? (Option.mem_toList.mp hl))
    · cases huse
  · cases huse
  · exact List.mem_append_right _
      (List.mem_flatMap.mpr ⟨st, hst, Statement.mem_locals_of_localUses huse⟩)
  · cases huse

namespace MethodDecl.Compiles

variable {options : Options} {owner : ClassDecl} {m : MethodDecl} {b : Body}
  {fields : List Initializer} {q : Pool} {c : Compiled} (h : m.Compiles options owner b fields q c)
include h

private theorem hits_of_performs (hb : b.Typed) {use : LocalUse} (huse : use.target ∈ b.locals)
    {access : SlotAccess} (hperforms : Lower.Performs c.final use access) :
    access.isStore = use.isStore ∧ ∃ entry, access.Hits c.final.slots.locals.toList entry ∧
      entry.1.name = use.target.name := by
  obtain ⟨hstore, hkind, slot, hslot, haccess⟩ := hperforms
  obtain ⟨entry, hmem, hname, hwidth⟩ := h.ok.exists_entry hb huse hslot hkind
  exact ⟨hstore, (entry, slot), ⟨hmem, haccess, hwidth.symm⟩, hname⟩

section Accesses

variable (hreceiver : m.initializesThis = true → ∃ receiver, b.parameters.head? = some receiver ∧
  receiver.type.kind? = some .reference)
include hreceiver

private theorem exists_receiver (hthis : m.initializesThis = true) : ∃ l, b.parameters.head? = some l ∧
    l.type.kind? = some .reference ∧ c.final.slots.index[l.name]? = some 0 := by
  obtain ⟨receiver, hhead, hkind⟩ := hreceiver hthis
  refine ⟨receiver, hhead, hkind, ?_⟩
  exact (h.ok.slots.index _ _).mpr ⟨receiver, h.first_mem hhead, rfl⟩

/-- A part of the code uses its locals in their slots, unless control does not come to it. -/
theorem forall₂_hits (hb : b.Typed) {parts : Lower.Parts} (hparts : parts.Of owner m b fields c.final)
    (hitems : c.items = parts.all.flatten) {n : Nat} {segment : List Instr} {expected : List LocalUse}
    (hsegment : (Flow.segments parts.all c.steps c.layout c.thisInit)[n]? = some segment)
    (hexpected : (m.localUses owner fields b)[n]? = some expected) :
    List.Forall₂ (fun use access => access.isStore = use.isStore ∧
        ∃ entry, access.Hits c.final.slots.locals.toList entry ∧ entry.1.name = use.target.name)
      expected (segment.filterMap Instr.slotAccess?) ∨
      (∀ instr ∈ segment, instr.isFiller = true) ∧ ¬ Instr.Visits c.code.code
        (Instr.encodeAll
          ((Flow.segments parts.all c.steps c.layout c.thisInit).take n).flatten).length := by
  have htouches := hparts.touches (h.exists_receiver hreceiver)
  have hwrites := hparts.writes
  obtain ⟨hlt, rfl⟩ := List.getElem?_eq_some_iff.mp hexpected
  have hlt' : n < parts.all.length := by rwa [← htouches.length_eq]
  refine ((h.coded hitems).segments_cases hparts.eq_mark (List.getElem?_eq_getElem hlt')
    (hwrites.get (by rwa [hwrites.length_eq]) hlt') hsegment).imp_left fun hresolved => ?_
  have hperforms := (htouches.get hlt hlt').performs hresolved
  rw [List.forall₂_iff_get] at hperforms ⊢
  refine ⟨hperforms.1, fun k hk hk' => h.hits_of_performs hb ?_ (hperforms.2 k hk hk')⟩
  exact mem_locals_of_localUses (List.getElem_mem hlt) (List.get_mem _ _)

private theorem accessesIn (hb : b.Typed) :
    ∃ segments, c.code.AccessesIn c.final.slots.locals.toList segments (m.localUses owner fields b) := by
  obtain ⟨parts, hparts, hitems⟩ := h.emits.exists_parts
  have hlength : (Flow.segments parts.all c.steps c.layout c.thisInit).length =
      (m.localUses owner fields b).length := by
    rw [Flow.segments, List.length_map, List.length_range,
      (hparts.touches (h.exists_receiver hreceiver)).length_eq]
  refine ⟨_, (h.realizesIn hparts hitems).decodes, hlength,
    fun n segment expected => h.forall₂_hits hreceiver hb hparts hitems, ?_⟩
  intro instr hinstr access haccess
  obtain ⟨segment, hsegment, hinstr⟩ := List.mem_flatten.mp hinstr
  obtain ⟨n, hn⟩ := List.mem_iff_getElem?.mp hsegment
  have hlt : n < (m.localUses owner fields b).length := by
    rw [← hlength]
    exact (List.getElem?_eq_some_iff.mp hn).1
  rcases h.forall₂_hits hreceiver hb hparts hitems hn (List.getElem?_eq_getElem hlt) with
    haccesses | ⟨hfiller, -⟩
  · have hmem : access ∈ segment.filterMap Instr.slotAccess? :=
      List.mem_filterMap.mpr ⟨instr, hinstr, haccess⟩
    obtain ⟨use, -, -, entry, hhits, -⟩ := exists_left_of_forall₂ haccesses hmem
    exact ⟨entry, hhits, hhits.apart h.ok.slots.tiles⟩
  · rw [Instr.slotAccess?_of_isFiller (hfiller instr hinstr)] at haccess
    cases haccess

end Accesses

end MethodDecl.Compiles

namespace ClassDecl

variable {options : Options} {c : ClassDecl} {file : ClassFile} {q : Pool}

private theorem Generated.namesLocals (h : c.Generated options file q) {m : MethodDecl} {b : Body}
    {fields : List Initializer} {compiled : Compiled}
    (hcompiles : m.Compiles options c b fields q compiled) :
    file.NamesLocals options compiled.code compiled.final.slots.locals.toList := by
  have hmaps : ∀ a ∈ compiled.maps, file.text? a.name = some "StackMapTable" := by
    rcases MethodDecl.maps_of_ran hcompiles.maps with ⟨-, hnil⟩ | ⟨a, hone, -, hname⟩
    · simp [hnil]
    · rw [hone, List.forall_mem_singleton]
      exact h.text? hname
  have hlists := MethodDecl.lists_names_of_ran hcompiles.names
  have hempty : compiled.final.slots.locals.toList.isEmpty = compiled.final.slots.locals.isEmpty :=
    Array.isEmpty_toList
  unfold ClassFile.NamesLocals
  rw [hempty]
  split
  · rename_i hwritten
    rw [if_pos hwritten] at hlists
    obtain ⟨a, table, hone, htable, hholds⟩ := hlists
    have hfound : file.attribute? compiled.code.attributes "LocalVariableTable" = some a := by
      rw [ClassFile.attribute?, Compiled.code, hone, List.singleton_append]
      exact List.find?_cons_of_pos (by simp [h.text? hholds.2])
    have hlength : table.length ≤ 65535 := by
      rw [← htable.length_eq, Array.length_toList]
      exact hcompiles.length_locals_le
    refine ⟨table, ?_, htable.imp fun entry v hv => ?_⟩
    · rw [ClassFile.bodyOf?, hfound]
      dsimp only
      rw [hholds.1, AttributeBody.WellFormed.decode?_eq (x := .localVariables table) hlength (by
        simp [AttributeBody.names])]
      rfl
    · have hcode := hcompiles.length_code_le
      refine ⟨hv.start, ?_, h.text? hv.name, h.text? hv.descriptor, hv.slot⟩
      rw [hv.length, UInt16.toNat_ofNat']
      exact Nat.mod_eq_of_lt (by omega)
  · rename_i hwritten
    rw [if_neg hwritten] at hlists
    rw [ClassFile.attribute?, Compiled.code, hlists, List.nil_append, List.find?_eq_none]
    intro a ha
    rw [hmaps a ha]
    decide

/-- The locals of a generated method whose names have one type each lie side by side in its slots, and
its code and its table of names have them there, if a constructor has a reference, its receiver, as the
first parameter of its body.  A call on the slots that fails never changes them. -/
theorem placesLocals_of_generate (hgenerate : c.generate options = .ok file) {i : Nat} {m : MethodDecl}
    {fields : List Initializer} {b : Body} (hm : c.plan[i]? = some (m, fields))
    (hbody : m.body? = some b) (hb : b.Typed)
    (hreceiver : m.initializesThis = true → ∃ receiver, b.parameters.head? = some receiver ∧
      receiver.type.kind? = some .reference) :
    (∃ member code table, file.methods[i]? = some member ∧ file.codeOf? member = some code ∧
      file.PlacesLocals options code b (m.localUses c fields b) table) ∧
    ∀ (calls : List Slots.Call) (call : Slots.Call) (e : GenerateError),
      (call.run (Slots.after {} calls)).1 = .error e →
        (call.run (Slots.after {} calls)).2 = Slots.after {} calls ∧
          call.Fails (Slots.after {} calls) e := by
  constructor
  · obtain ⟨q, h⟩ := generated_of_generate hgenerate
    obtain ⟨member, compiled, hmember, -, ⟨p, hp, hlower⟩, hcompiles, hcode⟩ := h.exists_lowered hm hbody
    refine ⟨member, compiled.code, compiled.final.slots.locals.toList, hmember, hcode, ?_⟩
    exact {
      order := Lower.map_fst_of_body hp (MethodDecl.run_lower_iff.mp hlower)
      tiles := hcompiles.ok.slots.tiles
      accesses := hcompiles.accessesIn hreceiver hb
      names := h.namesLocals hcompiles }
  · intro calls call e herror
    exact (Slots.wellFormed_empty.after calls).run_of_error herror

end ClassDecl

namespace Mirror

/-!
## An example

An instance method with a wide parameter and a wide local that is no parameter.
-/

def this : Local := ⟨"this", .object { name := "Mirror" }⟩
def value : Local := ⟨"value", .primitive .long⟩
def copy : Local := ⟨"copy", .primitive .long⟩

def body : Body where
  parameters := [this, value]
  statements := [.assign copy value, .assign value copy]

def method : MethodDecl where
  name := "reflect"
  modifiers := ⟨0x0001⟩
  parameters := [{ name := "value", type := .primitive .long }]
  result := .void
  body := some body

def owner : ClassDecl where
  this := { name := "Mirror" }
  methods := [method]

def items : List Item :=
  [.op (.loadSlot .long 1), .op (.storeSlot .long 3), .op (.loadSlot .long 3), .op (.storeSlot .long 1),
    .op .returnVoid]

private theorem exists_slots : ∃ parameters slots : Slots,
    Slots.allocateAll {} [this, value] = .ok parameters ∧ parameters.index["value"]? = some 1 ∧
      Slots.forStore copy parameters = (.ok 3, slots) ∧
        slots.locals.toList = [(this, 0), (value, 1), (copy, 3)] ∧
          slots.index["copy"]? = some 3 ∧ slots.index["value"]? = some 1 := by
  obtain ⟨s, hs, -, hvalue, hlocals⟩ :=
    Slots.exists_allocateAll_pair (a := this) (b := value) (by decide) (by decide)
  obtain ⟨hwell, -⟩ := Slots.wellFormed_empty.allocateAll hs
  have hnext : s.next = 3 := by
    have htiles := hwell.tiles
    rw [hlocals] at htiles
    exact UInt16.toNat_inj.mp htiles.2.2.symm
  have hunknown : ¬ s.Knows copy.name := by
    simp only [Slots.Knows, hlocals]
    decide
  have hnone : s.index["copy"]? = none := by
    rw [hwell.knows_iff, not_exists] at hunknown
    exact Option.eq_none_iff_forall_ne_some.mpr hunknown
  have hstore : Slots.forStore copy s = Slots.allocate copy s := by
    rw [Slots.forStore, show s.index[copy.name]? = none from hnone]
  rcases hwell.allocate_cases copy with ⟨t, ht, -⟩ | ⟨e, -, hfails⟩
  · rw [hnext] at ht
    obtain ⟨htwell, htlocals⟩ := hwell.allocate ht
    rw [hlocals] at htlocals
    refine ⟨s, t, hs, hvalue, hstore.trans ht, htlocals, ?_, ?_⟩
    · exact (htwell.index _ _).mpr ⟨copy, by simp [htlocals], rfl⟩
    · exact (htwell.index _ _).mpr ⟨value, by simp [htlocals, Slots.widthOf, value]; decide, rfl⟩
  · rcases hfails with ⟨hknown, -⟩ | ⟨-, hroom, -⟩
    · exact absurd hknown hunknown
    · rw [hnext] at hroom
      exact absurd hroom (by decide)

theorem exists_lower : ∃ slots : Slots,
    slots.locals.toList = [(this, 0), (value, 1), (copy, 3)] ∧
      ∀ p, method.lower owner body [] p = .ok ((items, slots), p) := by
  obtain ⟨parameters, slots, hparameters, hvalue, hcopy, hlocals, hcopied, hvalued⟩ := exists_slots
  refine ⟨slots, hlocals, fun p => MethodDecl.run_lower_iff.mpr ?_⟩
  have hstore : Lower.store copy ⟨p, parameters⟩ = .ok (.op (.storeSlot .long 3), ⟨p, slots⟩) := by
    refine run_bind_iff.mpr ⟨.long, _, rfl, run_bind_iff.mpr ⟨3, ⟨p, slots⟩, ?_, rfl⟩⟩
    rw [Lower.slotForStore, hcopy]
  have hfirst : Lower.statement ⟨owner, method, Std.HashSet.ofList body.labels⟩ (.assign copy value)
      ⟨p, parameters⟩ = .ok ([.op (.loadSlot .long 1), .op (.storeSlot .long 3)], ⟨p, slots⟩) :=
    run_bind_iff.mpr ⟨_, _, Lower.run_load rfl hvalue, run_bind_iff.mpr ⟨_, _, hstore, rfl⟩⟩
  have hsecond : Lower.statement ⟨owner, method, Std.HashSet.ofList body.labels⟩ (.assign value copy)
      ⟨p, slots⟩ = .ok ([.op (.loadSlot .long 3), .op (.storeSlot .long 1)], ⟨p, slots⟩) :=
    run_bind_iff.mpr ⟨_, _, Lower.run_load rfl hcopied,
      run_bind_iff.mpr ⟨_, _, Lower.run_store rfl hvalued, rfl⟩⟩
  have hallocate : Lower.allocate body.parameters ⟨p, {}⟩ = .ok ((), ⟨p, parameters⟩) := by
    rw [Lower.allocate, show body.parameters = [this, value] from rfl, hparameters]
  refine run_bind_iff.mpr ⟨(), ⟨p, parameters⟩, hallocate, run_bind_iff.mpr ⟨[], _, rfl, ?_⟩⟩
  refine run_bind_iff.mpr ⟨[], _, rfl, run_bind_iff.mpr ⟨items.take 4, ⟨p, slots⟩, ?_, rfl⟩⟩
  refine run_bind_iff.mpr ⟨[items.take 2, (items.drop 2).take 2], ⟨p, slots⟩, ?_, rfl⟩
  rw [show body.statements = [.assign copy value, .assign value copy] from rfl, List.mapM_cons]
  refine run_bind_iff.mpr ⟨_, _, hfirst, run_bind_iff.mpr ⟨_, _, ?_, rfl⟩⟩
  rw [List.mapM_cons]
  exact run_bind_iff.mpr ⟨_, _, hsecond, rfl⟩

theorem exists_file (options : Options) : ∃ file, owner.generate options = .ok file := by
  obtain ⟨slots, hlocals, hrun⟩ := exists_lower
  have hresolve : ∃ steps, (Draft.ofItems items).resolve = .ok steps := by
    refine Draft.exists_resolve (by decide) fun when label hmem => ?_
    simp [items, Item.lines, Item.line?] at hmem
  have hlower : Succeeds 0 (method.lower owner body []) fun out =>
      (∃ steps, (Draft.ofItems out.1).resolve = .ok steps) ∧ out.2.locals.toList.length ≤ 3 ∧
        ∀ entry ∈ out.2.locals.toList, entry.1.Writable := by
    intro p hp hroom
    refine ⟨_, p, hrun p, hp, Nat.le_refl _, hresolve, ?_, ?_⟩
    · rw [hlocals]
      exact Nat.le_refl 3
    · rw [hlocals]
      simp only [List.forall_mem_cons, List.not_mem_nil, false_imp_iff, implies_true, and_true]
      exact ⟨⟨by decide, by decide, by decide⟩, ⟨by decide, by decide, by decide⟩,
        ⟨by decide, by decide, by decide⟩⟩
  have hcode := MethodDecl.succeeds_codeAttribute options (by decide) hlower
  have hmethod := MethodDecl.succeeds_generate (MethodDecl.succeeds_codeAttributes rfl hcode) (by decide)
    (by decide) rfl (by decide) (by decide)
  exact ClassDecl.exists_generate_method (by decide) (by decide) rfl rfl rfl rfl rfl hmethod (by decide)

/-- The wide parameter takes two slots after the receiver, and the other local the next two. -/
theorem placesLocals_of_wide : body.Typed ∧ ∃ file member code,
    owner.generate {} = .ok file ∧ file.methods[0]? = some member ∧ file.codeOf? member = some code ∧
      code.maxLocals = 5 ∧ file.PlacesLocals {} code body
        [[], [.load value, .store copy], [.load copy, .store value], []]
        [(this, 0), (value, 1), (copy, 3)] := by
  have htyped : body.Typed := by
    unfold Body.Typed
    decide
  obtain ⟨file, hfile⟩ := exists_file {}
  have hplan : owner.plan[0]? = some (method, []) := rfl
  obtain ⟨⟨member, code, table, hmember, hcode, hplaces⟩, -⟩ :=
    ClassDecl.placesLocals_of_generate hfile hplan rfl htyped fun _ => ⟨this, rfl, rfl⟩
  have horder : table.map Prod.fst = [this, value, copy] := hplaces.order
  have htiles := hplaces.tiles
  match table, horder with
  | [(_, first), (_, second), (_, third)], rfl =>
    obtain ⟨hfirst, hsecond, hthird, hmax⟩ := htiles
    obtain rfl : first = 0 := UInt16.toNat_inj.mp hfirst
    obtain rfl : second = 1 := UInt16.toNat_inj.mp hsecond
    obtain rfl : third = 3 := UInt16.toNat_inj.mp hthird
    have hmax : 5 = code.maxLocals := UInt16.toNat_inj.mp hmax
    exact ⟨htyped, file, member, code, hfile, hmember, hcode, hmax.symm, hplaces⟩

end Mirror

end Classwright
