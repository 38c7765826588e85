import Classwright.Proofs.Assembly
import Classwright.Proofs.Generation
import Classwright.Proofs.Words
import Mathlib.Algebra.Group.Action.Defs

/-!
# Generation succeeds where there is room

Steps of generation that only put constants into the pool fail for want of room alone.  How much room
a step needs is added up along the steps, so that a class is seen to be generated without computing
its pool.
-/

namespace Classwright

section Succeeds

variable {α β σ : Type} {P : α → Prop} {Q : β → Prop} {state : Pool → σ} {n k : Nat}

/-- On a state with a sound pool with `n` free slots the step succeeds and takes no more of them.
Nothing else changes in the state. -/
def SucceedsIn (state : Pool → σ) (n : Nat) (act : StateT σ (Except GenerateError) α) (P : α → Prop) :
    Prop :=
  ∀ p : Pool, p.Sound → p.entries.size + n ≤ Pool.maxSlots →
    ∃ a q, act (state p) = .ok (a, state q) ∧ q.Sound ∧ q.entries.size ≤ p.entries.size + n ∧ P a

abbrev Succeeds (n : Nat) (act : Pooling α) (P : α → Prop) : Prop := SucceedsIn (fun p => p) n act P

abbrev Lower.SucceedsOn (slots : Slots) (n : Nat) (act : Lower α) (P : α → Prop) : Prop :=
  SucceedsIn (⟨·, slots⟩) n act P

namespace SucceedsIn

theorem pure {a : α} (h : P a) : SucceedsIn state n (Pure.pure a) P := fun p hp _ =>
  ⟨a, p, rfl, hp, Nat.le_add_right _ _, h⟩

theorem bind {x : StateT σ (Except GenerateError) α} {f : α → StateT σ (Except GenerateError) β}
    (hx : SucceedsIn state n x P) (hf : ∀ a, P a → SucceedsIn state k (f a) Q) :
    SucceedsIn state (n + k) (x >>= f) Q := by
  intro p hp hroom
  obtain ⟨a, p₁, hrun, hp₁, hsize, ha⟩ := hx p hp (by omega)
  obtain ⟨b, p₂, hrun', hp₂, hsize', hb⟩ := hf a ha p₁ hp₁ (by omega)
  exact ⟨b, p₂, run_bind_iff.mpr ⟨a, _, hrun, hrun'⟩, hp₂, by omega, hb⟩

theorem mono {act : StateT σ (Except GenerateError) α} (h : SucceedsIn state n act P) (hle : n ≤ k) :
    SucceedsIn state k act P := by
  intro p hp hroom
  obtain ⟨a, q, hrun, hq, hsize, ha⟩ := h p hp (by omega)
  exact ⟨a, q, hrun, hq, by omega, ha⟩

theorem imp {Q : α → Prop} {act : StateT σ (Except GenerateError) α} (h : SucceedsIn state n act P)
    (hP : ∀ a, P a → Q a) : SucceedsIn state n act Q := by
  intro p hp hroom
  obtain ⟨a, q, hrun, hq, hsize, ha⟩ := h p hp hroom
  exact ⟨a, q, hrun, hq, hsize, hP a ha⟩

theorem mapM {f : α → StateT σ (Except GenerateError) β} {items : List α}
    (hf : ∀ a ∈ items, SucceedsIn state n (f a) Q) :
    SucceedsIn state (n * items.length) (items.mapM f)
      fun out => out.length = items.length ∧ ∀ b ∈ out, Q b := by
  induction items with
  | nil => exact .pure ⟨rfl, fun _ hmem => absurd hmem List.not_mem_nil⟩
  | cons a items ih =>
    rw [List.mapM_cons]
    have hrest := ih fun b hb => hf b (List.mem_cons_of_mem _ hb)
    refine ((hf a List.mem_cons_self).bind fun b hb => hrest.bind (k := 0) fun bs hbs =>
      .pure ⟨?_, List.forall_mem_cons.mpr ⟨hb, hbs.2⟩⟩).mono (Nat.le_of_eq ?_)
    · rw [List.length_cons, Nat.mul_add]
      omega
    · rw [List.length_cons, hbs.1, List.length_cons]

end SucceedsIn

namespace Succeeds

theorem lift {x : Except GenerateError α} {a : α} (hx : x = .ok a) (ha : P a) :
    Succeeds 0 (liftM x : Pooling α) P := fun p hp _ =>
  ⟨a, p, run_lift_iff.mpr ⟨hx, rfl⟩, hp, Nat.le_refl _, ha⟩

theorem get : Succeeds 0 (MonadState.get : Pooling Pool) fun _ => True := fun p hp _ =>
  ⟨p, p, rfl, hp, Nat.le_refl _, trivial⟩

theorem request (r : Pool.Request)
    (htexts : ∀ text ∈ r.texts, (ModifiedUtf8.encode text).length ≤ 65535)
    (hparts : ∑ q ∈ r.parts, q.width ≤ n) : Succeeds n (pooled r.intern) fun _ => True := by
  intro p hp hroom
  have hmissing : ∑ q ∈ r.parts \ p.known, q.width ≤ n :=
    Nat.le_trans (Finset.sum_le_sum_of_subset Finset.sdiff_subset) hparts
  obtain ⟨i, hi⟩ := (hp.intern_eq_ok_iff r).mpr ⟨htexts, by omega⟩
  have hrun : r.intern p = (.ok i, (r.intern p).2) := Prod.ext hi rfl
  have hanswers := hp.answers r
  refine ⟨i, (r.intern p).2, run_pooled_iff.mpr hrun, hanswers.sound, ?_, trivial⟩
  have hknown := (hanswers.of_ok i hi).2
  rw [hanswers.sound.size_eq, hknown, hp.sum_union]
  omega

theorem utf8 {text : String} (h : (ModifiedUtf8.encode text).length ≤ 65535) :
    Succeeds 1 (pooled (Pool.utf8 text)) fun _ => True :=
  request (.utf8 text) (by simpa [Pool.Request.texts] using h)
    (by simp [Pool.Request.parts, Pool.Request.width])

theorem classInfo {name : String} (h : (ModifiedUtf8.encode name).length ≤ 65535) :
    Succeeds 2 (pooled (Pool.classInfo name)) fun _ => True :=
  request (.classInfo name) (by simpa [Pool.Request.texts] using h)
    (by simp [Pool.Request.parts, Pool.Request.width])

/-- A reference to a member takes six places if it shares none with other constants. -/
private theorem member {r : Pool.Request} {owner name descriptor : String}
    (h : ∀ text ∈ r.texts, (ModifiedUtf8.encode text).length ≤ 65535) (hwidth : r.width = 1)
    (hparts : r.parts = Pool.Request.memberParts owner name descriptor ∪ {r}) :
    Succeeds 6 (pooled r.intern) fun _ => True := by
  refine request r h ?_
  have hmember : ∀ q ∈ Pool.Request.memberParts owner name descriptor, q.width ≤ 1 := by
    simp [Pool.Request.memberParts, Pool.Request.width]
  have hwidths : ∀ q ∈ r.parts, q.width ≤ 1 := by
    intro q hq
    rw [hparts, Finset.mem_union, Finset.mem_singleton] at hq
    rcases hq with hq | rfl
    · exact hmember q hq
    · exact Nat.le_of_eq hwidth
  have hcard : r.parts.card ≤ 6 := by
    rw [hparts]
    exact Nat.le_trans (Finset.card_union_le _ _) (Nat.add_le_add_right Finset.card_le_five 1)
  have hsum := Finset.sum_le_card_nsmul _ _ 1 hwidths
  rw [smul_eq_mul, Nat.mul_one] at hsum
  exact Nat.le_trans hsum hcard

section Member

variable {owner name descriptor : String}
  (h : ∀ text ∈ [owner, name, descriptor], (ModifiedUtf8.encode text).length ≤ 65535)
include h

theorem fieldRef : Succeeds 6 (pooled (Pool.fieldRef owner name descriptor)) fun _ => True :=
  member (r := .fieldRef owner name descriptor) h rfl rfl

theorem methodRef : Succeeds 6 (pooled (Pool.methodRef owner name descriptor)) fun _ => True :=
  member (r := .methodRef owner name descriptor) h rfl rfl

theorem interfaceMethodRef :
    Succeeds 6 (pooled (Pool.interfaceMethodRef owner name descriptor)) fun _ => True :=
  member (r := .interfaceMethodRef owner name descriptor) h rfl rfl

end Member

theorem bounded {limit : Limit} {items : List α} {f : List α → Pooling β}
    (h : items.length ≤ 65535) (hf : Succeeds n (f items) Q) :
    Succeeds n (Classwright.bounded limit items >>= f) Q := by
  unfold Classwright.bounded
  rw [if_pos h]
  exact hf

theorem named (body : AttributeBody) {name : String}
    (h : (ModifiedUtf8.encode name).length ≤ 65535) : Succeeds 1 (body.named name) fun _ => True :=
  (utf8 h).bind (k := 0) fun _ _ => .pure trivial

end Succeeds

end Succeeds

structure Local.Writable (l : Local) : Prop where
  name : (ModifiedUtf8.encode l.name).length ≤ 65535
  descriptor : (ModifiedUtf8.encode l.type.descriptor).length ≤ 65535
  internalName : (ModifiedUtf8.encode l.type.internalName).length ≤ 65535

section Code

variable {owner : ClassDecl} {m : MethodDecl} {b : Body} {fields : List Initializer} {slots : Slots}

private theorem VerificationType.succeeds_ofType {t : JavaType}
    (h : (ModifiedUtf8.encode t.internalName).length ≤ 65535) :
    Succeeds 2 (ofType t) fun _ => True := by
  unfold ofType
  split
  · exact (Succeeds.classInfo h).bind (k := 0) fun _ _ => .pure trivial
  all_goals exact .pure trivial

private theorem Layout.succeeds_declare {w : Nat} (types : Locals w) {entries : List (Local × UInt16)}
    (h : ∀ entry ∈ entries, entry.1.Writable) :
    Succeeds (2 * entries.length) (declare types entries) fun _ => True := by
  induction entries generalizing types with
  | nil => exact .pure trivial
  | cons entry entries ih =>
    have hrest := fun types => ih types fun e he => h e (List.mem_cons_of_mem _ he)
    refine ((VerificationType.succeeds_ofType (h entry List.mem_cons_self).internalName).bind
      fun v _ => hrest _).mono ?_
    rw [List.length_cons]
    omega

private theorem Layout.succeeds_ofSlots (howner : (ModifiedUtf8.encode owner.this.name).length ≤ 65535)
    (h : ∀ entry ∈ slots.locals.toList, entry.1.Writable) :
    Succeeds (2 * slots.locals.toList.length + 2) (ofSlots owner m b slots) fun _ => True := by
  refine (succeeds_declare _ h).bind fun declared _ => ?_
  dsimp only
  split
  · exact (Succeeds.classInfo howner).bind (k := 0) fun _ _ => .pure trivial
  · exact .pure trivial

theorem Assembly.succeeds_ofItems {items : List Item} (layout? : Option Layout) {steps : Array Step}
    (hresolve : (Draft.ofItems items).resolve = .ok steps) :
    Succeeds 2 (ofItems items layout?) fun _ => True := by
  have hframes : ∀ (layout : Layout) (states : Flow.States layout.width steps.size),
      Succeeds 2 (mapFrames (Draft.ofItems items) steps layout states) fun _ => True := by
    intro layout states
    unfold mapFrames
    dsimp only
    split
    · exact .pure trivial
    · exact (Succeeds.classInfo (by decide)).bind (k := 0) fun _ _ => .pure trivial
  refine ((Succeeds.lift (P := (· = steps)) hresolve rfl).bind fun steps' hsteps => ?_).mono
    (Nat.le_of_eq (Nat.zero_add 2))
  subst hsteps
  dsimp only
  split
  · exact (hframes _ _).bind (k := 0) fun _ _ => Succeeds.get.bind (k := 0) fun _ _ => .pure trivial
  · exact (SucceedsIn.pure (P := fun _ => True) trivial).bind (k := 0) fun _ _ =>
      Succeeds.get.bind (k := 0) fun _ _ => .pure trivial

namespace MethodDecl

private theorem succeeds_localTable (length : UInt16)
    (h : ∀ entry ∈ slots.locals.toList, entry.1.Writable) :
    Succeeds (2 * slots.locals.toList.length + 1) (localTable length slots) fun _ => True := by
  unfold localTable
  split
  · exact .pure trivial
  · refine (SucceedsIn.mapM (Q := fun _ => True) fun entry hentry => ?_).bind fun _ _ =>
      (Succeeds.named _ (by decide)).bind (k := 0) fun _ _ => .pure trivial
    exact (Succeeds.utf8 (h entry hentry).name).bind fun _ _ =>
      (Succeeds.utf8 (h entry hentry).descriptor).bind (k := 0) fun _ _ => .pure trivial

private theorem succeeds_stackMap (frames : List MapFrame) :
    Succeeds 1 (stackMap frames) fun _ => True := by
  unfold stackMap
  split
  · exact .pure trivial
  · exact (Succeeds.named _ (by decide)).bind (k := 0) fun _ _ => .pure trivial

/-- The code of a method is generated if its body is lowered to code whose branches are resolved. -/
theorem succeeds_codeAttribute (options : Options) {n k : Nat}
    (howner : (ModifiedUtf8.encode owner.this.name).length ≤ 65535)
    (hlower : Succeeds n (m.lower owner b fields) fun out =>
      (∃ steps, (Draft.ofItems out.1).resolve = .ok steps) ∧ out.2.locals.toList.length ≤ k ∧
        ∀ entry ∈ out.2.locals.toList, entry.1.Writable) :
    Succeeds (n + (4 * k + 7)) (m.codeAttribute options owner b fields) fun _ => True := by
  refine hlower.bind fun (items, slots) ⟨⟨steps, hresolve⟩, hcount, hwritable⟩ => ?_
  dsimp only at hresolve hcount hwritable
  have hlayout : Succeeds (2 * k + 2) (m.layout? options owner b slots) fun _ => True := by
    unfold layout?
    split
    · exact ((Layout.succeeds_ofSlots howner hwritable).bind (k := 0) fun _ _ =>
        .pure trivial).mono (by omega)
    · exact .pure trivial
  have hnames : ∀ length, Succeeds (2 * k + 1) (nameAttributes options length slots)
      fun _ => True := by
    intro length
    unfold nameAttributes
    split
    · exact (succeeds_localTable _ hwritable).mono (by omega)
    · exact .pure trivial
  refine SucceedsIn.mono (hlayout.bind fun layout? _ =>
    (Assembly.succeeds_ofItems layout? hresolve).bind fun assembly _ =>
      (hnames _).bind fun names _ => (succeeds_stackMap _).bind fun maps _ =>
        Succeeds.named _ (by decide)) ?_
  omega

end MethodDecl

end Code

section Lowering

theorem run_mapM_of_forall₂ {σ α β : Type} {f : α → StateT σ (Except GenerateError) β}
    {items : List α} {out : List β} {s : σ}
    (h : List.Forall₂ (fun a b => f a s = .ok (b, s)) items out) : items.mapM f s = .ok (out, s) := by
  induction h with
  | nil => rfl
  | cons hhead _ ih =>
    rw [List.mapM_cons]
    exact run_bind_iff.mpr ⟨_, s, hhead, run_bind_iff.mpr ⟨_, s, ih, rfl⟩⟩

variable {l : Local} {kind : Kind} {slot : UInt16} {s : Lowering}

theorem Lower.run_load (hkind : l.type.kind? = some kind)
    (hslot : s.slots.index[l.name]? = some slot) :
    load l s = .ok (.op (.loadSlot kind slot), s) := by
  have hlookup : slotOf l s = .ok (slot, s) := by simp [slotOf, Slots.lookup_eq_ok_iff.mpr hslot]
  have hkindOf : kindOf l.type s = .ok (kind, s) := by
    rw [kindOf, hkind]
    rfl
  exact run_bind_iff.mpr ⟨slot, s, hlookup, run_bind_iff.mpr ⟨kind, s, hkindOf, rfl⟩⟩

theorem Lower.run_store (hkind : l.type.kind? = some kind)
    (hslot : s.slots.index[l.name]? = some slot) :
    store l s = .ok (.op (.storeSlot kind slot), s) := by
  have hfound : slotForStore l s = .ok (slot, s) := by simp [slotForStore, Slots.forStore, hslot]
  have hkindOf : kindOf l.type s = .ok (kind, s) := by
    rw [kindOf, hkind]
    rfl
  exact run_bind_iff.mpr ⟨kind, s, hkindOf, run_bind_iff.mpr ⟨slot, s, hfound, rfl⟩⟩

theorem Lower.run_declaredLabel {ctx : MethodContext} {label : Label}
    (h : ctx.labels.contains label = true) : declaredLabel ctx label s = .ok (label, s) := by
  rw [declaredLabel, if_pos h]
  rfl

namespace Lower.SucceedsOn

variable {α : Type} {P : α → Prop} {slots : Slots} {n : Nat}

theorem pooling {act : Pooling α} (h : Succeeds n act P) : SucceedsOn slots n (Lower.pooling act) P := by
  intro p hp hroom
  obtain ⟨a, q, hrun, hq, hsize, ha⟩ := h p hp hroom
  exact ⟨a, q, run_pooling_iff.mpr ⟨hrun, rfl⟩, hq, hsize, ha⟩

variable {l : Local} {slot : UInt16} (hslot : slots.index[l.name]? = some slot)
include hslot

theorem slotOf : SucceedsOn slots 0 (Lower.slotOf l) (· = slot) := fun p hp _ =>
  ⟨slot, p, by simp [Lower.slotOf, Slots.lookup_eq_ok_iff.mpr hslot], hp, Nat.le_refl _, rfl⟩

variable {kind : Kind} (hkind : l.type.kind? = some kind)
include hkind

theorem load : SucceedsOn slots 0 (Lower.load l) (· = .op (.loadSlot kind slot)) := fun p hp _ =>
  ⟨_, p, run_load hkind hslot, hp, Nat.le_refl _, rfl⟩

theorem store : SucceedsOn slots 0 (Lower.store l) (· = .op (.storeSlot kind slot)) := fun p hp _ =>
  ⟨_, p, run_store hkind hslot, hp, Nat.le_refl _, rfl⟩

end Lower.SucceedsOn

/-- Short code is resolved if every branch leads to a line. -/
theorem Draft.exists_resolve {items : List Item} (hsize : Line.total (Item.lines items) ≤ 32767)
    (hplaced : ∀ when label, Line.branch when label ∈ Item.lines items →
      ∃ target < (Item.lines items).length, (ofItems items).placed[label]? = some target) :
    ∃ steps, (ofItems items).resolve = .ok steps := by
  have haddress : ∀ i ≤ (Item.lines items).length, (ofItems items).address i ≤ 32767 := by
    intro i hi
    rw [address_ofItems items hi]
    exact Nat.le_trans (Line.total_take_le _ _) hsize
  have hline : ∀ i ≤ (Item.lines items).length, ∀ line ∈ Item.lines items,
      ∃ step, (ofItems items).resolveLine i line = .ok step := by
    intro i hle line hmem
    cases line with
    | plain instr => exact ⟨_, rfl⟩
    | branch when label =>
      obtain ⟨target, hlt, htarget⟩ := hplaced when label hmem
      have hi := haddress i hle
      have ht := haddress target (Nat.le_of_lt hlt)
      simp only [resolveLine, htarget]
      rw [if_pos (by rw [size_lines_ofItems]; exact hlt), if_pos (by omega)]
      exact ⟨_, rfl⟩
  have hfrom : ∀ (lines : List Line) (i : Nat) (done : Array Step),
      i + lines.length = (Item.lines items).length → (∀ line ∈ lines, line ∈ Item.lines items) →
        ∃ steps, (ofItems items).resolveFrom i lines done = .ok steps := by
    intro lines
    induction lines with
    | nil => exact fun i done _ _ => ⟨done, rfl⟩
    | cons line lines ih =>
      intro i done hlength hmem
      rw [List.length_cons] at hlength
      obtain ⟨step, hstep⟩ := hline i (by omega) line (hmem line List.mem_cons_self)
      rw [resolveFrom, hstep]
      exact ih (i + 1) (done.push step) (by omega) fun l hl => hmem l (List.mem_cons_of_mem _ hl)
  rw [resolve, if_pos (by rw [size_ofItems]; omega)]
  rw [lines_ofItems]
  exact hfrom _ 0 #[] (Nat.zero_add _) fun _ h => h

def Item.Short (size : Nat) (items : List Item) : Prop :=
  Line.total (lines items) ≤ size ∧ ∀ when label, Line.branch when label ∉ lines items

namespace Item.Short

theorem nil : Short 0 [] :=
  ⟨Nat.le_refl 0, fun _ _ => List.not_mem_nil⟩

theorem append {size rest : Nat} {items more : List Item} (h : Short size items)
    (h' : Short rest more) : Short (size + rest) (items ++ more) := by
  rw [Short, Item.lines_append, Line.total_append]
  refine ⟨Nat.add_le_add h.1 h'.1, fun when label hmem => ?_⟩
  rcases List.mem_append.mp hmem with hmem | hmem
  · exact h.2 when label hmem
  · exact h'.2 when label hmem

theorem flatten {size : Nat} {blocks : List (List Item)} (h : ∀ block ∈ blocks, Short size block) :
    Short (size * blocks.length) blocks.flatten := by
  induction blocks with
  | nil => exact nil
  | cons block blocks ih =>
    obtain ⟨hblock, hblocks⟩ := List.forall_mem_cons.mp h
    rw [List.flatten_cons, List.length_cons, Nat.mul_succ, Nat.add_comm]
    exact hblock.append (ih hblocks)

theorem exists_resolve {size : Nat} {items : List Item} (h : Short size items) (hsize : size ≤ 32767) :
    ∃ steps, (Draft.ofItems items).resolve = .ok steps :=
  Draft.exists_resolve (h.1.trans hsize) fun when label hmem => absurd hmem (h.2 when label)

end Item.Short

theorem Lower.SucceedsOn.finalReturn {m : MethodDecl} {b : Body} {slots : Slots}
    (hresult : m.result.isVoid = true) :
    SucceedsOn slots 0 (Lower.finalReturn m b) (Item.Short 1) := by
  unfold Lower.finalReturn
  split
  · exact .pure ⟨Nat.zero_le 1, by simp [Item.lines]⟩
  · rw [if_pos hresult]
    exact .pure ⟨by decide, by simp [Item.lines, Item.line?]⟩

/-- A method is lowered if its parts are, where these use the slots of its parameters only. -/
theorem MethodDecl.succeeds_lower {owner : ClassDecl} {m : MethodDecl} {b : Body}
    {fields : List Initializer} {slots : Slots} (hslots : Slots.allocateAll {} b.parameters = .ok slots)
    (hchain : Lower.SucceedsOn slots 6 (Lower.chain owner m b) (Item.Short 10))
    (hfields : ∀ i ∈ fields, Lower.SucceedsOn slots 12 (Lower.fillField owner i) (Item.Short 10))
    (hstatements : ∀ st ∈ b.statements, Lower.SucceedsOn slots 6
      (Lower.statement ⟨owner, m, Std.HashSet.ofList b.labels⟩ st) (Item.Short 10))
    (hreturn : Lower.SucceedsOn slots 0 (Lower.finalReturn m b) (Item.Short 1))
    (hcount : fields.length + b.statements.length ≤ 1000) :
    Succeeds (12 * fields.length + 6 * b.statements.length + 6) (m.lower owner b fields) fun out =>
      (∃ steps, (Draft.ofItems out.1).resolve = .ok steps) ∧ out.2 = slots := by
  have hcode : Lower.SucceedsOn slots
      (6 + (12 * fields.length + (6 * b.statements.length + 0 + (0 + 0)))) (do
        let chained ← Lower.chain owner m b
        let initialized ← fields.mapM (Lower.fillField owner)
        let code ← Lower.statements ⟨owner, m, Std.HashSet.ofList b.labels⟩ b.statements
        let final ← Lower.finalReturn m b
        return chained ++ initialized.flatten ++ code ++ final)
      (Item.Short (10 + 10 * fields.length + 10 * b.statements.length + 1)) := by
    refine hchain.bind fun chained hchained => (SucceedsIn.mapM hfields).bind fun filled hfilled => ?_
    refine ((SucceedsIn.mapM hstatements).bind (k := 0) (Q := Item.Short (10 * b.statements.length))
      fun blocks hblocks => .pure ?_).bind fun code hcode => hreturn.bind fun final hfinal => .pure ?_
    · rw [← hblocks.1]
      exact .flatten hblocks.2
    · rw [← hfilled.1]
      exact ((hchained.append (.flatten hfilled.2)).append hcode).append hfinal
  intro p hp hroom
  obtain ⟨items, q, hrun, hq, hsize, hshort⟩ := hcode p hp (by omega)
  have hallocate : Lower.allocate b.parameters ⟨p, {}⟩ = .ok ((), ⟨p, slots⟩) := by
    simp only [Lower.allocate, hslots]
  exact ⟨(items, slots), q, run_lower_iff.mpr (run_bind_iff.mpr ⟨(), _, hallocate, hrun⟩), hq,
    by omega, hshort.exists_resolve (by omega), rfl⟩

end Lowering

open Annotation (storeKept)

namespace KeptAnnotation

private theorem succeeds_listAttribute {name : String} (hname : (ModifiedUtf8.encode name).length ≤ 65535)
    {list : List StoredAnnotation} (hlength : list.length ≤ 65535) :
    Succeeds 1 (listAttribute name list) fun out => out.length ≤ 1 := by
  unfold listAttribute
  split
  · exact .pure (Nat.zero_le 1)
  · exact Succeeds.bounded hlength ((Succeeds.named _ hname).bind (k := 0) fun _ _ => .pure (Nat.le_refl 1))

theorem succeeds_attributes_of_length {kept : List KeptAnnotation} (h : kept.length ≤ 65535) :
    Succeeds 2 (attributes kept) fun out => out.length ≤ 2 := by
  have hlength : ∀ visible, (withVisibility visible kept).length ≤ 65535 := fun visible =>
    Nat.le_trans (List.length_filterMap_le _ _) h
  refine (succeeds_listAttribute (by decide) (hlength true)).bind (k := 1) fun visible hvisible => ?_
  refine (succeeds_listAttribute (by decide) (hlength false)).bind (k := 0) fun invisible hinvisible => ?_
  apply SucceedsIn.pure
  rw [List.length_append]
  omega

private theorem succeeds_tableAttribute {name : String}
    (hname : (ModifiedUtf8.encode name).length ≤ 65535) {parameters : List (Nat × List StoredAnnotation)}
    (hlength : ∀ row ∈ rowsAfter [] parameters parameters, row.length ≤ 65535) :
    Succeeds 1 (tableAttribute name parameters) fun out => out.length ≤ 1 := by
  unfold tableAttribute
  split
  · exact .pure (Nat.zero_le 1)
  · have hrows : Succeeds (0 * (rowsAfter [] parameters parameters).length)
        ((rowsAfter [] parameters parameters).mapM (bounded .annotations)) fun _ => True := by
      refine (SucceedsIn.mapM (Q := fun _ => True) fun row hrow => ?_).imp fun _ _ => trivial
      unfold bounded
      rw [if_pos (hlength row hrow)]
      exact .pure trivial
    rw [Nat.zero_mul] at hrows
    exact hrows.bind (n := 0) (k := 1) fun rows _ =>
      (Succeeds.named _ hname).bind (k := 0) fun _ _ => .pure (Nat.le_refl 1)

theorem length_le_of_mem_rowsAfter {all parameters : List (Nat × List StoredAnnotation)} {seen : List Nat}
    {row : List StoredAnnotation} (h : row ∈ rowsAfter seen all parameters) :
    row.length ≤ (all.flatMap Prod.snd).length := by
  induction parameters generalizing seen with
  | nil => simp [rowsAfter] at h
  | cons p rest ih =>
    rw [rowsAfter] at h
    rcases List.mem_cons.mp h with rfl | h
    · split
      · exact Nat.zero_le _
      · exact (List.filter_sublist.flatMap _).length_le
    · exact ih h

theorem succeeds_parameterAttributes_of_length {parameters : List (Nat × List KeptAnnotation)}
    (hcount : parameters.length ≤ 255) (hlength : (parameters.flatMap Prod.snd).length ≤ 65535) :
    Succeeds 2 (parameterAttributes parameters) fun out => out.length ≤ 2 := by
  have hrows : ∀ visible, ∀ row ∈ rowsAfter []
      (parameters.map fun p => (p.1, withVisibility visible p.2))
      (parameters.map fun p => (p.1, withVisibility visible p.2)), row.length ≤ 65535 := by
    intro visible row hrow
    have hall := length_le_of_mem_rowsAfter hrow
    have hselect : withVisibility visible (parameters.flatMap Prod.snd) =
        (parameters.map fun p => (p.1, withVisibility visible p.2)).flatMap Prod.snd := by
      rw [withVisibility, List.filterMap_flatMap, List.flatMap_map]
      rfl
    rw [← hselect] at hall
    exact Nat.le_trans hall (Nat.le_trans (List.length_filterMap_le _ _) hlength)
  unfold parameterAttributes
  rw [if_pos hcount]
  refine (succeeds_tableAttribute (by decide) (hrows true)).bind (k := 1) fun visible hvisible => ?_
  refine (succeeds_tableAttribute (by decide) (hrows false)).bind (k := 0) fun invisible hinvisible => ?_
  apply SucceedsIn.pure
  rw [List.length_append]
  omega

private theorem succeeds_parameterAttributes {parameters : List (Nat × List KeptAnnotation)}
    (hnone : ∀ p ∈ parameters, p.2 = []) (hcount : parameters.length ≤ 255) :
    Succeeds 0 (parameterAttributes parameters) (· = []) := by
  have htable : ∀ name visible, tableAttribute name
      (parameters.map fun p => (p.1, withVisibility visible p.2)) = pure [] := by
    intro name visible
    unfold tableAttribute
    rw [if_pos]
    simp only [List.all_map, List.all_eq_true, Function.comp]
    intro p hp
    rw [hnone p hp]
    rfl
  unfold parameterAttributes
  rw [if_pos hcount]
  dsimp only
  rw [htable, htable]
  exact .pure rfl

private theorem succeeds_storeKept {annotations : List Annotation} (h : annotations = []) :
    Succeeds 0 (storeKept annotations) (· = []) := by
  rw [h]
  exact .pure rfl

private theorem succeeds_attributes {kept : List KeptAnnotation} (h : kept = []) :
    Succeeds 0 (attributes kept) (· = []) := by
  rw [h]
  exact .pure rfl

end KeptAnnotation

open KeptAnnotation

theorem FieldDecl.succeeds_generate {f : FieldDecl} (hstatic : f.isStatic = true)
    (hinitial : ∀ value ∈ f.initial, value.needsCode = true)
    (hname : (ModifiedUtf8.encode f.name).length ≤ 65535)
    (hdescriptor : (ModifiedUtf8.encode f.type.descriptor).length ≤ 65535)
    (hannotations : f.annotations = []) : Succeeds 2 f.generate fun _ => True := by
  have hvalue : Succeeds 0 f.valueAttribute (· = []) := by
    unfold valueAttribute
    cases hvalue : f.initial with
    | none => exact .pure rfl
    | some value =>
      dsimp only
      rw [if_pos (hinitial value hvalue), if_pos hstatic]
      exact .pure rfl
  refine SucceedsIn.mono (n := 0 + (0 + (0 + (1 + (1 + 0))))) ?_ (by omega)
  refine hvalue.bind fun value hvalue => ?_
  refine (succeeds_storeKept hannotations).bind fun kept hkept => ?_
  refine (succeeds_attributes hkept).bind fun own hown => ?_
  refine (Succeeds.utf8 hname).bind fun _ _ => (Succeeds.utf8 hdescriptor).bind fun _ _ => ?_
  refine Succeeds.bounded ?_ (.pure trivial)
  rw [hvalue, hown]
  decide

namespace MethodDecl

variable {options : Options} {owner : ClassDecl} {m : MethodDecl} {fields : List Initializer} {n : Nat}

theorem succeeds_codeAttributes {b : Body} (hbody : m.body? = some b)
    (hcode : Succeeds n (m.codeAttribute options owner b fields) fun _ => True) :
    Succeeds n (m.codeAttributes options owner fields) fun out => out.length ≤ 1 := by
  rw [codeAttributes, hbody]
  exact hcode.bind (k := 0) fun _ _ => .pure (Nat.le_refl 1)

theorem succeeds_codeAttributes_of_none (hbody : m.body? = none) :
    Succeeds 0 (m.codeAttributes options owner fields) fun out => out.length ≤ 1 := by
  rw [codeAttributes, hbody]
  exact .pure (Nat.zero_le 1)

private theorem succeeds_checkSlots (hcount : m.parameters.length ≤ 255) :
    Succeeds 0 m.checkSlots fun _ => True := by
  have hwidth := JavaType.totalWidth_le (m.parameters.map (·.type))
  rw [List.length_map] at hwidth
  have hstart : (if m.isStatic then 0 else 1 : UInt16).toNat ≤ 1 := by split <;> decide
  rw [checkSlots, JavaType.countWords?_eq, if_pos (by omega)]
  exact .pure trivial

theorem succeeds_generate_of {j l a b : Nat} {K : List KeptAnnotation → Prop}
    {R : List (List KeptAnnotation) → Prop}
    (hcodes : Succeeds n (m.codeAttributes options owner fields) fun out => out.length ≤ 1)
    (hname : (ModifiedUtf8.encode m.name).length ≤ 65535)
    (hdescriptor : (ModifiedUtf8.encode m.descriptor).length ≤ 65535)
    (hcount : m.parameters.length ≤ 255)
    (hkept : Succeeds j (storeKept m.annotations) K)
    (hkeptBy : Succeeds l (m.parameters.mapM fun p => Annotation.storeKept p.annotations) R)
    (hown : ∀ kept, K kept → Succeeds a (attributes kept) fun out => out.length ≤ 2)
    (hof : ∀ keptBy, R keptBy → Succeeds b
      (parameterAttributes (m.parameterSlots.zip keptBy)) fun out => out.length ≤ 2) :
    Succeeds (n + (0 + (j + (l + (a + (b + 2)))))) (m.generate options owner fields) fun _ => True := by
  refine hcodes.bind fun code hcode => (succeeds_checkSlots hcount).bind fun _ _ => ?_
  refine hkept.bind fun kept hkept => hkeptBy.bind fun keptBy hkeptBy => ?_
  refine (hown kept hkept).bind fun own hown => ?_
  refine (hof keptBy hkeptBy).bind fun ofParameters hofParameters => ?_
  refine (Succeeds.utf8 hname).bind (k := 1) fun _ _ => ?_
  refine (Succeeds.utf8 hdescriptor).bind (k := 0) fun _ _ => ?_
  refine Succeeds.bounded ?_ (.pure trivial)
  rw [List.length_append, List.length_append]
  omega

theorem succeeds_generate
    (hcodes : Succeeds n (m.codeAttributes options owner fields) fun out => out.length ≤ 1)
    (hname : (ModifiedUtf8.encode m.name).length ≤ 65535)
    (hdescriptor : (ModifiedUtf8.encode m.descriptor).length ≤ 65535)
    (hannotations : m.annotations = []) (hparameters : ∀ p ∈ m.parameters, p.annotations = [])
    (hcount : m.parameters.length ≤ 255) :
    Succeeds (n + 2) (m.generate options owner fields) fun _ => True := by
  have hnone : ∀ out : List Attribute, out = [] → out.length ≤ 2 := by simp
  have hkeptBy : Succeeds (0 * m.parameters.length)
      (m.parameters.mapM fun p => Annotation.storeKept p.annotations)
      fun out => out.length = m.parameters.length ∧ ∀ kept ∈ out, kept = [] :=
    SucceedsIn.mapM fun p hp => KeptAnnotation.succeeds_storeKept (hparameters p hp)
  refine (succeeds_generate_of (b := 0) hcodes hname hdescriptor hcount
    (succeeds_storeKept hannotations)
    hkeptBy (fun kept hkept => (succeeds_attributes hkept).imp hnone)
    (fun keptBy ⟨hlength, hkept⟩ => ?_)).mono (by omega)
  refine (succeeds_parameterAttributes (fun p hp => ?_) ?_).imp hnone
  · exact hkept p.2 (List.of_mem_zip hp).2
  · rw [List.length_zip]
    omega

end MethodDecl

/-- A class without interfaces and source is generated if its members and annotations are. -/
theorem ClassDecl.exists_generate {options : Options} {c : ClassDecl} {n k j l : Nat}
    {K : List KeptAnnotation → Prop} {A : List Attribute → Prop}
    (hthis : (ModifiedUtf8.encode c.this.name).length ≤ 65535)
    (hsuper : ∀ super ∈ c.super, (ModifiedUtf8.encode super.name).length ≤ 65535)
    (hinterfaces : c.interfaces = []) (hsource : c.sourceFile = none)
    (hfields : ∀ f ∈ c.fields, Succeeds n f.generate fun _ => True)
    (hmethods : ∀ m ∈ c.plan, Succeeds k (m.1.generate options c m.2) fun _ => True)
    (hkept : Succeeds j (storeKept c.annotations) K)
    (hattributes : ∀ kept, K kept → Succeeds l (attributes kept) A)
    (hcount : ∀ out, A out → out.length ≤ 65535)
    (hlengths : c.fields.length ≤ 65535 ∧ c.plan.length ≤ 65535)
    (hroom : n * c.fields.length + k * c.plan.length + (j + l) ≤ 65000) :
    ∃ file, c.generate options = .ok file ∧ A file.attributes := by
  have hgenerated : Succeeds (k * c.plan.length)
      (generateMethods options c c.initializers [] c.allMethods)
      fun out => out.length = c.plan.length := by
    rw [generateMethods_eq]
    exact (SucceedsIn.mapM hmethods).bind (k := 0) fun members hmembers => .pure hmembers.1
  have hsuperIndex : Succeeds 2 c.superIndex fun _ => True := by
    unfold superIndex
    cases hc : c.super with
    | none => exact .pure trivial
    | some super => exact .classInfo (hsuper super hc)
  have hbuild : Succeeds
      (2 + (2 + (0 + (j + (n * c.fields.length + (k * c.plan.length + (0 + (l + 0))))))))
      (c.build options) fun file => A file.attributes := by
    refine (Succeeds.classInfo hthis).bind fun _ _ => hsuperIndex.bind fun _ _ => ?_
    rw [hinterfaces]
    refine SucceedsIn.bind (P := (· = [])) (.pure rfl) fun interfaces hinterfaces => ?_
    refine hkept.bind fun kept hkept => (SucceedsIn.mapM hfields).bind fun fields hfields => ?_
    refine hgenerated.bind fun methods hmethods => ?_
    rw [sourceAttribute, hsource, hinterfaces]
    refine SucceedsIn.bind (P := (· = [])) (.pure rfl) fun source hsource => ?_
    refine (hattributes kept hkept).bind fun attributes hattributes => ?_
    rw [hsource, List.nil_append]
    refine Succeeds.bounded (by decide) (Succeeds.bounded ?_ (Succeeds.bounded ?_
      (Succeeds.bounded (hcount _ hattributes) (.pure hattributes))))
    · rw [hfields.1]
      exact hlengths.1
    · rw [hmethods]
      exact hlengths.2
  obtain ⟨file, q, hrun, -, -, hfile⟩ := hbuild {} Pool.sound_empty (by
    change 0 + _ ≤ 65534
    omega)
  exact ⟨{ file with poolCount := q.count, pool := q.entries }, by rw [generate, hrun], hfile⟩

theorem ClassDecl.exists_generate_method {options : Options} {c : ClassDecl} {m : MethodDecl} {n : Nat}
    (hthis : (ModifiedUtf8.encode c.this.name).length ≤ 65535)
    (hsuper : ∀ super ∈ c.super, (ModifiedUtf8.encode super.name).length ≤ 65535)
    (hinterfaces : c.interfaces = []) (hsource : c.sourceFile = none) (hfields : c.fields = [])
    (hannotations : c.annotations = []) (hplan : c.plan = [(m, [])])
    (hmethod : Succeeds n (m.generate options c []) fun _ => True) (hroom : n ≤ 65000) :
    ∃ file, c.generate options = .ok file := by
  have hmethods : ∀ m ∈ c.plan, Succeeds n (m.1.generate options c m.2) fun _ => True := by
    rw [hplan]
    exact List.forall_mem_singleton.mpr hmethod
  obtain ⟨file, hfile, -⟩ := exists_generate (n := 0) hthis hsuper hinterfaces hsource (by simp [hfields])
    hmethods (succeeds_storeKept hannotations)
    (fun kept => KeptAnnotation.succeeds_attributes) (by rintro out rfl; decide)
    ⟨by simp [hfields], by simp [hplan]⟩ (by simpa [hfields, hplan] using hroom)
  exact ⟨file, hfile⟩

namespace Quotient

/-!
## An example

A method with a loop that can trap, in a class that is generated with any options.
-/

def x : Local := ⟨"x", .primitive .int⟩
def y : Local := ⟨"y", .primitive .int⟩

/-- Divides `x` by `y` until nothing is left. -/
def body : Body where
  parameters := [x, y]
  statements := [.mark 0, .test .equal x 1, .binary .div x y x, .goto 0, .mark 1, .ret (some x)]
  labels := [0, 1]

def method : MethodDecl where
  name := "quotient"
  modifiers := ⟨0x0009⟩
  parameters := [{ name := "x", type := .primitive .int }, { name := "y", type := .primitive .int }]
  result := .primitive .int
  body := some body

def owner : ClassDecl where
  this := { name := "Quotient" }
  methods := [method]

def items : List Item :=
  [.mark 0, .op (.loadSlot .int 0), .branch (.ifZero .equal) 1, .op (.loadSlot .int 0),
    .op (.loadSlot .int 1), .op (.arith .div .int), .op (.storeSlot .int 0), .branch .always 0,
    .mark 1, .op (.loadSlot .int 0), .op (.returnValue .int)]

private theorem lower_eq {slots : Slots} (hslots : Slots.allocateAll {} [x, y] = .ok slots)
    (hx : slots.index["x"]? = some 0) (hy : slots.index["y"]? = some 1) (p : Pool) :
    method.lower owner body [] p = .ok ((items, slots), p) := by
  let s : Lowering := ⟨p, slots⟩
  let ctx : MethodContext := ⟨owner, method, Std.HashSet.ofList body.labels⟩
  have hlabel : ∀ label ∈ [0, 1], Lower.declaredLabel ctx label s = .ok (label, s) := by
    intro label h
    exact Lower.run_declaredLabel (by simpa [ctx, body] using h)
  have hzero := hlabel 0 (by simp)
  have hone := hlabel 1 (by simp)
  have hloadx : Lower.load x s = _ := Lower.run_load rfl hx
  have hloady : Lower.load y s = _ := Lower.run_load rfl hy
  have hstore : Lower.store x s = _ := Lower.run_store rfl hx
  have hstatements : body.statements.mapM (Lower.statement ctx) s =
      .ok ([[.mark 0], [.op (.loadSlot .int 0), .branch (.ifZero .equal) 1],
        [.op (.loadSlot .int 0), .op (.loadSlot .int 1), .op (.arith .div .int),
          .op (.storeSlot .int 0)],
        [.branch .always 0], [.mark 1], [.op (.loadSlot .int 0), .op (.returnValue .int)]], s) := by
    refine run_mapM_of_forall₂ (.cons ?_ (.cons ?_ (.cons ?_ (.cons ?_ (.cons ?_ (.cons ?_ .nil))))))
    · exact run_bind_iff.mpr ⟨0, s, hzero, rfl⟩
    · exact run_bind_iff.mpr ⟨1, s, hone, run_bind_iff.mpr ⟨_, s, hloadx, rfl⟩⟩
    · exact run_bind_iff.mpr ⟨_, s, hloadx, run_bind_iff.mpr ⟨_, s, hloady,
        run_bind_iff.mpr ⟨_, s, hstore, rfl⟩⟩⟩
    · exact run_bind_iff.mpr ⟨0, s, hzero, rfl⟩
    · exact run_bind_iff.mpr ⟨1, s, hone, rfl⟩
    · exact run_bind_iff.mpr ⟨.int, s, rfl, run_bind_iff.mpr ⟨_, s, hloadx, rfl⟩⟩
  have hbody : Lower.body owner method body [] ⟨p, {}⟩ = .ok (items, s) := by
    have hallocate : Lower.allocate body.parameters ⟨p, {}⟩ = .ok ((), s) := by
      have hparameters : body.parameters = [x, y] := rfl
      simp only [Lower.allocate, hparameters, hslots, s]
    refine run_bind_iff.mpr ⟨(), s, hallocate, ?_⟩
    refine run_bind_iff.mpr ⟨[], s, rfl, run_bind_iff.mpr ⟨[], s, rfl, ?_⟩⟩
    refine run_bind_iff.mpr ⟨items, s, ?_, rfl⟩
    exact run_bind_iff.mpr ⟨_, s, hstatements, rfl⟩
  rw [MethodDecl.lower, hbody]

private theorem exists_steps : ∃ steps, (Draft.ofItems items).resolve = .ok steps := by
  refine Draft.exists_resolve (by decide) fun when label hmem => ?_
  have hlabel : label = 0 ∨ label = 1 := by
    simp only [items, Item.lines, Item.line?, List.filterMap_cons, List.filterMap_nil, List.mem_cons,
      Line.branch.injEq, reduceCtorEq, List.not_mem_nil, false_or, or_false] at hmem
    rcases hmem with ⟨-, h⟩ | ⟨-, h⟩
    · exact .inr h
    · exact .inl h
  rcases hlabel with rfl | rfl
  · exact ⟨0, by decide, Draft.placed_ofItems.mpr ⟨[], items.tail, rfl, by decide, rfl⟩⟩
  · exact ⟨7, by decide,
      Draft.placed_ofItems.mpr ⟨items.take 8, items.drop 9, rfl, by decide, rfl⟩⟩

theorem exists_file (options : Options) : ∃ file, owner.generate options = .ok file := by
  obtain ⟨slots, hslots, hx, hy, hlocals⟩ :=
    Slots.exists_allocateAll_pair (a := x) (b := y) (by decide) (by decide)
  have hlower : Succeeds 0 (method.lower owner body []) fun out =>
      (∃ steps, (Draft.ofItems out.1).resolve = .ok steps) ∧ out.2.locals.toList.length ≤ 2 ∧
        ∀ entry ∈ out.2.locals.toList, entry.1.Writable := by
    intro p hp hroom
    refine ⟨_, p, lower_eq hslots hx hy p, hp, Nat.le_refl _, exists_steps, ?_, ?_⟩
    · rw [hlocals]
      exact Nat.le_refl 2
    · rw [hlocals]
      simp only [List.forall_mem_cons, List.not_mem_nil, false_imp_iff, implies_true, and_true]
      exact ⟨⟨by decide, by decide, by decide⟩, ⟨by decide, by decide, by decide⟩⟩
  have hcode := MethodDecl.succeeds_codeAttribute options (by decide) hlower
  have hmethod := MethodDecl.succeeds_generate (MethodDecl.succeeds_codeAttributes rfl hcode) (by decide)
    (by decide) rfl (by decide) (by decide)
  exact ClassDecl.exists_generate_method (by decide) (by decide) rfl rfl rfl rfl rfl hmethod (by decide)

theorem wellFormed : body.WellFormed where
  valued := by decide
  typed := by decide
  kinds := by simp [body, Statement.KindCorrect]; decide
  labels := by decide

end Quotient

namespace Palette

/-!
## A class with values that need code

The values of static fields are put into them by a static initializer, which is added or declared.
-/

def color : ClassType := { name := "Color" }

/-- A field whose value is a constant of an enumeration. -/
def field (name constant : String) : FieldDecl where
  name := name
  modifiers := ⟨0x0008⟩
  type := .object color
  initial := some (.enum color constant)

def first : FieldDecl := field "first" "RED"

def last : FieldDecl := field "last" "BLUE"

def owner (others : List FieldDecl) (methods : List MethodDecl) : ClassDecl where
  this := { name := "Palette" }
  fields := first :: others
  methods := methods

/-- How a field gets its value, if it is taken for one of the given type. -/
def initializer (name : String) (type : JavaType) (constant : String) : Initializer :=
  ⟨name, type, .enum color constant⟩

def startup : MethodDecl where
  name := staticInitializerName
  modifiers := ⟨0x0008⟩
  result := .void
  body := some { statements := [.invoke
    { owner := { name := "Palette" }, name := "load", modifiers := ⟨0x0008⟩, parameters := [],
      result := .void } none [] none false] }

variable {others : List FieldDecl} {methods : List MethodDecl}

private theorem succeeds_fill {slots : Slots} {name constant : String} {type : JavaType}
    (hname : (ModifiedUtf8.encode name).length ≤ 65535)
    (htype : (ModifiedUtf8.encode type.descriptor).length ≤ 65535)
    (hconstant : (ModifiedUtf8.encode constant).length ≤ 65535) :
    Lower.SucceedsOn slots 12 (Lower.fillField (owner others methods) (initializer name type constant))
      (Item.Short 10) := by
  have hpush : Succeeds 6 (Literal.push (.enum color constant)) fun out =>
      ∃ index, out = [.field .getStatic index] := by
    refine (Succeeds.fieldRef ?_).bind (k := 0) fun index _ => .pure ⟨index, rfl⟩
    simp only [List.forall_mem_cons]
    exact ⟨by decide, hconstant, by decide, by simp⟩
  have hindex : Succeeds 6 (pooled (Pool.fieldRef "Palette" name type.descriptor)) fun _ => True := by
    refine Succeeds.fieldRef ?_
    simp only [List.forall_mem_cons]
    exact ⟨by decide, hname, htype, by simp⟩
  refine SucceedsIn.mono (n := 6 + (6 + 0)) ?_ (Nat.le_refl 12)
  refine (Lower.SucceedsOn.pooling hpush).bind fun pushed hpushed =>
    (Lower.SucceedsOn.pooling hindex).bind fun put _ => .pure ?_
  obtain ⟨get, rfl⟩ := hpushed
  exact ⟨Nat.le_of_ble_eq_true rfl, by simp [Item.lines, Item.line?]⟩

private theorem succeeds_field {name constant : String}
    (hname : (ModifiedUtf8.encode name).length ≤ 65535) :
    Succeeds 2 (field name constant).generate fun _ => True :=
  FieldDecl.succeeds_generate (show (⟨0x0008⟩ : Modifiers).isStatic = true by decide)
    (by simp [field, Literal.needsCode]) hname
    (show (ModifiedUtf8.encode (JavaType.object color).descriptor).length ≤ 65535 by decide) rfl

private theorem succeeds_clinit (options : Options) {m : MethodDecl} {b : Body}
    {fields : List Initializer} (hname : m.name = staticInitializerName) (hbody : m.body? = some b)
    (hparameters : m.parameters = []) (hlocals : b.parameters = []) (hresult : m.result = .void)
    (hannotations : m.annotations = [])
    (hfields : ∀ i ∈ fields, Lower.SucceedsOn {} 12 (Lower.fillField (owner others methods) i)
      (Item.Short 10))
    (hstatements : ∀ st ∈ b.statements, Lower.SucceedsOn {} 6
      (Lower.statement ⟨owner others methods, m, Std.HashSet.ofList b.labels⟩ st) (Item.Short 10))
    (hcount : fields.length + b.statements.length ≤ 10) :
    Succeeds 135 (m.generate options (owner others methods) fields) fun _ => True := by
  have hthis : (ModifiedUtf8.encode "Palette").length ≤ 65535 := by decide
  have hchain : Lower.SucceedsOn {} 6 (Lower.chain (owner others methods) m b) (Item.Short 10) := by
    have hinit : m.initializesThis = false := by
      rw [MethodDecl.initializesThis, MethodDecl.isConstructor, hname]
      rfl
    rw [Lower.chain, hinit]
    exact .pure ⟨Nat.zero_le 10, by simp [Item.lines]⟩
  have hlower := MethodDecl.succeeds_lower
    (show Slots.allocateAll {} b.parameters = .ok {} by rw [hlocals]; rfl)
    hchain hfields hstatements (.finalReturn (by rw [hresult]; rfl)) (by omega)
  have hcode := MethodDecl.succeeds_codeAttribute (k := 0) options hthis (hlower.imp fun out hout =>
    ⟨hout.1, by rw [hout.2]; decide, by rw [hout.2]; simp⟩)
  have hdescriptor : m.descriptor = "()V" := by
    rw [MethodDecl.descriptor, hparameters, hresult]
    rfl
  exact (MethodDecl.succeeds_generate (MethodDecl.succeeds_codeAttributes hbody hcode)
    (by rw [hname]; decide) (by rw [hdescriptor]; decide) hannotations (by simp [hparameters])
    (by simp [hparameters])).mono (by omega)

theorem succeeds_initializer (options : Options) {type : JavaType}
    (htype : (ModifiedUtf8.encode type.descriptor).length ≤ 65535) :
    Succeeds 135 (ClassDecl.addedInitializer.generate options (owner others methods)
      [initializer "first" type "RED"]) fun _ => True :=
  succeeds_clinit options rfl rfl rfl rfl rfl rfl
    (List.forall_mem_singleton.mpr (succeeds_fill (by decide) htype (by decide))) (by simp)
    (Nat.le_of_ble_eq_true rfl)

private theorem succeeds_startup (options : Options) :
    Succeeds 135 (startup.generate options (owner others methods)
      [initializer "first" (.object color) "RED", initializer "last" (.object color) "BLUE"])
      fun _ => True := by
  refine succeeds_clinit options rfl rfl rfl rfl rfl rfl (List.forall_mem_cons.mpr
    ⟨succeeds_fill (by decide) (by decide) (by decide), List.forall_mem_singleton.mpr
      (succeeds_fill (by decide) (by decide) (by decide))⟩) (List.forall_mem_singleton.mpr ?_) (by decide)
  refine SucceedsIn.mono (n := 0 + (6 + 0 + (0 + 0))) ?_ (Nat.le_refl 6)
  refine SucceedsIn.bind (P := (· = [])) (.pure rfl) fun pushed hpushed => ?_
  refine ((Lower.SucceedsOn.pooling (Succeeds.methodRef (by decide))).bind (k := 0)
    (Q := fun call => call.size = 3) fun index _ => .pure rfl).bind fun call hcall => ?_
  refine SucceedsIn.bind (P := (· = [])) (.pure rfl) fun used hused => .pure ?_
  rw [hpushed, hused]
  refine ⟨?_, by simp [Item.lines, Item.line?]⟩
  change call.size + 0 ≤ 10
  omega

theorem exists_generate (options : Options) (hothers : ∀ f ∈ others, Succeeds 2 f.generate fun _ => True)
    (hmethods : ∀ m ∈ (owner others methods).plan,
      Succeeds 135 (m.1.generate options (owner others methods) m.2) fun _ => True)
    (hlengths : others.length ≤ 100 ∧ (owner others methods).plan.length ≤ 100) :
    ∃ file, (owner others methods).generate options = .ok file := by
  have hfirst : Succeeds 2 first.generate fun _ => True := succeeds_field (by decide)
  have hcount : (owner others methods).fields.length = others.length + 1 := rfl
  have hthis : (ModifiedUtf8.encode "Palette").length ≤ 65535 := by decide
  have hsuper : ∀ super ∈ some ({ name := "java/lang/Object" } : ClassType),
      (ModifiedUtf8.encode super.name).length ≤ 65535 := by decide
  obtain ⟨file, hfile, -⟩ := ClassDecl.exists_generate (c := owner others methods) hthis hsuper rfl rfl
    (List.forall_mem_cons.mpr ⟨hfirst, hothers⟩) hmethods
    (succeeds_storeKept rfl) (fun kept => KeptAnnotation.succeeds_attributes)
    (by rintro out rfl; decide) (by omega) (by omega)
  exact ⟨file, hfile⟩

/-- The field is filled as if it had the type of the last one with its name. -/
theorem initializers_owner (hothers : ∀ f ∈ others, f.initial = none) :
    (owner others methods).initializers = [initializer "first"
      (((owner others methods).lastField? "first").map FieldDecl.type |>.getD (.object color)) "RED"] := by
  have hpending : (owner others methods).pending = [first] := by
    have hnone : others.filter (fun f => f.initial.any Literal.needsCode) = [] := by
      rw [List.filter_eq_nil_iff]
      intro f hf
      simp [hothers f hf]
    rw [ClassDecl.pending, owner, List.filter_cons_of_pos rfl, hnone]
  have hall := (owner others methods).forall₂_initializers
  rw [hpending] at hall
  obtain ⟨⟨_, _, _⟩, rest, ⟨hfield, hvalue, htype⟩, hrest, heq⟩ := List.forall₂_cons_left_iff.mp hall
  cases hrest
  cases hfield
  cases hvalue
  cases htype
  exact heq

private theorem plan_owner : (owner [] []).plan =
    [(ClassDecl.addedInitializer, [initializer "first" (.object color) "RED"])] := by
  have hinitializers : (owner [] []).initializers = [initializer "first" (.object color) "RED"] :=
    initializers_owner (by simp)
  rw [ClassDecl.plan, ClassDecl.allMethods, hinitializers]
  rfl

theorem exists_file (options : Options) : ∃ file, (owner [] []).generate options = .ok file := by
  refine exists_generate options (by simp) ?_ (by rw [plan_owner]; decide)
  rw [plan_owner]
  exact List.forall_mem_singleton.mpr (succeeds_initializer options (by decide))

private theorem plan_startup : (owner [last] [startup]).plan = [(startup,
    [initializer "first" (.object color) "RED", initializer "last" (.object color) "BLUE"])] := by
  have hall := (owner [last] [startup]).forall₂_initializers
  have hpending : (owner [last] [startup]).pending = [first, last] := rfl
  rw [hpending] at hall
  obtain ⟨⟨_, _, _⟩, _, ⟨hfield, hvalue, htype⟩, hrest, heq⟩ := List.forall₂_cons_left_iff.mp hall
  cases hfield
  cases hvalue
  cases htype
  obtain ⟨⟨_, _, _⟩, _, ⟨hfield, hvalue, htype⟩, hnil, rfl⟩ := List.forall₂_cons_left_iff.mp hrest
  cases hfield
  cases hvalue
  cases htype
  cases hnil
  rw [ClassDecl.plan, ClassDecl.allMethods, heq]
  rfl

theorem exists_file_startup (options : Options) :
    ∃ file, (owner [last] [startup]).generate options = .ok file := by
  refine exists_generate options (List.forall_mem_singleton.mpr (succeeds_field (by decide))) ?_
    (by rw [plan_startup]; decide)
  rw [plan_startup]
  exact List.forall_mem_singleton.mpr (succeeds_startup options)

end Palette

end Classwright
