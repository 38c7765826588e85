import Classwright.Proofs.Blocks
import Classwright.Proofs.Evaluation
import Classwright.Proofs.Execution

/-!
# Statements on numbers are simulated by their code

The locals of the machine hold, at the slot of every named local, the number that the name stands
for.  From such a state the code of a statement does what the statement does: it falls through,
branches, returns or traps in the same cases, and leaves the locals in agreement again.
-/

namespace Classwright

def Pool.Request.number? : Pool.Request → Option Number
  | integer v => some (.int v.toBitVec)
  | float bits => some (.float bits.toBitVec)
  | long v => some (.long v.toBitVec)
  | double bits => some (.double bits.toBitVec)
  | _ => none

namespace Machine

variable {fpu : FloatUnit} {constants : UInt16 → Option Number}

section Operations

private theorem exec_binary {op : BinaryOp} {kind : NumKind} {instr : Instr}
    (hinstr : Instr.binary? op kind = some instr) {a b : Number} (ha : a.kind = kind.toKind)
    (hb : b.kind = if op.isShift then .int else kind.toKind) (f : Frame) (rest : List Number) :
    exec fpu constants { f with stack := b :: a :: rest } instr =
      f.answer rest (op.apply fpu a b) := by
  cases kind <;> cases a <;> cases ha <;> cases op <;> cases b <;> cases hb <;> cases hinstr <;> rfl

private theorem exec_cast {kind : NumKind} {p : Primitive} {instr : Instr}
    (hinstr : Instr.cast? kind p = some instr) {a : Number} (ha : a.kind = kind.toKind) (f : Frame)
    (rest : List Number) :
    exec fpu constants { f with stack := a :: rest } instr =
      f.answer rest ((a.convert fpu p).map .value) := by
  cases kind <;> cases a <;> cases ha <;> cases p <;> cases hinstr <;> rfl

private theorem kind_of_convert {a n : Number} {p : Primitive} (h : a.convert fpu p = some n) :
    p.numKind?.map NumKind.toKind = some n.kind := by
  cases a <;> cases p <;> cases h <;> rfl

private theorem xor_neg_one {w : Nat} (a : BitVec w) : a ^^^ -1#w = ~~~a := by
  rw [BitVec.neg_one_eq_allOnes, BitVec.xor_allOnes]

private theorem kind_of_unary {op : UnaryOp} {a n : Number} (h : op.apply fpu a = some n) :
    n.kind = a.kind := by
  cases op <;> cases a <;> cases h <;> rfl

private theorem kind_of_ofBits {w : Nat} (make : BitVec w → Number) {kind : Kind}
    (hmake : ∀ bits, (make bits).kind = kind) {bits : Option (BitVec w)} {n : Number}
    (h : Answer.ofBits make bits = .value n) : n.kind = kind := by
  cases bits with
  | none => cases h
  | some bits =>
    cases h
    exact hmake bits

private theorem kind_of_binary {op : BinaryOp} {a b n : Number} (h : op.apply fpu a b = some (.value n)) :
    n.kind = a.kind := by
  cases a with
  | int a =>
    cases b with
    | int b =>
      simp only [BinaryOp.apply] at h
      split at h
      · cases h
        rfl
      · obtain ⟨bits, -, hbits⟩ := Option.map_eq_some_iff.mp h
        exact kind_of_ofBits Number.int (fun _ => rfl) hbits
    | _ => cases h
  | long a =>
    cases b with
    | int b =>
      obtain ⟨bits, -, hbits⟩ := Option.map_eq_some_iff.mp h
      cases hbits
      rfl
    | long b =>
      obtain ⟨bits, -, hbits⟩ := Option.map_eq_some_iff.mp h
      exact kind_of_ofBits Number.long (fun _ => rfl) hbits
    | _ => cases h
  | float a =>
    cases b with
    | float b =>
      obtain ⟨bits, -, hbits⟩ := Option.map_eq_some_iff.mp h
      cases hbits
      rfl
    | _ => cases h
  | double a =>
    cases b with
    | double b =>
      obtain ⟨bits, -, hbits⟩ := Option.map_eq_some_iff.mp h
      cases hbits
      rfl
    | _ => cases h

private theorem onInts_eq_holds (op : Comparison) (a b : BitVec 32) :
    op.onInts a b = op.holds (some (Integer.order a b)) := by
  have hinj : a = b ↔ a.toInt = b.toInt := BitVec.toInt_inj.symm
  rcases Int.lt_trichotomy a.toInt b.toInt with hlt | heq | hgt
  · have horder : Integer.order a b = .lt := by rw [Integer.order, if_pos hlt]
    have hne : a.toInt ≠ b.toInt := by omega
    cases op <;> simp [Comparison.onInts, Comparison.holds, horder, BitVec.slt_eq_decide,
      BitVec.sle_eq_decide, hinj, hne] <;> omega
  · have horder : Integer.order a b = .eq := by
      rw [Integer.order, if_neg (by omega), if_pos heq]
    cases op <;> simp [Comparison.onInts, Comparison.holds, horder, BitVec.slt_eq_decide,
      BitVec.sle_eq_decide, hinj, heq]
  · have horder : Integer.order a b = .gt := by
      rw [Integer.order, if_neg (by omega), if_neg (by omega)]
    have hne : a.toInt ≠ b.toInt := by omega
    cases op <;> simp [Comparison.onInts, Comparison.holds, horder, BitVec.slt_eq_decide,
      BitVec.sle_eq_decide, hinj, hne] <;> omega

private theorem onInts_signOf (op : Comparison) (unordered : BitVec 32) (order : Ordering) :
    op.onInts (signOf unordered (some order)) 0 = op.holds (some order) := by
  cases order <;> cases op <;> rfl

private theorem lcmp_eq_signOf (a b : BitVec 64) :
    (if a.slt b then -1 else if a = b then 0 else 1) = signOf 0 (some (Integer.order a b)) := by
  simp only [Integer.order, BitVec.slt_iff_toInt_lt, ← BitVec.toInt_inj]
  split
  · rfl
  · split <;> rfl

/-- Every chosen comparison leaves a number that compares with zero as the operands compare, also
when they are unordered. -/
theorem exec_compare {op : Comparison} {kind : NumKind} {instr : Instr}
    (hinstr : Instr.compare? kind op = some instr) {a b : Number} (ha : a.kind = kind.toKind)
    (hb : b.kind = kind.toKind) (f : Frame) (rest : List Number) :
    ∃ sign order, exec fpu constants { f with stack := b :: a :: rest } instr =
        some (.next { f with stack := .int sign :: rest }) ∧
      a.order? fpu b = some order ∧ op.onInts sign 0 = op.holds order := by
  cases kind with
  | int => cases hinstr
  | long =>
    cases a <;> cases ha
    cases b <;> cases hb
    rename_i a b
    cases hinstr
    refine ⟨_, _, rfl, rfl, ?_⟩
    rw [lcmp_eq_signOf]
    exact onInts_signOf op 0 _
  | float =>
    cases a <;> cases ha
    cases b <;> cases hb
    rename_i a b
    cases op <;> cases hinstr <;> refine ⟨_, _, rfl, rfl, ?_⟩ <;>
      cases horder : fpu.single.compare a b <;> first | rfl | exact onInts_signOf _ _ _
  | double =>
    cases a <;> cases ha
    cases b <;> cases hb
    rename_i a b
    cases op <;> cases hinstr <;> refine ⟨_, _, rfl, rfl, ?_⟩ <;>
      cases horder : fpu.double.compare a b <;> first | rfl | exact onInts_signOf _ _ _

end Operations

section Literals

/-- The machine finds the numbers of a pool. -/
def Supplies (pool : Pool) (constants : UInt16 → Option Number) : Prop :=
  ∀ i r n, pool.meaning? i = some r → Pool.Request.number? r = some n → constants i = some n

variable {pool : Pool} (hsupplies : Supplies pool constants) (f : Frame)

private theorem exec_loadEntry {index : UInt16} {n : Number} (h : constants index = some n)
    (hnarrow : n.kind.isWide = false) :
    exec fpu constants f (.loadEntry index) = f.push n := by
  have hpush : f.pushConstant false (constants index) = f.push n := by
    simp [Frame.pushConstant, h, Option.filter, hnarrow]
  obtain ⟨i, rfl, hi⟩ | hi := Instr.loadEntry_cases index
  · rw [hi]
    exact hpush
  · rw [hi]
    exact hpush

include hsupplies

theorem exec_loadsInt {v : Int32} {instr : Instr} (h : Literal.LoadsInt pool v instr) :
    exec fpu constants f instr = f.push (.int v.toBitVec) := by
  rcases h with ⟨hlow, hhigh, rfl⟩ | ⟨hlow, hhigh, rfl⟩ | ⟨hlow, hhigh, rfl⟩ | ⟨index, hindex, rfl⟩
  · have hn : (((residue 6 (v.toInt + 1).toNat).val : Nat) : Int) - 1 = v.toInt := by
      simp only [residue]
      omega
    rw [exec, hn, Int32.toInt, BitVec.ofInt_toInt]
  · rw [exec]
    congr 2
    apply BitVec.eq_of_toInt_eq
    rw [BitVec.toInt_signExtend_of_le (by decide)]
    change v.toInt8.toInt = v.toInt
    rw [Int32.toInt_toInt8]
    exact Int.bmod_eq_of_le (by simpa using hlow) (by simpa using (by omega : v.toInt < 128))
  · rw [exec]
    congr 2
    apply BitVec.eq_of_toInt_eq
    rw [BitVec.toInt_signExtend_of_le (by decide)]
    change v.toInt16.toInt = v.toInt
    rw [Int32.toInt_toInt16]
    exact Int.bmod_eq_of_le (by simpa using hlow) (by simpa using (by omega : v.toInt < 32768))
  · exact exec_loadEntry f (hsupplies index _ _ hindex rfl) rfl

private theorem exec_ldc2W {index : UInt16} {r : Pool.Request} {n : Number}
    (hindex : pool.meaning? index = some r) (hn : r.number? = some n) (hwide : n.kind.isWide = true) :
    exec fpu constants f (.ldc2W index) = f.push n := by
  simp [exec, Frame.pushConstant, hsupplies index r n hindex hn, Option.filter, hwide]

private theorem exec_loadsLong {v : Int64} {instr : Instr} (h : Literal.LoadsLong pool v instr) :
    exec fpu constants f instr = f.push (.long v.toBitVec) := by
  rcases h with ⟨rfl, rfl⟩ | ⟨rfl, rfl⟩ | ⟨index, hindex, rfl⟩
  · rfl
  · rfl
  · exact exec_ldc2W hsupplies f hindex rfl rfl

private theorem exec_loadsFloat {bits : UInt32} {instr : Instr} (h : Literal.LoadsFloat pool bits instr) :
    exec fpu constants f instr = f.push (.float bits.toBitVec) := by
  rcases h with ⟨rfl, rfl⟩ | ⟨rfl, rfl⟩ | ⟨rfl, rfl⟩ | ⟨index, hindex, rfl⟩
  · rfl
  · rfl
  · rfl
  · exact exec_loadEntry f (hsupplies index _ _ hindex rfl) rfl

private theorem exec_loadsDouble {bits : UInt64} {instr : Instr}
    (h : Literal.LoadsDouble pool bits instr) :
    exec fpu constants f instr = f.push (.double bits.toBitVec) := by
  rcases h with ⟨rfl, rfl⟩ | ⟨rfl, rfl⟩ | ⟨index, hindex, rfl⟩
  · rfl
  · rfl
  · exact exec_ldc2W hsupplies f hindex rfl rfl

theorem exec_literal {value : Literal} {n : Number} {instrs : List Instr}
    (hn : value.number? = some n) (h : value.Loads pool instrs) :
    ∃ instr, instrs = [instr] ∧ exec fpu constants f instr = f.push n := by
  cases value with
  | boolean v =>
    cases hn
    obtain ⟨instr, hloads, rfl⟩ := h
    refine ⟨instr, rfl, (exec_loadsInt hsupplies f hloads).trans ?_⟩
    cases v <;> rfl
  | byte v =>
    cases hn
    obtain ⟨instr, hloads, rfl⟩ := h
    exact ⟨instr, rfl, exec_loadsInt hsupplies f hloads⟩
  | short v =>
    cases hn
    obtain ⟨instr, hloads, rfl⟩ := h
    exact ⟨instr, rfl, exec_loadsInt hsupplies f hloads⟩
  | char v =>
    cases hn
    obtain ⟨instr, hloads, rfl⟩ := h
    have hbits : (Int32.ofNat v.toNat).toBitVec = v.toBitVec.setWidth 32 := by
      rw [Int32.toBitVec_ofNat']
      apply BitVec.eq_of_toNat_eq
      simp
    rw [← hbits]
    exact ⟨instr, rfl, exec_loadsInt hsupplies f hloads⟩
  | int v =>
    cases hn
    obtain ⟨instr, hloads, rfl⟩ := h
    exact ⟨instr, rfl, exec_loadsInt hsupplies f hloads⟩
  | long v =>
    cases hn
    obtain ⟨instr, hloads, rfl⟩ := h
    exact ⟨instr, rfl, exec_loadsLong hsupplies f hloads⟩
  | float bits =>
    cases hn
    obtain ⟨instr, hloads, rfl⟩ := h
    exact ⟨instr, rfl, exec_loadsFloat hsupplies f hloads⟩
  | double bits =>
    cases hn
    obtain ⟨instr, hloads, rfl⟩ := h
    exact ⟨instr, rfl, exec_loadsDouble hsupplies f hloads⟩
  | string s => cases hn
  | null => cases hn
  | enum owner name => cases hn
  | array component elements => cases hn

end Literals

end Machine

private theorem Literal.kind?_of_number? {value : Literal} {n : Number} (h : value.number? = some n) :
    value.type.kind? = some n.kind := by
  cases value <;> cases h <;> rfl

namespace Statement

def Numeric : Statement → Bool
  | assign .. | binary .. | unary .. | cast .. | goto _ | mark _ | compare .. | test .. | ret _ =>
    true
  | literal value _ => value.number?.isSome
  | _ => false

end Statement

namespace Lower

open Machine

/-- The slots of the machine hold the numbers that the names stand for. -/
def Holds (b : Body) (final : Lowering) (env : Env) (locals : Nat → Option Number) : Prop :=
  ∀ l ∈ b.locals, ∀ slot, final.slots.index[l.name]? = some slot →
    locals slot.toNat = env l.name ∧ ∀ n, env l.name = some n → l.type.kind? = some n.kind

section Holds

variable {b : Body} {final : Lowering} {env : Env} {locals : Nat → Option Number}

/-- Storing a number in the slot of a local changes what its name stands for and nothing else. -/
theorem Holds.store (hok : final.Ok (· ∈ b.locals)) (hb : b.WellFormed)
    (h : Holds b final env locals) {l : Local} {slot : UInt16} {n : Number} (hl : l ∈ b.locals)
    (hslot : final.slots.index[l.name]? = some slot) (hkind : l.type.kind? = some n.kind) :
    Holds b final (env.set l n) (Machine.store locals slot.toNat n) := by
  intro l' hl' slot' hslot'
  by_cases hname : l'.name = l.name
  · have hsame : slot' = slot := by
      rw [hname, hslot] at hslot'
      exact (Option.some.inj hslot').symm
    have hkind' : l'.type.kind? = l.type.kind? :=
      JavaType.kind?_eq_of_beq (hb.typed l' hl' l hl hname)
    simp only [Machine.store, hsame, if_true, Env.set, hname, Option.some.injEq, true_and]
    intro m hm
    rw [hkind', hkind, hm]
  · obtain ⟨kind', hkind', -⟩ := JavaType.exists_kind? (hb.valued l' hl')
    have hsep := hok.separate hb hl hl' hslot hslot' (Ne.symm hname) hkind hkind'
    obtain ⟨hold, hkinds⟩ := h l' hl' slot' hslot'
    have hpos := n.kind.width_pos
    have hpos' := kind'.width_pos
    have henv : env.set l n l'.name = env l'.name := by rw [Env.set, if_neg hname]
    have hstore : Machine.store locals slot.toNat n slot'.toNat = locals slot'.toNat := by
      unfold Machine.store
      have hne : slot'.toNat ≠ slot.toNat := by omega
      have hnext : ¬ (slot'.toNat = slot.toNat + 1 ∧ n.kind.isWide = true) := by
        rintro ⟨hnext, hwide⟩
        have hwidth : n.kind.width = 2 := by rw [Kind.width, if_pos hwide]
        omega
      rw [if_neg hne, if_neg hnext]
      split
      · rename_i hbefore
        -- a wide number there would reach into the slot
        cases hm : locals slot'.toNat with
        | none => rfl
        | some m =>
          have hmkind := hkinds m (by rw [← hold, hm])
          rw [hkind'] at hmkind
          cases hmkind
          have hnarrow : m.kind.isWide = false := by
            cases hwide : m.kind.isWide with
            | false => rfl
            | true =>
              have hwidth : m.kind.width = 2 := by rw [Kind.width, if_pos hwide]
              omega
          simp [Option.filter, hnarrow]
      · rfl
    rw [hstore, henv]
    exact ⟨hold, hkinds⟩

variable {fpu : FloatUnit} {constants : UInt16 → Option Number}

private theorem runLines_pushes (h : Holds b final env locals) {l : Local} (hl : l ∈ b.locals)
    {item : Item} (hitem : Pushes final l item) (stack : List Number) (rest : List Item) :
    runLines fpu constants (Item.lines (item :: rest)) ⟨locals, stack⟩ =
      match env l.name with
      | some n => runLines fpu constants (Item.lines rest) ⟨locals, n :: stack⟩
      | none => none := by
  obtain ⟨slot, hslot, kind, hkind, rfl⟩ := hitem
  obtain ⟨hlocal, hkinds⟩ := h l hl slot hslot
  change runLines fpu constants (.plain (.loadSlot kind slot) :: Item.lines rest) _ = _
  rw [runLines_plain]
  simp only [Instr.loadSlot, exec, SlotForm.slot_ofSlot, hlocal]
  cases hn : env l.name with
  | none => rfl
  | some n =>
    have hsame : n.kind = kind := by
      have hnkind := hkinds n hn
      rw [hkind] at hnkind
      exact (Option.some.inj hnkind).symm
    dsimp only
    rw [if_pos hsame]
    rfl

private theorem Pushes.kind_eq {l : Local} {item : Item} (hitem : Pushes final l item)
    (h : Holds b final env locals) (hl : l ∈ b.locals) {n : Number} (hn : env l.name = some n) :
    l.type.kind? = some n.kind := by
  obtain ⟨slot, hslot, -⟩ := hitem
  exact (h l hl slot hslot).2 n hn

end Holds

/-- Control leaves the code of a statement as it leaves the statement, in states that are related. -/
inductive Agrees (R : Env → Frame → Prop) (label? : Option Label) :
    Option (Effect Env) → Option Leaves → Prop where
  | stuck : Agrees R label? none none
  | next {env : Env} {f : Frame} (h : R env f) :
      Agrees R label? (some (.next env)) (some (.falls f))
  | branch {env : Env} {f : Frame} {label : Label} (h : R env f) (hlabel : label? = some label) :
      Agrees R label? (some (.branch env)) (some (.jumps label f))
  | stop {outcome : Outcome} : Agrees R label? (some (.stop outcome)) (some (.stops outcome))

/-- Between statements the operand stack is empty. -/
def Related (b : Body) (final : Lowering) (env : Env) (f : Frame) : Prop :=
  Holds b final env f.locals ∧ f.stack = []

private theorem runLines_changes {final : Lowering} {constants : UInt16 → Option Number}
    (hsupplies : Supplies final.pool constants) (fpu : FloatUnit) (locals : Nat → Option Number)
    {op : UnaryOp} {kind : NumKind} {changed : List Item} (hchanged : Changes final kind op changed)
    {a : Number} (ha : a.kind = kind.toKind) (rest : List Item) :
    ∃ n, op.apply fpu a = some n ∧
      runLines fpu constants (Item.lines (changed ++ rest)) ⟨locals, [a]⟩ =
        runLines fpu constants (Item.lines rest) ⟨locals, [n]⟩ := by
  cases op with
  | negate =>
    rw [show changed = [.op (.neg kind)] from hchanged]
    cases kind <;> cases a <;> cases ha <;> exact ⟨_, rfl, runLines_plain _ _ _⟩
  | complement =>
    rcases hchanged with ⟨rfl, rfl⟩ | ⟨rfl, index, hindex, rfl⟩
    · cases a <;> cases ha
      rename_i a
      refine ⟨_, rfl, ?_⟩
      rw [← xor_neg_one]
      exact (runLines_plain _ _ _).trans (runLines_plain _ _ _)
    · cases a <;> cases ha
      rename_i a
      refine ⟨_, rfl, ?_⟩
      rw [← xor_neg_one]
      refine (runLines_plain _ _ _).trans ?_
      rw [exec_ldc2W hsupplies _ hindex rfl rfl]
      exact runLines_plain _ _ _

section Statements

variable {b : Body} {final : Lowering} {ctx : MethodContext} {env : Env}
  {locals : Nat → Option Number} {fpu : FloatUnit} {constants : UInt16 → Option Number}
  {items : List Item}
  (hok : final.Ok (· ∈ b.locals)) (hb : b.WellFormed) (hholds : Holds b final env locals)

include hok hb hholds

private theorem agrees_pops {label? : Option Label} {l : Local} (hl : l ∈ b.locals) {item : Item}
    (hitem : Pops final l item) {n : Number} (hn : l.type.kind? = some n.kind) :
    Agrees (Related b final) label? (some (.next (env.set l n)))
      (runLines fpu constants (Item.lines [item]) ⟨locals, [n]⟩) := by
  obtain ⟨kind, hkind, slot, hslot, rfl⟩ := hitem
  rw [hkind] at hn
  cases hn
  have hrun : runLines fpu constants (Item.lines [.op (.storeSlot n.kind slot)]) ⟨locals, [n]⟩ =
      some (.falls ⟨Machine.store locals slot.toNat n, []⟩) := by
    change runLines fpu constants [.plain (.storeSlot n.kind slot)] _ = _
    simp [runLines, execLine, Instr.storeSlot, exec, SlotForm.slot_ofSlot]
  rw [hrun]
  exact .next ⟨hholds.store hok hb hl hslot hkind, rfl⟩

private theorem agrees_answer {label? : Option Label} {l : Local} (hl : l ∈ b.locals) {item : Item}
    (hitem : Pops final l item) {instr : Instr} {stack : List Number} {answer : Option Answer}
    (hexec : exec fpu constants ⟨locals, stack⟩ instr = Frame.answer ⟨locals, stack⟩ [] answer)
    (hkind : ∀ n, answer = some (.value n) → l.type.kind? = some n.kind) :
    Agrees (Related b final) label?
      (answer.map fun
        | .value n => .next (env.set l n)
        | .trap => .stop .trapped)
      (runLines fpu constants (Item.lines [.op instr, item]) ⟨locals, stack⟩) := by
  change Agrees _ _ _ (runLines fpu constants (.plain instr :: Item.lines [item]) _)
  rw [runLines_plain, hexec]
  cases answer with
  | none => exact .stuck
  | some answer =>
    cases answer with
    | trap => exact .stop
    | value n => exact agrees_pops hok hb hholds hl hitem (hkind n rfl)

private theorem simulates_assign {target source : Local} (htarget : target ∈ b.locals)
    (hsource : source ∈ b.locals) (hkinds : source.type.kind? = target.type.kind?)
    (hemits : Emits ctx final (.assign target source) items) :
    Agrees (Related b final) none ((Statement.assign target source).step fpu env)
      (runLines fpu constants (Item.lines items) ⟨locals, []⟩) := by
  obtain ⟨a, ha, c, hc, rfl⟩ := hemits
  rw [runLines_pushes hholds hsource ha]
  cases hn : env source.name with
  | none =>
    simp only [Statement.step, hn]
    exact .stuck
  | some n =>
    simp only [Statement.step, hn]
    exact agrees_pops hok hb hholds htarget hc (hkinds ▸ ha.kind_eq hholds hsource hn)

private theorem simulates_binary {op : BinaryOp} {left right result : Local} (hleft : left ∈ b.locals)
    (hright : right ∈ b.locals) (hresult : result ∈ b.locals)
    (hkinds : left.type.kind? = result.type.kind? ∧
      right.type.kind? = if op.isShift then some .int else left.type.kind?)
    (hemits : Emits ctx final (.binary op left right result) items) :
    Agrees (Related b final) none ((Statement.binary op left right result).step fpu env)
      (runLines fpu constants (Item.lines items) ⟨locals, []⟩) := by
  obtain ⟨instr, hinstr, x, hx, y, hy, z, hz, rfl⟩ := hemits
  obtain ⟨kind, hkind, hinstr⟩ := Option.bind_eq_some_iff.mp hinstr
  rw [runLines_pushes hholds hleft hx]
  cases ha : env left.name with
  | none =>
    simp only [Statement.step, ha]
    exact .stuck
  | some a =>
    dsimp only
    rw [runLines_pushes hholds hright hy]
    cases hc : env right.name with
    | none =>
      simp only [Statement.step, ha, hc]
      exact .stuck
    | some c =>
      have hakind : left.type.kind? = some a.kind := hx.kind_eq hholds hleft ha
      have hckind : right.type.kind? = some c.kind := hy.kind_eq hholds hright hc
      have ha' : a.kind = kind.toKind := by
        rw [JavaType.kind?_of_numKind? hkind] at hakind
        exact (Option.some.inj hakind).symm
      have hc' : c.kind = if op.isShift then .int else kind.toKind := by
        rw [hkinds.2, hakind, ha'] at hckind
        split at hckind
        · rename_i hshift
          rw [if_pos hshift]
          exact (Option.some.inj hckind).symm
        · rename_i hshift
          rw [if_neg hshift]
          exact (Option.some.inj hckind).symm
      have hstep : (Statement.binary op left right result).step fpu env =
          (op.apply fpu a c).map fun
            | .value n => .next (env.set result n)
            | .trap => .stop .trapped := by
        simp only [Statement.step, ha, hc, Option.bind_eq_bind, Option.bind_some]
        cases op.apply fpu a c with
        | none => rfl
        | some answer => cases answer <;> rfl
      rw [hstep]
      refine agrees_answer hok hb hholds hresult hz
        (exec_binary hinstr ha' hc' ⟨locals, [c, a]⟩ []) fun n hn => ?_
      rw [← hkinds.1, hakind, kind_of_binary hn]

private theorem simulates_unary (hsupplies : Supplies final.pool constants) {op : UnaryOp}
    {operand result : Local} (hoperand : operand ∈ b.locals) (hresult : result ∈ b.locals)
    (hkinds : operand.type.kind? = result.type.kind?)
    (hemits : Emits ctx final (.unary op operand result) items) :
    Agrees (Related b final) none ((Statement.unary op operand result).step fpu env)
      (runLines fpu constants (Item.lines items) ⟨locals, []⟩) := by
  obtain ⟨kind, hkind, x, hx, changed, hchanged, y, hy, rfl⟩ := hemits
  rw [runLines_pushes hholds hoperand hx]
  cases ha : env operand.name with
  | none =>
    simp only [Statement.step, ha]
    exact .stuck
  | some a =>
    have hakind : operand.type.kind? = some a.kind := hx.kind_eq hholds hoperand ha
    have ha' : a.kind = kind.toKind := by
      rw [JavaType.kind?_of_numKind? hkind] at hakind
      exact (Option.some.inj hakind).symm
    obtain ⟨n, hn, hrun⟩ := runLines_changes hsupplies fpu locals hchanged ha' [y]
    simp only [Statement.step, ha, hn, Option.bind_eq_bind, Option.bind_some]
    rw [hrun]
    refine agrees_pops hok hb hholds hresult hy ?_
    rw [← hkinds, hakind, kind_of_unary hn]

private theorem simulates_cast {source target : Local} (hsource : source ∈ b.locals)
    (htarget : target ∈ b.locals) (hemits : Emits ctx final (.cast source target) items) :
    Agrees (Related b final) none ((Statement.cast source target).step fpu env)
      (runLines fpu constants (Item.lines items) ⟨locals, []⟩) := by
  obtain ⟨instr, hinstr, x, hx, y, hy, rfl⟩ := hemits
  simp only [castInstr?, Option.bind_eq_bind, Option.bind_eq_some_iff] at hinstr
  obtain ⟨kind, hkind, p, hp, hinstr⟩ := hinstr
  rw [runLines_pushes hholds hsource hx]
  cases ha : env source.name with
  | none =>
    simp only [Statement.step, ha]
    exact .stuck
  | some a =>
    have hakind : source.type.kind? = some a.kind := hx.kind_eq hholds hsource ha
    have ha' : a.kind = kind.toKind := by
      rw [JavaType.kind?_of_numKind? hkind] at hakind
      exact (Option.some.inj hakind).symm
    have hstep : (Statement.cast source target).step fpu env =
        ((a.convert fpu p).map Answer.value).map fun
          | .value n => .next (env.set target n)
          | .trap => .stop .trapped := by
      simp only [Statement.step, ha, hp, Option.bind_eq_bind, Option.bind_some]
      cases a.convert fpu p <;> rfl
    rw [hstep]
    refine agrees_answer hok hb hholds htarget hy (exec_cast hinstr ha' ⟨locals, [a]⟩ [])
      fun n hn => ?_
    obtain ⟨m, hm, hmn⟩ := Option.map_eq_some_iff.mp hn
    cases hmn
    have htype : target.type.numKind? = p.numKind? := by rw [JavaType.numKind?, hp]; rfl
    have hpkind := kind_of_convert hm
    cases hnum : p.numKind? with
    | none =>
      rw [hnum] at hpkind
      cases hpkind
    | some k =>
      rw [hnum] at hpkind
      rw [JavaType.kind?_of_numKind? (htype.trans hnum)]
      exact hpkind

omit hok hb in
private theorem agrees_test {label : Label} {order : Option Ordering} {op : Comparison} {taken : Bool}
    (htaken : taken = op.holds order) {when : Jump} {stack : List Number}
    (hjump : jump ⟨locals, stack⟩ when = Frame.test ⟨locals, stack⟩ [] taken) :
    Agrees (Related b final) (some label)
      (some (if op.holds order then .branch env else .next env))
      (runLines fpu constants [.branch when label] ⟨locals, stack⟩) := by
  have hline : execLine fpu constants ⟨locals, stack⟩ (.branch when label) =
      some (if op.holds order then .branch ⟨locals, []⟩ else .next ⟨locals, []⟩) := by
    rw [← htaken]
    exact hjump
  cases hholdsOp : op.holds order with
  | true =>
    rw [hholdsOp] at hline
    simp only [runLines, hline, if_true]
    exact .branch ⟨hholds, rfl⟩ rfl
  | false =>
    rw [hholdsOp] at hline
    simp only [runLines, hline, Bool.false_eq_true, if_false]
    exact .next ⟨hholds, rfl⟩

omit hok hb in
private theorem agrees_comparing {op : Comparison} {kind : NumKind} {a c : Number}
    (ha : a.kind = kind.toKind) (hc : c.kind = kind.toKind) (label : Label) :
    Agrees (Related b final) (some label) (Statement.branchIf fpu op a c env)
      (runLines fpu constants (Item.lines (comparing kind op label)) ⟨locals, [c, a]⟩) := by
  unfold comparing
  cases hcompare : Instr.compare? kind op with
  | some instr =>
    obtain ⟨sign, order, hexec, horder, hsign⟩ :=
      @exec_compare fpu constants op kind instr hcompare a c ha hc ⟨locals, [c, a]⟩ []
    rw [Statement.branchIf, horder]
    change Agrees _ _ _ (runLines fpu constants (.plain instr :: [.branch (.ifZero op) label]) _)
    rw [runLines_plain, hexec]
    exact agrees_test hholds hsign rfl
  | none =>
    have hint : kind = .int := by
      cases kind with
      | int => rfl
      | long => cases hcompare
      | float => cases op <;> cases hcompare
      | double => cases op <;> cases hcompare
    subst hint
    cases a <;> cases ha
    cases c <;> cases hc
    rename_i a c
    exact agrees_test hholds (onInts_eq_holds op a c) rfl

omit hok hb in
private theorem simulates_compare {op : Comparison} {left right : Local} {label : Label}
    (hleft : left ∈ b.locals) (hright : right ∈ b.locals)
    (hkinds : left.type.kind? = right.type.kind?)
    (hemits : Emits ctx final (.compare op left right label) items) :
    Agrees (Related b final) (some label) ((Statement.compare op left right label).step fpu env)
      (runLines fpu constants (Item.lines items) ⟨locals, []⟩) := by
  obtain ⟨x, hx, y, hy, hitems⟩ := hemits
  obtain ⟨rest, rfl⟩ : ∃ rest, items = x :: y :: rest := by
    rcases hitems with ⟨-, jump, -, rfl⟩ | ⟨kind, -, rfl⟩
    · exact ⟨_, rfl⟩
    · exact ⟨_, rfl⟩
  rw [runLines_pushes hholds hleft hx]
  cases ha : env left.name with
  | none =>
    simp only [Statement.step, ha]
    exact .stuck
  | some a =>
    dsimp only
    rw [runLines_pushes hholds hright hy]
    cases hc : env right.name with
    | none =>
      simp only [Statement.step, ha, hc]
      exact .stuck
    | some c =>
      have hakind : left.type.kind? = some a.kind := hx.kind_eq hholds hleft ha
      have hckind : right.type.kind? = some c.kind := hy.kind_eq hholds hright hc
      rcases hitems with ⟨hreference, -⟩ | ⟨kind, hkind, heq⟩
      · -- numbers are no references
        rw [JavaType.kind?_of_isReference hreference] at hakind
        cases a <;> cases hakind
      · cases heq
        rw [JavaType.kind?_of_numKind? hkind] at hakind
        rw [← hkinds, JavaType.kind?_of_numKind? hkind] at hckind
        simp only [Statement.step, ha, hc, Option.bind_eq_bind, Option.bind_some]
        exact agrees_comparing hholds (Option.some.inj hakind).symm (Option.some.inj hckind).symm
          label

omit hok hb in
private theorem agrees_testing {op : Comparison} {kind : NumKind} {a : Number} (ha : a.kind = kind.toKind)
    (label : Label) :
    Agrees (Related b final) (some label) (Statement.branchIf fpu op a a.zero env)
      (runLines fpu constants (Item.lines (testing kind op label)) ⟨locals, [a]⟩) := by
  have hzero : a.zero.kind = kind.toKind := by
    rw [← ha]
    cases a <;> rfl
  cases kind with
  | int =>
    cases a <;> cases ha
    rename_i a
    exact agrees_test hholds (onInts_eq_holds op a 0) rfl
  | long =>
    cases a <;> cases ha
    rename_i a
    have hrun : runLines fpu constants (Item.lines (testing .long op label)) ⟨locals, [.long a]⟩ =
        runLines fpu constants (Item.lines (comparing .long op label))
          ⟨locals, [.long 0, .long a]⟩ := runLines_plain _ _ _
    rw [hrun]
    exact agrees_comparing hholds rfl rfl label
  | float =>
    cases a <;> cases ha
    rename_i a
    have hrun : runLines fpu constants (Item.lines (testing .float op label)) ⟨locals, [.float a]⟩ =
        runLines fpu constants (Item.lines (comparing .float op label))
          ⟨locals, [.float 0, .float a]⟩ := by
      cases op <;> exact runLines_plain _ _ _
    rw [hrun]
    exact agrees_comparing hholds rfl rfl label
  | double =>
    cases a <;> cases ha
    rename_i a
    have hrun :
        runLines fpu constants (Item.lines (testing .double op label)) ⟨locals, [.double a]⟩ =
          runLines fpu constants (Item.lines (comparing .double op label))
            ⟨locals, [.double 0, .double a]⟩ := by
      cases op <;> exact runLines_plain _ _ _
    rw [hrun]
    exact agrees_comparing hholds rfl rfl label

omit hok hb in
private theorem simulates_test {op : Comparison} {operand : Local} {label : Label}
    (hoperand : operand ∈ b.locals) (hemits : Emits ctx final (.test op operand label) items) :
    Agrees (Related b final) (some label) ((Statement.test op operand label).step fpu env)
      (runLines fpu constants (Item.lines items) ⟨locals, []⟩) := by
  obtain ⟨x, hx, hitems⟩ := hemits
  obtain ⟨rest, rfl⟩ : ∃ rest, items = x :: rest := by
    rcases hitems with ⟨-, jump, -, rfl⟩ | ⟨kind, -, rfl⟩
    · exact ⟨_, rfl⟩
    · exact ⟨_, rfl⟩
  rw [runLines_pushes hholds hoperand hx]
  cases ha : env operand.name with
  | none =>
    simp only [Statement.step, ha]
    exact .stuck
  | some a =>
    have hakind : operand.type.kind? = some a.kind := hx.kind_eq hholds hoperand ha
    rcases hitems with ⟨hreference, -⟩ | ⟨kind, hkind, heq⟩
    · rw [JavaType.kind?_of_isReference hreference] at hakind
      cases a <;> cases hakind
    · cases heq
      rw [JavaType.kind?_of_numKind? hkind] at hakind
      simp only [Statement.step, ha, Option.bind_eq_bind, Option.bind_some]
      exact agrees_testing hholds (Option.some.inj hakind).symm label

omit hok hb in
private theorem simulates_ret {value : Option Local} (hvalue : ∀ l ∈ value, l ∈ b.locals)
    (hemits : Emits ctx final (.ret value) items) :
    Agrees (Related b final) none ((Statement.ret value).step fpu env)
      (runLines fpu constants (Item.lines items) ⟨locals, []⟩) := by
  cases value with
  | none =>
    rw [hemits.2]
    exact .stop
  | some l =>
    obtain ⟨haccepts, kind, hkind, x, hx, cast, hcast, rfl⟩ := hemits
    have hl := hvalue l rfl
    rw [runLines_pushes hholds hl hx]
    cases hn : env l.name with
    | none =>
      simp only [Statement.step, hn]
      exact .stuck
    | some n =>
      have hnkind : some n.kind = some kind := by
        rw [← hx.kind_eq hholds hl hn, ← JavaType.kind?_of_accepts haccepts, hkind]
      have hnotRef : ctx.method.result.isReference = false := by
        cases href : ctx.method.result.isReference with
        | false => rfl
        | true =>
          rw [JavaType.kind?_of_isReference href] at hkind
          rw [← hkind] at hnkind
          cases n <;> cases hnkind
      have hnoCast : cast = [] := by
        rw [Casts, if_neg (by simp [hnotRef])] at hcast
        exact hcast
      subst hnoCast
      cases hnkind
      have hreturn : runLines fpu constants (Item.lines [.op (.returnValue n.kind)])
          ⟨locals, [n]⟩ = some (.stops (.returned n)) := by
        change runLines fpu constants [.plain (.returnValue n.kind)] _ = _
        rw [runLines_plain]
        simp [exec]
      simp only [Statement.step, hn]
      rw [List.map_nil, List.nil_append, hreturn]
      exact .stop

private theorem simulates_literal (hsupplies : Supplies final.pool constants) {value : Literal}
    {target : Local} (htarget : target ∈ b.locals) (hkinds : value.type.kind? = target.type.kind?)
    (hnumber : value.number?.isSome = true) (hemits : Emits ctx final (.literal value target) items) :
    Agrees (Related b final) none ((Statement.literal value target).step fpu env)
      (runLines fpu constants (Item.lines items) ⟨locals, []⟩) := by
  obtain ⟨instrs, hinstrs, stored, hstored, rfl⟩ := hemits
  obtain ⟨n, hn⟩ := Option.isSome_iff_exists.mp hnumber
  obtain ⟨instr, rfl, hexec⟩ := @exec_literal fpu constants _ hsupplies ⟨locals, []⟩ _ _ _ hn hinstrs
  simp only [Statement.step, hn, Option.bind_eq_bind, Option.bind_some]
  change Agrees _ _ _ (runLines fpu constants (.plain instr :: Item.lines [stored]) _)
  rw [runLines_plain, hexec]
  exact agrees_pops hok hb hholds htarget hstored (hkinds ▸ Literal.kind?_of_number? hn)

/-- The code of a statement on numbers does what the statement does. -/
theorem simulates (hsupplies : Supplies final.pool constants) {st : Statement}
    (hst : st ∈ b.statements) (hnumeric : st.Numeric = true) (hemits : Emits ctx final st items) :
    Agrees (Related b final) st.target? (st.step fpu env)
      (runLines fpu constants (Item.lines items) ⟨locals, []⟩) := by
  have hlocals : ∀ l ∈ st.locals, l ∈ b.locals := fun l hl =>
    List.mem_append_right _ (List.mem_flatMap.mpr ⟨st, hst, hl⟩)
  have hkinds := hb.kinds st hst
  cases st with
  | assign target source =>
    exact simulates_assign hok hb hholds (hlocals _ (by simp [Statement.locals]))
      (hlocals _ (by simp [Statement.locals])) hkinds hemits
  | binary op left right result =>
    exact simulates_binary hok hb hholds (hlocals _ (by simp [Statement.locals]))
      (hlocals _ (by simp [Statement.locals])) (hlocals _ (by simp [Statement.locals])) hkinds hemits
  | unary op operand result =>
    exact simulates_unary hok hb hholds hsupplies (hlocals _ (by simp [Statement.locals]))
      (hlocals _ (by simp [Statement.locals])) hkinds hemits
  | cast source target =>
    exact simulates_cast hok hb hholds (hlocals _ (by simp [Statement.locals]))
      (hlocals _ (by simp [Statement.locals])) hemits
  | goto label =>
    rw [show items = _ from hemits]
    exact .branch ⟨hholds, rfl⟩ rfl
  | mark label =>
    rw [show items = _ from hemits]
    exact .next ⟨hholds, rfl⟩
  | compare op left right label =>
    exact simulates_compare hholds (hlocals _ (by simp [Statement.locals]))
      (hlocals _ (by simp [Statement.locals])) hkinds hemits
  | test op operand label =>
    exact simulates_test hholds (hlocals _ (by simp [Statement.locals])) hemits
  | ret value =>
    exact simulates_ret hholds (fun l hl => hlocals l (by simpa [Statement.locals] using hl)) hemits
  | literal value target =>
    exact simulates_literal hok hb hholds hsupplies (hlocals _ (by simp [Statement.locals])) hkinds.2
      hnumeric hemits
  | _ => cases hnumeric

end Statements

end Lower

end Classwright
