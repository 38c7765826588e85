import Classwright.Proofs.Compilation
import Classwright.Proofs.Room
import Classwright.Proofs.Simulation

/-!
# Bodies on numbers are refined by their code

Running the lines of a method from the block of a statement has the outcomes of running the body from
that statement.  Every statement but a placed label takes a step of the machine, so the outcomes agree
in both directions, also where one of the two runs for ever.
-/

namespace Classwright

namespace Lower

open Machine

/-- A position that control can have: the end only if the last statement is left at its end. -/
def Reachable (b : Body) (n : Nat) : Prop :=
  n ≤ b.statements.length ∧
    (n = b.statements.length → ∀ value, b.statements.getLast? ≠ some (.ret value))

private theorem reachable_zero (b : Body) : Reachable b 0 := by
  refine ⟨Nat.zero_le _, fun h value hlast => ?_⟩
  rw [List.length_eq_zero_iff.mp h.symm] at hlast
  cases hlast

private theorem reachable_succ {b : Body} {n : Nat} {st : Statement} {fpu : FloatUnit} {env env' : Env}
    (hst : b.statements[n]? = some st) (hstep : st.step fpu env = some (.next env')) :
    Reachable b (n + 1) := by
  obtain ⟨hlt, -⟩ := List.getElem?_eq_some_iff.mp hst
  refine ⟨hlt, fun hlast value hret => ?_⟩
  have hlength : b.statements.length - 1 = n := by omega
  rw [List.getLast?_eq_getElem?, hlength, hst] at hret
  cases hret
  cases value with
  | none => cases hstep
  | some l =>
    simp only [Statement.step] at hstep
    cases hl : env l.name with
    | none =>
      rw [hl] at hstep
      cases hstep
    | some n =>
      rw [hl] at hstep
      cases hstep

private theorem reachable_position {b : Body} {n : Nat} {label : Label}
    (h : b.position? label = some n) : Reachable b n := by
  obtain ⟨hlt, -⟩ := List.getElem?_eq_some_iff.mp (Body.marked_of_position? h)
  exact ⟨Nat.le_of_lt hlt, fun hlast => absurd hlast (Nat.ne_of_lt hlt)⟩

section Code

variable {b : Body} {final : Lowering} {ctx : MethodContext} {method : MethodDecl}
  {before ending : List Item} {blocks : List (List Item)} {steps : Array Step}
  {fpu : FloatUnit} {constants : UInt16 → Option Number}

/-- What the machine does after the block of a statement with the fuel that is left to it. -/
inductive Continues (b : Body) (final : Lowering) (run : Nat → Nat → Frame → Option Outcome)
    (n : Nat) (st : Statement) : Option (Effect Env) → (Nat → Option Outcome) → Prop where
  | stuck : Continues b final run n st none fun _ => none
  | stop (outcome : Outcome) : Continues b final run n st (some (.stop outcome)) fun _ => some outcome
  | next {env : Env} {f : Frame} (h : Related b final env f) :
      Continues b final run n st (some (.next env)) fun fuel => run fuel (n + 1) f
  | branch {env : Env} {f : Frame} {target : Nat} (h : Related b final env f)
      (htarget : st.target?.bind b.position? = some target) :
      Continues b final run n st (some (.branch env)) fun fuel => run fuel target f
  | lost {env : Env} (htarget : st.target?.bind b.position? = none) :
      Continues b final run n st (some (.branch env)) fun _ => none

def runBlocks (fpu : FloatUnit) (constants : UInt16 → Option Number) (steps : Array Step)
    (before : List Item) (blocks : List (List Item)) (fuel n : Nat) (f : Frame) : Option Outcome :=
  runSteps fpu constants steps fuel (startLine before blocks n) f

private theorem runBlocks_end (fpu : FloatUnit) (constants : UInt16 → Option Number)
    (hblocks : List.Forall₂ (Emits ctx final) b.statements blocks) (hending : Ends method b ending)
    (hresolve : (Draft.ofItems (before ++ blocks.flatten ++ ending)).resolve = .ok steps) {n : Nat}
    (hn : b.statements[n]? = none) (hreachable : Reachable b n) (fuel : Nat) (f : Frame) :
    method.result.isVoid = true ∧
      runBlocks fpu constants steps before blocks (fuel + 1) n f = some .finished := by
  have hlength : n = b.statements.length :=
    Nat.le_antisymm hreachable.1 (List.getElem?_eq_none_iff.mp hn)
  rcases hending with ⟨⟨value, hret⟩, -⟩ | ⟨-, hvoid, rfl⟩
  · exact absurd hret (hreachable.2 hlength value)
  · refine ⟨hvoid, ?_⟩
    have hline : (Item.lines (before ++ blocks.flatten ++ [.op .returnVoid]))[
        startLine before blocks n]? = some (.plain .returnVoid) := by
      rw [hlength, hblocks.length_eq]
      exact lines_ending 0
    rw [runBlocks, runSteps_line hresolve hline]
    rfl

variable (fpu) (hok : final.Ok (· ∈ b.locals)) (hb : b.WellFormed)
  (hnumeric : ∀ st ∈ b.statements, st.Numeric = true) (hsupplies : Supplies final.pool constants)
  (hblocks : List.Forall₂ (Emits ctx final) b.statements blocks)
  (hbefore : ∀ item ∈ before, Plain item) (hending : Ends method b ending)
  (hresolve : (Draft.ofItems (before ++ blocks.flatten ++ ending)).resolve = .ok steps)

include hok hb hnumeric hsupplies hblocks hbefore hending hresolve

/-- The block of a statement takes the machine from where it starts to where the statement leads. -/
theorem continues_statement {n : Nat} {st : Statement} (hst : b.statements[n]? = some st)
    {env : Env} {f : Frame} (hrelated : Related b final env f) :
    ∃ k rest, (k = 0 → ∃ label, st = .mark label) ∧
      Continues b final (runBlocks fpu constants steps before blocks) n st (st.step fpu env) rest ∧
      ∀ fuel, runBlocks fpu constants steps before blocks fuel n f =
        if fuel < k then none else rest (fuel - k) := by
  obtain ⟨hlt, hget⟩ := List.getElem?_eq_some_iff.mp hst
  have hlt' : n < blocks.length := by
    rw [← hblocks.length_eq]
    exact hlt
  have hblock : blocks[n]? = some blocks[n] := List.getElem?_eq_getElem hlt'
  have hemits : Emits ctx final st blocks[n] := by
    have := hblocks.get hlt hlt'
    rw [List.get_eq_getElem, List.get_eq_getElem, hget] at this
    exact this
  have hmem : st ∈ b.statements := List.mem_of_getElem? hst
  obtain ⟨locals, stack⟩ := f
  obtain ⟨hholds, hstack⟩ := hrelated
  dsimp only at hholds hstack
  subst hstack
  have hagrees : Agrees (Related b final) st.target? (st.step fpu env)
      (runLines fpu constants (Item.lines blocks[n]) ⟨locals, []⟩) :=
    simulates hok hb hholds hsupplies hmem (hnumeric st hmem) hemits
  have hlines : ∀ k line, (Item.lines blocks[n])[k]? = some line →
      (Item.lines (before ++ blocks.flatten ++ ending))[startLine before blocks n + k]? =
        some line := fun k line hline => lines_block hblock hline
  obtain ⟨k, hpos, hrun⟩ := runSteps_lines fpu constants hresolve hlines ⟨locals, []⟩
  refine ⟨k, fun fuel => resume fpu constants (before ++ blocks.flatten ++ ending) steps
    (startLine before blocks (n + 1)) fuel
    (runLines fpu constants (Item.lines blocks[n]) ⟨locals, []⟩), ?_, ?_, ?_⟩
  · intro hk
    cases hmark : st.marked? with
    | none =>
      have := hpos (hemits.lines_ne_nil hmark)
      omega
    | some label =>
      cases st with
      | mark l => exact ⟨l, rfl⟩
      | _ => cases hmark
  · have hplaced := placed_eq_position? hblocks hb.labels hbefore hending.plain
    generalize st.step fpu env = effect,
      runLines fpu constants (Item.lines blocks[n]) ⟨locals, []⟩ = leaves at hagrees ⊢
    cases hagrees with
    | stuck => exact .stuck
    | next h => exact .next h
    | stop => exact .stop _
    | branch h hlabel =>
      rename_i env' f' label
      have htarget : st.target?.bind b.position? = b.position? label := by rw [hlabel]; rfl
      simp only [resume, hplaced label]
      cases hposition : b.position? label with
      | none => exact .lost (htarget.trans hposition)
      | some target => exact .branch h (htarget.trans hposition)
  · intro fuel
    rw [runBlocks, hrun, startLine_succ hblock]

private theorem runBlocks_of_run {outcome : Outcome} {fuel : Nat} :
    ∀ {n : Nat} {env : Env} {f : Frame}, Reachable b n → Related b final env f →
      b.run fpu method.result.isVoid fuel n env = some outcome →
        ∃ m, runBlocks fpu constants steps before blocks m n f = some outcome := by
  induction fuel with
  | zero =>
    intro n env f _ _ hrun
    cases hrun
  | succ fuel ih =>
    intro n env f hreachable hrelated hrun
    rw [Body.run] at hrun
    cases hst : b.statements[n]? with
    | none =>
      obtain ⟨hvoid, hend⟩ := runBlocks_end fpu constants hblocks hending hresolve hst
        hreachable 0 f
      rw [hst, hvoid] at hrun
      cases hrun
      exact ⟨1, hend⟩
    | some st =>
      obtain ⟨k, rest, -, hcontinues, hblock⟩ := continues_statement fpu hok hb hnumeric hsupplies
        hblocks hbefore hending hresolve hst hrelated
      rw [hst] at hrun
      dsimp only at hrun
      -- it is enough to find fuel for what follows the block
      suffices h : ∃ m, rest m = some outcome by
        obtain ⟨m, hm⟩ := h
        refine ⟨k + m, ?_⟩
        rw [hblock, if_neg (by omega), Nat.add_sub_cancel_left]
        exact hm
      cases hstep : st.step fpu env with
      | none =>
        rw [hstep] at hrun
        cases hrun
      | some effect =>
        rw [hstep] at hrun hcontinues
        cases hcontinues with
        | stop outcome' =>
          cases hrun
          exact ⟨0, rfl⟩
        | next h => exact ih (reachable_succ hst hstep) h hrun
        | branch h htarget =>
          dsimp only at hrun
          rw [htarget] at hrun
          obtain ⟨label, -, hposition⟩ := Option.bind_eq_some_iff.mp htarget
          exact ih (reachable_position hposition) h hrun
        | lost htarget =>
          dsimp only at hrun
          rw [htarget] at hrun
          cases hrun

private theorem run_of_runBlocks {outcome : Outcome} {m : Nat} :
    ∀ {n : Nat} {env : Env} {f : Frame}, Reachable b n → Related b final env f →
      runBlocks fpu constants steps before blocks m n f = some outcome →
        ∃ fuel, b.run fpu method.result.isVoid fuel n env = some outcome := by
  -- a block takes fuel from the machine, or it is a label and brings the end of the body nearer
  induction m using Nat.strong_induction_on with
  | _ m ih =>
  intro n
  induction hleft : b.statements.length - n generalizing n with
  | zero =>
    intro env f hreachable hrelated hrun
    have hst : b.statements[n]? = none := List.getElem?_eq_none_iff.mpr (by omega)
    cases m with
    | zero => cases hrun
    | succ m =>
      obtain ⟨hvoid, hend⟩ := runBlocks_end fpu constants hblocks hending hresolve hst
        hreachable m f
      rw [hend] at hrun
      cases hrun
      refine ⟨1, ?_⟩
      rw [Body.run, hst, hvoid]
      rfl
  | succ left ihleft =>
    intro env f hreachable hrelated hrun
    have hlt : n < b.statements.length := by omega
    have hst : b.statements[n]? = some b.statements[n] := List.getElem?_eq_getElem hlt
    obtain ⟨k, rest, hmark, hcontinues, hblock⟩ := continues_statement fpu hok hb hnumeric hsupplies
      hblocks hbefore hending hresolve hst hrelated
    rw [hblock] at hrun
    split at hrun
    · cases hrun
    rename_i hfuel
    cases hstep : b.statements[n].step fpu env with
    | none =>
      rw [hstep] at hcontinues
      cases hcontinues
      cases hrun
    | some effect =>
      rw [hstep] at hcontinues
      cases hcontinues with
      | stop outcome' =>
        cases hrun
        refine ⟨1, ?_⟩
        rw [Body.run, hst]
        dsimp only
        rw [hstep]
      | next h =>
        have hnext := reachable_succ hst hstep
        obtain ⟨fuel, hfuel⟩ : ∃ fuel, b.run fpu method.result.isVoid fuel (n + 1) _ = some outcome := by
          by_cases hk : k = 0
          · subst hk
            exact ihleft (by omega) hnext h hrun
          · exact ih (m - k) (by omega) hnext h hrun
        refine ⟨fuel + 1, ?_⟩
        rw [Body.run, hst]
        dsimp only
        rw [hstep]
        exact hfuel
      | branch h htarget =>
        have hk : k ≠ 0 := by
          intro hk
          obtain ⟨label, hlabel⟩ := hmark hk
          rw [hlabel] at hstep
          cases hstep
        obtain ⟨label, -, hposition⟩ := Option.bind_eq_some_iff.mp htarget
        obtain ⟨fuel, hfuel⟩ := ih (m - k) (by omega) (reachable_position hposition) h hrun
        refine ⟨fuel + 1, ?_⟩
        rw [Body.run, hst]
        dsimp only
        rw [hstep]
        dsimp only
        rw [htarget]
        exact hfuel
      | lost htarget => cases hrun

end Code

section Entry

variable {b : Body} {final : Lowering}

private theorem enter_entries {entries : List (Local × UInt16)} {start stop : Nat}
    (htiles : Slots.Tiles start stop entries)
    (hvalued : ∀ entry ∈ entries, entry.1.type.isVoid = false)
    (hnames : ∀ a ∈ entries, ∀ a' ∈ entries, a.1.name = a'.1.name → a.2 = a'.2)
    {parameters : List Local} (hparameters : parameters <+: entries.map Prod.fst)
    {arguments : List Number}
    (harguments : parameters.map (fun l => l.type.kind?) = arguments.map fun n => some n.kind) :
    ∀ entry ∈ entries,
      argumentsFrom start arguments entry.2.toNat = Env.enter parameters arguments entry.1.name ∧
        ∀ n, Env.enter parameters arguments entry.1.name = some n →
          entry.1.type.kind? = some n.kind := by
  induction parameters generalizing entries start arguments with
  | nil =>
    cases arguments with
    | cons n arguments => cases harguments
    | nil => exact fun entry _ => ⟨rfl, fun n hn => by cases hn⟩
  | cons l parameters ih =>
    cases arguments with
    | nil => cases harguments
    | cons n arguments =>
      obtain ⟨hkind, hrest⟩ := List.cons.inj harguments
      cases entries with
      | nil => cases hparameters.length_le
      | cons first entries =>
        obtain ⟨hfirst, hprefix⟩ := List.cons_prefix_cons.mp hparameters
        subst hfirst
        obtain ⟨hslot, htiles⟩ := htiles
        have hwidth : Slots.widthOf first.1 = n.kind.width :=
          Slots.widthOf_eq (hvalued first List.mem_cons_self) hkind
        have ih' := ih htiles (fun e he => hvalued e (List.mem_cons_of_mem _ he))
          (fun a ha a' ha' => hnames a (List.mem_cons_of_mem _ ha) a' (List.mem_cons_of_mem _ ha'))
          hprefix hrest
        intro entry hentry
        rcases List.mem_cons.mp hentry with rfl | hentry
        · simp [argumentsFrom, Env.enter, Env.set, hslot, hkind]
        · have hlater := (htiles.bounds hentry).1
          have hpos := n.kind.width_pos
          have hne : entry.2.toNat ≠ start := by omega
          have hname : entry.1.name ≠ first.1.name := by
            intro heq
            have hsame := hnames entry (List.mem_cons_of_mem _ hentry) first List.mem_cons_self heq
            rw [hsame] at hne
            exact hne hslot
          simp only [argumentsFrom, Env.enter, Env.set, if_neg hne, if_neg hname, ← hwidth]
          exact ih' entry hentry

private theorem related_enter (hok : final.Ok (· ∈ b.locals)) (hb : b.WellFormed)
    (hparameters : b.parameters <+: final.slots.locals.toList.map Prod.fst)
    {arguments : List Number}
    (harguments : b.parameters.map (fun l => l.type.kind?) = arguments.map fun n => some n.kind) :
    Related b final (Env.enter b.parameters arguments) (Machine.enter arguments) := by
  refine ⟨fun l hl slot hslot => ?_, rfl⟩
  have hnames : ∀ a ∈ final.slots.locals.toList, ∀ a' ∈ final.slots.locals.toList,
      a.1.name = a'.1.name → a.2 = a'.2 := by
    intro a ha a' ha' hname
    have hindex := (hok.slots.index a.1.name a.2).mpr ⟨a.1, ha, rfl⟩
    rw [(hok.slots.index a.1.name a'.2).mpr ⟨a'.1, ha', hname.symm⟩] at hindex
    exact (Option.some.inj hindex).symm
  obtain ⟨entry, hentry, hname⟩ := (hok.slots.index l.name slot).mp hslot
  have hmem : entry ∈ b.locals := hok.locals _ hentry
  obtain ⟨hvalue, hkinds⟩ := enter_entries hok.slots.tiles
    (fun e he => hb.valued e.1 (hok.locals e he)) hnames hparameters harguments _ hentry
  dsimp only at hvalue hkinds
  rw [hname] at hvalue hkinds
  rw [← JavaType.kind?_eq_of_beq (hb.typed entry hmem l hl hname)]
  exact ⟨hvalue, hkinds⟩

end Entry

end Lower

namespace ClassDecl

open Machine

variable {options : Options} {c : ClassDecl} {file : ClassFile} {q : Pool}

private theorem Generated.supplies (h : c.Generated options file q) {pool : Pool} (hle : pool ≤ q) :
    Supplies pool file.number? := by
  intro i r n hmeaning hnumber
  obtain ⟨e, hget, hreading⟩ := Pool.meaning?_eq_some_iff.mp (Pool.meaning?_mono hle hmeaning)
  have hentry : entryAt? file.pool i = some e := by
    rw [h.pool]
    exact hget
  have hstands := Pool.standsFor_of_reading? hreading
  rw [ClassFile.number?, hentry]
  cases r with
  | integer v | float v | long v | double v =>
    rw [show e = _ from hstands]
    exact hnumber
  | _ => cases hnumber

/-- The code of a static method on numbers has exactly the outcomes of its body, whatever its
arguments: it returns the same number, finishes, or traps, and runs for ever or gets stuck if the
body does. -/
theorem code_preserves_meaning (hgenerate : c.generate options = .ok file) {i : Nat}
    {m : MethodDecl} {b : Body} (hm : c.methods[i]? = some m) (hbody : m.body? = some b)
    (hstatic : m.isStatic = true) (hinitializer : m.isStaticInitializer = false)
    (hwf : b.WellFormed) (hnumeric : ∀ st ∈ b.statements, st.Numeric = true)
    (hparameters : b.parameters = m.parameters.map fun p => ⟨p.name, p.type⟩) :
    ∃ member code, file.methods[i]? = some member ∧ file.codeOf? member = some code ∧
      ∀ (fpu : FloatUnit) (arguments : List Number),
        m.parameters.map (fun p => p.type.kind?) = arguments.map (fun n => some n.kind) →
        ∀ outcome,
          (∃ fuel, b.run fpu m.result.isVoid fuel 0 (Env.enter b.parameters arguments) =
              some outcome) ↔
            ∃ fuel, run fpu file.number? code.code fuel 0 (enter arguments) = some outcome := by
  obtain ⟨q, hgenerated⟩ := generated_of_generate hgenerate
  obtain ⟨member, fields, compiled, hmember, hfields, -, hcompiles, hcode⟩ :=
    hgenerated.exists_compiled hm hbody
  refine ⟨member, compiled.code, hmember, hcode, fun fpu arguments harguments outcome => ?_⟩
  have hemits := hcompiles.emits
  obtain ⟨instr, hlast, -⟩ := hemits.getLast?_lines
  obtain ⟨chained, before, blocks, ending, hitems, -, hchained, hfilled, hblocks, hending⟩ :=
    hemits.split
  have hbefore : before = [] := by
    have hnot : m.initializesThis = false := by simp [MethodDecl.initializesThis, hstatic]
    rw [hfilled (hfields hinitializer)]
    simpa [Lower.Chains, hnot] using hchained
  subst hbefore
  have hresolve := hcompiles.resolve
  rw [hitems] at hresolve
  have hsupplies := hgenerated.supplies hcompiles.le
  have hkinds : b.parameters.map (fun l => l.type.kind?) = arguments.map fun n => some n.kind := by
    rw [hparameters, ← harguments]
    simp
  have hrelated := Lower.related_enter hcompiles.ok hwf hcompiles.parameters hkinds
  have hpos : 0 < compiled.steps.size := by
    rw [Flow.size_steps hcompiles.resolve, List.length_pos_iff]
    intro hnil
    rw [hnil] at hlast
    cases hlast
  have hbytes : ∀ fuel, run fpu file.number? compiled.code.code fuel 0 (enter arguments) =
      Lower.runBlocks fpu file.number? compiled.steps [] blocks fuel 0 (enter arguments) := by
    intro fuel
    refine run_eq_runSteps hcompiles.resolve (fun instr hinstr when offset heq => ?_) fuel _
      (.start hpos)
    have hjump := hemits.isJump_of_plain hinstr
    rw [heq] at hjump
    cases hjump
  constructor
  · rintro ⟨fuel, hrun⟩
    obtain ⟨fuel', hrun'⟩ := Lower.runBlocks_of_run fpu hcompiles.ok hwf hnumeric hsupplies hblocks
      (by simp) hending hresolve (Lower.reachable_zero b) hrelated hrun
    exact ⟨fuel', (hbytes fuel').trans hrun'⟩
  · rintro ⟨fuel, hrun⟩
    rw [hbytes] at hrun
    exact Lower.run_of_runBlocks fpu hcompiles.ok hwf hnumeric hsupplies hblocks
      (by simp) hending hresolve (Lower.reachable_zero b) hrelated hrun

/-- A loop that divides by its second argument until nothing is left returns, traps or runs for ever
as its code does. -/
theorem quotient_preserves_meaning :
    ∃ file, Quotient.owner.generate {} = .ok file ∧
      ∃ member code, file.methods[0]? = some member ∧ file.codeOf? member = some code ∧
        ∀ (fpu : FloatUnit) (dividend divisor : BitVec 32) outcome,
          (∃ fuel, Quotient.body.run fpu false fuel 0
              (Env.enter [Quotient.x, Quotient.y] [.int dividend, .int divisor]) = some outcome) ↔
            ∃ fuel, run fpu file.number? code.code fuel 0
              (enter [.int dividend, .int divisor]) = some outcome := by
  obtain ⟨file, hfile⟩ := Quotient.exists_file {}
  obtain ⟨member, code, hmember, hcode, hiff⟩ := code_preserves_meaning (m := Quotient.method) (i := 0)
    hfile rfl rfl (by decide) (by decide) Quotient.wellFormed (by decide) rfl
  exact ⟨file, hfile, member, code, hmember, hcode, fun fpu dividend divisor =>
    hiff fpu [.int dividend, .int divisor] rfl⟩

end ClassDecl

end Classwright
