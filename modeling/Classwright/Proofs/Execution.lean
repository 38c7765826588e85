import Classwright.Proofs.CodeBytes
import Classwright.Proofs.Machine

/-!
# Running code by its lines

Where control can reach, running the bytes of a method is running its resolved lines: an address
is that of a line, and a distance in bytes leads to the line that the label names.
-/

namespace Classwright

namespace Machine

open Classwright.Flow

variable (fpu : FloatUnit) (constants : UInt16 → Option Number)

def runSteps (steps : Array Step) : Nat → Nat → Frame → Option Outcome
  | 0, _, _ => none
  | fuel + 1, i, f =>
    match steps[i]? with
    | none => none
    | some step =>
      match exec fpu constants f step.instr with
      | none => none
      | some (.stop outcome) => some outcome
      | some (.next f) => runSteps steps fuel (i + 1) f
      | some (.branch f) =>
        match step.target with
        | some target => runSteps steps fuel target f
        | none => none

variable {fpu constants}

private theorem falls_of_exec_next {f f' : Frame} {instr : Instr}
    (h : exec fpu constants f instr = some (.next f')) :
    instr.endsMethod = false ∧ instr.isGoto = false := by
  cases instr with
  | returnValue kind =>
    simp only [exec] at h
    split at h
    · split at h <;> cases h
    · cases h
  | returnVoid => cases h
  | athrow => cases h
  | jump when offset =>
    cases when with
    | always => cases h
    | _ => exact ⟨rfl, rfl⟩
  | _ => exact ⟨rfl, rfl⟩

private theorem isJump_of_exec_branch {f f' : Frame} {instr : Instr}
    (h : exec fpu constants f instr = some (.branch f')) : ∃ when offset, instr = .jump when offset := by
  cases instr with
  | jump when offset => exact ⟨when, offset, rfl⟩
  | _ =>
    exfalso
    revert h
    simp only [exec, Frame.push, Frame.pushConstant, Frame.answer]
    repeat' split
    all_goals simp

section Bytes

variable {items : List Item} {steps : Array Step} {layout : Layout} {thisInit : Option Nat}
  (hresolve : (Draft.ofItems items).resolve = .ok steps)
include hresolve

private theorem target?_of_resolves {i : Nat} {when : Jump} {label : Label} {step : Step}
    (hi : i < (Item.lines items).length)
    (h : (Draft.ofItems items).Resolves i (.branch when label) step) :
    ∃ target, target < steps.size ∧ step.target = some target ∧
      target ∈ successors i step ∧
      target? (address items i) step.instr = some (address items target) := by
  obtain ⟨target, offset, -, htarget, rfl, haddress⟩ := resolves_branch hresolve hi h
  refine ⟨target, htarget, rfl, ?_, ?_⟩
  · unfold successors
    dsimp only
    split <;> simp
  · simp [target?, haddress]

/-- Running the bytes from a reachable line is running the lines, if all branches have labels. -/
theorem run_eq_runSteps
    (hplain : ∀ instr, Line.plain instr ∈ Item.lines items → ∀ when offset,
      instr ≠ .jump when offset) (fuel : Nat) :
    ∀ {i : Nat} {locals : Locals layout.width} (f : Frame),
      Reaches steps layout thisInit i locals →
        run fpu constants (codeOf steps layout thisInit) fuel (address items i) f =
          runSteps fpu constants steps fuel i f := by
  induction fuel with
  | zero => intros; rfl
  | succ fuel ih =>
    intro i locals f hreaches
    obtain ⟨step, hstep⟩ : ∃ step, steps[i]? = some step :=
      ⟨_, Array.getElem?_eq_getElem hreaches.lt⟩
    rw [run, runSteps, hstep, read_codeOf hresolve hreaches hstep]
    dsimp only
    cases hexec : exec fpu constants f step.instr with
    | none => rfl
    | some effect =>
      cases effect with
      | stop outcome => rfl
      | next f' =>
        dsimp only
        rw [length_sub_drop hresolve i]
        by_cases hlast : i + 1 < steps.size
        · refine ih f' (hreaches.next hstep ?_ hlast)
          obtain ⟨hends, hgoto⟩ := falls_of_exec_next hexec
          unfold successors
          split <;> simp [hends, hgoto]
        · -- control runs off the end of the code
          have hend : i + 1 = steps.size := by
            have := hreaches.lt
            omega
          have hnone : steps[i + 1]? = none := by simp [hend]
          have hdrop : (codeOf steps layout thisInit).drop (address items (i + 1)) = [] := by
            rw [List.drop_eq_nil_iff, length_codeOf hresolve, address, hend, size_steps hresolve,
              List.take_length]
          cases fuel with
          | zero => rfl
          | succ fuel =>
            rw [run, runSteps, hnone, hdrop]
            rfl
      | branch f' =>
        dsimp only
        obtain ⟨line, hline, hresolves⟩ := resolves_line hresolve hstep
        obtain ⟨hi, -⟩ := List.getElem?_eq_some_iff.mp hline
        obtain ⟨when, offset, hjump⟩ := isJump_of_exec_branch hexec
        cases line with
        | plain instr =>
          rw [show step = { instr } from hresolves] at hjump
          exact absurd hjump (hplain instr (List.mem_of_getElem? hline) when offset)
        | branch when label =>
          obtain ⟨target, hlt, htarget, hmem, haddress⟩ :=
            target?_of_resolves hresolve hi hresolves
          rw [htarget, haddress]
          exact ih f' (hreaches.next hstep hmem hlt)

end Bytes

section Lines

inductive Leaves where
  | falls (f : Frame)
  | jumps (label : Label) (f : Frame)
  | stops (outcome : Outcome)

/-- The effect of a line whose branch is not resolved yet. -/
def execLine (fpu : FloatUnit) (constants : UInt16 → Option Number) (f : Frame) :
    Line → Option (Effect Frame)
  | .plain instr => exec fpu constants f instr
  | .branch when _ => jump f when

def runLines (fpu : FloatUnit) (constants : UInt16 → Option Number) :
    List Line → Frame → Option Leaves
  | [], f => some (.falls f)
  | line :: rest, f =>
    match execLine fpu constants f line, line with
    | some (.next f), _ => runLines fpu constants rest f
    | some (.branch f), .branch _ label => some (.jumps label f)
    | some (.stop outcome), _ => some (.stops outcome)
    | _, _ => none

theorem runLines_plain (instr : Instr) (rest : List Line) (f : Frame) :
    runLines fpu constants (.plain instr :: rest) f =
      match exec fpu constants f instr with
      | some (.next f) => runLines fpu constants rest f
      | some (.stop outcome) => some (.stops outcome)
      | _ => none := by
  have hexec : execLine fpu constants f (.plain instr) = exec fpu constants f instr := rfl
  cases heffect : exec fpu constants f instr with
  | none => simp only [runLines, hexec, heffect]
  | some effect => cases effect <;> simp only [runLines, hexec, heffect]

/-- How the run of the code goes on from where lines are left that end before the given line. -/
def resume (fpu : FloatUnit) (constants : UInt16 → Option Number) (items : List Item)
    (steps : Array Step) (after fuel : Nat) : Option Leaves → Option Outcome
  | some (.falls f) => runSteps fpu constants steps fuel after f
  | some (.jumps label f) =>
    match (Draft.ofItems items).placed[label]? with
    | some target => runSteps fpu constants steps fuel target f
    | none => none
  | some (.stops outcome) => some outcome
  | none => none

variable {items : List Item} {steps : Array Step}

private theorem exec_of_resolves {i : Nat} {line : Line} {step : Step} (f : Frame)
    (h : (Draft.ofItems items).Resolves i line step) :
    exec fpu constants f step.instr = execLine fpu constants f line := by
  cases line with
  | plain instr =>
    rw [show step = { instr } from h]
    rfl
  | branch when label =>
    obtain ⟨target, -, -, -, -, rfl⟩ := h
    rfl

theorem runSteps_line (hresolve : (Draft.ofItems items).resolve = .ok steps) {i : Nat} {line : Line}
    (hline : (Item.lines items)[i]? = some line) (f : Frame) (fuel : Nat) :
    runSteps fpu constants steps (fuel + 1) i f =
      match execLine fpu constants f line with
      | some (.next f) => runSteps fpu constants steps fuel (i + 1) f
      | _ => resume fpu constants items steps i fuel (runLines fpu constants [line] f) := by
  obtain ⟨hi, -⟩ := List.getElem?_eq_some_iff.mp hline
  obtain ⟨step, hstep⟩ : ∃ step, steps[i]? = some step :=
    ⟨_, Array.getElem?_eq_getElem (by rw [size_steps hresolve]; exact hi)⟩
  obtain ⟨line', hline', hresolves⟩ := resolves_line hresolve hstep
  rw [hline] at hline'
  cases hline'
  have hexec : exec fpu constants f step.instr = execLine fpu constants f line :=
    exec_of_resolves f hresolves
  rw [runSteps, hstep]
  dsimp only
  rw [hexec]
  cases heffect : execLine fpu constants f line with
  | none =>
    simp only [runLines, heffect]
    rfl
  | some effect =>
    cases effect with
    | next f' => rfl
    | stop outcome =>
      simp only [runLines, heffect]
      rfl
    | branch f' =>
      cases line with
      | plain instr =>
        rw [show step = { instr } from hresolves]
        simp only [runLines, heffect]
        rfl
      | branch when label =>
        obtain ⟨target, hplaced, -, -, -, rfl⟩ := hresolves
        simp only [runLines, heffect, resume, hplaced]

/-- Running the code through consecutive lines takes at least one step, if there are any. -/
theorem runSteps_lines (fpu : FloatUnit) (constants : UInt16 → Option Number)
    (hresolve : (Draft.ofItems items).resolve = .ok steps) {lines : List Line}
    {i : Nat} (hlines : ∀ k line, lines[k]? = some line → (Item.lines items)[i + k]? = some line)
    (f : Frame) :
    ∃ k, (lines ≠ [] → 0 < k) ∧ ∀ fuel, runSteps fpu constants steps fuel i f =
      if fuel < k then none
      else resume fpu constants items steps (i + lines.length) (fuel - k)
        (runLines fpu constants lines f) := by
  induction lines generalizing i f with
  | nil => exact ⟨0, fun h => absurd rfl h, fun fuel => rfl⟩
  | cons line rest ih =>
    have hline : (Item.lines items)[i]? = some line := hlines 0 line rfl
    cases heffect : execLine fpu constants f line with
    | none =>
      refine ⟨1, fun _ => Nat.one_pos, fun fuel => ?_⟩
      cases fuel with
      | zero => rfl
      | succ fuel =>
        rw [runSteps_line hresolve hline, heffect, if_neg (by omega)]
        simp only [runLines, heffect]
        rfl
    | some effect =>
      cases effect with
      | stop outcome =>
        refine ⟨1, fun _ => Nat.one_pos, fun fuel => ?_⟩
        cases fuel with
        | zero => rfl
        | succ fuel =>
          rw [runSteps_line hresolve hline, heffect, if_neg (by omega)]
          simp only [runLines, heffect]
          rfl
      | branch f' =>
        refine ⟨1, fun _ => Nat.one_pos, fun fuel => ?_⟩
        cases fuel with
        | zero => rfl
        | succ fuel =>
          rw [runSteps_line hresolve hline, heffect, if_neg (by omega)]
          cases line <;> simp only [runLines, heffect] <;> rfl
      | next f' =>
        obtain ⟨k, -, hk⟩ := ih (i := i + 1) (fun k line hrest => by
          rw [Nat.add_assoc, Nat.add_comm 1 k]
          exact hlines (k + 1) line hrest) f'
        refine ⟨k + 1, fun _ => Nat.succ_pos k, fun fuel => ?_⟩
        cases fuel with
        | zero => rfl
        | succ fuel =>
          rw [runSteps_line hresolve hline, heffect]
          dsimp only
          rw [hk, List.length_cons, Nat.add_sub_add_right]
          simp only [Nat.add_lt_add_iff_right, runLines, heffect]
          rw [show i + 1 + rest.length = i + (rest.length + 1) by omega]

end Lines

end Machine

end Classwright
