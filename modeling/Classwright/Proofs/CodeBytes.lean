import Classwright.Proofs.Assembly
import Classwright.Proofs.Flow

/-!
# The bytes of a method

The code of a method keeps every line at its address.  The lines that control can reach are read back
there; the others have given way to instructions of one byte.
-/

namespace Classwright

namespace Flow

variable {items : List Item} {steps : Array Step} {layout : Layout} {thisInit : Option Nat}
  {i : Nat} {locals : Locals layout.width} {step : Step}

theorem Reaches.lt (h : Reaches steps layout thisInit i locals) : i < steps.size := by
  cases h with
  | start h => exact h
  | next _ _ _ h => exact h

theorem Reaches.exists_step (h : Reaches steps layout thisInit i locals) :
    ∃ step, steps[i]? = some step :=
  ⟨_, Array.getElem?_eq_getElem h.lt⟩

private theorem Reaches.live (h : Reaches steps layout thisInit i locals) :
    ((analyze steps layout thisInit).toList.map Option.isNone)[i]? = some false := by
  obtain ⟨state, hstate, -⟩ := h.covered
  rw [localsAt?, Option.join_eq_some_iff] at hstate
  rw [List.getElem?_map, Vector.getElem?_toList, hstate]
  rfl

def address (items : List Item) (i : Nat) : Nat := Line.total ((Item.lines items).take i)

/-- The bytes of a method with the unreachable lines overwritten. -/
def codeOf (steps : Array Step) (layout : Layout) (thisInit : Option Nat) : List UInt8 :=
  Assembly.bytes steps ((analyze steps layout thisInit).toList.map Option.isNone)

variable (hresolve : (Draft.ofItems items).resolve = .ok steps)
include hresolve

theorem size_steps : steps.size = (Item.lines items).length := by
  rw [(Draft.resolves_of_resolve hresolve).2.1, Draft.size_lines_ofItems]

theorem length_codeOf : (codeOf steps layout thisInit).length = Line.total (Item.lines items) := by
  rw [codeOf, Assembly.length_bytes hresolve (by simp), Draft.lines_ofItems]

/-- A reachable line is read at its address, and what follows it starts at the next line. -/
theorem read_codeOf (hreaches : Reaches steps layout thisInit i locals) (hstep : steps[i]? = some step) :
    Instr.read ((codeOf steps layout thisInit).drop (address items i)) =
      .ok (step.instr, (codeOf steps layout thisInit).drop (address items (i + 1))) := by
  have hstep' : steps.toList[i]? = some step := by
    rw [Array.getElem?_toList]
    exact hstep
  have hread := Assembly.read_bytes hresolve (by simp) hstep' hreaches.live
  rw [Draft.lines_ofItems] at hread
  exact hread

omit hresolve in
theorem isNone_localsAt? (i : Nat) :
    ((analyze steps layout thisInit).toList.map Option.isNone)[i]? =
      if i < steps.size then some (localsAt? (analyze steps layout thisInit) i).isNone else none := by
  rw [List.getElem?_map, Vector.getElem?_toList, localsAt?]
  split
  · rename_i hi
    rw [Vector.getElem?_eq_getElem hi]
    rfl
  · rename_i hi
    rw [Vector.getElem?_eq_none (Nat.le_of_not_lt hi)]
    rfl

def flagged (steps : Array Step) (layout : Layout) (thisInit : Option Nat) : List (Instr × Bool) :=
  (steps.toList.map Step.instr).zip ((analyze steps layout thisInit).toList.map Option.isNone)

omit hresolve in
theorem getElem?_flagged {instr : Instr} {flag : Bool} :
    (flagged steps layout thisInit)[i]? = some (instr, flag) ↔
      (∃ step, steps[i]? = some step ∧ step.instr = instr) ∧
        (localsAt? (analyze steps layout thisInit) i).isNone = flag := by
  rw [flagged, List.getElem?_zip_eq_some, isNone_localsAt?, List.getElem?_map, Option.map_eq_some_iff,
    Array.getElem?_toList]
  refine and_congr_right ?_
  rintro ⟨step, hat, -⟩
  rw [if_pos (Array.getElem?_eq_some_iff.mp hat).1, Option.some_inj]

theorem drop_codeOf {i j : Nat} (hlive : localsAt? (analyze steps layout thisInit) i ≠ none) (hij : i < j)
    (hj : j ≤ steps.size)
    (hdead : ∀ k, i < k → k < j → localsAt? (analyze steps layout thisInit) k = none)
    (hnext : j < steps.size → localsAt? (analyze steps layout thisInit) j ≠ none) :
    (codeOf steps layout thisInit).drop (address items (i + 1)) =
      Instr.encodeAll (throwing (address items j - address items (i + 1))) ++
        (codeOf steps layout thisInit).drop (address items j) := by
  have hstart : ((analyze steps layout thisInit).toList.map Option.isNone)[i]? = some false := by
    rw [isNone_localsAt?, if_pos (by omega)]
    simpa [Option.isNone_eq_false_iff, Option.isSome_iff_ne_none] using hlive
  have hbetween : ∀ k : Nat, i < k → k < j →
      ((analyze steps layout thisInit).toList.map Option.isNone)[k]? = some true := by
    intro k hik hkj
    rw [isNone_localsAt?, if_pos (by omega), hdead k hik hkj]
    rfl
  have hstop : ((analyze steps layout thisInit).toList.map Option.isNone)[j]? ≠ some true := by
    rw [isNone_localsAt?]
    split
    · rename_i hlt
      simpa using hnext hlt
    · simp
  have hdrop := Assembly.drop_bytes hresolve (by simp) hstart hij hj hbetween hstop
  rw [Draft.lines_ofItems] at hdrop
  exact hdrop

theorem resolves_line (hstep : steps[i]? = some step) :
    ∃ line, (Item.lines items)[i]? = some line ∧ (Draft.ofItems items).Resolves i line step := by
  have hi : i < (Item.lines items).length := by
    rw [← size_steps hresolve]
    exact (Array.getElem?_eq_some_iff.mp hstep).1
  refine ⟨_, List.getElem?_eq_getElem hi, ?_⟩
  refine (Draft.resolves_of_resolve hresolve).2.2 i _ step ?_ ?_
  · rw [Draft.lines_ofItems]
    exact List.getElem?_eq_getElem hi
  · rw [Array.getElem?_toList]
    exact hstep

theorem resolves_branch {when : Jump} {label : Label} (hi : i < (Item.lines items).length)
    (h : (Draft.ofItems items).Resolves i (.branch when label) step) :
    ∃ target offset, (Draft.ofItems items).placed[label]? = some target ∧ target < steps.size ∧
      step = { instr := .jump when offset, target := some target } ∧
      (address items i : Int) + offset.toInt = address items target := by
  obtain ⟨target, hplaced, htarget, hlow, hhigh, rfl⟩ := h
  rw [Draft.size_lines_ofItems] at htarget
  refine ⟨target, _, hplaced, by rw [size_steps hresolve]; exact htarget, rfl, ?_⟩
  rw [Draft.address_ofItems items (Nat.le_of_lt htarget),
    Draft.address_ofItems items (Nat.le_of_lt hi)] at hlow hhigh ⊢
  have hoffset : (Int16.ofInt ((address items target : Int) - address items i)).toInt =
      (address items target : Int) - address items i :=
    Int16.toInt_ofInt_of_le hlow (Int.lt_of_le_of_lt hhigh (by decide))
  change (address items i : Int) +
    (Int16.ofInt ((address items target : Int) - address items i)).toInt = _
  rw [hoffset]
  omega

theorem length_sub_drop (i : Nat) :
    (codeOf steps layout thisInit).length -
        ((codeOf steps layout thisInit).drop (address items (i + 1))).length =
      address items (i + 1) := by
  have hle : address items (i + 1) ≤ (codeOf steps layout thisInit).length := by
    rw [length_codeOf hresolve]
    exact Line.total_take_le _ _
  rw [List.length_drop]
  omega

end Flow

end Classwright
