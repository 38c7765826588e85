import Classwright.Proofs.Compilation
import Classwright.Proofs.FrameMap
import Classwright.Proofs.MeetOverPaths

/-!
# Branches and offsets

Assembled code keeps every instruction that control can reach at its offset, and every branch in it
leads to the line at which its label was placed last.  Where control does not come, code of the same
size throws.  Assembling fails only if the code is too long, at the first branch whose label stands
nowhere or too far away, or if unreachable code is to have frames and the pool has no room for the
class of what it throws.
-/

namespace Classwright

def Line.falls : Line → Bool
  | plain instr => !instr.endsMethod
  | branch when _ => when != .always

namespace Item

/-- The label was placed last in front of the given line. -/
def Stands (items : List Item) (label : Label) (target : Nat) : Prop :=
  ∃ before after, items = before ++ mark label :: after ∧
    (∀ item ∈ after, item.marks label = false) ∧ target = (lines before).length

def distance (items : List Item) (i target : Nat) : Int :=
  (Flow.address items target : Int) - Flow.address items i

/-- Why the branch to a label cannot stand at a line. -/
inductive Misses (items : List Item) (i : Nat) (label : Label) : GenerateError → Prop where
  /-- No line stands behind the label. -/
  | unbound (nowhere : ∀ target, Stands items label target → (lines items).length ≤ target) :
      Misses items i label (.unboundLabel label)
  | outOfRange {target : Nat} (stands : Stands items label target)
      (inside : target < (lines items).length)
      (far : distance items i target < -32768 ∨ 32767 < distance items i target) :
      Misses items i label (.branchOutOfRange (distance items i target))

def FirstMiss (items : List Item) (e : GenerateError) : Prop :=
  ∃ i when label, (lines items)[i]? = some (.branch when label) ∧ Misses items i label e ∧
    ∀ j < i, ∀ when' label' e', (lines items)[j]? = some (.branch when' label') →
      ¬ Misses items j label' e'

inductive Reachable (items : List Item) : Nat → Prop where
  | start (inside : 0 < (lines items).length) : Reachable items 0
  | next {i : Nat} {line : Line} (reachable : Reachable items i)
      (at_ : (lines items)[i]? = some line) (falls : line.falls = true)
      (inside : i + 1 < (lines items).length) : Reachable items (i + 1)
  | branch {i target : Nat} {when : Jump} {label : Label} (reachable : Reachable items i)
      (at_ : (lines items)[i]? = some (.branch when label)) (stands : Stands items label target)
      (inside : target < (lines items).length) : Reachable items target

/-- The lines from `i` up to `j` are all those of a stretch to which control does not come. -/
structure Unreached (items : List Item) (i j : Nat) : Prop where
  nonempty : i < j
  inside : j ≤ (lines items).length
  dead : ∀ k, i ≤ k → k < j → ¬ Reachable items k
  first : ∀ k, k + 1 = i → Reachable items k
  last : j < (lines items).length → Reachable items j

/-- What a line becomes: a branch gets the distance to the line of its label. -/
inductive Becomes (items : List Item) (i : Nat) : Line → Instr → Prop where
  | plain (instr : Instr) : Becomes items i (.plain instr) instr
  | branch {when : Jump} {label : Label} {target : Nat} {offset : Int16}
      (stands : Stands items label target) (inside : target < (lines items).length)
      (leads : offset.toInt = distance items i target) :
      Becomes items i (.branch when label) (.jump when offset)

end Item

/-- The part stands in the code behind the given number of bytes. -/
def Instr.StandsAt (code : List Instr) (offset : Nat) (part : List Instr) : Prop :=
  ∃ before after, code = before ++ part ++ after ∧ (encodeAll before).length = offset

namespace Assembly

open Item

inductive Fails (items : List Item) (layout? : Option Layout) (pool : Pool) : GenerateError → Prop where
  | codeSize (long : 65535 < Line.total (lines items)) :
      Fails items layout? pool (.limitExceeded .codeSize)
  | branch {e : GenerateError} (fits : Line.total (lines items) ≤ 65535) (misses : FirstMiss items e) :
      Fails items layout? pool e
  /-- Frames are asked for, and the one of unreachable code has no place for its class. -/
  | throwable {overflow : Pool.Overflow} (fits : Line.total (lines items) ≤ 65535)
      (resolved : ∀ e, ¬ FirstMiss items e) (framed : layout?.isSome = true)
      (dead : ∃ i < (lines items).length, ¬ Reachable items i)
      (full : (Pool.classInfo "java/lang/Throwable" pool).1 = .error overflow) :
      Fails items layout? pool overflow.toError

structure Keeps (items : List Item) (code : List Instr) : Prop where
  size : (Instr.encodeAll code).length = Line.total (lines items)
  live : ∀ i line, (lines items)[i]? = some line → Reachable items i →
    ∃ instr, Becomes items i line instr ∧ Instr.StandsAt code (Flow.address items i) [instr]
  dead : ∀ i j, Unreached items i j →
    Instr.StandsAt code (Flow.address items i)
      (List.replicate (Flow.address items j - Flow.address items i - 1) .nop ++ [.athrow])

end Assembly

section Resolve

variable {items : List Item}

open Item

theorem Item.stands_iff {label : Label} {target : Nat} :
    Stands items label target ↔ (Draft.ofItems items).placed[label]? = some target :=
  Draft.placed_ofItems.symm

private theorem Item.distance_eq {i target : Nat} (hi : i ≤ (Item.lines items).length)
    (htarget : target ≤ (Item.lines items).length) :
    ((Draft.ofItems items).address target : Int) - (Draft.ofItems items).address i =
      distance items i target := by
  rw [Draft.address_ofItems items hi, Draft.address_ofItems items htarget]
  rfl

theorem Draft.resolveLine_eq_error_iff {i : Nat} {line : Line} {e : GenerateError}
    (hi : i < (Item.lines items).length) :
    (Draft.ofItems items).resolveLine i line = .error e ↔
      ∃ when label, line = .branch when label ∧ Misses items i label e := by
  cases line with
  | plain instr => simp [resolveLine]
  | branch jump label =>
    constructor
    · intro h
      refine ⟨jump, label, rfl, ?_⟩
      simp only [resolveLine] at h
      split at h
      · rename_i hnone
        cases h
        refine .unbound fun target hstands => ?_
        rw [stands_iff, hnone] at hstands
        cases hstands
      · rename_i target hplaced
        have hstands := stands_iff.mpr hplaced
        rw [size_lines_ofItems] at h
        split at h
        · rename_i hinside
          rw [distance_eq (Nat.le_of_lt hi) (Nat.le_of_lt hinside)] at h
          split at h
          · cases h
          · rename_i hfar
            cases h
            exact .outOfRange hstands hinside (by omega)
        · rename_i houtside
          cases h
          refine .unbound fun other hother => ?_
          rw [stands_iff, hplaced] at hother
          cases hother
          exact Nat.le_of_not_lt houtside
    · rintro ⟨_, _, heq, hmisses⟩
      cases heq
      cases hmisses with
      | unbound nowhere =>
        cases hplaced : (Draft.ofItems items).placed[label]? with
        | none => simp [resolveLine, hplaced]
        | some target =>
          have houtside := nowhere target (stands_iff.mpr hplaced)
          simp only [resolveLine, hplaced, size_lines_ofItems]
          rw [if_neg (Nat.not_lt.mpr houtside)]
      | @outOfRange target stands inside far =>
        simp only [resolveLine, stands_iff.mp stands, size_lines_ofItems]
        rw [if_pos inside, distance_eq (Nat.le_of_lt hi) (Nat.le_of_lt inside),
          if_neg (by omega)]

private theorem resolveFrom_eq_error_iff {d : Draft} {i : Nat} {rest : List Line}
    {done : Array Step} {e : GenerateError} :
    d.resolveFrom i rest done = .error e ↔
      ∃ k line, rest[k]? = some line ∧ d.resolveLine (i + k) line = .error e ∧
        ∀ j < k, ∀ line' e', rest[j]? = some line' → d.resolveLine (i + j) line' ≠ .error e' := by
  induction rest generalizing i done with
  | nil => simp [Draft.resolveFrom]
  | cons line rest ih =>
    simp only [Draft.resolveFrom]
    cases hline : d.resolveLine i line with
    | error e' =>
      dsimp only
      constructor
      · intro h
        cases h
        exact ⟨0, line, rfl, hline, by simp⟩
      · rintro ⟨k, found, hfound, hrefused, hfirst⟩
        cases k with
        | zero =>
          cases hfound
          rw [Nat.add_zero, hline] at hrefused
          cases hrefused
          rfl
        | succ k => exact absurd hline (hfirst 0 (Nat.zero_lt_succ k) line e' rfl)
    | ok step =>
      dsimp only
      rw [ih]
      constructor
      · rintro ⟨k, found, hfound, hrefused, hfirst⟩
        refine ⟨k + 1, found, hfound, by rwa [Nat.add_right_comm] at hrefused, fun j hj => ?_⟩
        cases j with
        | zero =>
          intro line' e' hline'
          cases hline'
          rw [Nat.add_zero, hline]
          simp
        | succ j =>
          intro line' e' hline'
          have hnot := hfirst j (Nat.lt_of_succ_lt_succ hj) line' e' hline'
          rwa [Nat.add_right_comm] at hnot
      · rintro ⟨k, found, hfound, hrefused, hfirst⟩
        cases k with
        | zero =>
          cases hfound
          rw [Nat.add_zero, hline] at hrefused
          cases hrefused
        | succ k =>
          refine ⟨k, found, hfound, by rwa [Nat.add_right_comm], fun j hj line' e' hline' => ?_⟩
          have hnot := hfirst (j + 1) (Nat.succ_lt_succ hj) line' e' hline'
          rwa [Nat.add_right_comm]

/-- Code is refused for its size or for the first fault of a branch. -/
theorem Draft.resolve_eq_error_iff {e : GenerateError} :
    (Draft.ofItems items).resolve = .error e ↔
      (65535 < Line.total (Item.lines items) ∧ e = .limitExceeded .codeSize) ∨
        (Line.total (Item.lines items) ≤ 65535 ∧ FirstMiss items e) := by
  unfold resolve
  rw [size_ofItems]
  by_cases hsize : Line.total (Item.lines items) ≤ 65535
  · rw [if_pos hsize, resolveFrom_eq_error_iff, lines_ofItems]
    simp only [Nat.zero_add]
    have hlt : ∀ {i line}, (Item.lines items)[i]? = some line → i < (Item.lines items).length := fun h =>
      (List.getElem?_eq_some_iff.mp h).1
    constructor
    · rintro ⟨i, line, hline, hrefused, hfirst⟩
      obtain ⟨when, label, rfl, hmisses⟩ := (resolveLine_eq_error_iff (hlt hline)).mp hrefused
      refine .inr ⟨hsize, i, when, label, hline, hmisses, fun j hj when' label' e' hline' hmisses' => ?_⟩
      exact hfirst j hj _ e' hline' ((resolveLine_eq_error_iff (hlt hline')).mpr ⟨_, _, rfl, hmisses'⟩)
    · rintro (⟨hlong, -⟩ | ⟨-, i, when, label, hline, hmisses, hfirst⟩)
      · omega
      · refine ⟨i, _, hline, (resolveLine_eq_error_iff (hlt hline)).mpr ⟨_, _, rfl, hmisses⟩, ?_⟩
        intro j hj line' e' hline' hrefused
        obtain ⟨when', label', rfl, hmisses'⟩ := (resolveLine_eq_error_iff (hlt hline')).mp hrefused
        exact hfirst j hj when' label' e' hline' hmisses'
  · rw [if_neg hsize]
    constructor
    · intro h
      cases h
      exact .inl ⟨Nat.lt_of_not_le hsize, rfl⟩
    · rintro (⟨-, rfl⟩ | ⟨hfits, -⟩)
      · rfl
      · exact absurd hfits hsize

end Resolve

section Reach

variable {items : List Item} {steps : Array Step}
  (hresolve : (Draft.ofItems items).resolve = .ok steps)

private theorem Draft.Resolves.falls_line {d : Draft} {i : Nat} {line : Line} {step : Step}
    (h : d.Resolves i line step) : step.falls = line.falls := by
  cases line with
  | plain instr =>
    rw [show step = { instr } from h]
    rfl
  | branch jump label =>
    obtain ⟨target, -, -, -, -, rfl⟩ := h
    cases jump <;> rfl

include hresolve

theorem Flow.exists_resolves {i : Nat} {line : Line} (hline : (Item.lines items)[i]? = some line) :
    ∃ step, steps[i]? = some step ∧ (Draft.ofItems items).Resolves i line step := by
  have hlt : i < steps.size := by
    rw [size_steps hresolve]
    exact (List.getElem?_eq_some_iff.mp hline).1
  have hstep := Array.getElem?_eq_getElem hlt
  obtain ⟨line', hline', hresolves⟩ := resolves_line hresolve hstep
  obtain rfl := Option.some.inj (hline.symm.trans hline')
  exact ⟨_, hstep, hresolves⟩

private theorem Item.Reachable.exists_path {j : Nat} (h : Reachable items j) :
    ∃ passed, Flow.Path steps passed j := by
  have hsize := Flow.size_steps hresolve
  induction h with
  | start inside => exact ⟨[], .start (hsize ▸ inside)⟩
  | next reachable at_ falls inside ih =>
    obtain ⟨passed, hpath⟩ := ih
    obtain ⟨step, hstep, hresolves⟩ := Flow.exists_resolves hresolve at_
    exact ⟨_, hpath.next hstep (Flow.mem_successors.mpr (.inr ⟨hresolves.falls_line.trans falls, rfl⟩))
      (hsize ▸ inside)⟩
  | branch reachable at_ stands inside ih =>
    obtain ⟨passed, hpath⟩ := ih
    obtain ⟨step, hstep, hresolves⟩ := Flow.exists_resolves hresolve at_
    obtain ⟨target, hplaced, -, -, -, rfl⟩ := hresolves
    obtain rfl := Option.some.inj ((stands_iff.mp stands).symm.trans hplaced)
    exact ⟨_, hpath.next hstep (Flow.mem_successors.mpr (.inl rfl)) (hsize ▸ inside)⟩

private theorem Flow.Path.reachable {passed : List Nat} {j : Nat} (h : Path steps passed j) :
    Item.Reachable items j := by
  have hsize := size_steps hresolve
  induction h with
  | start inside => exact .start (hsize ▸ inside)
  | next path at_ follows inside ih =>
    obtain ⟨line, hline, hresolves⟩ := resolves_line hresolve at_
    rcases mem_successors.mp follows with htarget | ⟨hfalls, rfl⟩
    · cases line with
      | plain instr =>
        rw [show _ = _ from hresolves] at htarget
        cases htarget
      | branch jump label =>
        obtain ⟨target, hplaced, -, -, -, rfl⟩ := hresolves
        cases htarget
        exact ih.branch hline (Item.stands_iff.mpr hplaced) (hsize ▸ inside)
    · exact ih.next hline (hresolves.falls_line.symm.trans hfalls) (hsize ▸ inside)

theorem Flow.reachable_iff (layout : Layout) (thisInit : Option Nat) {j : Nat} :
    Item.Reachable items j ↔ localsAt? (analyze steps layout thisInit) j ≠ none := by
  rw [Option.ne_none_iff_exists', exists_localsAt?_iff]
  exact ⟨fun h => h.exists_path hresolve, fun ⟨_, h⟩ => h.reachable hresolve⟩

theorem Flow.isEmpty_deadStarts_iff (layout : Layout) (thisInit : Option Nat) :
    (deadStarts (analyze steps layout thisInit)).isEmpty = true ↔
      ∀ i < (Item.lines items).length, Item.Reachable items i := by
  rw [List.isEmpty_iff, ← size_steps hresolve]
  constructor
  · intro hempty i
    -- the first line that control does not reach would start a stretch
    induction i with
    | zero =>
      intro hi
      rw [size_steps hresolve] at hi
      exact .start hi
    | succ i ih =>
      intro hi
      by_contra hdead
      have hlive := ih (Nat.lt_of_succ_lt hi)
      rw [reachable_iff hresolve layout thisInit] at hlive hdead
      have hstart := mem_deadStarts.mpr ⟨hi, Classical.not_not.mp hdead, .inr hlive⟩
      rw [hempty] at hstart
      cases hstart
  · intro hall
    rw [List.eq_nil_iff_forall_not_mem]
    intro i hi
    obtain ⟨hlt, hnone, -⟩ := mem_deadStarts.mp hi
    exact (reachable_iff hresolve layout thisInit).mp (hall i hlt) hnone

end Reach

namespace Assembly

open Item

section Keeps

variable {items : List Item} {steps : Array Step} {layout : Layout} {thisInit : Option Nat}
  (hresolve : (Draft.ofItems items).resolve = .ok steps)
include hresolve

private theorem becomes_of_resolves {i : Nat} {line : Line} {step : Step}
    (hline : (lines items)[i]? = some line) (h : (Draft.ofItems items).Resolves i line step) :
    Becomes items i line step.instr := by
  cases line with
  | plain instr =>
    rw [show step = { instr } from h]
    exact .plain instr
  | branch jump label =>
    obtain ⟨target, offset, hplaced, htarget, rfl, hleads⟩ :=
      Flow.resolves_branch hresolve (List.getElem?_eq_some_iff.mp hline).1 h
    refine .branch (stands_iff.mpr hplaced) (Flow.size_steps hresolve ▸ htarget) ?_
    rw [distance]
    omega

private theorem exists_front_of_reachable (layout : Layout) (thisInit : Option Nat) {i : Nat}
    (h : Reachable items i) :
    ∃ step front, steps[i]? = some step ∧
      instrs steps ((Flow.analyze steps layout thisInit).toList.map Option.isNone) =
        front ++ step.instr :: neutralized 0 ((Flow.flagged steps layout thisInit).drop (i + 1)) ∧
      (Instr.encodeAll front).length = Flow.address items i := by
  have hlive := (Flow.reachable_iff hresolve layout thisInit).mp h
  obtain ⟨state, hstate⟩ := Option.ne_none_iff_exists'.mp hlive
  have hlt := Flow.lt_of_localsAt? hstate
  have hflag : ((Flow.analyze steps layout thisInit).toList.map Option.isNone)[i]? = some false := by
    rw [Flow.isNone_localsAt?, if_pos hlt, hstate]
    rfl
  have hstep : steps.toList[i]? = some (steps[i]) := by
    rw [Array.getElem?_toList, Array.getElem?_eq_getElem hlt]
  obtain ⟨front, hcode, hfront⟩ := exists_front hresolve (by simp) hstep hflag
  rw [Draft.lines_ofItems] at hfront
  exact ⟨_, front, Array.getElem?_eq_getElem hlt, hcode, hfront⟩

private theorem neutralized_of_unreached {i j : Nat} (h : Unreached items i j) :
    neutralized 0 ((Flow.flagged steps layout thisInit).drop i) =
      List.replicate (Flow.address items j - Flow.address items i - 1) .nop ++ [.athrow] ++
        neutralized 0 ((Flow.flagged steps layout thisInit).drop j) := by
  have hsize := Flow.size_steps hresolve
  have hbetween : ∀ k : Nat, i ≤ k → k < j →
      ((Flow.analyze steps layout thisInit).toList.map Option.isNone)[k]? = some true := by
    intro k hik hkj
    have hdead := mt (Flow.reachable_iff hresolve layout thisInit).mpr
      (h.dead k hik hkj)
    rw [Flow.isNone_localsAt?, if_pos (by have := h.inside; omega), Classical.not_not.mp hdead]
    rfl
  have hstop : ((Flow.analyze steps layout thisInit).toList.map Option.isNone)[j]? ≠ some true := by
    rw [Flow.isNone_localsAt?]
    split
    · rename_i hlt
      have hlive := (Flow.reachable_iff hresolve layout thisInit).mp
        (h.last (hsize ▸ hlt))
      simpa using hlive
    · exact nofun
  have hdrop := neutralized_drop hresolve (by simp) (Nat.le_of_lt h.nonempty) hbetween hstop
  rw [Draft.lines_ofItems] at hdrop
  have hlt : Flow.address items i < Flow.address items j :=
    Flow.address_lt hresolve h.nonempty (hsize ▸ h.inside)
  obtain ⟨size, hsize⟩ : ∃ size, Flow.address items j - Flow.address items i = size + 1 :=
    ⟨_, (Nat.succ_pred_eq_of_pos (Nat.sub_pos_of_lt hlt)).symm⟩
  rw [hsize, Nat.add_sub_cancel]
  exact hdrop.trans (by rw [show Line.total _ - Line.total _ = size + 1 from hsize]; rfl)

private theorem keeps_of_resolve :
    Keeps items (instrs steps ((Flow.analyze steps layout thisInit).toList.map Option.isNone)) where
  size := Flow.length_codeOf hresolve
  live i line hline hlive := by
    obtain ⟨step, front, hstep, hcode, hfront⟩ :=
      exists_front_of_reachable hresolve layout thisInit hlive
    obtain ⟨line', hline', hresolves⟩ := Flow.resolves_line hresolve hstep
    obtain rfl := Option.some.inj (hline.symm.trans hline')
    exact ⟨step.instr, becomes_of_resolves hresolve hline hresolves, front, _, by
      rw [hcode, List.append_assoc]; rfl, hfront⟩
  dead i j h := by
    -- the first line is never part of a stretch, so there is a line in front of it
    cases i with
    | zero =>
      have hlt : 0 < (lines items).length := Nat.lt_of_lt_of_le h.nonempty h.inside
      exact absurd (.start hlt) (h.dead 0 (Nat.le_refl 0) h.nonempty)
    | succ k =>
      obtain ⟨step, front, hstep, hcode, hfront⟩ :=
        exists_front_of_reachable hresolve layout thisInit (h.first k rfl)
      obtain ⟨line, hline, hresolves⟩ := Flow.resolves_line hresolve hstep
      refine ⟨front ++ [step.instr], neutralized 0 ((Flow.flagged steps layout thisInit).drop j), ?_, ?_⟩
      · rw [hcode, neutralized_of_unreached hresolve h]
        simp only [List.append_assoc, List.cons_append, List.nil_append]
      · have hone : Instr.encodeAll [step.instr] = step.instr.encode := List.append_nil _
        rw [Instr.encodeAll_append, List.length_append, hfront, hone, Instr.length_encode,
          hresolves.size_eq]
        exact (Line.total_take_succ hline).symm

end Keeps

theorem run_error_iff_fails {items : List Item} {layout? : Option Layout} {pool : Pool}
    {e : GenerateError} : ofItems items layout? pool = .error e ↔ Fails items layout? pool e := by
  rw [run_ofItems_error_iff, Draft.resolve_eq_error_iff]
  constructor
  · rintro ((⟨hlong, rfl⟩ | ⟨hfits, hmiss⟩) | ⟨steps, hresolve, hframed, herror⟩)
    · exact .codeSize hlong
    · exact .branch hfits hmiss
    · obtain ⟨hdead, overflow, hfull, rfl⟩ := run_mapFrames_error_iff.mp herror
      have hnot := fun e => mt (Draft.resolve_eq_error_iff (e := e)).mpr
        (by rw [hresolve]; exact nofun)
      have hfits : Line.total (lines items) ≤ 65535 :=
        Nat.le_of_not_lt fun hlong => hnot _ (.inl ⟨hlong, rfl⟩)
      refine .throwable hfits (fun e hmiss => hnot e (.inr ⟨hfits, hmiss⟩)) hframed ?_ hfull
      rw [← Bool.not_eq_true, Flow.isEmpty_deadStarts_iff hresolve _ _] at hdead
      push Not at hdead
      exact hdead
  · rintro (hlong | ⟨hfits, hmiss⟩ | ⟨hfits, hresolved, hframed, hdead, hfull⟩)
    · exact .inl (.inl ⟨hlong, rfl⟩)
    · exact .inl (.inr ⟨hfits, hmiss⟩)
    · cases hresolve : (Draft.ofItems items).resolve with
      | error e =>
        rcases Draft.resolve_eq_error_iff.mp hresolve with ⟨hlong, -⟩ | ⟨-, hmiss⟩
        · exact absurd hfits (Nat.not_le.mpr hlong)
        · exact absurd hmiss (hresolved e)
      | ok steps =>
        refine .inr ⟨steps, rfl, hframed, run_mapFrames_error_iff.mpr ⟨?_, _, hfull, rfl⟩⟩
        rw [← Bool.not_eq_true, Flow.isEmpty_deadStarts_iff hresolve _ _]
        push Not
        exact hdead

/-- Assembling fails just for a reason that is listed; otherwise every branch leads to its label and
nothing moves. -/
theorem branches_resolved_offsets_kept (items : List Item) (layout? : Option Layout) (pool : Pool) :
    (∀ e, ofItems items layout? pool = .error e ↔ Fails items layout? pool e) ∧
      ∀ assembly final, ofItems items layout? pool = .ok (assembly, final) →
        Keeps items assembly.code := by
  refine ⟨fun e => run_error_iff_fails, fun assembly final h => ?_⟩
  obtain ⟨steps, hresolve, hcode, -⟩ := run_ofItems_iff.mp h
  rw [hcode]
  exact keeps_of_resolve hresolve

end Assembly

end Classwright
