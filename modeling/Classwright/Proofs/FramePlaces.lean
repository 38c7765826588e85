import Classwright.Proofs.Liveness
import Classwright.Proofs.Offsets
import Classwright.Proofs.Room
import Mathlib.Tactic.IntervalCases

/-!
# Where frames are needed

Assembled code has frames at the lines that reachable branches lead to and at the starts of the
stretches to which control does not come, and nowhere else.  Behind an instruction that never passes
control on, one of the two is the case.
-/

namespace Classwright

def Item.Targeted (items : List Item) (j : Nat) : Prop :=
  ∃ i when label, Reachable items i ∧ (lines items)[i]? = some (.branch when label) ∧
    Stands items label j

namespace Assembly

open Item

/-- The frames that code is to have, with their offsets. -/
inductive FrameAt (items : List Item) (layout : Layout) (steps : Array Step) (pool : Pool) :
    Nat → FrameTypes → Prop where
  /-- The stack is empty where a branch leads, and the locals are those of the analysis. -/
  | target {j : Nat} {state : Locals layout.width} (targeted : Targeted items j)
      (known : Flow.localsAt? (Flow.analyze steps layout (Draft.ofItems items).thisInit) j = some state) :
      FrameAt items layout steps pool (Flow.address items j)
        { locals := frameLocals state.toList, stack := [] }
  /-- A stretch that is not reached starts as if something had been thrown. -/
  | unreached {i j : Nat} {throwable : UInt16} (unreached : Unreached items i j)
      (named : pool.className? throwable = some "java/lang/Throwable") :
      FrameAt items layout steps pool (Flow.address items i)
        { locals := [], stack := [.object throwable] }

structure Framed (items : List Item) (layout : Layout) (steps : Array Step) (assembly : Assembly)
    (pool : Pool) (entries : List (Nat × FrameTypes)) : Prop where
  decode : AttributeBody.decode? "StackMapTable" (AttributeBody.stackMap assembly.frames).encode =
    some (.ok (.stackMap assembly.frames))
  expand : MapFrame.expand? 0 (frameLocals layout.entry.toList) assembly.frames = some entries
  places : ∀ offset frame, (offset, frame) ∈ entries ↔ FrameAt items layout steps pool offset frame
  disjoint : ∀ i j k, Targeted items i → Unreached items j k →
    Flow.address items i ≠ Flow.address items j
  /-- What follows a return, a throw or a branch that is always taken has a frame. -/
  behind : ∀ before instr next after, assembly.code = before ++ instr :: next :: after →
    instr.endsMethod = true ∨ instr.isGoto = true →
    ∃ frame, ((Instr.encodeAll (before ++ [instr])).length, frame) ∈ entries

end Assembly

section Filled

private theorem exists_cons_of_filled {code : List (Instr × Bool)} {next : Instr} {after : List Instr}
    (h : (filled code).flatten = next :: after) : ∃ y rest, code = y :: rest := by
  cases code with
  | nil => cases h
  | cons y rest => exact ⟨y, rest, rfl⟩

private theorem eq_of_throwing_eq {size : Nat} {before after : List Instr} {instr : Instr}
    (h : throwing size = before ++ instr :: after) (hnop : instr ≠ .nop) : after = [] := by
  cases size with
  | zero => cases before <;> cases h
  | succ size =>
    rcases List.eq_nil_or_concat' after with rfl | ⟨init, last, rfl⟩
    · rfl
    · rw [throwing, ← List.cons_append, ← List.append_assoc] at h
      have hmem : instr ∈ List.replicate size Instr.nop := by
        rw [List.append_inj_left' h rfl]
        simp
      exact absurd (List.eq_of_mem_replicate hmem) hnop

/-- Two instructions that follow each other come from lines that do, or stand inside a stretch. -/
theorem exists_lines_of_filled {code : List (Instr × Bool)} {before after : List Instr}
    {instr next : Instr} (h : (filled code).flatten = before ++ instr :: next :: after)
    (hnop : instr ≠ .nop) :
    ∃ front x y back, code = front ++ x :: y :: back ∧
      (Instr.encodeAll (before ++ [instr])).length = Instr.totalSize (front ++ [x]) ∧
      (x.2 = false → x.1 = instr) ∧ (x.2 = true → y.2 = false) := by
  induction code generalizing before with
  | nil => cases before <;> cases h
  | cons head rest ih =>
    have hbehind : ∀ piece before', before = piece ++ before' → Replaces head piece →
        (filled rest).flatten = before' ++ instr :: next :: after →
        ∃ front x y back, head :: rest = front ++ x :: y :: back ∧
          (Instr.encodeAll (before ++ [instr])).length = Instr.totalSize (front ++ [x]) ∧
          (x.2 = false → x.1 = instr) ∧ (x.2 = true → y.2 = false) := by
      intro piece before' hbefore hpiece hrest
      obtain ⟨front, x, y, back, rfl, hlength, hlive, hdead⟩ := ih hrest
      refine ⟨head :: front, x, y, back, rfl, ?_, hlive, hdead⟩
      rw [hbefore, List.append_assoc, Instr.encodeAll_append, List.length_append, hlength, hpiece.2.2]
      rfl
    have hreplaces := forall₂_filled (head :: rest)
    obtain ⟨instr', dead⟩ := head
    cases dead with
    | false =>
      obtain ⟨hpiece, -⟩ := List.forall₂_cons.mp hreplaces
      rw [filled, List.flatten_cons] at h
      cases before with
      | nil =>
        obtain ⟨rfl, hrest⟩ := List.cons.inj h
        obtain ⟨y, back, rfl⟩ := exists_cons_of_filled hrest
        refine ⟨[], (instr', false), y, back, rfl, ?_, fun _ => rfl, by simp⟩
        rw [List.nil_append, List.nil_append, Instr.encodeAll, List.flatMap_singleton,
          Instr.length_encode]
        rfl
      | cons first before =>
        obtain ⟨rfl, hrest⟩ := List.cons.inj h
        exact hbehind [instr'] before rfl hpiece hrest
    | true =>
      obtain ⟨hpiece, -⟩ := List.forall₂_cons.mp hreplaces
      rw [filled, List.flatten_cons] at h
      rcases List.append_eq_append_iff.mp h with ⟨before', hbefore, hrest⟩ | ⟨tail, hhead, htail⟩
      · exact hbehind _ before' hbefore hpiece hrest
      cases tail with
      | nil =>
        refine hbehind _ [] ?_ hpiece htail.symm
        rw [hhead, List.append_nil, List.append_nil]
      | cons found tail =>
        obtain ⟨rfl, hrest⟩ := List.cons.inj htail
        split at hhead
        · have hmem : instr ∈ List.replicate instr'.size Instr.nop := by
            rw [hhead]
            simp
          exact absurd (List.eq_of_mem_replicate hmem) hnop
        · rename_i hends
          obtain rfl := eq_of_throwing_eq hhead hnop
          obtain ⟨y, back, rfl⟩ := exists_cons_of_filled hrest.symm
          refine ⟨[], (instr', true), y, back, rfl, ?_, by simp, fun _ => ?_⟩
          · rw [← hhead, length_encodeAll_throwing]
            rfl
          · simpa using hends

end Filled

section Places

variable {items : List Item} {steps : Array Step} (layout : Layout) (thisInit : Option Nat)
  (hresolve : (Draft.ofItems items).resolve = .ok steps)
include hresolve

theorem Flow.targeted_iff {j : Nat} :
    Targeted steps layout thisInit j ↔ Item.Targeted items j := by
  constructor
  · rintro ⟨i, step, state, hstate, hstep, htarget⟩
    obtain ⟨line, hline, hresolves⟩ := resolves_line hresolve hstep
    cases line with
    | plain instr =>
      rw [show step = { instr } from hresolves] at htarget
      cases htarget
    | branch jump label =>
      obtain ⟨target, hplaced, -, -, -, rfl⟩ := hresolves
      cases htarget
      refine ⟨i, jump, label, (reachable_iff hresolve layout thisInit).mpr ?_, hline,
        Item.stands_iff.mpr hplaced⟩
      rw [hstate]
      exact nofun
  · rintro ⟨i, jump, label, hreachable, hline, hstands⟩
    obtain ⟨state, hstate⟩ :=
      Option.ne_none_iff_exists'.mp ((reachable_iff hresolve layout thisInit).mp hreachable)
    obtain ⟨step, hstep, target, hplaced, -, -, -, rfl⟩ := exists_resolves hresolve hline
    obtain rfl := Option.some.inj ((Item.stands_iff.mp hstands).symm.trans hplaced)
    exact ⟨i, _, state, hstate, hstep, rfl⟩

theorem Flow.mem_deadStarts_iff {i : Nat} :
    i ∈ deadStarts (analyze steps layout thisInit) ↔ ∃ j, Item.Unreached items i j := by
  have hsize := size_steps hresolve
  have hdead : ∀ k, localsAt? (analyze steps layout thisInit) k = none ↔ ¬ Item.Reachable items k := by
    intro k
    rw [reachable_iff hresolve layout thisInit, Classical.not_not]
  rw [mem_deadStarts]
  constructor
  · rintro ⟨hlt, hnone, hfirst⟩
    -- the stretch ends at the first line behind it that is reached, or with the code
    have hends : ∃ j, i < j ∧ (steps.size ≤ j ∨ Item.Reachable items j) :=
      ⟨steps.size, hlt, .inl (Nat.le_refl _)⟩
    classical
    obtain ⟨hij, hend⟩ := Nat.find_spec hends
    have hle : Nat.find hends ≤ steps.size := Nat.find_min' hends ⟨hlt, .inl (Nat.le_refl _)⟩
    refine ⟨Nat.find hends, hij, hsize ▸ hle, fun k hik hkj => ?_, fun k hk => ?_, fun hj => ?_⟩
    · rcases Nat.lt_or_eq_of_le hik with hlt' | rfl
      · exact fun hlive => Nat.find_min hends hkj ⟨hlt', .inr hlive⟩
      · exact (hdead i).mp hnone
    · subst hk
      rcases hfirst with hzero | hlive
      · cases hzero
      · exact (reachable_iff hresolve layout thisInit).mpr hlive
    · exact hend.resolve_left (by omega)
  · rintro ⟨j, hunreached⟩
    have hlt := hunreached.nonempty
    have hle := hunreached.inside
    refine ⟨by omega, (hdead i).mpr (hunreached.dead i (Nat.le_refl i) hlt), ?_⟩
    cases i with
    | zero => exact .inl rfl
    | succ k => exact .inr ((reachable_iff hresolve layout thisInit).mp (hunreached.first k rfl))

private theorem Flow.targeted_or_mem_deadStarts
    (hplain : ∀ instr, Line.plain instr ∈ Item.lines items → instr.isJump = false)
    {before after : List Instr} {instr next : Instr}
    (hcode : Assembly.instrs steps ((analyze steps layout thisInit).toList.map Option.isNone) =
      before ++ instr :: next :: after) (hends : instr.endsMethod = true ∨ instr.isGoto = true) :
    ∃ j, (Instr.encodeAll (before ++ [instr])).length = address items j ∧
      (Targeted steps layout thisInit j ∨ j ∈ deadStarts (analyze steps layout thisInit)) := by
  have hnop : instr ≠ .nop := by
    rintro rfl
    rcases hends with h | h <;> cases h
  have hfilled : (filled (flagged steps layout thisInit)).flatten = before ++ instr :: next :: after := by
    rw [← hcode, Assembly.instrs, neutralize_eq, neutralized_eq_flatten]
    simp [flagged, throwing]
  obtain ⟨front, x, y, back, hsplit, hlength, hlive, hdead⟩ := exists_lines_of_filled hfilled hnop
  have hx : (flagged steps layout thisInit)[front.length]? = some x := by
    rw [hsplit]
    simp
  have hy : (flagged steps layout thisInit)[front.length + 1]? = some y := by
    rw [hsplit]
    simp
  have htake : (flagged steps layout thisInit).take (front.length + 1) = front ++ [x] := by
    rw [hsplit]
    simp [List.take_append]
  obtain ⟨⟨step, hstep, hinstr⟩, hxdead⟩ := getElem?_flagged.mp hx
  obtain ⟨⟨step', hstep', -⟩, hydead⟩ := getElem?_flagged.mp hy
  refine ⟨front.length + 1, ?_, ?_⟩
  · rw [hlength, ← htake, flagged, Assembly.totalSize_take hresolve (by simp), Draft.lines_ofItems]
    rfl
  · cases hnext : localsAt? (analyze steps layout thisInit) (front.length + 1) with
    | none =>
      -- a stretch starts, since a throw that ends one is followed by a line that is reached
      rw [hnext] at hydead
      refine .inr (mem_deadStarts.mpr ⟨(Array.getElem?_eq_some_iff.mp hstep').1, hnext, .inr ?_⟩)
      intro hnone
      rw [Nat.add_sub_cancel] at hnone
      rw [hnone] at hxdead
      have hfalse := hdead hxdead.symm
      rw [← hydead] at hfalse
      cases hfalse
    | some state =>
      refine .inl (targeted_of_not_falls hnext fun prior step₀ hprior hstep₀ => ?_)
      rw [hstep] at hstep₀
      cases hstep₀
      rw [hprior] at hxdead
      obtain ⟨line, hline, hresolves⟩ := resolves_line hresolve hstep
      rw [hresolves.falls_eq fun instr heq =>
        hplain instr (heq ▸ List.mem_of_getElem? hline), hinstr, hlive hxdead.symm]
      rcases hends with h | h <;> simp [h]

private theorem Item.Targeted.address_ne {i j k : Nat} (h : Targeted items i)
    (hunreached : Unreached items j k) :
    Flow.address items i ≠ Flow.address items j := by
  intro haddress
  obtain ⟨state, hstate⟩ :=
    ((Flow.targeted_iff .empty none hresolve).mpr h).exists_state hresolve
  obtain ⟨hlt, hnone, -⟩ := Flow.mem_deadStarts.mp
    ((Flow.mem_deadStarts_iff .empty none hresolve).mpr ⟨k, hunreached⟩)
  rw [← Flow.address_inj hresolve (Nat.le_of_lt (Flow.lt_of_localsAt? hstate)) (Nat.le_of_lt hlt)
    haddress, hstate] at hnone
  cases hnone

theorem Assembly.mem_frames_iff {throwable : UInt16} {final : Pool} (hfinal : final.Sound)
    (hthrowable : Flow.deadStarts (Flow.analyze steps layout (Draft.ofItems items).thisInit) ≠ [] →
      final.meaning? throwable = some (.classInfo "java/lang/Throwable"))
    {offset : Nat} {frame : FrameTypes} :
    (offset, frame) ∈ (Flow.frames (Draft.ofItems items) steps
        (Flow.analyze steps layout (Draft.ofItems items).thisInit) throwable).toList ↔
      FrameAt items layout steps final offset frame := by
  have hnamed : ∀ {i}, i ∈ Flow.deadStarts (Flow.analyze steps layout (Draft.ofItems items).thisInit) →
      final.className? throwable = some "java/lang/Throwable" := fun hi =>
    Pool.className?_of_meaning? (hthrowable (List.ne_nil_of_mem hi))
  rw [Std.TreeMap.mem_toList_iff_getElem?_eq_some, Flow.getElem?_frames hresolve]
  constructor
  · rintro (⟨i, hi, rfl, rfl⟩ | ⟨j, state, htargeted, hstate, rfl, rfl⟩)
    · obtain ⟨j, hunreached⟩ := (Flow.mem_deadStarts_iff _ _ hresolve).mp hi
      exact .unreached hunreached (hnamed hi)
    · exact .target ((Flow.targeted_iff _ _ hresolve).mp htargeted) hstate
  · rintro (⟨htargeted, hstate⟩ | ⟨hunreached, hother⟩)
    · exact .inr ⟨_, _, (Flow.targeted_iff _ _ hresolve).mpr htargeted, hstate, rfl, rfl⟩
    · have hi := (Flow.mem_deadStarts_iff layout (Draft.ofItems items).thisInit hresolve).mpr
        ⟨_, hunreached⟩
      rw [hfinal.eq_of_className? hother (hnamed hi)]
      exact .inl ⟨_, hi, rfl, rfl⟩

end Places

namespace Assembly

open Item

/-- The stack map has frames exactly where the verifier needs them. -/
theorem framed_of_ofItems (items : List Item) (layout : Layout) (pool : Pool)
    (hplain : ∀ instr, Line.plain instr ∈ lines items → instr.isJump = false)
    (hwidth : layout.width ≤ 65535) (hpool : pool.Sound) {assembly : Assembly} {final : Pool}
    (h : ofItems items (some layout) pool = .ok (assembly, final)) :
    ∃ steps entries, (Draft.ofItems items).resolve = .ok steps ∧
      Framed items layout steps assembly final entries := by
  obtain ⟨hfinal, -⟩ := grows_ofItems items (some layout) pool assembly final h hpool
  obtain ⟨steps, hresolve, hcode, -, ⟨⟨⟩, -⟩ | ⟨-, hran⟩⟩ := parts_of_run h hpool (Pool.le_refl final)
  obtain ⟨throwable, hthrowable, hframes⟩ := frames_of_ran hran
  rw [Option.getD_some] at hcode hthrowable hframes
  refine ⟨steps, (Flow.frames (Draft.ofItems items) steps
    (Flow.analyze steps layout (Draft.ofItems items).thisInit) throwable).toList, hresolve, ?_⟩
  have hmem : ∀ offset frame, _ ↔ FrameAt items layout steps final offset frame := fun offset frame =>
    mem_frames_iff layout hresolve hfinal hthrowable
  constructor
  case decode =>
    rw [hframes]
    exact AttributeBody.decode?_stackMap (Flow.length_write_frames_le hresolve _ throwable _)
      (Flow.fits_write_frames hwidth)
  case expand =>
    rw [hframes]
    exact MapFrame.expand?_chooseFrom (FrameTable.ordered_toList _) (fun _ _ => Nat.zero_le _)
      fun entry hentry => Flow.lt_of_mem_frames hresolve hentry
  case places => exact hmem
  case disjoint =>
    exact fun i j k htargeted hunreached => htargeted.address_ne hresolve hunreached
  case behind =>
    intro before instr next after hsplit hends
    rw [hsplit] at hcode
    obtain ⟨j, hoffset, hwhy⟩ :=
      Flow.targeted_or_mem_deadStarts layout _ hresolve hplain hcode.symm hends
    rw [hoffset]
    rcases hwhy with htargeted | hdead
    · obtain ⟨state, hstate⟩ := htargeted.exists_state hresolve
      exact ⟨_, (hmem _ _).mpr (.target ((Flow.targeted_iff _ _ hresolve).mp htargeted) hstate)⟩
    · obtain ⟨k, hunreached⟩ := (Flow.mem_deadStarts_iff _ _ hresolve).mp hdead
      exact ⟨_, (hmem _ _).mpr (.unreached hunreached
        (Pool.className?_of_meaning? (hthrowable (List.ne_nil_of_mem hdead))))⟩

end Assembly

/-- A branch over a return and over two instructions behind it to which control does not come. -/
def Item.skipping : List Item :=
  [.op (.load .int (.implicit 0)), .branch (.ifZero .equal) 7, .op .returnVoid, .op .nop, .op .pop,
    .mark 7, .op .returnVoid]

def Layout.counter : Layout where
  width := 1
  entry := #v[.integer]
  declared := #v[.integer]

namespace Item

private theorem stands_skipping : Stands skipping 7 5 :=
  ⟨[.op (.load .int (.implicit 0)), .branch (.ifZero .equal) 7, .op .returnVoid, .op .nop, .op .pop],
    [.op .returnVoid], rfl, by decide, rfl⟩

private theorem reachable_skipping {k : Nat} (h : Reachable skipping k) : k < 3 ∨ k = 5 := by
  induction h with
  | start => exact .inl (by decide)
  | @next i line reachable at_ falls inside ih =>
    rcases ih with hlt | rfl
    · interval_cases i
      · exact .inl (by decide)
      · exact .inl (by decide)
      · cases at_
        cases falls
    · exact absurd inside (by decide)
  | @branch i target jump label reachable at_ stands inside ih =>
    have hlabel : label = 7 := by
      rcases ih with hlt | rfl
      · interval_cases i <;> cases at_
        rfl
      · cases at_
    subst hlabel
    exact .inr (Option.some.inj ((stands_iff.mp stands).symm.trans (stands_iff.mp stands_skipping)))

private theorem targeted_skipping : Targeted skipping 5 :=
  ⟨1, .ifZero .equal, 7, .next (.start (by decide)) rfl rfl (by decide), rfl, stands_skipping⟩

private theorem unreached_skipping : Unreached skipping 3 5 where
  nonempty := by decide
  inside := by decide
  dead k hle hlt hlive := by
    have hk := reachable_skipping hlive
    omega
  first k hk := by
    obtain rfl : k = 2 := by omega
    exact .next (.next (.start (by decide)) rfl rfl (by decide)) rfl rfl (by decide)
  last _ := by
    obtain ⟨i, jump, label, hreachable, hline, hstands⟩ := targeted_skipping
    exact .branch hreachable hline hstands (by decide)

end Item

theorem Assembly.framed_skipping :
    (∀ instr, Line.plain instr ∈ Item.lines Item.skipping → instr.isJump = false) ∧
      Layout.counter.width ≤ 65535 ∧ ({} : Pool).Sound ∧ Item.Targeted Item.skipping 5 ∧
      Item.Unreached Item.skipping 3 5 ∧
      ∃ assembly final, ofItems Item.skipping (some .counter) {} = .ok (assembly, final) ∧
        ∃ steps entries, (Draft.ofItems Item.skipping).resolve = .ok steps ∧
          Framed Item.skipping .counter steps assembly final entries := by
  have hplain : ∀ instr, Line.plain instr ∈ Item.lines Item.skipping → instr.isJump = false := by
    simp [Item.lines, Item.skipping, Item.line?, Instr.isJump]
  have hwidth : Layout.counter.width ≤ 65535 := by decide
  have hplaced : ∀ jump label, Line.branch jump label ∈ Item.lines Item.skipping →
      ∃ target < 6, (Draft.ofItems Item.skipping).placed[label]? = some target := by
    intro jump label hline
    obtain ⟨-, rfl⟩ : jump = .ifZero .equal ∧ label = 7 := by
      simpa [Item.lines, Item.skipping, Item.line?] using hline
    exact ⟨5, by decide, Item.stands_iff.mp Item.stands_skipping⟩
  obtain ⟨steps, hresolve⟩ := Draft.exists_resolve (by decide) hplaced
  obtain ⟨assembly, final, hrun, -⟩ :=
    Assembly.succeeds_ofItems (some .counter) hresolve {} Pool.sound_empty (by decide)
  exact ⟨hplain, hwidth, Pool.sound_empty, Item.targeted_skipping, Item.unreached_skipping, assembly,
    final, hrun, framed_of_ofItems Item.skipping .counter {} hplain hwidth Pool.sound_empty hrun⟩

end Classwright
