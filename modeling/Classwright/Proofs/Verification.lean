import Classwright.Proofs.Compilation
import Classwright.Proofs.FrameMap
import Classwright.Proofs.MaxStack
import Classwright.Proofs.Paths

/-!
# Generated code is verified

The verifier accepts the code of every generated method whose body is well-formed and assigns its locals
before they are read.  It goes through the lines in their order: at a line that control can reach it
knows what the analysis knows, and a stretch that control cannot reach is a throw with a frame of its own.
-/

namespace Classwright

open Verifier

namespace Verifier.Method

def unreached : Typing := ⟨fun _ => none, [.reference]⟩

private theorem Passes.of_throwing {m : Method} (hstack : 1 ≤ m.maxStack) {a n : Nat}
    {current : Option Typing} (hn : 0 < n)
    (hcode : m.code.drop a = Instr.encodeAll (throwing n) ++ m.code.drop (a + n))
    (henters : m.Enters a current unreached)
    (hinside : ∀ k, a < k → k < a + n → m.frames.lookup k = none) (hpasses : m.Passes (a + n) none) :
    m.Passes a current := by
  have hlength := congrArg List.length hcode
  rw [List.length_append, length_encodeAll_throwing, List.length_drop, List.length_drop] at hlength
  have hnext : m.code.length - (m.code.drop (a + 1)).length = a + 1 := by
    rw [List.length_drop]
    omega
  induction n generalizing a current with
  | zero => omega
  | succ n ih =>
    cases n with
    | zero =>
      have hread : Instr.read (m.code.drop a) = .ok (.athrow, m.code.drop (a + 1)) := by
        rw [hcode]
        exact Instr.read_encode_append .athrow _
      have hchecks : m.Checks a .athrow unreached none :=
        ⟨[.reference], [], [], .athrow, rfl, Nat.zero_le _, trivial, nofun, rfl⟩
      refine .step henters hread hchecks (fun k hlow hhigh => ?_) ?_
      · rw [hnext] at hhigh
        omega
      · rw [hnext]
        exact hpasses
    | succ n =>
      have hsplit : Instr.encodeAll (throwing (n + 1 + 1)) ++ m.code.drop (a + (n + 1 + 1)) =
          Instr.nop.encode ++ (Instr.encodeAll (throwing (n + 1)) ++ m.code.drop (a + (n + 1 + 1))) :=
        rfl
      rw [hsplit] at hcode
      have hrest : m.code.drop (a + 1) =
          Instr.encodeAll (throwing (n + 1)) ++ m.code.drop (a + 1 + (n + 1)) := by
        rw [← List.drop_drop, hcode, show a + 1 + (n + 1) = a + (n + 1 + 1) by omega]
        rfl
      have hread : Instr.read (m.code.drop a) = .ok (.nop, m.code.drop (a + 1)) := by
        rw [hcode, hrest, show a + 1 + (n + 1) = a + (n + 1 + 1) by omega]
        exact Instr.read_encode_append .nop _
      have hchecks : m.Checks a .nop unreached (some unreached) :=
        ⟨[], [], [.reference], .nop, rfl, hstack, trivial, nofun, rfl⟩
      refine .step henters hread hchecks (fun k hlow hhigh => ?_) ?_
      · rw [hnext] at hhigh
        omega
      · rw [hnext]
        refine ih (Nat.zero_lt_succ n) hrest ?_ (fun k hlow hhigh => hinside k (by omega) (by omega)) ?_
          ?_ ?_
        · rw [Enters, hinside (a + 1) (by omega) (by omega)]
        · rw [show a + 1 + (n + 1) = a + (n + 1 + 1) by omega]
          exact hpasses
        · omega
        · rw [List.length_drop]
          omega

end Verifier.Method

def Lowering.HasLocal (final : Lowering) (kind : Kind) (slot : UInt16) : Prop :=
  ∃ entry ∈ final.slots.locals.toList, entry.2 = slot ∧ entry.1.type.kind? = some kind

private theorem Lowering.Ok.slotted {b : Body} {final : Lowering} (hok : final.Ok (· ∈ b.locals))
    (hb : b.WellFormed) : final.Slotted b final.HasLocal := by
  intro l hl slot kind hslot hkind
  obtain ⟨entry, hmem, hname⟩ := (hok.slots.index l.name slot).mp hslot
  refine ⟨(entry, slot), hmem, rfl, ?_⟩
  rw [JavaType.kind?_eq_of_beq (hb.typed entry (hok.locals _ hmem) l hl hname)]
  exact hkind

namespace Flow.Setting

variable {owner : ClassDecl} {m : MethodDecl} {b : Body} {final : Lowering} {layout : Layout}
  {steps : Array Step} {thisInit : Option Nat} {before : List Item} {blocks : List (List Item)}
  {ending : List Item} (h : Setting owner m b final layout steps thisInit before blocks ending)
include h

private theorem exists_startLine {j : Nat} (hj : Targeted steps layout thisInit j) :
    ∃ n ≤ blocks.length, j = Lower.startLine before blocks n := by
  obtain ⟨i, step, state, -, hstep, htarget⟩ := hj
  obtain ⟨line, hline, hresolves⟩ := resolves_line h.resolve hstep
  cases line with
  | plain instr =>
    rw [show step = { instr } from hresolves] at htarget
    cases htarget
  | branch when label =>
    obtain ⟨target, hplaced, -, -, -, rfl⟩ := hresolves
    cases htarget
    exact Lower.exists_startLine_of_placed h.emits h.chains.plain h.ends.plain hplaced

private theorem not_falls {i : Nat} {step : Step} (hat : steps[i]? = some step)
    (hlast : i + 1 = steps.size) :
    step.falls = false := by
  have hsize := size_steps h.resolve
  rw [Lower.length_lines] at hsize
  obtain ⟨line, hline, hresolves⟩ := resolves_line h.resolve hat
  rcases h.ends with ⟨⟨value, hret⟩, rfl⟩ | ⟨-, -, rfl⟩
  · rw [List.getLast?_eq_getElem?] at hret
    obtain ⟨block, hblock⟩ := h.exists_block hret
    have hpos : 0 < blocks.length := Nat.zero_lt_of_lt (List.getElem?_eq_some_iff.mp hblock).1
    obtain ⟨st, hst, hemits, -⟩ := h.exists_statement hblock
    rw [hret] at hst
    cases hst
    have hne := List.length_pos_iff.mpr (hemits.lines_ne_nil rfl)
    have hstart : Lower.startLine before blocks _ = _ := Lower.startLine_succ hblock
    rw [h.emits.length_eq, Nat.sub_add_cancel hpos] at hstart
    have hi : i = Lower.startLine before blocks (b.statements.length - 1) +
        ((Item.lines block).length - 1) := by
      rw [h.emits.length_eq]
      have hnil : (Item.lines []).length = 0 := rfl
      omega
    cases hfalls : step.falls with
    | false => rfl
    | true =>
      rw [hi] at hat
      have hpasses := h.passesOn_of_falls hblock hret (by omega) hat hfalls
      cases hpasses
  · have hone : (Item.lines [.op .returnVoid]).length = 1 := rfl
    have hi : i = Lower.startLine before blocks blocks.length + 0 := by omega
    rw [hi, Lower.lines_ending] at hline
    cases hline
    rw [show step = _ from hresolves]
    rfl

end Flow.Setting

private theorem Verifier.Method.permits_of_isOperation {m : Method} {instr : Instr}
    (h : instr.isOperation = true) (known : Known) : m.Permits known instr := by
  cases instr <;> trivial

private theorem Lower.Types.exists_slot_of_store {N : String → Prop} {S : Kind → UInt16 → Prop}
    {file : ClassFile} {result : JavaType} {kind : Kind} {form : SlotForm} {taken left : List Kind}
    (h : Types N S file result (.plain (.store kind form)) taken left) :
    ∃ slot, form = .ofSlot slot ∧ S kind slot := by
  generalize hline : Line.plain (.store kind form) = line at h
  cases h with
  | @store kind' slot hslot =>
    cases hline
    exact ⟨slot, rfl, hslot⟩
  | operation h =>
    cases hline
    cases h.2
  | _ => cases hline

namespace Flow

section Frames

variable {items : List Item} {steps : Array Step} {layout : Layout} {thisInit : Option Nat}
  {frames : List (Nat × Typing)} (hresolve : (Draft.ofItems items).resolve = .ok steps)
  (h : FramesFor items steps layout thisInit frames)
include hresolve

private theorem lt_of_address_lt {i j : Nat} (hi : i ≤ steps.size)
    (h : address items i < address items j) :
    i < j := by
  rcases Nat.lt_trichotomy i j with hlt | rfl | hlt
  · exact hlt
  · exact absurd h (Nat.lt_irrefl _)
  · exact absurd h (Nat.lt_asymm (address_lt hresolve hlt hi))

include h

private theorem FramesFor.lookup_between {i j : Nat} (hi : i ≤ steps.size)
    (hlines : ∀ k, i < k → k < j → ¬ Targeted steps layout thisInit k ∧
      k ∉ deadStarts (analyze steps layout thisInit)) {a : Nat} (hlow : address items i < a)
    (hhigh : a < address items j) : frames.lookup a = none := by
  cases hframe : frames.lookup a with
  | none => rfl
  | some frame =>
    obtain ⟨k, hk, rfl, hwhy⟩ := h.only a frame hframe
    obtain ⟨htargeted, hdead⟩ := hlines k (lt_of_address_lt hresolve hi hlow)
      (lt_of_address_lt hresolve (Nat.le_of_lt hk) hhigh)
    exact (hwhy.elim htargeted hdead).elim

/-- There is no frame at a line that no branch leads to, unless it is the start of a stretch that
control cannot reach. -/
theorem FramesFor.lookup_eq_none {j : Nat} (hj : j ≤ steps.size)
    (htargeted : ¬ Targeted steps layout thisInit j)
    (hdead : j ∉ deadStarts (analyze steps layout thisInit)) :
    frames.lookup (address items j) = none := by
  cases hframe : frames.lookup (address items j) with
  | none => rfl
  | some frame =>
    obtain ⟨k, hk, haddress, hwhy⟩ := h.only _ frame hframe
    rw [← address_inj hresolve hj (Nat.le_of_lt hk) haddress] at hwhy
    exact (hwhy.elim htargeted hdead).elim

private theorem FramesFor.lookup_behind {a : Nat} (ha : address items steps.size ≤ a) :
    frames.lookup a = none := by
  cases hframe : frames.lookup a with
  | none => rfl
  | some frame =>
    obtain ⟨k, hk, rfl, -⟩ := h.only a frame hframe
    exact absurd (address_lt hresolve hk (Nat.le_refl _)) (Nat.not_lt.mpr ha)

end Frames

private theorem Below.assignable {w : Nat} {state locals : Locals w} (h : Below state locals)
    (stack : List Kind) :
    Typing.Assignable ⟨known locals, stack⟩ ⟨known state, stack⟩ := by
  refine ⟨rfl, fun k => ?_⟩
  simp only [known]
  by_cases hk : k < w
  · rw [Vector.getElem?_eq_getElem hk, Vector.getElem?_eq_getElem hk]
    rcases h k hk with htop | heq
    · exact .inl (by rw [htop]; rfl)
    · exact .inr (by rw [heq])
  · exact .inl (by rw [Vector.getElem?_eq_none (Nat.le_of_not_lt hk)]; rfl)

def verified (file : ClassFile) (steps : Array Step) (layout : Layout) (thisInit : Option Nat)
    (maxStack : Nat) (result : JavaType) (frames : List (Nat × Typing)) : Verifier.Method where
  file := file
  code := codeOf steps layout thisInit
  maxStack := maxStack
  maxLocals := layout.width
  result := result
  frames := frames

namespace Setting

variable {owner : ClassDecl} {m : MethodDecl} {b : Body} {final : Lowering} {layout : Layout}
  {steps : Array Step} {thisInit : Option Nat} {before : List Item} {blocks : List (List Item)}
  {ending : List Item} (h : Setting owner m b final layout steps thisInit before blocks ending)
  (hassigned : b.DefinitelyAssigned owner m) {file : ClassFile} {stackAt : Nat → List Kind}
  (hstacks : Lower.Stacks (Lower.Types Descriptor.Ended final.HasLocal file m.result)
    (Item.lines (before ++ blocks.flatten ++ ending)) stackAt)
  {limit : Nat}
  (hdepth : ∀ i locals, Reaches steps layout thisInit i locals → words (stackAt (i + 1)) ≤ limit)
  (hempty : ∀ n ≤ blocks.length, stackAt (Lower.startLine before blocks n) = [])
  {frames : List (Nat × Typing)}
  (hframes : FramesFor (before ++ blocks.flatten ++ ending) steps layout thisInit frames)
include h

section Checks

variable {i : Nat} {state : Locals layout.width}
  (hstate : localsAt? (analyze steps layout thisInit) i = some state) {step : Step}
  (hat : steps[i]? = some step)
include hstate hat

/-- What is known where a branch leads is enough for the frame there. -/
theorem arrives (hframes : FramesFor (before ++ blocks.flatten ++ ending) steps layout thisInit frames)
    {when : Jump} {label : Label}
    (hline : (Item.lines (before ++ blocks.flatten ++ ending))[i]? = some (.branch when label))
    (hresolves : (Draft.ofItems (before ++ blocks.flatten ++ ending)).Resolves i (.branch when label) step)
    {when' : Jump} {offset : Int16} (hjump : step.instr = .jump when' offset) :
    (verified file steps layout thisInit limit m.result frames).Arrives
      (address (before ++ blocks.flatten ++ ending) i) offset
      ⟨known (transfer layout thisInit i step.instr state), []⟩ := by
  obtain ⟨target, offset', -, hlt, rfl, haddress⟩ :=
    resolves_branch h.resolve (List.getElem?_eq_some_iff.mp hline).1 hresolves
  cases hjump
  obtain ⟨next, hnext, hbelow⟩ := below_transfer hstate hat (mem_successors.mpr (.inl rfl)) hlt
  exact ⟨_, _, haddress, hframes.target target next ⟨i, _, state, hstate, hat, rfl⟩ hnext,
    hbelow.assignable []⟩

include hassigned

private theorem known_after :
    known (transfer layout thisInit i step.instr state) = (known state).after step.instr :=
  known_transfer h.kinds (suits_of_localsAt? h.kinds h.stores hstate) (h.stores i step hat)
    fun hinit => h.known_of_thisInit hassigned hstate hat hinit

private theorem permits (frames : List (Nat × Typing)) {line : Line} {taken left : List Kind}
    (htypes : Lower.Types Descriptor.Ended final.HasLocal file m.result line taken left)
    (hresolves : (Draft.ofItems (before ++ blocks.flatten ++ ending)).Resolves i line step) :
    (verified file steps layout thisInit limit m.result frames).Permits (known state) step.instr := by
  cases htypes with
  | @load kind slot hslot =>
    rw [show step = _ from hresolves]
    obtain ⟨entry, hentry, rfl, hkind⟩ := hslot
    obtain ⟨kind', hknown⟩ := Option.ne_none_iff_exists'.mp
      (h.known_of_load hassigned hstate hat (by rw [show step = _ from hresolves]; rfl))
    obtain ⟨entry', hentry', hslot', hkind'⟩ :=
      (suits_of_localsAt? h.kinds h.stores hstate).exists_entry hknown
    rw [SlotForm.slot_ofSlot] at hslot' hknown
    rw [h.kinds.entry_eq hentry' hentry hslot', hkind] at hkind'
    cases hkind'
    refine ⟨?_, ?_⟩
    · rw [SlotForm.slot_ofSlot]
      exact hknown
    · rw [SlotForm.slot_ofSlot]
      exact h.kinds.bounds hentry hkind
  | @store kind slot hslot =>
    rw [show step = _ from hresolves]
    obtain ⟨entry, hentry, rfl, hkind⟩ := hslot
    change (SlotForm.ofSlot entry.2).slot + kind.width ≤ layout.width
    rw [SlotForm.slot_ofSlot]
    exact h.kinds.bounds hentry hkind
  | operation hoperates =>
    rw [show step = _ from hresolves]
    exact Verifier.Method.permits_of_isOperation hoperates.2 _
  | returnValue hkind =>
    rw [show step = _ from hresolves]
    exact hkind
  | returnVoid hvoid =>
    rw [show step = _ from hresolves]
    exact hvoid
  | branch when label =>
    obtain ⟨target, -, -, -, -, rfl⟩ := hresolves
    trivial

include hstacks hdepth hframes

/-- A line that control can reach is correct. -/
theorem checks :
    (verified file steps layout thisInit limit m.result frames).Checks
      (address (before ++ blocks.flatten ++ ending) i) step.instr ⟨known state, stackAt i⟩
      (if step.falls then
        some ⟨known (transfer layout thisInit i step.instr state), stackAt (i + 1)⟩ else none) := by
  obtain ⟨line, hline, hresolves⟩ := resolves_line h.resolve hat
  obtain ⟨taken, left, rest, htypes, hbefore, hafter, hleaves⟩ := hstacks i line hline
  have hfalls := hresolves.falls_eq fun instr hinstr => by
    subst hinstr
    exact htypes.isJump
  obtain ⟨⟨path, hpath⟩, -⟩ := justified_of_localsAt? hstate
  refine ⟨taken, left, rest, htypes.moves hresolves, hbefore, hafter ▸ hdepth i path hpath,
    h.permits hassigned hstate hat frames htypes hresolves, ?_, ?_⟩
  · intro when offset hjump
    rw [← h.known_after hassigned hstate hat]
    cases line with
    | plain instr =>
      have hplain := htypes.isJump
      rw [show step = _ from hresolves] at hjump
      rw [show instr = _ from hjump] at hplain
      cases hplain
    | branch when' label =>
      cases htypes
      rw [hleaves rfl]
      exact h.arrives hstate hat hframes hline hresolves hjump
  · rw [hfalls, h.known_after hassigned hstate hat, hafter]
    cases step.instr.endsMethod || step.instr.isGoto <;> rfl

end Checks

section Passes

variable {current : Option Typing} {j : Nat} {state : Locals layout.width}
include hframes

private theorem enters_targeted
    (hempty : ∀ n ≤ blocks.length, stackAt (Lower.startLine before blocks n) = [])
    (htargeted : Targeted steps layout thisInit j)
    (hstate : localsAt? (analyze steps layout thisInit) j = some state)
    (hcurrent : ∀ known' ∈ current, known'.Assignable ⟨known state, stackAt j⟩) :
    (verified file steps layout thisInit limit m.result frames).Enters
      (address (before ++ blocks.flatten ++ ending) j) current ⟨known state, stackAt j⟩ := by
  obtain ⟨n, hn, hj⟩ := h.exists_startLine htargeted
  have hstack : stackAt j = [] := by rw [hj, hempty n hn]
  rw [hstack] at hcurrent ⊢
  rw [Verifier.Method.Enters,
    show (verified file steps layout thisInit limit m.result frames).frames.lookup _ = _ from
      hframes.target j state htargeted hstate]
  exact ⟨rfl, hcurrent⟩

private theorem enters_succ {step : Step}
    (hempty : ∀ n ≤ blocks.length, stackAt (Lower.startLine before blocks n) = [])
    (hstate : localsAt? (analyze steps layout thisInit) j = some state) (hat : steps[j]? = some step)
    (hfalls : step.falls = true) (hinside : j + 1 < steps.size) :
    ∃ next, localsAt? (analyze steps layout thisInit) (j + 1) = some next ∧
      (verified file steps layout thisInit limit m.result frames).Enters
        (address (before ++ blocks.flatten ++ ending) (j + 1))
        (some ⟨known (transfer layout thisInit j step.instr state), stackAt (j + 1)⟩)
        ⟨known next, stackAt (j + 1)⟩ := by
  obtain ⟨next, hnext, hbelow⟩ :=
    below_transfer hstate hat (mem_successors.mpr (.inr ⟨hfalls, rfl⟩)) hinside
  refine ⟨next, hnext, ?_⟩
  by_cases htargeted : Targeted steps layout thisInit (j + 1)
  · refine h.enters_targeted hframes hempty htargeted hnext fun known' hknown' => ?_
    cases hknown'
    exact hbelow.assignable _
  · have hlookup := hframes.lookup_eq_none h.resolve (Nat.le_of_lt hinside) htargeted fun hdead => by
      rw [(mem_deadStarts.mp hdead).2.1] at hnext
      cases hnext
    rw [localsAt?_succ hstate hat hfalls hinside htargeted] at hnext
    cases hnext
    rw [Verifier.Method.Enters,
      show (verified file steps layout thisInit limit m.result frames).frames.lookup _ = _ from hlookup]

private theorem enters_start (file : ClassFile)
    (hempty : ∀ n ≤ blocks.length, stackAt (Lower.startLine before blocks n) = [])
    (hpos : 0 < steps.size) (hzero : stackAt 0 = []) :
    ∃ state, localsAt? (analyze steps layout thisInit) 0 = some state ∧
      (verified file steps layout thisInit limit m.result frames).Enters
        (address (before ++ blocks.flatten ++ ending) 0) (some ⟨known layout.entry, []⟩)
        ⟨known state, stackAt 0⟩ := by
  have hstart : Reaches steps layout thisInit 0 layout.entry := .start hpos
  obtain ⟨state, hstate, hbelow⟩ := hstart.covered
  refine ⟨state, hstate, ?_⟩
  by_cases htargeted : Targeted steps layout thisInit 0
  · refine h.enters_targeted hframes hempty htargeted hstate fun known' hknown' => ?_
    cases hknown'
    rw [hzero]
    exact hbelow.assignable []
  · have hlookup := hframes.lookup_eq_none h.resolve (Nat.le_of_lt hpos) htargeted fun hdead => by
      rw [(mem_deadStarts.mp hdead).2.1] at hstate
      cases hstate
    rw [localsAt?_zero hpos htargeted] at hstate
    cases hstate
    rw [Verifier.Method.Enters,
      show (verified file steps layout thisInit limit m.result frames).frames.lookup _ = _ from hlookup,
      hzero]

private theorem passes_dead (hlimit : 1 ≤ limit) (hdead : j ∈ deadStarts (analyze steps layout thisInit))
    (hrest : ∀ e, j < e → e ≤ steps.size → (e < steps.size → Targeted steps layout thisInit e) →
      (verified file steps layout thisInit limit m.result frames).Passes
        (address (before ++ blocks.flatten ++ ending) e) none) :
    (verified file steps layout thisInit limit m.result frames).Passes
      (address (before ++ blocks.flatten ++ ending) j) none := by
  obtain ⟨hj, hnone, hfirst⟩ := mem_deadStarts.mp hdead
  -- the first line is reached, so there is a line before the stretch
  obtain ⟨i, rfl⟩ : ∃ i, j = i + 1 := by
    refine Nat.exists_eq_succ_of_ne_zero ?_
    rintro rfl
    have hstart : Reaches steps layout thisInit 0 layout.entry := .start hj
    obtain ⟨state, hstate, -⟩ := hstart.covered
    rw [hnone] at hstate
    cases hstate
  have hlive : localsAt? (analyze steps layout thisInit) i ≠ none := hfirst.resolve_left (by simp)
  have hexists : ∃ e, i + 1 < e ∧ (e = steps.size ∨ localsAt? (analyze steps layout thisInit) e ≠ none) :=
    ⟨steps.size, hj, .inl rfl⟩
  classical
  obtain ⟨hlow, hstop⟩ := Nat.find_spec hexists
  have hle : Nat.find hexists ≤ steps.size := Nat.find_min' hexists ⟨hj, .inl rfl⟩
  have hbetween : ∀ k, i < k → k < Nat.find hexists →
      localsAt? (analyze steps layout thisInit) k = none := by
    intro k hik hk
    rcases Nat.lt_or_eq_of_le hik with hlt | rfl
    · have hmin := Nat.find_min hexists hk
      by_contra hne
      exact hmin ⟨hlt, .inr hne⟩
    · exact hnone
  generalize Nat.find hexists = e at hlow hstop hle hbetween
  have hlt := address_lt h.resolve hlow hle
  have hcode := drop_codeOf h.resolve hlive (Nat.lt_of_succ_lt hlow) hle hbetween
    fun hlt => hstop.resolve_left (Nat.ne_of_lt hlt)
  refine .of_throwing hlimit (Nat.sub_pos_of_lt hlt) ?_ ?_ ?_ ?_
  · rw [Nat.add_sub_cancel' (Nat.le_of_lt hlt)]
    exact hcode
  · rw [Verifier.Method.Enters,
      show (verified file steps layout thisInit limit m.result frames).frames.lookup _ = _ from
        hframes.dead _ hdead]
    exact ⟨rfl, fun _ hnone => by cases hnone⟩
  · rw [Nat.add_sub_cancel' (Nat.le_of_lt hlt)]
    intro a hlow hhigh
    refine hframes.lookup_between h.resolve (Nat.le_of_lt hj) (fun k hik hke => ⟨?_, ?_⟩) hlow hhigh
    · intro htargeted
      obtain ⟨state, hstate⟩ := htargeted.exists_state h.resolve
      rw [hbetween k (by omega) hke] at hstate
      cases hstate
    · intro hstarts
      rcases (mem_deadStarts.mp hstarts).2.2 with hzero | hne
      · omega
      · exact hne (hbetween (k - 1) (by omega) (by omega))
  · rw [Nat.add_sub_cancel' (Nat.le_of_lt hlt)]
    refine hrest e hlow hle fun hinside => ?_
    obtain ⟨state, hstate⟩ := Option.ne_none_iff_exists'.mp (hstop.resolve_left (Nat.ne_of_lt hinside))
    obtain ⟨k, rfl⟩ := Nat.exists_eq_succ_of_ne_zero (show e ≠ 0 by omega)
    refine targeted_of_not_falls hstate fun before step hbefore _ => ?_
    rw [hbetween k (by omega) (Nat.lt_succ_self k)] at hbefore
    cases hbefore

include hassigned hstacks hdepth hempty

private theorem passes_live (hstate : localsAt? (analyze steps layout thisInit) j = some state)
    (henters : (verified file steps layout thisInit limit m.result frames).Enters
      (address (before ++ blocks.flatten ++ ending) j) current ⟨known state, stackAt j⟩)
    (hnext : ∀ next current, localsAt? (analyze steps layout thisInit) (j + 1) = some next →
      (verified file steps layout thisInit limit m.result frames).Enters
        (address (before ++ blocks.flatten ++ ending) (j + 1)) current ⟨known next, stackAt (j + 1)⟩ →
      (verified file steps layout thisInit limit m.result frames).Passes
        (address (before ++ blocks.flatten ++ ending) (j + 1)) current)
    (hnone : (j + 1 < steps.size → Targeted steps layout thisInit (j + 1) ∨
        j + 1 ∈ deadStarts (analyze steps layout thisInit)) →
      (verified file steps layout thisInit limit m.result frames).Passes
        (address (before ++ blocks.flatten ++ ending) (j + 1)) none) :
    (verified file steps layout thisInit limit m.result frames).Passes
      (address (before ++ blocks.flatten ++ ending) j) current := by
  have hlt := lt_of_localsAt? hstate
  obtain ⟨⟨path, hpath⟩, -⟩ := justified_of_localsAt? hstate
  have hat : steps[j]? = some steps[j] := Array.getElem?_eq_getElem hlt
  have hend : (verified file steps layout thisInit limit m.result frames).code.length -
      ((codeOf steps layout thisInit).drop
        (address (before ++ blocks.flatten ++ ending) (j + 1))).length =
        address (before ++ blocks.flatten ++ ending) (j + 1) := length_sub_drop h.resolve j
  refine .step henters (read_codeOf h.resolve hpath hat)
    (h.checks hassigned hstacks hdepth hframes hstate hat) ?_ ?_
  · intro a hlow hhigh
    rw [hend] at hhigh
    exact hframes.lookup_between h.resolve (Nat.le_of_lt hlt) (fun k hik hk => by omega) hlow hhigh
  · rw [hend]
    cases hfalls : steps[j].falls with
    | true =>
      have hinside : j + 1 < steps.size := by
        refine Nat.lt_of_le_of_ne hlt fun hlast => ?_
        rw [h.not_falls hat hlast] at hfalls
        cases hfalls
      obtain ⟨next, hstate', henters'⟩ := h.enters_succ hframes hempty hstate hat hfalls hinside
      exact hnext next _ hstate' henters'
    | false =>
      refine hnone fun hinside => ?_
      cases hstate' : localsAt? (analyze steps layout thisInit) (j + 1) with
      | none =>
        refine .inr (mem_deadStarts.mpr ⟨hinside, hstate', .inr ?_⟩)
        rw [Nat.add_sub_cancel, hstate]
        simp
      | some next =>
        refine .inl (targeted_of_not_falls hstate' fun _ step _ hstep => ?_)
        rw [hat] at hstep
        cases hstep
        exact hfalls

/-- The code is correct from every line on: where control comes, given what the verifier knows there, and
where it does not. -/
theorem passes (hlimit : 1 ≤ limit) (hj : j ≤ steps.size) :
    (∀ state current, localsAt? (analyze steps layout thisInit) j = some state →
      (verified file steps layout thisInit limit m.result frames).Enters
        (address (before ++ blocks.flatten ++ ending) j) current ⟨known state, stackAt j⟩ →
      (verified file steps layout thisInit limit m.result frames).Passes
        (address (before ++ blocks.flatten ++ ending) j) current) ∧
    ((j < steps.size → Targeted steps layout thisInit j ∨
        j ∈ deadStarts (analyze steps layout thisInit)) →
      (verified file steps layout thisInit limit m.result frames).Passes
        (address (before ++ blocks.flatten ++ ending) j) none) := by
  induction hn : steps.size - j using Nat.strong_induction_on generalizing j with
  | h n ih =>
    rcases Nat.lt_or_eq_of_le hj with hlt | rfl
    · obtain ⟨hnext, hnone⟩ := ih (steps.size - (j + 1)) (by omega) hlt rfl
      refine ⟨fun state current hstate henters =>
        h.passes_live hassigned hstacks hdepth hempty hframes hstate henters hnext hnone, fun hwhy => ?_⟩
      rcases hwhy hlt with htargeted | hdead
      · obtain ⟨state, hstate⟩ := htargeted.exists_state h.resolve
        exact h.passes_live hassigned hstacks hdepth hempty hframes hstate
          (h.enters_targeted hframes hempty htargeted hstate fun _ hnone => by cases hnone) hnext hnone
      · refine h.passes_dead hframes hlimit hdead fun e hje he htargeted => ?_
        exact (ih (steps.size - e) (by omega) he rfl).2 fun hinside => .inl (htargeted hinside)
    · refine ⟨fun state _ hstate => absurd (lt_of_localsAt? hstate) (Nat.lt_irrefl _), fun _ => ?_⟩
      have hlength : address (before ++ blocks.flatten ++ ending) steps.size =
          (verified file steps layout thisInit limit m.result frames).code.length := by
        change _ = (codeOf steps layout thisInit).length
        rw [length_codeOf h.resolve, address, size_steps h.resolve, List.take_length]
      rw [hlength]
      exact .done fun a ha => hframes.lookup_behind h.resolve (hlength ▸ ha)

end Passes

end Setting

end Flow

section Entry

theorem Slots.Tiles.of_append {start stop : Nat} {front back : List (Local × UInt16)}
    (h : Tiles start stop (front ++ back)) : ∃ middle, Tiles start middle front := by
  induction front generalizing start with
  | nil => exact ⟨start, rfl⟩
  | cons entry rest ih =>
    obtain ⟨middle, hrest⟩ := ih h.2
    exact ⟨middle, h.1, hrest⟩

private theorem knownOf_inside {kind : Kind} {locals : List (Option Kind)} {k : Nat} (hpos : 0 < k)
    (hk : k < kind.width) : knownOf (some kind :: locals) k = none := by
  cases hwide : kind.isWide with
  | false =>
    rw [Kind.width, if_neg (by simp [hwide])] at hk
    omega
  | true =>
    rw [Kind.width, if_pos hwide] at hk
    obtain rfl : k = 1 := by omega
    simp [knownOf, slotsOf, hwide]

private theorem knownOf_tiles {start stop : Nat} {entries : List (Local × UInt16)}
    (htiles : Slots.Tiles start stop entries) (hvalued : ∀ entry ∈ entries, entry.1.type.isVoid = false) :
    (∀ entry ∈ entries, knownOf (entries.map fun entry => entry.1.type.kind?) (entry.2.toNat - start) =
        entry.1.type.kind?) ∧
      ∀ k, (∀ entry ∈ entries, entry.2.toNat ≠ start + k) →
        knownOf (entries.map fun entry => entry.1.type.kind?) k = none := by
  induction entries generalizing start with
  | nil => exact ⟨fun _ hmem => absurd hmem List.not_mem_nil, fun _ _ => rfl⟩
  | cons first rest ih =>
    obtain ⟨l, slot⟩ := first
    obtain ⟨hslot, hrest⟩ := htiles
    obtain ⟨hhead, htail⟩ := List.forall_mem_cons.mp hvalued
    obtain ⟨hin, hout⟩ := ih hrest htail
    obtain ⟨kind, hkind, -⟩ := JavaType.exists_kind? hhead
    have hwidth : Slots.widthOf l = kind.width := Slots.widthOf_eq hhead hkind
    have hadd : ∀ k, knownOf (l.type.kind? :: rest.map fun entry => entry.1.type.kind?)
        (k + kind.width) = knownOf (rest.map fun entry => entry.1.type.kind?) k := by
      intro k
      rw [hkind]
      exact knownOf_cons_add k
    refine ⟨List.forall_mem_cons.mpr ⟨?_, fun entry hentry => ?_⟩, fun k hk => ?_⟩
    · rw [hslot, Nat.sub_self]
      exact knownOf_cons_zero
    · have hbounds := (hrest.bounds hentry).1
      rw [List.map_cons, show entry.2.toNat - start = entry.2.toNat - (start + Slots.widthOf l) +
        kind.width by omega, hadd]
      exact hin entry hentry
    · have hzero : k ≠ 0 := by
        rintro rfl
        exact hk (l, slot) List.mem_cons_self hslot
      by_cases hlt : k < kind.width
      · rw [List.map_cons, hkind]
        exact knownOf_inside (Nat.pos_of_ne_zero hzero) hlt
      · rw [List.map_cons, show k = k - kind.width + kind.width by omega, hadd]
        refine hout _ fun entry hentry => ?_
        have hne := hk entry (List.mem_cons_of_mem _ hentry)
        omega

variable {owner : ClassDecl} {m : MethodDecl} {b : Body} {slots : Slots} {q : Pool} {layout : Layout}

private theorem Slots.WellFormed.exists_parameters (hslots : slots.WellFormed)
    (hparameters : b.parameters <+: slots.locals.toList.map Prod.fst) :
    ∃ entries middle, entries.map Prod.fst = b.parameters ∧ entries <+: slots.locals.toList ∧
      Slots.Tiles 0 middle entries := by
  obtain ⟨more, hmore⟩ := hparameters
  obtain ⟨entries, back, hsplit, hfront, -⟩ := List.map_eq_append_iff.mp hmore.symm
  have htiles := hslots.tiles
  rw [hsplit] at htiles
  obtain ⟨middle, htiles⟩ := htiles.of_append
  exact ⟨entries, middle, hfront, ⟨back, hsplit.symm⟩, htiles⟩

variable (h : layout.Of owner m b slots q)
include h

/-- A method is entered with a value of its type in the slot of a parameter, where the receiver of a
constructor may be raw. -/
theorem Layout.Of.known_parameter (hkinds : layout.Kinds slots) {entry : Local × UInt16}
    (hentry : entry ∈ slots.locals.toList) (hparameter : entry.1 ∈ b.parameters)
    (hraw : m.initializesThis = true → entry.2.toNat = 0 → entry.1.type.kind? = some .reference) :
    Flow.known layout.entry entry.2.toNat = entry.1.type.kind? := by
  obtain ⟨kind, hkind, -⟩ := JavaType.exists_kind? (hkinds.valued entry hentry)
  have hlt : entry.2.toNat < layout.width := by
    have hbounds := hkinds.bounds hentry hkind
    have hpos := Kind.width_pos kind
    omega
  by_cases hthis : m.initializesThis = true ∧ entry.2.toNat = 0
  · obtain ⟨hinit, hzero⟩ := hthis
    rw [hraw hinit hzero, Flow.known, hzero, h.this hinit (by omega)]
    rfl
  · obtain ⟨v, hv, hdescribes⟩ := h.declared entry hentry
    have hhas : HasSlot slots b.parameters entry.2.toNat :=
      ⟨entry.1, hparameter, entry.2, (hkinds.wellFormed.index _ _).mpr ⟨entry.1, hentry, rfl⟩, rfl⟩
    rw [Flow.known, h.parameter _ hlt hhas fun hinit hzero => hthis ⟨hinit, hzero⟩, hv]
    exact hdescribes.kind?

private theorem Layout.Of.known_other {k : Nat} (hslot : ¬ HasSlot slots b.parameters k)
    (hthis : m.initializesThis = true → k ≠ 0) : Flow.known layout.entry k = none := by
  by_cases hlt : k < layout.width
  · rw [Flow.known, h.other k hlt hslot hthis]
    rfl
  · rw [Flow.known, Vector.getElem?_eq_none (Nat.le_of_not_lt hlt)]
    rfl

private theorem Layout.Of.known_entry (hkinds : layout.Kinds slots)
    (hparameters : b.parameters <+: slots.locals.toList.map Prod.fst)
    (hreceiver : m.initializesThis = true →
      ∃ l, b.parameters.head? = some l ∧ l.type.kind? = some .reference) :
    Flow.known layout.entry = knownOf (b.parameters.map fun l => l.type.kind?) := by
  obtain ⟨entries, middle, hentries, hprefix, htiles⟩ :=
    hkinds.wellFormed.exists_parameters hparameters
  have hmem : ∀ entry ∈ entries, entry ∈ slots.locals.toList := fun _ hentry => hprefix.subset hentry
  obtain ⟨hin, hout⟩ := knownOf_tiles htiles fun entry hentry => hkinds.valued entry (hmem entry hentry)
  have hfirst : m.initializesThis = true → ∃ first ∈ entries, first.2.toNat = 0 ∧
      first.1.type.kind? = some .reference := by
    intro hthis
    obtain ⟨l, hhead, hkind⟩ := hreceiver hthis
    rw [← hentries] at hhead
    cases entries with
    | nil => cases hhead
    | cons first rest =>
      cases hhead
      exact ⟨first, List.mem_cons_self, htiles.1, hkind⟩
  rw [← hentries, List.map_map]
  funext k
  by_cases hslot : ∃ entry ∈ entries, entry.2.toNat = k
  · obtain ⟨entry, hentry, rfl⟩ := hslot
    refine (h.known_parameter hkinds (hmem entry hentry) (hentries ▸ List.mem_map_of_mem hentry)
      fun hinit hzero => ?_).trans (hin entry hentry).symm
    obtain ⟨first, hmemFirst, hslot, hreference⟩ := hfirst hinit
    rwa [hkinds.entry_eq (hmem _ hentry) (hmem _ hmemFirst) (hzero.trans hslot.symm)]
  · have hnot : ∀ entry ∈ entries, entry.2.toNat ≠ k := fun entry hentry heq =>
      hslot ⟨entry, hentry, heq⟩
    refine (h.known_other ?_ ?_).trans
      (hout k fun entry hentry => by rw [Nat.zero_add]; exact hnot entry hentry).symm
    · rintro ⟨l, hl, slot, hindex, hk⟩
      rw [← hentries] at hl
      obtain ⟨entry, hentry, rfl⟩ := List.mem_map.mp hl
      rw [(hkinds.wellFormed.index _ _).mpr ⟨entry.1, hmem entry hentry, rfl⟩] at hindex
      cases hindex
      exact hnot entry hentry hk
    · rintro hinit rfl
      obtain ⟨first, hmemFirst, hslot, -⟩ := hfirst hinit
      exact hnot first hmemFirst hslot

end Entry

section Types

private theorem JavaType.kinds_eq_of_beq {ss ts : List JavaType} (h : (ss == ts) = true) :
    ss.map JavaType.kind? = ts.map JavaType.kind? := by
  induction ss generalizing ts with
  | nil =>
    cases ts with
    | nil => rfl
    | cons t ts => cases h
  | cons s ss ih =>
    cases ts with
    | nil => cases h
    | cons t ts =>
      rw [List.cons_beq_cons] at h
      obtain ⟨hhead, htail⟩ := Bool.and_eq_true_iff.mp h
      rw [List.map_cons, List.map_cons, kind?_eq_of_beq hhead, ih htail]

private theorem JavaType.exists_eq_object {t : JavaType} {c : ClassType} (h : (t == .object c) = true) :
    ∃ d, t = .object d ∧ d.name = c.name := by
  cases t with
  | object d => exact ⟨d, rfl, eq_of_beq (show (d.name == c.name) = true from h)⟩
  | _ => cases h

end Types

namespace MethodDecl

/-- The parameters of a body are the receiver, unless the method is static, and the parameters of the
method. -/
def Receives (owner : ClassDecl) (m : MethodDecl) (b : Body) : Prop :=
  (b.parameters.map Local.type ==
    (if m.isStatic then [] else [owner.type]) ++ m.parameters.map Parameter.type) = true

private theorem Receives.exists_receiver {owner : ClassDecl} {m : MethodDecl} {b : Body}
    (h : Receives owner m b) (hthis : m.initializesThis = true) :
    ∃ l d, b.parameters.head? = some l ∧ l.type = .object d ∧ d.name = owner.this.name := by
  have hstatic : m.isStatic = false := by
    have hboth := Bool.and_eq_true_iff.mp hthis
    simpa using hboth.2
  unfold Receives at h
  rw [hstatic] at h
  cases hparameters : b.parameters with
  | nil =>
    rw [hparameters] at h
    cases h
  | cons l rest =>
    rw [hparameters, List.map_cons, if_neg Bool.false_ne_true, List.singleton_append,
      List.cons_beq_cons] at h
    obtain ⟨hhead, -⟩ := Bool.and_eq_true_iff.mp h
    obtain ⟨d, htype, hname⟩ := JavaType.exists_eq_object hhead
    exact ⟨l, d, rfl, htype, hname⟩

section Compiles

variable {options : Options} {owner : ClassDecl} {m : MethodDecl} {b : Body} {fields : List Initializer}
  {q : Pool} {c : Compiled} (h : m.Compiles options owner b fields q c)
include h

theorem Compiles.slot_eq_zero_iff (hthis : ∃ l, b.parameters.head? = some l) {name : String}
    {slot : UInt16}
    (hslot : c.final.slots.index[name]? = some slot) : slot = 0 ↔ b.isReceiver name = true := by
  obtain ⟨l, hl⟩ := hthis
  have hfirst := h.first_mem hl
  have hreceiver : b.isReceiver name = true ↔ l.name = name := by
    rw [Body.isReceiver, hl]
    simp
  rw [hreceiver]
  constructor
  · rintro rfl
    obtain ⟨l', hl', hname⟩ := (h.ok.slots.index _ _).mp hslot
    have hpos := Slots.widthOf_pos l
    have hpos' := Slots.widthOf_pos l'
    rcases h.ok.slots.tiles.separate hfirst hl' with heq | hsep | hsep
    · cases heq
      exact hname
    · exact absurd hsep (by simp; omega)
    · exact absurd hsep (by simp; omega)
  · rintro rfl
    rw [(h.ok.slots.index _ _).mpr ⟨l, hfirst, rfl⟩] at hslot
    exact (Option.some.inj hslot).symm

private theorem Compiles.hasLocal_receiver (hreceives : Receives owner m b)
    (hthis : m.initializesThis = true) :
    c.final.HasLocal .reference 0 := by
  obtain ⟨l, d, hl, htype, -⟩ := hreceives.exists_receiver hthis
  exact ⟨_, h.first_mem hl, rfl, by rw [htype]; rfl⟩

private theorem Compiles.setting (hq : q.Sound) (hb : b.WellFormed) (hreceives : Receives owner m b)
    {layout : Layout} (hof : layout.Of owner m b c.final.slots q)
    {file : ClassFile} {before ending : List Item} {blocks : List (List Item)}
    (hitems : c.items = before ++ blocks.flatten ++ ending)
    (hchains : Lower.Chains owner m b c.final before)
    (hemits : List.Forall₂ (Lower.Emits ⟨owner, m, Std.HashSet.ofList b.labels⟩ c.final) b.statements blocks)
    (hends : Lower.Ends m b ending) {stackAt : Nat → List Kind}
    (hstacks : Lower.Stacks (Lower.Types Descriptor.Ended c.final.HasLocal file m.result)
      (Item.lines (before ++ blocks.flatten ++ ending)) stackAt) :
    Flow.Setting owner m b c.final layout c.steps c.thisInit before blocks ending := by
  have hresolve := h.resolve
  rw [hitems] at hresolve
  have hkinds := hof.kinds h.ok hb (h.hasLocal_receiver hreceives)
  refine ⟨hchains, hemits, hends, by rw [Compiled.thisInit, hitems], hresolve, hb.labels, hkinds, ?_, ?_,
    ?_, ?_, ?_, ?_⟩
  · intro i step hat kind form hstore
    obtain ⟨line, hline, hresolves⟩ := Flow.resolves_line hresolve hat
    obtain ⟨taken, left, rest, htypes, -⟩ := hstacks i line hline
    rw [hresolves.eq_plain (by rw [hstore]; rfl), hstore] at htypes
    obtain ⟨slot, rfl, entry, hentry, rfl, hkind⟩ := htypes.exists_slot_of_store
    exact ⟨entry, hentry, SlotForm.slot_ofSlot _, hkind⟩
  · intro entry hentry kind hkind
    obtain ⟨v, hv, hdescribes⟩ := hof.declared entry hentry
    rw [VerificationType.Describes, hkind] at hdescribes
    cases kind with
    | reference => rw [Flow.storedType, hv, Option.getD_some]
    | _ => rw [hv, hdescribes]; rfl
  · intro hthis name slot hslot
    obtain ⟨l, d, hl, -⟩ := hreceives.exists_receiver hthis
    exact h.slot_eq_zero_iff ⟨l, hl⟩ hslot
  · intro hthis
    obtain ⟨l, d, hl, htype, hname⟩ := hreceives.exists_receiver hthis
    have hinitialized := hof.initialized
    rw [if_pos hthis] at hinitialized
    obtain ⟨index, hindex, hsome⟩ := hinitialized
    obtain ⟨v, hv, hdescribes⟩ := hof.declared _ (h.first_mem hl)
    rw [htype] at hdescribes
    obtain ⟨index', hindex', rfl⟩ := hdescribes
    have hsame : index = index' := hq.eq_of_meaning? hindex (by
      rw [hindex', ← hname]
      rfl)
    exact ⟨_, hsome, by rw [hsame]; exact hv⟩
  · intro hthis
    obtain ⟨entry, hentry, hzero, hkind⟩ := h.hasLocal_receiver hreceives hthis
    have hbounds := hkinds.bounds hentry hkind
    have hpos := Kind.width_pos .reference
    exact hof.this hthis (by omega)
  · intro l hl slot hslot hzero
    obtain ⟨l', hl', -⟩ := (h.ok.slots.index _ _).mp hslot
    obtain ⟨kind, hkind, -⟩ := JavaType.exists_kind? (hkinds.valued _ hl')
    have hbounds := hkinds.bounds hl' hkind
    have hpos := Kind.width_pos kind
    refine hof.parameter _ (by dsimp only at hbounds; omega) ⟨l, hl, slot, hslot, rfl⟩ fun hthis heq => ?_
    exact hzero hthis (UInt16.toNat_inj.mp heq)

end Compiles

private theorem Receives.argumentsOf {owner : ClassDecl} {m : MethodDecl} {b : Body}
    (h : Receives owner m b) {member : Member} (hflags : member.flags = m.modifiers.methodFlags) :
    ClassFile.argumentsOf member (m.parameters.map Parameter.type) =
      b.parameters.map fun l => l.type.kind? := by
  have hkinds := JavaType.kinds_eq_of_beq h
  rw [List.map_map] at hkinds
  have hstatic : member.flags &&& 0x0008 = 0 ↔ m.isStatic = false := by
    rw [hflags, Modifiers.methodFlags, UInt16.and_assoc, show (0x1dff : UInt16) &&& 0x0008 = 0x0008 from rfl]
    simp [isStatic, Modifiers.isStatic, Modifiers.has]
  rw [show (b.parameters.map fun l => l.type.kind?) = _ from hkinds, ClassFile.argumentsOf, List.map_append]
  congr 1
  cases hcase : m.isStatic with
  | false => rw [if_pos (hstatic.mpr hcase)]; rfl
  | true => rw [if_neg fun hzero => by rw [hstatic.mp hzero] at hcase; cases hcase]; rfl

end MethodDecl

private theorem Body.definitelyAssigned_of_parameters {owner : ClassDecl} {m : MethodDecl} {b : Body}
    (hthis : m.initializesThis = false)
    (hreads : ∀ st ∈ b.statements, ∀ l ∈ st.reads, b.parameters.any (·.name == l.name) = true) :
    b.DefinitelyAssigned owner m := by
  have hvalue : ∀ {n held}, Reaches owner m b n held →
      ∀ name, b.parameters.any (·.name == name) = true → held name = .value := by
    intro n held hreaches name hname
    induction hreaches with
    | start => simp [initial, hname, startsRaw, hthis]
    | next _ _ _ ih =>
      simp only [after, ih]
      exact ite_self _
  intro n st hst l hl
  exact ⟨.value, by simp, fun held hheld =>
    hvalue hheld _ (hreads st (List.mem_of_getElem? hst) l hl)⟩

namespace ClassDecl

variable {options : Options} {c : ClassDecl} {file : ClassFile}

private theorem Generated.framesOf? {q : Pool} (h : c.Generated options file q) {m : MethodDecl}
    {b : Body} {fields : List Initializer} {compiled : Compiled}
    (hcompiles : m.Compiles options c b fields q compiled) :
    file.framesOf? compiled.code = some compiled.frames := by
  obtain ⟨hlength, hfits, -⟩ := hcompiles.frames_fit
  have hnames : ∀ a ∈ compiled.names, file.text? a.name = some "LocalVariableTable" := by
    rcases MethodDecl.names_of_ran hcompiles.names with hnil | ⟨a, table, hone, -, -, hname⟩
    · simp [hnil]
    · rw [hone, List.forall_mem_singleton]
      exact h.text? hname
  have hskip : file.attribute? compiled.code.attributes "StackMapTable" =
      file.attribute? compiled.maps "StackMapTable" := by
    rw [ClassFile.attribute?, Compiled.code, List.find?_append, List.find?_eq_none.mpr, Option.none_or]
    · rfl
    · intro a ha
      rw [hnames a ha]
      decide
  rw [ClassFile.framesOf?, hskip]
  rcases MethodDecl.maps_of_ran hcompiles.maps with ⟨hframes, hnil⟩ | ⟨a, hone, hbody, hname⟩
  · rw [hnil, hframes]
    rfl
  · have hfound : file.attribute? compiled.maps "StackMapTable" = some a := by
      rw [hone]
      exact List.find?_cons_of_pos (by simp [h.text? hname])
    rw [hfound]
    dsimp only
    rw [hbody, AttributeBody.decode?_stackMap hlength hfits]

/-- The code of a method is accepted with a stack that has room for the operands of every line. -/
theorem Generated.acceptsWithin {q : Pool} (h : c.Generated options file q)
    (hwrites : options.writesFrames = true) {m : MethodDecl} {b : Body} {compiled : Compiled}
    (hcompiles : m.Compiles options c b [] q compiled) {member : Member}
    (hflags : member.flags = m.modifiers.methodFlags)
    (hdescriptor : file.text? member.descriptor = some m.descriptor)
    (hcode : file.codeOf? member = some compiled.code) (hb : b.WellFormed)
    (hreceives : MethodDecl.Receives c m b) (hassigned : b.DefinitelyAssigned c m)
    (hparameters : ∀ p ∈ m.parameters, p.type.Names Descriptor.Ended) {N : String → Prop}
    (hN : ∀ name, N name → Descriptor.Ended name) {pool : Pool} {before ending : List Item}
    {blocks : List (List Item)} {stackAt : Nat → List Kind}
    (hmeasured : MethodDecl.Measured N compiled.final.HasLocal c m b q compiled file pool before blocks
      ending stackAt)
    {limit : Nat} (hlimit : 1 ≤ limit)
    (hdepth : ∀ i locals, Flow.Reaches compiled.steps compiled.layout compiled.thisInit i locals →
      words (stackAt (i + 1)) ≤ limit) :
    file.AcceptsWithin limit member (m.parameters.map Parameter.type) m.result := by
  have hlayout := hcompiles.layout_of
  rw [if_pos hwrites] at hlayout
  obtain ⟨layout, hlayout, hof⟩ := hlayout
  have hlayoutOf : compiled.layout = layout := by rw [Compiled.layout, hlayout, Option.getD_some]
  have hstacks : Lower.Stacks (Lower.Types Descriptor.Ended compiled.final.HasLocal file m.result)
      (Item.lines (before ++ blocks.flatten ++ ending)) stackAt := by
    intro i line hline
    obtain ⟨taken, left, rest, htypes, hrest⟩ := hmeasured.balanced.types i line hline
    exact ⟨taken, left, rest, htypes.mono hN (fun _ _ => id)
      (ClassFile.Extends.of_le hmeasured.le rfl h.pool), hrest⟩
  have hsetting := hcompiles.setting h.sound hb hreceives hof hmeasured.items hmeasured.chains
    hmeasured.emits hmeasured.ends hstacks
  subst hlayoutOf
  obtain ⟨-, hmapped⟩ := hcompiles.frames.resolve_left fun hnone => by
    rw [hnone.1] at hlayout
    cases hlayout
  obtain ⟨throwable, -, hwritten⟩ := Assembly.frames_of_ran hmapped
  rw [hmeasured.items] at hwritten
  obtain ⟨frames, hread, hframes⟩ : ∃ read, _ ∧ Flow.FramesFor _ _ _ compiled.thisInit read :=
    Flow.exists_framesFor hsetting.resolve hsetting.kinds hsetting.stores throwable hlimit
  have hspaced := hsetting.kinds.entry.spaced hsetting.kinds
  obtain ⟨kinds, hkinds⟩ := hb.kindCorrect.exists_kinds fun l hl => List.mem_append_left _ hl
  have hentry := hof.known_entry hsetting.kinds hcompiles.parameters fun hthis => by
    obtain ⟨l, d, hl, htype, -⟩ := hreceives.exists_receiver hthis
    exact ⟨l, hl, by rw [htype]; rfl⟩
  have hlocals := kinds_frameLocals hspaced (hentry.trans (congrArg knownOf hkinds))
  obtain ⟨state, hstate, henters⟩ := hsetting.enters_start hframes file hmeasured.empty hmeasured.size_pos
    hmeasured.balanced.start
  have hpasses := (hsetting.passes hassigned hstacks hdepth hmeasured.empty hframes hlimit
    (Nat.zero_le _)).1 state _ hstate henters
  rw [← hwritten, hlocals, ← hkinds, ← hreceives.argumentsOf hflags, hof.width] at hread
  rw [hentry, ← hreceives.argumentsOf hflags] at hpasses
  have hwidth := length_slotsOf_frameLocals hspaced
  rw [hlocals, ← hkinds, ← hreceives.argumentsOf hflags, hof.width] at hwidth
  refine ⟨compiled.code, compiled.frames, frames, hdescriptor, ?_, hcode, rfl, h.framesOf? hcompiles, hwidth,
    hread, ?_⟩
  · intro t ht
    obtain ⟨p, hp, rfl⟩ := List.mem_map.mp ht
    exact hparameters p hp
  · have hverified :
        (⟨file, compiled.code.code, limit, compiled.code.maxLocals.toNat, m.result, frames⟩ :
          Verifier.Method) =
        Flow.verified file compiled.steps compiled.layout compiled.thisInit limit m.result frames := by
      rw [Flow.verified, hof.width]
      rfl
    rw [hverified]
    exact hpasses

/-- The verifier accepts the code of every method with a well-formed body that takes the parameters of
the method and assigns locals before it reads them, if frames are written and the names of classes end
where they should, with a stack that is deep enough.  The stack that the method declares is so if the
descriptors of the called methods can be measured and none of them takes too many arguments. -/
theorem accepts_of_generate (hgenerate : c.generate options = .ok file)
    (hwrites : options.writesFrames = true) {i : Nat} {m : MethodDecl} {b : Body}
    (hm : c.methods[i]? = some m) (hbody : m.body? = some b) (hinitializer : m.isStaticInitializer = false)
    (hb : b.WellFormed) (hreceives : MethodDecl.Receives c m b)
    (hassigned : b.DefinitelyAssigned c m) (hnames : b.CallsNamed Descriptor.Ended)
    (hparameters : ∀ p ∈ m.parameters, p.type.Names Descriptor.Ended) :
    ∃ member, file.methods[i]? = some member ∧
      (∃ limit, file.AcceptsWithin limit member (m.parameters.map Parameter.type) m.result) ∧
      (b.CallsWithin 255 → b.CallsNamed Descriptor.Clean →
        file.Accepts member (m.parameters.map Parameter.type) m.result) := by
  obtain ⟨q, hgenerated⟩ := generated_of_generate hgenerate
  obtain ⟨member, fields, compiled, hmember, hfields, ⟨p, hmethod⟩, hcompiles, hcode⟩ :=
    hgenerated.exists_compiled hm hbody
  cases hfields hinitializer
  have hdescriptor := hgenerated.text? hmethod.descriptor
  have hslotted := hcompiles.ok.slotted hb
  have hreceiver := hcompiles.hasLocal_receiver hreceives
  refine ⟨member, hmember, ?_, fun hcalls hclean => ⟨compiled.code, hcode, ?_⟩⟩
  · obtain ⟨pool, before, blocks, ending, stackAt, hmeasured⟩ :=
      hcompiles.exists_measured hb.kindCorrect hslotted hreceiver hnames file
    have hlimit : 1 ≤ 2 * compiled.steps.size := by
      have hpos := hmeasured.size_pos
      omega
    exact ⟨_, hgenerated.acceptsWithin hwrites hcompiles hmethod.flags hdescriptor hcode hb hreceives
      hassigned hparameters (fun _ => id) hmeasured hlimit fun _ _ => hmeasured.words_le⟩
  · obtain ⟨pool, before, blocks, ending, stackAt, hmeasured⟩ :=
      hcompiles.exists_measured hb.kindCorrect hslotted hreceiver hclean file
    have hgreatest := hmeasured.isGreatest_maxStack hgenerated.pool hb.kindCorrect hcalls
    exact hgenerated.acceptsWithin hwrites hcompiles hmethod.flags hdescriptor hcode hb hreceives hassigned
      hparameters (fun _ => Descriptor.Clean.ended) hmeasured (hgreatest.2 (.inl rfl))
      fun _ _ => hmeasured.words_le_maxStack hgenerated.pool hb.kindCorrect hcalls

/-- The verifier accepts a loop with a call. -/
theorem drain_accepted :
    ∃ file, Drain.owner.generate {} = .ok file ∧ ∃ member, file.methods[0]? = some member ∧
      file.Accepts member [.object Drain.source, .int] .int := by
  obtain ⟨file, hfile⟩ := Drain.exists_file {}
  have hnames : Drain.body.CallsNamed Descriptor.Ended := fun st hst m hm t ht =>
    (Drain.callsNamed st hst m hm t ht).imp fun _ => Descriptor.Clean.ended
  obtain ⟨member, hmember, -, haccepts⟩ := accepts_of_generate hfile rfl (i := 0) (m := Drain.method) rfl
    rfl (by decide) Drain.wellFormed rfl
    (Body.definitelyAssigned_of_parameters (by decide) (by decide)) hnames (by decide)
  exact ⟨file, hfile, member, hmember, haccepts Drain.callsWithin Drain.callsNamed⟩

end ClassDecl

end Classwright
