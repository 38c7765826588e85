import Classwright.Proofs.Depths
import Classwright.Proofs.Liveness
import Classwright.Proofs.Room
import Mathlib.Algebra.Ring.Int.Defs
import Mathlib.Order.Bounds.Basic

/-!
# The greatest depth of the operand stack

The depth that code declares is the greatest that there is behind an instruction on any path through it.
Adding up the changes of consecutive instructions finds it, although control may not pass from one to the
next: the stack is empty behind branches and returns and wherever branches lead, and what control cannot
reach does not count.
-/

namespace Classwright

open Verifier

namespace ClassFile

/-- The instruction at an address takes the stack from `before` to `after` words, and `rest` is the code
behind it. -/
def Executes (N : String → Prop) (file : ClassFile) (code : List UInt8) (address before after : Nat)
    (instr : Instr) (rest : List UInt8) : Prop :=
  Instr.read (code.drop address) = .ok (instr, rest) ∧ ∃ taken left below,
    Moves N file instr taken left ∧ before = words taken + below ∧ after = words left + below

/-- On a path from the start of code, control comes to an address with that many words on the stack. -/
inductive Comes (N : String → Prop) (file : ClassFile) (code : List UInt8) : Nat → Nat → Prop where
  | start : Comes N file code 0 0
  | next {address before after : Nat} {instr : Instr} {rest : List UInt8}
      (comes : Comes N file code address before)
      (executes : file.Executes N code address before after instr rest)
      (passes : (instr.endsMethod || instr.isGoto) = false) :
      Comes N file code (code.length - rest.length) after
  | branch {address before after target : Nat} {when : Jump} {offset : Int16} {rest : List UInt8}
      (comes : Comes N file code address before)
      (executes : file.Executes N code address before after (.jump when offset) rest)
      (leads : (address : Int) + offset.toInt = (target : Nat)) : Comes N file code target after

/-- On a path from the start of code, there are that many words on the stack behind an instruction. -/
def DepthBehind (N : String → Prop) (file : ClassFile) (code : List UInt8) (depth : Nat) : Prop :=
  ∃ address before instr rest, file.Comes N code address before ∧
    file.Executes N code address before depth instr rest

end ClassFile

namespace Flow

/-- The stack that every line of code finds, empty at the start and wherever a label stands. -/
structure Balanced (N : String → Prop) (S : Kind → UInt16 → Prop) (file : ClassFile)
    (result : JavaType) (items : List Item) (steps : Array Step) (stackAt : Nat → List Kind) : Prop where
  resolve : (Draft.ofItems items).resolve = .ok steps
  types : Lower.Stacks (Lower.Types N S file result) (Item.lines items) stackAt
  start : stackAt 0 = []
  placed : ∀ {label : Label} {target : Nat}, (Draft.ofItems items).placed[label]? = some target →
    stackAt target = []
  last : ∃ instr, (Item.lines items).getLast? = some (.plain instr) ∧ instr.endsMethod = true

namespace Balanced

variable {N : String → Prop} {S : Kind → UInt16 → Prop} {file : ClassFile} {result : JavaType}
  {items : List Item} {steps : Array Step} {stackAt : Nat → List Kind}

private theorem of_extends (h : Balanced N S file result items steps stackAt) {more : ClassFile}
    (hmore : file.Extends more) : Balanced N S more result items steps stackAt := by
  refine { h with types := fun i line hline => ?_ }
  obtain ⟨taken, left, rest, htypes, hrest⟩ := h.types i line hline
  exact ⟨taken, left, rest, htypes.mono (fun _ => id) (fun _ _ => id) hmore, hrest⟩

variable (h : Balanced N S file result items steps stackAt) {i : Nat} {step : Step}
include h

private theorem coded : Coded items steps where
  resolve := h.resolve
  plain := by
    intro instr hmem
    obtain ⟨i, hline⟩ := List.mem_iff_getElem?.mp hmem
    obtain ⟨taken, left, below, htypes, -⟩ := h.types i _ hline
    exact htypes.isJump
  last := h.last

section Line

variable (hat : steps[i]? = some step)
include hat

private theorem exists_moves : ∃ taken left below, Moves N file step.instr taken left ∧
    stackAt i = taken ++ below ∧ stackAt (i + 1) = left ++ below := by
  obtain ⟨line, hline, hresolves⟩ := resolves_line h.resolve hat
  obtain ⟨taken, left, below, htypes, hbefore, hafter, -⟩ := h.types i line hline
  exact ⟨taken, left, below, htypes.moves hresolves, hbefore, hafter⟩

private theorem stackAt_succ (hleaves : step.falls = false ∨ step.instr.isJump = true) :
    stackAt (i + 1) = [] := by
  have hfalls := h.coded.falls_eq hat
  obtain ⟨line, hline, hresolves⟩ := resolves_line h.resolve hat
  obtain ⟨taken, left, below, htypes, -, hafter, hbelow⟩ := h.types i line hline
  cases line with
  | branch when label =>
    cases htypes
    rw [hafter, hbelow rfl]
    rfl
  | plain instr =>
    have hjump := htypes.isJump
    have hstep : step = { instr } := hresolves
    rw [hstep] at hleaves hfalls
    have hends : instr.endsMethod = true := by
      rcases hleaves with hstays | hjump'
      · rw [hstays] at hfalls
        cases instr <;> first | rfl | cases hfalls | cases hjump
      · rw [show instr.isJump = true from hjump'] at hjump
        cases hjump
    rw [hafter, hbelow hends, List.append_nil]
    cases htypes with
    | operation hoperates =>
      rw [Instr.endsMethod_of_isOperation hoperates.2] at hends
      cases hends
    | load => cases hends
    | store => rfl
    | returnValue => rfl
    | returnVoid => rfl

private theorem exists_target {when : Jump} {offset : Int16} (hjump : step.instr = .jump when offset) :
    ∃ target < steps.size, step.target = some target ∧
      (address items i : Int) + offset.toInt = address items target ∧ stackAt target = [] := by
  obtain ⟨label, target, hplaced, hinside, htarget, hleads⟩ := h.coded.exists_target hat hjump
  exact ⟨target, hinside, htarget, hleads, h.placed hplaced⟩

end Line

variable {layout : Layout} {thisInit : Option Nat} {locals : Locals layout.width}

private theorem executes (hreaches : Reaches steps layout thisInit i locals)
    (hat : steps[i]? = some step) :
    file.Executes N (codeOf steps layout thisInit) (address items i) (words (stackAt i))
      (words (stackAt (i + 1))) step.instr
      ((codeOf steps layout thisInit).drop (address items (i + 1))) := by
  obtain ⟨taken, left, below, hmoves, hbefore, hafter⟩ := h.exists_moves hat
  refine ⟨read_codeOf h.resolve hreaches hat, taken, left, words below, hmoves, ?_, ?_⟩
  · rw [hbefore, words_append]
  · rw [hafter, words_append]

private theorem comes_of_reaches (hreaches : Reaches steps layout thisInit i locals) :
    file.Comes N (codeOf steps layout thisInit) (address items i) (words (stackAt i)) := by
  induction hreaches with
  | start hpos =>
    rw [h.start]
    exact .start
  | @next i j step locals hreaches hat hfollows hinside ih =>
    have hexecutes := h.executes hreaches hat
    rcases mem_successors.mp hfollows with htarget | ⟨hfalls, rfl⟩
    · obtain ⟨when, offset, hjump⟩ := h.coded.exists_jump hat htarget
      obtain ⟨target, -, hsome, hleads, hempty⟩ := h.exists_target hat hjump
      rw [htarget] at hsome
      cases hsome
      rw [h.stackAt_succ hat (.inr (by rw [hjump]; rfl)), ← hempty, hjump] at hexecutes
      exact .branch ih hexecutes hleads
    · rw [h.coded.falls_eq hat, Bool.not_eq_true'] at hfalls
      have hnext := ClassFile.Comes.next ih hexecutes hfalls
      rwa [length_sub_drop h.resolve] at hnext

end Balanced

namespace Balanced

variable {S : Kind → UInt16 → Prop} {file : ClassFile} {result : JavaType} {items : List Item}
  {steps : Array Step} {stackAt : Nat → List Kind}
  (h : Balanced Descriptor.Clean S file result items steps stackAt)
  {layout : Layout} {thisInit : Option Nat} {q : Pool} (hpool : file.pool = q.entries)
include h hpool

private theorem executes_unique {i : Nat} {locals : Locals layout.width} {step : Step}
    (hreaches : Reaches steps layout thisInit i locals) (hat : steps[i]? = some step) {after : Nat}
    {instr : Instr} {rest : List UInt8}
    (hexecutes : file.Executes Descriptor.Clean (codeOf steps layout thisInit) (address items i)
      (words (stackAt i)) after instr rest) :
    instr = step.instr ∧ rest = (codeOf steps layout thisInit).drop (address items (i + 1)) ∧
      after = words (stackAt (i + 1)) := by
  obtain ⟨hread, taken, left, below, hmoves, hbefore, hafter⟩ := hexecutes
  rw [read_codeOf h.resolve hreaches hat] at hread
  cases hread
  obtain ⟨taken', left', below', hmoves', hbefore', hafter'⟩ := h.exists_moves hat
  refine ⟨rfl, rfl, ?_⟩
  have hdelta := hmoves.delta_eq hpool
  rw [hmoves'.delta_eq hpool] at hdelta
  rw [hbefore', words_append] at hbefore
  rw [hafter', words_append]
  omega

private theorem reaches_of_comes (hpos : 0 < steps.size) {a depth : Nat}
    (hcomes : file.Comes Descriptor.Clean (codeOf steps layout thisInit) a depth) :
    ∃ i locals, Reaches steps layout thisInit i locals ∧ a = address items i ∧
      depth = words (stackAt i) := by
  induction hcomes with
  | start => exact ⟨0, layout.entry, .start hpos, rfl, by rw [h.start]; rfl⟩
  | next comes executes passes ih =>
    obtain ⟨i, locals, hreaches, rfl, rfl⟩ := ih
    obtain ⟨step, hat⟩ := hreaches.exists_step
    obtain ⟨rfl, rfl, rfl⟩ := h.executes_unique hpool hreaches hat executes
    have hfalls := h.coded.falls_eq hat
    rw [passes] at hfalls
    have hinside := h.coded.lt_of_falls hat hfalls
    exact ⟨i + 1, _, .next hreaches hat (mem_successors.mpr (.inr ⟨hfalls, rfl⟩)) hinside,
      length_sub_drop h.resolve i, rfl⟩
  | branch comes executes leads ih =>
    obtain ⟨i, locals, hreaches, rfl, rfl⟩ := ih
    obtain ⟨step, hat⟩ := hreaches.exists_step
    obtain ⟨hjump, rfl, rfl⟩ := h.executes_unique hpool hreaches hat executes
    obtain ⟨target, hinside, htarget, hleads, hempty⟩ := h.exists_target hat hjump.symm
    refine ⟨target, _, .next hreaches hat (mem_successors.mpr (.inl htarget)) hinside, by omega, ?_⟩
    rw [h.stackAt_succ hat (.inr (by rw [← hjump]; rfl)), hempty]

theorem depthBehind_iff (hpos : 0 < steps.size) {depth : Nat} :
    file.DepthBehind Descriptor.Clean (codeOf steps layout thisInit) depth ↔
      ∃ i locals, Reaches steps layout thisInit i locals ∧ depth = words (stackAt (i + 1)) := by
  constructor
  · rintro ⟨a, before, instr, rest, hcomes, hexecutes⟩
    obtain ⟨i, locals, hreaches, rfl, rfl⟩ := h.reaches_of_comes hpool hpos hcomes
    obtain ⟨step, hat⟩ := hreaches.exists_step
    exact ⟨i, locals, hreaches, (h.executes_unique hpool hreaches hat hexecutes).2.2⟩
  · rintro ⟨i, locals, hreaches, rfl⟩
    obtain ⟨step, hat⟩ := hreaches.exists_step
    exact ⟨_, _, _, _, h.comes_of_reaches hreaches, h.executes hreaches hat⟩

end Balanced

def depthAt (steps : Array Step) (layout : Layout) (thisInit : Option Nat) (stackAt : Nat → List Kind)
    (i : Nat) : Nat :=
  if (localsAt? (analyze steps layout thisInit) i).isSome then words (stackAt i) else 0

namespace Balanced

variable {N : String → Prop} {S : Kind → UInt16 → Prop} {file : ClassFile} {result : JavaType}
  {items : List Item} {steps : Array Step} {stackAt : Nat → List Kind}
  (h : Balanced N S file result items steps stackAt)
  {layout : Layout} {thisInit : Option Nat} {i : Nat}
include h

private theorem depthAt_succ {state : Locals layout.width}
    (hstate : localsAt? (analyze steps layout thisInit) i = some state) :
    depthAt steps layout thisInit stackAt (i + 1) = words (stackAt (i + 1)) := by
  obtain ⟨⟨locals, hreaches⟩, -⟩ := justified_of_localsAt? hstate
  obtain ⟨step, hat⟩ := hreaches.exists_step
  unfold depthAt
  split
  · rfl
  · rename_i hdead
    cases hfalls : step.falls with
    | false =>
      rw [h.stackAt_succ hat (.inl hfalls)]
      rfl
    | true =>
      obtain ⟨next, hnext, -⟩ := below_transfer hstate hat (mem_successors.mpr (.inr ⟨hfalls, rfl⟩))
        (h.coded.lt_of_falls hat hfalls)
      rw [hnext] at hdead
      exact absurd rfl hdead

private theorem depthAt_succ_of_dead (hdead : localsAt? (analyze steps layout thisInit) i = none) :
    depthAt steps layout thisInit stackAt (i + 1) = 0 := by
  unfold depthAt
  split
  · rename_i hlive
    obtain ⟨state, hstate⟩ := Option.isSome_iff_exists.mp hlive
    obtain ⟨i', step, state', -, hat, htarget⟩ := targeted_of_not_falls hstate fun before _ hbefore => by
      rw [hdead] at hbefore
      cases hbefore
    obtain ⟨when, offset, hjump⟩ := h.coded.exists_jump hat htarget
    obtain ⟨target, -, hsome, -, hempty⟩ := h.exists_target hat hjump
    rw [htarget] at hsome
    cases hsome
    rw [hempty]
    rfl
  · rfl

end Balanced

namespace Balanced

variable {S : Kind → UInt16 → Prop} {file more : ClassFile} {result : JavaType} {items : List Item}
  {steps : Array Step} {stackAt : Nat → List Kind}
  (h : Balanced Descriptor.Clean S file result items steps stackAt)
  {layout : Layout} {thisInit : Option Nat} {p q : Pool}
include h

/-- The changes of consecutive instructions add up to the depths behind the lines that control can
reach. -/
theorem exists_greatest (hpool : file.pool = p.entries) :
    ∃ greatest : Nat, ((Assembly.instrs steps
        ((analyze steps layout thisInit).toList.map Option.isNone)).foldl (Instr.advance p) (0, 0)).2 =
          greatest ∧
      (∀ i locals, Reaches steps layout thisInit i locals → words (stackAt (i + 1)) ≤ greatest) ∧
      (greatest = 0 ∨ ∃ i locals, Reaches steps layout thisInit i locals ∧
        greatest = words (stackAt (i + 1))) := by
  have hzero : depthAt steps layout thisInit stackAt 0 = 0 := by
    rw [depthAt, h.start, words_nil, ite_self]
  have hlive : ∀ i instr, (flagged steps layout thisInit)[i]? = some (instr, false) →
      (depthAt steps layout thisInit stackAt (i + 1) : Int) =
        depthAt steps layout thisInit stackAt i + instr.delta p := by
    intro i instr hi
    obtain ⟨⟨step, hat, rfl⟩, hsome⟩ := getElem?_flagged.mp hi
    obtain ⟨state, hstate⟩ := Option.isSome_iff_exists.mp (Option.isNone_eq_false_iff.mp hsome)
    obtain ⟨taken, left, below, hmoves, hbefore, hafter⟩ := h.exists_moves hat
    rw [h.depthAt_succ hstate, depthAt, hstate, hmoves.delta_eq hpool, hbefore, hafter, words_append,
      words_append, Option.isSome_some, if_pos rfl]
    omega
  have hdead : ∀ i instr, (flagged steps layout thisInit)[i]? = some (instr, true) →
      depthAt steps layout thisInit stackAt i = 0 ∧ depthAt steps layout thisInit stackAt (i + 1) = 0 := by
    intro i instr hi
    have hnone := Option.isNone_iff_eq_none.mp (getElem?_flagged.mp hi).2
    exact ⟨by rw [depthAt, hnone]; rfl, h.depthAt_succ_of_dead hnone⟩
  obtain ⟨greatest, hfold, hnonneg, hall, hsome⟩ :=
    Instr.foldl_advance_neutralized hlive hdead 0 (.inl rfl) (Int.le_refl 0)
  obtain ⟨greatest, rfl⟩ := Int.eq_ofNat_of_zero_le hnonneg
  rw [hzero] at hfold
  refine ⟨greatest, ?_, ?_, ?_⟩
  · rw [Assembly.instrs, neutralize_eq]
    exact hfold
  · intro i locals hreaches
    obtain ⟨step, hat⟩ := hreaches.exists_step
    obtain ⟨state, hstate, -⟩ := hreaches.covered
    have hle := hall i step.instr (getElem?_flagged.mpr ⟨⟨step, hat, rfl⟩, by rw [hstate]; rfl⟩)
    rw [h.depthAt_succ hstate] at hle
    exact_mod_cast hle
  · rcases hsome with hnone | ⟨i, instr, hi, hgreatest⟩
    · exact .inl (by exact_mod_cast hnone)
    · obtain ⟨-, hisSome⟩ := getElem?_flagged.mp hi
      obtain ⟨state, hstate⟩ := Option.isSome_iff_exists.mp (Option.isNone_eq_false_iff.mp hisSome)
      obtain ⟨⟨locals, hreaches⟩, -⟩ := justified_of_localsAt? hstate
      rw [h.depthAt_succ hstate] at hgreatest
      exact .inr ⟨i, locals, hreaches, by exact_mod_cast hgreatest⟩

/-- The depth that is declared is the greatest on any path, if it fits. -/
theorem isGreatest_maxStack (hpool : file.pool = p.entries) (hmore : file.Extends more)
    (hmorePool : more.pool = q.entries) (hpos : 0 < steps.size)
    (hbound : ∀ i locals, Reaches steps layout thisInit i locals → words (stackAt (i + 1)) ≤ 65535) :
    IsGreatest {depth | depth = 1 ∨
        more.DepthBehind Descriptor.Clean (codeOf steps layout thisInit) depth}
      (Instr.maxStack p (Assembly.instrs steps
        ((analyze steps layout thisInit).toList.map Option.isNone))).toNat := by
  obtain ⟨greatest, hfold, hall, hsome⟩ := h.exists_greatest hpool
  have hfits : greatest ≤ 65535 := by
    rcases hsome with rfl | ⟨i, locals, hreaches, rfl⟩
    · exact Nat.zero_le _
    · exact hbound i locals hreaches
  have hmax : (Instr.maxStack p (Assembly.instrs steps
      ((analyze steps layout thisInit).toList.map Option.isNone))).toNat = max 1 greatest := by
    simp only [Instr.maxStack]
    rw [hfold, UInt16.toNat_ofNat']
    omega
  have hdepths : ∀ {depth},
      more.DepthBehind Descriptor.Clean (codeOf steps layout thisInit) depth ↔ _ :=
    (h.of_extends hmore).depthBehind_iff hmorePool hpos
  rw [hmax]
  constructor
  · rcases hsome with rfl | ⟨i, locals, hreaches, hgreatest⟩
    · exact .inl rfl
    · by_cases hone : greatest ≤ 1
      · exact .inl (by omega)
      · exact .inr (hdepths.mpr ⟨i, locals, hreaches, by omega⟩)
  · rintro depth (rfl | hdepth)
    · exact Nat.le_max_left _ _
    · obtain ⟨i, locals, hreaches, rfl⟩ := hdepths.mp hdepth
      exact Nat.le_trans (hall i locals hreaches) (Nat.le_max_right _ _)

end Balanced

end Flow

namespace Instr

def rise (pool : Pool) (instrs : List Instr) : Int := (instrs.map (delta pool)).sum

@[simp]
theorem rise_nil (pool : Pool) : rise pool [] = 0 := rfl

@[simp]
theorem rise_cons (pool : Pool) (instr : Instr) (instrs : List Instr) :
    rise pool (instr :: instrs) = instr.delta pool + rise pool instrs := rfl

@[simp]
theorem rise_append (pool : Pool) (instrs more : List Instr) :
    rise pool (instrs ++ more) = rise pool instrs + rise pool more := by
  simp [rise]

end Instr

namespace Lower

open Instr (rise)

section Climb

variable {S : Kind → UInt16 → Prop} {file : ClassFile} {result : JavaType} {p : Pool}
  (hpool : file.pool = p.entries)
include hpool

theorem Profile.rise_eq {instrs : List Instr} {start stop : List Kind}
    (h : Profile (Types Descriptor.Clean S file result) (instrs.map .plain) start stop) :
    rise p instrs = (words stop : Int) - words start := by
  have hmoves : ∀ {instr taken left}, Types Descriptor.Clean S file result (.plain instr) taken left →
      instr.delta p = (words left : Int) - words taken := fun htypes =>
    htypes.moves_plain.delta_eq hpool
  induction instrs generalizing start with
  | nil =>
    cases h
    simp
  | cons instr instrs ih =>
    rw [Instr.rise_cons]
    cases h with
    | part types stays rest =>
      rw [hmoves types, ih rest, words_append, words_append]
      omega
    | whole types rest =>
      rw [hmoves types, ih rest]
      omega

private theorem climb_single {instr : Instr} {kind : Kind}
    (h : Operates Descriptor.Clean file instr [] [kind]) (k : Nat) : rise p ([instr].take k) ≤ k + 1 := by
  have hdelta := h.1.delta_eq hpool
  have hle := h.1.words_le
  cases k with
  | zero => simp
  | succ k =>
    rw [List.take_succ_cons, List.take_nil, Instr.rise_cons, Instr.rise_nil]
    omega

variable {final : Lowering} (hle : final.pool ≤ p)
include hle

mutual

/-- While a literal is pushed, the stack grows by little more than a word with every instruction. -/
theorem climb_of_loads : ∀ {value : Literal} {instrs : List Instr}, value.Loads final.pool instrs →
    value.KindCorrect → ∀ k : Nat, rise p (instrs.take k) ≤ k + 1
  | .boolean _, _, ⟨_, hi, rfl⟩, _ => climb_single hpool (operates_of_loadsInt hpool hle hi)
  | .byte _, _, ⟨_, hi, rfl⟩, _ => climb_single hpool (operates_of_loadsInt hpool hle hi)
  | .short _, _, ⟨_, hi, rfl⟩, _ => climb_single hpool (operates_of_loadsInt hpool hle hi)
  | .char _, _, ⟨_, hi, rfl⟩, _ => climb_single hpool (operates_of_loadsInt hpool hle hi)
  | .int _, _, ⟨_, hi, rfl⟩, _ => climb_single hpool (operates_of_loadsInt hpool hle hi)
  | .long _, _, ⟨_, hi, rfl⟩, _ => climb_single hpool (operates_of_loadsLong hpool hle hi)
  | .float _, _, ⟨_, hi, rfl⟩, _ => climb_single hpool (operates_of_loadsFloat hpool hle hi)
  | .double _, _, ⟨_, hi, rfl⟩, _ => climb_single hpool (operates_of_loadsDouble hpool hle hi)
  | .string _, _, ⟨index, hindex, rfl⟩, _ =>
    climb_single hpool (operates_loadEntry (constantKind?_of_final hpool hle hindex rfl) rfl)
  | .null, _, rfl, _ => climb_single hpool ⟨.aconstNull, rfl⟩
  | .enum _ _, _, ⟨_, hindex, rfl⟩, _ => climb_single hpool ⟨.getStatic
      (ClassFile.fieldDescriptor?_of_meaning? hpool (Pool.meaning?_mono hle hindex)) rfl, rfl⟩
  | .array component _, _, ⟨_, hlength, _, kind, hallocation, _, hstores, rfl⟩, helements => by
    have hlength := (operates_of_loadsInt (N := Descriptor.Clean) hpool hle hlength).1.delta_eq hpool
    have hallocation' :=
      (operates_of_allocatesArray (N := Descriptor.Clean) hpool hle hallocation).1.delta_eq hpool
    have hrest := climb_of_loadsElements hstores helements (kind?_of_elemKind? hallocation.1)
    have hint : words [.int] = 1 := rfl
    have hreference : words [.reference] = 1 := rfl
    rintro (_ | _ | k)
    · simp
    · simp [hlength, hint]
    · have hk := hrest k
      simp only [List.take_succ_cons, Instr.rise_cons, hlength, hallocation', hint, hreference, words_nil]
      omega

theorem climb_of_loadsElements : ∀ {elements : List Literal} {component : JavaType} {element : Element}
    {index : Nat} {instrs : List Instr},
    Literal.LoadsElements final.pool (.arrayStore element) index elements instrs →
    Literal.ElementsKindCorrect component elements → component.kind? = some element.kind →
    ∀ k : Nat, rise p (instrs.take k) ≤ k + 1
  | [], _, _, _, _, rfl, _, _ => fun k => by simp; omega
  | e :: _, _, element, _, _, ⟨position, hposition, value, hvalue, more, hmore, rfl⟩,
      ⟨hkind, hcorrect, hrest⟩, helement => by
    have hposition := (operates_of_loadsInt (N := Descriptor.Clean) hpool hle hposition).1.delta_eq hpool
    have hprofile : Profile (Types Descriptor.Clean (fun _ _ => True) file .int) (value.map .plain) []
        [element.kind] := profile_of_loads hpool hle hvalue hcorrect (hkind.trans helement)
    have hpush := hprofile.rise_eq hpool
    have hstore : (Instr.arrayStore element).delta p = _ := Moves.delta_eq hpool (.arrayStore element)
    have hvalue := climb_of_loads hvalue hcorrect
    have hmore := climb_of_loadsElements hmore hrest helement
    rintro (_ | _ | k)
    · simp
    · simp [Instr.delta]
    · have hdup : Instr.dup.delta p = 1 := rfl
      have hint : Kind.int.width = 1 := rfl
      have hreference : Kind.reference.width = 1 := rfl
      simp only [words_cons, words_nil, hint, hreference] at hposition hpush hstore
      simp only [List.take_succ_cons, Instr.rise_cons, List.take_append, Instr.rise_append, hdup,
        hposition]
      rcases Nat.lt_or_ge value.length k with hlt | hge
      · -- the element is stored, and the stack is as it was
        obtain ⟨j, hj⟩ := Nat.exists_eq_add_of_lt hlt
        have hmore := hmore j
        rw [List.take_of_length_le (Nat.le_of_lt hlt), show k - value.length = j + 1 by omega,
          List.take_succ_cons, Instr.rise_cons, hpush, hstore]
        omega
      · have hk := hvalue k
        rw [Nat.sub_eq_zero_of_le hge, List.take_zero, Instr.rise_nil]
        omega

end

end Climb

theorem length_lines_le (items : List Item) : (Item.lines items).length ≤ items.length :=
  List.length_filterMap_le _ _

section Lengths

variable {ctx : MethodContext} {final : Lowering} {items : List Item}

theorem Uses.length_le {type : JavaType} {target : Option Local} (h : Uses final type target items) :
    items.length ≤ 3 := by
  cases target with
  | none =>
    rw [show items = dropping type from h, dropping]
    split <;> simp
  | some l =>
    obtain ⟨instrs, hadapts, item, -, rfl⟩ := h
    rcases hadapts with ⟨-, -, rfl⟩ | ⟨-, p, wrapper, -, -, box, -, method, -, rfl⟩ <;> simp

theorem Chains.length_le {owner : ClassDecl} {m : MethodDecl} {b : Body}
    (h : Chains owner m b final items) : items.length ≤ 2 := by
  rcases h.eq_nil_or with rfl | ⟨-, index, -, -, -, -, rfl⟩ <;> simp

theorem Ends.length_le {m : MethodDecl} {b : Body} (h : Ends m b items) : items.length ≤ 1 := by
  rcases h with ⟨-, rfl⟩ | ⟨-, -, rfl⟩ <;> simp

theorem Emits.length_le {st : Statement} (h : Emits ctx final st items) (hst : st.KindCorrect)
    (hcalls : ∀ m ∈ st.callee?, m.parameters.length ≤ 255) :
    (∃ value target, st = .literal value target) ∨ items.length ≤ 260 := by
  have hmatch : ∀ {arguments : List Local} {m : MethodSymbol},
      Local.MatchKinds arguments m.parameters → arguments.length = m.parameters.length := by
    intro arguments m hkinds
    have hlength := congrArg List.length hkinds
    rwa [List.length_map, List.length_map] at hlength
  cases st with
  | literal value target => exact .inl ⟨value, target, rfl⟩
  | invoke m receiver arguments target isSuper =>
    have harguments := hmatch hst.2
    have hparameters := hcalls m rfl
    simp only [Emits] at h
    split at h
    · obtain ⟨pushed, hpushed, call, -, used, hused, rfl⟩ := h
      have hlength := hpushed.length_eq
      have hle := hused.length_le
      simp only [List.length_append, List.length_cons]
      omega
    · obtain ⟨object, -, slot, -, item, -, pushed, hpushed, call, -, used, hused, rfl⟩ := h
      have hlength := hpushed.length_eq
      have hle := hused.length_le
      simp only [List.length_append, List.length_cons]
      omega
  | new m arguments target =>
    have harguments := hmatch hst.2.1
    have hparameters := hcalls m rfl
    obtain ⟨index, -, init, -, pushed, hpushed, stored, -, rfl⟩ := h
    have hlength := hpushed.length_eq
    simp only [List.length_append, List.length_cons, List.length_nil]
    omega
  | newArray element lengths target =>
    obtain ⟨-, hbyte, pushed, hpushed, instr, -, stored, -, rfl⟩ := h
    have hlength := hpushed.length_eq
    simp only [List.length_append, List.length_cons, List.length_nil]
    omega
  | getField f receiver target =>
    obtain ⟨index, -, h⟩ := h
    split at h
    · obtain ⟨item, -, rfl⟩ := h
      simp
    · obtain ⟨object, -, pushed, -, item, -, rfl⟩ := h
      simp
  | putField f receiver value =>
    obtain ⟨index, -, h⟩ := h
    split at h
    · obtain ⟨item, -, rfl⟩ := h
      simp
    · obtain ⟨object, -, pushed, -, item, -, rfl⟩ := h
      simp
  | unary op operand target =>
    obtain ⟨kind, -, x, -, changed, hchanged, y, -, rfl⟩ := h
    have hlength : changed.length ≤ 2 := by
      cases op with
      | negate =>
        rw [show changed = _ from hchanged]
        simp
      | complement =>
        rcases hchanged with ⟨-, rfl⟩ | ⟨-, index, -, rfl⟩ <;> simp
    simp only [List.length_append, List.length_cons, List.length_nil]
    omega
  | compare op left right label =>
    obtain ⟨x, -, y, -, ⟨-, jump, -, rfl⟩ | ⟨kind, -, rfl⟩⟩ := h
    · simp
    · unfold comparing
      split <;> simp
  | test op operand label =>
    obtain ⟨x, -, ⟨-, jump, -, rfl⟩ | ⟨kind, -, rfl⟩⟩ := h
    · simp
    · unfold testing
      split <;> simp
  | ret value =>
    cases value with
    | none =>
      rw [h.2]
      simp
    | some l =>
      obtain ⟨-, kind, -, x, -, cast, hcast, rfl⟩ := h
      unfold Casts at hcast
      split at hcast
      · obtain ⟨index, -, rfl⟩ := hcast
        simp
      · rw [hcast]
        simp
  | assign target source =>
    obtain ⟨x, -, y, -, rfl⟩ := h
    simp
  | binary op left right target =>
    obtain ⟨instr, -, x, -, y, -, z, -, rfl⟩ := h
    simp
  | cast source target =>
    obtain ⟨instr, -, x, -, y, -, rfl⟩ := h
    simp
  | goto label | mark label =>
    rw [show items = _ from h]
    simp
  | arrayGet array index target | arrayPut array index target =>
    obtain ⟨kind, -, x, -, y, -, z, -, rfl⟩ := h
    simp
  | instanceOf value type target =>
    obtain ⟨x, -, index, -, y, -, rfl⟩ := h
    simp

end Lengths

end Lower

def Body.CallsWithin (limit : Nat) (b : Body) : Prop :=
  ∀ st ∈ b.statements, ∀ m ∈ st.callee?, (m.parameters.map JavaType.width).sum ≤ limit

theorem Body.CallsWithin.length_parameters_le {b : Body} {limit : Nat} (h : b.CallsWithin limit)
    (hb : b.KindCorrect) {st : Statement} (hst : st ∈ b.statements) :
    ∀ m ∈ st.callee?, m.parameters.length ≤ limit := by
  intro m hm
  obtain ⟨arguments, harguments, hmatch⟩ : ∃ arguments : List Local,
      (∀ l ∈ arguments, l ∈ b.locals) ∧ Local.MatchKinds arguments m.parameters := by
    have hlocals : ∀ l ∈ st.locals, l ∈ b.locals := fun l hl =>
      List.mem_append_right _ (List.mem_flatMap.mpr ⟨st, hst, hl⟩)
    have hcorrect := hb.kinds st hst
    cases st with
    | invoke m' receiver arguments target isSuper =>
      cases hm
      exact ⟨arguments, fun l hl => hlocals l (by simp [Statement.locals, hl]), hcorrect.2⟩
    | new m' arguments target =>
      cases hm
      exact ⟨arguments, fun l hl => hlocals l (by simp [Statement.locals, hl]), hcorrect.2.1⟩
    | _ => cases hm
  obtain ⟨kinds, hkinds⟩ := hb.exists_kinds harguments
  have hparameters := hmatch.symm.trans hkinds
  have hwords : (m.parameters.map JavaType.width).sum = words kinds :=
    JavaType.totalWidth_eq_words hparameters
  have hle := h st hst m hm
  have hlength := congrArg List.length hparameters
  have hpos := length_le_words kinds
  rw [List.length_map, List.length_map] at hlength
  omega

namespace Flow.Balanced

section Growth

variable {N : String → Prop} {S : Kind → UInt16 → Prop} {file : ClassFile} {result : JavaType}
  {items : List Item} {steps : Array Step} {stackAt : Nat → List Kind}
  (h : Balanced N S file result items steps stackAt)
include h

theorem words_add_le {i k : Nat} (hk : i + k ≤ steps.size) :
    words (stackAt (i + k)) ≤ words (stackAt i) + 2 * k := by
  induction k with
  | zero => exact Nat.le_refl _
  | succ k ih =>
    have hat : steps[i + k]? = some (steps[i + k]) := Array.getElem?_eq_getElem (by omega)
    obtain ⟨taken, left, below, hmoves, hbefore, hafter⟩ := h.exists_moves hat
    have hle := hmoves.words_le
    have hprevious := ih (by omega)
    rw [hbefore, words_append] at hprevious
    rw [show i + (k + 1) = i + k + 1 from rfl, hafter, words_append]
    omega

theorem size_le : steps.size ≤ 65535 := by
  have hsize := (Draft.resolves_of_resolve h.resolve).1
  rw [Draft.size_ofItems] at hsize
  rw [size_steps h.resolve]
  exact Nat.le_trans (Line.length_le_total _) hsize

end Growth

variable {S : Kind → UInt16 → Prop} {file : ClassFile} {result : JavaType} {steps : Array Step}
  {stackAt : Nat → List Kind} {p : Pool} (hpool : file.pool = p.entries)
include hpool

theorem words_rise {items : List Item}
    (h : Balanced Descriptor.Clean S file result items steps stackAt) {instrs : List Instr} {i : Nat}
    (hlines : ∀ (k : Nat) (instr : Instr), instrs[k]? = some instr →
      (Item.lines items)[i + k]? = some (.plain instr)) {k : Nat} (hk : k ≤ instrs.length) :
    (words (stackAt (i + k)) : Int) = words (stackAt i) + Instr.rise p (instrs.take k) := by
  induction k with
  | zero => simp
  | succ k ih =>
    have hget := List.getElem?_eq_getElem hk
    have hline := hlines k _ hget
    obtain ⟨taken, left, below, htypes, hbefore, hafter, -⟩ := h.types _ _ hline
    have hdelta := htypes.moves_plain.delta_eq hpool
    have hprevious := ih (Nat.le_of_succ_le hk)
    rw [hbefore, words_append] at hprevious
    rw [List.take_add_one, hget, Instr.rise_append, Option.toList_some, Instr.rise_cons,
      Instr.rise_nil, hdelta, show i + (k + 1) = i + k + 1 from rfl, hafter, words_append]
    omega

/-- The depth fits its field: few lines push more than a word, and there are not so many lines. -/
theorem words_le {before ending : List Item} {blocks : List (List Item)}
    (h : Balanced Descriptor.Clean S file result (before ++ blocks.flatten ++ ending) steps stackAt)
    {ctx : MethodContext} {final : Lowering} {b : Body} (hle : final.pool ≤ p)
    (hempty : ∀ n ≤ blocks.length, stackAt (Lower.startLine before blocks n) = [])
    (hbefore : before.length ≤ 2) (hending : ending.length ≤ 1)
    (hblocks : List.Forall₂ (Lower.Emits ctx final) b.statements blocks) (hb : b.KindCorrect)
    (hcalls : b.CallsWithin 255) {i : Nat} (hi : i < steps.size) : words (stackAt i) ≤ 65535 := by
  have hsize := h.size_le
  rw [size_steps h.resolve] at hi
  rcases Lower.exists_position hi with hlt | ⟨n, block, k, hblock, hk, rfl⟩ | ⟨k, hk, rfl⟩
  · have hgrows := h.words_add_le (i := 0) (k := i) (by rw [size_steps h.resolve]; omega)
    have hlines := Lower.length_lines_le before
    rw [Nat.zero_add, h.start, words_nil] at hgrows
    omega
  · have hn : n < blocks.length := (List.getElem?_eq_some_iff.mp hblock).1
    have hstart := hempty n (Nat.le_of_lt hn)
    obtain ⟨st, hst, hemits⟩ := exists_left_of_forall₂ hblocks (List.mem_of_getElem? hblock)
    have hcorrect := hb.kinds st hst
    rcases hemits.length_le hcorrect (hcalls.length_parameters_le hb hst) with ⟨value, target, rfl⟩ | hshort
    · obtain ⟨instrs, hinstrs, stored, hstored, rfl⟩ := hemits
      have hlines : Item.lines (instrs.map .op ++ [stored]) = instrs.map .plain ++ Item.lines [stored] :=
        Lower.lines_map_op instrs [stored]
      have hone := Lower.length_lines_le [stored]
      rw [hlines, List.length_append, List.length_map] at hk
      have hplain : ∀ (k : Nat) (instr : Instr), instrs[k]? = some instr →
          (Item.lines (instrs.map .op ++ [stored]))[k]? = some (.plain instr) := by
        intro k instr hinstr
        have hlt : k < (instrs.map Line.plain).length := by
          rw [List.length_map]
          exact (List.getElem?_eq_some_iff.mp hinstr).1
        rw [hlines, List.getElem?_append_left hlt, List.getElem?_map, hinstr]
        rfl
      have hrise : (words (stackAt (Lower.startLine before blocks n + k)) : Int) = _ :=
        words_rise hpool h (fun k instr hinstr => Lower.lines_block hblock (hplain k instr hinstr)) (by
          rw [List.length_singleton] at hone
          omega)
      have hclimb := Lower.climb_of_loads hpool hle hinstrs hcorrect.1 k
      rw [hstart, words_nil] at hrise
      rw [← size_steps h.resolve] at hi
      omega
    · have hgrows := h.words_add_le (i := Lower.startLine before blocks n) (k := k)
        (by rw [size_steps h.resolve]; omega)
      have hlines := Lower.length_lines_le block
      rw [hstart, words_nil] at hgrows
      omega
  · have hgrows := h.words_add_le (i := Lower.startLine before blocks blocks.length) (k := k)
      (by rw [size_steps h.resolve]; omega)
    have hlines := Lower.length_lines_le ending
    rw [hempty _ (Nat.le_refl _), words_nil] at hgrows
    omega

end Flow.Balanced

namespace MethodDecl

/-- The code of a method in its parts, with the stack that every line finds.  The depth is measured when
the pool has not grown to its end. -/
structure Measured (N : String → Prop) (S : Kind → UInt16 → Prop) (owner : ClassDecl) (m : MethodDecl)
    (b : Body) (q : Pool) (c : Compiled) (file : ClassFile) (pool : Pool) (before : List Item)
    (blocks : List (List Item)) (ending : List Item) (stackAt : Nat → List Kind) : Prop where
  items : c.items = before ++ blocks.flatten ++ ending
  chains : Lower.Chains owner m b c.final before
  emits : List.Forall₂ (Lower.Emits ⟨owner, m, Std.HashSet.ofList b.labels⟩ c.final) b.statements blocks
  ends : Lower.Ends m b ending
  final_le : c.final.pool ≤ pool
  le : pool ≤ q
  maxStack : c.maxStack = Instr.maxStack pool (Assembly.instrs c.steps
    ((Flow.analyze c.steps c.layout c.thisInit).toList.map Option.isNone))
  balanced : Flow.Balanced N S { file with pool := pool.entries } m.result
    (before ++ blocks.flatten ++ ending) c.steps stackAt
  empty : ∀ n ≤ blocks.length, stackAt (Lower.startLine before blocks n) = []

variable {options : Options} {owner : ClassDecl} {m : MethodDecl} {b : Body} {q : Pool} {c : Compiled}
  {N : String → Prop} {S : Kind → UInt16 → Prop}

/-- The operands of a body of correct kinds can be followed through its code. -/
theorem Compiles.exists_measured (h : m.Compiles options owner b [] q c) (hb : b.KindCorrect)
    (hslots : c.final.Slotted b S) (hreceiver : m.initializesThis = true → S .reference 0)
    (hnames : b.CallsNamed N) (file : ClassFile) :
    ∃ pool before blocks ending stackAt,
      Measured N S owner m b q c file pool before blocks ending stackAt := by
  obtain ⟨pool, hfinal, hle, hmax⟩ := h.maxStack
  obtain ⟨chained, before, blocks, ending, hitems, hplain, hchained, hfilled, hblocks, hending⟩ :=
    h.emits.split
  rw [← hfilled rfl] at hchained
  obtain ⟨stackAt, hstacks, hzero, hempty⟩ := Lower.exists_operands (q := pool)
    (show ({ file with pool := pool.entries } : ClassFile).pool = pool.entries from rfl) hfinal hslots hb
    hnames hchained hreceiver hblocks hending
  have hresolve := h.resolve
  have hlast := h.emits.getLast?_lines
  rw [hitems] at hresolve hlast
  refine ⟨pool, before, blocks, ending, stackAt, hitems, hchained, hblocks, hending, hfinal, hle, hmax,
    ⟨hresolve, hstacks, hzero, fun hplaced => ?_, hlast⟩, hempty⟩
  obtain ⟨n, hn, rfl⟩ := Lower.exists_startLine_of_placed hblocks hplain hending.plain hplaced
  exact hempty n hn

namespace Measured

variable {file : ClassFile} {pool : Pool} {before ending : List Item} {blocks : List (List Item)}
  {stackAt : Nat → List Kind} {i : Nat} {locals : Locals c.layout.width}

theorem size_pos (h : Measured N S owner m b q c file pool before blocks ending stackAt) :
    0 < c.steps.size := by
  obtain ⟨instr, hlast, -⟩ := h.balanced.last
  rw [Flow.size_steps h.balanced.resolve, List.length_pos_iff]
  rintro hnil
  rw [hnil] at hlast
  cases hlast

theorem words_le (h : Measured N S owner m b q c file pool before blocks ending stackAt)
    (hreaches : Flow.Reaches c.steps c.layout c.thisInit i locals) :
    words (stackAt (i + 1)) ≤ 2 * c.steps.size := by
  obtain ⟨step, hat⟩ := hreaches.exists_step
  obtain ⟨hlt, -⟩ := Array.getElem?_eq_some_iff.mp hat
  have hgrows := h.balanced.words_add_le (i := 0) (k := i + 1) (by omega)
  rw [Nat.zero_add, h.balanced.start, words_nil] at hgrows
  omega

variable (h : Measured Descriptor.Clean S owner m b q c file pool before blocks ending stackAt)
  (hpool : file.pool = q.entries) (hb : b.KindCorrect) (hcalls : b.CallsWithin 255)
include h hb hcalls

theorem words_le_limit (hreaches : Flow.Reaches c.steps c.layout c.thisInit i locals) :
    words (stackAt (i + 1)) ≤ 65535 := by
  obtain ⟨step, hat⟩ := hreaches.exists_step
  cases hfalls : step.falls with
  | false =>
    rw [h.balanced.stackAt_succ hat (.inl hfalls)]
    exact Nat.zero_le _
  | true =>
    exact Flow.Balanced.words_le rfl h.balanced h.final_le h.empty h.chains.length_le h.ends.length_le
      h.emits hb hcalls (h.balanced.coded.lt_of_falls hat hfalls)

include hpool

theorem isGreatest_maxStack :
    IsGreatest {depth | depth = 1 ∨ file.DepthBehind Descriptor.Clean c.code.code depth}
      c.maxStack.toNat := by
  rw [h.maxStack]
  exact h.balanced.isGreatest_maxStack rfl (ClassFile.Extends.of_le h.le rfl hpool) hpool h.size_pos
    fun i locals hreaches => h.words_le_limit hb hcalls hreaches

theorem words_le_maxStack (hreaches : Flow.Reaches c.steps c.layout c.thisInit i locals) :
    words (stackAt (i + 1)) ≤ c.maxStack.toNat := by
  refine (h.isGreatest_maxStack hpool hb hcalls).2 (.inr ?_)
  have hbalanced := h.balanced.of_extends (ClassFile.Extends.of_le h.le rfl hpool)
  exact (hbalanced.depthBehind_iff hpool h.size_pos).mpr ⟨i, locals, hreaches, rfl⟩

end Measured

end MethodDecl

namespace Drain

/-!
## An example

A loop that calls a method of an interface until it gives zero.
-/

def source : ClassType := { name := "Source", isInterface := true }

def feed : Local := ⟨"feed", .object source⟩
def rest : Local := ⟨"rest", .int⟩

def next : MethodSymbol where
  owner := source
  name := "next"
  parameters := [.object source, .int]
  result := .int

def call : Statement := .invoke next (some feed) [feed, rest] (some rest) false

def body : Body where
  parameters := [feed, rest]
  statements := [.mark 0, call, .test .notEqual rest 0, .ret (some rest)]
  labels := [0]

def method : MethodDecl where
  name := "drain"
  modifiers := ⟨0x0009⟩
  parameters := [{ name := "feed", type := .object source }, { name := "rest", type := .int }]
  result := .int
  body := some body

def owner : ClassDecl where
  this := { name := "Drain" }
  methods := [method]

def callItems (index : UInt16) : List Item :=
  [.op (.loadSlot .reference 0), .op (.loadSlot .reference 0), .op (.loadSlot .int 1),
    .op (.invokeInterface index 3 0), .op (.storeSlot .int 1)]

def items (index : UInt16) : List Item :=
  .mark 0 :: (callItems index ++ [.op (.loadSlot .int 1), .branch (.ifZero .notEqual) 0,
    .op (.loadSlot .int 1), .op (.returnValue .int)])

section Lowering

variable {slots : Slots} (hfeed : slots.index["feed"]? = some 0) (hrest : slots.index["rest"]? = some 1)
  {p q : Pool} {index : UInt16}
  (hintern : pooled (Pool.interfaceMethodRef "Source" "next" next.descriptor) p = .ok (index, q))
include hfeed hrest hintern

private theorem run_call {labels : Std.HashSet Label} :
    Lower.statement ⟨owner, method, labels⟩ call ⟨p, slots⟩ = .ok (callItems index, ⟨q, slots⟩) := by
  have hslot : Lower.slotOf feed ⟨p, slots⟩ = .ok (0, ⟨p, slots⟩) := by
    simp [Lower.slotOf, Slots.lookup_eq_ok_iff.mpr (show slots.index[feed.name]? = some 0 from hfeed)]
  have hload : Lower.load feed ⟨p, slots⟩ = _ := Lower.run_load rfl hfeed
  have hloads : [feed, rest].mapM Lower.load ⟨p, slots⟩ = _ :=
    run_mapM_of_forall₂ (.cons hload (.cons (Lower.run_load rfl hrest) .nil))
  have hcall : Lower.callInstr next false ⟨p, slots⟩ =
      .ok (.invokeInterface index 3 0, ⟨q, slots⟩) :=
    run_bind_iff.mpr ⟨index, ⟨q, slots⟩, Lower.run_pooling_iff.mpr ⟨hintern, rfl⟩, rfl⟩
  have hused : Lower.useResult .int (some rest) ⟨q, slots⟩ =
      .ok ([.op (.storeSlot .int 1)], ⟨q, slots⟩) :=
    run_bind_iff.mpr ⟨[], _, rfl, run_bind_iff.mpr ⟨_, _, Lower.run_store rfl hrest, rfl⟩⟩
  exact run_bind_iff.mpr ⟨feed, _, rfl, run_bind_iff.mpr ⟨_, _, hslot, run_bind_iff.mpr ⟨_, _, hload,
    run_bind_iff.mpr ⟨_, _, hloads, run_bind_iff.mpr ⟨_, _, hcall, run_bind_iff.mpr ⟨_, _, hused, rfl⟩⟩⟩⟩⟩⟩

private theorem run_lower (hslots : Slots.allocateAll {} [feed, rest] = .ok slots) :
    method.lower owner body [] p = .ok ((items index, slots), q) := by
  have hcall := @run_call slots hfeed hrest p q index hintern (Std.HashSet.ofList body.labels)
  have hlabel : ∀ s, Lower.declaredLabel ⟨owner, method, Std.HashSet.ofList body.labels⟩ 0 s = .ok (0, s) :=
    fun s => Lower.run_declaredLabel (by simp [body])
  have hload : Lower.load rest ⟨q, slots⟩ = _ := Lower.run_load rfl hrest
  have hbehind : [.test .notEqual rest 0, .ret (some rest)].mapM
      (Lower.statement ⟨owner, method, Std.HashSet.ofList body.labels⟩) ⟨q, slots⟩ =
      .ok ([[.op (.loadSlot .int 1), .branch (.ifZero .notEqual) 0],
        [.op (.loadSlot .int 1), .op (.returnValue .int)]], ⟨q, slots⟩) := by
    refine run_mapM_of_forall₂ (.cons ?_ (.cons ?_ .nil))
    · exact run_bind_iff.mpr ⟨0, _, hlabel _, run_bind_iff.mpr ⟨_, _, hload, rfl⟩⟩
    · exact run_bind_iff.mpr ⟨.int, _, rfl, run_bind_iff.mpr ⟨_, _, hload, rfl⟩⟩
  have hstatements : body.statements.mapM
      (Lower.statement ⟨owner, method, Std.HashSet.ofList body.labels⟩) ⟨p, slots⟩ =
      .ok ([[.mark 0], callItems index, [.op (.loadSlot .int 1), .branch (.ifZero .notEqual) 0],
        [.op (.loadSlot .int 1), .op (.returnValue .int)]], ⟨q, slots⟩) := by
    rw [body, List.mapM_cons]
    refine run_bind_iff.mpr ⟨[.mark 0], _, run_bind_iff.mpr ⟨0, _, hlabel _, rfl⟩, ?_⟩
    refine run_bind_iff.mpr ⟨_, ⟨q, slots⟩, ?_, rfl⟩
    rw [List.mapM_cons]
    exact run_bind_iff.mpr ⟨_, _, hcall, run_bind_iff.mpr ⟨_, _, hbehind, rfl⟩⟩
  have hallocate : Lower.allocate body.parameters ⟨p, {}⟩ = .ok ((), ⟨p, slots⟩) := by
    have hparameters : body.parameters = [feed, rest] := rfl
    simp only [Lower.allocate, hparameters, hslots]
  refine MethodDecl.run_lower_iff.mpr (run_bind_iff.mpr ⟨(), _, hallocate, ?_⟩)
  refine run_bind_iff.mpr ⟨[], _, rfl, run_bind_iff.mpr ⟨[], _, rfl, ?_⟩⟩
  refine run_bind_iff.mpr ⟨items index, ⟨q, slots⟩, ?_, rfl⟩
  exact run_bind_iff.mpr ⟨_, _, hstatements, rfl⟩

end Lowering

private theorem exists_steps (index : UInt16) :
    ∃ steps, (Draft.ofItems (items index)).resolve = .ok steps := by
  refine Draft.exists_resolve (Nat.le_of_ble_eq_true rfl) fun when label hmem => ?_
  have hlabel : label = 0 := by
    simp [items, callItems, Item.lines, Item.line?] at hmem
    exact hmem.2.symm
  subst hlabel
  exact ⟨0, Nat.zero_lt_succ _, Draft.placed_ofItems.mpr ⟨[], (items index).tail, rfl,
    by simp [items, callItems, Item.marks], rfl⟩⟩

theorem exists_file (options : Options) : ∃ file, owner.generate options = .ok file := by
  obtain ⟨slots, hslots, hfeed, hrest, hlocals⟩ :=
    Slots.exists_allocateAll_pair (a := feed) (b := rest) (by decide) (by decide)
  have hnext : Succeeds 6 (pooled (Pool.interfaceMethodRef "Source" "next" next.descriptor))
      fun _ => True := Succeeds.interfaceMethodRef (by decide)
  have hlower : Succeeds 6 (method.lower owner body []) fun out =>
      (∃ steps, (Draft.ofItems out.1).resolve = .ok steps) ∧ out.2.locals.toList.length ≤ 2 ∧
        ∀ entry ∈ out.2.locals.toList, entry.1.Writable := by
    intro p hp hroom
    obtain ⟨index, q, hintern, hq, hsize, -⟩ := hnext p hp hroom
    refine ⟨_, q, run_lower hfeed hrest hintern hslots, hq, hsize, exists_steps index, ?_, ?_⟩
    · rw [hlocals]
      exact Nat.le_refl 2
    · rw [hlocals]
      simp only [List.forall_mem_cons, List.not_mem_nil, false_imp_iff, implies_true, and_true]
      exact ⟨⟨by decide, by decide, by decide⟩, ⟨by decide, by decide, by decide⟩⟩
  have hcode := MethodDecl.succeeds_codeAttribute options (by decide) hlower
  have hmethod := MethodDecl.succeeds_generate (MethodDecl.succeeds_codeAttributes rfl hcode) (by decide)
    (by decide) rfl (by decide) (by decide)
  exact ClassDecl.exists_generate_method (by decide) (by decide) rfl rfl rfl rfl rfl hmethod (by decide)

theorem wellFormed : body.WellFormed where
  valued := by decide
  typed := by decide
  kinds := by
    simp only [body, call, List.forall_mem_cons, List.not_mem_nil, false_imp_iff, implies_true, and_true,
      Statement.KindCorrect, true_and]
    exact ⟨fun _ l hl => by cases hl; rfl, rfl⟩
  labels := by decide

theorem callsWithin : body.CallsWithin 255 := by
  simp [Body.CallsWithin, body, call, Statement.callee?]
  decide

theorem callsNamed : body.CallsNamed Descriptor.Clean := by
  simp [Body.CallsNamed, body, call, Statement.callee?]
  decide

end Drain

namespace ClassDecl

variable {options : Options} {c : ClassDecl} {file : ClassFile}

/-- The depth that a method declares is one word or the greatest on any path through its code, whichever
is more, if the operands of its body have the kinds they should have, no call takes too many arguments and
the descriptors of the called methods can be read. -/
theorem maxStack_isGreatest (hgenerate : c.generate options = .ok file) {i : Nat} {m : MethodDecl}
    {b : Body} (hm : c.methods[i]? = some m) (hbody : m.body? = some b)
    (hinitializer : m.isStaticInitializer = false) (hb : b.KindCorrect) (hcalls : b.CallsWithin 255)
    (hnames : b.CallsNamed Descriptor.Clean) :
    ∃ member code, file.methods[i]? = some member ∧ file.codeOf? member = some code ∧
      IsGreatest {depth | depth = 1 ∨ file.DepthBehind Descriptor.Clean code.code depth}
        code.maxStack.toNat := by
  obtain ⟨q, hgenerated⟩ := generated_of_generate hgenerate
  obtain ⟨member, fields, compiled, hmember, hfields, -, hcompiles, hcode⟩ :=
    hgenerated.exists_compiled hm hbody
  cases hfields hinitializer
  obtain ⟨pool, before, blocks, ending, stackAt, hmeasured⟩ := hcompiles.exists_measured
    (S := fun _ _ => True) hb (fun _ _ _ _ _ _ => trivial) (fun _ => trivial) hnames file
  exact ⟨member, compiled.code, hmember, hcode,
    hmeasured.isGreatest_maxStack hgenerated.pool hb hcalls⟩

/-- The depth that a loop with a call declares. -/
theorem drain_maxStack :
    ∃ file, Drain.owner.generate {} = .ok file ∧ ∃ member code, file.methods[0]? = some member ∧
      file.codeOf? member = some code ∧
      IsGreatest {depth | depth = 1 ∨ file.DepthBehind Descriptor.Clean code.code depth}
        code.maxStack.toNat := by
  obtain ⟨file, hfile⟩ := Drain.exists_file {}
  exact ⟨file, hfile, maxStack_isGreatest hfile (i := 0) (m := Drain.method) rfl rfl (by decide)
    Drain.wellFormed.kindCorrect Drain.callsWithin Drain.callsNamed⟩

end ClassDecl

end Classwright
