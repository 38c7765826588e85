import Classwright.Proofs.Compilation
import Classwright.Proofs.References

/-!
# Which code is kept

Control comes to all of the code of a statement or to none of it: labels stand between statements only,
and inside the code of one control passes from line to line.  What control can reach is kept, and the
rest gives way to instructions that refer to nothing.
-/

namespace Classwright

/-- On some path from the start of code, control comes to the address. -/
inductive Instr.Visits (code : List UInt8) : Nat → Prop where
  | start : Visits code 0
  | next {address : Nat} {instr : Instr} {rest : List UInt8} (visits : Visits code address)
      (reads : read (code.drop address) = .ok (instr, rest))
      (passes : (instr.endsMethod || instr.isGoto) = false) :
      Visits code (code.length - rest.length)
  | branch {address target : Nat} {when : Jump} {offset : Int16} {rest : List UInt8}
      (visits : Visits code address)
      (reads : read (code.drop address) = .ok (.jump when offset, rest))
      (leads : (address : Int) + offset.toInt = (target : Nat)) : Visits code target

namespace Flow

/-- Code in which all branches name labels and that ends in a return. -/
structure Coded (items : List Item) (steps : Array Step) : Prop where
  resolve : (Draft.ofItems items).resolve = .ok steps
  plain : ∀ {instr : Instr}, .plain instr ∈ Item.lines items → instr.isJump = false
  last : ∃ instr, (Item.lines items).getLast? = some (.plain instr) ∧ instr.endsMethod = true

namespace Coded

variable {items : List Item} {steps : Array Step} (h : Coded items steps) {i : Nat} {step : Step}
include h

theorem size_pos : 0 < steps.size := by
  obtain ⟨instr, hlast, -⟩ := h.last
  rw [size_steps h.resolve]
  exact List.length_pos_of_mem (List.mem_of_getLast? hlast)

section Line

variable (hat : steps[i]? = some step)
include hat

theorem falls_eq : step.falls = !(step.instr.endsMethod || step.instr.isGoto) := by
  obtain ⟨line, hline, hresolves⟩ := resolves_line h.resolve hat
  refine hresolves.falls_eq fun instr hinstr => h.plain ?_
  rw [← hinstr]
  exact List.mem_of_getElem? hline

theorem exists_target {when : Jump} {offset : Int16} (hjump : step.instr = .jump when offset) :
    ∃ (label : Label) (target : Nat), (Draft.ofItems items).placed[label]? = some target ∧
      target < steps.size ∧ step.target = some target ∧
      (address items i : Int) + offset.toInt = address items target := by
  obtain ⟨line, hline, hresolves⟩ := resolves_line h.resolve hat
  cases line with
  | plain instr =>
    have hplain := h.plain (List.mem_of_getElem? hline)
    rw [show step = { instr } from hresolves] at hjump
    rw [show instr = _ from hjump] at hplain
    cases hplain
  | branch when' label =>
    obtain ⟨target, offset', hplaced, hlt, rfl, haddress⟩ :=
      resolves_branch h.resolve (List.getElem?_eq_some_iff.mp hline).1 hresolves
    cases hjump
    exact ⟨label, target, hplaced, hlt, rfl, haddress⟩

theorem exists_jump {target : Nat} (htarget : step.target = some target) :
    ∃ when offset, step.instr = .jump when offset := by
  obtain ⟨line, hline, hresolves⟩ := resolves_line h.resolve hat
  cases line with
  | plain instr =>
    rw [show step = { instr } from hresolves] at htarget
    cases htarget
  | branch when label =>
    obtain ⟨target, -, -, -, -, rfl⟩ := hresolves
    exact ⟨when, _, rfl⟩

theorem lt_of_falls (hfalls : step.falls = true) : i + 1 < steps.size := by
  have hlt := (Array.getElem?_eq_some_iff.mp hat).1
  refine Nat.lt_of_le_of_ne hlt fun hend => ?_
  obtain ⟨instr, hlast, hends⟩ := h.last
  obtain ⟨line, hline, hresolves⟩ := resolves_line h.resolve hat
  rw [List.getLast?_eq_getElem?, ← size_steps h.resolve, ← hend, Nat.add_sub_cancel, hline] at hlast
  cases hlast
  rw [h.falls_eq hat, show step = { instr } from hresolves, hends] at hfalls
  cases hfalls

end Line

variable {layout : Layout} {thisInit : Option Nat}

private theorem falls_of_plain {instr : Instr} (hline : (Item.lines items)[i]? = some (.plain instr))
    (hends : instr.endsMethod = false) : ∃ step, steps[i]? = some step ∧ step.falls = true := by
  have hlt : i < steps.size := by
    rw [size_steps h.resolve]
    exact (List.getElem?_eq_some_iff.mp hline).1
  have hat := Array.getElem?_eq_getElem hlt
  obtain ⟨line, hline', hresolves⟩ := resolves_line h.resolve hat
  rw [hline] at hline'
  cases hline'
  refine ⟨steps[i], hat, ?_⟩
  rw [show steps[i] = { instr } from hresolves]
  simp [Step.falls, hends]

private theorem exists_localsAt?_succ {instr : Instr}
    (hline : (Item.lines items)[i]? = some (.plain instr))
    (hends : instr.endsMethod = false) {state : Locals layout.width}
    (hstate : localsAt? (analyze steps layout thisInit) i = some state) :
    ∃ next, localsAt? (analyze steps layout thisInit) (i + 1) = some next := by
  obtain ⟨step, hat, hfalls⟩ := h.falls_of_plain hline hends
  obtain ⟨next, hnext, -⟩ := below_transfer hstate hat (mem_successors.mpr (.inr ⟨hfalls, rfl⟩))
    (h.lt_of_falls hat hfalls)
  exact ⟨next, hnext⟩

private theorem exists_localsAt? {k : Nat} (hpasses : ∀ i < k, ∃ instr : Instr,
      (Item.lines items)[i]? = some (.plain instr) ∧ instr.endsMethod = false) :
    ∃ state, localsAt? (analyze steps layout thisInit) k = some state := by
  induction k with
  | zero =>
    obtain ⟨state, hstate, -⟩ := Reaches.covered (.start h.size_pos)
    exact ⟨state, hstate⟩
  | succ k ih =>
    obtain ⟨state, hstate⟩ := ih fun i hi => hpasses i (Nat.lt_succ_of_lt hi)
    obtain ⟨instr, hline, hends⟩ := hpasses k (Nat.lt_succ_self k)
    exact h.exists_localsAt?_succ hline hends hstate

/-- Paths through the bytes are paths through the lines. -/
theorem reaches_of_visits {a : Nat} (hvisits : Instr.Visits (codeOf steps layout thisInit) a) :
    ∃ i locals, Reaches steps layout thisInit i locals ∧ a = address items i := by
  induction hvisits with
  | start => exact ⟨0, layout.entry, .start h.size_pos, rfl⟩
  | next visits reads passes ih =>
    obtain ⟨i, locals, hreaches, rfl⟩ := ih
    obtain ⟨step, hat⟩ := hreaches.exists_step
    rw [read_codeOf h.resolve hreaches hat] at reads
    cases reads
    have hfalls := h.falls_eq hat
    rw [passes] at hfalls
    exact ⟨i + 1, _, .next hreaches hat (mem_successors.mpr (.inr ⟨hfalls, rfl⟩))
      (h.lt_of_falls hat hfalls), length_sub_drop h.resolve i⟩
  | branch visits reads leads ih =>
    obtain ⟨i, locals, hreaches, rfl⟩ := ih
    obtain ⟨step, hat⟩ := hreaches.exists_step
    rw [read_codeOf h.resolve hreaches hat] at reads
    cases hinstr : step.instr <;> rw [hinstr] at reads <;> cases reads
    obtain ⟨label, target, -, hinside, htarget, hleads⟩ := h.exists_target hat hinstr
    exact ⟨target, _, .next hreaches hat (mem_successors.mpr (.inl htarget)) hinside, by omega⟩

end Coded

end Flow

/-- An instruction of one byte that stands where control does not come. -/
def Instr.isFiller : Instr → Bool
  | nop | athrow => true
  | _ => false

/-- What stands in the code for each line: the line itself or, if it is flagged, instructions of one
byte, the last of which throws where the stretch ends. -/
def filled : List (Instr × Bool) → List (List Instr)
  | [] => []
  | (instr, false) :: rest => [instr] :: filled rest
  | (instr, true) :: rest =>
    (if rest.head?.map Prod.snd = some true then List.replicate instr.size .nop
      else throwing instr.size) :: filled rest

private theorem throwing_add (pending : Nat) {size : Nat} (h : 0 < size) :
    throwing (pending + size) = List.replicate pending .nop ++ throwing size := by
  cases size with
  | zero => cases h
  | succ size =>
    rw [← Nat.add_assoc, throwing, throwing, List.replicate_add, List.append_assoc]

theorem neutralized_eq_flatten (pending : Nat) (code : List (Instr × Bool)) :
    neutralized pending code =
      (if code.head?.map Prod.snd = some true then List.replicate pending .nop
        else throwing pending) ++ (filled code).flatten := by
  induction code generalizing pending with
  | nil => simp [neutralized, filled]
  | cons head rest ih =>
    obtain ⟨instr, dead⟩ := head
    cases dead with
    | false =>
      have hrest := ih 0
      simp only [List.replicate_zero, throwing, ite_self, List.nil_append] at hrest
      simp [neutralized, filled, hrest]
    | true =>
      rw [neutralized, ih, filled, List.flatten_cons, List.head?_cons, Option.map_some, if_pos rfl,
        ← List.append_assoc]
      split
      · rw [List.replicate_add]
      · rw [throwing_add pending instr.size_pos]

private theorem isFiller_of_mem_throwing {size : Nat} {i : Instr} (h : i ∈ throwing size) :
    i.isFiller = true := by
  cases size with
  | zero => cases h
  | succ size =>
    rcases List.mem_append.mp h with h | h
    · rw [List.eq_of_mem_replicate h]
      rfl
    · rw [List.mem_singleton.mp h]
      rfl

def Replaces (line : Instr × Bool) (piece : List Instr) : Prop :=
  (line.2 = false → piece = [line.1]) ∧ (line.2 = true → ∀ i ∈ piece, i.isFiller = true) ∧
    (Instr.encodeAll piece).length = line.1.size

theorem forall₂_filled (code : List (Instr × Bool)) : List.Forall₂ Replaces code (filled code) := by
  induction code with
  | nil => exact .nil
  | cons head rest ih =>
    obtain ⟨instr, dead⟩ := head
    cases dead with
    | false =>
      refine .cons ⟨fun _ => rfl, Bool.noConfusion, ?_⟩ ih
      rw [Instr.encodeAll, List.flatMap_singleton, Instr.length_encode]
    | true =>
      refine .cons ⟨Bool.noConfusion, fun _ => ?_, ?_⟩ ih
      · intro i hi
        split at hi
        · rw [List.eq_of_mem_replicate hi]
          rfl
        · exact isFiller_of_mem_throwing hi
      · split
        · have hnops : (Instr.encodeAll (List.replicate instr.size .nop)).length = instr.size := by
            have hthrowing := length_encodeAll_throwing (instr.size + 1)
            rw [throwing, Instr.encodeAll_append, List.length_append] at hthrowing
            exact Nat.succ.inj hthrowing
          exact hnops
        · exact length_encodeAll_throwing instr.size

private theorem forall₂_filled_slice (code : List (Instr × Bool)) (start count : Nat) :
    List.Forall₂ Replaces ((code.drop start).take count) (((filled code).drop start).take count) :=
  List.forall₂_take count (List.forall₂_drop start (forall₂_filled code))

theorem length_encodeAll_flatten {code : List (Instr × Bool)} {pieces : List (List Instr)}
    (h : List.Forall₂ Replaces code pieces) :
    (Instr.encodeAll pieces.flatten).length = Instr.totalSize code := by
  induction h with
  | nil => rfl
  | cons hpiece _ ih =>
    rw [List.flatten_cons, Instr.encodeAll_append, List.length_append, ih, hpiece.2.2,
      Instr.totalSize]

private theorem flatten_of_live {code : List (Instr × Bool)} {pieces : List (List Instr)}
    (h : List.Forall₂ Replaces code pieces) (hlive : ∀ x ∈ code, x.2 = false) :
    pieces.flatten = code.map Prod.fst := by
  induction h with
  | nil => rfl
  | cons hpiece _ ih =>
    obtain ⟨hhead, htail⟩ := List.forall_mem_cons.mp hlive
    rw [List.flatten_cons, hpiece.1 hhead, ih htail]
    rfl

private theorem isFiller_of_dead {code : List (Instr × Bool)} {pieces : List (List Instr)}
    (h : List.Forall₂ Replaces code pieces) (hdead : ∀ x ∈ code, x.2 = true) :
    ∀ i ∈ pieces.flatten, i.isFiller = true := by
  intro i hi
  obtain ⟨piece, hpiece, hi⟩ := List.mem_flatten.mp hi
  obtain ⟨x, hx, hreplaces⟩ := exists_left_of_forall₂ h hpiece
  exact hreplaces.2.1 (hdead x hx) i hi

def Line.Resolved (line : Line) (instr : Instr) : Prop :=
  line = .plain instr ∨ ∃ when label offset, line = .branch when label ∧ instr = .jump when offset

namespace Writes

variable {p : Pool} {lines : List Line} {uses : List (Access × Pool.Request)}

theorem stays (h : Writes p lines uses) {k : Nat} {line : Line} (hline : lines[k]? = some line)
    (hlast : k + 1 < lines.length) :
    ∃ instr, line = .plain instr ∧ instr.isJump = false ∧ instr.endsMethod = false := by
  induction h generalizing k with
  | nil => cases hlast
  | leave silent => simp at hlast
  | @step instr lines used uses jump ends suits accesses rest ih =>
    cases k with
    | zero =>
      cases hline
      exact ⟨instr, rfl, jump, ends⟩
    | succ k => exact ih hline (Nat.lt_of_succ_lt_succ hlast)

theorem suits_of_resolved (h : Writes p lines uses) {line : Line} (hline : line ∈ lines) {instr : Instr}
    (hinstr : line.Resolved instr) : p.Suits instr := by
  rcases hinstr with rfl | ⟨when, label, offset, -, rfl⟩
  · induction h with
    | nil => cases hline
    | leave silent => exact Pool.suits_of_operand? (silent instr (List.mem_singleton.mp hline).symm)
    | step jump ends suits accesses rest ih =>
      rcases List.mem_cons.mp hline with heq | hline
      · cases heq
        exact suits
      · exact ih hline
  · exact Pool.suits_of_operand? rfl

theorem accesses_of_resolved (h : Writes p lines uses) {instrs : List Instr}
    (hinstrs : List.Forall₂ Line.Resolved lines instrs) : p.Accesses instrs uses := by
  induction h generalizing instrs with
  | nil =>
    cases hinstrs
    exact .nil
  | leave silent =>
    obtain ⟨instr, rest, hinstr, hrest, rfl⟩ := List.forall₂_cons_left_iff.mp hinstrs
    cases hrest
    refine Pool.accesses_of_operand? ?_
    rcases hinstr with rfl | ⟨when, label, offset, -, rfl⟩
    · exact silent instr rfl
    · rfl
  | step jump ends suits accesses _ ih =>
    obtain ⟨instr, rest, hinstr, hrest, rfl⟩ := List.forall₂_cons_left_iff.mp hinstrs
    rcases hinstr with heq | ⟨when, label, offset, heq, -⟩
    · cases heq
      exact accesses.append (ih hrest)
    · cases heq

end Writes

def Item.Passes (items : List Item) : Prop :=
  ∀ line ∈ lines items, ∃ instr : Instr, line = .plain instr ∧ instr.endsMethod = false

namespace Flow.Coded

variable {parts : List (List Item)} {steps : Array Step}
  (h : Coded ([] ++ parts.flatten ++ []) steps)
  (hmarks : ∀ part ∈ parts, ∀ label, Item.mark label ∈ part → part = [.mark label])
  {layout : Layout} {thisInit : Option Nat} {n : Nat} {part : List Item} (hpart : parts[n]? = some part)
  {p : Pool} {uses : List (Access × Pool.Request)} (hwrites : Writes p (Item.lines part) uses)

include h in
private theorem forall₂_resolved : List.Forall₂ Line.Resolved (Item.lines ([] ++ parts.flatten ++ []))
    (steps.toList.map Step.instr) := by
  have hsize := size_steps h.resolve
  refine List.forall₂_iff_get.mpr ⟨by simp [hsize], fun i hi hi' => ?_⟩
  have hat : steps[i]? = some _ := Array.getElem?_eq_getElem (by omega)
  obtain ⟨line, hline, hresolves⟩ := resolves_line h.resolve hat
  rw [List.getElem?_eq_getElem hi] at hline
  cases hline
  simp only [List.get_eq_getElem, List.getElem_map, Array.getElem_toList]
  cases hfound : (Item.lines ([] ++ parts.flatten ++ []))[i] with
  | plain instr =>
    rw [hfound] at hresolves
    exact .inl (by rw [show steps[i] = { instr } from hresolves])
  | branch when label =>
    rw [hfound] at hresolves
    obtain ⟨target, -, -, -, -, heq⟩ := hresolves
    exact .inr ⟨when, label, _, rfl, by rw [heq]⟩

include h hmarks hpart hwrites in
private theorem isSome_localsAt? {k : Nat} (hk : k < (Item.lines part).length) :
    (localsAt? (analyze steps layout thisInit) (Lower.startLine [] parts n + k)).isSome =
      (localsAt? (analyze steps layout thisInit) (Lower.startLine [] parts n)).isSome := by
  induction k with
  | zero => rfl
  | succ k ih =>
    rw [← ih (Nat.lt_of_succ_lt hk), ← Nat.add_assoc]
    have hline := List.getElem?_eq_getElem (Nat.lt_of_succ_lt hk)
    obtain ⟨instr, hplain, hjump, hends⟩ := hwrites.stays hline hk
    rw [hplain] at hline
    have hline : (Item.lines ([] ++ parts.flatten ++ []))[Lower.startLine [] parts n + k]? = _ :=
      Lower.lines_block hpart hline
    rw [Bool.eq_iff_iff, Option.isSome_iff_exists, Option.isSome_iff_exists]
    constructor
    · rintro ⟨state, hstate⟩
      apply Classical.byContradiction
      intro hdead
      obtain ⟨i, step, state', -, hat', htarget⟩ := targeted_of_not_falls hstate fun before _ hbefore =>
        absurd ⟨before, hbefore⟩ hdead
      -- a label would stand inside the part
      obtain ⟨when, offset, hinstr⟩ := h.exists_jump hat' htarget
      obtain ⟨label, target, hplaced, -, htarget', -⟩ := h.exists_target hat' hinstr
      rw [htarget] at htarget'
      cases htarget'
      obtain ⟨n', -, hstart⟩ := Lower.exists_startLine_of_mark hmarks (by simp) (by simp) hplaced
      have hnext : Lower.startLine [] parts (n + 1) = _ := Lower.startLine_succ hpart
      rcases Nat.lt_or_ge n n' with hlt' | hle
      · have hmono : Lower.startLine [] parts (n + 1) ≤ Lower.startLine [] parts n' :=
          Lower.startLine_mono [] parts hlt'
        omega
      · have hmono := Lower.startLine_mono [] parts hle
        omega
    · rintro ⟨state, hstate⟩
      exact h.exists_localsAt?_succ hline hends hstate

def segment (parts : List (List Item)) (pieces : List (List Instr)) (n : Nat) : List Instr :=
  ((pieces.drop (Lower.startLine [] parts n)).take
    (Lower.startLine [] parts (n + 1) - Lower.startLine [] parts n)).flatten

theorem flatten_segments (pieces : List (List Instr)) (n : Nat) :
    ((List.range n).map (segment parts pieces)).flatten =
      (pieces.take (Lower.startLine [] parts n)).flatten := by
  induction n with
  | zero => rfl
  | succ n ih =>
    have hmono : Lower.startLine [] parts n ≤ Lower.startLine [] parts (n + 1) :=
      Lower.startLine_mono [] parts (Nat.le_succ n)
    rw [List.range_succ, List.map_append, List.flatten_append, ih, List.map_singleton,
      List.flatten_singleton, segment, ← List.flatten_append, ← List.take_add,
      Nat.add_sub_cancel' hmono]

include h in
theorem length_segments (n : Nat) :
    (Instr.encodeAll ((List.range n).map
        (segment parts (filled (flagged steps layout thisInit)))).flatten).length =
      address ([] ++ parts.flatten ++ []) (Lower.startLine [] parts n) := by
  rw [flatten_segments, length_encodeAll_flatten (List.forall₂_take _ (forall₂_filled _)), flagged,
    Assembly.totalSize_take h.resolve (by simp), Draft.lines_ofItems]
  rfl

include h in
theorem exists_localsAt?_startLine (hpasses : ∀ part ∈ parts.take n, Item.Passes part) :
    ∃ state, localsAt? (analyze steps layout thisInit) (Lower.startLine [] parts n) = some state := by
  refine h.exists_localsAt? fun i hi => ?_
  rw [Lower.startLine, List.nil_append] at hi
  have hline := List.getElem?_eq_getElem hi
  generalize (Item.lines (parts.take n).flatten)[i] = line at hline
  have hmem := List.mem_of_getElem? hline
  rw [Item.lines_flatten] at hmem
  obtain ⟨_, hlines, hmem⟩ := List.mem_flatten.mp hmem
  obtain ⟨part, hpart, rfl⟩ := List.mem_map.mp hlines
  obtain ⟨instr, rfl, hends⟩ := hpasses part hpart line hmem
  refine ⟨instr, ?_, hends⟩
  rw [List.nil_append, List.append_nil, ← List.take_append_drop n parts, List.flatten_append,
    Item.lines_append, List.getElem?_append_left hi, hline]

include hpart in
private theorem lines_part :
    ((Item.lines ([] ++ parts.flatten ++ [])).drop (Lower.startLine [] parts n)).take
    (Lower.startLine [] parts (n + 1) - Lower.startLine [] parts n) = Item.lines part := by
  rw [Lower.startLine_succ hpart, Nat.add_sub_cancel_left, Lower.split_at hpart, Item.lines_append,
    Lower.startLine, List.drop_left, Item.lines_append, List.take_left]

include h hmarks hpart hwrites in
private theorem flag_eq {x : Instr × Bool} (hx : x ∈ ((flagged steps layout thisInit).drop
    (Lower.startLine [] parts n)).take
      (Lower.startLine [] parts (n + 1) - Lower.startLine [] parts n)) :
    x.2 = (localsAt? (analyze steps layout thisInit) (Lower.startLine [] parts n)).isNone := by
  obtain ⟨k, hk⟩ := List.mem_iff_getElem?.mp hx
  rw [Lower.startLine_succ hpart, Nat.add_sub_cancel_left, List.getElem?_take] at hk
  split at hk
  · rename_i hlt
    rw [List.getElem?_drop] at hk
    rw [← (getElem?_flagged.mp hk).2, ← Option.not_isSome, ← Option.not_isSome,
      h.isSome_localsAt? hmarks hpart hwrites hlt]
  · cases hk

include h hmarks hpart hwrites in
theorem segment_of_live {state : Locals layout.width}
    (hstart : localsAt? (analyze steps layout thisInit) (Lower.startLine [] parts n) = some state) :
    List.Forall₂ Line.Resolved (Item.lines part)
      (segment parts (filled (flagged steps layout thisInit)) n) := by
  have hflags : ∀ x ∈ ((flagged steps layout thisInit).drop (Lower.startLine [] parts n)).take
      (Lower.startLine [] parts (n + 1) - Lower.startLine [] parts n), x.2 = false := by
    intro x hx
    rw [h.flag_eq hmarks hpart hwrites hx, hstart]
    rfl
  have hpieces := forall₂_filled_slice (flagged steps layout thisInit) (Lower.startLine [] parts n)
    (Lower.startLine [] parts (n + 1) - Lower.startLine [] parts n)
  have hinstrs : (flagged steps layout thisInit).map Prod.fst = steps.toList.map Step.instr := by
    rw [flagged, List.map_fst_zip]
    simp
  have hresolved := List.forall₂_take
    (Lower.startLine [] parts (n + 1) - Lower.startLine [] parts n)
    (List.forall₂_drop (Lower.startLine [] parts n) h.forall₂_resolved)
  rw [lines_part hpart] at hresolved
  rw [segment, flatten_of_live hpieces hflags, List.map_take, List.map_drop, hinstrs]
  exact hresolved

include h hmarks hpart hwrites in
/-- A part is kept as it is, or control does not come to it and instructions of one byte stand for
it. -/
theorem segment_cases :
    List.Forall₂ Line.Resolved (Item.lines part)
        (segment parts (filled (flagged steps layout thisInit)) n) ∨
      (∀ i ∈ segment parts (filled (flagged steps layout thisInit)) n, i.isFiller = true) ∧
        ¬ Instr.Visits (codeOf steps layout thisInit)
          (address ([] ++ parts.flatten ++ []) (Lower.startLine [] parts n)) := by
  cases hstart : localsAt? (analyze steps layout thisInit) (Lower.startLine [] parts n) with
  | some state => exact .inl (h.segment_of_live hmarks hpart hwrites hstart)
  | none =>
    have hflags : ∀ x ∈ ((flagged steps layout thisInit).drop (Lower.startLine [] parts n)).take
        (Lower.startLine [] parts (n + 1) - Lower.startLine [] parts n), x.2 = true := by
      intro x hx
      rw [h.flag_eq hmarks hpart hwrites hx, hstart]
      rfl
    have hpieces := forall₂_filled_slice (flagged steps layout thisInit) (Lower.startLine [] parts n)
      (Lower.startLine [] parts (n + 1) - Lower.startLine [] parts n)
    refine .inr ⟨isFiller_of_dead hpieces hflags, fun hvisits => ?_⟩
    obtain ⟨i, locals, hreaches, haddress⟩ := h.reaches_of_visits hvisits
    obtain ⟨state, hstate, -⟩ := hreaches.covered
    have hi := hreaches.lt
    rw [size_steps h.resolve] at hi
    have hle : Lower.startLine [] parts n ≤ (Item.lines ([] ++ parts.flatten ++ [])).length := by
      rw [Lower.split_at hpart, Item.lines_append, List.length_append, Lower.startLine]
      exact Nat.le_add_right _ _
    -- no two lines have the same address
    rcases Nat.lt_trichotomy i (Lower.startLine [] parts n) with hlt | rfl | hlt
    · have htotal := Line.total_take_lt hlt hle
      unfold address at haddress
      omega
    · rw [hstart] at hstate
      cases hstate
    · have htotal := Line.total_take_lt hlt (Nat.le_of_lt hi)
      unfold address at haddress
      omega

end Flow.Coded

end Classwright
