import Classwright.Attribute.StackMap
import Classwright.Instruction.Basic

/-!
# Types of locals along the flow of control

For every instruction that can be reached from the first one, the types of the locals on entry to
it: the type that every path leaves in a slot, or `top` where paths disagree.  The states are found
by following a list of instructions whose states have changed until it is empty; `solve` ends
because every change makes a state known or turns at least one slot into `top`.
-/

namespace Classwright

/-- An instruction with the position of the instruction it may branch to. -/
structure Step where
  instr : Instr
  target : Option Nat := none
  deriving Inhabited

abbrev Locals (w : Nat) := Vector VerificationType w

/-- What is known about the slots of a method before its code is followed. -/
structure Layout where
  width : Nat
  /-- The locals on entry to the method. -/
  entry : Locals width
  /-- The declared types, for references that are stored. -/
  declared : Locals width
  /-- The type of the receiver once its constructor has called another one. -/
  initializedThis : Option VerificationType := none

def Layout.empty : Layout where
  width := 0
  entry := #v[]
  declared := #v[]

namespace Flow

def storedType (layout : Layout) (slot : Nat) : Kind → VerificationType
  | .int => .integer
  | .long => .long
  | .float => .float
  | .double => .double
  | .reference => layout.declared[slot]?.getD .top

/-- The locals after an instruction: only stores change them, and a value of a wide type takes the
next slot as well. -/
def applyStore (layout : Layout) (locals : Locals layout.width) : Instr → Locals layout.width
  | .store kind form =>
    let type := storedType layout form.slot kind
    let stored := locals.setIfInBounds form.slot type
    if type.isWide then stored.setIfInBounds (form.slot + 1) .top else stored
  | _ => locals

/-- The locals after the instruction at position `i`, which initializes the receiver if it is
`thisInit`. -/
def transfer (layout : Layout) (thisInit : Option Nat) (i : Nat) (instr : Instr)
    (locals : Locals layout.width) : Locals layout.width :=
  let after := applyStore layout locals instr
  if thisInit = some i then
    match layout.initializedThis with
    | some type => after.setIfInBounds 0 type
    | none => after
  else after

def successors (i : Nat) (step : Step) : List Nat :=
  match step.target with
  | some target => if step.instr.isGoto then [target] else [target, i + 1]
  | none => if step.instr.endsMethod then [] else [i + 1]

def successorsIn (n : Nat) (i : Nat) (step : Step) : List (Fin n) :=
  (successors i step).filterMap fun j => if h : j < n then some ⟨j, h⟩ else none

/-- The type on which two paths agree. -/
def meetType (a b : VerificationType) : VerificationType := if a = b then a else .top

def meet {w : Nat} (a b : Locals w) : Locals w := a.zipWith meetType b

abbrev States (w n : Nat) := Vector (Option (Locals w)) n

/-- Joins the locals `out` into the state at `j`, which is put on the worklist if it changes. -/
def join {w n : Nat} (out : Locals w) (found : States w n × List (Fin n)) (j : Fin n) :
    States w n × List (Fin n) :=
  match found.1[j] with
  | none => (found.1.set j (some out), j :: found.2)
  | some old =>
    let met := meet old out
    if met = old then found else (found.1.set j (some met), j :: found.2)

/-- How many of the types are not `top`. -/
def height : List VerificationType → Nat
  | [] => 0
  | t :: rest => (if t = .top then 0 else 1) + height rest

/-- How often a state can still change. -/
def potential {w : Nat} : Option (Locals w) → Nat
  | none => w + 1
  | some locals => height locals.toList

def totalPotential {w n : Nat} (states : States w n) : Nat :=
  states.toList.foldr (fun state total => potential state + total) 0

theorem height_le_length (types : List VerificationType) :
    height types ≤ types.length := by
  induction types with
  | nil => simp [height]
  | cons t rest ih => simp only [height, List.length_cons]; split <;> omega

private theorem height_zipWith_le (a b : List VerificationType) :
    height (List.zipWith meetType a b) ≤ height a := by
  induction a generalizing b with
  | nil => simp [height]
  | cons x a ih =>
    cases b with
    | nil => simp [height]
    | cons y b =>
      have h := ih b
      simp only [height, List.zipWith_cons_cons, meetType]
      by_cases hxy : x = y
      · simp only [hxy, if_true]; omega
      · simp only [hxy, if_false, if_true]; omega

private theorem height_zipWith_lt (a b : List VerificationType) (hlen : a.length = b.length)
    (hne : List.zipWith meetType a b ≠ a) :
    height (List.zipWith meetType a b) < height a := by
  induction a generalizing b with
  | nil => simp at hne
  | cons x a ih =>
    cases b with
    | nil => simp at hlen
    | cons y b =>
      simp only [List.length_cons, Nat.add_right_cancel_iff] at hlen
      simp only [List.zipWith_cons_cons, height] at hne ⊢
      by_cases hxy : meetType x y = x
      · have htail : List.zipWith meetType a b ≠ a := by
          intro h; exact hne (by rw [hxy, h])
        have h := ih b hlen htail
        rw [hxy]
        omega
      · have hmet : meetType x y = .top := by
          by_cases h : x = y
          · exact absurd (by simp [meetType, h]) hxy
          · simp [meetType, h]
        have htop : x ≠ .top := by
          intro h; exact hxy (by rw [hmet, h])
        have hrest := height_zipWith_le a b
        rw [hmet]
        simp only [if_true, htop, if_false]
        omega

private theorem foldr_add_set {α : Type} (f : α → Nat) (l : List α) (i : Nat) (x : α)
    (h : i < l.length) :
    (l.set i x).foldr (fun a total => f a + total) 0 + f l[i] =
      l.foldr (fun a total => f a + total) 0 + f x := by
  induction l generalizing i with
  | nil => simp at h
  | cons a l ih =>
    cases i with
    | zero => simp; omega
    | succ i =>
      simp only [List.length_cons, Nat.add_lt_add_iff_right] at h
      have := ih i h
      simp only [List.set_cons_succ, List.foldr_cons, List.getElem_cons_succ]
      omega

private theorem totalPotential_set {w n : Nat} (states : States w n) (j : Fin n)
    (x : Option (Locals w)) (h : potential x < potential states[j]) :
    totalPotential (states.set j x) + 1 ≤ totalPotential states := by
  have hj : j.val < states.toList.length := by simp
  have hsum := foldr_add_set potential states.toList j.val x hj
  have hget : states.toList[j.val] = states[j] := by simp
  rw [hget] at hsum
  simp only [totalPotential, Vector.toList_set]
  omega

/-- A change on the worklist is paid for by the potential. -/
theorem join_measure {w n : Nat} (out : Locals w) (found : States w n × List (Fin n))
    (j : Fin n) :
    totalPotential (join out found j).1 + (join out found j).2.length ≤
      totalPotential found.1 + found.2.length := by
  unfold join
  split
  · rename_i hnone
    have hlt : potential (some out) < potential found.1[j] := by
      rw [hnone]
      have := height_le_length out.toList
      simp only [Vector.length_toList] at this
      simp only [potential]
      omega
    have := totalPotential_set found.1 j (some out) hlt
    simp only [List.length_cons]
    omega
  · rename_i old hold
    dsimp only
    split
    · exact Nat.le_refl _
    · rename_i hne
      have hlt : potential (some (meet old out)) < potential found.1[j] := by
        rw [hold]
        simp only [potential, meet, Vector.toList_zipWith]
        refine height_zipWith_lt _ _ (by simp) ?_
        intro h
        apply hne
        apply Vector.toList_inj.mp
        simpa [meet] using h
      have := totalPotential_set found.1 j (some (meet old out)) hlt
      simp only [List.length_cons]
      omega

theorem foldl_join_measure {w n : Nat} (out : Locals w) (js : List (Fin n))
    (found : States w n × List (Fin n)) :
    totalPotential (js.foldl (join out) found).1 + (js.foldl (join out) found).2.length ≤
      totalPotential found.1 + found.2.length := by
  induction js generalizing found with
  | nil => simp
  | cons j js ih =>
    simp only [List.foldl_cons]
    exact Nat.le_trans (ih _) (join_measure out found j)

/-- Follows the positions on the worklist until no state changes any more. -/
def solve {n : Nat} (code : Vector Step n) (layout : Layout) (thisInit : Option Nat)
    (states : States layout.width n) (work : List (Fin n)) : States layout.width n :=
  match work with
  | [] => states
  | i :: rest =>
    match states[i] with
    | none => solve code layout thisInit states rest
    | some locals =>
      let out := transfer layout thisInit i.val code[i].instr locals
      let found := (successorsIn n i.val code[i]).foldl (join out) (states, rest)
      solve code layout thisInit found.1 found.2
termination_by totalPotential states + work.length
decreasing_by
  · simp only [List.length_cons]; omega
  · have := foldl_join_measure (transfer layout thisInit i.val code[i].instr locals)
      (successorsIn n i.val code[i]) (states, rest)
    simp only [List.length_cons] at this ⊢
    omega

/-- The locals on entry to every instruction, `none` where control cannot come. -/
def analyze (code : Array Step) (layout : Layout) (thisInit : Option Nat) :
    States layout.width code.size :=
  let start : States layout.width code.size := Vector.replicate code.size none
  if h : 0 < code.size then
    solve code.toVector layout thisInit (start.set 0 (some layout.entry)) [⟨0, h⟩]
  else start

end Flow

end Classwright
