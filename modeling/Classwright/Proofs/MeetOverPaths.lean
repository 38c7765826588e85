import Classwright.Proofs.Flow
import Mathlib.Logic.Function.Iterate

/-!
# The analysis of locals is the meet over all paths

A path is given by the positions it passes, and every path to an instruction leaves types in the slots.
The analysis has a state for exactly the positions to which a path leads, whatever the layout, and its
state holds the type that all paths to the position leave in a slot, or `top` where there is no such
type.  It is found after as many rounds of the worklist as there are ways for a state to change.
-/

namespace Classwright

namespace Flow

/-- Control can pass the positions `passed`, in this order, and then be at `j`. -/
inductive Path (steps : Array Step) : List Nat → Nat → Prop where
  | start (inside : 0 < steps.size) : Path steps [] 0
  | next {passed : List Nat} {i j : Nat} {step : Step} (path : Path steps passed i)
      (at_ : steps[i]? = some step) (follows : j ∈ successors i step) (inside : j < steps.size) :
      Path steps (passed ++ [i]) j

def pass (steps : Array Step) (layout : Layout) (thisInit : Option Nat)
    (locals : Locals layout.width) (i : Nat) : Locals layout.width :=
  match steps[i]? with
  | some step => transfer layout thisInit i step.instr locals
  | none => locals

/-- What the instructions at the given positions leave of the locals on entry. -/
def along (steps : Array Step) (layout : Layout) (thisInit : Option Nat) (passed : List Nat) :
    Locals layout.width :=
  passed.foldl (pass steps layout thisInit) layout.entry

section Paths

variable {steps : Array Step} {layout : Layout} {thisInit : Option Nat}

theorem along_snoc {passed : List Nat} {i : Nat} {step : Step} (hat : steps[i]? = some step) :
    along steps layout thisInit (passed ++ [i]) =
      transfer layout thisInit i step.instr (along steps layout thisInit passed) := by
  simp [along, pass, hat]

private theorem Path.reaches {passed : List Nat} {j : Nat} (h : Path steps passed j) :
    Reaches steps layout thisInit j (along steps layout thisInit passed) := by
  induction h with
  | start inside => exact .start inside
  | next path at_ follows inside ih =>
    rw [along_snoc at_]
    exact ih.next at_ follows inside

private theorem Reaches.exists_path {j : Nat} {locals : Locals layout.width}
    (h : Reaches steps layout thisInit j locals) :
    ∃ passed, Path steps passed j ∧ along steps layout thisInit passed = locals := by
  induction h with
  | start inside => exact ⟨[], .start inside, rfl⟩
  | @next i j step locals reaches at_ follows inside ih =>
    obtain ⟨passed, hpath, rfl⟩ := ih
    exact ⟨passed ++ [i], hpath.next at_ follows inside, along_snoc at_⟩

theorem exists_localsAt?_iff {j : Nat} :
    (∃ state, localsAt? (analyze steps layout thisInit) j = some state) ↔
      ∃ passed, Path steps passed j := by
  constructor
  · rintro ⟨state, hstate⟩
    obtain ⟨⟨locals, hlocals⟩, -⟩ := justified_of_localsAt? hstate
    obtain ⟨passed, hpath, -⟩ := hlocals.exists_path
    exact ⟨passed, hpath⟩
  · rintro ⟨passed, hpath⟩
    have hreaches : Reaches steps layout thisInit j _ := hpath.reaches
    obtain ⟨state, hstate, -⟩ := hreaches.covered
    exact ⟨state, hstate⟩

private theorem slot_eq_of_agree {j k : Nat} {state : Locals layout.width} (hk : k < layout.width)
    (h : localsAt? (analyze steps layout thisInit) j = some state) {type : VerificationType}
    (hagree : ∀ passed, Path steps passed j → (along steps layout thisInit passed)[k] = type) :
    state[k] = type := by
  have hreach : ∀ locals, Reaches steps layout thisInit j locals → locals[k] = type := by
    intro locals hlocals
    obtain ⟨passed, hpath, rfl⟩ := hlocals.exists_path
    exact hagree passed hpath
  rcases (justified_of_localsAt? h).2 k hk with ⟨locals, hlocals, hsame⟩ | ⟨-, one, other, hone, hother, hne⟩
  · exact hsame.symm.trans (hreach locals hlocals)
  · exact absurd ((hreach one hone).trans (hreach other hother).symm) hne

private theorem agree_of_slot_ne_top {j k : Nat} {state : Locals layout.width} (hk : k < layout.width)
    (h : localsAt? (analyze steps layout thisInit) j = some state) (hne : state[k] ≠ .top)
    {passed : List Nat} (hpath : Path steps passed j) :
    (along steps layout thisInit passed)[k] = state[k] := by
  have hreaches : Reaches steps layout thisInit j _ := hpath.reaches
  obtain ⟨state', hstate', hbelow⟩ := hreaches.covered
  obtain rfl := Option.some.inj (h.symm.trans hstate')
  exact ((hbelow k hk).resolve_left hne).symm

end Paths

section Rounds

variable {n : Nat}

def round (code : Vector Step n) (layout : Layout) (thisInit : Option Nat)
    (found : States layout.width n × List (Fin n)) : States layout.width n × List (Fin n) :=
  match found with
  | (states, []) => (states, [])
  | (states, i :: rest) =>
    (states.get i).elim (states, rest) fun locals =>
      (successorsIn n i.val (code.get i)).foldl
        (join (transfer layout thisInit i.val (code.get i).instr locals)) (states, rest)

theorem iterate_round_nil (code : Vector Step n) (layout : Layout) (thisInit : Option Nat)
    (states : States layout.width n) (k : Nat) :
    (round code layout thisInit)^[k] (states, []) = (states, []) :=
  Function.iterate_fixed rfl k

/-- The worklist is empty after as many rounds as its length and the changes that are left. -/
theorem iterate_round (code : Vector Step n) (layout : Layout) (thisInit : Option Nat)
    (states : States layout.width n) (work : List (Fin n)) :
    ∀ k, totalPotential states + work.length ≤ k →
      (round code layout thisInit)^[k] (states, work) =
        (solve code layout thisInit states work, []) := by
  fun_induction solve code layout thisInit states work with
  | case1 states => exact fun k _ => iterate_round_nil code layout thisInit states k
  | case2 states i rest hnone ih =>
    intro k hk
    rw [List.length_cons] at hk
    obtain ⟨k, rfl⟩ := Nat.exists_eq_add_one.mpr (by omega : 0 < k)
    have hround : round code layout thisInit (states, i :: rest) = (states, rest) := by
      have hget : states.get i = none := hnone
      rw [round, hget, Option.elim_none]
    rw [Function.iterate_succ_apply, hround]
    exact ih k (by omega)
  | case3 states i rest locals hlocals out found ih =>
    intro k hk
    rw [List.length_cons] at hk
    obtain ⟨k, rfl⟩ := Nat.exists_eq_add_one.mpr (by omega : 0 < k)
    have hround : round code layout thisInit (states, i :: rest) = found := by
      have hget : states.get i = some locals := hlocals
      rw [round, hget, Option.elim_some]
      rfl
    have hmeasure := foldl_join_measure out (successorsIn n i.val code[i]) (states, rest)
    rw [Function.iterate_succ_apply, hround]
    exact ih k (Nat.le_trans hmeasure (by dsimp only; omega))

end Rounds

/-- Where the analysis starts: the locals on entry are known, and the first instruction is to be
followed. -/
def initial (steps : Array Step) (layout : Layout) :
    States layout.width steps.size × List (Fin steps.size) :=
  if h : 0 < steps.size then
    ((Vector.replicate steps.size none).set 0 (some layout.entry), [⟨0, h⟩])
  else (Vector.replicate steps.size none, [])

private theorem foldr_potential_replicate (w m : Nat) :
    (List.replicate m (none : Option (Locals w))).foldr (fun state total => potential state + total) 0 =
      m * (w + 1) := by
  induction m with
  | zero => simp
  | succ m ih =>
    rw [List.replicate_succ, List.foldr_cons, ih, potential, Nat.succ_mul]
    omega

/-- Each state can become known once, and then each of its slots can become `top` once. -/
theorem measure_initial (steps : Array Step) (layout : Layout) :
    totalPotential (initial steps layout).1 + (initial steps layout).2.length ≤
      steps.size * (layout.width + 1) := by
  unfold initial
  split
  · rename_i hpos
    obtain ⟨m, hm⟩ := Nat.exists_eq_add_one.mpr hpos
    have hentry := height_le_length layout.entry.toList
    rw [Vector.length_toList] at hentry
    have htotal : totalPotential ((Vector.replicate steps.size
        (none : Option (Locals layout.width))).set 0 (some layout.entry)) =
        height layout.entry.toList + m * (layout.width + 1) := by
      rw [totalPotential, Vector.toList_set, Vector.toList_replicate, hm, List.replicate_succ,
        List.set_cons_zero, List.foldr_cons, foldr_potential_replicate, potential]
    have hbound : steps.size * (layout.width + 1) =
        m * (layout.width + 1) + (layout.width + 1) := by
      rw [hm, Nat.succ_mul]
    rw [htotal, hbound]
    dsimp only [List.length_singleton]
    omega
  · rw [totalPotential, Vector.toList_replicate, foldr_potential_replicate]
    exact Nat.le_refl _

private theorem iterate_round_initial (steps : Array Step) (layout : Layout) (thisInit : Option Nat) :
    (round steps.toVector layout thisInit)^[steps.size * (layout.width + 1)] (initial steps layout) =
      (analyze steps layout thisInit, []) := by
  have hrounds := iterate_round steps.toVector layout thisInit (initial steps layout).1
    (initial steps layout).2 _ (measure_initial steps layout)
  rw [hrounds, analyze]
  by_cases h : 0 < steps.size
  · simp only [initial, dif_pos h]
  · simp only [initial, dif_neg h]
    rw [solve]

/-- The worklist becomes empty, and it leaves the meet over all paths: a state for exactly the
positions that control can reach, with the type that every path leaves in a slot, or `top` if there is
no such type. -/
theorem analyze_meet_over_paths (steps : Array Step) (layout : Layout) (thisInit : Option Nat) :
    (round steps.toVector layout thisInit)^[steps.size * (layout.width + 1)] (initial steps layout) =
        (analyze steps layout thisInit, []) ∧
      ∀ j, ((∃ state, localsAt? (analyze steps layout thisInit) j = some state) ↔
          ∃ passed, Path steps passed j) ∧
        ∀ state, localsAt? (analyze steps layout thisInit) j = some state →
          ∀ k (hk : k < layout.width),
            (∀ type, (∀ passed, Path steps passed j →
              (along steps layout thisInit passed)[k] = type) → state[k] = type) ∧
            ((¬ ∃ type, ∀ passed, Path steps passed j →
              (along steps layout thisInit passed)[k] = type) → state[k] = .top) := by
  refine ⟨iterate_round_initial steps layout thisInit, fun j => ⟨exists_localsAt?_iff, ?_⟩⟩
  intro state hstate k hk
  refine ⟨fun type hagree => slot_eq_of_agree hk hstate hagree, fun hnone => ?_⟩
  by_contra hne
  exact hnone ⟨state[k], fun passed hpath => agree_of_slot_ne_top hk hstate hne hpath⟩

end Flow

end Classwright
