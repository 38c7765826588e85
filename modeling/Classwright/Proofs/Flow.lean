import Classwright.Generate.Assembly

/-!
# The analysis of locals is exact

Following the code from its entry, every path gives each instruction it reaches types of the
locals.  The analysis finds a state for exactly the instructions that some path reaches, and in it
the type on which all paths agree, or `top` where one has it or two disagree.
-/

namespace Classwright

namespace Flow

/-- Some path from the entry of the code reaches the instruction with the given locals. -/
inductive Reaches (steps : Array Step) (layout : Layout) (thisInit : Option Nat) :
    Nat → Locals layout.width → Prop where
  | start (h : 0 < steps.size) : Reaches steps layout thisInit 0 layout.entry
  | next {i j : Nat} {step : Step} {locals : Locals layout.width}
      (reaches : Reaches steps layout thisInit i locals) (at_ : steps[i]? = some step)
      (follows : j ∈ successors i step) (inside : j < steps.size) :
      Reaches steps layout thisInit j (transfer layout thisInit i step.instr locals)

/-- Every type of `a` is `top` or that of `b`. -/
def Below {w : Nat} (a b : Locals w) : Prop :=
  ∀ k (h : k < w), a[k] = .top ∨ a[k] = b[k]

section Below

variable {w : Nat} {a b c : Locals w}

theorem Below.refl (a : Locals w) : Below a a := fun _ _ => .inr rfl

theorem Below.trans (hab : Below a b) (hbc : Below b c) : Below a c := by
  intro k hk
  rcases hab k hk with h | h
  · exact .inl h
  · rw [h]
    exact hbc k hk

theorem below_meet_left (a b : Locals w) : Below (meet a b) a := by
  intro k hk
  simp only [meet, Vector.getElem_zipWith, meetType]
  split
  · exact .inr rfl
  · exact .inl rfl

theorem below_meet_right (a b : Locals w) : Below (meet a b) b := by
  intro k hk
  simp only [meet, Vector.getElem_zipWith, meetType]
  split
  · rename_i h
    exact .inr h
  · exact .inl rfl

end Below

/-- An instruction leaves the type of each slot alone or sets it, whatever it was. -/
theorem transfer_slot (layout : Layout) (thisInit : Option Nat) (i : Nat) (instr : Instr) (k : Nat)
    (hk : k < layout.width) :
    (∀ locals, (transfer layout thisInit i instr locals)[k] = locals[k]) ∨
      ∃ type, ∀ locals, (transfer layout thisInit i instr locals)[k] = type := by
  have hstore : (∀ locals, (applyStore layout locals instr)[k] = locals[k]) ∨
      ∃ type, ∀ locals, (applyStore layout locals instr)[k] = type := by
    cases instr with
    | store kind form =>
      by_cases hnext : (storedType layout form.slot kind).isWide = true ∧ form.slot + 1 = k
      · exact .inr ⟨.top, fun locals => by simp [applyStore, hnext]⟩
      · have hother : ∀ locals, (applyStore layout locals (.store kind form))[k] =
            (locals.setIfInBounds form.slot (storedType layout form.slot kind))[k] := by
          intro locals
          by_cases hwide : (storedType layout form.slot kind).isWide = true
          · have hne : form.slot + 1 ≠ k := fun h => hnext ⟨hwide, h⟩
            simp [applyStore, hwide, Vector.getElem_setIfInBounds, hne]
          · simp [applyStore, hwide]
        by_cases hslot : form.slot = k
        · subst hslot
          exact .inr ⟨storedType layout form.slot kind, fun locals => by simp [hother]⟩
        · exact .inl fun locals => by
            rw [hother, Vector.getElem_setIfInBounds, if_neg hslot]
    | _ => exact .inl fun _ => rfl
  unfold transfer
  by_cases hinit : thisInit = some i
  · simp only [hinit, if_true]
    cases layout.initializedThis with
    | none => exact hstore
    | some type =>
      by_cases hzero : 0 = k
      · subst hzero
        exact .inr ⟨type, fun locals => by simp⟩
      · simpa [Vector.getElem_setIfInBounds, hzero] using hstore
  · simpa [hinit] using hstore

theorem Below.transfer {layout : Layout} {a b : Locals layout.width} (h : Below a b)
    (thisInit : Option Nat) (i : Nat) (instr : Instr) :
    Below (transfer layout thisInit i instr a) (transfer layout thisInit i instr b) := by
  intro k hk
  rcases transfer_slot layout thisInit i instr k hk with hsame | ⟨type, hset⟩
  · rw [hsame, hsame]
    exact h k hk
  · exact .inr (by rw [hset, hset])

section Solve

variable {steps : Array Step} {layout : Layout} {thisInit : Option Nat}

/-- The paths to an instruction account for the types of a state. -/
def Justified (steps : Array Step) (layout : Layout) (thisInit : Option Nat) (j : Nat)
    (state : Locals layout.width) : Prop :=
  (∃ locals, Reaches steps layout thisInit j locals) ∧
    ∀ k (h : k < layout.width),
      (∃ locals, Reaches steps layout thisInit j locals ∧ locals[k] = state[k]) ∨
        (state[k] = .top ∧ ∃ one other, Reaches steps layout thisInit j one ∧
          Reaches steps layout thisInit j other ∧ one[k] ≠ other[k])

private theorem Reaches.justified {j : Nat} {locals : Locals layout.width}
    (h : Reaches steps layout thisInit j locals) : Justified steps layout thisInit j locals :=
  ⟨⟨locals, h⟩, fun _ _ => .inl ⟨locals, h, rfl⟩⟩

theorem Justified.transfer {i j : Nat} {step : Step} {state : Locals layout.width}
    (h : Justified steps layout thisInit i state) (hat : steps[i]? = some step)
    (hfollows : j ∈ successors i step) (hinside : j < steps.size) :
    Justified steps layout thisInit j (Flow.transfer layout thisInit i step.instr state) := by
  obtain ⟨⟨start, hstart⟩, hslots⟩ := h
  refine ⟨⟨_, hstart.next hat hfollows hinside⟩, fun k hk => ?_⟩
  rcases transfer_slot layout thisInit i step.instr k hk with hsame | ⟨type, hset⟩
  · rcases hslots k hk with ⟨locals, hlocals, heq⟩ | ⟨htop, one, other, hone, hother, hne⟩
    · exact .inl ⟨_, hlocals.next hat hfollows hinside, by rw [hsame, hsame, heq]⟩
    · refine .inr ⟨by rw [hsame, htop], _, _, hone.next hat hfollows hinside,
        hother.next hat hfollows hinside, ?_⟩
      rw [hsame, hsame]
      exact hne
  · exact .inl ⟨_, hstart.next hat hfollows hinside, by rw [hset, hset]⟩

theorem Justified.meet {j : Nat} {a b : Locals layout.width}
    (ha : Justified steps layout thisInit j a) (hb : Justified steps layout thisInit j b) :
    Justified steps layout thisInit j (Flow.meet a b) := by
  refine ⟨ha.1, fun k hk => ?_⟩
  simp only [Flow.meet, Vector.getElem_zipWith, meetType]
  split
  · exact ha.2 k hk
  · rename_i hne
    rcases ha.2 k hk with ⟨one, hone, hone'⟩ | ⟨-, hdiffer⟩
    · rcases hb.2 k hk with ⟨other, hother, hother'⟩ | ⟨-, hdiffer⟩
      · exact .inr ⟨rfl, one, other, hone, hother, by rw [hone', hother']; exact hne⟩
      · exact .inr ⟨rfl, hdiffer⟩
    · exact .inr ⟨rfl, hdiffer⟩

/-- What joining into states does: nothing is forgotten, states only fall, and what has changed is on
the worklist. -/
structure Advances {w n : Nat} (found found' : States w n × List (Fin n)) : Prop where
  work : ∀ j ∈ found.2, j ∈ found'.2
  falls : ∀ j old, found.1.get j = some old → ∃ new, found'.1.get j = some new ∧ Below new old
  changed : ∀ j, found'.1.get j ≠ found.1.get j → j ∈ found'.2

theorem Advances.refl {w n : Nat} (found : States w n × List (Fin n)) : Advances found found where
  work := fun _ h => h
  falls := fun _ old h => ⟨old, h, .refl old⟩
  changed := fun _ h => absurd rfl h

theorem Advances.trans {w n : Nat} {a b c : States w n × List (Fin n)} (hab : Advances a b)
    (hbc : Advances b c) : Advances a c where
  work := fun j h => hbc.work j (hab.work j h)
  falls := by
    intro j old h
    obtain ⟨middle, hmiddle, hbelow⟩ := hab.falls j old h
    obtain ⟨new, hnew, hbelow'⟩ := hbc.falls j middle hmiddle
    exact ⟨new, hnew, hbelow'.trans hbelow⟩
  changed := by
    intro j hne
    by_cases hstep : c.1.get j = b.1.get j
    · exact hbc.work j (hab.changed j (hstep ▸ hne))
    · exact hbc.changed j hstep

theorem get_set {w n : Nat} (states : States w n) (j k : Fin n) (state : Option (Locals w)) :
    (states.set j.val state j.isLt).get k = if j = k then state else states.get k := by
  simp only [Fin.ext_iff]
  exact Vector.getElem_set j.isLt k.isLt

private theorem advances_set {w n : Nat} (found : States w n × List (Fin n)) (j : Fin n) {new : Locals w}
    (h : ∀ old, found.1.get j = some old → Below new old) :
    Advances found (found.1.set j.val (some new) j.isLt, j :: found.2) where
  work := fun _ h => List.mem_cons_of_mem _ h
  falls := by
    intro k old hold
    rw [get_set]
    by_cases hk : j = k
    · subst hk
      exact ⟨new, if_pos rfl, h old hold⟩
    · exact ⟨old, by rw [if_neg hk, hold], .refl old⟩
  changed := by
    intro k hne
    rw [get_set] at hne
    by_cases hk : j = k
    · exact hk ▸ List.mem_cons_self
    · rw [if_neg hk] at hne
      exact absurd rfl hne

private theorem advances_join {w n : Nat} (out : Locals w) (found : States w n × List (Fin n))
    (j : Fin n) :
    Advances found (join out found j) ∧
      ∃ new, (join out found j).1.get j = some new ∧ Below new out := by
  unfold join
  split
  · rename_i hnone
    refine ⟨advances_set found j fun old hold => ?_, out, by rw [get_set, if_pos rfl], .refl out⟩
    cases hnone.symm.trans hold
  · rename_i old hold
    dsimp only
    split
    · rename_i hmeet
      exact ⟨.refl found, old, hold, hmeet ▸ below_meet_right old out⟩
    · refine ⟨advances_set found j fun old' hold' => ?_, meet old out, by rw [get_set, if_pos rfl],
        below_meet_right old out⟩
      cases hold.symm.trans hold'
      exact below_meet_left old out

private theorem advances_foldl_join {w n : Nat} (out : Locals w) (js : List (Fin n))
    (found : States w n × List (Fin n)) :
    Advances found (js.foldl (join out) found) ∧
      ∀ j ∈ js, ∃ new, (js.foldl (join out) found).1.get j = some new ∧ Below new out := by
  induction js generalizing found with
  | nil => exact ⟨.refl found, by simp⟩
  | cons j js ih =>
    obtain ⟨hfirst, new, hnew, hbelow⟩ := advances_join out found j
    obtain ⟨hrest, hjs⟩ := ih (join out found j)
    refine ⟨hfirst.trans hrest, fun k hk => ?_⟩
    rcases List.mem_cons.mp hk with rfl | hk
    · obtain ⟨last, hlast, hbelow'⟩ := hrest.falls _ new hnew
      exact ⟨last, hlast, hbelow'.trans hbelow⟩
    · exact hjs k hk

def AllJustified (steps : Array Step) (layout : Layout) (thisInit : Option Nat)
    (states : States layout.width steps.size) : Prop :=
  ∀ (j : Fin steps.size) state, states[j] = some state →
    Justified steps layout thisInit j.val state

theorem AllJustified.join {found : States layout.width steps.size × List (Fin steps.size)}
    (h : AllJustified steps layout thisInit found.1) {out : Locals layout.width}
    {j : Fin steps.size} (hout : Justified steps layout thisInit j.val out) :
    AllJustified steps layout thisInit (Flow.join out found j).1 := by
  have hset : ∀ state, Justified steps layout thisInit j.val state →
      AllJustified steps layout thisInit (found.1.set j (some state)) := by
    intro state hstate k other hother
    by_cases hk : j = k
    · subst hk
      have heq : state = other := by simpa using hother
      exact heq ▸ hstate
    · refine h k other ?_
      simpa [Vector.getElem_set, Fin.val_ne_iff.mpr hk] using hother
  unfold Flow.join
  split
  · exact hset out hout
  · rename_i old hold
    dsimp only
    split
    · exact h
    · exact hset _ ((h j old hold).meet hout)

theorem AllJustified.foldl_join {found : States layout.width steps.size × List (Fin steps.size)}
    (h : AllJustified steps layout thisInit found.1) {out : Locals layout.width}
    {js : List (Fin steps.size)} (hout : ∀ j ∈ js, Justified steps layout thisInit j.val out) :
    AllJustified steps layout thisInit (js.foldl (Flow.join out) found).1 := by
  induction js generalizing found with
  | nil => exact h
  | cons j js ih =>
    exact ih (h.join (hout j List.mem_cons_self)) fun k hk => hout k (List.mem_cons_of_mem j hk)

/-- The states that follow an instruction allow for what it leaves. -/
def Closed (states : States layout.width steps.size) (thisInit : Option Nat)
    (i : Fin steps.size) : Prop :=
  ∀ state, states[i] = some state → ∀ j ∈ successorsIn steps.size i.val steps[i],
    ∃ next, states[j] = some next ∧ Below next (transfer layout thisInit i.val steps[i].instr state)

private theorem mem_successorsIn {n i : Nat} {step : Step} {j : Fin n} :
    j ∈ successorsIn n i step ↔ j.val ∈ successors i step := by
  simp only [successorsIn, List.mem_filterMap]
  constructor
  · rintro ⟨k, hk, hj⟩
    split at hj
    · cases hj
      exact hk
    · cases hj
  · intro h
    exact ⟨j.val, h, by simp⟩

private theorem getElem?_steps (i : Fin steps.size) : steps[i.val]? = some steps[i] := by
  simp

/-- The solver ends with states that paths account for and in which every instruction is closed. -/
theorem solve_spec (states : States layout.width steps.size) (work : List (Fin steps.size))
    (hjustified : AllJustified steps layout thisInit states)
    (hclosed : ∀ i, i ∉ work → Closed states thisInit i) :
    AllJustified steps layout thisInit (solve steps.toVector layout thisInit states work) ∧
      (∀ i, Closed (solve steps.toVector layout thisInit states work) thisInit i) ∧
      ∀ (j : Fin steps.size) old, states[j] = some old →
        ∃ new, (solve steps.toVector layout thisInit states work)[j] = some new ∧ Below new old := by
  fun_induction solve steps.toVector layout thisInit states work with
  | case1 states =>
    exact ⟨hjustified, fun i => hclosed i (by simp), fun j old h => ⟨old, h, .refl old⟩⟩
  | case2 states i rest hnone ih =>
    refine ih hjustified fun k hk => ?_
    by_cases hki : k = i
    · intro state hstate
      rw [hki, hnone] at hstate
      cases hstate
    · exact hclosed k (by simp [hki, hk])
  | case3 states i rest locals hlocals out found ih =>
    have hstep : steps.toVector[i] = steps[i] := by simp
    have hout : ∀ j ∈ successorsIn steps.size i.val steps[i],
        Justified steps layout thisInit j.val
          (transfer layout thisInit i.val steps[i].instr locals) := by
      intro j hj
      exact (hjustified i locals hlocals).transfer (getElem?_steps i) (mem_successorsIn.mp hj) j.isLt
    obtain ⟨hadvances, hjoined⟩ := advances_foldl_join
      (transfer layout thisInit i.val steps[i].instr locals)
      (successorsIn steps.size i.val steps[i]) (states, rest)
    have hfound : found = (successorsIn steps.size i.val steps[i]).foldl
        (join (transfer layout thisInit i.val steps[i].instr locals)) (states, rest) := by
      simp only [found, out, hstep]
    rw [← hfound] at hadvances hjoined
    have hjustified' : AllJustified steps layout thisInit found.1 := by
      rw [hfound]
      have hstart : AllJustified steps layout thisInit (states, rest).1 := hjustified
      exact hstart.foldl_join hout
    have hclosed' : ∀ k, k ∉ found.2 → Closed found.1 thisInit k := by
      intro k hk state hstate j hj
      have hsame : states[k] = some state := by
        rw [← hstate]
        apply Classical.byContradiction
        intro hne
        exact hk (hadvances.changed k (Ne.symm hne))
      by_cases hki : k = i
      · subst hki
        rw [hlocals] at hsame
        cases hsame
        exact hjoined j hj
      · have hrest : k ∉ i :: rest := by
          simp only [List.mem_cons, not_or]
          exact ⟨hki, fun h => hk (hadvances.work k h)⟩
        obtain ⟨next, hnext, hbelow⟩ := hclosed k hrest state hsame j hj
        obtain ⟨new, hnew, hfell⟩ := hadvances.falls j next hnext
        exact ⟨new, hnew, hfell.trans hbelow⟩
    obtain ⟨hend, hclosedEnd, hfalls⟩ := ih hjustified' hclosed'
    refine ⟨hend, hclosedEnd, fun j old hold => ?_⟩
    obtain ⟨new, hnew, hbelow⟩ := hadvances.falls j old hold
    obtain ⟨last, hlast, hbelow'⟩ := hfalls j new hnew
    exact ⟨last, hlast, hbelow'.trans hbelow⟩

end Solve

section Analyze

variable {steps : Array Step} {layout : Layout} {thisInit : Option Nat}

private theorem analyze_spec (layout : Layout) (thisInit : Option Nat) (hpos : 0 < steps.size) :
    AllJustified steps layout thisInit (analyze steps layout thisInit) ∧
      (∀ i, Closed (analyze steps layout thisInit) thisInit i) ∧
      ∃ first, (analyze steps layout thisInit)[0] = some first ∧ Below first layout.entry := by
  have hstart : ∀ (j : Fin steps.size) (state : Locals layout.width),
      ((Vector.replicate steps.size (none : Option (Locals layout.width))).set 0
        (some layout.entry))[j] = some state → j.val = 0 ∧ state = layout.entry := by
    intro j state h
    rw [Fin.getElem_fin, Vector.getElem_set] at h
    split at h
    · rename_i hj
      exact ⟨hj.symm, (Option.some.inj h).symm⟩
    · simp at h
  have hspec := @solve_spec steps layout thisInit
    ((Vector.replicate steps.size (none : Option (Locals layout.width))).set 0 (some layout.entry))
    [⟨0, hpos⟩] ?_ ?_
  · rw [analyze, dif_pos hpos]
    refine ⟨hspec.1, hspec.2.1, ?_⟩
    exact hspec.2.2 ⟨0, hpos⟩ layout.entry (by simp)
  · intro j state h
    obtain ⟨hj, rfl⟩ := hstart j state h
    rw [hj]
    exact Reaches.justified (.start hpos)
  · intro i hi state h
    obtain ⟨hzero, -⟩ := hstart i state h
    exact absurd (Fin.ext hzero : i = ⟨0, hpos⟩) (by simpa using hi)

private theorem localsAt?_eq_some {w n : Nat} {states : States w n} {j : Nat} {state : Locals w} :
    localsAt? states j = some state ↔ ∃ h : j < n, states[j] = some state := by
  simp only [localsAt?, Option.join_eq_some_iff, Vector.getElem?_eq_some_iff]

theorem below_transfer {i j : Nat} {step : Step} {state : Locals layout.width}
    (h : localsAt? (analyze steps layout thisInit) i = some state) (hat : steps[i]? = some step)
    (hfollows : j ∈ successors i step) (hinside : j < steps.size) :
    ∃ next, localsAt? (analyze steps layout thisInit) j = some next ∧
      Below next (transfer layout thisInit i step.instr state) := by
  obtain ⟨hi, hstate⟩ := localsAt?_eq_some.mp h
  obtain ⟨-, hclosed, -⟩ := analyze_spec layout thisInit (Nat.zero_lt_of_lt hi)
  obtain ⟨_, rfl⟩ := Array.getElem?_eq_some_iff.mp hat
  obtain ⟨next, hnext, hbelow⟩ := hclosed ⟨i, hi⟩ state hstate ⟨j, hinside⟩
    (mem_successorsIn.mpr hfollows)
  exact ⟨next, localsAt?_eq_some.mpr ⟨hinside, hnext⟩, hbelow⟩

/-- Every path is covered by the state of the instruction it reaches. -/
theorem Reaches.covered {j : Nat} {locals : Locals layout.width}
    (h : Reaches steps layout thisInit j locals) :
    ∃ state, localsAt? (analyze steps layout thisInit) j = some state ∧ Below state locals := by
  induction h with
  | start hpos =>
    obtain ⟨-, -, first, hfirst, hbelow⟩ := analyze_spec layout thisInit hpos
    exact ⟨first, localsAt?_eq_some.mpr ⟨hpos, hfirst⟩, hbelow⟩
  | @next i j step locals reaches at_ follows inside ih =>
    obtain ⟨state, hstate, hbelow⟩ := ih
    obtain ⟨next, hnext, hnextBelow⟩ := below_transfer hstate at_ follows inside
    exact ⟨next, hnext, hnextBelow.trans (hbelow.transfer _ _ _)⟩

theorem justified_of_localsAt? {j : Nat} {state : Locals layout.width}
    (h : localsAt? (analyze steps layout thisInit) j = some state) :
    Justified steps layout thisInit j state := by
  obtain ⟨hj, hstate⟩ := localsAt?_eq_some.mp h
  exact (analyze_spec layout thisInit (Nat.zero_lt_of_lt hj)).1 ⟨j, hj⟩ state hstate

section Everywhere

def Everywhere {w : Nat} (P : Nat → VerificationType → Prop) (locals : Locals w) : Prop :=
  ∀ k t, locals[k]? = some t → t ≠ .top → P k t

variable {P : Nat → VerificationType → Prop}

private theorem Everywhere.setIfInBounds {w : Nat} {locals : Locals w} (h : Everywhere P locals)
    {slot : Nat} {type : VerificationType} (htype : slot < w → type ≠ .top → P slot type) :
    Everywhere P (locals.setIfInBounds slot type) := by
  intro k t ht hne
  rw [Vector.getElem?_setIfInBounds] at ht
  split at ht
  · rename_i hslot
    subst hslot
    split at ht
    · rename_i hlt
      cases ht
      exact htype hlt hne
    · cases ht
  · exact h k t ht hne

theorem Everywhere.applyStore {locals : Locals layout.width} (h : Everywhere P locals) {instr : Instr}
    (hstores : ∀ kind form, instr = .store kind form → P form.slot (storedType layout form.slot kind)) :
    Everywhere P (Flow.applyStore layout locals instr) := by
  cases instr with
  | store kind form =>
    have hstored := h.setIfInBounds fun _ _ => hstores kind form rfl
    unfold Flow.applyStore
    dsimp only
    split
    · exact hstored.setIfInBounds fun _ hne => absurd rfl hne
    · exact hstored
  | _ => exact h

variable (hinit : 0 < layout.width → ∀ type, layout.initializedThis = some type → P 0 type)
include hinit

theorem Everywhere.transfer {locals : Locals layout.width} (h : Everywhere P locals) {instr : Instr}
    (hstores : ∀ kind form, instr = .store kind form → P form.slot (storedType layout form.slot kind))
    (i : Nat) : Everywhere P (Flow.transfer layout thisInit i instr locals) := by
  have hstored := h.applyStore hstores
  unfold Flow.transfer
  dsimp only
  split
  · split
    · rename_i type htype
      exact hstored.setIfInBounds fun hpos _ => hinit hpos type htype
    · exact hstored
  · exact hstored

variable (hentry : Everywhere P layout.entry)
  (hstores : ∀ (i : Nat) (step : Step), steps[i]? = some step → ∀ kind form,
    step.instr = .store kind form → P form.slot (storedType layout form.slot kind))
include hentry hstores

private theorem Reaches.everywhere {j : Nat} {locals : Locals layout.width}
    (h : Reaches steps layout thisInit j locals) : Everywhere P locals := by
  induction h with
  | start => exact hentry
  | next _ at_ _ _ ih => exact ih.transfer hinit (hstores _ _ at_) _

theorem everywhere_of_localsAt? {j : Nat} {state : Locals layout.width}
    (h : localsAt? (analyze steps layout thisInit) j = some state) : Everywhere P state := by
  intro k t ht hne
  obtain ⟨hk, rfl⟩ := Vector.getElem?_eq_some_iff.mp ht
  rcases (justified_of_localsAt? h).2 k hk with ⟨locals, hlocals, heq⟩ | ⟨htop, -⟩
  · rw [← heq] at hne ⊢
    exact hlocals.everywhere hinit hentry hstores k _ (Vector.getElem?_eq_getElem hk) hne
  · exact absurd htop hne

end Everywhere

/-- A state that is no better than any path and no worse than what all paths allow is the state. -/
theorem eq_of_localsAt? {j : Nat} {state locals : Locals layout.width}
    (h : localsAt? (analyze steps layout thisInit) j = some state) (hbelow : Below state locals)
    (hpaths : ∀ path, Reaches steps layout thisInit j path → Below locals path) :
    state = locals := by
  apply Vector.ext
  intro k hk
  rcases hbelow k hk with htop | heq
  · -- a path with `top` in the slot, or two that differ, leave nothing to know
    apply Classical.byContradiction
    intro hne
    have hknown : ∀ path, Reaches steps layout thisInit j path → locals[k] = path[k] := by
      intro path hpath
      rcases hpaths path hpath k hk with h | h
      · exact absurd (htop.trans h.symm) hne
      · exact h
    rcases (justified_of_localsAt? h).2 k hk with
      ⟨path, hpath, hsame⟩ | ⟨-, one, other, hone, hother, hdiffer⟩
    · exact hne (hsame.symm.trans (hknown path hpath).symm)
    · exact hdiffer ((hknown one hone).symm.trans (hknown other hother))
  · exact heq

end Analyze

end Flow

def Step.falls (step : Step) : Bool :=
  if step.target.isSome then !step.instr.isGoto else !step.instr.endsMethod

namespace Flow

variable {steps : Array Step} {layout : Layout} {thisInit : Option Nat}

theorem mem_successors {i j : Nat} {step : Step} :
    j ∈ successors i step ↔ step.target = some j ∨ (step.falls = true ∧ j = i + 1) := by
  unfold successors Step.falls
  cases step.target with
  | none => cases step.instr.endsMethod <;> simp
  | some target => cases step.instr.isGoto <;> simp [eq_comm]

/-- A branch that control can reach leads to the line. -/
def Targeted (steps : Array Step) (layout : Layout) (thisInit : Option Nat) (j : Nat) : Prop :=
  ∃ i step state, localsAt? (analyze steps layout thisInit) i = some state ∧
    steps[i]? = some step ∧ step.target = some j

private theorem Reaches.of_not_targeted {j : Nat} {locals : Locals layout.width}
    (h : Reaches steps layout thisInit j locals) (hnot : ¬ Targeted steps layout thisInit j) :
    (j = 0 ∧ locals = layout.entry) ∨ ∃ i step before, j = i + 1 ∧
      Reaches steps layout thisInit i before ∧ steps[i]? = some step ∧ step.falls = true ∧
      locals = transfer layout thisInit i step.instr before := by
  cases h with
  | start hpos => exact .inl ⟨rfl, rfl⟩
  | @next i _ step before reaches at_ follows inside =>
    rcases mem_successors.mp follows with htarget | ⟨hfalls, rfl⟩
    · obtain ⟨state, hstate, -⟩ := reaches.covered
      exact absurd ⟨i, step, state, hstate, at_, htarget⟩ hnot
    · exact .inr ⟨i, step, before, rfl, reaches, at_, hfalls, rfl⟩

/-- Where no branch leads, the state is what the line before leaves. -/
theorem localsAt?_succ {i : Nat} {step : Step} {state : Locals layout.width}
    (h : localsAt? (analyze steps layout thisInit) i = some state) (hat : steps[i]? = some step)
    (hfalls : step.falls = true) (hinside : i + 1 < steps.size)
    (hnot : ¬ Targeted steps layout thisInit (i + 1)) :
    localsAt? (analyze steps layout thisInit) (i + 1) =
      some (transfer layout thisInit i step.instr state) := by
  obtain ⟨next, hnext, hbelow⟩ :=
    below_transfer h hat (mem_successors.mpr (.inr ⟨hfalls, rfl⟩)) hinside
  rw [hnext, eq_of_localsAt? hnext hbelow]
  intro path hpath
  rcases hpath.of_not_targeted hnot with ⟨hzero, -⟩ | ⟨i', step', before, heq, hbefore, hat', -, rfl⟩
  · cases hzero
  · cases heq
    rw [hat] at hat'
    cases hat'
    obtain ⟨covering, hcovering, hcovers⟩ := hbefore.covered
    rw [h] at hcovering
    cases hcovering
    exact hcovers.transfer thisInit i step.instr

theorem localsAt?_zero (hpos : 0 < steps.size) (hnot : ¬ Targeted steps layout thisInit 0) :
    localsAt? (analyze steps layout thisInit) 0 = some layout.entry := by
  obtain ⟨first, hfirst, hbelow⟩ := Reaches.covered (.start hpos)
  rw [hfirst, eq_of_localsAt? hfirst hbelow]
  intro path hpath
  rcases hpath.of_not_targeted hnot with ⟨-, rfl⟩ | ⟨i, _, _, heq, _⟩
  · exact .refl _
  · cases heq

theorem targeted_of_not_falls {steps : Array Step} {layout : Layout} {thisInit : Option Nat} {j : Nat}
    {state : Locals layout.width} (hstate : localsAt? (analyze steps layout thisInit) (j + 1) = some state)
    (hnot : ∀ before step, localsAt? (analyze steps layout thisInit) j = some before →
      steps[j]? = some step → step.falls = false) : Targeted steps layout thisInit (j + 1) := by
  apply Classical.byContradiction
  intro htargeted
  obtain ⟨⟨path, hpath⟩, -⟩ := justified_of_localsAt? hstate
  rcases hpath.of_not_targeted htargeted with ⟨hzero, -⟩ | ⟨i, step, before, hi, hbefore, hat, hfalls, -⟩
  · cases hzero
  · cases hi
    obtain ⟨covering, hcovering, -⟩ := hbefore.covered
    rw [hnot covering step hcovering hat] at hfalls
    cases hfalls

end Flow

end Classwright
