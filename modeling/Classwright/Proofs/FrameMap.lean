import Classwright.Proofs.Locals
import Classwright.Proofs.StackMaps

/-!
# Reading the stack map

A frame lists its locals without the second slots of wide values and without the unknown ones at the end,
and is written as a change from the frame before.  The verifier gets back at every address what the
table has there, and in the slots what the analysis knows of them.
-/

namespace Classwright

open Verifier

section Collapse

def collapse : List VerificationType → List VerificationType
  | [] => []
  | [t] => [t]
  | t :: u :: rest => if t.isWide then t :: collapse rest else t :: collapse (u :: rest)

private theorem collapseSlots_eq (acc slots : List VerificationType) :
    collapseSlots acc slots = (collapse slots).reverse ++ acc := by
  fun_induction collapseSlots acc slots with
  | case1 acc => rfl
  | case2 acc t => rfl
  | case3 acc t u rest hwide ih => simp [collapse, hwide, ih]
  | case4 acc t u rest hnarrow ih => simp [collapse, hnarrow, ih]

/-- A wide value is followed by a slot without a type. -/
def Spaced (slots : List VerificationType) : Prop :=
  ∀ k t, slots[k]? = some t → t.isWide = true → slots[k + 1]? = some .top

theorem Spaced.tail {t : VerificationType} {slots : List VerificationType} (h : Spaced (t :: slots)) :
    Spaced slots := fun k u hu hwide => h (k + 1) u hu hwide

/-- The types in the slots of the listed locals, of which a wide one takes two. -/
def spread : List VerificationType → List VerificationType
  | [] => []
  | t :: rest => if t.isWide then t :: .top :: spread rest else t :: spread rest

private theorem spread_collapse {slots : List VerificationType} (h : Spaced slots) :
    spread (collapse slots) = slots := by
  fun_induction collapse slots with
  | case1 => rfl
  | case2 t =>
    cases hwide : t.isWide with
    | false => simp [spread, hwide]
    | true => cases h 0 t rfl hwide
  | case3 t u rest hwide ih =>
    have hu : u = .top := Option.some.inj (h 0 t rfl hwide)
    rw [spread, if_pos hwide, ih h.tail.tail, hu]
  | case4 t u rest hnarrow ih => rw [spread, if_neg hnarrow, ih h.tail]

theorem spread_append (locals more : List VerificationType) :
    spread (locals ++ more) = spread locals ++ spread more := by
  fun_induction spread locals with
  | case1 => rfl
  | case2 t rest hwide ih => simp [spread, hwide, ih]
  | case3 t rest hnarrow ih => simp [spread, hnarrow, ih]

theorem spread_replicate_top (n : Nat) :
    spread (List.replicate n .top) = List.replicate n .top := by
  induction n with
  | zero => rfl
  | succ n ih => rw [List.replicate_succ, spread, if_neg (by decide), ih]

private theorem slotsOf_map_kind? (locals : List VerificationType) :
    slotsOf (locals.map VerificationType.kind?) = (spread locals).map VerificationType.kind? := by
  induction locals with
  | nil => rfl
  | cons t rest ih => cases t <;> simp [spread, slotsOf, VerificationType.kind?, VerificationType.isWide,
      Kind.isWide, ih]

private theorem exists_collapse_eq (slots : List VerificationType) :
    ∃ n, collapse slots = frameLocals slots ++ List.replicate n .top := by
  refine ⟨((collapse slots).reverse.takeWhile (· = .top)).length, ?_⟩
  have hsplit : (collapse slots).reverse.takeWhile (· = .top) ++
      (collapse slots).reverse.dropWhile (· = .top) = (collapse slots).reverse :=
    List.takeWhile_append_dropWhile
  have htops : (collapse slots).reverse.takeWhile (· = .top) =
      List.replicate ((collapse slots).reverse.takeWhile (· = .top)).length .top := by
    refine List.eq_replicate_iff.mpr ⟨rfl, fun t ht => ?_⟩
    simpa using List.all_eq_true.mp List.all_takeWhile t ht
  rw [frameLocals, collapseSlots_eq, List.append_nil, ← List.reverse_replicate, ← htops,
    ← List.reverse_append, hsplit, List.reverse_reverse]

private theorem getLast?_frameLocals (slots : List VerificationType) :
    (frameLocals slots).getLast? ≠ some .top := by
  rw [frameLocals, List.getLast?_reverse]
  intro h
  obtain ⟨rest, hrest⟩ := List.head?_eq_some_iff.mp h
  have hne : (collapseSlots [] slots).dropWhile (· = .top) ≠ [] := by simp [hrest]
  have hhead := List.head_dropWhile_not (fun t => decide (t = VerificationType.top)) hne
  simp [hrest] at hhead

theorem exists_spread_frameLocals {slots : List VerificationType} (h : Spaced slots) :
    ∃ n, slots = spread (frameLocals slots) ++ List.replicate n .top := by
  obtain ⟨n, hn⟩ := exists_collapse_eq slots
  refine ⟨n, ?_⟩
  have hslots := spread_collapse h
  rw [hn, spread_append, spread_replicate_top] at hslots
  exact hslots.symm

variable {w : Nat} {locals : Locals w} (hspaced : Spaced locals.toList)
include hspaced

private theorem exists_slotsOf_frameLocals :
    ∃ n, locals.toList.map VerificationType.kind? =
      slotsOf ((frameLocals locals.toList).map VerificationType.kind?) ++ List.replicate n none := by
  obtain ⟨n, hn⟩ := exists_spread_frameLocals hspaced
  refine ⟨n, ?_⟩
  have hkinds := congrArg (List.map VerificationType.kind?) hn
  rwa [List.map_append, List.map_replicate, ← slotsOf_map_kind?] at hkinds

theorem length_slotsOf_frameLocals :
    (slotsOf ((frameLocals locals.toList).map VerificationType.kind?)).length ≤ w := by
  obtain ⟨n, hn⟩ := exists_slotsOf_frameLocals hspaced
  have hlength := congrArg List.length hn
  simp only [List.length_map, Vector.length_toList, List.length_append] at hlength
  omega

private theorem knownOf_frameLocals :
    knownOf ((frameLocals locals.toList).map VerificationType.kind?) = Flow.known locals := by
  obtain ⟨n, hn⟩ := exists_slotsOf_frameLocals hspaced
  funext k
  have hget : (locals.toList.map VerificationType.kind?)[k]?.join = Flow.known locals k := by
    rw [List.getElem?_map, Vector.getElem?_toList, Flow.known]
    cases locals[k]? <;> rfl
  rw [← hget, hn, knownOf, List.getElem?_append]
  split
  · rfl
  · rename_i hge
    rw [List.getElem?_eq_none (Nat.le_of_not_lt hge), List.getElem?_replicate]
    split <;> rfl

end Collapse

section Determined

variable {kind? : Option Kind} {locals more : List (Option Kind)}

theorem knownOf_cons_zero : knownOf (kind? :: locals) 0 = kind? := by
  cases kind? with
  | none => rfl
  | some kind =>
    rw [knownOf, slotsOf]
    split <;> rfl

theorem knownOf_cons_add (k : Nat) :
    knownOf (kind? :: locals) (k + kind?.elim 1 Kind.width) = knownOf locals k := by
  cases kind? with
  | none => rfl
  | some kind =>
    simp only [knownOf, slotsOf, Option.elim_some, Kind.width]
    split <;> rfl

private theorem exists_knownOf (hne : locals ≠ []) (hlast : locals.getLast? ≠ some none) :
    ∃ k, knownOf locals k ≠ none := by
  induction locals with
  | nil => exact absurd rfl hne
  | cons head rest ih =>
    by_cases hrest : rest = []
    · subst hrest
      refine ⟨0, ?_⟩
      rw [knownOf_cons_zero]
      simpa using hlast
    · rw [List.getLast?_cons_of_ne_nil hrest] at hlast
      obtain ⟨k, hk⟩ := ih hrest hlast
      exact ⟨k + head.elim 1 Kind.width, by rwa [knownOf_cons_add]⟩

/-- Locals that do not end in an unknown one are determined by what they say of the slots. -/
theorem eq_of_knownOf_eq (hlast : locals.getLast? ≠ some none) (hlast' : more.getLast? ≠ some none)
    (h : knownOf locals = knownOf more) : locals = more := by
  induction locals generalizing more with
  | nil =>
    apply Classical.byContradiction
    intro hne
    obtain ⟨k, hk⟩ := exists_knownOf (Ne.symm hne) hlast'
    rw [← h] at hk
    exact hk rfl
  | cons head rest ih =>
    cases more with
    | nil =>
      obtain ⟨k, hk⟩ := exists_knownOf (List.cons_ne_nil head rest) hlast
      rw [h] at hk
      exact absurd rfl hk
    | cons head' rest' =>
      have hheads : head = head' := by
        have hzero := congrFun h 0
        rwa [knownOf_cons_zero, knownOf_cons_zero] at hzero
      subst hheads
      have hrests : knownOf rest = knownOf rest' := by
        funext k
        have hk := congrFun h (k + head.elim 1 Kind.width)
        rwa [knownOf_cons_add, knownOf_cons_add] at hk
      have htail : ∀ rest : List (Option Kind), (head :: rest).getLast? ≠ some none →
          rest.getLast? ≠ some none := by
        intro rest hlast hnone
        cases rest with
        | nil => cases hnone
        | cons => exact hlast ((List.getLast?_cons_of_ne_nil (List.cons_ne_nil _ _)).trans hnone)
      rw [ih (htail rest hlast) (htail rest' hlast') hrests]

theorem kinds_frameLocals {w : Nat} {slots : Locals w} (hspaced : Spaced slots.toList)
    {kinds : List Kind} (h : Flow.known slots = knownOf (kinds.map some)) :
    (frameLocals slots.toList).map VerificationType.kind? = kinds.map some := by
  refine eq_of_knownOf_eq ?_ ?_ ((knownOf_frameLocals hspaced).trans h)
  · rw [List.getLast?_map]
    intro hnone
    obtain ⟨t, ht, htop⟩ := Option.map_eq_some_iff.mp hnone
    rw [Flow.kind?_eq_none_iff.mp htop] at ht
    exact getLast?_frameLocals _ ht
  · rw [List.getLast?_map]
    cases kinds.getLast? <;> simp

end Determined

/-- A value of the type fits the local that starts at the slot. -/
def Slots.Admits (table : List (Local × UInt16)) (k : Nat) (t : VerificationType) : Prop :=
  ∃ entry ∈ table, entry.2.toNat = k ∧ (t.isWide = true → widthOf entry.1 = 2)

theorem Slots.admits_of_kind? {table : List (Local × UInt16)} {entry : Local × UInt16}
    {t : VerificationType} (hentry : entry ∈ table) (hkind : t.kind? = entry.1.type.kind?) :
    Admits table entry.2.toNat t := by
  refine ⟨entry, hentry, rfl, fun hwide => ?_⟩
  cases h : t.kind? with
  | none =>
    rw [Flow.kind?_eq_none_iff.mp h] at hwide
    cases hwide
  | some kind =>
    rw [h] at hkind
    rw [widthOf_eq (JavaType.isVoid_of_kind? hkind.symm) hkind.symm, Kind.width,
      VerificationType.isWide_of_kind? h, if_pos hwide]

section Follow

variable {α β : Type} (read : VerificationType → α)

private theorem MapFrame.localsAfter?_map (f : MapFrame) (before : List VerificationType) :
    f.localsAfter? read (before.map read) = (f.localsAfter? id before).map (List.map read) := by
  cases f with
  | chop dropped delta =>
    simp only [localsAfter?, List.length_map]
    split
    · rw [Option.map_some, List.map_take]
    · rfl
  | append delta locals =>
    rw [localsAfter?, localsAfter?, Option.map_some, List.map_append, List.map_id]
  | full delta locals stack => rw [localsAfter?, localsAfter?, Option.map_some, List.map_id]
  | _ => rfl

private theorem MapFrame.follow?_of_expand? {found? : List α → List VerificationType → Option β}
    {found : FrameTypes → β} {next : Nat} {before : List VerificationType} {forms : List MapFrame}
    {entries : List (Nat × FrameTypes)} (h : expand? next before forms = some entries)
    (hfound : ∀ entry ∈ entries,
      found? (entry.2.locals.map read) entry.2.stack = some (found entry.2)) :
    follow? read found? next (before.map read) forms =
      some (entries.map fun entry => (entry.1, found entry.2)) := by
  induction forms generalizing next before entries with
  | nil =>
    cases h
    rfl
  | cons f forms ih =>
    obtain ⟨distance, frame, more, ⟨rfl, hlocals, hoperands⟩, hmore, rfl⟩ := expand?_cons_iff.mp h
    obtain ⟨hfirst, hothers⟩ := List.forall_mem_cons.mp hfound
    rw [follow?, localsAfter?_map, hlocals, hoperands]
    simp only [Option.map_some, Option.bind_eq_bind, Option.bind_some, hfirst, ih hmore hothers]
    rfl

end Follow

def FrameTypes.typing (f : FrameTypes) : Typing where
  locals := knownOf (f.locals.map VerificationType.kind?)
  stack := (f.stack.filterMap VerificationType.kind?).reverse

/-- The locals of a frame fit the slots, and its operands are known and fit the stack. -/
def FrameTypes.Suits (maxStack maxLocals : Nat) (f : FrameTypes) : Prop :=
  (slotsOf (f.locals.map VerificationType.kind?)).length ≤ maxLocals ∧
    VerificationType.top ∉ f.stack ∧ words (f.stack.filterMap VerificationType.kind?) ≤ maxStack

private theorem mapM_kind? {types : List VerificationType} (h : VerificationType.top ∉ types) :
    types.mapM VerificationType.kind? = some (types.filterMap VerificationType.kind?) := by
  induction types with
  | nil => rfl
  | cons t types ih =>
    obtain ⟨hne, hrest⟩ := not_or.mp (mt List.mem_cons.mpr h)
    rw [List.mapM_cons, ih hrest, List.filterMap_cons]
    cases hkind : t.kind? with
    | none => exact absurd (Flow.kind?_eq_none_iff.mp hkind).symm hne
    | some kind => rfl

private theorem MapFrame.readAll?_of_expand? {maxStack maxLocals : Nat} {before : List VerificationType}
    {forms : List MapFrame} {entries : List (Nat × FrameTypes)} (h : expand? 0 before forms = some entries)
    (hsuits : ∀ entry ∈ entries, entry.2.Suits maxStack maxLocals) :
    readAll? maxStack maxLocals (before.map VerificationType.kind?) forms =
      some (entries.map fun entry => (entry.1, entry.2.typing)) := by
  refine follow?_of_expand? _ h fun entry hentry => ?_
  obtain ⟨hslots, hstack, hwords⟩ := hsuits entry hentry
  rw [typing?, mapM_kind? hstack]
  exact if_pos ⟨hslots, hwords⟩

private theorem lookup_map {α β : Type} {entries : List (Nat × α)} (f : α → β) (k : Nat) :
    (entries.map fun entry => (entry.1, f entry.2)).lookup k = (entries.lookup k).map f := by
  induction entries with
  | nil => rfl
  | cons entry entries ih =>
    obtain ⟨address, v⟩ := entry
    rw [List.map_cons, List.lookup_cons, List.lookup_cons, ih]
    dsimp only
    cases k == address <;> rfl

theorem lookup_eq_some_iff {α : Type} {entries : List (Nat × α)}
    (hordered : entries.Pairwise fun a b => a.1 < b.1) {k : Nat} {v : α} :
    entries.lookup k = some v ↔ (k, v) ∈ entries := by
  induction entries with
  | nil => simp
  | cons entry entries ih =>
    obtain ⟨address, other⟩ := entry
    obtain ⟨hfirst, hrest⟩ := List.pairwise_cons.mp hordered
    rw [List.lookup_cons, List.mem_cons, Prod.mk.injEq]
    by_cases hk : k = address
    · subst hk
      have hnot : (k, v) ∉ entries := fun hmem => Nat.lt_irrefl k (hfirst _ hmem)
      simp [hnot, eq_comm]
    · rw [beq_false_of_ne hk]
      simp [hk, ih hrest]

/-- The stack map written for a table gives the frames of the table. -/
theorem FrameTable.readAll?_write {maxStack maxLocals : Nat} {table : FrameTable}
    {initial : List VerificationType} (hbound : ∀ entry ∈ table.toList, entry.1 < 65536)
    (hsuits : ∀ entry ∈ table.toList, entry.2.Suits maxStack maxLocals) :
    ∃ frames, MapFrame.readAll? maxStack maxLocals (initial.map VerificationType.kind?)
        (table.write initial) = some frames ∧
      ∀ k, frames.lookup k = table[k]?.map FrameTypes.typing := by
  have hexpand : MapFrame.expand? 0 initial (table.write initial) = some table.toList :=
    MapFrame.expand?_chooseFrom table.ordered_toList (fun _ _ => Nat.zero_le _) hbound
  refine ⟨_, MapFrame.readAll?_of_expand? hexpand hsuits, ?_⟩
  intro k
  rw [lookup_map]
  congr 1
  apply Option.ext
  intro v
  rw [lookup_eq_some_iff table.ordered_toList, Std.TreeMap.mem_toList_iff_getElem?_eq_some]

namespace Flow

/-- If all types that are known fit the locals, wide values do not overlap with others. -/
theorem spaced_of_admits {w : Nat} {locals : Locals w} {table : List (Local × UInt16)}
    (htiles : Slots.Tiles 0 w table) (h : Everywhere (Slots.Admits table) locals) :
    Spaced locals.toList := by
  intro k t ht hwide
  rw [Vector.getElem?_toList] at ht ⊢
  have hne : t ≠ .top := by
    rintro rfl
    cases hwide
  obtain ⟨entry, hentry, rfl, hwidth⟩ := h k t ht hne
  have hbounds := (htiles.bounds hentry).2
  rw [hwidth hwide] at hbounds
  obtain ⟨u, hu⟩ : ∃ u, locals[entry.2.toNat + 1]? = some u :=
    ⟨_, Vector.getElem?_eq_getElem (by omega)⟩
  -- another type in the second slot would be that of a local that starts there
  apply Classical.byContradiction
  intro htop
  obtain ⟨entry', hentry', hslot', -⟩ := h _ u hu fun heq => htop (heq ▸ hu)
  have hpos := Slots.widthOf_pos entry'.1
  rcases htiles.separate hentry hentry' with heq | hsep | hsep
  · rw [heq] at hslot'
    omega
  · rw [hwidth hwide] at hsep
    omega
  · omega

theorem Suits.spaced {layout : Layout} {slots : Slots} {locals : Locals layout.width}
    (hsuits : Suits slots locals) (h : layout.Kinds slots) : Spaced locals.toList := by
  refine spaced_of_admits (h.width ▸ h.wellFormed.tiles) fun k t ht hne => ?_
  obtain ⟨entry, hentry, rfl, hkind⟩ := hsuits k t ht hne
  exact Slots.admits_of_kind? hentry hkind.symm

/-- What the verifier finds in the stack map: frames at the lines that reachable branches lead to and
at the starts of unreachable stretches, and no others. -/
structure FramesFor (items : List Item) (steps : Array Step) (layout : Layout) (thisInit : Option Nat)
    (frames : List (Nat × Typing)) : Prop where
  target : ∀ j state, Targeted steps layout thisInit j →
    localsAt? (analyze steps layout thisInit) j = some state →
    frames.lookup (address items j) = some ⟨known state, []⟩
  dead : ∀ j ∈ deadStarts (analyze steps layout thisInit),
    frames.lookup (address items j) = some ⟨fun _ => none, [.reference]⟩
  only : ∀ a frame, frames.lookup a = some frame → ∃ j < steps.size, a = address items j ∧
    (Targeted steps layout thisInit j ∨ j ∈ deadStarts (analyze steps layout thisInit))

theorem mem_deadStarts {w n : Nat} {states : States w n} {j : Nat} :
    j ∈ deadStarts states ↔ j < n ∧ localsAt? states j = none ∧
      (j = 0 ∨ localsAt? states (j - 1) ≠ none) := by
  simp [deadStarts, isDead, Option.isSome_iff_ne_none]

section Lines

variable {items : List Item} {steps : Array Step} {layout : Layout} {thisInit : Option Nat}
  (hresolve : (Draft.ofItems items).resolve = .ok steps)
include hresolve

theorem address_lt {i j : Nat} (hij : i < j) (hj : j ≤ steps.size) :
    address items i < address items j :=
  Line.total_take_lt hij (size_steps hresolve ▸ hj)

theorem address_inj {i j : Nat} (hi : i ≤ steps.size) (hj : j ≤ steps.size)
    (h : address items i = address items j) : i = j := by
  rcases Nat.lt_trichotomy i j with hlt | heq | hlt
  · exact absurd h (Nat.ne_of_lt (address_lt hresolve hlt hj))
  · exact heq
  · exact absurd h.symm (Nat.ne_of_lt (address_lt hresolve hlt hi))

private theorem draft_address {i : Nat} (hi : i ≤ steps.size) :
    (Draft.ofItems items).address i = address items i :=
  Draft.address_ofItems items (size_steps hresolve ▸ hi)

omit hresolve in
theorem lt_of_localsAt? {i : Nat} {state : Locals layout.width}
    (h : localsAt? (analyze steps layout thisInit) i = some state) : i < steps.size := by
  obtain ⟨⟨locals, hreaches⟩, -⟩ := justified_of_localsAt? h
  exact hreaches.lt

private theorem lt_of_target {i j : Nat} {step : Step} (hstep : steps[i]? = some step)
    (htarget : step.target = some j) : j < steps.size := by
  obtain ⟨line, hline, hresolves⟩ := resolves_line hresolve hstep
  cases line with
  | plain instr =>
    rw [show step = { instr } from hresolves] at htarget
    cases htarget
  | branch when label =>
    obtain ⟨target, offset, -, hlt, rfl, -⟩ :=
      resolves_branch hresolve (List.getElem?_eq_some_iff.mp hline).1 hresolves
    cases htarget
    exact hlt

theorem Targeted.exists_state {j : Nat} (h : Targeted steps layout thisInit j) :
    ∃ state, localsAt? (analyze steps layout thisInit) j = some state := by
  obtain ⟨i, step, before, hbefore, hstep, htarget⟩ := h
  obtain ⟨state, hstate, -⟩ := below_transfer hbefore hstep (mem_successors.mpr (.inl htarget))
    (lt_of_target hresolve hstep htarget)
  exact ⟨state, hstate⟩

private theorem getElem?_targetFrames {a : Nat} {v : FrameTypes} :
    (targetFrames (Draft.ofItems items) steps (analyze steps layout thisInit))[a]? = some v ↔
      ∃ j state, Targeted steps layout thisInit j ∧
        localsAt? (analyze steps layout thisInit) j = some state ∧ a = address items j ∧
        v = { locals := frameLocals state.toList } := by
  have hentry : ∀ i k v, targetFrame? (Draft.ofItems items) steps (analyze steps layout thisInit) i =
      some (k, v) → ∃ j state, Targeted steps layout thisInit j ∧
        localsAt? (analyze steps layout thisInit) j = some state ∧ k = address items j ∧
        v = { locals := frameLocals state.toList } := by
    intro i k v hi
    obtain ⟨step, j, state, hstep, htarget, hlive, hstate, heq⟩ := targetFrame?_eq_some_iff.mp hi
    obtain ⟨before, hbefore⟩ : ∃ before, localsAt? (analyze steps layout thisInit) i = some before :=
      Option.isSome_iff_exists.mp (by simpa [isDead] using hlive)
    obtain ⟨rfl, rfl⟩ := Prod.mk.inj heq
    exact ⟨j, state, ⟨i, step, before, hbefore, hstep, htarget⟩, hstate,
      draft_address hresolve (Nat.le_of_lt (lt_of_localsAt? hstate)), rfl⟩
  rw [targetFrames_eq, FrameTable.getElem?_foldl_record]
  · constructor
    · rintro (⟨i, -, hi⟩ | ⟨-, hempty⟩)
      · exact hentry i a v hi
      · rw [Std.TreeMap.getElem?_emptyc] at hempty
        cases hempty
    · rintro ⟨j, state, ⟨i, step, before, hbefore, hstep, htarget⟩, hstate, rfl, rfl⟩
      refine .inl ⟨i, List.mem_range.mpr (lt_of_localsAt? hbefore), ?_⟩
      refine targetFrame?_eq_some_iff.mpr ⟨step, j, state, hstep, htarget, ?_, hstate, ?_⟩
      · rw [isDead, hbefore]
        rfl
      · rw [draft_address hresolve (Nat.le_of_lt (lt_of_localsAt? hstate))]
  · intro i _ i' _ k v v' hi hi'
    obtain ⟨j, state, -, hstate, rfl, rfl⟩ := hentry i _ _ hi
    obtain ⟨j', state', -, hstate', heq, rfl⟩ := hentry i' _ _ hi'
    have hj := address_inj hresolve (Nat.le_of_lt (lt_of_localsAt? hstate))
      (Nat.le_of_lt (lt_of_localsAt? hstate')) heq
    rw [hj, hstate'] at hstate
    cases hstate
    rfl

theorem getElem?_frames {throwable : UInt16} {a : Nat} {v : FrameTypes} :
    (frames (Draft.ofItems items) steps (analyze steps layout thisInit) throwable)[a]? = some v ↔
      (∃ j ∈ deadStarts (analyze steps layout thisInit), a = address items j ∧
        v = deadFrame throwable) ∨
      ∃ j state, Targeted steps layout thisInit j ∧
        localsAt? (analyze steps layout thisInit) j = some state ∧ a = address items j ∧
        v = { locals := frameLocals state.toList } := by
  have hdead : ∀ j ∈ deadStarts (analyze steps layout thisInit),
      (Draft.ofItems items).address j = address items j := fun j hj =>
    draft_address hresolve (Nat.le_of_lt (mem_deadStarts.mp hj).1)
  rw [frames_eq, FrameTable.getElem?_foldl_record, getElem?_targetFrames hresolve]
  · constructor
    · rintro (⟨j, hj, heq⟩ | ⟨-, htarget⟩)
      · obtain ⟨rfl, rfl⟩ := Prod.mk.inj (Option.some.inj heq)
        exact .inl ⟨j, hj, hdead j hj, rfl⟩
      · exact .inr htarget
    · rintro (⟨j, hj, rfl, rfl⟩ | ⟨j, state, htargeted, hstate, rfl, rfl⟩)
      · exact .inl ⟨j, hj, by rw [hdead j hj]⟩
      · refine .inr ⟨fun i hi v' heq => ?_, j, state, htargeted, hstate, rfl, rfl⟩
        -- an unreachable line is no target
        have haddress : address items i = address items j :=
          (hdead i hi).symm.trans (Prod.mk.inj (Option.some.inj heq)).1
        obtain ⟨hlt, hnone, -⟩ := mem_deadStarts.mp hi
        have hij := address_inj hresolve (Nat.le_of_lt hlt) (Nat.le_of_lt (lt_of_localsAt? hstate))
          haddress
        rw [hij, hstate] at hnone
        cases hnone
  · intro i _ i' _ k v v' hi hi'
    exact (Prod.mk.inj (Option.some.inj hi)).2.symm.trans (Prod.mk.inj (Option.some.inj hi')).2

private theorem exists_line_of_frames {throwable : UInt16} {a : Nat} {v : FrameTypes}
    (h : (frames (Draft.ofItems items) steps (analyze steps layout thisInit) throwable)[a]? = some v) :
    ∃ j < steps.size, a = address items j ∧
      (Targeted steps layout thisInit j ∨ j ∈ deadStarts (analyze steps layout thisInit)) := by
  rcases (getElem?_frames hresolve).mp h with ⟨j, hj, rfl, -⟩ | ⟨j, state, htargeted, hstate, rfl, -⟩
  · exact ⟨j, (mem_deadStarts.mp hj).1, rfl, .inr hj⟩
  · exact ⟨j, lt_of_localsAt? hstate, rfl, .inl htargeted⟩

theorem lt_of_mem_frames {throwable : UInt16} {entry : Nat × FrameTypes}
    (h : entry ∈
      (frames (Draft.ofItems items) steps (analyze steps layout thisInit) throwable).toList) :
    entry.1 < 65536 := by
  obtain ⟨j, hj, haddress, -⟩ :=
    exists_line_of_frames hresolve (Std.TreeMap.mem_toList_iff_getElem?_eq_some.mp h)
  have hlt := address_lt hresolve hj (Nat.le_refl _)
  have hsize := address_size_le hresolve
  omega

/-- The verifier reads the stack map of a method and finds what the analysis knows. -/
theorem exists_framesFor {slots : Slots} (h : layout.Kinds slots)
    (hstores : ∀ (i : Nat) (step : Step), steps[i]? = some step → StoresInto slots step.instr)
    (throwable : UInt16) {maxStack : Nat} (hstack : 1 ≤ maxStack) :
    ∃ read, MapFrame.readAll? maxStack layout.width
        ((frameLocals layout.entry.toList).map VerificationType.kind?)
        ((frames (Draft.ofItems items) steps (analyze steps layout thisInit) throwable).write
          (frameLocals layout.entry.toList)) = some read ∧
      FramesFor items steps layout thisInit read := by
  have hsuits : ∀ entry ∈ (frames (Draft.ofItems items) steps (analyze steps layout thisInit)
      throwable).toList, entry.2.Suits maxStack layout.width := by
    rintro ⟨a, v⟩ hentry
    rcases (getElem?_frames hresolve).mp (Std.TreeMap.mem_toList_iff_getElem?_eq_some.mp hentry) with
      ⟨j, hj, rfl, rfl⟩ | ⟨j, state, htargeted, hstate, rfl, rfl⟩
    · exact ⟨Nat.zero_le _, by simp [deadFrame], hstack⟩
    · exact ⟨length_slotsOf_frameLocals ((suits_of_localsAt? h hstores hstate).spaced h), by simp,
        Nat.zero_le _⟩
  obtain ⟨read, hread, hlookup⟩ :=
    FrameTable.readAll?_write (fun entry hentry => lt_of_mem_frames hresolve hentry) hsuits
  refine ⟨read, hread, ⟨?_, ?_, ?_⟩⟩
  · intro j state htargeted hstate
    rw [hlookup, (getElem?_frames hresolve).mpr (.inr ⟨j, state, htargeted, hstate, rfl, rfl⟩),
      Option.map_some, FrameTypes.typing,
      knownOf_frameLocals ((suits_of_localsAt? h hstores hstate).spaced h)]
    rfl
  · intro j hj
    rw [hlookup, (getElem?_frames hresolve).mpr (.inl ⟨j, hj, rfl, rfl⟩)]
    rfl
  · intro a frame hframe
    rw [hlookup] at hframe
    obtain ⟨v, hv, -⟩ := Option.map_eq_some_iff.mp hframe
    exact exists_line_of_frames hresolve hv

end Lines

end Flow

end Classwright
