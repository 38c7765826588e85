import Classwright.Generate.Assembly
import Classwright.Proofs.InstrCodec

/-!
# Where instructions end up

A draft keeps the lines of its items in order, each at the sum of the sizes before it, and labels
at the lines that follow them.  Overwriting unreachable stretches moves nothing, so a line that
control can reach is read back at its address.
-/

namespace Classwright

/-- What each item of a certain form overwrites comes from the last one. -/
theorem eq_some_iff_last {α β : Type} {p : α → Bool} {g : List α → α → β}
    {f : List α → Option β} (hnil : f [] = none)
    (hconcat : ∀ items item,
      f (items ++ [item]) = if p item then some (g items item) else f items)
    (items : List α) (b : β) :
    f items = some b ↔
      ∃ before item after, items = before ++ item :: after ∧ p item = true ∧
        (∀ other ∈ after, p other = false) ∧ b = g before item := by
  induction items using List.reverseRecOn with
  | nil => simp [hnil]
  | append_singleton items item ih =>
    rw [hconcat]
    cases hp : p item with
    | true =>
      rw [if_pos rfl]
      constructor
      · intro h
        cases h
        exact ⟨items, item, [], rfl, hp, by simp, rfl⟩
      · rintro ⟨before, found, after, heq, -, hafter, rfl⟩
        rcases List.eq_nil_or_concat' after with rfl | ⟨init, last, rfl⟩
        · rw [List.append_inj_left' heq rfl,
            List.singleton_inj.mp (List.append_inj_right' heq rfl)]
        · rw [← List.cons_append, ← List.append_assoc] at heq
          have hlast : item = last := List.singleton_inj.mp (List.append_inj_right' heq rfl)
          have hno := hafter last (by simp)
          rw [← hlast, hp] at hno
          cases hno
    | false =>
      rw [if_neg (by simp), ih]
      constructor
      · rintro ⟨before, found, after, rfl, hfound, hafter, rfl⟩
        refine ⟨before, found, after ++ [item], by simp, hfound, fun other hother => ?_, rfl⟩
        rcases List.mem_append.mp hother with hother | hother
        · exact hafter other hother
        · rw [List.mem_singleton.mp hother]
          exact hp
      · rintro ⟨before, found, after, heq, hfound, hafter, rfl⟩
        rcases List.eq_nil_or_concat' after with rfl | ⟨init, last, rfl⟩
        · have hitem : item = found := List.singleton_inj.mp (List.append_inj_right' heq rfl)
          rw [← hitem, hp] at hfound
          cases hfound
        · rw [← List.cons_append, ← List.append_assoc] at heq
          exact ⟨before, found, init, List.append_inj_left' heq rfl, hfound,
            fun other hother => hafter other (by simp [hother]), rfl⟩

namespace Item

/-- The line of an item; a mark has none. -/
def line? : Item → Option Line
  | op instr => some (.plain instr)
  | initThis instr => some (.plain instr)
  | branch jump label => some (.branch jump label)
  | mark _ => none

def lines (items : List Item) : List Line := items.filterMap line?

def marks (label : Label) : Item → Bool
  | mark l => l == label
  | _ => false

def initializes : Item → Bool
  | initThis _ => true
  | _ => false

theorem lines_append (items more : List Item) : lines (items ++ more) = lines items ++ lines more :=
  List.filterMap_append ..

theorem lines_flatten (blocks : List (List Item)) :
    lines blocks.flatten = (blocks.map lines).flatten :=
  List.filterMap_flatten

end Item

namespace Line

def total : List Line → Nat
  | [] => 0
  | line :: rest => line.size + total rest

theorem total_append (lines more : List Line) : total (lines ++ more) = total lines + total more := by
  induction lines with
  | nil => simp [total]
  | cons line lines ih =>
    simp only [List.cons_append, total, ih]
    omega

theorem size_pos (line : Line) : 0 < line.size := by
  cases line with
  | plain instr => exact instr.size_pos
  | branch jump label => exact Nat.zero_lt_succ 2

theorem length_le_total (lines : List Line) : lines.length ≤ total lines := by
  induction lines with
  | nil => exact Nat.le_refl 0
  | cons line lines ih =>
    have hpos := line.size_pos
    simp only [List.length_cons, total]
    omega

theorem total_take_le (lines : List Line) (i : Nat) : total (lines.take i) ≤ total lines := by
  conv_rhs => rw [← List.take_append_drop i lines, total_append]
  omega

theorem total_take_succ {lines : List Line} {i : Nat} {line : Line} (h : lines[i]? = some line) :
    total (lines.take (i + 1)) = total (lines.take i) + line.size := by
  rw [List.take_add_one, h, total_append]
  rfl

theorem total_take_lt {lines : List Line} {i j : Nat} (hij : i < j) (hj : j ≤ lines.length) :
    total (lines.take i) < total (lines.take j) := by
  induction j with
  | zero => omega
  | succ j ih =>
    obtain ⟨line, hline⟩ : ∃ line, lines[j]? = some line :=
      ⟨lines[j], List.getElem?_eq_getElem (by omega)⟩
    have hstep := total_take_succ hline
    have hpos := line.size_pos
    rcases Nat.lt_or_eq_of_le (Nat.le_of_lt_succ hij) with hlt | rfl
    · have hle := ih hlt (by omega)
      omega
    · omega

end Line

namespace Draft

theorem ofItems_concat (items : List Item) (item : Item) :
    ofItems (items ++ [item]) = (ofItems items).add item := by
  simp [ofItems]

theorem lines_ofItems (items : List Item) : (ofItems items).lines.toList = Item.lines items := by
  induction items using List.reverseRecOn with
  | nil => rfl
  | append_singleton items item ih =>
    rw [ofItems_concat, Item.lines_append, ← ih]
    cases item <;> simp [add, addLine, Item.lines, Item.line?]

theorem size_lines_ofItems (items : List Item) :
    (ofItems items).lines.size = (Item.lines items).length := by
  rw [← lines_ofItems, Array.length_toList]

theorem size_ofItems (items : List Item) : (ofItems items).size = Line.total (Item.lines items) := by
  induction items using List.reverseRecOn with
  | nil => rfl
  | append_singleton items item ih =>
    rw [ofItems_concat, Item.lines_append, Line.total_append, ← ih]
    cases item with
    | mark label => rfl
    | op instr | initThis instr => rfl
    | branch jump label => rfl

private theorem addresses_ofItems (items : List Item) :
    (ofItems items).addresses.size = (Item.lines items).length ∧
      ∀ i < (Item.lines items).length,
        (ofItems items).addresses[i]? = some (Line.total ((Item.lines items).take i)) := by
  induction items using List.reverseRecOn with
  | nil => exact ⟨rfl, fun i hi => absurd hi (Nat.not_lt_zero i)⟩
  | append_singleton items item ih =>
    obtain ⟨hsize, haddress⟩ := ih
    cases hline : item.line? with
    | none =>
      have hadd : ((ofItems items).add item).addresses = (ofItems items).addresses := by
        cases item <;> first | rfl | cases hline
      have hlines : Item.lines (items ++ [item]) = Item.lines items := by
        simp [Item.lines, hline]
      rw [ofItems_concat, hadd, hlines]
      exact ⟨hsize, haddress⟩
    | some line =>
      have hadd : ((ofItems items).add item).addresses =
          (ofItems items).addresses.push (ofItems items).size := by
        cases item <;> first | rfl | cases hline
      have hlines : Item.lines (items ++ [item]) = Item.lines items ++ [line] := by
        simp [Item.lines, hline]
      rw [ofItems_concat, hadd, hlines]
      refine ⟨by simp [hsize], fun i hi => ?_⟩
      rw [Array.getElem?_push, hsize, size_ofItems]
      rcases Nat.lt_or_eq_of_le (Nat.le_of_lt_succ (by simpa using hi)) with hlt | rfl
      · rw [if_neg (by omega), haddress i hlt, List.take_append_of_le_length (Nat.le_of_lt hlt)]
      · rw [if_pos rfl, List.take_left]

theorem address_ofItems (items : List Item) {i : Nat} (hi : i ≤ (Item.lines items).length) :
    (ofItems items).address i = Line.total ((Item.lines items).take i) := by
  obtain ⟨hsize, haddress⟩ := addresses_ofItems items
  unfold address
  rcases Nat.lt_or_eq_of_le hi with hlt | rfl
  · rw [haddress i hlt]
    rfl
  · rw [Array.getElem?_eq_none (by omega), List.take_length]
    exact size_ofItems items

/-- A label stands at the line after its last mark. -/
theorem placed_ofItems {items : List Item} {label : Label} {target : Nat} :
    (ofItems items).placed[label]? = some target ↔
      ∃ before after, items = before ++ Item.mark label :: after ∧
        (∀ item ∈ after, item.marks label = false) ∧ target = (Item.lines before).length := by
  have hlast := eq_some_iff_last (p := Item.marks label)
    (g := fun items _ => (Item.lines items).length)
    (f := fun items => (ofItems items).placed[label]?) (by simp [ofItems])
    (fun items item => by
      rw [ofItems_concat]
      cases item with
      | mark l => simp [add, Item.marks, Std.HashMap.getElem?_insert, size_lines_ofItems]
      | _ => rfl) items target
  rw [hlast]
  constructor
  · rintro ⟨before, item, after, heq, hitem, hafter, htarget⟩
    cases item with
    | mark l =>
      have hl : l = label := by simpa [Item.marks] using hitem
      exact ⟨before, after, hl ▸ heq, hafter, htarget⟩
    | _ => cases hitem
  · rintro ⟨before, after, heq, hafter, htarget⟩
    exact ⟨before, .mark label, after, heq, by simp [Item.marks], hafter, htarget⟩

private theorem thisInit_ofItems {items : List Item} {target : Nat} :
    (ofItems items).thisInit = some target ↔
      ∃ before instr after, items = before ++ Item.initThis instr :: after ∧
        (∀ item ∈ after, item.initializes = false) ∧ target = (Item.lines before).length := by
  have hlast := eq_some_iff_last (p := Item.initializes)
    (g := fun items _ => (Item.lines items).length) (f := fun items => (ofItems items).thisInit) rfl
    (fun items item => by
      rw [ofItems_concat]
      cases item with
      | initThis instr => simp [add, Item.initializes, size_lines_ofItems]
      | _ => rfl) items target
  rw [hlast]
  constructor
  · rintro ⟨before, item, after, heq, hitem, hafter, htarget⟩
    cases item with
    | initThis instr => exact ⟨before, instr, after, heq, hafter, htarget⟩
    | _ => cases hitem
  · rintro ⟨before, instr, after, heq, hafter, htarget⟩
    exact ⟨before, .initThis instr, after, heq, rfl, hafter, htarget⟩

theorem thisInit_append (items more : List Item) :
    (ofItems (items ++ more)).thisInit =
      ((ofItems more).thisInit.map ((Item.lines items).length + ·)).or (ofItems items).thisInit := by
  induction more using List.reverseRecOn with
  | nil =>
    rw [List.append_nil]
    rfl
  | append_singleton more item ih =>
    rw [← List.append_assoc, ofItems_concat, ofItems_concat]
    cases item with
    | initThis instr => simp [add, size_lines_ofItems, Item.lines_append]
    | _ => exact ih

theorem thisInit_eq_none_iff (items : List Item) :
    (ofItems items).thisInit = none ↔ ∀ item ∈ items, item.initializes = false := by
  induction items using List.reverseRecOn with
  | nil => simp [ofItems]
  | append_singleton items item ih =>
    rw [ofItems_concat, List.forall_mem_append, List.forall_mem_singleton, ← ih]
    cases item <;> simp [add, addLine, Item.initializes]

theorem thisInit_lt {items : List Item} {target : Nat} (h : (ofItems items).thisInit = some target) :
    target < (Item.lines items).length := by
  obtain ⟨before, instr, after, rfl, -, rfl⟩ := thisInit_ofItems.mp h
  rw [Item.lines_append, List.length_append]
  exact Nat.lt_add_of_pos_right (Nat.zero_lt_succ _)

/-- What a line becomes when its branch is resolved. -/
def Resolves (d : Draft) (i : Nat) : Line → Step → Prop
  | .plain instr, step => step = { instr }
  | .branch jump label, step =>
    ∃ target, d.placed[label]? = some target ∧ target < d.lines.size ∧
      -32768 ≤ (d.address target : Int) - d.address i ∧
      (d.address target : Int) - d.address i ≤ 32767 ∧
      step = { instr := .jump jump (Int16.ofInt ((d.address target : Int) - d.address i))
               target := some target }

private theorem resolves_of_resolveLine {d : Draft} {i : Nat} {line : Line} {step : Step}
    (h : d.resolveLine i line = .ok step) : d.Resolves i line step := by
  cases line with
  | plain instr =>
    cases h
    rfl
  | branch jump label =>
    simp only [resolveLine] at h
    split at h
    · cases h
    · rename_i target htarget
      split at h
      · rename_i hlt
        split at h
        · rename_i hrange
          cases h
          exact ⟨target, htarget, hlt, hrange.1, hrange.2, rfl⟩
        · cases h
      · cases h

private theorem resolves_of_resolveFrom {d : Draft} {i : Nat} {rest : List Line}
    {done steps : Array Step} (h : d.resolveFrom i rest done = .ok steps) :
    ∃ more : List Step, steps.toList = done.toList ++ more ∧ more.length = rest.length ∧
      ∀ k line step, rest[k]? = some line → more[k]? = some step → d.Resolves (i + k) line step := by
  induction rest generalizing i done with
  | nil =>
    cases h
    exact ⟨[], by simp⟩
  | cons line rest ih =>
    simp only [resolveFrom] at h
    split at h
    · cases h
    · rename_i step hstep
      obtain ⟨more, hsteps, hlength, hmore⟩ := ih h
      refine ⟨step :: more, by simp [hsteps], by simp [hlength], fun k line' step' hline hstep' => ?_⟩
      cases k with
      | zero =>
        cases hline
        cases hstep'
        exact resolves_of_resolveLine hstep
      | succ k =>
        rw [show i + (k + 1) = i + 1 + k by omega]
        exact hmore k line' step' hline hstep'

theorem resolves_of_resolve {d : Draft} {steps : Array Step} (h : d.resolve = .ok steps) :
    d.size ≤ 65535 ∧ steps.size = d.lines.size ∧
      ∀ i line step, d.lines.toList[i]? = some line → steps.toList[i]? = some step →
        d.Resolves i line step := by
  unfold resolve at h
  split at h
  · rename_i hsize
    obtain ⟨more, hsteps, hlength, hmore⟩ := resolves_of_resolveFrom h
    have hsteps' : steps.toList = more := by simpa using hsteps
    refine ⟨hsize, ?_, fun i line step hline hstep => ?_⟩
    · rw [← Array.length_toList, hsteps', hlength, Array.length_toList]
    · rw [hsteps'] at hstep
      have hresolves := hmore i line step hline hstep
      rw [Nat.zero_add] at hresolves
      exact hresolves
  · cases h

theorem Resolves.size_eq {d : Draft} {i : Nat} {line : Line} {step : Step}
    (h : d.Resolves i line step) : step.instr.size = line.size := by
  cases line with
  | plain instr =>
    rw [show step = { instr } from h]
    rfl
  | branch jump label =>
    obtain ⟨target, -, -, -, -, rfl⟩ := h
    rfl

end Draft

/-- The code that fills an unreachable stretch of the given size. -/
def throwing : Nat → List Instr
  | 0 => []
  | size + 1 => List.replicate size .nop ++ [.athrow]

/-- The code with unreachable stretches replaced, where `pending` bytes of a stretch have been
read. -/
def neutralized (pending : Nat) : List (Instr × Bool) → List Instr
  | [] => throwing pending
  | (instr, true) :: rest => neutralized (pending + instr.size) rest
  | (instr, false) :: rest => throwing pending ++ instr :: neutralized 0 rest

private theorem throwAfter_eq (code : List Instr) (size : Nat) :
    throwAfter code size = (throwing size).reverse ++ code := by
  cases size <;> simp [throwAfter, throwing]

private theorem neutralizeFrom_eq (pending : Nat) (done : List Instr) (code : List (Instr × Bool)) :
    neutralizeFrom pending done code = done.reverse ++ neutralized pending code := by
  induction code generalizing pending done with
  | nil => simp [neutralizeFrom, neutralized, throwAfter_eq]
  | cons head rest ih =>
    obtain ⟨instr, dead⟩ := head
    cases dead with
    | true => exact ih _ _
    | false => simp [neutralizeFrom, neutralized, ih, throwAfter_eq]

theorem neutralize_eq (code : List (Instr × Bool)) : neutralize code = neutralized 0 code := by
  rw [neutralize, neutralizeFrom_eq]
  rfl

theorem Instr.encodeAll_append (code more : List Instr) :
    encodeAll (code ++ more) = encodeAll code ++ encodeAll more := List.flatMap_append

theorem length_encodeAll_throwing (size : Nat) :
    (Instr.encodeAll (throwing size)).length = size := by
  cases size with
  | zero => rfl
  | succ size =>
    have hnops : (Instr.encodeAll (List.replicate size .nop)).length = size := by
      induction size with
      | zero => rfl
      | succ size ih =>
        rw [List.replicate_succ]
        have hnop : Instr.nop.encode.length = 1 := rfl
        simp only [Instr.encodeAll, List.flatMap_cons, List.length_append] at ih ⊢
        rw [ih, hnop, Nat.add_comm]
    rw [throwing, Instr.encodeAll_append, List.length_append, hnops]
    rfl

def Instr.totalSize : List (Instr × Bool) → Nat
  | [] => 0
  | (instr, _) :: rest => instr.size + totalSize rest

theorem length_encodeAll_neutralized (pending : Nat) (code : List (Instr × Bool)) :
    (Instr.encodeAll (neutralized pending code)).length = pending + Instr.totalSize code := by
  induction code generalizing pending with
  | nil => exact length_encodeAll_throwing pending
  | cons head rest ih =>
    obtain ⟨instr, dead⟩ := head
    cases dead with
    | true =>
      rw [neutralized, ih, Instr.totalSize]
      omega
    | false =>
      have hcons : Instr.encodeAll (instr :: neutralized 0 rest) =
          instr.encode ++ Instr.encodeAll (neutralized 0 rest) := rfl
      rw [neutralized, Instr.encodeAll_append, hcons, List.length_append, List.length_append,
        length_encodeAll_throwing, Instr.length_encode, ih, Instr.totalSize]
      omega

theorem neutralized_append (pending : Nat) (before : List (Instr × Bool)) (instr : Instr)
    (after : List (Instr × Bool)) :
    ∃ front, neutralized pending (before ++ (instr, false) :: after) =
        front ++ instr :: neutralized 0 after ∧
      (Instr.encodeAll front).length = pending + Instr.totalSize before := by
  induction before generalizing pending with
  | nil => exact ⟨throwing pending, rfl, length_encodeAll_throwing pending⟩
  | cons head before ih =>
    obtain ⟨other, dead⟩ := head
    cases dead with
    | true =>
      obtain ⟨front, hcode, hlength⟩ := ih (pending + other.size)
      refine ⟨front, hcode, ?_⟩
      rw [hlength, Instr.totalSize]
      omega
    | false =>
      obtain ⟨front, hcode, hlength⟩ := ih 0
      refine ⟨throwing pending ++ other :: front, ?_, ?_⟩
      · rw [List.cons_append, neutralized, hcode, List.append_assoc, List.cons_append]
      · have hcons : Instr.encodeAll (other :: front) = other.encode ++ Instr.encodeAll front := rfl
        rw [Instr.encodeAll_append, hcons, List.length_append, List.length_append,
          length_encodeAll_throwing, Instr.length_encode, hlength, Instr.totalSize]
        omega

theorem Instr.totalSize_append (code more : List (Instr × Bool)) :
    totalSize (code ++ more) = totalSize code + totalSize more := by
  induction code with
  | nil => simp [totalSize]
  | cons head code ih =>
    simp only [List.cons_append, totalSize, ih]
    omega

/-- A stretch of flagged instructions gives way to a throw. -/
theorem neutralized_stretch (pending : Nat) {stretch after : List (Instr × Bool)}
    (hstretch : ∀ x ∈ stretch, x.2 = true) (hafter : ∀ x ∈ after.head?, x.2 = false) :
    neutralized pending (stretch ++ after) =
      throwing (pending + Instr.totalSize stretch) ++ neutralized 0 after := by
  induction stretch generalizing pending with
  | nil =>
    cases after with
    | nil => simp [neutralized, throwing, Instr.totalSize]
    | cons head after =>
      obtain ⟨instr, flag⟩ := head
      have hflag : flag = false := hafter _ rfl
      rw [hflag]
      rfl
  | cons head stretch ih =>
    obtain ⟨instr, flag⟩ := head
    have hflag : flag = true := hstretch _ List.mem_cons_self
    rw [hflag, List.cons_append, neutralized, ih _ fun x hx => hstretch x (List.mem_cons_of_mem _ hx),
      Instr.totalSize, Nat.add_assoc]

namespace Assembly

/-- The instructions of resolved code in which the flagged ones are unreachable. -/
def instrs (steps : Array Step) (dead : List Bool) : List Instr :=
  neutralize ((steps.toList.map Step.instr).zip dead)

def bytes (steps : Array Step) (dead : List Bool) : List UInt8 := Instr.encodeAll (instrs steps dead)

section Bytes

variable {d : Draft} {steps : Array Step}

private theorem totalSize_zip_take {instrs : List Instr} {lines : List Line} {dead : List Bool}
    (hlength : instrs.length = lines.length) (hdead : dead.length = lines.length)
    (hsize : ∀ (k : Nat) (instr : Instr) (line : Line), instrs[k]? = some instr →
      lines[k]? = some line → instr.size = line.size) (i : Nat) :
    Instr.totalSize ((instrs.zip dead).take i) = Line.total (lines.take i) := by
  induction instrs generalizing lines dead i with
  | nil =>
    have hnil : lines = [] := List.length_eq_zero_iff.mp hlength.symm
    simp [hnil, Instr.totalSize, Line.total]
  | cons instr instrs ih =>
    cases lines with
    | nil => cases hlength
    | cons line lines =>
      cases dead with
      | nil => cases hdead
      | cons flag dead =>
        cases i with
        | zero => simp [Instr.totalSize, Line.total]
        | succ i =>
          have hhead := hsize 0 instr line rfl rfl
          have htail := ih (Nat.succ.inj hlength) (Nat.succ.inj hdead)
            (fun k instr line hi hl => hsize (k + 1) instr line hi hl) i
          simp only [List.zip_cons_cons, List.take_succ_cons, Instr.totalSize, Line.total, hhead,
            htail]

private theorem sizes_eq (h : d.resolve = .ok steps) (k : Nat) (instr : Instr) (line : Line)
    (hinstr : (steps.toList.map Step.instr)[k]? = some instr) (hline : d.lines.toList[k]? = some line) :
    instr.size = line.size := by
  rw [List.getElem?_map, Option.map_eq_some_iff] at hinstr
  obtain ⟨step, hstep, rfl⟩ := hinstr
  exact ((Draft.resolves_of_resolve h).2.2 k line step hline hstep).size_eq

theorem totalSize_take (h : d.resolve = .ok steps) {dead : List Bool}
    (hdead : dead.length = steps.size) (i : Nat) :
    Instr.totalSize (((steps.toList.map Step.instr).zip dead).take i) =
      Line.total (d.lines.toList.take i) := by
  obtain ⟨-, hsize, -⟩ := Draft.resolves_of_resolve h
  exact totalSize_zip_take (by simp [hsize]) (by simp [hdead, hsize]) (sizes_eq h) i

theorem length_bytes (h : d.resolve = .ok steps) {dead : List Bool}
    (hdead : dead.length = steps.size) :
    (bytes steps dead).length = Line.total d.lines.toList := by
  obtain ⟨-, hsize, -⟩ := Draft.resolves_of_resolve h
  have hlength : (steps.toList.map Step.instr).length = d.lines.toList.length := by simp [hsize]
  have htotal := totalSize_take h hdead (steps.toList.map Step.instr).length
  rw [hlength, List.take_length, List.take_of_length_le (by simp [hsize])] at htotal
  rw [bytes, instrs, neutralize_eq, length_encodeAll_neutralized, htotal, Nat.zero_add]

theorem exists_front (h : d.resolve = .ok steps) {dead : List Bool}
    (hdead : dead.length = steps.size) {i : Nat} {step : Step} (hstep : steps.toList[i]? = some step)
    (hlive : dead[i]? = some false) :
    ∃ front, instrs steps dead = front ++
        step.instr :: neutralized 0 (((steps.toList.map Step.instr).zip dead).drop (i + 1)) ∧
      (Instr.encodeAll front).length = Line.total (d.lines.toList.take i) := by
  have hpair : ((steps.toList.map Step.instr).zip dead)[i]? = some (step.instr, false) := by
    rw [List.getElem?_zip_eq_some]
    exact ⟨by rw [List.getElem?_map, hstep]; rfl, hlive⟩
  have hsplit : (steps.toList.map Step.instr).zip dead =
      ((steps.toList.map Step.instr).zip dead).take i ++
        (step.instr, false) :: ((steps.toList.map Step.instr).zip dead).drop (i + 1) := by
    obtain ⟨hlt, hget⟩ := List.getElem?_eq_some_iff.mp hpair
    rw [← hget, ← List.drop_eq_getElem_cons hlt, List.take_append_drop]
  obtain ⟨front, hcode, hfront⟩ := neutralized_append 0
    (((steps.toList.map Step.instr).zip dead).take i) step.instr
    (((steps.toList.map Step.instr).zip dead).drop (i + 1))
  rw [← hsplit] at hcode
  rw [totalSize_take h hdead i, Nat.zero_add] at hfront
  exact ⟨front, by rw [instrs, neutralize_eq, hcode], hfront⟩

private theorem exists_front_bytes (h : d.resolve = .ok steps) {dead : List Bool}
    (hdead : dead.length = steps.size) {i : Nat} {step : Step} (hstep : steps.toList[i]? = some step)
    (hlive : dead[i]? = some false) :
    ∃ front, bytes steps dead = front ++ (step.instr.encode ++ Instr.encodeAll
        (neutralized 0 (((steps.toList.map Step.instr).zip dead).drop (i + 1)))) ∧
      front.length = Line.total (d.lines.toList.take i) ∧
      (front ++ step.instr.encode).length = Line.total (d.lines.toList.take (i + 1)) := by
  obtain ⟨-, hsize, hresolves⟩ := Draft.resolves_of_resolve h
  obtain ⟨hilt, -⟩ := List.getElem?_eq_some_iff.mp hstep
  have hline : ∃ line, d.lines.toList[i]? = some line := by
    have hlt : i < d.lines.toList.length := by
      rw [Array.length_toList, ← hsize, ← Array.length_toList]
      exact hilt
    exact ⟨_, List.getElem?_eq_getElem hlt⟩
  obtain ⟨line, hline⟩ := hline
  have hsame : step.instr.size = line.size := (hresolves i line step hline hstep).size_eq
  obtain ⟨front, hcode, hfront⟩ := exists_front h hdead hstep hlive
  refine ⟨Instr.encodeAll front, ?_, hfront, ?_⟩
  · rw [bytes, hcode, Instr.encodeAll_append]
    rfl
  · rw [Line.total_take_succ hline, List.length_append, hfront, Instr.length_encode, hsame]

/-- An instruction that is not flagged is read at the address of its line, and what follows it
starts at the address of the next line. -/
theorem read_bytes (h : d.resolve = .ok steps) {dead : List Bool} (hdead : dead.length = steps.size)
    {i : Nat} {step : Step} (hstep : steps.toList[i]? = some step) (hlive : dead[i]? = some false) :
    Instr.read ((bytes steps dead).drop (Line.total (d.lines.toList.take i))) =
      .ok (step.instr, (bytes steps dead).drop (Line.total (d.lines.toList.take (i + 1)))) := by
  obtain ⟨front, hbytes, hfront, hnext⟩ := exists_front_bytes h hdead hstep hlive
  rw [hbytes, ← hfront, List.drop_left, Instr.read_encode_append, ← hnext, ← List.append_assoc,
    List.drop_left]

theorem neutralized_drop (h : d.resolve = .ok steps) {dead : List Bool}
    (hdead : dead.length = steps.size) {i j : Nat} (hij : i ≤ j)
    (hbetween : ∀ k : Nat, i ≤ k → k < j → dead[k]? = some true) (hnext : dead[j]? ≠ some true) :
    neutralized 0 (((steps.toList.map Step.instr).zip dead).drop i) =
      throwing (Line.total (d.lines.toList.take j) - Line.total (d.lines.toList.take i)) ++
        neutralized 0 (((steps.toList.map Step.instr).zip dead).drop j) := by
  have hall := totalSize_take h hdead j
  have hpart := totalSize_take h hdead i
  generalize hcode : (steps.toList.map Step.instr).zip dead = code at hall hpart ⊢
  have hflag : ∀ k : Nat, (code[k]?).map Prod.snd = dead[k]? := by
    intro k
    have hunzip : code.map Prod.snd = dead := by
      rw [← hcode, List.map_snd_zip]
      simp [hdead]
    rw [← List.getElem?_map, hunzip]
  have hsplit : code.drop i = (code.drop i).take (j - i) ++ code.drop j := by
    conv_lhs => rw [← List.take_append_drop (j - i) (code.drop i), List.drop_drop]
    rw [Nat.add_sub_cancel' hij]
  have hstretch : ∀ x ∈ (code.drop i).take (j - i), x.2 = true := by
    intro x hx
    obtain ⟨k, hk⟩ := List.mem_iff_getElem?.mp hx
    rw [List.getElem?_take] at hk
    split at hk
    · rename_i hlt
      rw [List.getElem?_drop] at hk
      have hk' := hflag (i + k)
      rw [hk, hbetween _ (by omega) (by omega)] at hk'
      exact Option.some.inj hk'
    · cases hk
  have hhead : ∀ x ∈ (code.drop j).head?, x.2 = false := by
    intro x hx
    rw [Option.mem_def, List.head?_drop] at hx
    have hx' := hflag j
    rw [hx] at hx'
    cases hflagged : x.2 with
    | false => rfl
    | true =>
      rw [Option.map_some, hflagged] at hx'
      exact absurd hx'.symm hnext
  have hsum : Instr.totalSize (code.take j) = Instr.totalSize (code.take i) +
      Instr.totalSize ((code.drop i).take (j - i)) := by
    rw [← Instr.totalSize_append, ← List.take_add, Nat.add_sub_cancel' hij]
  rw [hsplit, neutralized_stretch 0 hstretch hhead, Nat.zero_add, ← hall, ← hpart, hsum,
    Nat.add_sub_cancel_left]

/-- Behind an instruction that is not flagged, the flagged ones up to another that is not have given way
to as many bytes that end in a throw. -/
theorem drop_bytes (h : d.resolve = .ok steps) {dead : List Bool} (hdead : dead.length = steps.size)
    {i j : Nat} (hlive : dead[i]? = some false) (hij : i < j) (hj : j ≤ steps.size)
    (hbetween : ∀ k : Nat, i < k → k < j → dead[k]? = some true) (hnext : dead[j]? ≠ some true) :
    (bytes steps dead).drop (Line.total (d.lines.toList.take (i + 1))) =
      Instr.encodeAll (throwing (Line.total (d.lines.toList.take j) -
          Line.total (d.lines.toList.take (i + 1)))) ++
        (bytes steps dead).drop (Line.total (d.lines.toList.take j)) := by
  have hi : i < steps.toList.length := by
    rw [Array.length_toList]
    omega
  have hle : Line.total (d.lines.toList.take (i + 1)) ≤ Line.total (d.lines.toList.take j) := by
    have htake := Line.total_take_le (d.lines.toList.take j) (i + 1)
    rwa [List.take_take, Nat.min_eq_left hij] at htake
  obtain ⟨front, hbytes, -, hfront⟩ := exists_front_bytes h hdead (List.getElem?_eq_getElem hi) hlive
  rw [neutralized_drop h hdead hij hbetween hnext, Instr.encodeAll_append, ← List.append_assoc] at hbytes
  rw [← Nat.add_sub_cancel' hle, ← List.drop_drop, hbytes, ← hfront, List.drop_left, Nat.add_sub_cancel_left,
    List.drop_left' (length_encodeAll_throwing _)]

end Bytes

end Assembly

end Classwright
