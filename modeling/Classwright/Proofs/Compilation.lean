import Classwright.Proofs.Blocks
import Classwright.Proofs.Frames
import Classwright.Proofs.Layouts

/-!
# What the code of a method is made of

The code attribute of a generated method, taken apart: the items of its body, their slots and layout,
the resolved lines, and the attributes with the names of locals and with the frames.  All length
fields hold, so the code is read back from the attribute.
-/

namespace Classwright

structure Compiled where
  final : Lowering
  items : List Item
  layout? : Option Layout
  steps : Array Step
  maxStack : UInt16
  names : List Attribute
  frames : List MapFrame
  maps : List Attribute

namespace Compiled

def layout (c : Compiled) : Layout := c.layout?.getD .empty

def thisInit (c : Compiled) : Option Nat := (Draft.ofItems c.items).thisInit

def code (c : Compiled) : Code where
  maxStack := c.maxStack
  maxLocals := c.final.slots.next
  code := Flow.codeOf c.steps c.layout c.thisInit
  attributes := c.names ++ c.maps

end Compiled

/-- A method is compiled to the given parts, in terms of a final pool. -/
structure MethodDecl.Compiles (options : Options) (owner : ClassDecl) (m : MethodDecl) (b : Body)
    (fields : List Initializer) (q : Pool) (c : Compiled) : Prop where
  lowered : ∃ p, m.lower owner b fields p = .ok ((c.items, c.final.slots), c.final.pool)
  ok : c.final.Ok (· ∈ b.locals)
  le : c.final.pool ≤ q
  parameters : b.parameters <+: c.final.slots.locals.toList.map Prod.fst
  emits : Lower.EmitsBody owner m b fields c.final c.items
  layout : Ran q (m.layout? options owner b c.final.slots) c.layout?
  resolve : (Draft.ofItems c.items).resolve = .ok c.steps
  /-- The stack is measured when all entries of the code are in the pool. -/
  maxStack : ∃ pool, c.final.pool ≤ pool ∧ pool ≤ q ∧ c.maxStack = Instr.maxStack pool
    (Assembly.instrs c.steps ((Flow.analyze c.steps c.layout c.thisInit).toList.map Option.isNone))
  names : Ran q (nameAttributes options c.code.code.length c.final.slots) c.names
  frames : (c.layout? = none ∧ c.frames = []) ∨
    c.layout?.isSome = true ∧ Ran q (Assembly.mapFrames (Draft.ofItems c.items) c.steps c.layout
      (Flow.analyze c.steps c.layout c.thisInit)) c.frames
  maps : Ran q (stackMap c.frames) c.maps

namespace Lower

private theorem Emits.exists_last {ctx : MethodContext} {final : Lowering} {value : Option Local}
    {items : List Item} (h : Emits ctx final (.ret value) items) :
    ∃ front instr, items = front ++ [.op instr] ∧ instr.endsMethod = true := by
  cases value with
  | none => exact ⟨[], .returnVoid, h.2, rfl⟩
  | some l =>
    obtain ⟨-, kind, -, x, -, cast, -, rfl⟩ := h
    exact ⟨x :: cast.map .op, .returnValue kind, rfl, rfl⟩

theorem EmitsBody.getLast?_lines {owner : ClassDecl} {m : MethodDecl} {b : Body}
    {fields : List Initializer} {final : Lowering} {items : List Item}
    (h : EmitsBody owner m b fields final items) :
    ∃ instr, (Item.lines items).getLast? = some (.plain instr) ∧ instr.endsMethod = true := by
  have hlast : ∃ front instr, items = front ++ [.op instr] ∧ instr.endsMethod = true := by
    obtain ⟨chained, -, filled, -, blocks, hblocks, ending, ⟨⟨value, hret⟩, rfl⟩ | ⟨-, -, rfl⟩, rfl⟩ := h
    · obtain ⟨init, hinit⟩ := List.getLast?_eq_some_iff.mp hret
      rw [hinit, ← List.forall₂_reverse_iff, List.reverse_concat] at hblocks
      obtain ⟨block, rest, hemits, -, hrest⟩ := List.forall₂_cons_left_iff.mp hblocks
      obtain ⟨before, instr, rfl, hends⟩ := hemits.exists_last
      have hlist : blocks = rest.reverse ++ [before ++ [.op instr]] := by
        rw [← List.reverse_cons, ← hrest, List.reverse_reverse]
      exact ⟨chained ++ filled.flatten ++ rest.reverse.flatten ++ before, instr, by simp [hlist], hends⟩
    · exact ⟨chained ++ filled.flatten ++ blocks.flatten, .returnVoid, rfl, rfl⟩
  obtain ⟨front, instr, rfl, hends⟩ := hlast
  refine ⟨instr, ?_, hends⟩
  rw [Item.lines_append]
  exact List.getLast?_concat

end Lower

/-- Control passes to the next line unless the instruction ends the method or always branches. -/
theorem Draft.Resolves.falls_eq {d : Draft} {i : Nat} {line : Line} {step : Step}
    (h : d.Resolves i line step) (hplain : ∀ instr, line = .plain instr → instr.isJump = false) :
    step.falls = !(step.instr.endsMethod || step.instr.isGoto) := by
  cases line with
  | plain instr =>
    rw [show step = { instr } from h]
    have hjump := hplain instr rfl
    cases instr <;> first | rfl | cases hjump
  | branch when label =>
    obtain ⟨target, -, -, -, -, rfl⟩ := h
    rfl

theorem Assembly.run_ofItems_iff {items : List Item} {layout? : Option Layout} {assembly : Assembly}
    {p q : Pool} :
    ofItems items layout? p = .ok (assembly, q) ↔
      ∃ steps, (Draft.ofItems items).resolve = .ok steps ∧
        assembly.code = instrs steps ((Flow.analyze steps (layout?.getD .empty)
          (Draft.ofItems items).thisInit).toList.map Option.isNone) ∧
        assembly.maxStack = Instr.maxStack q assembly.code ∧
        ((layout? = none ∧ assembly.frames = [] ∧ p = q) ∨
          layout?.isSome = true ∧ mapFrames (Draft.ofItems items) steps (layout?.getD .empty)
            (Flow.analyze steps (layout?.getD .empty) (Draft.ofItems items).thisInit) p =
              .ok (assembly.frames, q)) := by
  obtain ⟨code, maxStack, frames⟩ := assembly
  simp only [ofItems, run_bind_iff]
  constructor
  · rintro ⟨steps, p₁, hlift, h⟩
    obtain ⟨hresolve, rfl⟩ := run_lift_iff.mp hlift
    refine ⟨steps, hresolve, ?_⟩
    cases layout? with
    | none =>
      obtain ⟨frames, p₂, hframes, h⟩ := run_bind_iff.mp h
      obtain ⟨rfl, rfl⟩ := Prod.mk.inj (run_pure_iff.mp hframes)
      cases h
      exact ⟨rfl, rfl, .inl ⟨rfl, rfl, rfl⟩⟩
    | some layout =>
      obtain ⟨frames, p₂, hframes, h⟩ := run_bind_iff.mp h
      cases h
      exact ⟨rfl, rfl, .inr ⟨rfl, hframes⟩⟩
  · rintro ⟨steps, hresolve, rfl, rfl, ⟨rfl, rfl, rfl⟩ | ⟨hlayout, hframes⟩⟩
    · exact ⟨steps, p, run_lift_iff.mpr ⟨hresolve, rfl⟩, rfl⟩
    · refine ⟨steps, p, run_lift_iff.mpr ⟨hresolve, rfl⟩, ?_⟩
      rw [if_pos hlayout]
      exact run_bind_iff.mpr ⟨frames, q, hframes, rfl⟩

theorem Assembly.run_ofItems_error_iff {items : List Item} {layout? : Option Layout} {p : Pool}
    {e : GenerateError} :
    ofItems items layout? p = .error e ↔
      (Draft.ofItems items).resolve = .error e ∨
        ∃ steps, (Draft.ofItems items).resolve = .ok steps ∧ layout?.isSome = true ∧
          mapFrames (Draft.ofItems items) steps (layout?.getD .empty)
            (Flow.analyze steps (layout?.getD .empty) (Draft.ofItems items).thisInit) p = .error e := by
  simp only [ofItems, run_bind_error_iff]
  refine or_congr run_lift_error_iff ?_
  constructor
  · rintro ⟨steps, p₁, hlift, h⟩
    obtain ⟨hresolve, rfl⟩ := run_lift_iff.mp hlift
    refine ⟨steps, hresolve, ?_⟩
    split at h
    · rename_i hlayout
      rcases run_bind_error_iff.mp h with h | ⟨frames, p₂, -, ⟨⟩⟩
      exact ⟨hlayout, h⟩
    · cases h
  · rintro ⟨steps, hresolve, hlayout, h⟩
    refine ⟨steps, p, run_lift_iff.mpr ⟨hresolve, rfl⟩, ?_⟩
    rw [if_pos hlayout]
    exact run_bind_error_iff.mpr (.inl h)

theorem Assembly.parts_of_run {items : List Item} {layout? : Option Layout} {assembly : Assembly}
    {p p' q : Pool} (h : ofItems items layout? p = .ok (assembly, p')) (hp : p.Sound) (hle : p' ≤ q) :
    ∃ steps, (Draft.ofItems items).resolve = .ok steps ∧
      assembly.code = instrs steps ((Flow.analyze steps (layout?.getD .empty)
        (Draft.ofItems items).thisInit).toList.map Option.isNone) ∧
      assembly.maxStack = Instr.maxStack p' assembly.code ∧
      ((layout? = none ∧ assembly.frames = []) ∨
        layout?.isSome = true ∧ Ran q (mapFrames (Draft.ofItems items) steps (layout?.getD .empty)
          (Flow.analyze steps (layout?.getD .empty) (Draft.ofItems items).thisInit))
            assembly.frames) := by
  obtain ⟨steps, hresolve, hcode, hstack, hframes⟩ := run_ofItems_iff.mp h
  refine ⟨steps, hresolve, hcode, hstack, ?_⟩
  rcases hframes with ⟨hlayout, hnil, -⟩ | ⟨hlayout, hrun⟩
  · exact .inl ⟨hlayout, hnil⟩
  · exact .inr ⟨hlayout, p, p', hrun, hp, hle⟩

/-- The frames fail only for want of the class of a throwable. -/
theorem Assembly.run_mapFrames_error_iff {d : Draft} {steps : Array Step} {layout : Layout}
    {states : Flow.States layout.width steps.size} {p : Pool} {e : GenerateError} :
    mapFrames d steps layout states p = .error e ↔
      (Flow.deadStarts states).isEmpty = false ∧
        ∃ overflow, (Pool.classInfo "java/lang/Throwable" p).1 = .error overflow ∧
          e = overflow.toError := by
  unfold mapFrames
  split
  · rename_i hempty
    rw [hempty]
    constructor
    · rintro ⟨⟩
    · rintro ⟨⟨⟩, -⟩
  · rename_i hempty
    rw [Bool.not_eq_true] at hempty
    rw [run_bind_error_iff, run_pooled_error_iff]
    constructor
    · rintro (h | ⟨throwable, p', -, ⟨⟩⟩)
      exact ⟨hempty, h⟩
    · rintro ⟨-, h⟩
      exact .inl h

theorem Assembly.frames_of_ran {d : Draft} {steps : Array Step} {layout : Layout}
    {states : Flow.States layout.width steps.size} {frames : List MapFrame} {q : Pool}
    (h : Ran q (mapFrames d steps layout states) frames) :
    ∃ throwable,
      (Flow.deadStarts states ≠ [] →
        q.meaning? throwable = some (.classInfo "java/lang/Throwable")) ∧
      frames = (Flow.frames d steps states throwable).write (frameLocals layout.entry.toList) := by
  unfold mapFrames at h
  dsimp only at h
  split at h
  · rename_i hempty
    have hnil := List.isEmpty_iff.mp hempty
    refine ⟨0, fun hne => absurd hnil hne, ?_⟩
    rw [h.eq_of_pure, Flow.frames, hnil]
    rfl
  · obtain ⟨throwable, hthrowable, h⟩ := Ran.of_bind (Grows.classInfo _) (fun _ => .pure _) h
    exact ⟨throwable, fun _ => meaning?_of_ran (r := .classInfo "java/lang/Throwable") hthrowable,
      h.eq_of_pure⟩

private theorem length_encode_localVariables (table : List LocalVariable) :
    (AttributeBody.localVariables table).encode.length = 2 + 10 * table.length := by
  have hflat : (table.flatMap LocalVariable.encode).length = 10 * table.length := by
    induction table with
    | nil => rfl
    | cons v table ih =>
      rw [List.flatMap_cons, List.length_append, ih, List.length_cons]
      simp [LocalVariable.encode]
      omega
  rw [AttributeBody.encode, Bytes.counted16, List.length_append, hflat, Bytes.length_u16]

namespace MethodDecl

variable {options : Options} {owner : ClassDecl} {m : MethodDecl} {b : Body}
  {fields : List Initializer} {p q : Pool}

/-- The parts of a method that is compiled, with the pool on which its body is lowered. -/
theorem compiles_of_run (hp : p.Sound) {a : Attribute}
    (h : m.codeAttribute options owner b fields p = .ok (a, q)) :
    ∃ c, m.lower owner b fields p = .ok ((c.items, c.final.slots), c.final.pool) ∧
      m.Compiles options owner b fields q c ∧ a.body = c.code.encode ∧
      q.meaning? a.name = some (.utf8 "Code") := by
  simp only [codeAttribute, run_bind_iff] at h
  obtain ⟨⟨items, slots⟩, p₁, hlower, layout?, p₂, hlayout, assembly, p₃, hassembly, names, p₄, hnames,
    maps, p₅, hmaps, hnamed⟩ := h
  obtain ⟨hok, -, hparameters, hemits⟩ :=
    Lower.body_spec (T := (· ∈ b.locals)) owner m b fields hp (fun _ hl => hl)
      (run_lower_iff.mp hlower)
  have hp₁ : p₁.Sound := hok.sound
  obtain ⟨hp₂, hle₂⟩ := grows_layout? options owner m b slots p₁ layout? p₂ hlayout hp₁
  obtain ⟨hp₃, hle₃⟩ := Assembly.grows_ofItems items layout? p₂ assembly p₃ hassembly hp₂
  obtain ⟨hp₄, hle₄⟩ := grows_nameAttributes options _ slots p₃ names p₄ hnames hp₃
  obtain ⟨hp₅, hle₅⟩ := grows_stackMap assembly.frames p₄ maps p₅ hmaps hp₄
  have hle₆ := (grows_named _ "Code" p₅ a q hnamed hp₅).2
  obtain ⟨hbody, hname⟩ := holds_of_ran ⟨p₅, q, hnamed, hp₅, Pool.le_refl q⟩
  have hle₅' := Pool.le_trans hle₅ hle₆
  have hle₄' := Pool.le_trans hle₄ hle₅'
  have hle₃' := Pool.le_trans hle₃ hle₄'
  obtain ⟨steps, hresolve, hcode, hstack, hframes⟩ := Assembly.parts_of_run hassembly hp₂ hle₄'
  rw [hcode] at hstack hnames
  refine ⟨⟨⟨p₁, slots⟩, items, layout?, steps, assembly.maxStack, names, assembly.frames, maps⟩,
    hlower, ⟨⟨p, hlower⟩, hok, Pool.le_trans hle₂ hle₃', hparameters, hemits,
      ⟨p₁, p₂, hlayout, hp₁, hle₃'⟩, hresolve, ⟨p₃, Pool.le_trans hle₂ hle₃, hle₄', hstack⟩,
      ⟨p₃, p₄, hnames, hp₃, hle₅'⟩, hframes, p₄, p₅, hmaps, hp₄, hle₆⟩, ?_, hname⟩
  rw [hbody, hcode]
  rfl

/-- The entry names the local, for all of code of the given length. -/
structure Lists (q : Pool) (length : Nat) (entry : Local × UInt16) (v : LocalVariable) : Prop where
  start : v.start = 0
  length : v.length = UInt16.ofNat length
  name : q.meaning? v.name = some (.utf8 entry.1.name)
  descriptor : q.meaning? v.descriptor = some (.utf8 entry.1.type.descriptor)
  slot : v.slot = entry.2

private theorem lists_of_ran {length : Nat} {entry : Local × UInt16} {v : LocalVariable}
    (h : Ran q (localVariable (UInt16.ofNat length) entry) v) : Lists q length entry v := by
  obtain ⟨name, hname, h⟩ := Ran.of_bind (Grows.utf8 _) (fun _ => (Grows.utf8 _).bind fun _ => .pure _) h
  obtain ⟨descriptor, hdescriptor, h⟩ := Ran.of_bind (Grows.utf8 _) (fun _ => .pure _) h
  cases h.eq_of_pure
  exact ⟨rfl, rfl, meaning?_of_ran (r := .utf8 _) hname, meaning?_of_ran (r := .utf8 _) hdescriptor, rfl⟩

theorem lists_names_of_ran {length : Nat} {slots : Slots} {names : List Attribute}
    (h : Ran q (nameAttributes options length slots) names) :
    if options.localNames && !slots.locals.isEmpty then
      ∃ a table, names = [a] ∧ List.Forall₂ (Lists q length) slots.locals.toList table ∧
        a.Holds q "LocalVariableTable" (.localVariables table)
    else names = [] := by
  unfold nameAttributes at h
  cases hnames : options.localNames with
  | false =>
    rw [hnames] at h
    exact h.eq_of_pure
  | true =>
    rw [hnames, if_pos rfl, localTable] at h
    cases hempty : slots.locals.isEmpty with
    | true =>
      rw [hempty] at h
      exact h.eq_of_pure
    | false =>
      rw [hempty, if_neg Bool.false_ne_true] at h
      obtain ⟨table, htable, h⟩ := Ran.of_bind (.mapM (grows_localVariable _) _)
        (fun _ => (grows_named _ _).bind fun _ => .pure _) h
      obtain ⟨a, ha, h⟩ := Ran.of_bind (grows_named _ _) (fun _ => .pure _) h
      refine ⟨a, table, h.eq_of_pure, ?_, holds_of_ran ha⟩
      exact (htable.of_mapM (grows_localVariable _)).imp fun entry v => lists_of_ran

theorem names_of_ran {length : Nat} {slots : Slots} {names : List Attribute}
    (h : Ran q (nameAttributes options length slots) names) :
    names = [] ∨ ∃ a table, names = [a] ∧ table.length = slots.locals.size ∧
      a.Holds q "LocalVariableTable" (.localVariables table) := by
  have hlists := lists_names_of_ran h
  split at hlists
  · obtain ⟨a, table, hone, htable, hholds⟩ := hlists
    exact .inr ⟨a, table, hone, by rw [← htable.length_eq, Array.length_toList], hholds⟩
  · exact .inl hlists

theorem maps_of_ran {frames : List MapFrame} {maps : List Attribute}
    (h : Ran q (stackMap frames) maps) :
    (frames = [] ∧ maps = []) ∨ ∃ a, maps = [a] ∧ a.body = (AttributeBody.stackMap frames).encode ∧
      q.meaning? a.name = some (.utf8 "StackMapTable") := by
  unfold stackMap at h
  split at h
  · rename_i hempty
    exact .inl ⟨List.isEmpty_iff.mp hempty, h.eq_of_pure⟩
  · obtain ⟨a, ha, h⟩ := Ran.of_bind (grows_named _ _) (fun _ => .pure _) h
    obtain ⟨hbody, hname⟩ := holds_of_ran ha
    exact .inr ⟨a, h.eq_of_pure, hbody, hname⟩

section Compiles

variable {c : Compiled}

theorem Compiles.mono {q' : Pool} (h : m.Compiles options owner b fields q c) (hle : q ≤ q') :
    m.Compiles options owner b fields q' c :=
  { h with
    le := Pool.le_trans h.le hle
    layout := h.layout.mono hle
    maxStack := h.maxStack.imp fun _ ⟨hfinal, hq, heq⟩ => ⟨hfinal, Pool.le_trans hq hle, heq⟩
    names := h.names.mono hle
    frames := h.frames.imp_right fun ⟨hlayout, hframes⟩ => ⟨hlayout, hframes.mono hle⟩
    maps := h.maps.mono hle }

theorem Compiles.layout_of (h : m.Compiles options owner b fields q c) :
    if options.writesFrames then
      ∃ layout, c.layout? = some layout ∧ layout.Of owner m b c.final.slots q
    else c.layout? = none := by
  have hlayout := h.layout
  unfold layout? at hlayout
  split
  · rename_i hwrites
    rw [if_pos hwrites] at hlayout
    obtain ⟨p, p', hrun, hp, hle⟩ := hlayout
    obtain ⟨layout, hlayout, hsome⟩ := run_map_iff.mp hrun
    exact ⟨layout, hsome.symm, Layout.of_ran h.ok.slots ⟨p, p', hlayout, hp, hle⟩⟩
  · rename_i hwrites
    rw [if_neg hwrites] at hlayout
    exact hlayout.eq_of_pure

private theorem Compiles.width_le (h : m.Compiles options owner b fields q c) :
    c.layout.width ≤ 65535 := by
  have hlayout := h.layout_of
  split at hlayout
  · obtain ⟨layout, hsome, hof⟩ := hlayout
    rw [Compiled.layout, hsome, Option.getD_some, hof.width]
    exact Nat.le_of_lt_succ c.final.slots.next.toNat_lt
  · rw [Compiled.layout, hlayout]
    exact Nat.zero_le _

theorem Compiles.length_locals_le (h : m.Compiles options owner b fields q c) :
    c.final.slots.locals.size ≤ 65535 := by
  have hle := h.ok.slots.tiles.length_le
  have hlt := c.final.slots.next.toNat_lt
  rw [Array.length_toList] at hle
  omega

theorem Compiles.frames_fit (h : m.Compiles options owner b fields q c) :
    c.frames.length ≤ 65535 ∧ (∀ f ∈ c.frames, f.Fits) ∧
      (AttributeBody.stackMap c.frames).encode.length < 4294967296 := by
  rcases h.frames with ⟨-, hnil⟩ | ⟨-, hframes⟩
  · rw [hnil]
    exact ⟨by simp, by simp, by decide⟩
  · obtain ⟨throwable, -, hwritten⟩ := Assembly.frames_of_ran hframes
    obtain ⟨instr, hlast, -⟩ := h.emits.getLast?_lines
    rw [hwritten]
    exact Flow.stackMap_fits h.resolve hlast h.width_le _ throwable _

theorem Compiles.first_mem (h : m.Compiles options owner b fields q c) {l : Local}
    (hl : b.parameters.head? = some l) :
    (l, 0) ∈ c.final.slots.locals.toList := by
  obtain ⟨rest, hrest⟩ := List.head?_eq_some_iff.mp hl
  have hparameters := h.parameters
  have htiles := h.ok.slots.tiles
  rw [hrest] at hparameters
  cases hlocals : c.final.slots.locals.toList with
  | nil =>
    rw [hlocals] at hparameters
    cases List.prefix_nil.mp hparameters
  | cons first more =>
    rw [hlocals] at hparameters htiles
    obtain ⟨hfirst, -⟩ := List.cons_prefix_cons.mp hparameters
    obtain ⟨l', slot⟩ := first
    have hslot : slot = 0 := UInt16.toNat_inj.mp htiles.1
    rw [hfirst, hslot]
    exact List.mem_cons_self

theorem Compiles.length_code_le (h : m.Compiles options owner b fields q c) :
    c.code.code.length ≤ 65535 := by
  rw [Compiled.code, Flow.length_codeOf h.resolve, ← Draft.size_ofItems]
  exact (Draft.resolves_of_resolve h.resolve).1

theorem Compiles.fits (h : m.Compiles options owner b fields q c) : c.code.Fits where
  code := Nat.lt_of_le_of_lt h.length_code_le (by decide)
  handlers := Nat.zero_le _
  attributes := by
    have hnames : c.names.length ≤ 1 ∧ ∀ a ∈ c.names, a.body.length < 4294967296 := by
      rcases names_of_ran h.names with hnil | ⟨a, table, hone, htable, hbody, -⟩
      · simp [hnil]
      · have hle := h.length_locals_le
        have hlength := length_encode_localVariables table
        rw [hone, List.forall_mem_singleton, hbody]
        exact ⟨Nat.le_refl 1, by omega⟩
    have hmaps : c.maps.length ≤ 1 ∧ ∀ a ∈ c.maps, a.body.length < 4294967296 := by
      rcases maps_of_ran h.maps with ⟨-, hnil⟩ | ⟨a, hone, hbody, -⟩
      · simp [hnil]
      · rw [hone, List.forall_mem_singleton, hbody]
        exact ⟨Nat.le_refl 1, h.frames_fit.2.2⟩
    refine ⟨?_, List.forall_mem_append.mpr ⟨hnames.2, hmaps.2⟩⟩
    rw [Compiled.code, List.length_append]
    omega

theorem Compiles.holds (h : m.Compiles options owner b fields q c) : ∀ a ∈ c.code.attributes,
    (∃ table, table.length ≤ 65535 ∧ a.Holds q "LocalVariableTable" (.localVariables table)) ∨
      a.Holds q "StackMapTable" (.stackMap c.frames) := by
  refine List.forall_mem_append.mpr ⟨?_, ?_⟩
  · rcases names_of_ran h.names with hnil | ⟨a, table, hone, htable, hholds⟩
    · simp [hnil]
    · rw [hone]
      have hlength : table.length ≤ 65535 := htable.trans_le h.length_locals_le
      exact List.forall_mem_singleton.mpr (.inl ⟨table, hlength, hholds⟩)
  · rcases maps_of_ran h.maps with ⟨-, hnil⟩ | ⟨a, hone, hholds⟩
    · simp [hnil]
    · rw [hone]
      exact List.forall_mem_singleton.mpr (.inr hholds)

end Compiles

private theorem exists_code_of_ran {code : List Attribute} (hbody : m.body? = some b)
    (h : Ran q (m.codeAttributes options owner fields) code) :
    ∃ a c, code = [a] ∧
      (∃ p, p.Sound ∧ m.lower owner b fields p = .ok ((c.items, c.final.slots), c.final.pool)) ∧
      m.Compiles options owner b fields q c ∧ a.Holds q "Code" (.code c.code) := by
  obtain ⟨p, p', hrun, hp, hle⟩ := h
  rw [codeAttributes, hbody] at hrun
  obtain ⟨a, p₁, hattribute, hpure⟩ := run_bind_iff.mp hrun
  obtain ⟨rfl, rfl⟩ := Prod.mk.inj (run_pure_iff.mp hpure)
  obtain ⟨c, hlower, hcompiles, hencode, hname⟩ := compiles_of_run hp hattribute
  exact ⟨a, c, rfl, ⟨p, hp, hlower⟩, hcompiles.mono hle, hencode, Pool.meaning?_mono hle hname⟩

theorem code_of_ran {code : List Attribute} (h : Ran q (m.codeAttributes options owner fields) code) :
    (m.body? = none ∧ code = []) ∨ ∃ b a c, m.body? = some b ∧ code = [a] ∧
      m.Compiles options owner b fields q c ∧ a.Holds q "Code" (.code c.code) := by
  cases hbody : m.body? with
  | none =>
    rw [codeAttributes, hbody] at h
    exact .inl ⟨rfl, h.eq_of_pure⟩
  | some b =>
    obtain ⟨a, c, hcode, -, hcompiles, hholds⟩ := exists_code_of_ran hbody h
    exact .inr ⟨b, a, c, rfl, hcode, hcompiles, hholds⟩

end MethodDecl

namespace ClassDecl

variable {options : Options} {c : ClassDecl} {file : ClassFile} {q : Pool}

/-- Every method with a body has code in the class file, which is read back from it. -/
theorem Generated.exists_lowered (h : c.Generated options file q) {i : Nat} {m : MethodDecl}
    {fields : List Initializer} {b : Body} (hm : c.plan[i]? = some (m, fields))
    (hbody : m.body? = some b) :
    ∃ member compiled, file.methods[i]? = some member ∧ m.Generated options c fields member q ∧
      (∃ p, p.Sound ∧
        m.lower c b fields p = .ok ((compiled.items, compiled.final.slots), compiled.final.pool)) ∧
      m.Compiles options c b fields q compiled ∧ file.codeOf? member = some compiled.code := by
  obtain ⟨hlt, hget⟩ := List.getElem?_eq_some_iff.mp hm
  have hlt' : i < file.methods.length := by
    rw [← h.methods.2.length_eq]
    exact hlt
  have hgenerated := h.methods.2.get hlt hlt'
  rw [List.get_eq_getElem, List.get_eq_getElem, hget] at hgenerated
  obtain ⟨code, rest, hcodes, hattributes, -⟩ := hgenerated.code
  obtain ⟨a, compiled, rfl, hlowered, hcompiles, hholds⟩ := MethodDecl.exists_code_of_ran hbody hcodes
  refine ⟨file.methods[i], compiled, List.getElem?_eq_getElem hlt', hgenerated, hlowered, hcompiles, ?_⟩
  have htext : file.text? a.name = some "Code" := h.text? hholds.2
  have hread : Code.read.run a.body = .ok compiled.code := by
    have hcode := Code.reads_read compiled.code [] (hcompiles.fits)
    rw [List.append_nil] at hcode
    rw [hholds.1]
    exact Reader.run_of_ok hcode
  rw [ClassFile.codeOf?, hattributes, ClassFile.attribute?, List.singleton_append,
    List.find?_cons_of_pos (by simp [htext])]
  simp [hread]
  rfl

theorem Generated.exists_code (h : c.Generated options file q) {i : Nat} {m : MethodDecl}
    {fields : List Initializer} {b : Body} (hm : c.plan[i]? = some (m, fields))
    (hbody : m.body? = some b) :
    ∃ member compiled, file.methods[i]? = some member ∧ m.Generated options c fields member q ∧
      m.Compiles options c b fields q compiled ∧ file.codeOf? member = some compiled.code := by
  obtain ⟨member, compiled, hmember, hgenerated, -, hcompiles, hcode⟩ := h.exists_lowered hm hbody
  exact ⟨member, compiled, hmember, hgenerated, hcompiles, hcode⟩

private theorem exists_plan {i : Nat} {m : MethodDecl} (hm : c.methods[i]? = some m) :
    ∃ fields, c.plan[i]? = some (m, fields) := by
  have hall : c.allMethods[i]? = some m := by
    unfold allMethods
    split
    · exact hm
    · rw [List.getElem?_append_left (List.getElem?_eq_some_iff.mp hm).1]
      exact hm
  rw [← map_share c.initializers c.allMethods, List.getElem?_map, Option.map_eq_some_iff] at hall
  obtain ⟨⟨m', fields⟩, hplan, rfl⟩ := hall
  exact ⟨fields, hplan⟩

theorem Generated.exists_compiled (h : c.Generated options file q) {i : Nat} {m : MethodDecl}
    {b : Body} (hm : c.methods[i]? = some m) (hbody : m.body? = some b) :
    ∃ member fields compiled, file.methods[i]? = some member ∧
      (m.isStaticInitializer = false → fields = []) ∧
      (c.plan[i]? = some (m, fields) ∧ m.Generated options c fields member q) ∧
      m.Compiles options c b fields q compiled ∧ file.codeOf? member = some compiled.code := by
  obtain ⟨fields, hplan⟩ := exists_plan hm
  obtain ⟨member, compiled, hmember, hgenerated, hcompiles, hcode⟩ := h.exists_code hplan hbody
  exact ⟨member, fields, compiled, hmember, eq_nil_of_mem_share (List.mem_of_getElem? hplan),
    ⟨hplan, hgenerated⟩, hcompiles, hcode⟩

end ClassDecl

end Classwright
