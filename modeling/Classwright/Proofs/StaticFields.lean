import Classwright.Proofs.Resolution

/-!
# How static fields get their values

A value that no attribute can hold is given to its field by code at the front of a static initializer:
the value is pushed and put into the field.  The first static initializer with code does this for all
fields in the order of their declaration, and no other method does.  The field is named by its name and
the type of the last field that has this name.
-/

namespace Classwright

private theorem Line.eq_of_resolved_plain {instrs found : List Instr}
    (h : List.Forall₂ Line.Resolved (instrs.map .plain) found) : found = instrs := by
  rw [List.forall₂_map_left_iff] at h
  induction h with
  | nil => rfl
  | @cons instr found instrs rest hhead _ ih =>
    rw [ih]
    rcases hhead with heq | ⟨_, _, _, heq, -⟩
    · cases heq
      rfl
    · cases heq

def Pool.Fills (p : Pool) (c : ClassDecl) (i : Initializer) (instrs : List Instr) : Prop :=
  ∃ pushed, Ran p i.value.push pushed ∧
    ∃ index, p.meaning? index = some (.fieldRef c.this.name i.field i.type.descriptor) ∧
      instrs = pushed ++ [.field .putStatic index]

namespace Lower

variable {owner : ClassDecl} {final : Lowering} {i : Initializer} {items : List Item}

private theorem Fills.passes (h : Fills owner final i items) : Item.Passes items := by
  obtain ⟨pushed, hpushed, index, -, rfl⟩ := h
  intro line hline
  rw [lines_map_op] at hline
  rcases List.mem_append.mp hline with hline | hline
  · obtain ⟨instr, hinstr, rfl⟩ := List.mem_map.mp hline
    have hoperation := Literal.isOperation_of_loads (Literal.loads_of_ran hpushed) instr hinstr
    exact ⟨instr, rfl, Instr.endsMethod_of_isOperation hoperation⟩
  · exact ⟨_, List.mem_singleton.mp hline, rfl⟩

private theorem Fills.of_resolved (h : Fills owner final i items) {q : Pool} (hle : final.pool ≤ q)
    {segment : List Instr} (hresolved : List.Forall₂ Line.Resolved (Item.lines items) segment) :
    q.Fills owner i segment := by
  obtain ⟨pushed, hpushed, index, hindex, rfl⟩ := h
  refine ⟨pushed, hpushed.mono hle, index, Pool.meaning?_mono hle hindex, ?_⟩
  rw [lines_map_op] at hresolved
  exact Line.eq_of_resolved_plain (by rw [List.map_append]; exact hresolved)

theorem Chains.eq_nil {m : MethodDecl} {b : Body} (h : Chains owner m b final items)
    (hm : m.initializesThis = false) : items = [] := by
  rw [Chains, hm] at h
  exact h

end Lower

namespace MethodDecl.Compiles

variable {options : Options} {owner : ClassDecl} {m : MethodDecl} {b : Body}
  {fields : List Initializer} {q : Pool} {c : Compiled}

/-- The code of a method that is no constructor fills the fields that are left to it, and goes on with
the code of its statements. -/
theorem exists_fills (h : m.Compiles options owner b fields q c) (hm : m.initializesThis = false) :
    ∃ fills rest, q.RealizesIn ([] :: fills ++ rest) c.code.code (m.uses owner fields b) ∧
      List.Forall₂ (q.Fills owner) fields fills := by
  obtain ⟨parts, hparts, hitems⟩ := h.emits.exists_parts
  have hrealizes := h.realizesIn hparts hitems
  have hchained : parts.chained = [] := hparts.chained.eq_nil hm
  have hpasses : ∀ n, ∀ before ∈ (parts.chained :: parts.filled).take n, Item.Passes before := by
    intro n before hbefore
    rcases List.mem_cons.mp (List.mem_of_mem_take hbefore) with rfl | hbefore
    · rw [hchained]
      exact fun line hline => (nomatch hline)
    · obtain ⟨i, -, hfills⟩ := exists_left_of_forall₂ hparts.filled hbefore
      exact hfills.passes
  have hsegment : ∀ (n : Nat) (part : List Item), (parts.chained :: parts.filled)[n]? = some part →
      ∃ segment, (Flow.segments parts.all c.steps c.layout c.thisInit)[n]? = some segment ∧
        List.Forall₂ Line.Resolved (Item.lines part) segment := by
    intro n part hpart
    have hlt := (List.getElem?_eq_some_iff.mp hpart).1
    have hall : parts.all = (parts.chained :: parts.filled) ++ (parts.blocks ++ [parts.ending]) :=
      List.append_assoc ..
    refine h.exists_segment hparts hitems ?_ ?_
    · rw [hall, List.getElem?_append_left hlt, hpart]
    · rw [hall, List.take_append_of_le_length (Nat.le_of_lt hlt)]
      exact hpasses n
  generalize Flow.segments parts.all c.steps c.layout c.thisInit = segments at hrealizes hsegment
  obtain ⟨front, hfront, hnil⟩ := hsegment 0 parts.chained rfl
  rw [hchained] at hnil
  cases hnil
  cases segments with
  | nil => cases hfront
  | cons front segments =>
    cases hfront
    refine ⟨segments.take fields.length, segments.drop fields.length, ?_, ?_⟩
    · rw [List.cons_append, List.take_append_drop]
      exact hrealizes
    · refine forall₂_take_of_getElem? fun n i hi => ?_
      obtain ⟨hn, rfl⟩ := List.getElem?_eq_some_iff.mp hi
      have hn' : n < parts.filled.length := by rwa [← hparts.filled.length_eq]
      obtain ⟨segment, hsegment, hresolved⟩ := hsegment (n + 1) parts.filled[n]
        (List.getElem?_eq_getElem hn')
      exact ⟨segment, hsegment, (hparts.filled.get hn hn').of_resolved h.le hresolved⟩

end MethodDecl.Compiles

namespace ClassDecl

theorem share_nil (methods : List MethodDecl) : share [] methods = methods.map fun m => (m, []) := by
  induction methods with
  | nil => rfl
  | cons m rest ih =>
    rw [share, ih, List.map_cons]
    exact ite_self _

theorem share_append {before after : List MethodDecl} {m : MethodDecl} (fields : List Initializer)
    (hbefore : ∀ m ∈ before, (m.isStaticInitializer && m.body?.isSome) = false)
    (hm : (m.isStaticInitializer && m.body?.isSome) = true) :
    share fields (before ++ m :: after) =
      before.map (fun m => (m, [])) ++ (m, fields) :: after.map fun m => (m, []) := by
  induction before with
  | nil => rw [List.nil_append, share, if_pos hm, share_nil, List.map_nil, List.nil_append]
  | cons m' before ih =>
    obtain ⟨hm', hbefore⟩ := List.forall_mem_cons.mp hbefore
    rw [List.cons_append, share, if_neg (Bool.not_eq_true _ ▸ hm'), ih hbefore, List.map_cons,
      List.cons_append]

variable {options : Options} {c : ClassDecl} {file : ClassFile} {q : Pool}

/-- There is one method that initializes the fields, if a declared static initializer has code or none
is declared. -/
theorem exists_filling (c : ClassDecl) (hsome : c.initializers ≠ [])
    (hcode : c.methods.any MethodDecl.isStaticInitializer = true →
      ∃ m ∈ c.methods, m.isStaticInitializer = true ∧ m.body?.isSome = true) :
    ∃ (i : Nat) (m : MethodDecl) (b : Body), c.allMethods[i]? = some m ∧
      m.isStaticInitializer = true ∧ m.body? = some b ∧ c.plan[i]? = some (m, c.initializers) ∧
      ∀ (j : Nat) (m' : MethodDecl), j ≠ i → c.allMethods[j]? = some m' →
        c.plan[j]? = some (m', []) := by
  have hexists : ∃ m ∈ c.allMethods, (m.isStaticInitializer && m.body?.isSome) = true := by
    unfold allMethods
    split
    · rename_i hall
      have hany : c.methods.any MethodDecl.isStaticInitializer = true := by
        rcases (Bool.or_eq_true _ _).mp hall with hempty | hany
        · exact absurd (List.isEmpty_iff.mp hempty) hsome
        · exact hany
      obtain ⟨m, hmem, hstatic, hbody⟩ := hcode hany
      exact ⟨m, hmem, by rw [hstatic, hbody]; rfl⟩
    · exact ⟨addedInitializer, List.mem_append_right _ (List.mem_singleton_self _), by decide⟩
  obtain ⟨m, hfound⟩ := Option.isSome_iff_exists.mp (List.find?_isSome.mpr hexists)
  obtain ⟨hm, before, after, hall, hbefore⟩ := List.find?_eq_some_iff_append.mp hfound
  have hplan : c.plan = before.map (fun m => (m, [])) ++
      (m, c.initializers) :: after.map fun m => (m, []) := by
    rw [plan, hall]
    exact share_append _ (by simpa only [Bool.not_eq_true'] using hbefore) hm
  obtain ⟨hstatic, hbody⟩ := (Bool.and_eq_true _ _).mp hm
  obtain ⟨b, hb⟩ := Option.isSome_iff_exists.mp hbody
  refine ⟨before.length, m, b, by rw [hall, List.getElem?_append_right (Nat.le_refl _), Nat.sub_self]; rfl,
    hstatic, hb, ?_, fun j m' hj hm' => ?_⟩
  · rw [hplan, List.getElem?_append_right (by rw [List.length_map]), List.length_map, Nat.sub_self]
    rfl
  · rw [hall] at hm'
    rw [hplan]
    rcases Nat.lt_or_gt_of_ne hj with hlt | hgt
    · rw [List.getElem?_append_left hlt] at hm'
      rw [List.getElem?_append_left (by rwa [List.length_map]), List.getElem?_map, hm']
      rfl
    · obtain ⟨k, rfl⟩ : ∃ k, j = before.length + (k + 1) := ⟨j - before.length - 1, by omega⟩
      rw [List.getElem?_append_right (by omega), Nat.add_sub_cancel_left, List.getElem?_cons_succ] at hm'
      rw [List.getElem?_append_right (by rw [List.length_map]; omega), List.length_map,
        Nat.add_sub_cancel_left, List.getElem?_cons_succ, List.getElem?_map, hm']
      rfl

private theorem Generated.pending_eq (h : c.Generated options file q) :
    c.pending = c.fields.filter fun f => f.isStatic && f.initial.any Literal.needsCode := by
  refine List.filter_congr fun f hf => ?_
  obtain ⟨member, -, hgenerated⟩ := exists_left_of_forall₂ h.fields.2.flip hf
  cases hinitial : f.initial with
  | none => simp
  | some value =>
    cases hneeds : value.needsCode with
    | false => simp [hneeds]
    | true => simp [hneeds, hgenerated.isStatic value hinitial hneeds]

/-- Where fields of one name have one descriptor, each field is initialized as itself. -/
theorem forall₂_initializers_of_names (hnames : ∀ f ∈ c.fields, ∀ g ∈ c.fields, g.name = f.name →
      g.type.descriptor = f.type.descriptor) :
    List.Forall₂ (fun f i => i.field = f.name ∧ f.initial = some i.value ∧
      i.type.descriptor = f.type.descriptor) c.pending c.initializers := by
  have hmem : ∀ f ∈ c.pending, f ∈ c.fields := fun f hf => List.mem_of_mem_filter hf
  refine (List.forall₂_and_left _ _ |>.mpr ⟨hmem, c.forall₂_initializers⟩).imp ?_
  rintro f i ⟨hf, hfield, hvalue, htype⟩
  refine ⟨hfield, hvalue, ?_⟩
  cases hlast : c.lastField? f.name with
  | none => rw [htype, hlast]; rfl
  | some g =>
    rw [htype, hlast]
    unfold lastField? at hlast
    have hname := List.find?_some hlast
    exact hnames f hf g (List.mem_reverse.mp (List.mem_of_find?_eq_some hlast)) (beq_iff_eq.mp hname)

end ClassDecl

namespace Palette

def count : FieldDecl where
  name := "first"
  modifiers := ⟨0x0008⟩
  type := .primitive .int

def native : MethodDecl where
  name := staticInitializerName
  modifiers := ⟨0x0108⟩
  result := .void

end Palette

/-- The instructions put the value of a field of the class into it. -/
def Pool.Assigns (p : Pool) (c : ClassDecl) (f : FieldDecl) (instrs : List Instr) : Prop :=
  ∃ value, f.initial = some value ∧ p.Fills c ⟨f.name, f.type, value⟩ instrs

/-- One static initializer of the class file starts with code that puts values into the given fields, in
their order, and goes on with the code of its statements.  The code of the other methods is that of
their statements alone. -/
def ClassFile.FillsFields (file : ClassFile) (c : ClassDecl) (fields : List FieldDecl) : Prop :=
  ∃ (i : Nat) (m : MethodDecl) (b : Body) (member : Member) (code : Code) (fills rest : List (List Instr)),
    c.allMethods[i]? = some m ∧ m.isStaticInitializer = true ∧ m.body? = some b ∧
    file.methods[i]? = some member ∧ file.text? member.name = some staticInitializerName ∧
    file.codeOf? member = some code ∧ List.Forall₂ (file.constants.Assigns c) fields fills ∧
    file.constants.RealizesIn ([] :: fills ++ rest) code.code (m.uses c c.initializers b) ∧
    ∀ (j : Nat) (m' : MethodDecl) (b' : Body), j ≠ i → c.allMethods[j]? = some m' →
      m'.body? = some b' → ∃ member' code', file.methods[j]? = some member' ∧
        file.codeOf? member' = some code' ∧ file.constants.Realizes code'.code (m'.uses c [] b')

namespace ClassDecl

variable {options : Options} {c : ClassDecl} {file : ClassFile} {q : Pool}

private theorem forall₂_assigns {p : Pool} {fields : List FieldDecl} {initializers : List Initializer}
    {fills : List (List Instr)}
    (h : List.Forall₂ (fun f i => i.field = f.name ∧ f.initial = some i.value ∧
      i.type.descriptor = f.type.descriptor) fields initializers)
    (hfills : List.Forall₂ (p.Fills c) initializers fills) :
    List.Forall₂ (p.Assigns c) fields fills := by
  induction h generalizing fills with
  | nil =>
    cases hfills
    exact .nil
  | @cons f i fields initializers hhead _ ih =>
    obtain ⟨instrs, rest, ⟨pushed, hpushed, index, hindex, rfl⟩, hrest, rfl⟩ :=
      List.forall₂_cons_left_iff.mp hfills
    obtain ⟨hfield, hvalue, htype⟩ := hhead
    rw [hfield, htype] at hindex
    exact .cons ⟨i.value, hvalue, pushed, hpushed, index, hindex, rfl⟩ (ih hrest)

private theorem Generated.fills (h : c.Generated options file q) {i : Initializer} {instrs : List Instr}
    (hfills : q.Fills c i instrs) : file.constants.Fills c i instrs := by
  obtain ⟨pushed, hpushed, index, hindex, rfl⟩ := hfills
  rw [ClassFile.constants, h.pool]
  exact ⟨pushed, hpushed, index, hindex, rfl⟩

/-- Static fields whose values need code are given them by the first static initializer with code, one
after the other in the order of their declaration, before its statements.  No other method does this.
This holds if a declared static initializer has code and fields of one name have one descriptor. -/
theorem fills_of_generate (hgenerate : c.generate options = .ok file)
    (hsome : ∃ f ∈ c.fields, f.isStatic = true ∧ f.initial.any Literal.needsCode = true)
    (hcode : c.methods.any MethodDecl.isStaticInitializer = true →
      ∃ m ∈ c.methods, m.isStaticInitializer = true ∧ m.body?.isSome = true)
    (hnames : ∀ f ∈ c.fields, ∀ g ∈ c.fields, g.name = f.name →
      g.type.descriptor = f.type.descriptor) :
    file.FillsFields c (c.fields.filter fun f => f.isStatic && f.initial.any Literal.needsCode) := by
  obtain ⟨q, h⟩ := generated_of_generate hgenerate
  have hinitializers : c.initializers ≠ [] := by
    obtain ⟨f, hf, hstatic, hneeds⟩ := hsome
    have hpending : f ∈ c.pending := List.mem_filter.mpr ⟨hf, hneeds⟩
    intro hnil
    have hall := c.forall₂_initializers
    rw [hnil, List.forall₂_nil_right_iff] at hall
    rw [hall] at hpending
    cases hpending
  obtain ⟨i, m, b, hm, hstatic, hb, hplan, hothers⟩ := c.exists_filling hinitializers hcode
  obtain ⟨member, compiled, hmember, hgenerated, hcompiles, hcode⟩ := h.exists_code hplan hb
  have hname : m.name = staticInitializerName := beq_iff_eq.mp hstatic
  obtain ⟨fills, rest, hrealizes, hfills⟩ := hcompiles.exists_fills (by
    rw [MethodDecl.initializesThis, MethodDecl.isConstructor, hname]
    rfl)
  refine ⟨i, m, b, member, compiled.code, fills, rest, hm, hstatic, hb, hmember, ?_, hcode, ?_,
    h.realizesIn hrealizes, fun j m' b' hj hm' hb' => ?_⟩
  · rw [h.text? hgenerated.name, hname]
  · rw [← h.pending_eq]
    exact forall₂_assigns (forall₂_initializers_of_names hnames) (hfills.imp fun _ _ => h.fills)
  · obtain ⟨member', compiled', hmember', -, hcompiles', hcode'⟩ := h.exists_code (hothers j m' hj hm') hb'
    obtain ⟨parts, hparts, hitems⟩ := hcompiles'.emits.exists_parts
    exact ⟨member', compiled'.code, hmember', hcode', _,
      h.realizesIn (hcompiles'.realizesIn hparts hitems)⟩

/-- The static initializer that is declared fills both fields before it calls a method. -/
theorem palette_fills : ∃ file, (Palette.owner [Palette.last] [Palette.startup]).generate {} = .ok file ∧
    file.FillsFields (Palette.owner [Palette.last] [Palette.startup]) [Palette.first, Palette.last] := by
  obtain ⟨file, hfile⟩ := Palette.exists_file_startup {}
  have hcode : ∃ m ∈ [Palette.startup], m.isStaticInitializer = true ∧ m.body?.isSome = true :=
    ⟨Palette.startup, List.mem_cons_self, by decide, rfl⟩
  have hnames : ∀ f ∈ [Palette.first, Palette.last], ∀ g ∈ [Palette.first, Palette.last],
      g.name = f.name → g.type.descriptor = f.type.descriptor := by decide
  exact ⟨file, hfile, fills_of_generate hfile ⟨Palette.first, List.mem_cons_self, by decide, rfl⟩
    (fun _ => hcode) hnames⟩

private theorem palette_fills_count : ∃ file, (Palette.owner [Palette.count] []).generate {} = .ok file ∧
    ∃ member code get put rest, file.methods = [member] ∧ file.codeOf? member = some code ∧
      Instr.decodeAll code.code = .ok (.field .getStatic get :: .field .putStatic put :: rest) ∧
      file.constants.meaning? put = some (.fieldRef "Palette" "first" "I") := by
  have hinitializers : (Palette.owner [Palette.count] []).initializers =
      [Palette.initializer "first" (.primitive .int) "RED"] :=
    Palette.initializers_owner (by simp [Palette.count])
  have hplan : (Palette.owner [Palette.count] []).plan =
      [(addedInitializer, [Palette.initializer "first" (.primitive .int) "RED"])] := by
    rw [plan, allMethods, hinitializers]
    rfl
  have hcount : Succeeds 2 Palette.count.generate fun _ => True :=
    FieldDecl.succeeds_generate rfl (by simp [Palette.count]) (by decide) (by decide) rfl
  obtain ⟨file, hfile⟩ : ∃ file, (Palette.owner [Palette.count] []).generate {} = .ok file := by
    refine Palette.exists_generate {} (List.forall_mem_singleton.mpr hcount) ?_ (by rw [hplan]; decide)
    rw [hplan]
    exact List.forall_mem_singleton.mpr (Palette.succeeds_initializer {} (by decide))
  obtain ⟨q, h⟩ := generated_of_generate hfile
  obtain ⟨member, compiled, hmember, -, hcompiles, hcode⟩ := h.exists_code
    (show (Palette.owner [Palette.count] []).plan[0]? = some _ by rw [hplan]; rfl) rfl
  obtain ⟨fills, rest, hrealizes, hfills⟩ := hcompiles.exists_fills rfl
  obtain ⟨instrs, more, ⟨pushed, hpushed, put, hput, rfl⟩, hnil, rfl⟩ :=
    List.forall₂_cons_left_iff.mp hfills
  cases hnil
  obtain ⟨get, -, rfl⟩ := Literal.loads_of_ran hpushed
  have hlength : file.methods.length = 1 := by
    rw [← h.methods.2.length_eq, hplan]
    rfl
  obtain ⟨member', hmembers⟩ := List.length_eq_one_iff.mp hlength
  rw [hmembers] at hmember
  cases hmember
  refine ⟨file, hfile, member, compiled.code, get, put, rest.flatten, hmembers, hcode,
    hrealizes.decodes, ?_⟩
  rw [ClassFile.constants, h.pool]
  exact hput

private theorem palette_fills_none : ∃ file, (Palette.owner [] [Palette.native]).generate {} = .ok file ∧
    ∀ member ∈ file.methods, file.codeOf? member = none := by
  have hinitializers : (Palette.owner [] [Palette.native]).initializers =
      [Palette.initializer "first" (.object Palette.color) "RED"] := Palette.initializers_owner (by simp)
  have hplan : (Palette.owner [] [Palette.native]).plan = [(Palette.native, [])] := by
    rw [plan, allMethods, hinitializers]
    rfl
  have hnative : Succeeds 2 (Palette.native.generate {} (Palette.owner [] [Palette.native]) [])
      fun _ => True :=
    MethodDecl.succeeds_generate (MethodDecl.succeeds_codeAttributes_of_none rfl) (by decide) (by decide)
      rfl (by decide) (by decide)
  obtain ⟨file, hfile⟩ : ∃ file, (Palette.owner [] [Palette.native]).generate {} = .ok file := by
    refine Palette.exists_generate {} (by simp) ?_ (by rw [hplan]; decide)
    rw [hplan]
    exact List.forall_mem_singleton.mpr (hnative.mono (by decide))
  obtain ⟨q, h⟩ := generated_of_generate hfile
  refine ⟨file, hfile, fun member hmember => ?_⟩
  obtain ⟨m, hm, hgenerated⟩ := exists_left_of_forall₂ h.methods.2 hmember
  rw [hplan] at hm
  cases List.mem_singleton.mp hm
  exact h.codeOf?_eq_none hgenerated rfl

/-- The value is put into the field that has the name last.  If the declared static initializer has no
code, nothing is put anywhere. -/
theorem palette_fills_by_name :
    (∃ file, (Palette.owner [Palette.count] []).generate {} = .ok file ∧
      ∃ member code get put rest, file.methods = [member] ∧ file.codeOf? member = some code ∧
        Instr.decodeAll code.code = .ok (.field .getStatic get :: .field .putStatic put :: rest) ∧
        file.constants.meaning? put = some (.fieldRef "Palette" "first" "I")) ∧
      ∃ file, (Palette.owner [] [Palette.native]).generate {} = .ok file ∧
        ∀ member ∈ file.methods, file.codeOf? member = none :=
  ⟨palette_fills_count, palette_fills_none⟩

end ClassDecl

end Classwright
