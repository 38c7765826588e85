import Classwright.Proofs.Liveness
import Classwright.Proofs.Room

/-!
# What a class file says of its declaration

The indexes of a generated class file stand for what the declaration says: its own name, superclass and
interfaces, the names and descriptors of its members in order, and in code the members that the
statements access, each by an entry of the kind that the operation needs.
-/

namespace Classwright

/-- Code in the given parts, in order: every part accesses the members given for it, unless control
does not come to it.  Every index in it stands for a constant of the kind that its operation needs. -/
structure Pool.RealizesIn (p : Pool) (segments : List (List Instr)) (code : List UInt8)
    (uses : List (List (Access × Request))) : Prop where
  decodes : Instr.decodeAll code = .ok segments.flatten
  encodes : Instr.encodeAll segments.flatten = code
  length : segments.length = uses.length
  suits : ∀ instr ∈ segments.flatten, p.Suits instr
  accesses : ∀ n segment expected, segments[n]? = some segment → uses[n]? = some expected →
    p.Accesses segment expected ∨
      (∀ instr ∈ segment, instr.isFiller = true) ∧
        ¬ Instr.Visits code (Instr.encodeAll (segments.take n).flatten).length

def Pool.Realizes (p : Pool) (code : List UInt8) (uses : List (List (Access × Request))) : Prop :=
  ∃ segments, p.RealizesIn segments code uses

private theorem Pool.suits_of_isFiller {p : Pool} {instr : Instr} (h : instr.isFiller = true) :
    p.Suits instr := by
  refine suits_of_operand? ?_
  cases instr <;> first | rfl | cases h

namespace Flow

def segments (parts : List (List Item)) (steps : Array Step) (layout : Layout)
    (thisInit : Option Nat) : List (List Instr) :=
  (List.range parts.length).map (Coded.segment parts (filled (flagged steps layout thisInit)))

variable {parts : List (List Item)} {steps : Array Step} {layout : Layout} {thisInit : Option Nat}

private theorem getElem?_segments {n : Nat} (hn : n < parts.length) :
    (segments parts steps layout thisInit)[n]? =
      some (Coded.segment parts (filled (flagged steps layout thisInit)) n) := by
  rw [segments, List.getElem?_map, List.getElem?_range hn]
  rfl

private theorem take_segments {n : Nat} (hn : n ≤ parts.length) :
    (segments parts steps layout thisInit).take n =
      (List.range n).map (Coded.segment parts (filled (flagged steps layout thisInit))) := by
  rw [segments, ← List.map_take, List.take_range, Nat.min_eq_left hn]

private theorem Coded.flatten_segments_eq (h : Coded ([] ++ parts.flatten ++ []) steps) :
    (segments parts steps layout thisInit).flatten =
      Assembly.instrs steps ((analyze steps layout thisInit).toList.map Option.isNone) := by
  have hstart : Lower.startLine [] parts parts.length = (filled (flagged steps layout thisInit)).length := by
    rw [← (forall₂_filled _).length_eq, flagged, List.length_zip]
    simp [Lower.startLine, size_steps h.resolve]
  rw [segments, flatten_segments, hstart, List.take_length, Assembly.instrs, neutralize_eq,
    neutralized_eq_flatten]
  simp [throwing, flagged]

/-- What stands for a part is the part itself, or control does not come to it. -/
theorem Coded.segments_cases (h : Coded ([] ++ parts.flatten ++ []) steps)
    (hmarks : ∀ part ∈ parts, ∀ label, Item.mark label ∈ part → part = [.mark label])
    {p : Pool} {uses : List (Access × Pool.Request)} {n : Nat} {part : List Item} {segment : List Instr}
    (hpart : parts[n]? = some part) (hwrites : Writes p (Item.lines part) uses)
    (hsegment : (segments parts steps layout thisInit)[n]? = some segment) :
    List.Forall₂ Line.Resolved (Item.lines part) segment ∨
      (∀ instr ∈ segment, instr.isFiller = true) ∧
        ¬ Instr.Visits (codeOf steps layout thisInit)
          (Instr.encodeAll ((segments parts steps layout thisInit).take n).flatten).length := by
  have hlt := (List.getElem?_eq_some_iff.mp hpart).1
  rw [getElem?_segments hlt] at hsegment
  cases hsegment
  rw [take_segments (Nat.le_of_lt hlt), h.length_segments]
  exact h.segment_cases hmarks hpart hwrites

private theorem Coded.realizesIn (h : Coded ([] ++ parts.flatten ++ []) steps)
    (hmarks : ∀ part ∈ parts, ∀ label, Item.mark label ∈ part → part = [.mark label])
    {p : Pool} {uses : List (List (Access × Pool.Request))}
    (hwrites : List.Forall₂ (fun uses part => Writes p (Item.lines part) uses) uses parts)
    (layout : Layout) (thisInit : Option Nat) :
    p.RealizesIn (segments parts steps layout thisInit) (codeOf steps layout thisInit) uses := by
  have hlength : (segments parts steps layout thisInit).length = uses.length := by
    rw [segments, List.length_map, List.length_range, hwrites.length_eq]
  refine ⟨?_, ?_, hlength, ?_, ?_⟩
  · rw [h.flatten_segments_eq]
    exact Instr.decodeAll_encodeAll _
  · rw [h.flatten_segments_eq]
    rfl
  · intro instr hinstr
    obtain ⟨_, hsegment, hinstr⟩ := List.mem_flatten.mp hinstr
    obtain ⟨n, hn, rfl⟩ := List.mem_map.mp hsegment
    have hlt := List.mem_range.mp hn
    have hwritten := hwrites.get (by rwa [hwrites.length_eq]) hlt
    have hsegments := @segment_cases _ _ h hmarks layout thisInit _ _ (List.getElem?_eq_getElem hlt)
      _ _ hwritten
    rcases hsegments with hkept | ⟨hfiller, -⟩
    · obtain ⟨line, hline, hresolved⟩ := exists_left_of_forall₂ hkept hinstr
      exact hwritten.suits_of_resolved hline hresolved
    · exact Pool.suits_of_isFiller (hfiller instr hinstr)
  · intro n found expected hfound hexpected
    obtain ⟨hlt, rfl⟩ := List.getElem?_eq_some_iff.mp hexpected
    have hlt' : n < parts.length := by rwa [← hwrites.length_eq]
    have hwritten := hwrites.get hlt hlt'
    exact (h.segments_cases hmarks (List.getElem?_eq_getElem hlt') hwritten hfound).imp_left
      hwritten.accesses_of_resolved

end Flow

theorem forall₂_take_of_getElem? {α β : Type} {R : α → β → Prop} {as : List α} {bs : List β}
    (h : ∀ (n : Nat) (a : α), as[n]? = some a → ∃ b, bs[n]? = some b ∧ R a b) :
    List.Forall₂ R as (bs.take as.length) := by
  induction as generalizing bs with
  | nil => exact .nil
  | cons a as ih =>
    obtain ⟨b, hb, hhead⟩ := h 0 a rfl
    cases bs with
    | nil => cases hb
    | cons b' bs =>
      cases hb
      exact .cons hhead (ih fun n => h (n + 1))

namespace MethodDecl.Compiles

variable {options : Options} {owner : ClassDecl} {m : MethodDecl} {b : Body}
  {fields : List Initializer} {q : Pool} {c : Compiled}

theorem coded (h : m.Compiles options owner b fields q c) {parts : List (List Item)}
    (hitems : c.items = parts.flatten) : Flow.Coded ([] ++ parts.flatten ++ []) c.steps := by
  rw [List.nil_append, List.append_nil, ← hitems]
  exact ⟨h.resolve, h.emits.isJump_of_plain, h.emits.getLast?_lines⟩

theorem realizesIn (h : m.Compiles options owner b fields q c) {parts : Lower.Parts}
    (hparts : parts.Of owner m b fields c.final) (hitems : c.items = parts.all.flatten) :
    q.RealizesIn (Flow.segments parts.all c.steps c.layout c.thisInit) c.code.code
      (m.uses owner fields b) :=
  (h.coded hitems).realizesIn hparts.eq_mark
    (hparts.writes.imp fun _ _ hwrite => hwrite.mono h.le) _ _

/-- A part stands in the code as it is if control passes on behind all lines of the parts before. -/
theorem exists_segment (h : m.Compiles options owner b fields q c) {parts : Lower.Parts}
    (hparts : parts.Of owner m b fields c.final) (hitems : c.items = parts.all.flatten) {n : Nat}
    {part : List Item} (hpart : parts.all[n]? = some part)
    (hpasses : ∀ before ∈ parts.all.take n, Item.Passes before) :
    ∃ segment, (Flow.segments parts.all c.steps c.layout c.thisInit)[n]? = some segment ∧
      List.Forall₂ Line.Resolved (Item.lines part) segment := by
  obtain ⟨hlt, rfl⟩ := List.getElem?_eq_some_iff.mp hpart
  have hlt' : n < (m.uses owner fields b).length := by rwa [hparts.writes.length_eq]
  have hwrites := hparts.writes.get hlt' hlt
  obtain ⟨state, hstate⟩ := (h.coded hitems).exists_localsAt?_startLine hpasses
  exact ⟨_, Flow.getElem?_segments hlt,
    (h.coded hitems).segment_of_live hparts.eq_mark hpart hwrites hstate⟩

theorem forall₂_resolved_take (h : m.Compiles options owner b fields q c) {parts : Lower.Parts}
    (hparts : parts.Of owner m b fields c.final) (hitems : c.items = parts.all.flatten) {n : Nat}
    (hn : n < parts.all.length) (hpasses : ∀ before ∈ parts.all.take n, Item.Passes before) :
    List.Forall₂ Line.Resolved (Item.lines (parts.all.take (n + 1)).flatten)
      ((Flow.segments parts.all c.steps c.layout c.thisInit).take (n + 1)).flatten := by
  have hrows : List.Forall₂ (List.Forall₂ Line.Resolved) ((parts.all.take (n + 1)).map Item.lines)
      ((Flow.segments parts.all c.steps c.layout c.thisInit).take
        ((parts.all.take (n + 1)).map Item.lines).length) := by
    refine forall₂_take_of_getElem? fun i lines hlines => ?_
    rw [List.getElem?_map, Option.map_eq_some_iff] at hlines
    obtain ⟨part, hpart, rfl⟩ := hlines
    rw [List.getElem?_take, Option.ite_none_right_eq_some] at hpart
    exact h.exists_segment hparts hitems hpart.2 fun before hbefore =>
      hpasses before (List.take_subset_take_left _ (by omega) hbefore)
  rw [List.length_map, List.length_take_of_le hn] at hrows
  rw [Item.lines_flatten]
  exact List.rel_flatten hrows

end MethodDecl.Compiles

namespace ClassFile

def constants (file : ClassFile) : Pool := { entries := file.pool }

def signature (file : ClassFile) (m : Member) : Option String × Option String :=
  (file.text? m.name, file.text? m.descriptor)

structure Says (file : ClassFile) (c : ClassDecl) : Prop where
  this : file.className? file.this = some c.this.name
  super : (file.super = 0 ↔ c.super = none) ∧
    ∀ super, c.super = some super → file.className? file.super = some super.name
  interfaces : file.interfaces.map file.className? = c.interfaces.map fun i => some i.name
  fields : file.fields.map file.signature = c.fields.map fun f => (some f.name, some f.type.descriptor)
  /-- A static initializer may be added. -/
  methods : ∃ added, (added = [] ∨ added = [(some "<clinit>", some "()V")]) ∧
    file.methods.map file.signature = c.methods.map (fun m => (some m.name, some m.descriptor)) ++ added
  attributes : ∀ a ∈ file.allAttributes, (file.text? a.name).isSome = true
  code : ∀ (i : Nat) (m : MethodDecl) (fields : List Initializer) (b : Body),
    c.plan[i]? = some (m, fields) → m.body? = some b → ∃ member code,
      file.methods[i]? = some member ∧ file.codeOf? member = some code ∧
      (∀ a ∈ code.attributes, (file.text? a.name).isSome = true) ∧
      file.constants.Realizes code.code (m.uses c fields b)
  noCode : ∀ (i : Nat) (m : MethodDecl) (fields : List Initializer),
    c.plan[i]? = some (m, fields) → m.body? = none →
      ∃ member, file.methods[i]? = some member ∧ file.codeOf? member = none

end ClassFile

private theorem Attribute.exists_name {q : Pool} {a : Attribute} {declared : List Annotation}
    {parameters : List Parameter}
    (h : a.Annotates q declared ∨ a.AnnotatesParameters q parameters) :
    ∃ name, q.meaning? a.name = some (.utf8 name) ∧ name ≠ "Code" := by
  rcases h with ⟨visible, _, hholds, -⟩ | ⟨visible, _, hholds, -⟩
  · exact ⟨_, hholds.2, by cases visible <;> decide⟩
  · exact ⟨_, hholds.2, by cases visible <;> decide⟩

namespace MethodDecl

variable {options : Options} {owner : ClassDecl} {m : MethodDecl} {fields : List Initializer}
  {member : Member} {q : Pool}

private theorem Generated.exists_name (h : m.Generated options owner fields member q) :
    ∀ a ∈ member.attributes, ∃ name, q.meaning? a.name = some (.utf8 name) := by
  obtain ⟨code, rest, hcode, hattributes, hrest⟩ := h.code
  rw [hattributes]
  refine List.forall_mem_append.mpr ⟨?_, fun a ha => ?_⟩
  · rcases code_of_ran hcode with ⟨-, rfl⟩ | ⟨b, a, compiled, -, rfl, -, hholds⟩
    · simp
    · exact List.forall_mem_singleton.mpr ⟨"Code", hholds.2⟩
  · obtain ⟨name, hname, -⟩ := Attribute.exists_name (hrest a ha)
    exact ⟨name, hname⟩

private theorem Compiles.exists_name {b : Body} {c : Compiled}
    (h : m.Compiles options owner b fields q c) :
    ∀ a ∈ c.code.attributes, ∃ name, q.meaning? a.name = some (.utf8 name) := by
  intro a ha
  rcases h.holds a ha with ⟨table, -, hholds⟩ | hholds
  · exact ⟨_, hholds.2⟩
  · exact ⟨_, hholds.2⟩

end MethodDecl

namespace ClassDecl

variable {options : Options} {c : ClassDecl} {file : ClassFile} {q : Pool}

private theorem Generated.isSome_text? (h : c.Generated options file q) {a : Attribute}
    (hname : ∃ name, q.meaning? a.name = some (.utf8 name)) : (file.text? a.name).isSome = true := by
  obtain ⟨name, hname⟩ := hname
  rw [h.text? hname]
  rfl

theorem Generated.realizesIn (h : c.Generated options file q) {segments : List (List Instr)}
    {code : List UInt8} {uses : List (List (Access × Pool.Request))}
    (hcode : q.RealizesIn segments code uses) : file.constants.RealizesIn segments code uses := by
  rw [ClassFile.constants, h.pool]
  exact ⟨hcode.decodes, hcode.encodes, hcode.length, hcode.suits, hcode.accesses⟩

private theorem Generated.exists_name (h : c.Generated options file q) :
    ∀ a ∈ file.allAttributes, ∃ name, q.meaning? a.name = some (.utf8 name) := by
  refine List.forall_mem_append.mpr ⟨fun a ha => ?_, fun a ha => ?_⟩
  · rcases h.attributes.2 a ha with ⟨index, hholds⟩ | ⟨visible, list, hholds, -⟩
    · exact ⟨_, hholds.2⟩
    · exact ⟨_, hholds.2⟩
  · obtain ⟨member, hmember, ha⟩ := List.mem_flatMap.mp ha
    rcases List.mem_append.mp hmember with hmember | hmember
    · obtain ⟨f, -, hgenerated⟩ := exists_left_of_forall₂ h.fields.2 hmember
      rcases hgenerated.attributes a ha with ⟨index, hholds⟩ | ⟨visible, list, hholds, -⟩
      · exact ⟨_, hholds.2⟩
      · exact ⟨_, hholds.2⟩
    · obtain ⟨m, -, hgenerated⟩ := exists_left_of_forall₂ h.methods.2 hmember
      exact hgenerated.exists_name a ha

theorem Generated.codeOf?_eq_none (h : c.Generated options file q) {m : MethodDecl}
    {fields : List Initializer} {member : Member} (hm : m.Generated options c fields member q)
    (hbody : m.body? = none) : file.codeOf? member = none := by
  obtain ⟨code, rest, hcode, hattributes, hrest⟩ := hm.code
  rcases MethodDecl.code_of_ran hcode with ⟨-, rfl⟩ | ⟨b, a, compiled, hsome, -⟩
  swap
  · rw [hbody] at hsome
    cases hsome
  have hnone : file.attribute? member.attributes "Code" = none := by
    rw [ClassFile.attribute?, hattributes, List.nil_append, List.find?_eq_none]
    intro a ha
    obtain ⟨name, hname, hne⟩ := Attribute.exists_name (hrest a ha)
    simp [h.text? hname, hne]
  rw [ClassFile.codeOf?, hnone]
  rfl

private theorem map_eq_of_forall₂ {α β γ : Type} {R : α → β → Prop} {f : α → γ} {g : β → γ}
    (hfg : ∀ a b, R a b → g b = f a) {as : List α} {bs : List β} (h : List.Forall₂ R as bs) :
    bs.map g = as.map f := by
  induction h with
  | nil => rfl
  | cons hhead _ ih => rw [List.map_cons, List.map_cons, hfg _ _ hhead, ih]

theorem exists_added (c : ClassDecl) :
    ∃ added, (added = [] ∨ added = [addedInitializer]) ∧ c.allMethods = c.methods ++ added := by
  unfold allMethods
  split
  · exact ⟨[], .inl rfl, (List.append_nil _).symm⟩
  · exact ⟨_, .inr rfl, rfl⟩

private theorem Generated.signatures (h : c.Generated options file q) :
    file.fields.map file.signature = c.fields.map (fun f => (some f.name, some f.type.descriptor)) ∧
      file.methods.map file.signature = c.allMethods.map fun m => (some m.name, some m.descriptor) := by
  refine ⟨map_eq_of_forall₂ (fun f member hgenerated => ?_) h.fields.2, ?_⟩
  · rw [ClassFile.signature, h.text? hgenerated.name, h.text? hgenerated.descriptor]
  · rw [← map_share c.initializers c.allMethods, List.map_map]
    refine map_eq_of_forall₂ (fun m member hgenerated => ?_) h.methods.2
    rw [ClassFile.signature, h.text? hgenerated.name, h.text? hgenerated.descriptor]
    rfl

/-- A generated class file says what its declaration says. -/
theorem says_of_generate (hgenerate : c.generate options = .ok file) : file.Says c := by
  obtain ⟨q, h⟩ := generated_of_generate hgenerate
  obtain ⟨hfields, hmethods⟩ := h.signatures
  exact {
    this := h.className? h.this
    super := by
      rcases h.super with ⟨hnone, hzero⟩ | ⟨super, hsome, hmeaning⟩
      · simp [hnone, hzero]
      · have hne : file.super ≠ 0 := by
          obtain ⟨e, hget, -⟩ := Pool.meaning?_eq_some_iff.mp hmeaning
          exact (Pool.get?_eq_some_iff.mp hget).1
        refine ⟨by simp [hne, hsome], fun super' hsuper' => ?_⟩
        rw [hsome] at hsuper'
        cases hsuper'
        exact h.className? hmeaning
    interfaces := map_eq_of_forall₂ (fun i index hmeaning => h.className? hmeaning) h.interfaces.2
    fields := hfields
    methods := by
      obtain ⟨added, hadded, hall⟩ := c.exists_added
      refine ⟨added.map fun m => (some m.name, some m.descriptor), ?_, ?_⟩
      · rcases hadded with rfl | rfl
        · exact .inl rfl
        · exact .inr (by decide)
      · rw [hmethods, hall, List.map_append]
    attributes := fun a ha => h.isSome_text? (h.exists_name a ha)
    code := by
      intro i m fields b hplan hbody
      obtain ⟨member, compiled, hmember, -, hcompiles, hcode⟩ := h.exists_code hplan hbody
      obtain ⟨parts, hparts, hitems⟩ := hcompiles.emits.exists_parts
      exact ⟨member, compiled.code, hmember, hcode,
        fun a ha => h.isSome_text? (hcompiles.exists_name a ha),
        _, h.realizesIn (hcompiles.realizesIn hparts hitems)⟩
    noCode := by
      intro i m fields hplan hbody
      obtain ⟨hlt, hget⟩ := List.getElem?_eq_some_iff.mp hplan
      have hlt' : i < file.methods.length := by
        rw [← h.methods.2.length_eq]
        exact hlt
      have hgenerated := h.methods.2.get hlt hlt'
      rw [List.get_eq_getElem, List.get_eq_getElem, hget] at hgenerated
      exact ⟨file.methods[i], List.getElem?_eq_getElem hlt', h.codeOf?_eq_none hgenerated hbody⟩ }

/-- The class file of the class with an added method says so, and how its field is filled. -/
theorem palette_says : ∃ file, (Palette.owner [] []).generate {} = .ok file ∧
    file.Says (Palette.owner [] []) := by
  obtain ⟨file, hfile⟩ := Palette.exists_file {}
  exact ⟨file, hfile, says_of_generate hfile⟩

end ClassDecl

end Classwright
