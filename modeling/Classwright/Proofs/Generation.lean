import Classwright.Proofs.Annotations
import Classwright.Proofs.Lowering

/-!
# What generation returns

The members of a generated class come from the declared ones, each generated on a sound pool that the
final pool extends.  What a class file takes from them is stated here once, for all that is proved
about generated files.
-/

namespace Classwright

namespace MethodDecl

theorem run_lower_iff {owner : ClassDecl} {m : MethodDecl} {b : Body} {fields : List Initializer}
    {p q : Pool} {items : List Item} {slots : Slots} :
    m.lower owner b fields p = .ok ((items, slots), q) ↔
      Lower.body owner m b fields ⟨p, {}⟩ = .ok (items, ⟨q, slots⟩) := by
  unfold lower
  cases Lower.body owner m b fields ⟨p, {}⟩ with
  | error e => simp
  | ok out =>
    obtain ⟨items', pool', slots'⟩ := out
    simp only [Except.ok.injEq, Prod.mk.injEq, Lowering.mk.injEq]
    tauto

private theorem grows_lower (owner : ClassDecl) (m : MethodDecl) (b : Body) (fields : List Initializer) :
    Grows id (m.lower owner b fields) := by
  rintro p ⟨items, slots⟩ q h hp
  obtain ⟨hfinal, hle, -⟩ := Lower.body_spec (T := fun _ => True) owner m b fields hp
    (fun _ _ => trivial) (run_lower_iff.mp h)
  exact ⟨hfinal.sound, hle⟩

private theorem grows_codeAttribute (options : Options) (owner : ClassDecl) (m : MethodDecl) (b : Body)
    (fields : List Initializer) : Grows id (m.codeAttribute options owner b fields) :=
  (grows_lower owner m b fields).bind fun _ => (grows_layout? _ _ _ _ _).bind fun _ =>
    (Assembly.grows_ofItems _ _).bind fun _ => (grows_nameAttributes _ _ _).bind fun _ =>
      (grows_stackMap _).bind fun _ => grows_named _ _

private theorem grows_codeAttributes (options : Options) (owner : ClassDecl) (fields : List Initializer)
    (m : MethodDecl) : Grows id (m.codeAttributes options owner fields) := by
  unfold codeAttributes
  split
  · exact .pure _
  · exact (grows_codeAttribute _ _ _ _ _).bind fun _ => .pure _

private theorem grows_checkSlots (m : MethodDecl) : Grows id m.checkSlots := by
  unfold checkSlots
  split
  · exact .pure _
  · exact .throw _

private theorem grows_generate (options : Options) (owner : ClassDecl) (fields : List Initializer)
    (m : MethodDecl) : Grows id (m.generate options owner fields) :=
  (grows_codeAttributes _ _ _ _).bind fun _ => m.grows_checkSlots.bind fun _ =>
    (grows_storeKept _).bind fun _ =>
      (Grows.mapM (fun p : Parameter => grows_storeKept p.annotations) _).bind fun _ =>
        (grows_keptAttributes _).bind fun _ => (grows_parameterAttributes _).bind fun _ =>
          (Grows.utf8 _).bind fun _ => (Grows.utf8 _).bind fun _ =>
            (grows_bounded _ _).bind fun _ => .pure _

end MethodDecl

/-- What a method of a class file has of its declaration: the code in front of the annotations, and the
name and descriptor in the pool. -/
structure MethodDecl.Generated (options : Options) (owner : ClassDecl) (fields : List Initializer)
    (m : MethodDecl) (member : Member) (q : Pool) : Prop where
  attributes_eq : ∃ code own ofParameters, member.attributes = code ++ (own ++ ofParameters) ∧
    Ran q (m.codeAttributes options owner fields) code ∧ KeptAnnotation.Attached q m.annotations own ∧
      KeptAnnotation.AttachedTo q m.parameterSlots m.parameters ofParameters
  length_le : member.attributes.length ≤ 65535
  flags : member.flags = m.modifiers.methodFlags
  name : q.meaning? member.name = some (.utf8 m.name)
  descriptor : q.meaning? member.descriptor = some (.utf8 m.descriptor)

private theorem MethodDecl.generated_of_ran {options : Options} {owner : ClassDecl}
    {fields : List Initializer} {m : MethodDecl} {member : Member} {q : Pool}
    (h : Ran q (m.generate options owner fields) member) :
    m.Generated options owner fields member q := by
  obtain ⟨p, p', h, hp, hle⟩ := h
  simp only [generate, run_bind_iff] at h
  obtain ⟨code, p₀, hcode, _, p₁, hslots, kept, p₂, hkept, byParameter, p₃, hby, own, p₄, hown,
    ofParameters, p₅, hof, name, p₆, hname, descriptor, p₇, hdescriptor, attributes, p₈, hattributes, h⟩ := h
  obtain ⟨rfl, rfl⟩ := Prod.mk.inj (run_pure_iff.mp h)
  obtain ⟨hlength, rfl, rfl⟩ := run_bounded_iff.mp hattributes
  obtain ⟨hp₀, -⟩ := grows_codeAttributes options owner fields m p code p₀ hcode hp
  obtain ⟨hp₁, hle₁⟩ := m.grows_checkSlots p₀ _ p₁ hslots hp₀
  obtain ⟨hp₂, hle₂⟩ := grows_storeKept _ p₁ kept p₂ hkept hp₁
  obtain ⟨hp₃, hle₃⟩ :=
    Grows.mapM (fun a : Parameter => grows_storeKept a.annotations) _ p₂ byParameter p₃ hby hp₂
  obtain ⟨hp₄, hle₄⟩ := grows_keptAttributes _ p₃ own p₄ hown hp₃
  obtain ⟨hp₅, hle₅⟩ := grows_parameterAttributes _ p₄ ofParameters p₅ hof hp₄
  obtain ⟨hp₆, hle₆, hnameMeaning⟩ := meaning?_of_pooled (r := .utf8 m.name) hp₅ hname
  obtain ⟨hp₇, hle₇, hdescriptorMeaning⟩ :=
    meaning?_of_pooled (r := .utf8 m.descriptor) hp₆ hdescriptor
  have hle₆' := Pool.le_trans hle₇ hle
  have hle₅' := Pool.le_trans hle₆ hle₆'
  have hle₄' := Pool.le_trans hle₅ hle₅'
  have hle₃' := Pool.le_trans hle₄ hle₄'
  have hle₂' := Pool.le_trans hle₃ hle₃'
  have hkeptBy := Ran.of_mapM (q := q) (fun a : Parameter => grows_storeKept a.annotations)
    ⟨p₂, p₃, hby, hp₂, hle₃'⟩
  exact {
    attributes_eq := ⟨code, own, ofParameters, List.append_assoc _ _ _,
      ⟨p, p₀, hcode, hp, Pool.le_trans hle₁ (Pool.le_trans hle₂ hle₂')⟩,
      ⟨kept, ⟨p₁, p₂, hkept, hp₁, hle₂'⟩, ⟨p₃, p₄, hown, hp₃, hle₄'⟩⟩,
      ⟨byParameter, hkeptBy, ⟨p₄, p₅, hof, hp₄, hle₅'⟩⟩⟩
    length_le := hlength
    flags := rfl
    name := Pool.meaning?_mono hle₆' hnameMeaning
    descriptor := Pool.meaning?_mono hle hdescriptorMeaning }

theorem MethodDecl.Generated.code {options : Options} {owner : ClassDecl} {fields : List Initializer}
    {m : MethodDecl} {member : Member} {q : Pool} (h : m.Generated options owner fields member q) :
    ∃ code rest, Ran q (m.codeAttributes options owner fields) code ∧
      member.attributes = code ++ rest ∧
      ∀ a ∈ rest, a.Annotates q m.annotations ∨ a.AnnotatesParameters q m.parameters := by
  obtain ⟨code, own, ofParameters, heq, hcode, hown, hof⟩ := h.attributes_eq
  exact ⟨code, own ++ ofParameters, hcode, heq, List.forall_mem_append.mpr
    ⟨fun a ha => .inl (hown.annotates a ha), fun a ha => .inr (hof.annotatesParameters a ha)⟩⟩

namespace FieldDecl

structure Generated (f : FieldDecl) (member : Member) (q : Pool) : Prop where
  attributes_eq : ∃ value own, member.attributes = value ++ own ∧ Ran q f.valueAttribute value ∧
    KeptAnnotation.Attached q f.annotations own
  length_le : member.attributes.length ≤ 65535
  /-- Only static fields have values that need code. -/
  isStatic : ∀ value ∈ f.initial, value.needsCode = true → f.isStatic = true
  flags : member.flags = f.modifiers.fieldFlags
  name : q.meaning? member.name = some (.utf8 f.name)
  descriptor : q.meaning? member.descriptor = some (.utf8 f.type.descriptor)

theorem holds_of_valueAttribute {f : FieldDecl} {out : List Attribute} {q : Pool}
    (h : Ran q f.valueAttribute out) :
    ∀ a ∈ out, ∃ index, a.Holds q "ConstantValue" (.constantValue index) := by
  unfold valueAttribute at h
  split at h
  · rw [h.eq_of_pure]
    simp
  · split at h
    · split at h
      · rw [h.eq_of_pure]
        simp
      · exact absurd h Ran.of_throw
    · obtain ⟨index?, -, h⟩ := h.of_bind (grows_constantValue? _) fun index? => by
        cases index? with
        | none => exact .pure _
        | some index => exact (grows_named _ _).bind fun _ => .pure _
      cases index? with
      | none =>
        rw [h.eq_of_pure]
        simp
      | some index =>
        obtain ⟨a, ha, h⟩ := h.of_bind (grows_named _ _) fun _ => .pure _
        rw [h.eq_of_pure]
        exact List.forall_mem_singleton.mpr ⟨index, holds_of_ran ha⟩

private theorem isStatic_of_valueAttribute {f : FieldDecl} {out : List Attribute} {q : Pool}
    (h : Ran q f.valueAttribute out) {value : Literal} (hvalue : f.initial = some value)
    (hcode : value.needsCode = true) : f.isStatic = true := by
  unfold valueAttribute at h
  rw [hvalue] at h
  dsimp only at h
  rw [if_pos hcode] at h
  split at h
  · assumption
  · exact absurd h Ran.of_throw

private theorem generated_of_ran {f : FieldDecl} {member : Member} {q : Pool}
    (h : Ran q f.generate member) :
    f.Generated member q := by
  obtain ⟨p, p', h, hp, hle⟩ := h
  simp only [generate, run_bind_iff] at h
  obtain ⟨value, p₁, hvalue, kept, p₂, hkept, other, p₃, hother, name, p₄, hname, descriptor, p₅,
    hdescriptor, attributes, p₆, hattributes, h⟩ := h
  obtain ⟨rfl, rfl⟩ := Prod.mk.inj (run_pure_iff.mp h)
  obtain ⟨hlength, rfl, rfl⟩ := run_bounded_iff.mp hattributes
  obtain ⟨hp₁, -⟩ := grows_valueAttribute f p value p₁ hvalue hp
  obtain ⟨hp₂, hle₂⟩ := grows_storeKept _ p₁ kept p₂ hkept hp₁
  obtain ⟨hp₃, hle₃⟩ := grows_keptAttributes _ p₂ other p₃ hother hp₂
  obtain ⟨hp₄, hle₄, hnameMeaning⟩ := meaning?_of_pooled (r := .utf8 f.name) hp₃ hname
  obtain ⟨hp₅, hle₅, hdescriptorMeaning⟩ :=
    meaning?_of_pooled (r := .utf8 f.type.descriptor) hp₄ hdescriptor
  have hle₄' := Pool.le_trans hle₅ hle
  have hle₃' := Pool.le_trans hle₄ hle₄'
  have hle₂' := Pool.le_trans hle₃ hle₃'
  have hran : Ran q f.valueAttribute value := ⟨p, p₁, hvalue, hp, Pool.le_trans hle₂ hle₂'⟩
  exact {
    attributes_eq := ⟨value, other, rfl, hran, kept, ⟨p₁, p₂, hkept, hp₁, hle₂'⟩,
      ⟨p₂, p₃, hother, hp₂, hle₃'⟩⟩
    length_le := hlength
    isStatic := fun value hvalue hcode => isStatic_of_valueAttribute hran hvalue hcode
    flags := rfl
    name := Pool.meaning?_mono hle₄' hnameMeaning
    descriptor := Pool.meaning?_mono hle hdescriptorMeaning }

theorem Generated.attributes {f : FieldDecl} {member : Member} {q : Pool} (h : f.Generated member q) :
    ∀ a ∈ member.attributes,
      (∃ index, a.Holds q "ConstantValue" (.constantValue index)) ∨ a.Annotates q f.annotations := by
  obtain ⟨value, own, heq, hvalue, hown⟩ := h.attributes_eq
  rw [heq]
  exact List.forall_mem_append.mpr
    ⟨fun a ha => .inl (holds_of_valueAttribute hvalue a ha), fun a ha => .inr (hown.annotates a ha)⟩

end FieldDecl

theorem ClassFile.text?_of_meaning? {file : ClassFile} {q : Pool} (hpool : file.pool = q.entries)
    {index : UInt16} {text : String} (h : q.meaning? index = some (.utf8 text)) :
    file.text? index = some text := by
  have htext := Pool.text?_of_meaning? h
  rw [text?, hpool]
  exact htext

theorem ClassFile.className?_of_meaning? {file : ClassFile} {q : Pool} (hpool : file.pool = q.entries)
    {index : UInt16} {name : String} (h : q.meaning? index = some (.classInfo name)) :
    file.className? index = some name := by
  obtain ⟨e, hget, hreading⟩ := Pool.meaning?_eq_some_iff.mp h
  obtain ⟨k, rfl, htext⟩ := Pool.standsFor_of_reading? hreading
  have hentry : entryAt? file.pool index = some (.classInfo k) := by rw [hpool]; exact hget
  rw [className?, hentry]
  dsimp only
  rw [text?, hpool]
  exact htext

namespace ClassDecl

/-- The methods with the fields that each initializes: the first static initializer with code has
them all. -/
def share (fields : List Initializer) : List MethodDecl → List (MethodDecl × List Initializer)
  | [] => []
  | m :: rest =>
    if m.isStaticInitializer && m.body?.isSome then (m, fields) :: share [] rest
    else (m, []) :: share fields rest

def plan (c : ClassDecl) : List (MethodDecl × List Initializer) := share c.initializers c.allMethods

theorem map_share (fields : List Initializer) (methods : List MethodDecl) :
    (share fields methods).map Prod.fst = methods := by
  induction methods generalizing fields with
  | nil => rfl
  | cons m rest ih =>
    rw [share]
    split <;> rw [List.map_cons, ih]

theorem eq_nil_of_mem_share {fields used : List Initializer} {methods : List MethodDecl}
    {m : MethodDecl} (h : (m, used) ∈ share fields methods) (hm : m.isStaticInitializer = false) :
    used = [] := by
  induction methods generalizing fields with
  | nil => cases h
  | cons m' rest ih =>
    rw [share] at h
    split at h
    · rename_i hinit
      rcases List.mem_cons.mp h with heq | h
      · obtain ⟨rfl, rfl⟩ := Prod.mk.inj heq
        rw [hm] at hinit
        cases hinit
      · exact ih h
    · rcases List.mem_cons.mp h with heq | h
      · exact (Prod.mk.inj heq).2
      · exact ih h

theorem generateMethods_eq (options : Options) (c : ClassDecl) (fields : List Initializer)
    (done : List Member) (methods : List MethodDecl) :
    generateMethods options c fields done methods =
      (share fields methods).mapM (fun m => m.1.generate options c m.2) >>= fun members =>
        pure (done.reverse ++ members) := by
  induction methods generalizing fields done with
  | nil => simp [generateMethods, share]
  | cons m rest ih =>
    unfold generateMethods share
    split <;> simp [ih]

def lastField? (c : ClassDecl) (name : String) : Option FieldDecl :=
  c.fields.reverse.find? fun f => f.name == name

private theorem getElem?_fieldTypes (c : ClassDecl) (name : String) :
    c.fieldTypes[name]? = (c.lastField? name).map FieldDecl.type := by
  unfold fieldTypes lastField?
  generalize c.fields = fields
  induction fields using List.reverseRecOn with
  | nil => simp
  | append_singleton fields f ih =>
    rw [List.foldl_append, List.foldl_cons, List.foldl_nil, Std.HashMap.getElem?_insert, ih,
      List.reverse_append, List.reverse_singleton, List.singleton_append, List.find?_cons]
    cases f.name == name <;> rfl

def pending (c : ClassDecl) : List FieldDecl :=
  c.fields.filter fun f => f.initial.any Literal.needsCode

/-- Every field with a value that needs code is initialized, as the last one with its name. -/
theorem forall₂_initializers (c : ClassDecl) :
    List.Forall₂ (fun f i => i.field = f.name ∧ f.initial = some i.value ∧
      i.type = ((c.lastField? f.name).map FieldDecl.type).getD f.type) c.pending c.initializers := by
  simp only [← getElem?_fieldTypes]
  unfold pending initializers
  generalize c.fieldTypes = types
  induction c.fields with
  | nil => exact .nil
  | cons f fields ih =>
    cases hinitial : f.initial with
    | none =>
      rw [List.filter_cons_of_neg (by simp [hinitial]), List.filterMap_cons_none (by rw [hinitial])]
      exact ih
    | some value =>
      cases hcode : value.needsCode with
      | false =>
        rw [List.filter_cons_of_neg (by simp [hinitial, hcode]),
          List.filterMap_cons_none (by simp [hinitial, hcode])]
        exact ih
      | true =>
        rw [List.filter_cons_of_pos (by simp [hinitial, hcode]),
          List.filterMap_cons_some (b := ⟨f.name, types[f.name]?.getD f.type, value⟩)
            (by simp [hinitial, hcode])]
        exact .cons ⟨rfl, hinitial, rfl⟩ ih

structure Generated (options : Options) (c : ClassDecl) (file : ClassFile) (q : Pool) : Prop where
  sound : q.Sound
  poolCount : file.poolCount = q.count
  pool : file.pool = q.entries
  this : q.meaning? file.this = some (.classInfo c.this.name)
  super : (c.super = none ∧ file.super = 0) ∨
    ∃ super, c.super = some super ∧ q.meaning? file.super = some (.classInfo super.name)
  interfaces : file.interfaces.length ≤ 65535 ∧
    List.Forall₂ (fun i index => q.meaning? index = some (.classInfo i.name)) c.interfaces
      file.interfaces
  fields : file.fields.length ≤ 65535 ∧
    List.Forall₂ (fun f member => f.Generated member q) c.fields file.fields
  methods : file.methods.length ≤ 65535 ∧
    List.Forall₂ (fun m member => m.1.Generated options c m.2 member q) c.plan file.methods
  length_attributes_le : file.attributes.length ≤ 65535
  attributes_eq : ∃ source own, file.attributes = source ++ own ∧ Ran q c.sourceAttribute source ∧
    KeptAnnotation.Attached q c.annotations own

private theorem grows_generateMethods (options : Options) (c : ClassDecl) (fields : List Initializer)
    (done : List Member) (methods : List MethodDecl) :
    Grows id (generateMethods options c fields done methods) := by
  rw [generateMethods_eq]
  exact (Grows.mapM (fun m => MethodDecl.grows_generate _ _ _ _) _).bind fun _ => .pure _

private theorem generated_of_generateMethods {options : Options} {c : ClassDecl}
    {fields : List Initializer} {methods : List MethodDecl} {out : List Member} {q : Pool}
    (h : Ran q (generateMethods options c fields [] methods) out) :
    List.Forall₂ (fun m member => m.1.Generated options c m.2 member q) (share fields methods)
      out := by
  have hgrows : ∀ m : MethodDecl × List Initializer, Grows id (m.1.generate options c m.2) :=
    fun m => MethodDecl.grows_generate _ _ _ _
  rw [generateMethods_eq] at h
  obtain ⟨members, hmembers, h⟩ := h.of_bind (Grows.mapM hgrows _) fun _ => .pure _
  rw [h.eq_of_pure]
  exact (hmembers.of_mapM hgrows).imp fun m member => MethodDecl.generated_of_ran

private theorem super_of_ran {c : ClassDecl} {index : UInt16} {q : Pool} (h : Ran q c.superIndex index) :
    (c.super = none ∧ index = 0) ∨
      ∃ super, c.super = some super ∧ q.meaning? index = some (.classInfo super.name) := by
  unfold superIndex at h
  split at h
  · rename_i hnone
    exact .inl ⟨hnone, h.eq_of_pure⟩
  · rename_i super hsuper
    exact .inr ⟨super, hsuper, meaning?_of_ran (r := .classInfo super.name) h⟩

theorem holds_of_sourceAttribute {c : ClassDecl} {out : List Attribute} {q : Pool}
    (h : Ran q c.sourceAttribute out) :
    ∀ a ∈ out, ∃ index, a.Holds q "SourceFile" (.sourceFile index) := by
  unfold sourceAttribute at h
  split at h
  · rw [h.eq_of_pure]
    simp
  · obtain ⟨index, -, h⟩ := h.of_bind (Grows.utf8 _) fun _ =>
      (grows_named _ _).bind fun _ => .pure _
    obtain ⟨a, ha, h⟩ := h.of_bind (grows_named _ _) fun _ => .pure _
    rw [h.eq_of_pure]
    exact List.forall_mem_singleton.mpr ⟨index, holds_of_ran ha⟩

theorem generated_of_generate {options : Options} {c : ClassDecl} {file : ClassFile}
    (h : c.generate options = .ok file) : ∃ q, c.Generated options file q := by
  unfold generate at h
  split at h
  · cases h
  rename_i built q hbuild
  cases h
  simp only [build, run_bind_iff] at hbuild
  obtain ⟨this, p₁, hthis, super, p₂, hsuper, interfaces, p₃, hinterfaces, kept, p₄, hkept, fields,
    p₅, hfields, methods, p₆, hmethods, source, p₇, hsource, other, p₈, hother, is, p₉, his, fs,
    p₁₀, hfs, ms, p₁₁, hms, as, p₁₂, has, hbuild⟩ := hbuild
  obtain ⟨rfl, rfl⟩ := Prod.mk.inj (run_pure_iff.mp hbuild)
  obtain ⟨hislength, rfl, rfl⟩ := run_bounded_iff.mp his
  obtain ⟨hfslength, rfl, rfl⟩ := run_bounded_iff.mp hfs
  obtain ⟨hmslength, rfl, rfl⟩ := run_bounded_iff.mp hms
  obtain ⟨haslength, rfl, rfl⟩ := run_bounded_iff.mp has
  have hinterface : ∀ i : ClassType, Grows id (pooled (Pool.classInfo i.name)) :=
    fun i => Grows.classInfo i.name
  obtain ⟨hp₁, -⟩ := Grows.classInfo _ _ _ _ hthis Pool.sound_empty
  obtain ⟨hp₂, hle₂⟩ := grows_superIndex c _ _ _ hsuper hp₁
  obtain ⟨hp₃, hle₃⟩ := Grows.mapM hinterface _ _ _ _ hinterfaces hp₂
  obtain ⟨hp₄, hle₄⟩ := grows_storeKept _ _ _ _ hkept hp₃
  obtain ⟨hp₅, hle₅⟩ := Grows.mapM FieldDecl.grows_generate _ _ _ _ hfields hp₄
  obtain ⟨hp₆, hle₆⟩ := grows_generateMethods _ _ _ _ _ _ _ _ hmethods hp₅
  obtain ⟨hp₇, hle₇⟩ := grows_sourceAttribute c _ _ _ hsource hp₆
  obtain ⟨hp₈, hle₈⟩ := grows_keptAttributes _ _ _ _ hother hp₇
  have hle₆' := Pool.le_trans hle₇ hle₈
  have hle₅' := Pool.le_trans hle₆ hle₆'
  have hle₄' := Pool.le_trans hle₅ hle₅'
  have hle₃' := Pool.le_trans hle₄ hle₄'
  have hle₂' := Pool.le_trans hle₃ hle₃'
  have hfield := (Ran.of_mapM FieldDecl.grows_generate ⟨_, _, hfields, hp₄, hle₅'⟩).imp
    fun f member => FieldDecl.generated_of_ran
  exact ⟨p₈, {
    sound := hp₈
    poolCount := rfl
    pool := rfl
    this := meaning?_of_ran (r := .classInfo c.this.name)
      ⟨_, _, hthis, Pool.sound_empty, Pool.le_trans hle₂ hle₂'⟩
    super := super_of_ran ⟨_, _, hsuper, hp₁, hle₂'⟩
    interfaces := ⟨hislength, (Ran.of_mapM hinterface ⟨_, _, hinterfaces, hp₂, hle₃'⟩).imp
      fun i index h => meaning?_of_ran (r := .classInfo i.name) h⟩
    fields := ⟨hfslength, hfield⟩
    methods := ⟨hmslength, generated_of_generateMethods ⟨_, _, hmethods, hp₅, hle₆'⟩⟩
    length_attributes_le := haslength
    attributes_eq := ⟨source, other, rfl, ⟨_, _, hsource, hp₆, hle₈⟩, kept,
      ⟨_, _, hkept, hp₃, hle₄'⟩, ⟨_, _, hother, hp₇, Pool.le_refl p₈⟩⟩ }⟩

theorem Generated.attributes {options : Options} {c : ClassDecl} {file : ClassFile} {q : Pool}
    (h : c.Generated options file q) : file.attributes.length ≤ 65535 ∧ ∀ a ∈ file.attributes,
      (∃ index, a.Holds q "SourceFile" (.sourceFile index)) ∨ a.Annotates q c.annotations := by
  obtain ⟨source, own, heq, hsource, hown⟩ := h.attributes_eq
  refine ⟨h.length_attributes_le, ?_⟩
  rw [heq]
  exact List.forall_mem_append.mpr
    ⟨fun a ha => .inl (holds_of_sourceAttribute hsource a ha), fun a ha => .inr (hown.annotates a ha)⟩

section Names

variable {options : Options} {c : ClassDecl} {file : ClassFile} {q : Pool}
  (h : c.Generated options file q) {index : UInt16}
include h

theorem Generated.text? {text : String} (hmeaning : q.meaning? index = some (.utf8 text)) :
    file.text? index = some text :=
  ClassFile.text?_of_meaning? h.pool hmeaning

theorem Generated.className? {name : String} (hmeaning : q.meaning? index = some (.classInfo name)) :
    file.className? index = some name :=
  ClassFile.className?_of_meaning? h.pool hmeaning

end Names

end ClassDecl

end Classwright
