import Classwright.Proofs.CodeBytes
import Classwright.Proofs.Layouts
import Classwright.Proofs.Typing

/-!
# What is known of the slots

Of the types that the analysis finds the verifier sees the kinds.  A slot whose type is known belongs to
a local of that kind, so wide values never overlap with others, and an instruction changes what the
analysis knows as it changes what the verifier knows.
-/

namespace Classwright

open Verifier

theorem VerificationType.Describes.kind? {pool : Pool} {t : JavaType} {v : VerificationType}
    (h : v.Describes pool t) : v.kind? = t.kind? := by
  unfold Describes at h
  split at h
  · rename_i hkind
    obtain ⟨index, -, rfl⟩ := h
    exact hkind.symm
  all_goals
    rename_i hkind
    rw [h, hkind]
    rfl

namespace Flow

variable {w : Nat}

def known (locals : Locals w) : Known := fun k => locals[k]?.bind VerificationType.kind?

/-- Only slots at which a local starts have a type, and it is of the kind of the local. -/
def Suits (slots : Slots) (locals : Locals w) : Prop :=
  ∀ k t, locals[k]? = some t → t ≠ .top →
    ∃ entry ∈ slots.locals.toList, entry.2.toNat = k ∧ entry.1.type.kind? = t.kind?

theorem kind?_eq_none_iff {t : VerificationType} : t.kind? = none ↔ t = .top := by
  cases t <;> simp [VerificationType.kind?]

theorem Suits.exists_entry {slots : Slots} {locals : Locals w} (h : Suits slots locals) {k : Nat}
    {kind : Kind} (hknown : known locals k = some kind) :
    ∃ entry ∈ slots.locals.toList, entry.2.toNat = k ∧ entry.1.type.kind? = some kind := by
  obtain ⟨t, ht, hkind⟩ := Option.bind_eq_some_iff.mp hknown
  have hne : t ≠ .top := by
    rintro rfl
    cases hkind
  obtain ⟨entry, hentry, hslot, htype⟩ := h k t ht hne
  exact ⟨entry, hentry, hslot, htype.trans hkind⟩

end Flow

structure Layout.Kinds (layout : Layout) (slots : Slots) : Prop where
  wellFormed : slots.WellFormed
  valued : ∀ entry ∈ slots.locals.toList, entry.1.type.isVoid = false
  width : layout.width = slots.next.toNat
  declared : ∀ entry ∈ slots.locals.toList,
    ∃ v, layout.declared[entry.2.toNat]? = some v ∧ v.kind? = entry.1.type.kind?
  entry : Flow.Suits slots layout.entry
  initialized : ∀ t, layout.initializedThis = some t → t.kind? = some .reference ∧
    ∃ entry ∈ slots.locals.toList, entry.2.toNat = 0 ∧ entry.1.type.kind? = some .reference

namespace Layout.Kinds

variable {layout : Layout} {slots : Slots} (h : layout.Kinds slots) {entry entry' : Local × UInt16}
include h

private theorem widthOf_eq (hentry : entry ∈ slots.locals.toList) {kind : Kind}
    (hkind : entry.1.type.kind? = some kind) : Slots.widthOf entry.1 = kind.width :=
  Slots.widthOf_eq (h.valued entry hentry) hkind

theorem bounds (hentry : entry ∈ slots.locals.toList) {kind : Kind}
    (hkind : entry.1.type.kind? = some kind) : entry.2.toNat + kind.width ≤ layout.width := by
  have hbounds := (h.wellFormed.tiles.bounds hentry).2
  rw [h.widthOf_eq hentry hkind, ← h.width] at hbounds
  exact hbounds

theorem entry_eq (hentry : entry ∈ slots.locals.toList) (hentry' : entry' ∈ slots.locals.toList)
    (hslot : entry.2.toNat = entry'.2.toNat) : entry = entry' := by
  have hpos := Slots.widthOf_pos entry.1
  have hpos' := Slots.widthOf_pos entry'.1
  rcases h.wellFormed.tiles.separate hentry hentry' with heq | hsep | hsep
  · exact heq
  · omega
  · omega

theorem not_inside (hentry : entry ∈ slots.locals.toList) {kind : Kind}
    (hkind : entry.1.type.kind? = some kind) (hwide : kind.isWide = true)
    (hentry' : entry' ∈ slots.locals.toList) : entry'.2.toNat ≠ entry.2.toNat + 1 := by
  have hwidth := h.widthOf_eq hentry hkind
  rw [Kind.width, if_pos hwide] at hwidth
  have hpos := Slots.widthOf_pos entry'.1
  rcases h.wellFormed.tiles.separate hentry hentry' with heq | hsep | hsep
  · rw [heq]
    omega
  · omega
  · omega

end Layout.Kinds

namespace Flow

variable {layout : Layout} {slots : Slots}

def StoresInto (slots : Slots) (instr : Instr) : Prop :=
  ∀ kind form, instr = .store kind form →
    ∃ entry ∈ slots.locals.toList, form.slot = entry.2.toNat ∧ entry.1.type.kind? = some kind

section Transfer

variable (h : layout.Kinds slots) {instr : Instr} {thisInit : Option Nat} {i : Nat}
  {locals : Locals layout.width}
include h

private theorem kind?_storedType {entry : Local × UInt16} (hentry : entry ∈ slots.locals.toList)
    {kind : Kind} (hkind : entry.1.type.kind? = some kind) :
    (storedType layout entry.2.toNat kind).kind? = some kind := by
  cases kind with
  | reference =>
    obtain ⟨v, hv, hdescribes⟩ := h.declared entry hentry
    rw [storedType, hv]
    exact hdescribes.trans hkind
  | _ => rfl

theorem getElem?_applyStore {entry : Local × UInt16} (hentry : entry ∈ slots.locals.toList)
    {kind : Kind} {form : SlotForm} (hslot : form.slot = entry.2.toNat)
    (hkind : entry.1.type.kind? = some kind) (k : Nat) :
    (applyStore layout locals (.store kind form))[k]? =
      if k = entry.2.toNat then some (storedType layout entry.2.toNat kind)
      else if kind.isWide = true ∧ k = entry.2.toNat + 1 then some .top
      else locals[k]? := by
  have hbounds := h.bounds hentry hkind
  have heq := VerificationType.isWide_of_kind? (kind?_storedType h hentry hkind)
  rw [applyStore, hslot]
  by_cases hwide : kind.isWide = true
  · rw [Kind.width, if_pos hwide] at hbounds
    simp only [← heq, hwide, if_true, Vector.getElem?_setIfInBounds]
    grind
  · rw [Kind.width, if_neg hwide] at hbounds
    simp only [← heq, hwide]
    grind

private theorem known_applyStore (hsuits : Suits slots locals) (hstores : StoresInto slots instr) :
    known (applyStore layout locals instr) = (known locals).after instr := by
  cases instr with
  | store kind form =>
    obtain ⟨entry, hentry, hslot, hkind⟩ := hstores kind form rfl
    funext k
    rw [known, getElem?_applyStore h hentry hslot hkind]
    simp only [Known.after, Known.write, hslot]
    split
    · exact kind?_storedType h hentry hkind
    · split
      · rfl
      · rw [if_neg]
        · rfl
        · -- a wide value in the slot before would overlap with the local
          rintro ⟨hnext, hwide⟩
          obtain ⟨kind', hkind', hwide⟩ := (Option.any_eq_true ..).mp hwide
          obtain ⟨entry', hentry', hslot', htype⟩ := hsuits.exists_entry hkind'
          exact h.not_inside hentry' htype hwide hentry (by omega)
  | _ => rfl

/-- The verifier and the analysis agree on what an instruction does.  They may differ on the receiver only
where it is initialized without being known. -/
theorem known_transfer (hsuits : Suits slots locals) (hstores : StoresInto slots instr)
    (hinit : thisInit = some i → (∀ kind form, instr ≠ .store kind form) ∧ known locals 0 ≠ none) :
    known (transfer layout thisInit i instr locals) = (known locals).after instr := by
  have hstored := known_applyStore h hsuits hstores
  unfold transfer
  dsimp only
  split
  · rename_i hthis
    obtain ⟨hnot, hknown⟩ := hinit hthis
    have hsame : applyStore layout locals instr = locals := by
      cases instr with
      | store kind form => exact absurd rfl (hnot kind form)
      | _ => rfl
    rw [hsame] at hstored ⊢
    split
    · rename_i type htype
      obtain ⟨hkind, entry, hentry, hslot, hreference⟩ := h.initialized type htype
      obtain ⟨kind, hkind'⟩ := Option.ne_none_iff_exists'.mp hknown
      obtain ⟨entry', hentry', hslot', hreference'⟩ := hsuits.exists_entry hkind'
      have heq := h.entry_eq hentry hentry' (hslot.trans hslot'.symm)
      subst heq
      rw [hreference] at hreference'
      cases hreference'
      rw [← hstored]
      funext k
      by_cases hk : 0 = k
      · subst hk
        have hpos : 0 < layout.width := by
          have hbounds := h.bounds hentry hreference
          have hwidth := Kind.width_pos .reference
          omega
        rw [hkind']
        simp [known, hpos, hkind]
      · simp [known, hk]
    · exact hstored
  · exact hstored

end Transfer

section States

variable (h : layout.Kinds slots) {steps : Array Step} {thisInit : Option Nat} {i : Nat}
  (hstores : ∀ (i : Nat) (step : Step), steps[i]? = some step → StoresInto slots step.instr)
include h hstores

theorem suits_of_localsAt? {state : Locals layout.width}
    (hstate : localsAt? (analyze steps layout thisInit) i = some state) : Suits slots state := by
  refine everywhere_of_localsAt? (P := fun k t => ∃ entry ∈ slots.locals.toList, entry.2.toNat = k ∧
    entry.1.type.kind? = t.kind?) ?_ h.entry ?_ hstate
  · intro _ type htype
    obtain ⟨hkind, entry, hentry, hslot, hreference⟩ := h.initialized type htype
    exact ⟨entry, hentry, hslot, hreference.trans hkind.symm⟩
  · intro i step hstep kind form hstore
    obtain ⟨entry, hentry, hslot, hkind⟩ := hstores i step hstep kind form hstore
    rw [hslot]
    exact ⟨entry, hentry, rfl, hkind.trans (kind?_storedType h hentry hkind).symm⟩

end States

end Flow

section Layout

variable {owner : ClassDecl} {method : MethodDecl} {b : Body} {slots : Slots} {q : Pool} {layout : Layout}
  (h : layout.Of owner method b slots q) {P : Nat → VerificationType → Prop}
include h

theorem Layout.Of.everywhere_declared (hP : ∀ entry ∈ slots.locals.toList, ∀ v : VerificationType,
    v.Describes q entry.1.type → P entry.2.toNat v) : Flow.Everywhere P layout.declared := by
  intro k t ht hne
  by_cases hstart : ∃ entry ∈ slots.locals.toList, entry.2.toNat = k
  · obtain ⟨entry, hentry, rfl⟩ := hstart
    obtain ⟨v, hv, hdescribes⟩ := h.declared entry hentry
    rw [ht] at hv
    cases hv
    exact hP entry hentry t hdescribes
  · have htop := h.undeclared k (Vector.getElem?_eq_some_iff.mp ht).1
      fun entry hentry hslot => hstart ⟨entry, hentry, hslot⟩
    rw [ht] at htop
    cases htop
    exact absurd rfl hne

theorem Layout.Of.everywhere_entry (hdeclared : Flow.Everywhere P layout.declared)
    (hthis : method.initializesThis = true → 0 < layout.width → P 0 .uninitializedThis) :
    Flow.Everywhere P layout.entry := by
  intro k t ht hne
  obtain ⟨hk, -⟩ := Vector.getElem?_eq_some_iff.mp ht
  by_cases hfirst : method.initializesThis = true ∧ k = 0
  · obtain ⟨hinit, rfl⟩ := hfirst
    rw [h.this hinit hk] at ht
    cases ht
    exact hthis hinit hk
  · have hother : method.initializesThis = true → k ≠ 0 := fun hinit hzero => hfirst ⟨hinit, hzero⟩
    by_cases hslot : HasSlot slots b.parameters k
    · rw [h.parameter k hk hslot hother] at ht
      exact hdeclared k t ht hne
    · rw [h.other k hk hslot hother] at ht
      cases ht
      exact absurd rfl hne

end Layout

/-- The layout of a well-formed body says what the verifier knows of its slots. -/
theorem Layout.Of.kinds {owner : ClassDecl} {method : MethodDecl} {b : Body} {final : Lowering} {q : Pool}
    {layout : Layout} (h : layout.Of owner method b final.slots q) (hok : final.Ok (· ∈ b.locals))
    (hb : b.WellFormed)
    (hreceiver : method.initializesThis = true → ∃ entry ∈ final.slots.locals.toList,
      entry.2 = 0 ∧ entry.1.type.kind? = some .reference) : layout.Kinds final.slots where
  wellFormed := hok.slots
  valued := fun entry hentry => hb.valued entry.1 (hok.locals entry hentry)
  width := h.width
  declared := by
    intro entry hentry
    obtain ⟨v, hv, hdescribes⟩ := h.declared entry hentry
    exact ⟨v, hv, hdescribes.kind?⟩
  entry := by
    refine h.everywhere_entry (h.everywhere_declared fun entry hentry v hdescribes => ?_) fun hinit _ => ?_
    · exact ⟨entry, hentry, rfl, hdescribes.kind?.symm⟩
    · obtain ⟨entry, hentry, hslot, hkind⟩ := hreceiver hinit
      exact ⟨entry, hentry, by rw [hslot]; rfl, hkind⟩
  initialized := by
    intro t ht
    have hinitialized := h.initialized
    split at hinitialized
    · rename_i hinit
      obtain ⟨index, -, hobject⟩ := hinitialized
      rw [hobject] at ht
      cases ht
      obtain ⟨entry, hentry, hslot, hkind⟩ := hreceiver hinit
      exact ⟨rfl, entry, hentry, by rw [hslot]; rfl, hkind⟩
    · rw [hinitialized] at ht
      cases ht

end Classwright
