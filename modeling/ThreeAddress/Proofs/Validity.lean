import ThreeAddress.Proofs.Bitmap
import ThreeAddress.Proofs.Shape
import ThreeAddress.Program

/-!
# Valid code

`Func.validate` looks labels up in a bitmap. Here the same condition is stated on lists: every
instruction is well-formed, no label is defined twice or has a negative handle, and every branch
goes to a label that is defined (`validate_eq_ok_iff`).
-/

namespace ThreeAddress
set_option autoImplicit false

theorem Fault.exceptT_bind_eq_ok_iff {α β : Type} {x : ExceptT Error (Except Fault) α}
    {f : α → ExceptT Error (Except Fault) β} {b : β} :
    (x >>= f).run = .ok (.ok b) ↔ ∃ a, x.run = .ok (.ok a) ∧ (f a).run = .ok (.ok b) := by
  rw [ExceptT.run_bind, Fault.bind_eq_ok_iff]
  constructor
  · rintro ⟨r, hr, h⟩
    cases r with
    | error e => cases h
    | ok a => exact ⟨a, hr, h⟩
  · rintro ⟨a, hx, h⟩
    exact ⟨.ok a, hx, h⟩

theorem Fault.exceptT_lift_eq_ok_iff {α : Type} {x : Except Fault α} {a : α} :
    (monadLift x : ExceptT Error (Except Fault) α).run = .ok (.ok a) ↔ x = .ok a := by
  cases x with
  | error f =>
    constructor
    · intro h
      cases h
    · intro h
      cases h
  | ok b =>
    constructor
    · intro h
      cases h
      rfl
    · intro h
      cases h
      rfl

theorem Label.eq_of_toNat_eq {l m : Label} (hl : 0 ≤ l.handle) (hm : 0 ≤ m.handle)
    (h : l.handle.toNat = m.handle.toNat) : l = m := by
  obtain ⟨a⟩ := l
  obtain ⟨b⟩ := m
  rw [Label.mk.injEq]
  simp only at hl hm h
  omega

namespace Instr

/-- The label that a label instruction defines. -/
def label? (x : Instr) : Option Label := if x.op = .label then x.target? else none

/-- The label that a branch goes to. -/
def goal? (x : Instr) : Option Label := if x.op.isBranch then x.target? else none

theorem WellFormed.exists_target {x : Instr} (h : x.WellFormed)
    (hop : x.op.isBranch ∨ x.op = .label) :
    ∃ l rest, x.args = some (.label l) :: rest ∧ x.target? = some l := by
  have key : ∃ l rest, x.args = some (.label l) :: rest := by
    rcases hop with hop | hop
    · rcases Opcode.isBranch_iff.mp hop with hop | hop | hop
      · obtain ⟨a, ha, ht⟩ := (wellFormed_iff_one (by rw [hop]; rfl)).mp h
        obtain ⟨l, rfl⟩ := Slot.takes_target_iff.mp ht
        exact ⟨l, [], ha⟩
      · obtain ⟨a, b, hab, ht, _⟩ := (wellFormed_iff_two (by rw [hop]; rfl)).mp h
        obtain ⟨l, rfl⟩ := Slot.takes_target_iff.mp ht
        exact ⟨l, [b], hab⟩
      · obtain ⟨a, b, hab, ht, _⟩ := (wellFormed_iff_two (by rw [hop]; rfl)).mp h
        obtain ⟨l, rfl⟩ := Slot.takes_target_iff.mp ht
        exact ⟨l, [b], hab⟩
    · obtain ⟨a, ha, ht⟩ := (wellFormed_iff_one (by rw [hop]; rfl)).mp h
      obtain ⟨l, rfl⟩ := Slot.takes_target_iff.mp ht
      exact ⟨l, [], ha⟩
  obtain ⟨l, rest, hargs⟩ := key
  refine ⟨l, rest, hargs, ?_⟩
  have hcond : (x.op.isBranch || x.op == .label) = true := by
    rcases hop with hop | hop <;> simp [hop]
  rw [target?, if_pos hcond, operand?, hargs]
  rfl

theorem WellFormed.exists_label {x : Instr} (h : x.WellFormed) (hop : x.op = .label) :
    ∃ l, x = ⟨.label, [some (.label l)]⟩ := by
  obtain ⟨a, ha, ht⟩ := (wellFormed_iff_one (by rw [hop]; rfl)).mp h
  obtain ⟨l, rfl⟩ := Slot.takes_target_iff.mp ht
  obtain ⟨op, args⟩ := x
  simp only at hop ha
  exact ⟨l, by rw [hop, ha]⟩

@[simp] theorem label?_mk (l : Label) : label? ⟨.label, [some (.label l)]⟩ = some l := rfl

theorem op_eq_of_label? {x : Instr} {l : Label} (h : x.label? = some l) : x.op = .label := by
  unfold label? at h
  split at h
  · assumption
  · cases h

theorem label?_eq_none {x : Instr} (h : x.op ≠ .label) : x.label? = none := if_neg h

theorem goal?_eq_none {x : Instr} (h : x.op.isBranch = false) : x.goal? = none := by
  rw [goal?, h]
  rfl

theorem WellFormed.isBranch_eq_false {x : Instr} (h : x.WellFormed) (hgoal : x.goal? = none) :
    x.op.isBranch = false := by
  rw [Bool.eq_false_iff]
  intro hop
  obtain ⟨l, _, _, htarget⟩ := h.exists_target (.inl hop)
  rw [goal?, if_pos hop, htarget] at hgoal
  cases hgoal

end Instr

namespace Code

/-- The labels that are defined, in the order of the code. -/
def labels (code : Code) : List Label := code.filterMap Instr.label?

/-- The labels that branches go to. -/
def targets (code : Code) : List Label := code.filterMap Instr.goal?

@[simp] theorem labels_nil : labels [] = [] := rfl

@[simp] theorem targets_nil : targets [] = [] := rfl

theorem labels_cons (x : Instr) (code : Code) :
    labels (x :: code) = x.label?.toList ++ labels code := by
  rw [labels, labels, List.filterMap_cons]
  cases x.label? <;> rfl

theorem targets_cons (x : Instr) (code : Code) :
    targets (x :: code) = x.goal?.toList ++ targets code := by
  rw [targets, targets, List.filterMap_cons]
  cases x.goal? <;> rfl

@[simp] theorem labels_append (c d : Code) : labels (c ++ d) = labels c ++ labels d :=
  List.filterMap_append

@[simp] theorem targets_append (c d : Code) : targets (c ++ d) = targets c ++ targets d :=
  List.filterMap_append

theorem find?_cons (x : Instr) (rest : Code) (l : Label) :
    find? (x :: rest) l = if x.label? = some l then some 0 else (find? rest l).map (· + 1) := by
  have hfits : (x.op == .label && x.target? == some l) = decide (x.label? = some l) := by
    rw [Instr.label?]
    by_cases hop : x.op = .label
    · rw [if_pos hop, beq_iff_eq.mpr hop, Bool.true_and, Bool.beq_eq_decide_eq]
    · rw [if_neg hop, beq_eq_false_iff_ne.mpr hop]
      rfl
  rw [find?, List.findIdx?_cons, hfits]
  by_cases hx : x.label? = some l <;> simp [hx, find?]

theorem find?_isSome_iff {code : Code} {l : Label} : (find? code l).isSome ↔ l ∈ labels code := by
  induction code with
  | nil => simp [find?]
  | cons x rest ih =>
    rw [find?_cons, labels_cons, List.mem_append, Option.mem_toList, ← ih]
    by_cases hx : x.label? = some l
    · rw [if_pos hx]
      exact ⟨fun _ => .inl hx, fun _ => rfl⟩
    · rw [if_neg hx, Option.isSome_map]
      exact ⟨.inr, fun h => h.resolve_left hx⟩

/-- The code that `Func.validate` accepts. -/
structure Valid (code : Code) : Prop where
  wellFormed : ∀ x ∈ code, x.WellFormed
  nodup : (labels code).Nodup
  nonneg : ∀ l ∈ labels code, 0 ≤ l.handle
  resolved : ∀ l ∈ targets code, l ∈ labels code

/-- What `definedFrom` has found out once it has gone through `code`. -/
theorem definedFrom_eq_ok {seen t : Bitmap} {i : Nat} {code : Code} (hs : seen.Roomy)
    (h : (definedFrom seen i code).run = .ok (.ok t)) :
    (∀ x ∈ code, x.WellFormed) ∧ (labels code).Nodup ∧
      (∀ l ∈ labels code, 0 ≤ l.handle ∧ l.handle.toNat ∉ seen) ∧ t.Roomy ∧
      ∀ n, n ∈ t ↔ n ∈ seen ∨ ∃ l ∈ labels code, l.handle.toNat = n := by
  induction code generalizing seen i with
  | nil =>
    cases h
    simp [hs]
  | cons x rest ih =>
    rw [definedFrom] at h
    cases hf : x.flaw? with
    | some c =>
      rw [hf] at h
      cases h
    | none =>
      rw [hf] at h
      have hx : x.WellFormed := hf
      by_cases hop : x.op = .label
      · obtain ⟨l, rfl⟩ := hx.exists_label hop
        simp only [if_true] at h
        obtain ⟨present, hpresent, h⟩ := Fault.exceptT_bind_eq_ok_iff.mp h
        have hcontains : seen.contains l.handle = .ok present :=
          Fault.exceptT_lift_eq_ok_iff.mp hpresent
        obtain ⟨n, hn⟩ := Int.eq_ofNat_of_zero_le (hs.nonneg_of_contains hcontains)
        rw [hn, Bitmap.contains_natCast] at hcontains
        cases hcontains
        by_cases hmem : n ∈ seen
        · rw [decide_eq_true hmem, if_pos rfl] at h
          cases h
        rw [decide_eq_false hmem, if_neg Bool.false_ne_true] at h
        obtain ⟨grown, hgrown, h⟩ := Fault.exceptT_bind_eq_ok_iff.mp h
        have hinsert : seen.insert l.handle = .ok grown := Fault.exceptT_lift_eq_ok_iff.mp hgrown
        obtain ⟨wf, nd, new, room, mem⟩ := ih (hs.insert hinsert) h
        obtain ⟨grown', hinsert', hgrown'⟩ := seen.exists_insert_natCast n
        rw [hn, hinsert'] at hinsert
        cases hinsert
        rw [labels_cons, Instr.label?_mk, Option.toList_some, List.singleton_append]
        refine ⟨List.forall_mem_cons.mpr ⟨hx, wf⟩, List.nodup_cons.mpr ⟨?_, nd⟩,
          List.forall_mem_cons.mpr ⟨⟨by omega, by rwa [hn]⟩, ?_⟩, room, ?_⟩
        · intro hl
          exact (new l hl).2 ((hgrown' _).mpr (.inl (by omega)))
        · intro m hm
          exact ⟨(new m hm).1, fun hseen => (new m hm).2 ((hgrown' _).mpr (.inr hseen))⟩
        · intro m
          have hhead : l.handle.toNat = m ↔ m = n := by omega
          simp only [mem, hgrown', List.mem_cons, exists_eq_or_imp, hhead]
          rw [or_comm (a := m = n), or_assoc]
      · simp only [if_neg hop] at h
        obtain ⟨hwf, hnd, hfresh, ht, hmem⟩ := ih hs h
        rw [labels_cons, Instr.label?_eq_none hop]
        exact ⟨List.forall_mem_cons.mpr ⟨hx, hwf⟩, hnd, hfresh, ht, hmem⟩

theorem exists_definedFrom {seen : Bitmap} {code : Code} (i : Nat) (wf : ∀ x ∈ code, x.WellFormed)
    (nd : (labels code).Nodup) (new : ∀ l ∈ labels code, 0 ≤ l.handle ∧ l.handle.toNat ∉ seen) :
    ∃ t, (definedFrom seen i code).run = .ok (.ok t) := by
  induction code generalizing seen i with
  | nil => exact ⟨seen, rfl⟩
  | cons x rest ih =>
    obtain ⟨hx, wfRest⟩ := List.forall_mem_cons.mp wf
    rw [definedFrom, show x.flaw? = none from hx]
    by_cases hop : x.op = .label
    · obtain ⟨l, rfl⟩ := hx.exists_label hop
      rw [labels_cons, Instr.label?_mk, Option.toList_some, List.singleton_append] at nd new
      obtain ⟨⟨hpos, hl⟩, newRest⟩ := List.forall_mem_cons.mp new
      obtain ⟨n, hn⟩ := Int.eq_ofNat_of_zero_le hpos
      have hmem : n ∉ seen := by rwa [hn] at hl
      obtain ⟨grown, hinsert, hgrown⟩ := seen.exists_insert_natCast n
      have newGrown : ∀ m ∈ labels rest, 0 ≤ m.handle ∧ m.handle.toNat ∉ grown := by
        intro m hm
        refine ⟨(newRest m hm).1, fun hg => ?_⟩
        rcases (hgrown _).mp hg with heq | hseen
        · have hml : m = l := Label.eq_of_toNat_eq (newRest m hm).1 hpos (by omega)
          exact (List.nodup_cons.mp nd).1 (hml ▸ hm)
        · exact (newRest m hm).2 hseen
      obtain ⟨t, ht⟩ := ih (i + 1) wfRest (List.nodup_cons.mp nd).2 newGrown
      refine ⟨t, ?_⟩
      simp only [if_true]
      refine Fault.exceptT_bind_eq_ok_iff.mpr ⟨false, ?_, ?_⟩
      · apply Fault.exceptT_lift_eq_ok_iff.mpr
        change seen.contains l.handle = _
        rw [hn, Bitmap.contains_natCast, decide_eq_false hmem]
      · refine Fault.exceptT_bind_eq_ok_iff.mpr ⟨grown, ?_, ht⟩
        apply Fault.exceptT_lift_eq_ok_iff.mpr
        change seen.insert l.handle = _
        rw [hn, hinsert]
    · rw [labels_cons, Instr.label?_eq_none hop] at nd new
      simp only [if_neg hop]
      exact ih (i + 1) wfRest nd new

theorem resolvedFrom_eq_ok_iff {defined : Bitmap} {i : Nat} {code : Code} (hd : defined.Roomy)
    (wf : ∀ x ∈ code, x.WellFormed) : (resolvedFrom defined i code).run = .ok (.ok ()) ↔
      ∀ l ∈ targets code, 0 ≤ l.handle ∧ l.handle.toNat ∈ defined := by
  induction code generalizing i with
  | nil => exact ⟨fun _ l hl => absurd hl List.not_mem_nil, fun _ => rfl⟩
  | cons x rest ih =>
    obtain ⟨hx, wf⟩ := List.forall_mem_cons.mp wf
    rw [resolvedFrom, targets_cons]
    by_cases hop : x.op.isBranch = true
    · obtain ⟨l, more, _, htarget⟩ := hx.exists_target (.inl hop)
      have hgoal : x.goal? = some l := by rw [Instr.goal?, if_pos hop, htarget]
      rw [hgoal, Option.toList_some, List.singleton_append, List.forall_mem_cons]
      simp only [if_pos hop, htarget, Option.getD_some]
      rw [Fault.exceptT_bind_eq_ok_iff]
      constructor
      · rintro ⟨present, hpresent, h⟩
        have hcontains := Fault.exceptT_lift_eq_ok_iff.mp hpresent
        obtain ⟨n, hn⟩ := Int.eq_ofNat_of_zero_le (hd.nonneg_of_contains hcontains)
        rw [hn, Bitmap.contains_natCast] at hcontains
        cases hcontains
        by_cases hmem : n ∈ defined
        · rw [decide_eq_true hmem, if_neg (by decide)] at h
          exact ⟨⟨by omega, by rwa [hn]⟩, (ih wf).mp h⟩
        · rw [decide_eq_false hmem, if_pos (by decide)] at h
          cases h
      · rintro ⟨⟨hpos, hl⟩, hrest⟩
        obtain ⟨n, hn⟩ := Int.eq_ofNat_of_zero_le hpos
        rw [hn, Int.toNat_natCast] at hl
        refine ⟨true, ?_, (ih wf).mpr hrest⟩
        apply Fault.exceptT_lift_eq_ok_iff.mpr
        rw [hn, Bitmap.contains_natCast, decide_eq_true hl]
    · rw [Instr.goal?, if_neg hop]
      simp only [if_neg hop]
      exact ih wf

end Code

theorem Func.validate_eq_ok_iff {f : Func} : f.validate.run = .ok (.ok ()) ↔ Code.Valid f.code := by
  have hroom := Bitmap.roomy_ofCapacity f.code.length
  rw [validate, Fault.exceptT_bind_eq_ok_iff]
  constructor
  · rintro ⟨t, ht, hr⟩
    obtain ⟨wf, nd, new, room, mem⟩ := Code.definedFrom_eq_ok hroom ht
    refine ⟨wf, nd, fun l hl => (new l hl).1, fun l hl => ?_⟩
    obtain ⟨hpos, hl⟩ := (Code.resolvedFrom_eq_ok_iff room wf).mp hr l hl
    obtain hempty | ⟨m, hm, heq⟩ := (mem _).mp hl
    · exact (Bitmap.not_mem_ofCapacity _ _ hempty).elim
    · have hml : m = l := Label.eq_of_toNat_eq (new m hm).1 hpos heq
      exact hml ▸ hm
  · intro hv
    obtain ⟨t, ht⟩ := Code.exists_definedFrom 0 hv.wellFormed hv.nodup
      fun l hl => ⟨hv.nonneg l hl, Bitmap.not_mem_ofCapacity f.code.length _⟩
    obtain ⟨wf, _, _, room, mem⟩ := Code.definedFrom_eq_ok hroom ht
    refine ⟨t, ht, (Code.resolvedFrom_eq_ok_iff room wf).mpr fun l hl => ?_⟩
    have hl' := hv.resolved l hl
    exact ⟨hv.nonneg l hl', (mem _).mpr (.inr ⟨l, hl', rfl⟩)⟩

end ThreeAddress
