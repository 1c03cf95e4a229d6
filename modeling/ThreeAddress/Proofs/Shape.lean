import ThreeAddress.Instr.Shape

/-!
# Well-formed instructions

What `Instr.WellFormed` says about the operand places of an instruction, opcode by opcode.
-/

namespace ThreeAddress
set_option autoImplicit false

namespace Slot

theorem takes_register_iff {a : Option Operand} :
    register.takes a = true ↔ ∃ r, a = some (.reg r) := by
  rcases a with _ | a
  · simp
  · cases a <;> simp [takes]

theorem takes_value_iff {a : Option Operand} :
    value.takes a = true ↔ ∃ v, a = some v ∧ v.isValue = true := by
  cases a <;> simp [takes]

theorem takes_target_iff {a : Option Operand} :
    target.takes a = true ↔ ∃ l, a = some (.label l) := by
  rcases a with _ | a
  · simp
  · cases a <;> simp [takes]

end Slot

namespace Instr
variable {x : Instr}

theorem wellFormed_iff_shape : x.WellFormed ↔
    ∃ s, x.op.shape? = some s ∧ s.counts x.args.length = true ∧ misplaced? s 0 x.args = none := by
  unfold WellFormed flaw?
  cases hs : x.op.shape? with
  | none => simp
  | some s => by_cases hc : s.counts x.args.length = true <;> simp [hc]

@[simp] theorem misplaced?_nil (s : Shape) (i : Nat) : misplaced? s i [] = none := rfl

@[simp] theorem misplaced?_cons_eq_none_iff {s : Shape} {i : Nat} {a : Option Operand}
    {rest : List (Option Operand)} : misplaced? s i (a :: rest) = none ↔
      (s.slot i).takes a = true ∧ misplaced? s (i + 1) rest = none := by
  by_cases ha : (s.slot i).takes a = true <;> simp [misplaced?, ha]

theorem misplaced?_eq_none_iff {s : Shape} {args : List (Option Operand)} {i : Nat}
    (hi : s.slots.length ≤ i) :
    misplaced? s i args = none ↔ ∀ a ∈ args, Slot.value.takes a = true := by
  induction args generalizing i with
  | nil => simp
  | cons a args ih =>
    have hslot : s.slot i = .value := by
      rw [Shape.slot, List.getD_eq_getElem?_getD, List.getElem?_eq_none hi, Option.getD_none]
    rw [misplaced?_cons_eq_none_iff, hslot, ih (Nat.le_succ_of_le hi), List.forall_mem_cons]

/-- Operands may be exchanged for others that the same slots take. -/
theorem wellFormed_map_iff {f : Option Operand → Option Operand}
    (hf : ∀ (s : Slot) a, s.takes (f a) = s.takes a) :
    WellFormed ⟨x.op, x.args.map f⟩ ↔ x.WellFormed := by
  have hplaced (s : Shape) (i : Nat) (args : List (Option Operand)) :
      misplaced? s i (args.map f) = none ↔ misplaced? s i args = none := by
    induction args generalizing i with
    | nil => exact Iff.rfl
    | cons a args ih =>
      rw [List.map_cons, misplaced?_cons_eq_none_iff, misplaced?_cons_eq_none_iff, hf, ih]
  rw [wellFormed_iff_shape, wellFormed_iff_shape]
  simp only [List.length_map, hplaced]

theorem wellFormed_iff_one {s : Slot} (hs : x.op.shape? = some ⟨[s], .none⟩) :
    x.WellFormed ↔ ∃ a, x.args = [a] ∧ s.takes a = true := by
  obtain ⟨op, args⟩ := x
  rw [wellFormed_iff_shape]
  simp only at hs
  match args with
  | [] => simp [hs, Shape.counts]
  | [a] => simp [hs, Shape.counts, Extra.allows, Shape.slot]
  | a :: b :: rest => simp [hs, Shape.counts, Extra.allows]

theorem wellFormed_iff_two {s t : Slot} (hs : x.op.shape? = some ⟨[s, t], .none⟩) :
    x.WellFormed ↔ ∃ a b, x.args = [a, b] ∧ s.takes a = true ∧ t.takes b = true := by
  obtain ⟨op, args⟩ := x
  rw [wellFormed_iff_shape]
  simp only at hs
  match args with
  | [] => simp [hs, Shape.counts]
  | [a] => simp [hs, Shape.counts]
  | [a, b] => simp [hs, Shape.counts, Extra.allows, Shape.slot, and_assoc]
  | a :: b :: c :: rest => simp [hs, Shape.counts, Extra.allows]

theorem wellFormed_iff_three {s t u : Slot} (hs : x.op.shape? = some ⟨[s, t, u], .none⟩) :
    x.WellFormed ↔
      ∃ a b c, x.args = [a, b, c] ∧ s.takes a = true ∧ t.takes b = true ∧ u.takes c = true := by
  obtain ⟨op, args⟩ := x
  rw [wellFormed_iff_shape]
  simp only at hs
  match args with
  | [] => simp [hs, Shape.counts]
  | [a] => simp [hs, Shape.counts]
  | [a, b] => simp [hs, Shape.counts]
  | [a, b, c] => simp [hs, Shape.counts, Extra.allows, Shape.slot, and_assoc]
  | a :: b :: c :: d :: rest => simp [hs, Shape.counts, Extra.allows]

theorem wellFormed_iff_call (hop : x.op = .call) : x.WellFormed ↔
    ∃ d c rest, x.args = d :: c :: rest ∧ Slot.result.takes d = true ∧ Slot.callee.takes c = true ∧
      ∀ a ∈ rest, Slot.value.takes a = true := by
  obtain ⟨op, args⟩ := x
  rw [wellFormed_iff_shape]
  simp only at hop
  subst hop
  match args with
  | [] => simp [Opcode.shape?, Shape.counts]
  | [a] => simp [Opcode.shape?, Shape.counts]
  | d :: c :: rest =>
    have hrest : misplaced? ⟨[.result, .callee], .any⟩ 2 rest = none ↔ _ :=
      misplaced?_eq_none_iff (Nat.le_refl 2)
    simp [Opcode.shape?, Shape.counts, Extra.allows, Shape.slot, hrest, and_assoc]

theorem WellFormed.exists_mov (h : x.WellFormed) (hop : x.op = .mov) :
    ∃ z a, x = ⟨.mov, [some (.reg z), some a]⟩ ∧ a.isValue = true := by
  obtain ⟨_, args⟩ := x
  simp only at hop
  subst hop
  obtain ⟨p, q, hargs, hp, hq⟩ := (wellFormed_iff_two rfl).mp h
  obtain ⟨z, rfl⟩ := Slot.takes_register_iff.mp hp
  obtain ⟨a, rfl, ha⟩ := Slot.takes_value_iff.mp hq
  simp only at hargs
  exact ⟨z, a, by rw [hargs], ha⟩

theorem WellFormed.exists_test (h : x.WellFormed) (hop : x.op = .brz ∨ x.op = .bnz) :
    ∃ b l a, (b = .brz ∨ b = .bnz) ∧ x = ⟨b, [some (.label l), some a]⟩ ∧ a.isValue = true := by
  have hshape : x.op.shape? = some ⟨[.target, .value], .none⟩ := by
    rcases hop with hop | hop <;> rw [hop] <;> rfl
  obtain ⟨p, q, hargs, hp, hq⟩ := (wellFormed_iff_two hshape).mp h
  obtain ⟨l, rfl⟩ := Slot.takes_target_iff.mp hp
  obtain ⟨a, rfl, ha⟩ := Slot.takes_value_iff.mp hq
  exact ⟨x.op, l, a, hop, by rw [← hargs], ha⟩

end Instr

end ThreeAddress
