import ThreeAddress.Proofs.Lowered
import ThreeAddress.Proofs.Shape

/-!
# When actions of lowering succeed

`LowerM.Yields act Q P` says when an action succeeds and what it gives then. Neither ever depends on
the frame. There is one rule for each way to put actions together, and one lemma for each action of
lowering; an instruction is emitted exactly if its operands are such as its opcode takes.
-/

namespace ThreeAddress
set_option autoImplicit false

open LowerM

def Code.Checked (code : Code) : Prop := ∀ x ∈ code, x.WellFormed

namespace Instr

theorem wellFormed_make_iff {op : Opcode} {s : Shape} {args : List Operand}
    (hs : op.shape? = some s) :
    (make op args).WellFormed ↔
      s.counts args.length = true ∧ misplaced? s 0 (args.map some) = none := by
  rw [wellFormed_iff_shape]
  simp [make, hs]

theorem wellFormed_into {op : Opcode} (hop : op.shape? = some ⟨[.register, .value], .none⟩)
    (d : Reg) (v : Operand) :
    (make op [.reg d, v]).WellFormed ↔ v.isValue = true := by
  rw [wellFormed_make_iff hop]
  simp [Shape.counts, Extra.allows, Shape.slot, Slot.takes]

theorem wellFormed_bin (o : BinOp) (d : Reg) (u v : Operand) :
    (make (.bin o) [.reg d, u, v]).WellFormed ↔ u.isValue = true ∧ v.isValue = true := by
  rw [wellFormed_make_iff rfl]
  simp [Shape.counts, Extra.allows, Shape.slot, Slot.takes]

theorem wellFormed_branch {op : Opcode} (hop : op.shape? = some ⟨[.target, .value], .none⟩)
    (l : Label) (v : Operand) :
    (make op [.label l, v]).WellFormed ↔ v.isValue = true := by
  rw [wellFormed_make_iff hop]
  simp [Shape.counts, Extra.allows, Shape.slot, Slot.takes]

theorem wellFormed_write (u v : Operand) :
    (make .write [u, v]).WellFormed ↔ u.isValue = true ∧ v.isValue = true := by
  rw [wellFormed_make_iff rfl]
  simp [Shape.counts, Extra.allows, Shape.slot, Slot.takes]

theorem wellFormed_ret (v : Operand) : (make .ret [v]).WellFormed ↔ v.isValue = true := by
  rw [wellFormed_make_iff rfl]
  simp [Shape.counts, Extra.allows, Shape.slot, Slot.takes]

theorem wellFormed_call (dst : Option Reg) (l : Label) (w : Width) (ts : List Reg) :
    (make .call (resultOf dst :: .callee l w :: ts.map .reg)).WellFormed := by
  apply (wellFormed_iff_call rfl).mpr
  refine ⟨_, _, _, rfl, ?_, rfl, ?_⟩
  · cases dst <;> rfl
  · intro a ha
    obtain ⟨v, hv, rfl⟩ := List.mem_map.mp ha
    obtain ⟨t, _, rfl⟩ := List.mem_map.mp hv
    rfl

end Instr

namespace Code
variable {c d : Code}

@[simp] theorem checked_nil : Checked [] := List.forall_mem_nil _

@[simp] theorem checked_append : Checked (c ++ d) ↔ Checked c ∧ Checked d := List.forall_mem_append

theorem checked_cons {x : Instr} (hx : x.WellFormed) : Checked (x :: c) ↔ Checked c := by
  unfold Checked
  rw [List.forall_mem_cons, and_iff_right hx]

@[simp] theorem checked_mark {k : NodeKind} : Checked (.mark k :: c) ↔ Checked c := checked_cons rfl

@[simp] theorem checked_defineLabel {l : Label} : Checked (.defineLabel l :: c) ↔ Checked c :=
  checked_cons rfl

@[simp] theorem checked_jump {l : Label} : Checked (.jump l :: c) ↔ Checked c := checked_cons rfl

end Code

namespace LowerM
variable {α β : Type} {act : LowerM α} {Q R : Prop} {P : α → Prop}

/-- The action succeeds exactly if `Q` holds, and what it gives then has the property `P`. -/
structure Yields (act : LowerM α) (Q : Prop) (P : α → Prop) : Prop where
  exists_ok : Q → ∀ s, ∃ a s', act s = .ok a s'
  of_ok : ∀ {s a s'}, act s = .ok a s' → Q ∧ P a

theorem Yields.congr (h : Yields act Q P) (hQ : Q ↔ R) : Yields act R P where
  exists_ok hR := h.exists_ok (hQ.mpr hR)
  of_ok hok := by
    obtain ⟨hq, hp⟩ := h.of_ok hok
    exact ⟨hQ.mp hq, hp⟩

theorem Yields.bind {f : α → LowerM β} {P' : β → Prop} (h : Yields act Q P)
    (hf : ∀ a, P a → Yields (f a) R P') :
    Yields (act >>= f) (Q ∧ R) P' where
  exists_ok := by
    rintro ⟨hq, hr⟩ s
    obtain ⟨a, s₁, ha⟩ := h.exists_ok hq s
    obtain ⟨b, s', hb⟩ := (hf a (h.of_ok ha).2).exists_ok hr s₁
    exact ⟨b, s', bind_eq_ok_iff.mpr ⟨a, s₁, ha, hb⟩⟩
  of_ok := by
    intro s b s' hok
    obtain ⟨a, s₁, ha, hb⟩ := bind_eq_ok_iff.mp hok
    obtain ⟨hq, hp⟩ := h.of_ok ha
    obtain ⟨hr, hp'⟩ := (hf a hp).of_ok hb
    exact ⟨⟨hq, hr⟩, hp'⟩

theorem Yields.andThen {f : α → LowerM β} {P' : β → Prop} (h : Yields act True P)
    (hf : ∀ a, P a → Yields (f a) R P') :
    Yields (act >>= f) R P' := (h.bind hf).congr (iff_of_eq (true_and R))

theorem yields_pure {a : α} (h : P a) : Yields (pure a) True P where
  exists_ok _ s := ⟨a, s, rfl⟩
  of_ok hok := by
    obtain ⟨rfl, _⟩ := pure_eq_ok_iff.mp hok
    exact ⟨trivial, h⟩

theorem Yields.map {g : α → β} {P' : β → Prop} (h : Yields act Q P) (hg : ∀ a, P a → P' (g a)) :
    Yields (act >>= fun a => pure (g a)) Q P' :=
  (h.bind fun a ha => yields_pure (hg a ha)).congr (iff_of_eq (and_true Q))

theorem Yields.within (h : Yields act Q P) (c : Context) : Yields (within c act) Q P where
  exists_ok hq s := by
    obtain ⟨a, s', ha⟩ := h.exists_ok hq s
    exact ⟨a, s', within_eq_ok_iff.mpr ha⟩
  of_ok hok := h.of_ok (within_eq_ok_iff.mp hok)

theorem yields_fail {c : Cause} (hQ : ¬ Q) : Yields (fail c) Q P where
  exists_ok hq := absurd hq hQ
  of_ok hok := absurd hok fail_ne_ok

theorem yields_unsupported {text : Bytes} (hQ : ¬ Q) : Yields (unsupported text) Q P where
  exists_ok hq := absurd hq hQ
  of_ok hok := absurd hok unsupported_ne_ok

theorem yields_newTemp (w : Width) : Yields (newTemp w) True fun _ => True :=
  ⟨fun _ _ => ⟨_, _, rfl⟩, fun _ => ⟨trivial, trivial⟩⟩

theorem yields_newLabel (base : String) : Yields (newLabel base) True fun _ => True :=
  ⟨fun _ _ => ⟨_, _, rfl⟩, fun _ => ⟨trivial, trivial⟩⟩

theorem yields_orTemp (dst : Option Reg) (w : Width) :
    Yields (orTemp dst w) True fun _ => True := by
  cases dst with
  | some r => exact yields_pure trivial
  | none => exact yields_newTemp w

theorem yields_regOf (v : Var) : Yields (regOf v) True fun _ => True where
  exists_ok _ s := by
    unfold regOf
    cases s.vars.lookup v.id with
    | some r => exact ⟨_, _, rfl⟩
    | none => exact ⟨_, _, rfl⟩
  of_ok _ := ⟨trivial, trivial⟩

theorem yields_calleeOf (f : FuncRef) :
    Yields (calleeOf f) True fun v => ∃ l, v = .callee l f.ret where
  exists_ok _ _ := ⟨_, _, rfl⟩
  of_ok hok := by
    obtain ⟨l, rfl, _⟩ := calleeOf_eq_ok hok
    exact ⟨trivial, l, rfl⟩

theorem yields_dataOf (b : Bytes) : Yields (dataOf b) True fun v => v.isValue = true where
  exists_ok _ _ := ⟨_, _, rfl⟩
  of_ok hok := by
    obtain ⟨i, rfl, _⟩ := dataOf_eq_ok hok
    exact ⟨trivial, rfl⟩

theorem yields_emit {op : Opcode} {args : List Operand} (h : (Instr.make op args).WellFormed ↔ Q) :
    Yields (emit op args) Q Code.Checked where
  exists_ok hq s := by
    rw [emit, Instr.check_eq_ok_iff.mpr (h.mpr hq)]
    exact ⟨_, _, rfl⟩
  of_ok {s c s'} hok := by
    obtain ⟨rfl, _⟩ := emit_eq_ok hok
    cases hcheck : (Instr.make op args).check with
    | ok u =>
      have hwf := Instr.check_eq_ok_iff.mp hcheck
      exact ⟨h.mp hwf, (Code.checked_cons hwf).mpr Code.checked_nil⟩
    | error e =>
      rw [emit, hcheck] at hok
      cases hok

theorem yields_emit_test (l : Label) (t : Reg) :
    Yields (emit .brz [.label l, .reg t]) True Code.Checked :=
  yields_emit ((Instr.wellFormed_branch rfl l _).trans (iff_of_true rfl trivial))

theorem yields_give (dst : Option Reg) (v : Operand) :
    Yields (give dst v) (dst.isNone = true ∨ v.isValue = true) Code.Checked := by
  cases dst with
  | some r => exact yields_emit ((Instr.wellFormed_into rfl r v).trans (by simp))
  | none => exact (yields_pure Code.checked_nil).congr (by simp)

end LowerM

end ThreeAddress
