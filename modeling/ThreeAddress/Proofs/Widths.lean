import ThreeAddress.Proofs.Changes

/-!
# Widths of registers

A register carries its width wherever it occurs. Code is typed by `Γ` if all occurrences of a
register have the width that `Γ` gives its key, moves have one width on both sides, and calls leave
results of the width that their callee has. Whatever passes do, typed code stays typed
(`Code.Changes.hasWidths`): a result that is forwarded has the width of the place it goes to, and
renumbering takes the widths along.
-/

namespace ThreeAddress
set_option autoImplicit false

/-- The width of what an operand stands for. Data and functions are addresses. -/
def Operand.width : Operand → Width
  | num _ w => w
  | reg r => r.width
  | data .. | callee .. => .ptr
  | label _ | origin _ | nothing => .void

/-- The operand, if it is a register, has the width of its key. -/
def Operand.Known (Γ : RegKey → Width) (a : Operand) : Prop := ∀ r, a = .reg r → r.width = Γ r.key

structure Instr.Typed (Γ : RegKey → Width) (x : Instr) : Prop where
  regs : ∀ a, some a ∈ x.args → a.Known Γ
  moves : ∀ d v, x = ⟨.mov, [some (.reg d), some v]⟩ → d.width = v.width
  calls : ∀ d l w rest, x = ⟨.call, some (.reg d) :: some (.callee l w) :: rest⟩ → d.width = w

def Code.Typed (Γ : RegKey → Width) (code : Code) : Prop := ∀ x ∈ code, x.Typed Γ

section
variable {Γ : RegKey → Width}

theorem Operand.known_reg {r : Reg} : (reg r).Known Γ ↔ r.width = Γ r.key := by
  constructor
  · intro h
    exact h r rfl
  · intro h s hs
    cases hs
    exact h

namespace Instr
variable {x : Instr}

/-- Only moves and calls ask for more than the widths of registers. -/
theorem typed_of_known (hmov : x.op ≠ .mov) (hcall : x.op ≠ .call)
    (h : ∀ a, some a ∈ x.args → a.Known Γ) : x.Typed Γ where
  regs := h
  moves _ _ hx := absurd (congrArg op hx) hmov
  calls _ _ _ _ hx := absurd (congrArg op hx) hcall

theorem Typed.test {b : Opcode} (hb : b = .brz ∨ b = .bnz) (l : Label) {a : Operand}
    (ha : a.Known Γ) :
    Typed Γ ⟨b, [some (.label l), some a]⟩ := by
  refine typed_of_known ?_ ?_ fun a' ha' => ?_
  · rcases hb with rfl | rfl <;> exact Opcode.noConfusion
  · rcases hb with rfl | rfl <;> exact Opcode.noConfusion
  · simp only [List.mem_cons, Option.some.injEq, List.not_mem_nil, or_false] at ha'
    rcases ha' with rfl | rfl
    · exact fun r hr => Operand.noConfusion hr
    · exact ha

theorem Typed.into {op : Opcode} {r z : Reg} {rest : List (Option Operand)}
    (h : Typed Γ ⟨op, some (.reg r) :: rest⟩) (hz : z.width = Γ z.key)
    (hwidth : z.width = r.width) : Typed Γ ⟨op, some (.reg z) :: rest⟩ where
  regs a ha := by
    rcases List.mem_cons.mp ha with ha | ha
    · cases ha
      exact Operand.known_reg.mpr hz
    · exact h.regs a (List.mem_cons_of_mem _ ha)
  moves d v hx := by
    cases hx
    exact hwidth.trans (h.moves r v rfl)
  calls d l w more hx := by
    cases hx
    exact hwidth.trans (h.calls r l w more rfl)

theorem Typed.retarget (h : x.Typed Γ) (land : Label → Label) : (x.retarget land).Typed Γ := by
  rcases goal_cases x with hx | ⟨op, l, more, hop, rfl⟩
  · rwa [retarget_of_none hx]
  · rw [retarget_of_goal? hop]
    refine typed_of_known ?_ ?_ fun a ha => ?_
    · rintro rfl
      cases hop
    · rintro rfl
      cases hop
    · rcases List.mem_cons.mp ha with ha | ha
      · cases ha
        exact fun r hr => Operand.noConfusion hr
      · exact h.regs a (List.mem_cons_of_mem _ ha)

end Instr

namespace Code
variable {old new : Code}

theorem Typed.rule {folding : Prop} {gone : Code → RegKey → Prop} {apart : Reg → Operand → Prop}
    (h : Rule folding gone apart old new) (hold : old.Typed Γ) : new.Typed Γ := by
  cases h with
  | keep x => exact hold
  | nop | unread => exact List.forall_mem_nil _
  | @forward op r s z rest _ hs =>
    obtain ⟨hx, hmov⟩ := List.forall_mem_cons.mp hold
    replace hmov := List.forall_mem_singleton.mp hmov
    have hsource : s.width = Γ s.key := Operand.known_reg.mp (hmov.regs _ (by simp))
    have hresult : r.width = Γ r.key := Operand.known_reg.mp (hx.regs _ (by simp))
    have hwidth : z.width = r.width :=
      calc z.width = s.width := hmov.moves z (.reg s) rfl
        _ = r.width := by rw [hsource, hs, hresult]
    exact List.forall_mem_singleton.mpr
      (hx.into (Operand.known_reg.mp (hmov.regs _ (by simp))) hwidth)
  | foldDrop _ hf =>
    have hx := hold _ List.mem_cons_self
    exact List.forall_mem_singleton.mpr
      (.test (Opcode.folded?_eq_some hf).2 _ (hx.regs _ (by simp)))
  | foldKeep _ hf =>
    have hx := hold _ List.mem_cons_self
    exact List.forall_mem_cons.mpr ⟨hx,
      List.forall_mem_singleton.mpr (.test (Opcode.folded?_eq_some hf).2 _ (hx.regs _ (by simp)))⟩
  | source =>
    have hx := hold _ List.mem_cons_self
    exact List.forall_mem_cons.mpr
      ⟨hx, List.forall_mem_singleton.mpr (.test (.inl rfl) _ (hx.regs _ (by simp)))⟩

theorem Typed.rewrites {folding : Prop} {gone : Code → RegKey → Prop} {apart : Reg → Operand → Prop}
    (h : Rewrites (Rule folding gone apart) old new) (hold : old.Typed Γ) : new.Typed Γ := by
  induction h with
  | nil => exact hold
  | piece hab _ ih =>
    obtain ⟨ha, hrest⟩ := List.forall_mem_append.mp hold
    exact List.forall_mem_append.mpr ⟨Typed.rule hab ha, ih hrest⟩

theorem Typed.threadBy (h : old.Typed Γ) (land : Label → Label) : (old.threadBy land).Typed Γ := by
  induction old with
  | nil => exact h
  | cons x rest ih =>
    obtain ⟨hx, hrest⟩ := List.forall_mem_cons.mp h
    cases hskip : x.skips rest with
    | true =>
      rw [threadBy_of_skips hskip]
      exact ih hrest
    | false =>
      rw [threadBy_of_not hskip]
      exact List.forall_mem_cons.mpr ⟨hx.retarget land, ih hrest⟩

end Code

def RegKey.widthAfter (Γ : RegKey → Width) (order : List Int) (k : RegKey) : Width :=
  if k.temp then (order[k.index.toNat]?).elim .void fun i => Γ ⟨true, i⟩ else Γ k

theorem RegKey.widthAfter_renumber {order : List Int} {k : RegKey}
    (hk : k.temp = true → k.index ∈ order) :
    widthAfter Γ order (k.renumber order) = Γ k := by
  obtain ⟨temp, i⟩ := k
  cases temp with
  | false => rfl
  | true =>
    have hget : order[order.idxOf i]? = some i := List.getElem?_idxOf (hk rfl)
    simp [renumber, widthAfter, hget]

theorem Operand.width_renumber (order : List Int) (a : Operand) :
    (a.renumber order).width = a.width := by
  cases a with
  | reg r =>
    obtain ⟨i, w, temp, name⟩ := r
    cases temp <;> rfl
  | _ => rfl

theorem Operand.Known.renumber {order : List Int} {a : Operand} (h : a.Known Γ)
    (horder : ∀ r, a = .reg r → r.temp = true → r.index ∈ order) :
    (a.renumber order).Known (RegKey.widthAfter Γ order) := by
  cases a with
  | reg r =>
    have hkey : keyAt? (some ((reg r).renumber order)) = some (r.key.renumber order) :=
      keyAt?_renumber order (some (reg r))
    intro s hs
    rw [hs] at hkey
    have hwidth : ((reg r).renumber order).width = r.width := width_renumber order (reg r)
    rw [hs] at hwidth
    rw [Option.some.inj hkey, RegKey.widthAfter_renumber (horder r rfl)]
    exact hwidth.trans (h r rfl)
  | _ => exact fun r hr => Operand.noConfusion hr

theorem Instr.Typed.renumber {order : List Int} {x : Instr} (h : x.Typed Γ)
    (horder : ∀ r, some (.reg r) ∈ x.args → r.temp = true → r.index ∈ order) :
    (x.renumber order).Typed (RegKey.widthAfter Γ order) := by
  obtain ⟨op, args⟩ := x
  have hreg {a : Option Operand} {d : Reg} (ha : a.map (Operand.renumber order) = some (.reg d)) :
      ∃ s, a = some (.reg s) ∧ d.width = s.width := by
    obtain ⟨b, rfl, hb⟩ := Option.map_eq_some_iff.mp ha
    have hwidth := b.width_renumber order
    rw [hb] at hwidth
    cases b with
    | reg s => exact ⟨s, rfl, hwidth⟩
    | _ => cases hb
  refine ⟨fun a ha => ?_, fun d v hx => ?_, fun d l w rest hx => ?_⟩
  · obtain ⟨b, hb, heq⟩ := List.mem_map.mp ha
    obtain ⟨b, rfl, rfl⟩ := Option.map_eq_some_iff.mp heq
    refine (h.regs b hb).renumber fun r hr => ?_
    rw [hr] at hb
    exact horder r hb
  · simp only [Instr.renumber_eq, Instr.mk.injEq, List.map_eq_cons_iff, List.map_eq_nil_iff] at hx
    obtain ⟨rfl, _, _, rfl, hp, _, _, rfl, hq, rfl⟩ := hx
    obtain ⟨s, rfl, hds⟩ := hreg hp
    obtain ⟨b, rfl, rfl⟩ := Option.map_eq_some_iff.mp hq
    rw [hds, Operand.width_renumber]
    exact h.moves s b rfl
  · simp only [Instr.renumber_eq, Instr.mk.injEq, List.map_eq_cons_iff] at hx
    obtain ⟨rfl, _, _, rfl, hp, _, _, rfl, hq, rfl⟩ := hx
    obtain ⟨s, rfl, hds⟩ := hreg hp
    obtain ⟨b, rfl, hb⟩ := Option.map_eq_some_iff.mp hq
    cases b with
    | callee l' w' =>
      cases hb
      exact hds.trans (h.calls s l w _ rfl)
    | _ => cases hb

theorem Code.Typed.renumberTemps {code : Code} (h : code.Typed Γ) :
    Typed (RegKey.widthAfter Γ code.temps) code.renumberTemps.code := by
  intro y hy
  rw [code_renumberTemps] at hy
  obtain ⟨x, hx, rfl⟩ := List.mem_map.mp hy
  refine (h x hx).renumber fun r hr htemp => ?_
  refine index_mem_temps (k := r.key) ?_ htemp
  rw [regKeys_eq]
  exact List.mem_flatMap.mpr ⟨x, hx, List.mem_filterMap.mpr ⟨_, hr, rfl⟩⟩

end

/-- The code is typed by some widths. -/
def Code.HasWidths (code : Code) : Prop := ∃ Γ, code.Typed Γ

theorem Code.Change.hasWidths {old new : Code} (h : Change old new) (hold : old.HasWidths) :
    new.HasWidths := by
  obtain ⟨Γ, hold⟩ := hold
  cases h with
  | rewrite h => exact ⟨Γ, hold.rewrites h⟩
  | renumber => exact ⟨_, hold.renumberTemps⟩
  | thread => exact ⟨Γ, hold.threadBy _⟩
  | prune => exact ⟨Γ, fun x hx => hold x ((reachableFrom_sublist false old).subset hx)⟩

theorem Code.Changes.hasWidths {old new : Code} (h : Changes old new) (hold : old.HasWidths) :
    new.HasWidths := by
  induction h with
  | refl => exact hold
  | tail _ hchange ih => exact hchange.hasWidths ih

end ThreeAddress
