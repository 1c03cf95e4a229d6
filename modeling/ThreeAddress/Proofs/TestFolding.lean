import ThreeAddress.Proofs.PipelineBehaviour

/-!
# Folding tests into branches, in any code

Lowered code may be folded because it reads no temporary twice. This module asks what folding needs
of verified code in general (`Pass.foldTests_behaviour`). A negation is always dropped, so nothing
else may use its result. And a test must be left with something to look at: a comparison for
equality that stays, or a negation that runs again, must not have overwritten its own operand. The
second condition cannot be left out (`Pass.foldTests_behaviour_ne`).
-/

namespace ThreeAddress
set_option autoImplicit false

/-- The instruction branches on the register `d`. -/
def Instr.Tests (y : Instr) (d : Reg) : Prop := Operand.keyAt? y.cond?.join = some d.key

instance (y : Instr) (d : Reg) : Decidable (y.Tests d) := inferInstanceAs (Decidable (_ = _))

/-- A negation, or a comparison of the first operand with zero for equality. -/
def Instr.IsZeroTest (x : Instr) : Prop :=
  x.op = .un .not ∨ (x.op = .bin .eq ∧ Operand.isZero (x.operand? 2) = true)

instance (x : Instr) : Decidable x.IsZeroTest := inferInstanceAs (Decidable (_ ∨ _))

namespace Code

/-- What a negation computes for the branch right after it occurs in these two instructions and
nowhere else. -/
def NegationsApart (code : Code) : Prop :=
  code.IsChain fun x y => x.op = .un .not → ∀ d ∈ x.dst?, y.Tests d →
    code.occurrences d.key = occurrences [x, y] d.key

instance (code : Code) : Decidable code.NegationsApart :=
  inferInstanceAs (Decidable (code.IsChain _))

/-- What is tested for zero is still there when the branch right after it looks at the result. -/
def KeepsTested (code : Code) : Prop :=
  code.IsChain fun x y => x.IsZeroTest → ∀ d ∈ x.dst?, y.Tests d → ∀ a ∈ x.operand? 1, d.Apart a

instance (code : Code) : Decidable code.KeepsTested :=
  have (d : Reg) (a : Operand) : Decidable (d.Apart a) := inferInstanceAs (Decidable (_ ≠ _))
  inferInstanceAs (Decidable (code.IsChain _))

end Code

namespace Instr.Folds
variable {uses : RegKey → Nat} {x y : Instr} {f : Fold} {d : Reg}

theorem tests (h : Folds uses x y f) (hd : x.dst? = some d) : y.Tests d := by
  obtain @⟨op, b, b', d', c, a, more, l, hf, hm, hc, _⟩ := h
  obtain ⟨_, _, _, heq⟩ := dst?_eq_some_iff.mp hd
  cases heq
  have hcond : cond? ⟨b, [some (.label l), some (.reg c)]⟩ = some (some (.reg c)) := by
    rcases (Opcode.folded?_eq_some hf).1 with rfl | rfl <;> rfl
  rw [Tests, hcond, ← hc]
  rfl

theorem isZeroTest (h : Folds uses x y f) (hop : x.op ≠ .bin .neq) : x.IsZeroTest := by
  obtain ⟨_, hm, _, _⟩ := h
  rcases hm with ⟨rfl, _⟩ | ⟨rfl | rfl, w, rfl⟩
  · exact .inl rfl
  · exact .inr ⟨rfl, rfl⟩
  · exact absurd rfl hop

theorem occurrences_eq_two (h : Folds uses x y f) (hop : x.op = .un .not) (hd : x.dst? = some d)
    (hapart : ∀ a ∈ x.operand? 1, d.Apart a) : Code.occurrences [x, y] d.key = 2 := by
  obtain @⟨op, b, b', d', c, a, more, l, hf, hm, hc, _⟩ := h
  obtain ⟨_, _, _, heq⟩ := dst?_eq_some_iff.mp hd
  cases heq
  obtain rfl : more = [] := by
    rcases hm with ⟨_, hmore⟩ | ⟨hbin | hbin, _⟩
    · exact hmore
    · exact Opcode.noConfusion (hop.symm.trans hbin)
    · exact Opcode.noConfusion (hop.symm.trans hbin)
  have ha : Operand.keyAt? (some a) ≠ some d.key := hapart a rfl
  have hx : keys ⟨op, [some (.reg d), some a]⟩ = d.key :: [some a].filterMap Operand.keyAt? := rfl
  have hy : keys ⟨b, [some (.label l), some (.reg c)]⟩ = [c.key] := rfl
  rw [Code.occurrences_cons, Code.occurrences_cons, hx, hy, hc, List.count_cons_self,
    List.count_singleton_self]
  have hnone : ([some a].filterMap Operand.keyAt?).count d.key = 0 := by
    rw [List.count_eq_zero, List.mem_filterMap]
    intro hmem
    obtain ⟨p, hp, hkey⟩ := hmem
    cases List.mem_singleton.mp hp
    exact ha hkey
  rw [hnone]
  rfl

end Instr.Folds

namespace Code
variable {code : Code}

theorem of_isChain {R : Instr → Instr → Prop} (h : code.IsChain R) {x y : Instr}
    (hxy : [x, y] <:+: code) : R x y :=
  List.isChain_pair.mp <| List.IsChain.infix h hxy

theorem occurrences_le_two {x y : Instr} {f : Fold} {d : Reg} (hnot : code.NegationsApart)
    (hkept : code.KeepsTested) (hxy : [x, y] <:+: code) (hf : Instr.Folds code.occurrences x y f)
    (hdrop : f.keep = false) (hd : x.dst? = some d) :
    code.occurrences d.key ≤ 2 := by
  by_cases hop : x.op = .un .not
  · have hpair := of_isChain hnot hxy hop d hd (hf.tests hd)
    have hapart := of_isChain hkept hxy (.inl hop) d hd (hf.tests hd)
    rw [hpair, hf.occurrences_eq_two hop hd hapart]
  · obtain @⟨op, b, b', d', c, a, more, l, _, _, _, _⟩ := hf
    obtain ⟨_, _, _, heq⟩ := Instr.dst?_eq_some_iff.mp hd
    cases heq
    have hless : ¬ 3 ≤ code.occurrences d.key := fun hle => of_decide_eq_false hdrop ⟨hop, hle⟩
    omega

theorem foldTests_rewrites_of_kept (hwf : ∀ x ∈ code, x.WellFormed) (hnot : code.NegationsApart)
    (hkept : code.KeepsTested) :
    ∃ r, code.foldTests = .ok r ∧
      Rewrites (Rule True (fun _ k => k ∉ r.code.reads) Reg.Apart) code r.code := by
  have hrule : ∀ x y f, [x, y] <:+: code → Instr.Folds code.occurrences x y f →
      Rule True (fun a k => code.occurrences k ≤ a.length) Reg.Apart [x, y]
        (if f.keep then [x, f.branch] else [f.branch]) := by
    intro x y f hxy hf
    refine hf.rule
      (fun d hdrop hd => occurrences_le_two hnot hkept hxy hf hdrop hd) fun d a hop hd ha => ?_
    exact of_isChain hkept hxy (hf.isZeroTest hop) d hd (hf.tests hd) a ha
  obtain ⟨r, hr, hrw⟩ := foldTestsWith_rewrites hwf hrule
  exact ⟨r, hr, hrw.of_occurrences⟩

end Code

/-- Folding goes through and keeps what a verified function does, if no negation before a branch
leaves its result to anyone else, and neither such a negation nor a comparison for equality
overwrites what it tests. -/
theorem Pass.foldTests_behaviour {f : Func} (hf : f.Verified) (hnot : f.code.NegationsApart)
    (hkept : f.code.KeepsTested) :
    ∃ c changed, foldTests.run f = .ok ({ f with code := c }, .ok changed) ∧
      ∀ M : Machine, M.Lawful →
        ∀ (ρ : Regs) (w : World), M.behaviour c ρ w = M.behaviour f.code ρ w := by
  have hwf : ∀ x ∈ f.code, x.WellFormed := (Func.verified_iff.mp hf).wellFormed
  obtain ⟨r, hr, hfolds⟩ := Code.foldTests_rewrites_of_kept hwf hnot hkept
  refine ⟨r.code, r.changed, run_ofStep_lift hr, fun M hM ρ w => ?_⟩
  exact (behaviour_eq_of_rules (fun _ => hM) hfolds ρ w).symm

/-- A loop in which a negation is dropped, a comparison for inequality overwrites what it compares,
and a comparison for equality stays because its result is returned. -/
def Func.probing : Func :=
  let x : Reg := ⟨0, .i32, false, "x"⟩
  let t : Reg := ⟨0, .i32, true, ""⟩
  let u : Reg := ⟨1, .i32, true, ""⟩
  ⟨"probing", .i32, [⟨.i32, "x"⟩],
    [.defineLabel ⟨0⟩, .make (.un .not) [.reg t, .reg x], .make .brz [.label ⟨1⟩, .reg t],
      .make (.bin .neq) [.reg x, .reg x, .num 0 .i32], .make .bnz [.label ⟨0⟩, .reg x],
      .defineLabel ⟨1⟩, .make (.bin .eq) [.reg u, .reg x, .num 0 .i32],
      .make .brz [.label ⟨0⟩, .reg u], .make .ret [.reg u]]⟩

theorem Pass.foldTests_behaviour_probing :
    Func.probing.Verified ∧ Func.probing.code.NegationsApart ∧ Func.probing.code.KeepsTested ∧
      ∃ c changed, foldTests.run .probing = .ok ({ Func.probing with code := c }, .ok changed) ∧
        ∀ M : Machine, M.Lawful →
          ∀ (ρ : Regs) (w : World), M.behaviour c ρ w = M.behaviour Func.probing.code ρ w := by
  have hverified : Func.probing.Verified := rfl
  have hnot : Func.probing.code.NegationsApart := by decide
  have hkept : Func.probing.code.KeepsTested := by decide
  exact ⟨hverified, hnot, hkept, foldTests_behaviour hverified hnot hkept⟩

/-- A comparison that overwrites what it compares, in front of a branch on its result. -/
def Func.overwriting : Func :=
  let x : Reg := ⟨0, .i32, false, "x"⟩
  ⟨"overwriting", .i32, [⟨.i32, "x"⟩], [.make (.bin .eq) [.reg x, .reg x, .num 0 .i32], .make .brz
      [.label ⟨0⟩, .reg x], .make .ret [.num 1 .i32], .defineLabel ⟨0⟩, .make .ret [.num 2 .i32]]⟩

/-- It is not enough that negations keep their results to themselves: where a comparison for
equality overwrites what it compares, folding turns the branch round. -/
theorem Pass.foldTests_behaviour_ne :
    ¬ ∀ (f g : Func) (changed : Bool), f.Verified → f.code.NegationsApart →
      foldTests.run f = .ok (g, .ok changed) →
        ∀ M : Machine, M.Lawful →
          ∀ (ρ : Regs) (w : World), M.behaviour g.code ρ w = M.behaviour f.code ρ w := by
  intro hsound
  have heq := hsound .overwriting _ _ rfl (by decide) rfl
    (Language.sample.machine .empty) Language.sample_lawful (fun _ => 0) ⟨fun _ => 0, []⟩
  have hhalts :=
    congrFun (congrFun (congrArg Behaviour.halts heq) (.returned (some 1))) ⟨fun _ => 0, []⟩
  obtain ⟨n, hn⟩ := (iff_of_eq hhalts).mpr ⟨3, rfl⟩
  have hlast := Machine.run_of_halted _ _ (Nat.le_add_left n 4) hn
  rw [Machine.run_add] at hlast
  change Machine.run _ _ n (.halted (.returned (some 2)) _) = _ at hlast
  rw [Machine.run_halted] at hlast
  cases hlast

end ThreeAddress
