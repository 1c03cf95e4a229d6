import ThreeAddress.Proofs.Passes

/-!
# What single passes keep of verified code

The passes that look at registers only by their uses, and those that look at control, keep the
behaviour of any code that passes validation, whatever its registers hold at the start: nothing is
asked of its shape, of what it assigns before it reads or of how it was made
(`Pass.registers_behaviour`, `Pass.control_behaviour`). The passes on control also leave it running
in circles of labels and jumps where it did so before, and nowhere else.
-/

namespace ThreeAddress
set_option autoImplicit false

namespace Code

theorem dropNops_code (code : Code) : code.dropNops.code = code.filter (·.op ≠ .nop) := rfl

theorem dropNops_mark {x : Instr} (h : x.op = .nop) (rest : Code) :
    (dropNops (x :: rest)).code = rest.dropNops.code := by
  rw [dropNops_code, dropNops_code, List.filter_cons_of_neg (by simpa using h)]

theorem dropNops_cons {x : Instr} (h : x.op ≠ .nop) (rest : Code) :
    (dropNops (x :: rest)).code = x :: rest.dropNops.code := by
  rw [dropNops_code, dropNops_code, List.filter_cons_of_pos (by simpa using h)]

theorem dropNops_append (c d : Code) :
    (c ++ d).dropNops.code = c.dropNops.code ++ d.dropNops.code :=
  List.filter_append c d

theorem dropNops_sublist (c : Code) : c.dropNops.code.Sublist c := List.filter_sublist

theorem seek_dropNops (l : Label) (code : Code) :
    code.dropNops.code.seek l = (code.seek l).dropNops.code := by
  induction code with
  | nil => rfl
  | cons x rest ih =>
    by_cases hx : x.op = .nop
    · have hlabel : x.label? ≠ some l := by
        intro h
        exact Opcode.noConfusion (hx.symm.trans (Instr.op_eq_of_label? h))
      rw [dropNops_mark hx, ih, seek_cons, if_neg hlabel]
    · rw [dropNops_cons hx, seek_cons, seek_cons, ih]
      split
      · rw [dropNops_cons hx]
      · rfl

end Code

theorem Machine.drifts_over_marks (M : Machine) (code rest : Code) (ρ : Regs) (w : World) :
    ∃ more, M.Drifts code ⟨rest, ρ, w⟩ ⟨more, ρ, w⟩ ∧ more.dropNops.code = rest.dropNops.code ∧
      ∀ x ∈ more.head?, x.op ≠ .nop := by
  induction rest with
  | nil => exact ⟨[], .refl _, rfl, fun x hx => by cases hx⟩
  | cons x rest ih =>
    by_cases hx : x.op = .nop
    · obtain ⟨more, hdrifts, hsame, hhead⟩ := ih
      have heffect : M.effect x ρ w = .next ρ w := by rw [Machine.effect, hx]
      refine ⟨more, (Machine.Drifts.next (.inr (.inr hx)) heffect rest).trans hdrifts, ?_, hhead⟩
      rw [hsame, Code.dropNops_mark hx]
    · refine ⟨x :: rest, .refl _, rfl, fun y hy => ?_⟩
      cases hy
      exact hx

/-- What is left of the new code is what is left of the old code, without its marks. -/
def UnmarkedConfig (x y : Config) : Prop :=
  y.rest = x.rest.dropNops.code ∧ x.regs = y.regs ∧ x.world = y.world

theorem idleLockstep_dropNops (M : Machine) (code : Code) :
    IdleLockstep M M code code.dropNops.code UnmarkedConfig := by
  refine ⟨fun h => h.2.2, ?_⟩
  rintro ⟨p, ρ, w⟩ ⟨_, _, _⟩ ⟨hrest, hregs, hworld⟩
  simp only at hrest hregs hworld
  subst hrest hregs hworld
  -- the old side first passes its marks, then both make the same step
  obtain ⟨more, ⟨k, hk, hidle⟩, hsame, hhead⟩ := M.drifts_over_marks code p ρ w
  refine ⟨k + 1, 1, Nat.succ_pos k, Nat.one_pos, ?_, ?_⟩
  · rw [M.run_add, hk, ← hsame]
    cases more with
    | nil => exact .halted .ranOff w
    | cons x rest =>
      rw [Code.dropNops_cons (hhead x rfl), M.run_one, M.run_one]
      cases he : M.effect x ρ w with
      | halt u v => exact .halted _ v
      | jump l σ v => exact .running ⟨Code.seek_dropNops l code, rfl, rfl⟩
      | next σ v => exact .running ⟨rfl, rfl, rfl⟩
  · rw [Machine.idles_add, hk, and_iff_right hidle, Machine.idles_one, Machine.idles_one, ← hsame]
    cases more with
    | nil => rfl
    | cons x rest =>
      rw [Code.dropNops_cons (hhead x rfl)]
      rfl

/-- Testing what a copy copies, and forwarding results and dropping what is unread for as long as
that changes anything, go through on every verified function and keep what it does, from any
registers and in any world. -/
theorem Pass.registers_behaviour {f : Func} (hf : f.Verified) {p : Pass (Except Fault)}
    (hp : p ∈ [testSources, settle]) :
    ∃ c changed, p.run f = .ok ({ f with code := c }, .ok changed) ∧
      ∀ (M : Machine) (ρ : Regs) (w : World), M.behaviour c ρ w = M.behaviour f.code ρ w := by
  have hwf : ∀ x ∈ f.code, x.WellFormed := (Func.verified_iff.mp hf).wellFormed
  simp only [List.mem_cons, List.not_mem_nil, or_false] at hp
  rcases hp with rfl | rfl
  · obtain ⟨r, hr, htrims⟩ := Code.testSources_trims hwf
    refine ⟨r.code, r.changed, run_ofStep_lift hr, fun M ρ w => ?_⟩
    exact (behaviour_eq_of_rules False.elim htrims.tidies ρ w).symm
  · obtain ⟨r, hr, hsteps, _⟩ := Code.settle_spec hwf
    exact ⟨r.code, r.changed, run_ofStep_lift hr,
      fun M ρ w => (Code.behaviour_of_tidies hsteps M ρ w).symm⟩

/-- A loop that was never lowered: `y` is read before it is ever set, the sum is set twice and moved
on once, a copy is tested, and what is computed last is read by nobody. -/
def Func.summing : Func :=
  let x : Reg := ⟨0, .i32, false, "x"⟩
  let y : Reg := ⟨1, .i32, false, "y"⟩
  let t : Reg := ⟨0, .i32, true, ""⟩
  let u : Reg := ⟨1, .i32, true, ""⟩
  let v : Reg := ⟨2, .i32, true, ""⟩
  ⟨"summing", .i32, [⟨.i32, "x"⟩],
    [.defineLabel ⟨0⟩, .make .mov [.reg t, .reg x], .make .brz [.label ⟨1⟩, .reg t],
      .make (.bin .add) [.reg u, .reg x, .reg y], .make .mov [.reg y, .reg u],
      .make (.bin .sub) [.reg x, .reg x, .num 1 .i32], .make (.bin .mul) [.reg v, .reg y, .reg y],
      .make .br [.label ⟨0⟩], .defineLabel ⟨1⟩, .make .ret [.reg y]]⟩

theorem Pass.registers_behaviour_summing : Func.summing.Verified ∧
    (∃ c changed, testSources.run .summing = .ok ({ Func.summing with code := c }, .ok changed) ∧
      ∀ (M : Machine) (ρ : Regs) (w : World),
        M.behaviour c ρ w = M.behaviour Func.summing.code ρ w) ∧
    ∃ c changed, settle.run .summing = .ok ({ Func.summing with code := c }, .ok changed) ∧
      ∀ (M : Machine) (ρ : Regs) (w : World),
        M.behaviour c ρ w = M.behaviour Func.summing.code ρ w := by
  have hverified : Func.summing.Verified := rfl
  exact ⟨hverified, registers_behaviour hverified (.head _),
    registers_behaviour hverified (.tail _ (.head _))⟩

/-- Dropping marks, threading jumps and dropping unreachable code go through on every verified
function and keep what it does. In particular it runs in a circle of labels and jumps (and marks)
after the pass if and only if it did before. -/
theorem Pass.control_behaviour {f : Func} (hf : f.Verified) {p : Pass (Except Fault)}
    (hp : p ∈ [nops, threadJumps, pruneUnreachable]) :
    ∃ c changed, p.run f = .ok ({ f with code := c }, .ok changed) ∧
      ∀ (M : Machine) (ρ : Regs) (w : World),
        M.behaviour c ρ w = M.behaviour f.code ρ w ∧ (M.Circles c ρ w ↔ M.Circles f.code ρ w) := by
  have hv : Code.Valid f.code := Func.verified_iff.mp hf
  simp only [List.mem_cons, List.not_mem_nil, or_false] at hp
  rcases hp with rfl | rfl | rfl
  · refine ⟨_, f.code.dropNops.changed, rfl, fun M ρ w => ?_⟩
    have hsteps := idleLockstep_dropNops M f.code
    exact ⟨(behaviour_eq_of_lockstep hsteps.lockstep ⟨rfl, rfl, rfl⟩).symm,
      (hsteps.circles_iff ⟨rfl, rfl, rfl⟩).symm⟩
  · obtain ⟨changed, hrun, _⟩ := Code.threadJumps_eq hv
    have hleads : ∀ l ∈ f.code.labels, f.code.Leads l (f.code.land l) :=
      fun l hl => (Code.landing_eq hv hl).2.leads
    refine ⟨_, changed, run_ofStep hrun, fun M ρ w => ⟨?_, ?_⟩⟩
    · exact (behaviour_threadBy M hv hleads ρ w).symm
    · exact (circles_threadBy M hv hleads ρ w).symm
  · refine ⟨_, f.code.pruneUnreachable.changed, rfl, fun M ρ w => ⟨?_, ?_⟩⟩
    · exact (behaviour_pruneUnreachable M f.code ρ w).symm
    · exact (circles_pruneUnreachable M f.code ρ w).symm

/-- A test that either leads into a circle of labels and jumps or, over two jumps, to the end, with
code that is never reached between them. -/
def Func.circling : Func :=
  let x : Reg := ⟨0, .i32, false, "x"⟩
  ⟨"circling", .i32, [⟨.i32, "x"⟩], [.mark .whileLoop, .make .bnz [.label ⟨0⟩, .reg x],
      .make .br [.label ⟨2⟩], .make .mov [.reg x, .num 1 .i32], .defineLabel ⟨0⟩,
      .make .br [.label ⟨1⟩], .defineLabel ⟨2⟩, .make .br [.label ⟨3⟩], .defineLabel ⟨1⟩,
      .mark .whileLoop, .make .br [.label ⟨0⟩], .defineLabel ⟨3⟩, .make .ret [.reg x]]⟩

theorem Pass.control_behaviour_circling : Func.circling.Verified ∧
    (∀ (M : Machine) (w : World), M.Circles Func.circling.code (fun _ => 1) w ∧
        ¬ M.Circles Func.circling.code (fun _ => 0) w) ∧
    ∃ c changed, threadJumps.run .circling = .ok ({ Func.circling with code := c }, .ok changed) ∧
      ∀ (M : Machine) (ρ : Regs) (w : World),
        M.behaviour c ρ w = M.behaviour Func.circling.code ρ w ∧
        (M.Circles c ρ w ↔ M.Circles Func.circling.code ρ w) := by
  have hverified : Func.circling.Verified := rfl
  refine ⟨hverified, fun M w => ⟨?_, ?_⟩, control_behaviour hverified (.tail _ (.head _))⟩
  · refine Machine.circles_of_loop (n := 2) (k := 5) (by decide) rfl fun i hi => ?_
    rcases i with _ | _ | _ | _ | _ | i
    · exact .inl rfl
    · exact .inr (.inl rfl)
    · exact .inl rfl
    · exact .inr (.inr rfl)
    · exact .inr (.inl rfl)
    · omega
  · intro h
    obtain ⟨n, hn⟩ := h
    have hend : M.run Func.circling.code 8 (.running ⟨Func.circling.code, fun _ => 0, w⟩) =
        .halted (.returned (some 0)) w := rfl
    have hidle := hn (n + 8) (Nat.le_add_right n 8)
    rw [M.run_of_halted _ (Nat.le_add_left 8 n) hend] at hidle
    exact hidle

end ThreeAddress
