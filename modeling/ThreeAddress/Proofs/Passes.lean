import ThreeAddress.Pipeline
import ThreeAddress.Proofs.LocalSteps
import ThreeAddress.Proofs.Renumbering
import ThreeAddress.Proofs.Unreachable

/-!
# Passes on verified functions

Every pass of the library goes through on a function that `Func.validate` accepts, and leaves one
that it accepts. So a pipeline made of them never fails on what lowering hands out, and compilation
reports what lowering reports (`verified_of_passes`).
-/

namespace ThreeAddress
set_option autoImplicit false

/-- The function passes validation. -/
def Func.Verified (f : Func) : Prop := f.validate.run = .ok (.ok ())

theorem Func.verified_iff {f : Func} : f.Verified ↔ Code.Valid f.code := Func.validate_eq_ok_iff

/-- Registers that agree, except that temporaries may differ. -/
def Regs.SameNamed (ρ σ : Regs) : Prop := ∀ k : RegKey, k.temp = false → ρ k = σ k

/-- Whatever the machine, the new code does what the old code does on the same named registers and
some values of its temporaries. -/
def Code.Refines (old new : Code) : Prop :=
  ∀ (M : Machine) (ρ : Regs) (w : World), ∃ σ, ρ.SameNamed σ ∧
    M.behaviour new ρ w = M.behaviour old σ w

namespace Code

theorem Refines.refl (c : Code) : Refines c c := fun _ ρ _ => ⟨ρ, fun _ _ => rfl, rfl⟩

theorem Refines.of_eq {c d : Code}
    (h : ∀ (M : Machine) ρ w, M.behaviour c ρ w = M.behaviour d ρ w) :
    Refines c d := fun M ρ w => ⟨ρ, fun _ _ => rfl, (h M ρ w).symm⟩

theorem Refines.trans {a b c : Code} (hab : Refines a b) (hbc : Refines b c) : Refines a c := by
  intro M ρ w
  obtain ⟨σ, hσ, heq⟩ := hbc M ρ w
  obtain ⟨τ, hτ, heq'⟩ := hab M σ w
  exact ⟨τ, fun k hk => (hσ k hk).trans (hτ k hk), heq.trans heq'⟩

theorem refines_renumberTemps {code : Code} (hv : Valid code) :
    Refines code code.renumberTemps.code := by
  intro M ρ w
  refine ⟨fun k => ρ (k.renumber code.temps), fun k hk => ?_,
    (behaviour_renumberTemps hv.wellFormed M ρ w).symm⟩
  have hsame : k.renumber code.temps = k := if_neg (by rw [hk]; exact Bool.false_ne_true)
  exact congrArg ρ hsame.symm

theorem behaviour_of_tidies {old new : Code} (h : Relation.ReflTransGen Tidies old new)
    (M : Machine) (ρ : Regs) (w : World) : M.behaviour old ρ w = M.behaviour new ρ w := by
  induction h with
  | refl => rfl
  | tail _ hstep ih => exact ih.trans (behaviour_eq_of_rules False.elim hstep ρ w)

theorem refines_of_tidies {old new : Code} (h : Relation.ReflTransGen Tidies old new)
    (hv : Valid old) :
    Valid new ∧ Refines old new := by
  refine ⟨?_, .of_eq (behaviour_of_tidies h)⟩
  induction h with
  | refl => exact hv
  | tail _ hstep ih => exact hstep.valid ih

theorem refines_threadBy {code : Code} (hv : Valid code) :
    Valid (threadBy code.land code) ∧ Refines code (threadBy code.land code) := by
  have hlands : ∀ l ∈ labels code, code.Lands l (code.land l) := fun l hl => (landing_eq hv hl).2
  refine ⟨threadBy_valid hv fun l hl => (hlands l hl).mem_labels hv hl, .of_eq fun M ρ w => ?_⟩
  exact behaviour_threadBy M hv (fun l hl => (hlands l hl).leads) ρ w

end Code

namespace Pass
variable {S : Code → Code → Prop}

/-- The pass goes through on valid code and takes it to valid code, to which `S` relates it. -/
def Takes (S : Code → Code → Prop) (p : Pass (Except Fault)) : Prop :=
  ∀ f : Func, Code.Valid f.code →
    ∃ c changed, p.run f = .ok ({ f with code := c }, .ok changed) ∧ Code.Valid c ∧ S f.code c

theorem run_ofStep {name : Bytes} {step : Code → ExceptT Error (Except Fault) Simplified} {f : Func}
    {r : Simplified} (h : (step f.code).run = .ok (.ok r)) :
    (ofStep name step).run f = .ok ({ f with code := r.code }, .ok r.changed) := by
  change ((step f.code).run >>= _) = _
  rw [h]
  rfl

theorem run_ofStep_error {name : Bytes} {step : Code → ExceptT Error (Except Fault) Simplified}
    {f : Func} {e : Error} (h : (step f.code).run = .ok (.error e)) :
    (ofStep name step).run f = .ok (f, .error e) := by
  change ((step f.code).run >>= _) = _
  rw [h]
  rfl

theorem run_ofStep_lift {name : Bytes} {step : Code → Except Fault Simplified} {f : Func}
    {r : Simplified} (h : step f.code = .ok r) :
    (ofStep name fun c => step c).run f = .ok ({ f with code := r.code }, .ok r.changed) :=
  run_ofStep (Fault.exceptT_lift_eq_ok_iff.mpr h)

theorem takes_ofStep {name : Bytes} {step : Code → ExceptT Error (Except Fault) Simplified}
    (h : ∀ c, Code.Valid c → ∃ r, (step c).run = .ok (.ok r) ∧ Code.Valid r.code ∧ S c r.code) :
    (ofStep name step).Takes S := by
  intro f hf
  obtain ⟨r, hr, hvalid, hs⟩ := h f.code hf
  exact ⟨r.code, r.changed, run_ofStep hr, hvalid, hs⟩

theorem takes_ofStep_lift {name : Bytes} {step : Code → Except Fault Simplified}
    (h : ∀ c, Code.Valid c → ∃ r, step c = .ok r ∧ Code.Valid r.code ∧ S c r.code) :
    (ofStep name fun c => step c).Takes S := by
  intro f hf
  obtain ⟨r, hr, hvalid, hs⟩ := h f.code hf
  exact ⟨r.code, r.changed, run_ofStep_lift hr, hvalid, hs⟩

theorem runAll_cons {p : Pass (Except Fault)} {ps : List (Pass (Except Fault))} {f g h : Func}
    {changed more : Bool} (hp : p.run f = .ok (g, .ok changed))
    (hps : runAll ps g = .ok (h, .ok more)) :
    runAll (p :: ps) f = .ok (h, .ok (changed || more)) := by
  rw [runAll, runNamed, hp]
  change (runAll ps g >>= _) = _
  rw [hps]
  rfl

variable (hrefl : ∀ c, S c c) (htrans : ∀ {a b c}, S a b → S b c → S a c)
include hrefl htrans

theorem runAll_takes {ps : List (Pass (Except Fault))} (hps : ∀ p ∈ ps, p.Takes S) {f : Func}
    (hf : Code.Valid f.code) :
    ∃ c changed, runAll ps f = .ok ({ f with code := c }, .ok changed) ∧ Code.Valid c ∧
      S f.code c := by
  induction ps generalizing f with
  | nil => exact ⟨f.code, false, rfl, hf, hrefl f.code⟩
  | cons p ps ih =>
    obtain ⟨hp, hps⟩ := List.forall_mem_cons.mp hps
    obtain ⟨c, changed, hrun, hc, hs⟩ := hp f hf
    obtain ⟨d, more, hmore, hd, hs'⟩ := ih hps (f := { f with code := c }) hc
    exact ⟨d, changed || more, runAll_cons hrun hmore, hd, htrans hs hs'⟩

end Pass

namespace Pipeline
variable {S : Code → Code → Prop} (hrefl : ∀ c, S c c) (htrans : ∀ {a b c}, S a b → S b c → S a c)
  {pl : Pipeline (Except Fault)}
include hrefl htrans

theorem rounds_takes (hiter : ∀ p ∈ pl.iter, p.Takes S) (n : Nat) {f : Func}
    (hf : Code.Valid f.code) :
    ∃ c, pl.rounds n f = .ok ({ f with code := c }, .ok ()) ∧ Code.Valid c ∧ S f.code c := by
  induction n generalizing f with
  | zero => exact ⟨f.code, rfl, hf, hrefl f.code⟩
  | succ n ih =>
    obtain ⟨c, changed, hround, hc, hs⟩ := Pass.runAll_takes hrefl htrans hiter hf
    rw [rounds, round, hround]
    cases changed with
    | false => exact ⟨c, rfl, hc, hs⟩
    | true =>
      obtain ⟨d, hd, hvalid, hs'⟩ := ih (f := { f with code := c }) hc
      exact ⟨d, hd, hvalid, htrans hs hs'⟩

end Pipeline

namespace Pass

theorem takes_of_mem_iter {p : Pass (Except Fault)} (hp : p ∈ Pipeline.standard.iter) :
    p.Takes Code.Refines := by
  simp only [Pipeline.standard, List.mem_cons, List.not_mem_nil, or_false] at hp
  rcases hp with rfl | rfl | rfl | rfl
  · apply takes_ofStep
    intro c hc
    exact ⟨_, rfl, Code.renumberTemps_valid hc, Code.refines_renumberTemps hc⟩
  · apply takes_ofStep_lift
    intro c hc
    obtain ⟨r, hr, hsteps, _⟩ := Code.settle_spec hc.wellFormed
    exact ⟨r, hr, Code.refines_of_tidies hsteps hc⟩
  · apply takes_ofStep
    intro c hc
    obtain ⟨b, hb, _⟩ := Code.threadJumps_eq hc
    exact ⟨_, hb, Code.refines_threadBy hc⟩
  · apply takes_ofStep
    intro c hc
    exact ⟨_, rfl, Code.pruneUnreachable_valid hc,
      .of_eq fun M ρ w => behaviour_pruneUnreachable M c ρ w⟩

theorem Takes.imp {S T : Code → Code → Prop} {p : Pass (Except Fault)} (h : p.Takes S)
    (hST : ∀ {c d}, S c d → T c d) : p.Takes T := by
  intro f hf
  obtain ⟨c, changed, hrun, hc, hs⟩ := h f hf
  exact ⟨c, changed, hrun, hc, hST hs⟩

theorem takes_rewrites {p : Pass (Except Fault)} (hp : p ∈ Pipeline.standard.setup) :
    p.Takes (Code.Rewrites (Rule True (fun _ _ => True) fun _ _ => True)) := by
  have hweak {old new : Code} (h : Code.Trims old new) :
      Code.Rewrites (Rule True (fun _ _ => True) fun _ _ => True) old new :=
    h.imp fun hab => hab.imp False.elim (fun _ _ _ _ _ _ => trivial) fun _ _ _ => trivial
  simp only [Pipeline.standard, List.mem_cons, List.not_mem_nil, or_false] at hp
  rcases hp with rfl | rfl | rfl
  · apply takes_ofStep
    intro c hc
    exact ⟨_, rfl, c.dropNops_trims.valid hc, hweak c.dropNops_trims⟩
  · apply takes_ofStep_lift
    intro c hc
    obtain ⟨r, hr, hrw⟩ := Code.foldTests_rewrites hc.wellFormed
    exact ⟨r, hr, hrw.valid hc, hrw⟩
  · apply takes_ofStep_lift
    intro c hc
    obtain ⟨r, hr, htrims⟩ := Code.testSources_trims hc.wellFormed
    exact ⟨r, hr, htrims.valid hc, hweak htrims⟩

theorem takes_of_mem_setup {p : Pass (Except Fault)} (hp : p ∈ Pipeline.standard.setup) :
    p.Takes fun _ _ => True := (takes_rewrites hp).imp fun _ => trivial

theorem takes_of_mem_all {p : Pass (Except Fault)} (hp : p ∈ all) : p.Takes fun _ _ => True := by
  have hsplit : all = Pipeline.standard.setup ++ Pipeline.standard.iter := rfl
  rw [hsplit] at hp
  rcases List.mem_append.mp hp with hp | hp
  · exact takes_of_mem_setup hp
  · exact (takes_of_mem_iter hp).imp fun _ => trivial

/-- The passes run one after the other to their ends, and each leaves a verified function to the
next. -/
inductive Chain : List (Pass (Except Fault)) → Func → Prop where
  | nil (f : Func) : Chain [] f
  | cons {p : Pass (Except Fault)} {ps : List (Pass (Except Fault))} {f g : Func} {changed : Bool} :
    p.run f = .ok (g, .ok changed) → g.Verified → Chain ps g → Chain (p :: ps) f

theorem chain_of_verified {ps : List (Pass (Except Fault))} (hps : ∀ p ∈ ps, p ∈ all) {f : Func}
    (hf : f.Verified) : Chain ps f := by
  induction ps generalizing f with
  | nil => exact .nil f
  | cons p ps ih =>
    obtain ⟨hp, hps⟩ := List.forall_mem_cons.mp hps
    obtain ⟨c, changed, hrun, hc, _⟩ := takes_of_mem_all hp f (Func.verified_iff.mp hf)
    have hg : Func.Verified { f with code := c } := Func.verified_iff.mpr hc
    exact .cons hrun hg (ih hps hg)

end Pass

namespace Pipeline

theorem runFunc_verified {f : Func} (hf : f.Verified) :
    ∃ g, standard.runFunc f = .ok (g, .ok ()) ∧ g.Verified := by
  obtain ⟨c, changed, hsetup, hc, _⟩ := Pass.runAll_takes (S := fun _ _ => True) (fun _ => trivial)
    (fun _ _ => trivial) (fun p hp => Pass.takes_of_mem_setup hp) (Func.verified_iff.mp hf)
  obtain ⟨d, hrounds, hd, _⟩ := rounds_takes Code.Refines.refl Code.Refines.trans
    (fun p hp => Pass.takes_of_mem_iter hp) standard.roundLimit (f := { f with code := c }) hc
  refine ⟨{ f with code := d }, ?_, Func.verified_iff.mpr hd⟩
  rw [runFunc, hsetup]
  exact hrounds

theorem setup_of_folds {f : Func} {gone : Code → RegKey → Prop} {apart : Reg → Operand → Prop}
    {r : Simplified} (hv : Code.Valid f.code) (hr : f.code.dropNops.code.foldTests = .ok r)
    (hfolds : Code.Rewrites (Rule True gone apart) f.code.dropNops.code r.code) :
    ∃ c changed, Pass.runAll standard.setup f = .ok ({ f with code := c }, .ok changed) ∧
      Code.Valid c ∧
      Code.Trims r.code c := by
  have hvalid := hfolds.valid (f.code.dropNops_trims.valid hv)
  obtain ⟨t, ht, htrims⟩ := Code.testSources_trims hvalid.wellFormed
  have hrun : Pass.runAll standard.setup f = .ok ({ f with code := t.code }, .ok _) :=
    Pass.runAll_cons (g := { f with code := f.code.dropNops.code }) rfl
      (Pass.runAll_cons (Pass.run_ofStep_lift hr) (Pass.runAll_cons (Pass.run_ofStep_lift ht) rfl))
  exact ⟨t.code, _, hrun, htrims.valid hvalid, htrims⟩

end Pipeline

namespace Session

theorem lowerFunc_eq_ok {s s' : Session} {d : Decl} {f : Func}
    (h : s.lowerFunc d = .ok (.ok f, s')) :
    f.Verified ∧ ∃ frame, d.lower ⟨s, 0, []⟩ = .ok (.ok f) frame ∧ frame.session = s' := by
  unfold lowerFunc at h
  cases hlower : d.lower ⟨s, 0, []⟩ with
  | error e frame =>
    rw [hlower] at h
    cases h
  | ok r frame =>
    rw [hlower] at h
    obtain ⟨g, hg, h⟩ := Fault.bind_eq_ok_iff.mp h
    obtain ⟨v, hv, h⟩ := Fault.bind_eq_ok_iff.mp h
    cases v with
    | error e => cases h
    | ok u =>
      cases h
      subst hg
      exact ⟨hv, frame, rfl, rfl⟩

end Session

/-- A loop that counts down, with a mark, a comparison before a branch, a jump to a jump and dead
code. -/
def Func.countdown : Func :=
  let n : Reg := ⟨0, .i32, false, "n"⟩
  let t : Reg := ⟨0, .i32, true, ""⟩
  let u : Reg := ⟨5, .i32, true, ""⟩
  ⟨"countdown", .i32, [⟨.i32, "n"⟩],
    [.mark .whileLoop, .defineLabel ⟨0⟩, .make (.bin .eq) [.reg t, .reg n, .num 0 .i32],
      .make .bnz [.label ⟨2⟩, .reg t], .make (.bin .sub) [.reg u, .reg n, .num 1 .i32],
      .make .mov [.reg n, .reg u], .jump ⟨1⟩, .make .ret [.num 7 .i32], .defineLabel ⟨1⟩, .jump ⟨0⟩,
      .defineLabel ⟨2⟩, .make .ret [.reg n]]⟩

end ThreeAddress
