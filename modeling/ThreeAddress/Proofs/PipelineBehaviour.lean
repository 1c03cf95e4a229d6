import ThreeAddress.Proofs.LoweredBehaviour
import ThreeAddress.Proofs.ReadOnce

/-!
# What the pipeline does to lowered code

The standard pipeline keeps the behaviour of every function that lowering hands out
(`Pipeline.runFunc_behaviour`).

Two facts about lowered code are needed. It reads no temporary twice, so that comparisons can be
folded into branches. And what it does depends on no value that a temporary starts with, so that
temporaries can be renumbered: it does what its tree does, and the tree knows of no temporaries.
-/

namespace ThreeAddress
set_option autoImplicit false

/-- The language in which strings and functions are what they are on the machine. -/
def Machine.language (M : Machine) (s : Session) : Language where
  toPrimitives := M.toPrimitives
  str b := (s.data.index? b).elim 0 fun i => M.data 0 i
  callee name := (s.labels.interned? name).elim 0 M.callee

theorem linked_language (M : Machine) (s : Session) : Linked (M.language s) M s where
  primitives := rfl
  data b i hi := by
    simp only [Machine.language, hi]
    rfl
  callee name l hl := by
    simp only [Machine.language, hl]
    rfl

section Lowered
variable {s : Session} {d : Decl} {f : Func} {fin : Frame}

theorem readOnce_of_lower (h : d.lower ⟨s, 0, []⟩ = .ok (.ok f) fin) : f.code.ReadOnce := by
  obtain ⟨ps, s₁, c, hdeclare, hbody, rfl⟩ := Decl.lower_eq_ok h
  refine Code.readOnce_of_lowers hbody ((declare_eq_ok hdeclare).1.numbered ?_)
  intro i p hp
  cases hp

/-- What lowered code does depends on the registers of variables only. -/
theorem behaviour_of_sameNamed (h : d.lower ⟨s, 0, []⟩ = .ok (.ok f) fin) (hf : f.Verified)
    (M : Machine) {ρ σ : Regs} (hsame : ρ.SameNamed σ) (w : World) :
    M.behaviour f.code ρ w = M.behaviour f.code σ w := by
  have hlinked := linked_language M fin.session
  let store : Store := ⟨fun id => (fin.vars.lookup id).elim 0 fun r => ρ r.key, w⟩
  have hρ : ρ.Holds fin store := by
    intro id r hr
    simp only [store, hr]
    rfl
  have hσ : σ.Holds fin store := by
    intro id r hr
    have hnamed : r.key.temp = false := (numbered_of_lower h).named hr
    exact (hsame r.key hnamed).symm.trans (hρ id r hr)
  exact (behaviour_of_lower h hf hlinked hρ).trans (behaviour_of_lower h hf hlinked hσ).symm

end Lowered

namespace Pipeline

theorem setup_of_readOnce {f : Func} (hv : Code.Valid f.code) (hread : f.code.ReadOnce) :
    ∃ c changed r, Pass.runAll standard.setup f = .ok ({ f with code := c }, .ok changed) ∧
      Code.Valid c ∧
      Code.Rewrites (Rule True (fun _ k => k ∉ Code.reads r) Reg.Apart) f.code.dropNops.code r ∧
      Code.Trims r c := by
  have hread₁ : f.code.dropNops.code.ReadOnce := hread.of_sublist List.filter_sublist
  obtain ⟨r, hr, hfolds⟩ := hread₁.foldTests_rewrites (f.code.dropNops_trims.valid hv).wellFormed
  obtain ⟨c, changed, hrun, hc, htrims⟩ := setup_of_folds hv hr hfolds
  exact ⟨c, changed, r.code, hrun, hc, hfolds, htrims⟩

theorem setup_behaviour {f : Func} (hf : f.Verified) (hread : f.code.ReadOnce) :
    ∃ c changed, Pass.runAll standard.setup f = .ok ({ f with code := c }, .ok changed) ∧
      Code.Valid c ∧
      ∀ M : Machine, M.Lawful → ∀ ρ w, M.behaviour c ρ w = M.behaviour f.code ρ w := by
  obtain ⟨c, changed, r, hrun, hc, hfolds, htrims⟩ :=
    setup_of_readOnce (Func.verified_iff.mp hf) hread
  refine ⟨c, changed, hrun, hc, fun M hM ρ w => ?_⟩
  calc M.behaviour c ρ w = M.behaviour r ρ w :=
    (behaviour_eq_of_rules False.elim htrims.tidies ρ w).symm
    _ = M.behaviour f.code.dropNops.code ρ w :=
      (behaviour_eq_of_rules (fun _ => hM) hfolds ρ w).symm
    _ = M.behaviour f.code ρ w :=
      (behaviour_eq_of_rules False.elim f.code.dropNops_trims.tidies ρ w).symm

/-- The pipeline keeps what lowered code does, with any number of rounds: it goes through, and from
the same registers the new code ends alike, with the same value and memory, and shows the same
writes and calls. -/
theorem runFunc_behaviour {s s' : Session} {d : Decl} {f : Func}
    (h : s.lowerFunc d = .ok (.ok f, s')) (maxRounds : Int) :
    ∃ g, { standard with maxRounds := maxRounds }.runFunc f = .ok (g, .ok ()) ∧
      ∀ M : Machine, M.Lawful →
        ∀ (ρ : Regs) (w : World), M.behaviour g.code ρ w = M.behaviour f.code ρ w := by
  obtain ⟨hf, fin, hlower, _⟩ := Session.lowerFunc_eq_ok h
  obtain ⟨c, changed, hsetup, hc, hsame⟩ := setup_behaviour hf (readOnce_of_lower hlower)
  let pl : Pipeline (Except Fault) := { standard with maxRounds := maxRounds }
  have hiter : ∀ p ∈ pl.iter, p.Takes Code.Refines := fun p hp => Pass.takes_of_mem_iter hp
  obtain ⟨e, hrounds, _, hrefines⟩ := rounds_takes Code.Refines.refl Code.Refines.trans hiter
    pl.roundLimit (f := { f with code := c }) hc
  refine ⟨{ f with code := e }, ?_, fun M hM ρ w => ?_⟩
  · rw [runFunc, hsetup]
    exact hrounds
  · obtain ⟨σ, hσ, heq⟩ := hrefines M ρ w
    calc M.behaviour e ρ w = M.behaviour c σ w := heq
      _ = M.behaviour f.code σ w := hsame M hM σ w
      _ = M.behaviour f.code ρ w := (behaviour_of_sameNamed hlower hf M hσ w).symm

end Pipeline

/-- A loop with a call in it, which goes on while a comparison with zero is false. -/
def Decl.drain : Decl :=
  let n := Sample.local32 0 "n"
  let drip : FuncRef := ⟨"drip", .void, [.ptr]⟩
  Sample.decl "drain" .i32 [n] [
    .whileLoop (.unary "!" (Sample.cmp "==" (.var n) (Sample.lit 0)) .bool) (.block [
      Sample.set n (Sample.bin "-" (.var n) (Sample.lit 1)),
      .expr (.call (some drip) [.str (Bytes.ofString "drop")])]),
    .ret (.var n)]

theorem Session.exists_lowerFunc_drain : ∃ f s', Session.empty.lowerFunc .drain = .ok (.ok f, s') :=
  exists_lowerFunc_of_isSome (by decide +kernel)

theorem Pipeline.runFunc_behaviour_drain :
    ∃ f s' g, Session.empty.lowerFunc .drain = .ok (.ok f, s') ∧
      { standard with maxRounds := 2 }.runFunc f = .ok (g, .ok ()) ∧
      (Language.sample.machine s').Lawful ∧
        (Language.sample.machine s').behaviour g.code (f.entry fun _ => 3) ⟨fun _ => 0, []⟩ =
          (Language.sample.machine s').behaviour f.code (f.entry fun _ => 3) ⟨fun _ => 0, []⟩ := by
  obtain ⟨f, s', h⟩ := Session.exists_lowerFunc_drain
  obtain ⟨g, hg, hsame⟩ := runFunc_behaviour h 2
  have hlawful : (Language.sample.machine s').Lawful := Language.sample_lawful
  exact ⟨f, s', g, h, hg, hlawful, hsame _ hlawful _ _⟩

end ThreeAddress
