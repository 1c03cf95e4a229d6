import ThreeAddress.Proofs.Passes
import ThreeAddress.Proofs.Stability

/-!
# Rounds of the standard pipeline

A round renumbers, settles, threads and prunes. It says that it changed nothing exactly if it
changed nothing, and after three rounds there is nothing left to change: the first round drops the
unreachable code, the second settles what that uncovers, and the third drops the jumps that the
second has made idle. So the number of rounds never runs out (`rounds_settle`).
-/

namespace ThreeAddress
set_option autoImplicit false

namespace Code

/-- The code once it is settled; code on which settling faults stays as it is. -/
def settled (code : Code) : Code :=
  match code.settle with
  | .ok r => r.code
  | .error _ => code

def rounded (code : Code) : Code := code.renumberTemps.code.settled.threaded.pruneUnreachable.code

section
variable {code : Code}

theorem settled_spec (hwf : ∀ x ∈ code, x.WellFormed) :
    ∃ changed, code.settle = .ok ⟨code.settled, changed⟩ ∧
      Relation.ReflTransGen Tidies code code.settled ∧
      Settled (occurrences code.settled) code.settled ∧ (changed = false → code.settled = code) ∧
      (changed = true → code.settled.length < code.length) := by
  obtain ⟨r, hr, hsteps, hsettled, hsame, hless⟩ := settle_spec hwf
  have heq : code.settled = r.code := by rw [settled, hr]
  rw [heq]
  exact ⟨r.changed, hr, hsteps, hsettled, hsame, hless⟩

theorem settled_of_settled (hwf : ∀ x ∈ code, x.WellFormed) (h : Settled code.occurrences code) :
    code.settled = code := by
  rw [settled, settle_of_settled hwf h]

theorem flows_settled {dead : Bool} (hwf : ∀ x ∈ code, x.WellFormed) (h : Flows dead code) :
    Flows dead code.settled := by
  obtain ⟨_, _, hsteps, _⟩ := settled_spec hwf
  generalize code.settled = new at hsteps
  induction hsteps with
  | refl => exact h
  | tail _ hstep ih => exact flows_tidies hstep ih

theorem settled_valid (hv : Valid code) : Valid code.settled := by
  obtain ⟨_, _, hsteps, _⟩ := settled_spec hv.wellFormed
  exact (refines_of_tidies hsteps hv).1

theorem rounded_valid (hv : Valid code) : Valid code.rounded :=
  pruneUnreachable_valid (threaded_valid (settled_valid (renumberTemps_valid hv)))

theorem flows_rounded (code : Code) : Flows false code.rounded := flows_pruneUnreachable _

theorem flows_threaded {dead : Bool} (h : Flows dead code) : Flows dead code.threaded :=
  flows_threadBy h

theorem rounded_of_flows (hv : Valid code) (h : Flows false code) :
    code.rounded = code.renumberTemps.code.settled.threaded := by
  have hflows := flows_settled (renumberTemps_valid hv).wellFormed (flows_renumberTemps h)
  rw [rounded, pruneUnreachable_of_flows (flows_threaded hflows)]

theorem rounded_of_settled (hv : Valid code) (h : Flows false code)
    (hs : Settled code.occurrences code) :
    code.rounded = code.threaded.renumberTemps.code := by
  rw [rounded_of_flows hv h, settled_of_settled (renumberTemps_valid hv).wellFormed hs.renumber,
    threaded_renumberTemps hv]

theorem settled_threaded (hv : Valid code) (h : Settled code.occurrences code) :
    Settled (occurrences code.threaded) code.threaded := by
  have hocc : occurrences code.threaded = occurrences code := by
    funext k
    rw [occurrences, threaded, regKeys_threadBy hv.wellFormed, occurrences]
  rw [hocc]
  exact h.threadBy

/-- After `n` rounds nothing changes any more. -/
def StableAfter : Nat → Code → Prop
  | 0, code => code.rounded = code
  | n + 1, code => StableAfter n code.rounded

theorem stableAfter_three (hv : Valid code) : StableAfter 3 code := by
  change code.rounded.rounded.rounded.rounded = code.rounded.rounded.rounded
  -- The second round starts without unreachable code, and settles it to `s`.
  have hv₁ := rounded_valid hv
  have hr₁ := renumberTemps_valid hv₁
  obtain ⟨_, _, _, hs, _⟩ := settled_spec hr₁.wellFormed
  have hflows := flows_settled hr₁.wellFormed (flows_renumberTemps (flows_rounded code))
  have hvs := settled_valid hr₁
  have h₂ := rounded_of_flows hv₁ (flows_rounded code)
  generalize code.rounded.renumberTemps.code.settled = s at hs hflows hvs h₂
  -- From then on rounds only thread and renumber.
  have hvt := threaded_valid hvs
  have hvtt := threaded_valid hvt
  have hst := settled_threaded hvs hs
  have hstt := settled_threaded hvt hst
  have h₃ : code.rounded.rounded.rounded = s.threaded.threaded.renumberTemps.code := by
    rw [h₂, rounded_of_settled hvt (flows_threaded hflows) hst]
  have h₄ :
      s.threaded.threaded.renumberTemps.code.rounded = s.threaded.threaded.renumberTemps.code := by
    rw [rounded_of_settled (renumberTemps_valid hvtt)
      (flows_renumberTemps (flows_threaded (flows_threaded hflows))) hstt.renumber,
      threaded_renumberTemps hvtt, threaded_stable hvs hflows, renumberTemps_renumberTemps]
  rw [h₃, h₄]

end

end Code

namespace Pipeline

/-- Passes only shorten code or put something else in its place: what one of them has changed, no
other puts back. -/
theorem flags_of_rounded {code : Code} (hv : Code.Valid code) {s t : Bool}
    (hsame : s = false → code.renumberTemps.code.settled = code.renumberTemps.code)
    (hless : s = true → code.renumberTemps.code.settled.length < code.renumberTemps.code.length)
    (ht : t = false ↔ code.renumberTemps.code.settled.threaded = code.renumberTemps.code.settled) :
    (code.renumberTemps.changed || (s || (t ||
      (code.renumberTemps.code.settled.threaded.pruneUnreachable.changed || false)))) = false ↔
      code.rounded = code := by
  rw [Bool.or_eq_false_iff, Bool.or_eq_false_iff, Bool.or_eq_false_iff, Bool.or_false]
  constructor
  · rintro ⟨hr, hs, htf, hp⟩
    rw [Code.rounded, Code.pruneUnreachable_changed.mp hp, ht.mp htf, hsame hs,
      Code.renumberTemps_eq_self (Code.renumberTemps_changed.mp hr)]
  · intro hround
    have hlenR := code.length_renumberTemps
    have hlenT :
        code.renumberTemps.code.settled.threaded.length ≤ code.renumberTemps.code.settled.length :=
      Code.length_threadBy_le _ _
    have hsub := Code.reachableFrom_sublist false code.renumberTemps.code.settled.threaded
    have hround' :
        Code.reachableFrom false code.renumberTemps.code.settled.threaded = code := hround
    have hlenP := hsub.length_le
    rw [hround'] at hsub hlenP
    have hs : s = false := by
      cases s with
      | false => rfl
      | true =>
        have hlenS := hless rfl
        omega
    rw [hsame hs] at hsub ht hlenT hlenP ⊢
    have hthreaded : code.renumberTemps.code.threaded = code := (hsub.eq_of_length (by omega)).symm
    have hr : code.renumberTemps.changed = false := by
      apply Code.renumberTemps_changed_of_regKeys
      have hkeys :
          Code.regKeys code.renumberTemps.code.threaded = Code.regKeys code.renumberTemps.code :=
        Code.regKeys_threadBy (Code.renumberTemps_valid hv).wellFormed
      rw [← hkeys, hthreaded]
    have hcode : code.renumberTemps.code = code := by
      rw [Code.renumberTemps_eq_self (Code.renumberTemps_changed.mp hr)]
    rw [hthreaded, hcode] at ht
    refine ⟨hr, hs, ht.mpr rfl, ?_⟩
    rw [Code.pruneUnreachable_changed, ← hsame hs]
    change code.rounded = _
    rw [hround, hsame hs, hthreaded]

theorem round_eq {f : Func} (hf : Code.Valid f.code) :
    ∃ changed, standard.round f = .ok ({ f with code := f.code.rounded }, .ok changed) ∧
      (changed = false ↔ f.code.rounded = f.code) := by
  have hr := Code.renumberTemps_valid hf
  obtain ⟨s, hs, _, _, hsame, hless⟩ := Code.settled_spec hr.wellFormed
  obtain ⟨t, ht, htsame⟩ := Code.threadJumps_eq (Code.settled_valid hr)
  have hrenumber : Pass.renumberTemps.run f =
      .ok ({ f with code := f.code.renumberTemps.code }, .ok f.code.renumberTemps.changed) := rfl
  have hsettle : Pass.settle.run { f with code := f.code.renumberTemps.code } =
      .ok ({ f with code := f.code.renumberTemps.code.settled }, .ok s) :=
    @Pass.run_ofStep _ (fun c => c.settle) _ ⟨_, s⟩ (Fault.exceptT_lift_eq_ok_iff.mpr hs)
  have hthread : Pass.threadJumps.run { f with code := f.code.renumberTemps.code.settled } =
      .ok ({ f with code := f.code.renumberTemps.code.settled.threaded }, .ok t) :=
    @Pass.run_ofStep _ Code.threadJumps _ ⟨_, t⟩ ht
  have hprune : Pass.pruneUnreachable.run { f with
      code := f.code.renumberTemps.code.settled.threaded } = .ok ({ f with code := f.code.rounded },
      .ok f.code.renumberTemps.code.settled.threaded.pruneUnreachable.changed) := rfl
  refine ⟨_, ?_, flags_of_rounded hf hsame hless htsame⟩
  exact Pass.runAll_cons hrenumber
    (Pass.runAll_cons hsettle (Pass.runAll_cons hthread (Pass.runAll_cons hprune rfl)))

/-- Rounds that are made one after the other, and what each of them says about having changed
something. -/
inductive Rounds {m : Type → Type} [Monad m] (pl : Pipeline m) :
    Func → List Bool → Func → Prop where
  | none (f : Func) : Rounds pl f [] f
  | more {f g h : Func} {changed : Bool} {rest : List Bool} :
    pl.round f = pure (g, .ok changed) → Rounds pl g rest h → Rounds pl f (changed :: rest) h

theorem round_of_stable {f : Func} (hf : Code.Valid f.code) (h : f.code.rounded = f.code) :
    standard.round f = .ok (f, .ok false) := by
  obtain ⟨changed, hround, hchanged⟩ := round_eq hf
  rw [hround, hchanged.mpr h, h]

/-- On code that gets stable the loop ends by a round that changes nothing, if it may go on for long
enough. -/
theorem rounds_of_stableAfter {n limit : Nat} (hlimit : n < limit) {f : Func}
    (hf : Code.Valid f.code) (hstable : Code.StableAfter n f.code) :
    ∃ k g, k ≤ n ∧ standard.Rounds f (List.replicate k true ++ [false]) g ∧
      standard.rounds limit f = .ok (g, .ok ()) ∧ Code.Valid g.code ∧ g.code.rounded = g.code := by
  have hend {n limit : Nat} (hlimit : n < limit) {f : Func} (hf : Code.Valid f.code)
      (h : f.code.rounded = f.code) : ∃ k g, k ≤ n ∧
      standard.Rounds f (List.replicate k true ++ [false]) g ∧
      standard.rounds limit f = .ok (g, .ok ()) ∧ Code.Valid g.code ∧ g.code.rounded = g.code := by
    have hround := round_of_stable hf h
    obtain ⟨limit, rfl⟩ := Nat.exists_eq_succ_of_ne_zero (Nat.ne_of_gt (Nat.zero_lt_of_lt hlimit))
    refine ⟨0, f, Nat.zero_le n, .more hround (.none f), ?_, hf, h⟩
    rw [rounds, hround]
    rfl
  induction n generalizing f limit with
  | zero => exact hend hlimit hf hstable
  | succ n ih =>
    obtain ⟨changed, hround, hchanged⟩ := round_eq hf
    cases changed with
    | false => exact hend hlimit hf (hchanged.mp rfl)
    | true =>
      obtain ⟨limit, rfl⟩ := Nat.exists_eq_succ_of_ne_zero (Nat.ne_of_gt (Nat.zero_lt_of_lt hlimit))
      obtain ⟨k, g, hk, hrounds, hloop, hvalid, hg⟩ := ih (Nat.lt_of_succ_lt_succ hlimit)
        (f := { f with code := f.code.rounded }) (Code.rounded_valid hf) hstable
      refine ⟨k + 1, g, Nat.succ_le_succ hk, .more hround hrounds, ?_, hvalid, hg⟩
      rw [rounds, hround]
      exact hloop

theorem exists_rounds (n : Nat) {f : Func} (hf : Code.Valid f.code) :
    ∃ flags g, standard.Rounds f flags g ∧ flags.length = n := by
  induction n generalizing f with
  | zero => exact ⟨[], f, .none f, rfl⟩
  | succ n ih =>
    obtain ⟨changed, hround, _⟩ := round_eq hf
    obtain ⟨flags, g, hrounds, hlen⟩ :=
      ih (f := { f with code := f.code.rounded }) (Code.rounded_valid hf)
    exact ⟨changed :: flags, g, .more hround hrounds, congrArg (· + 1) hlen⟩

/-- On code that gets stable in time one of the rounds says that it changed nothing. -/
theorem Rounds.false_mem {n : Nat} {f g : Func} {flags : List Bool} (h : standard.Rounds f flags g)
    (hlen : n < flags.length) (hf : Code.Valid f.code) (hstable : Code.StableAfter n f.code) :
    false ∈ flags := by
  induction h generalizing n with
  | none f => cases hlen
  | @more f g h changed rest hround _ ih =>
    obtain ⟨changed', hround', hchanged⟩ := round_eq hf
    cases hround.symm.trans hround'
    cases n with
    | zero =>
      rw [hchanged.mpr hstable]
      exact List.mem_cons_self
    | succ n =>
      exact List.mem_cons_of_mem changed
        (ih (Nat.lt_of_succ_lt_succ hlen) (Code.rounded_valid hf) hstable)

/-- Among the first four rounds on a verified function one changes nothing; a round says so exactly
if it leaves the code as it is; and the standard pipeline ends its work on a function by such a
round, after which another one changes nothing either. -/
theorem rounds_settle (f : Func) (hf : f.Verified) :
    (∃ flags g, standard.Rounds f flags g ∧ flags.length = 4 ∧ false ∈ flags) ∧
      (∃ g changed, standard.round f = .ok (g, .ok changed) ∧ (changed = false ↔ g.code = f.code)) ∧
      ∃ g h changed n, Pass.runAll standard.setup f = .ok (g, .ok changed) ∧ n < 4 ∧
        standard.Rounds g (List.replicate n true ++ [false]) h ∧
        standard.runFunc f = .ok (h, .ok ()) ∧
        standard.round h = .ok (h, .ok false) := by
  have hv := Func.verified_iff.mp hf
  refine ⟨?_, ?_, ?_⟩
  · obtain ⟨flags, g, hrounds, hlen⟩ := exists_rounds 4 hv
    exact ⟨flags, g, hrounds, hlen,
      hrounds.false_mem (n := 3) (by omega) hv (Code.stableAfter_three hv)⟩
  · obtain ⟨changed, hround, hchanged⟩ := round_eq hv
    exact ⟨_, changed, hround, hchanged⟩
  · obtain ⟨c, changed, hsetup, hc, _⟩ := Pass.runAll_takes (S := fun _ _ => True)
      (fun _ => trivial) (fun _ _ => trivial) (fun p hp => Pass.takes_of_mem_setup hp) hv
    have hlimit : 3 < standard.roundLimit := by decide
    obtain ⟨n, h, hn, hrounds, hloop, hvalid, hstable⟩ :=
      rounds_of_stableAfter hlimit (f := { f with code := c }) hc (Code.stableAfter_three hc)
    refine ⟨_, h, changed, n, hsetup, Nat.lt_succ_of_le hn, hrounds, ?_,
      round_of_stable hvalid hstable⟩
    rw [runFunc, hsetup]
    exact hloop

theorem rounds_settle_countdown : Func.countdown.Verified ∧
    (∃ flags g, standard.Rounds Func.countdown flags g ∧ flags.length = 4 ∧ false ∈ flags) ∧
      ∃ h, standard.runFunc Func.countdown = .ok (h, .ok ()) ∧
        standard.round h = .ok (h, .ok false) := by
  have hverified : Func.countdown.Verified := rfl
  obtain ⟨hfour, _, _, h, _, _, _, _, _, hrun, hround⟩ := rounds_settle Func.countdown hverified
  exact ⟨hverified, hfour, h, hrun, hround⟩

end Pipeline

end ThreeAddress
