import ThreeAddress.Proofs.Rounds

/-!
# The steps of the standard pipeline

`Code.Step` lists what a repeated pass can do to code. Whatever one step keeps is kept by all rounds
(`Code.Steps.keeps`), and the standard pipeline leaves code to which no step applies any more
(`Pipeline.runFunc_steps`, `Code.fixed_of_rounded`).
-/

namespace ThreeAddress
set_option autoImplicit false

namespace Code

inductive Step : Code → Code → Prop where
  | renumber (code : Code) : Step code code.renumberTemps.code
  | tidy {old new : Code} : Tidies old new → Step old new
  | thread (code : Code) : Step code code.threaded
  | prune (code : Code) : Step code code.pruneUnreachable.code

def Steps : Code → Code → Prop := Relation.ReflTransGen Step

theorem Step.valid {old new : Code} (h : Step old new) (hv : Valid old) : Valid new := by
  cases h with
  | renumber => exact renumberTemps_valid hv
  | tidy h => exact h.valid hv
  | thread => exact threaded_valid hv
  | prune => exact pruneUnreachable_valid hv

theorem Steps.keeps {I : Code → Prop} (hI : ∀ {old new}, Valid old → Step old new → I old → I new)
    {old new : Code} (h : Steps old new) (hv : Valid old) (hold : I old) : I new := by
  suffices hboth : Valid new ∧ I new from hboth.2
  induction h with
  | refl => exact ⟨hv, hold⟩
  | tail _ hstep ih =>
    obtain ⟨hvalid, hi⟩ := ih
    exact ⟨hstep.valid hvalid, hI hvalid hstep hi⟩

/-- On code that a round leaves as it is, no step of the round does anything. -/
theorem fixed_of_rounded {code : Code} (hv : Valid code) (h : code.rounded = code) :
    code.temps = (List.range code.temps.length).map Int.ofNat ∧ Settled code.occurrences code ∧
      code.threaded = code ∧ Flows false code := by
  have hr := renumberTemps_valid hv
  obtain ⟨s, _, _, hsettled, hsame, hless⟩ := settled_spec hr.wellFormed
  obtain ⟨t, _, ht⟩ := threadJumps_eq (settled_valid hr)
  have hflags := (Pipeline.flags_of_rounded hv hsame hless ht).mpr h
  rw [Bool.or_eq_false_iff, Bool.or_eq_false_iff, Bool.or_eq_false_iff] at hflags
  obtain ⟨hchanged, hs, htf, _⟩ := hflags
  have htemps := renumberTemps_changed.mp hchanged
  have hcode : code.renumberTemps.code = code :=
    congrArg Simplified.code (renumberTemps_eq_self htemps)
  have hstill : code.settled = code := by
    have hstill := hsame hs
    rwa [hcode] at hstill
  have hthread : code.threaded = code := by
    have hthread := ht.mp htf
    rwa [hcode, hstill] at hthread
  rw [hcode, hstill] at hsettled
  refine ⟨htemps, hsettled, hthread, ?_⟩
  have hflows := flows_rounded code
  rwa [h] at hflows

end Code

theorem Pass.takes_steps {p : Pass (Except Fault)} (hp : p ∈ Pipeline.standard.iter) :
    p.Takes Code.Steps := by
  simp only [Pipeline.standard, List.mem_cons, List.not_mem_nil, or_false] at hp
  rcases hp with rfl | rfl | rfl | rfl
  · apply takes_ofStep
    intro c hc
    exact ⟨_, rfl, Code.renumberTemps_valid hc, .single (.renumber c)⟩
  · apply takes_ofStep_lift
    intro c hc
    obtain ⟨r, hr, htidies, _⟩ := Code.settle_spec hc.wellFormed
    exact ⟨r, hr, (Code.refines_of_tidies htidies hc).1,
      Relation.ReflTransGen.mono (fun _ _ => .tidy) _ _ htidies⟩
  · apply takes_ofStep
    intro c hc
    obtain ⟨b, hb, _⟩ := Code.threadJumps_eq hc
    exact ⟨_, hb, Code.threaded_valid hc, .single (.thread c)⟩
  · apply takes_ofStep
    intro c hc
    exact ⟨_, rfl, Code.pruneUnreachable_valid hc, .single (.prune c)⟩

namespace Pipeline
variable {f : Func}

/-- After the preparation the pipeline takes steps until a round changes nothing. -/
theorem runFunc_steps {c : Code} {changed : Bool}
    (hsetup : Pass.runAll standard.setup f = .ok ({ f with code := c }, .ok changed))
    (hc : Code.Valid c) :
    ∃ g, standard.runFunc f = .ok (g, .ok ()) ∧ Code.Steps c g.code ∧ Code.Valid g.code ∧
      g.code.rounded = g.code := by
  have hlimit : 3 < standard.roundLimit := by decide
  -- the same rounds, once as they come to rest and once as a sequence of steps
  obtain ⟨_, g, _, _, hloop, hvalid, hstable⟩ :=
    rounds_of_stableAfter hlimit (f := { f with code := c }) hc (Code.stableAfter_three hc)
  obtain ⟨d, hrounds, _, hsteps⟩ := rounds_takes (S := Code.Steps) (fun _ => .refl) (fun h h' =>
    h.trans h') (fun p hp => Pass.takes_steps hp) standard.roundLimit (f := { f with code := c }) hc
  cases hloop.symm.trans hrounds
  refine ⟨_, ?_, hsteps, hvalid, hstable⟩
  rw [runFunc, hsetup]
  exact hloop

end Pipeline

end ThreeAddress
