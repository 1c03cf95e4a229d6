import ThreeAddress.Proofs.Steps

/-!
# What passes do to code

`Code.Change` lists what a pass of the library can do to valid code, be it one that prepares or one
that is repeated. What every change keeps is kept by the passes in any order (`Pass.runAll_keeps`)
and by the standard pipeline (`Pipeline.runFunc_changes`).
-/

namespace ThreeAddress
set_option autoImplicit false

namespace Code

inductive Change : Code → Code → Prop where
  /-- The rules ask for nothing here, so that the code may do something else afterwards. -/
  | rewrite {old new : Code} : Rewrites (Rule True (fun _ _ => True) fun _ _ => True) old new →
      Change old new
  | renumber (code : Code) : Change code code.renumberTemps.code
  | thread (code : Code) : Change code code.threaded
  | prune (code : Code) : Change code code.pruneUnreachable.code

def Changes : Code → Code → Prop := Relation.ReflTransGen Change

theorem Step.change {old new : Code} (h : Step old new) : Change old new := by
  cases h with
  | renumber => exact .renumber old
  | tidy h =>
    apply Change.rewrite
    apply h.imp
    intro a b hab
    exact hab.imp False.elim (fun _ _ _ _ _ _ => trivial) fun _ _ _ => trivial
  | thread => exact .thread old
  | prune => exact .prune old

theorem Change.valid {old new : Code} (h : Change old new) (hv : Valid old) : Valid new := by
  cases h with
  | rewrite h => exact h.valid hv
  | renumber => exact renumberTemps_valid hv
  | thread => exact threaded_valid hv
  | prune => exact pruneUnreachable_valid hv

theorem Changes.keeps {I : Code → Prop}
    (hI : ∀ {old new}, Valid old → Change old new → I old → I new) {old new : Code}
    (h : Changes old new) (hv : Valid old) (hold : I old) : I new := by
  suffices hboth : Valid new ∧ I new from hboth.2
  induction h with
  | refl => exact ⟨hv, hold⟩
  | tail _ hchange ih =>
    obtain ⟨hvalid, hi⟩ := ih
    exact ⟨hchange.valid hvalid, hI hvalid hchange hi⟩

end Code

namespace Pass

theorem takes_changes {p : Pass (Except Fault)} (hp : p ∈ all) : p.Takes Code.Changes := by
  have hsplit : all = Pipeline.standard.setup ++ Pipeline.standard.iter := rfl
  rw [hsplit] at hp
  rcases List.mem_append.mp hp with hp | hp
  · exact (takes_rewrites hp).imp fun h => .single (.rewrite h)
  · exact (takes_steps hp).imp fun h =>
      Relation.ReflTransGen.mono (fun _ _ hstep => hstep.change) _ _ h

theorem runAll_keeps {I : Code → Prop}
    (hI : ∀ {old new}, Code.Valid old → Code.Change old new → I old → I new)
    {ps : List (Pass (Except Fault))} (hps : ∀ p ∈ ps, p ∈ all) {f : Func} (hf : Code.Valid f.code)
    (hold : I f.code) :
    ∃ c changed, runAll ps f = .ok ({ f with code := c }, .ok changed) ∧ Code.Valid c ∧ I c := by
  obtain ⟨c, changed, hrun, hc, hchanges⟩ := runAll_takes (S := Code.Changes) (fun _ => .refl)
    (fun h h' => h.trans h') (fun p hp => takes_changes (hps p hp)) hf
  exact ⟨c, changed, hrun, hc, hchanges.keeps hI hf hold⟩

end Pass

theorem Pipeline.runFunc_changes {f : Func} (hf : Code.Valid f.code) :
    ∃ c, standard.runFunc f = .ok ({ f with code := c }, .ok ()) ∧ Code.Valid c ∧
      Code.Changes f.code c := by
  obtain ⟨c, changed, hsetup, hc, hprepared⟩ :=
    Pass.runAll_takes (S := Code.Changes) (fun _ => .refl) (fun h h' => h.trans h')
    (fun p hp => (Pass.takes_rewrites hp).imp fun h => .single (.rewrite h)) hf
  have hiter : ∀ p ∈ standard.iter, p.Takes Code.Changes := fun p hp =>
    Pass.takes_changes (List.mem_append_right standard.setup hp)
  obtain ⟨d, hrounds, hd, hrepeated⟩ := rounds_takes (S := Code.Changes) (fun _ => .refl)
    (fun h h' => h.trans h') hiter standard.roundLimit (f := { f with code := c }) hc
  refine ⟨d, ?_, hd, hprepared.trans hrepeated⟩
  rw [runFunc, hsetup]
  exact hrounds

end ThreeAddress
