import ThreeAddress.Proofs.LoweredTemps
import ThreeAddress.Proofs.PipelineBehaviour
import ThreeAddress.Proofs.Steps

/-!
# Temporaries are set before they are read

On no path through lowered code, or through what the standard pipeline makes of it, is a temporary
read that was not set before (`Session.lowerFunc_setsTemps`). For the pipeline, whatever control may
come to in the new code it may come to in the old code, up to instructions that set nothing the new
code reads. Folding a comparison into a branch drops a definition without asking who else reads it,
and keeps this only because lowered code reads no temporary twice.
-/

namespace ThreeAddress
set_option autoImplicit false

namespace Opcode

theorem isTerminator_of_isDefinition {op : Opcode} (h : op.isDefinition = true) :
    op.isTerminator = false := by
  cases op <;> first | rfl | cases h

theorem isTerminator_of_test {b : Opcode} (hb : b = .brz ∨ b = .bnz) : b.isTerminator = false := by
  rcases hb with rfl | rfl <;> rfl

end Opcode

@[simp] theorem RegKey.temp_renumber (order : List Int) (k : RegKey) :
    (k.renumber order).temp = k.temp := by
  unfold RegKey.renumber
  split
  · exact Eq.symm ‹_›
  · rfl

namespace Instr

theorem reads_subset_keys (x : Instr) : x.reads ⊆ x.keys := by
  unfold reads
  split
  · exact ((List.drop_sublist 1 x.args).filterMap _).subset
  · exact List.Subset.refl _

theorem reads_renumber (order : List Int) (x : Instr) :
    (x.renumber order).reads = x.reads.map (RegKey.renumber order) := by
  rw [reads, reads, op_renumber, ← filterMap_keyAt?_renumber]
  congr 1
  split
  · exact List.map_drop.symm
  · rfl

theorem Sets.renumber {x : Instr} {k : RegKey} (h : x.Sets k) (order : List Int) :
    (x.renumber order).Sets (k.renumber order) := by
  obtain ⟨hdef, hkey⟩ := sets_iff.mp h
  rw [sets_iff, op_renumber, operand?_renumber, Operand.keyAt?_renumber, hkey]
  exact ⟨hdef, rfl⟩

section
variable {land : Label → Label} (x : Instr)

theorem reads_retarget : (x.retarget land).reads = x.reads := by
  rcases goal_cases x with hx | ⟨op, l, more, hop, rfl⟩
  · rw [retarget_of_none hx]
  · rw [retarget_of_goal? hop, reads, reads]
    simp only [Opcode.isDefinition_of_isBranch hop]
    rfl

theorem sets_retarget {k : RegKey} : (x.retarget land).Sets k ↔ x.Sets k := by
  rcases goal_cases x with hx | ⟨op, l, more, hop, rfl⟩
  · rw [retarget_of_none hx]
  · rw [retarget_of_goal? hop]
    exact iff_of_false (not_sets (Opcode.isDefinition_of_isBranch hop))
      (not_sets (Opcode.isDefinition_of_isBranch hop))

end

end Instr

namespace Code
variable {old new : Code} {k : RegKey}

theorem reads_subset_regKeys (code : Code) : code.reads ⊆ code.regKeys := by
  rw [regKeys_eq]
  intro k hk
  obtain ⟨x, hx, hkx⟩ := List.mem_flatMap.mp hk
  exact List.mem_flatMap.mpr ⟨x, hx, x.reads_subset_keys hkx⟩

/-- From the first instruction on every temporary is set before it is read. -/
def TempsFirst (code : Code) : Prop := ∀ k, k.temp = true → code.SetFirst k code

theorem tempsFirst_of_reads (h : ∀ k ∈ new.reads, k.temp = true → new.SetFirst k new) :
    new.TempsFirst := by
  intro k hk
  by_cases hmem : k ∈ new.reads
  · exact h k hmem hk
  · exact fun n => .of_not_mem hmem List.suffix_rfl

section Rewriting
variable {folding : Prop} {apart : Reg → Operand → Prop} {live : List RegKey}
  {q q' : Code} {n : Nat}

theorem mem_filterMap_of_head {u : Option Operand} {more : List (Option Operand)}
    (h : k ∈ [u].filterMap Operand.keyAt?) : k ∈ (u :: more).filterMap Operand.keyAt? :=
  ((List.singleton_sublist.mpr List.mem_cons_self).filterMap _).subset h

theorem SetFirst.test {b b' : Opcode} {l : Label} {a a' : Option Operand} (hb : b = .brz ∨ b = .bnz)
    (hb' : b' = .brz ∨ b' = .bnz) (hold : old.SetFirst k (⟨b, [some (.label l), a]⟩ :: q))
    (hseek : ∀ l, old.SetFirst k (old.seek l) → new.SetWithin k n (new.seek l))
    (hq : old.SetFirst k q → new.SetWithin k n q') (ha : k ∉ [a'].filterMap Operand.keyAt?) :
    new.SetWithin k (n + 1) (⟨b', [some (.label l), a']⟩ :: q') := by
  have hset : ¬ Instr.Sets ⟨b, [some (.label l), a]⟩ k :=
    Instr.not_sets (Opcode.isDefinition_of_isBranch (Opcode.isBranch_iff.mpr (.inr hb)))
  refine ⟨by rwa [Instr.reads_test hb'],
    fun _ => ⟨fun _ => hq (hold.next hset (Opcode.isTerminator_of_test hb)), ?_⟩⟩
  intro m hm
  rw [Instr.goal?_test hb'] at hm
  cases hm
  exact hseek l (hold.jump hset (Instr.goal?_test hb l a))

/-- No rule loses the definition of a register that is still read. A piece that is dropped takes no
step, so that what comes after it has to do for all of them. -/
theorem SetFirst.rule {a b : Code} (hab : Rule folding (fun _ j => j ∉ live) apart a b)
    (hk : k ∈ live) (hold : old.SetFirst k (a ++ q))
    (hseek : ∀ l, old.SetFirst k (old.seek l) → new.SetWithin k n (new.seek l))
    (hq : old.SetFirst k q → new.SetWithin k n q')
    (hdrop : old.SetFirst k q → new.SetWithin k (n + 1) q') :
    new.SetWithin k (n + 1) (b ++ q') := by
  have hgone {r : Reg} (hr : r.key ∉ live) : r.key ≠ k := fun heq => hr (heq ▸ hk)
  cases hab with
  | keep x =>
    exact ⟨hold.not_mem_reads,
      fun hx => ⟨fun hlive => hq (hold.next hx hlive), fun l hl => hseek l (hold.jump hx hl)⟩⟩
  | nop hx => exact hdrop (hold.next (Instr.not_sets (by rw [hx]; rfl)) (by rw [hx]; rfl))
  | unread hd _ hr =>
    exact hdrop
      (hold.next (mt (Instr.sets_into hd).mp (hgone hr)) (Opcode.isTerminator_of_isDefinition hd))
  | forward hd hs hr =>
    have hreads := hold.not_mem_reads
    have hmov :=
      hold.next (mt (Instr.sets_into hd).mp (hgone hr)) (Opcode.isTerminator_of_isDefinition hd)
    rw [Instr.reads_cons hd] at hreads
    refine ⟨by rwa [Instr.reads_cons hd], fun hz => ⟨fun _ => hq (hmov.next ?_ rfl), ?_⟩⟩
    · rwa [Instr.sets_into rfl, ← Instr.sets_into hd]
    · rw [Instr.goal?_definition hd]
      nofun
  | foldDrop _ hf hm _ _ hr =>
    obtain ⟨hb, hb'⟩ := Opcode.folded?_eq_some hf
    have hd := Opcode.isDefinition_of_folds hm
    have hreads := hold.not_mem_reads
    rw [Instr.reads_cons hd] at hreads
    have hnext :=
      hold.next (mt (Instr.sets_into hd).mp (hgone hr)) (Opcode.isTerminator_of_isDefinition hd)
    exact hnext.test hb hb' hseek hq (mt mem_filterMap_of_head hreads)
  | foldKeep _ hf hm =>
    obtain ⟨hb, hb'⟩ := Opcode.folded?_eq_some hf
    have hd := Opcode.isDefinition_of_folds hm
    have hreads := hold.not_mem_reads
    refine ⟨hreads, fun hx => ⟨fun hlive => ?_, ?_⟩⟩
    · rw [Instr.reads_cons hd] at hreads
      exact ((hold.next hx hlive).test hb hb' hseek hq (mt mem_filterMap_of_head hreads)).of_succ
    · rw [Instr.goal?_definition hd]
      nofun
  | source =>
    have hreads := hold.not_mem_reads
    refine ⟨hreads, fun hx => ⟨fun hlive => ?_, nofun⟩⟩
    exact ((hold.next hx hlive).test (.inl rfl) (.inl rfl) hseek hq hreads).of_succ

theorem Rewrites.setWithin (h : Rewrites (Rule folding (fun _ j => j ∉ live) apart) old new)
    (hk : k ∈ live) {p p' : Code} (hp : Rewrites (Rule folding (fun _ j => j ∉ live) apart) p p')
    (hold : old.SetFirst k p) : new.SetWithin k n p' := by
  induction n generalizing p p' with
  | zero => trivial
  | succ n ih =>
    induction hp with
    | nil => exact setWithin_nil
    | piece hab hq ihq =>
      exact hold.rule hab hk (fun l => ih (h.seek Rule.sameLabels l)) (ih hq) ihq

theorem Rewrites.tempsFirst (h : Rewrites (Rule folding (fun _ k => k ∉ new.reads) apart) old new)
    (hold : old.TempsFirst) : new.TempsFirst :=
  tempsFirst_of_reads fun k hk htemp _ => h.setWithin hk h (hold k htemp)

end Rewriting

section Renumbering
variable {order : List Int} {code rest : Code} {n : Nat}

theorem reads_renumber (order : List Int) (code : Code) :
    reads (code.map (Instr.renumber order)) = code.reads.map (RegKey.renumber order) := by
  rw [reads, reads, List.flatMap_map, List.map_flatMap]
  exact congrArg (List.flatMap · code) (funext (Instr.reads_renumber order))

theorem SetWithin.renumber (hk : k.temp = true → k.index ∈ order) (h : code.SetWithin k n rest) :
    SetWithin (code.map (Instr.renumber order)) (k.renumber order) n
      (rest.map (Instr.renumber order)) := by
  induction n generalizing rest with
  | zero => trivial
  | succ n ih =>
    cases rest with
    | nil => trivial
    | cons x rest =>
      obtain ⟨hreads, hgo⟩ := h
      refine ⟨fun hmem => ?_, fun hset => ?_⟩
      · rw [Instr.reads_renumber] at hmem
        obtain ⟨j, hj, heq⟩ := List.mem_map.mp hmem
        exact hreads (RegKey.renumber_inj hk heq.symm ▸ hj)
      · obtain ⟨hnext, hjump⟩ := hgo fun hx => hset (hx.renumber order)
        refine ⟨fun hlive => ih (hnext hlive), fun l hl => ?_⟩
        rw [Instr.goal?_renumber] at hl
        rw [seek_renumber]
        exact ih (hjump l hl)

theorem renumberTemps_tempsFirst (h : code.TempsFirst) : code.renumberTemps.code.TempsFirst := by
  apply tempsFirst_of_reads
  intro j hj htemp n
  rw [code_renumberTemps, reads_renumber] at hj
  rw [code_renumberTemps]
  obtain ⟨k, hk, rfl⟩ := List.mem_map.mp hj
  rw [RegKey.temp_renumber] at htemp
  exact (h k htemp n).renumber fun _ => index_mem_temps (reads_subset_regKeys code hk) htemp

end Renumbering

section Jumps
variable {code rest : Code} {land : Label → Label} {n : Nat} {l m : Label}

theorem SetFirst.leads (hv : Valid code) (hl : l ∈ code.labels) (h : code.SetFirst k (code.seek l))
    (hm : code.Leads l m) :
    code.SetFirst k (code.seek m) := by
  induction hm with
  | refl => exact h
  | @tail j i hj hji ih =>
    obtain ⟨x, rest, hseek, hlabel, hsuffix⟩ := exists_seek (Leads.mem_labels hv hl hj)
    have hop := Instr.op_eq_of_label? hlabel
    rw [next?, hseek] at hji
    rw [hseek] at ih
    replace ih := ih.next (Instr.not_sets (by rw [hop]; rfl)) (by rw [hop]; rfl)
    cases rest with
    | nil => cases hji
    | cons y rest =>
      rw [ahead?_cons_cons] at hji
      split at hji
      · rename_i hyop
        rcases hyop with hyop | hyop
        · refine ih.jump (Instr.not_sets (by rw [hyop]; rfl)) ?_
          rw [Instr.goal?, if_pos (by rw [hyop]; rfl), hji]
        · have hy : y.label? = some i := by rw [Instr.label?, if_pos hyop, hji]
          rwa [seek_of_suffix hv.nodup ((List.suffix_cons x (y :: rest)).trans hsuffix) hy]
      · cases hji

theorem SetFirst.threadBy (hv : Valid code) (hland : ∀ l ∈ code.labels, code.Leads l (land l))
    (hrest : rest <:+ code) (h : code.SetFirst k rest) :
    (code.threadBy land).SetWithin k n (rest.threadBy land) := by
  induction n generalizing rest with
  | zero => trivial
  | succ n ih =>
    induction rest with
    | nil => trivial
    | cons x rest ihrest =>
      have htail := (List.suffix_cons x rest).trans hrest
      cases hskip : x.skips rest with
      | true =>
        obtain ⟨l, y, more, hop, hgoal, rfl, hy⟩ := Instr.skips_iff.mp hskip
        have hnext := h.jump (Instr.not_sets (by rw [hop]; rfl)) hgoal
        rw [seek_of_suffix hv.nodup htail hy] at hnext
        rw [threadBy_of_skips hskip]
        exact ihrest htail hnext
      | false =>
        rw [threadBy_of_not hskip]
        refine ⟨by rw [Instr.reads_retarget]; exact h.not_mem_reads, fun hset => ?_⟩
        rw [Instr.sets_retarget] at hset
        refine ⟨fun hlive => ih htail (h.next hset (by rwa [Instr.op_retarget] at hlive)),
          fun m hm => ?_⟩
        rw [Instr.goal?_retarget] at hm
        obtain ⟨l, hl, rfl⟩ := Option.map_eq_some_iff.mp hm
        have hmem : l ∈ code.labels :=
          hv.resolved l (List.mem_filterMap.mpr ⟨x, hrest.subset List.mem_cons_self, hl⟩)
        rw [seek_threadBy]
        exact ih (code.seek_suffix _) ((h.jump hset hl).leads hv hmem (hland l hmem))

theorem threaded_tempsFirst (hv : Valid code) (h : code.TempsFirst) : code.threaded.TempsFirst :=
  fun k hk _ => (h k hk).threadBy hv (fun _ hl => (landing_eq hv hl).2.leads) List.suffix_rfl

theorem SetFirst.reachableFrom (h : code.SetFirst k rest) :
    (code.reachableFrom false).SetWithin k n (rest.reachableFrom false) := by
  induction n generalizing rest with
  | zero => trivial
  | succ n ih =>
    cases rest with
    | nil => trivial
    | cons x rest =>
      rw [reachableFrom_keep Bool.noConfusion]
      refine ⟨h.not_mem_reads, fun hset => ⟨fun hlive => ?_, fun l hl => ?_⟩⟩
      · rw [hlive]
        exact ih (h.next hset hlive)
      · rw [seek_reachableFrom]
        exact ih (h.jump hset hl)

end Jumps

theorem Step.tempsFirst (hv : Valid old) (h : Step old new) (hold : old.TempsFirst) :
    new.TempsFirst := by
  cases h with
  | renumber => exact renumberTemps_tempsFirst hold
  | tidy h => exact h.tempsFirst hold
  | thread => exact threaded_tempsFirst hv hold
  | prune => exact fun k hk _ => (hold k hk).reachableFrom

end Code

theorem Decl.tempsFirst_of_lower {d : Decl} {s : Session} {f : Func} {fin : Frame}
    (h : d.lower ⟨s, 0, []⟩ = .ok (.ok f) fin) : f.code.TempsFirst := by
  intro k hk
  have hnodup := (Decl.valid_of_lower h).nodup
  obtain ⟨ps, s₁, c, hdeclare, hbody, rfl⟩ := Decl.lower_eq_ok h
  have hstart : Frame.Numbered ⟨s, 0, []⟩ := fun i p hp => by cases hp
  exact hbody.setFirst hnodup hk ((declare_eq_ok hdeclare).1.numbered hstart)

/-- Neither in lowered code nor in what the standard pipeline makes of it does a path read a
temporary before it has set it, whichever way its branches go. -/
theorem Session.lowerFunc_setsTemps {s s' : Session} {d : Decl} {f : Func}
    (h : s.lowerFunc d = .ok (.ok f, s')) :
    f.code.SetsTemps ∧ ∃ g, Pipeline.standard.runFunc f = .ok (g, .ok ()) ∧ g.code.SetsTemps := by
  obtain ⟨hf, fin, hlower, _⟩ := lowerFunc_eq_ok h
  have hv := Func.verified_iff.mp hf
  have htemps := Decl.tempsFirst_of_lower hlower
  refine ⟨Code.setsTemps_of_setFirst hv.nodup htemps, ?_⟩
  obtain ⟨c, changed, r, hsetup, hc, hfolds, htrims⟩ :=
    Pipeline.setup_of_readOnce hv (readOnce_of_lower hlower)
  have hnops := f.code.dropNops_trims.tidies.tempsFirst htemps
  have hsetupTemps : c.TempsFirst := htrims.tidies.tempsFirst (hfolds.tempsFirst hnops)
  obtain ⟨g, hg, hsteps, hvalid, _⟩ := Pipeline.runFunc_steps hsetup hc
  exact ⟨g, hg,
    Code.setsTemps_of_setFirst hvalid.nodup (hsteps.keeps Code.Step.tempsFirst hc hsetupTemps)⟩

theorem Session.lowerFunc_setsTemps_drain :
    ∃ f s', Session.empty.lowerFunc .drain = .ok (.ok f, s') ∧ f.code.SetsTemps ∧
      ∃ g, Pipeline.standard.runFunc f = .ok (g, .ok ()) ∧ g.code.SetsTemps := by
  obtain ⟨f, s', h⟩ := exists_lowerFunc_drain
  exact ⟨f, s', h, lowerFunc_setsTemps h⟩

end ThreeAddress
