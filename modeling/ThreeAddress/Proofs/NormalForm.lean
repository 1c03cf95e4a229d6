import ThreeAddress.Proofs.Steps

/-!
# The normal form of simplified code

The standard pipeline leaves code in normal form: there are no marks, no jumps to the next
instruction, no dead code, no results that are unread or only moved on, and no branches to jumps;
and temporaries are numbered as they appear (`Pipeline.runFunc_normal`). Marks are dropped once and
none comes back. All else holds because the last round has found nothing to do.
-/

namespace ThreeAddress
set_option autoImplicit false

namespace Code

/-- There are no marks in the code. -/
def Unmarked (code : Code) : Prop := ∀ x ∈ code, x.op ≠ .nop

structure Normal (code : Code) : Prop where
  unmarked : code.Unmarked
  no_skip : ∀ l, ¬ [Instr.jump l, Instr.defineLabel l] <:+: code
  no_dead : ∀ x y, [x, y] <:+: code → x.op = .br ∨ x.op = .ret → y.op = .label
  temps_eq : ∃ k, code.temps = (List.range k).map Int.ofNat
  /-- The register that a result goes to stands at some other place, unless the result is that of a
  call. -/
  no_unread : ∀ x ∈ code, x.op ≠ .call → ∀ r, x.dst? = some r → code.occurrences r.key ≠ 1
  /-- A register that is moved on at once stands at some third place. -/
  no_movedOn : ∀ x z s, [x, .make .mov [.reg z, .reg s]] <:+: code →
    ∀ r, x.dst? = some r → r.key = s.key → code.occurrences r.key ≠ 2
  /-- A branch goes to a label after which there is something to do, unless there is nothing to do
  for ever. -/
  no_detour : ∀ l ∈ code.targets, l ∈ code.labels ∧
    ((∀ y, [Instr.defineLabel l, y] <:+: code → y.op ≠ .br ∧ y.op ≠ .label) ∨ code.Revisits l)

section
variable {code old new : Code} {x y : Instr}

theorem exists_suffix_of_pair (h : [x, y] <:+: code) : ∃ rest, x :: y :: rest <:+ code := by
  obtain ⟨before, rest, rfl⟩ := h
  exact ⟨rest, before, by simp⟩

theorem unmarked_dropNops (code : Code) : Unmarked code.dropNops.code := by
  intro x hx
  simpa using (List.mem_filter.mp hx).2

theorem Unmarked.rule {folding : Prop} {gone : Code → RegKey → Prop} {apart : Reg → Operand → Prop}
    (h : Rule folding gone apart old new) (hold : Unmarked old) : Unmarked new := by
  have hdef {op : Opcode} (hop : op.isDefinition = true) : op ≠ .nop := by
    rintro rfl
    cases hop
  have htest {op : Opcode} (hop : op = .brz ∨ op = .bnz) : op ≠ .nop := by
    rcases hop with rfl | rfl <;> exact Opcode.noConfusion
  cases h with
  | keep => exact hold
  | nop | unread => exact List.forall_mem_nil _
  | forward hd => simp [Unmarked, hdef hd]
  | foldDrop _ hf => simp [Unmarked, htest (Opcode.folded?_eq_some hf).2]
  | foldKeep _ hf hm =>
    simp [Unmarked, hdef (Opcode.isDefinition_of_folds hm), htest (Opcode.folded?_eq_some hf).2]
  | source => simp [Unmarked]

theorem Unmarked.rewrites {folding : Prop} {gone : Code → RegKey → Prop}
    {apart : Reg → Operand → Prop} (h : Rewrites (Rule folding gone apart) old new)
    (hold : Unmarked old) : Unmarked new := by
  induction h with
  | nil => exact hold
  | piece hab _ ih =>
    obtain ⟨ha, hold⟩ := List.forall_mem_append.mp hold
    exact List.forall_mem_append.mpr ⟨Unmarked.rule hab ha, ih hold⟩

theorem Unmarked.step (h : Step old new) (hold : Unmarked old) : Unmarked new := by
  cases h with
  | renumber =>
    rw [code_renumberTemps]
    exact List.forall_mem_map.mpr hold
  | tidy h => exact hold.rewrites h
  | thread =>
    intro y hy
    obtain ⟨x, hx, rfl⟩ := exists_of_mem_threadBy hy
    rw [Instr.op_retarget]
    exact hold x hx
  | prune => exact fun x hx => hold x ((reachableFrom_sublist false old).subset hx)

theorem Flows.of_suffix {dead : Bool} {rest : Code} (h : Flows dead code)
    (hsuffix : rest <:+ code) :
    ∃ dead', Flows dead' rest := by
  induction code generalizing dead with
  | nil =>
    cases List.suffix_nil.mp hsuffix
    exact ⟨dead, h⟩
  | cons x code ih =>
    rcases List.suffix_cons_iff.mp hsuffix with rfl | hsuffix
    · exact ⟨dead, h⟩
    · exact ih h.2 hsuffix

theorem threadBy_eq_self_of_suffix {land : Label → Label} {rest : Code}
    (h : threadBy land code = code) (hsuffix : rest <:+ code) : threadBy land rest = rest := by
  induction code with
  | nil =>
    cases List.suffix_nil.mp hsuffix
    exact h
  | cons x code ih =>
    rcases List.suffix_cons_iff.mp hsuffix with rfl | hsuffix
    · exact h
    · exact ih (threadBy_cons_eq_self_iff.mp h).2.2 hsuffix

theorem Flows.label_of_pair {dead : Bool} (h : Flows dead code) (hpair : [x, y] <:+: code)
    (hx : x.op = .br ∨ x.op = .ret) : y.op = .label := by
  obtain ⟨rest, hsuffix⟩ := exists_suffix_of_pair hpair
  obtain ⟨_, hflows⟩ := h.of_suffix hsuffix
  exact hflows.2.1 (Opcode.isTerminator_iff.mpr hx)

theorem not_skip_of_threaded {land : Label → Label} (h : threadBy land code = code) (l : Label) :
    ¬ [Instr.jump l, Instr.defineLabel l] <:+: code := by
  intro hpair
  obtain ⟨rest, hsuffix⟩ := exists_suffix_of_pair hpair
  have hskips := (threadBy_cons_eq_self_iff.mp (threadBy_eq_self_of_suffix h hsuffix)).1
  rw [Instr.skips_iff.mpr ⟨l, _, rest, rfl, rfl, rfl, rfl⟩] at hskips
  cases hskips

theorem land_eq_of_threaded {land : Label → Label} (h : threadBy land code = code) {l : Label}
    (hl : l ∈ code.targets) : land l = l := by
  obtain ⟨x, hx, hgoal⟩ := List.mem_filterMap.mp hl
  obtain ⟨before, rest, rfl⟩ := List.append_of_mem hx
  have hfix := threadBy_eq_self_of_suffix h (List.suffix_append before (x :: rest))
  exact Instr.retarget_eq_self_iff.mp (threadBy_cons_eq_self_iff.mp hfix).2.1 l hgoal

theorem ops_of_next?_eq_none (hv : Valid code) {l : Label} (h : code.next? l = none)
    (hpair : [Instr.defineLabel l, y] <:+: code) : y.op ≠ .br ∧ y.op ≠ .label := by
  obtain ⟨rest, hsuffix⟩ := exists_suffix_of_pair hpair
  have hy : y ∈ code := hpair.subset (List.mem_cons_of_mem _ List.mem_cons_self)
  rw [next?, seek_of_suffix hv.nodup hsuffix rfl, ahead?_cons_cons] at h
  have hnot : ¬ (y.op = .br ∨ y.op = .label) := by
    intro hop
    have hbranch : y.op.isBranch ∨ y.op = .label := hop.imp_left fun hbr => by rw [hbr]; rfl
    obtain ⟨m, _, _, hm⟩ := (hv.wellFormed y hy).exists_target hbranch
    rw [if_pos hop, hm] at h
    cases h
  exact not_or.mp hnot

theorem normal_of_rounded (hv : Valid code) (h : code.rounded = code) (hunmarked : Unmarked code) :
    Normal code := by
  obtain ⟨htemps, hsettled, hthreaded, hflows⟩ := fixed_of_rounded hv h
  exact {
    unmarked := hunmarked
    no_skip := not_skip_of_threaded hthreaded
    no_dead := fun x y => hflows.label_of_pair
    temps_eq := ⟨_, htemps⟩
    no_unread := by
      intro x hx hcall r hr huses
      obtain ⟨op, rest, hop, rfl⟩ := Instr.dst?_eq_some_iff.mp hr
      have hunread := Instr.isUnread_iff.mpr
        ⟨op, r, rest, hop, hcall, Nat.lt_succ_of_le (Nat.le_of_eq huses), rfl⟩
      rw [hsettled.read _ hx] at hunread
      cases hunread
    no_movedOn := by
      intro x z s hpair r hr hs huses
      obtain ⟨op, rest, hop, rfl⟩ := Instr.dst?_eq_some_iff.mp hr
      have hchain := hsettled.moved.infix hpair
      exact (List.isChain_cons_cons.mp hchain).1 ⟨hop, hs.symm, huses⟩
    no_detour := by
      intro l hl
      have hdefined := hv.resolved l hl
      have hlands := (landing_eq hv hdefined).2
      rw [land_eq_of_threaded hthreaded hl] at hlands
      refine ⟨hdefined, ?_⟩
      rcases hlands with ⟨_, hend⟩ | ⟨_, hends⟩
      · exact .inl fun y => ops_of_next?_eq_none hv hend
      · exact .inr (revisits_of_not_ends hends) }

end

end Code

namespace Pipeline

/-- The standard pipeline goes through on every verified function and leaves its code in normal
form. -/
theorem runFunc_normal (f : Func) (hf : f.Verified) :
    ∃ g, standard.runFunc f = .ok (g, .ok ()) ∧ g.code.Normal := by
  have hv := Func.verified_iff.mp hf
  have hdropped := (f.code.dropNops_trims.valid hv).wellFormed
  obtain ⟨r, hr, hfolds⟩ := Code.foldTests_rewrites hdropped
  obtain ⟨c, changed, hsetup, hc, htrims⟩ := setup_of_folds hv hr hfolds
  obtain ⟨g, hrun, hsteps, hvalid, hrounded⟩ := runFunc_steps hsetup hc
  have hunmarked : Code.Unmarked c :=
    ((Code.unmarked_dropNops f.code).rewrites hfolds).rewrites htrims
  refine ⟨g, hrun, Code.normal_of_rounded hvalid hrounded ?_⟩
  exact hsteps.keeps (fun _ hstep h => Code.Unmarked.step hstep h) hc hunmarked

theorem runFunc_normal_countdown : Func.countdown.Verified ∧
    ∃ g, standard.runFunc Func.countdown = .ok (g, .ok ()) ∧ g.code.Normal := by
  have hverified : Func.countdown.Verified := rfl
  exact ⟨hverified, runFunc_normal Func.countdown hverified⟩

end Pipeline

end ThreeAddress
