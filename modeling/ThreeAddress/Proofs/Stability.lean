import ThreeAddress.Proofs.LocalSteps
import ThreeAddress.Proofs.Renumbering
import ThreeAddress.Proofs.Unreachable

/-!
# What the steps leave to each other

A step that has done its work is not undone by the others: once unreachable code is dropped there is
none to drop later (`Flows`), code that is settled stays settled under renumbering and threading
(`Settled`), renumbering and threading commute, and threading twice is as much as threading three
times (`threaded_stable`).
-/

namespace ThreeAddress
set_option autoImplicit false

namespace Code

section Flows
variable {dead : Bool} {code : Code}

theorem flows_renumberTemps (h : Flows dead code) : Flows dead code.renumberTemps.code := by
  rw [code_renumberTemps]
  generalize code.temps = order
  induction code generalizing dead with
  | nil => trivial
  | cons x rest ih => exact ⟨h.1, ih h.2⟩

/-- Straight code is neither a label nor the end of a run. -/
def Straight (code : Code) : Prop := ∀ x ∈ code, x.op ≠ .label ∧ x.op.isTerminator = false

theorem Straight.flows_iff {a : Code} (ha : Straight a) :
    Flows false (a ++ code) ↔ Flows false code := by
  induction a with
  | nil => exact Iff.rfl
  | cons x a ih =>
    obtain ⟨⟨_, hx⟩, ha⟩ := List.forall_mem_cons.mp ha
    rw [List.cons_append, Flows, hx, ih ha]
    exact ⟨fun h => h.2, fun h => ⟨Bool.noConfusion, h⟩⟩

theorem Straight.live {a : Code} (ha : Straight a) (hne : a ≠ []) (h : Flows dead (a ++ code)) :
    dead = false := by
  cases a with
  | nil => exact absurd rfl hne
  | cons x a =>
    cases dead with
    | false => rfl
    | true => exact absurd (h.1 rfl) (ha x List.mem_cons_self).1

theorem straight_definition {op : Opcode} (hop : op.isDefinition = true)
    (args : List (Option Operand)) :
    (⟨op, args⟩ : Instr).op ≠ .label ∧ (⟨op, args⟩ : Instr).op.isTerminator = false := by
  cases op with
  | mov | read | call | bin | un => exact ⟨Opcode.noConfusion, rfl⟩
  | _ => cases hop

/-- A rule leaves one instruction as it is, or makes straight code of straight code. -/
theorem straight_of_rule {gone : Code → RegKey → Prop} {apart : Reg → Operand → Prop} {a b : Code}
    (h : Rule False gone apart a b) : (∃ x, a = [x] ∧ b = [x]) ∨ Straight a ∧ Straight b := by
  have hnil : Straight [] := fun x hx => absurd hx List.not_mem_nil
  cases h with
  | keep x => exact .inl ⟨x, rfl, rfl⟩
  | nop hx =>
    exact .inr ⟨List.forall_mem_singleton.mpr (by rw [hx]; exact ⟨Opcode.noConfusion, rfl⟩), hnil⟩
  | unread hd => exact .inr ⟨List.forall_mem_singleton.mpr (straight_definition hd _), hnil⟩
  | forward hd =>
    exact .inr ⟨List.forall_mem_cons.mpr ⟨straight_definition hd _,
      List.forall_mem_singleton.mpr (straight_definition rfl _)⟩,
      List.forall_mem_singleton.mpr (straight_definition hd _)⟩
  | foldDrop hf => exact hf.elim
  | foldKeep hf => exact hf.elim
  | source =>
    have hpair (a b : List (Option Operand)) : Straight [⟨.mov, a⟩, ⟨.brz, b⟩] :=
      List.forall_mem_cons.mpr ⟨straight_definition rfl _,
        List.forall_mem_singleton.mpr ⟨Opcode.noConfusion, rfl⟩⟩
    exact .inr ⟨hpair _ _, hpair _ _⟩

theorem flows_tidies {new : Code} (h : Tidies code new) (hflows : Flows dead code) :
    Flows dead new := by
  unfold Tidies at h
  generalize (fun (_ : Code) (k : RegKey) => k ∉ reads new) = gone at h
  induction h generalizing dead with
  | nil => trivial
  | @piece a b old new hab _ ih =>
    rcases straight_of_rule hab with ⟨x, rfl, rfl⟩ | ⟨ha, hb⟩
    · exact ⟨hflows.1, ih hflows.2⟩
    · have hdead := ha.live hab.nonempty hflows
      subst hdead
      exact hb.flows_iff.mpr (ih (ha.flows_iff.mp hflows))

theorem flows_threadBy {land : Label → Label} (h : Flows dead code) :
    Flows dead (threadBy land code) := by
  induction code generalizing dead with
  | nil => trivial
  | cons x rest ih =>
    cases hskip : x.skips rest with
    | true =>
      obtain ⟨_, _, _, hop, _⟩ := Instr.skips_iff.mp hskip
      rw [threadBy_of_skips hskip]
      cases dead with
      | true =>
        have hlabel := h.1 rfl
        rw [hop] at hlabel
        cases hlabel
      | false => exact (ih h.2).live
    | false =>
      rw [threadBy_of_not hskip]
      refine ⟨?_, ?_⟩
      · rw [Instr.op_retarget]
        exact h.1
      · rw [Instr.op_retarget]
        exact ih h.2

end Flows

section Settled
variable {code : Code}

theorem occurrences_renumber {order : List Int}
    (horder : ∀ k ∈ code.regKeys, k.temp = true → k.index ∈ order) (k : RegKey) :
    occurrences (code.map (Instr.renumber order)) (k.renumber order) = occurrences code k := by
  rw [occurrences, regKeys_renumber, List.count, List.countP_map, occurrences, List.count]
  apply List.countP_congr
  intro j hj
  simp only [Function.comp, beq_iff_eq]
  exact ⟨RegKey.renumber_inj (horder j hj), fun h => h ▸ rfl⟩

theorem exists_reg_of_renumber {order : List Int} {a : Option Operand} {r : Reg}
    (h : a.map (Operand.renumber order) = some (.reg r)) :
    ∃ s, a = some (.reg s) ∧ r.key = s.key.renumber order := by
  have hkey := Operand.keyAt?_renumber order a
  rw [h] at hkey
  obtain ⟨k, hk, hkr⟩ := Option.map_eq_some_iff.mp hkey.symm
  obtain ⟨s, hs, rfl⟩ := Operand.keyAt?_eq_some_iff.mp hk
  exact ⟨s, hs, hkr.symm⟩

theorem exists_of_renumber {order : List Int} {x : Instr} {op : Opcode} {r : Reg}
    {rest : List (Option Operand)} (h : x.renumber order = ⟨op, some (.reg r) :: rest⟩) :
    ∃ s more, x = ⟨op, some (.reg s) :: more⟩ ∧ r.key = s.key.renumber order ∧
      more.map (Option.map (Operand.renumber order)) = rest := by
  obtain ⟨op', args⟩ := x
  simp only [Instr.renumber_eq, Instr.mk.injEq] at h
  obtain ⟨rfl, h⟩ := h
  cases args with
  | nil => cases h
  | cons a more =>
    rw [List.map_cons, List.cons.injEq] at h
    obtain ⟨s, rfl, hs⟩ := exists_reg_of_renumber h.1
    exact ⟨s, more, rfl, hs, h.2⟩

theorem movedOn_of_renumber {order : List Int}
    (horder : ∀ k ∈ code.regKeys, k.temp = true → k.index ∈ order) {x y : Instr} (hx : x ∈ code)
    (hy : y ∈ code) (h : Instr.MovedOn (occurrences (code.map (Instr.renumber order)))
      (x.renumber order) (y.renumber order)) :
    Instr.MovedOn code.occurrences x y := by
  generalize hx' : x.renumber order = x' at h
  generalize hy' : y.renumber order = y' at h
  obtain @⟨op, r, s, z, rest, hop, hs, huses⟩ := h
  obtain ⟨r₀, rest₀, rfl, hr, _⟩ := exists_of_renumber hx'
  obtain ⟨z₀, rest₁, rfl, _, hrest⟩ := exists_of_renumber hy'
  rw [hr, occurrences_renumber horder] at huses
  obtain ⟨a, rfl, ha⟩ := List.map_eq_singleton_iff.mp hrest
  obtain ⟨s₀, rfl, hs₀⟩ := exists_reg_of_renumber ha
  refine ⟨hop, ?_, huses⟩
  have hmem : s₀.key ∈ code.regKeys := by
    rw [regKeys_eq]
    exact List.mem_flatMap.mpr ⟨_, hy, List.mem_cons_of_mem _ List.mem_cons_self⟩
  rw [hr, hs₀] at hs
  exact RegKey.renumber_inj (horder _ hmem) hs

theorem Settled.renumber (h : Settled code.occurrences code) :
    Settled (occurrences code.renumberTemps.code) code.renumberTemps.code := by
  have horder : ∀ k ∈ code.regKeys, k.temp = true → k.index ∈ code.temps :=
    fun k hk => index_mem_temps hk
  rw [code_renumberTemps]
  refine ⟨?_, ?_⟩
  · apply (List.isChain_map _).mpr
    apply List.IsChain.imp_of_mem_imp _ h.moved
    exact fun x y hx hy hnot hmoved => hnot (movedOn_of_renumber horder hx hy hmoved)
  · intro y hy
    obtain ⟨x, hx, rfl⟩ := List.mem_map.mp hy
    rw [Bool.eq_false_iff]
    intro hunread
    obtain ⟨op, r, rest, hop, hcall, huses, hxe⟩ := Instr.isUnread_iff.mp hunread
    obtain ⟨s, more, hxs, hr, _⟩ := exists_of_renumber hxe
    rw [hr, occurrences_renumber horder] at huses
    have hread := h.read x hx
    rw [Instr.isUnread_iff.mpr ⟨op, s, more, hop, hcall, huses, hxs⟩] at hread
    cases hread

theorem exists_of_mem_threadBy {land : Label → Label} {y : Instr} (hy : y ∈ threadBy land code) :
    ∃ x ∈ code, y = x.retarget land := by
  induction code with
  | nil => cases hy
  | cons x rest ih =>
    have hrest (hy : y ∈ threadBy land rest) : ∃ x' ∈ x :: rest, y = x'.retarget land := by
      obtain ⟨x', hx', heq⟩ := ih hy
      exact ⟨x', List.mem_cons_of_mem x hx', heq⟩
    cases hskip : x.skips rest with
    | true =>
      rw [threadBy_of_skips hskip] at hy
      exact hrest hy
    | false =>
      rw [threadBy_of_not hskip] at hy
      rcases List.mem_cons.mp hy with rfl | hy
      · exact ⟨x, List.mem_cons_self, rfl⟩
      · exact hrest hy

theorem eq_of_retarget_definition {land : Label → Label} {x y : Instr}
    (hop : y.op.isDefinition = true) (h : y = x.retarget land) : y = x := by
  rcases Instr.goal_cases x with hx | ⟨op, l, more, hbranch, rfl⟩
  · rw [h, Instr.retarget_of_none hx]
  · rw [h, Instr.op_retarget] at hop
    simp only at hop
    rcases Opcode.isBranch_iff.mp hbranch with rfl | rfl | rfl <;> cases hop

theorem head?_threadBy {land : Label → Label} {y : Instr} (hy : y ∈ (threadBy land code).head?) :
    (∃ x ∈ code.head?, y = x.retarget land) ∨ y.op = .label := by
  cases code with
  | nil => cases hy
  | cons x rest =>
    cases hskip : x.skips rest with
    | true =>
      obtain ⟨l, z, more, _, _, rfl, hz⟩ := Instr.skips_iff.mp hskip
      rw [threadBy_of_skips hskip, threadBy_of_not (skips_of_label? hz more)] at hy
      cases hy
      rw [Instr.op_retarget]
      exact .inr (Instr.op_eq_of_label? hz)
    | false =>
      rw [threadBy_of_not hskip] at hy
      cases hy
      exact .inl ⟨x, rfl, rfl⟩

theorem isChain_threadBy {uses : RegKey → Nat} {land : Label → Label}
    (h : code.IsChain fun x y => ¬ Instr.MovedOn uses x y) :
    (threadBy land code).IsChain fun x y => ¬ Instr.MovedOn uses x y := by
  induction code with
  | nil => exact .nil
  | cons x rest ih =>
    obtain ⟨hhead, htail⟩ := List.isChain_cons.mp h
    cases hskip : x.skips rest with
    | true =>
      rw [threadBy_of_skips hskip]
      exact ih htail
    | false =>
      rw [threadBy_of_not hskip]
      refine List.isChain_cons.mpr ⟨fun y hy hpair => ?_, ih htail⟩
      obtain ⟨hx, hmov⟩ := hpair.ops
      rcases head?_threadBy hy with ⟨y', hy', hyy'⟩ | hlabel
      · rw [eq_of_retarget_definition hx rfl,
            eq_of_retarget_definition (by rw [hmov]; rfl) hyy'] at hpair
        exact hhead y' hy' hpair
      · rw [hmov] at hlabel
        cases hlabel

theorem Settled.threadBy {uses : RegKey → Nat} {land : Label → Label} (h : Settled uses code) :
    Settled uses (threadBy land code) := by
  refine ⟨isChain_threadBy h.moved, fun y hy => ?_⟩
  rw [Bool.eq_false_iff]
  intro hunread
  obtain ⟨x, hx, hyx⟩ := exists_of_mem_threadBy hy
  obtain ⟨op, _, _, hop, _, _, hye⟩ := Instr.isUnread_iff.mp hunread
  have heq := eq_of_retarget_definition (by rw [hye]; exact hop) hyx
  have hread := h.read x hx
  rw [← heq, hunread] at hread
  cases hread

end Settled

section Threading
variable {code : Code}

def threaded (code : Code) : Code := threadBy code.land code

theorem Lands.congr {c d : Code} (h : c.next? = d.next?) {l m : Label} (hl : c.Lands l m) :
    d.Lands l m := by
  unfold Lands Ends Leads at hl ⊢
  rw [← h]
  exact hl

theorem land_eq {c d : Code} (hc : Valid c) (hd : Valid d) (hlabels : labels c = labels d)
    (hnext : c.next? = d.next?) {l : Label} (hl : l ∈ labels c) : c.land l = d.land l :=
  ((landing_eq hc hl).2.congr hnext).unique (landing_eq hd (hlabels ▸ hl)).2

theorem threadBy_congr {f g : Label → Label} (h : ∀ l ∈ targets code, f l = g l) :
    threadBy f code = threadBy g code := by
  induction code with
  | nil => rfl
  | cons x rest ih =>
    rw [targets_cons] at h
    have hrest := ih fun l hl => h l (List.mem_append_right _ hl)
    cases hskip : x.skips rest with
    | true => rw [threadBy_of_skips hskip, threadBy_of_skips hskip, hrest]
    | false =>
      have hx : x.retarget f = x.retarget g := by
        rw [Instr.retarget, Instr.retarget]
        cases hgoal : x.goal? with
        | none => rfl
        | some l =>
          have hl := h l (List.mem_append_left _ (by rw [hgoal]; exact List.mem_cons_self))
          simp only [hl]
      rw [threadBy_of_not hskip, threadBy_of_not hskip, hrest, hx]

theorem skips_renumber (order : List Int) (x : Instr) (rest : Code) :
    (x.renumber order).skips (rest.map (Instr.renumber order)) = x.skips rest := by
  cases rest with
  | nil => rfl
  | cons y rest =>
    rw [List.map_cons, Instr.skips, Instr.skips, Instr.op_renumber, Instr.goal?_renumber,
      Instr.label?_renumber]

theorem retarget_renumber (land : Label → Label) (order : List Int) (x : Instr) :
    (x.renumber order).retarget land = (x.retarget land).renumber order := by
  rcases Instr.goal_cases x with hx | ⟨op, l, more, hop, rfl⟩
  · rw [Instr.retarget_of_none hx, Instr.retarget_of_none (by rw [Instr.goal?_renumber, hx])]
  · rw [Instr.retarget_of_goal? hop]
    exact Instr.retarget_of_goal? hop

theorem threadBy_renumber (land : Label → Label) (order : List Int) (code : Code) :
    threadBy land (code.map (Instr.renumber order)) =
      (threadBy land code).map (Instr.renumber order) := by
  induction code with
  | nil => rfl
  | cons x rest ih =>
    rw [List.map_cons, threadBy, threadBy, skips_renumber, retarget_renumber, ih]
    split <;> rfl

theorem seek_renumber (order : List Int) (l : Label) (code : Code) :
    seek l (code.map (Instr.renumber order)) = (seek l code).map (Instr.renumber order) := by
  induction code with
  | nil => rfl
  | cons x rest ih =>
    rw [List.map_cons, seek_cons, seek_cons, Instr.label?_renumber, ih]
    split <;> rfl

theorem next?_renumber (order : List Int) (code : Code) :
    next? (code.map (Instr.renumber order)) = code.next? := by
  funext l
  rw [next?, next?, seek_renumber]
  rcases code.seek l with _ | ⟨x, _ | ⟨y, rest⟩⟩
  · rfl
  · rfl
  · rw [List.map_cons, List.map_cons, ahead?_cons_cons, ahead?_cons_cons, Instr.op_renumber,
      Instr.target?_renumber]

/-- Threading and renumbering do not care which comes first. -/
theorem threaded_renumberTemps (hv : Valid code) :
    code.renumberTemps.code.threaded = code.threaded.renumberTemps.code := by
  have htemps : code.threaded.temps = code.temps := temps_congr (regKeys_threadBy hv.wellFormed)
  have hland :
      ∀ l ∈ targets code.renumberTemps.code, land code.renumberTemps.code l = code.land l := by
    intro l hl
    have hvalid := renumberTemps_valid hv
    rw [code_renumberTemps] at hl hvalid ⊢
    rw [targets_renumber] at hl
    refine land_eq hvalid hv (labels_renumber code code.temps) (next?_renumber code.temps code) ?_
    rw [labels_renumber]
    exact hv.resolved l hl
  rw [threaded, threadBy_congr hland, code_renumberTemps, threadBy_renumber,
    code_renumberTemps, htemps]
  rfl

theorem target?_eq_goal? {x : Instr} (h : x.op = .br) : x.target? = x.goal? := by
  rw [Instr.goal?, if_pos (by rw [h]; rfl)]

theorem target?_eq_label? {x : Instr} (h : x.op = .label) : x.target? = x.label? := (if_pos h).symm

theorem next?_threadBy (land : Label → Label) {k : Label} (hk : k ∈ labels code) :
    (code.next? k = none ∧ next? (threadBy land code) k = none) ∨
      ∃ m, code.next? k = some m ∧ (next? (threadBy land code) k = some m ∨
        m ∈ targets code ∧ next? (threadBy land code) k = some (land m)) := by
  obtain ⟨x, rest, hseek, hx, hsuffix⟩ := exists_seek hk
  rw [next?, next?, seek_threadBy, hseek, threadBy_of_not (skips_of_label? hx rest)]
  cases rest with
  | nil => exact .inl ⟨rfl, rfl⟩
  | cons y rest =>
    rw [ahead?_cons_cons]
    cases hskip : y.skips rest with
    | true =>
      obtain ⟨m, z, more, hop, hgoal, rfl, hz⟩ := Instr.skips_iff.mp hskip
      have hlabel := Instr.op_eq_of_label? hz
      rw [threadBy_of_skips hskip, threadBy_of_not (skips_of_label? hz more), ahead?_cons_cons,
        Instr.op_retarget, if_pos (.inl hop), if_pos (.inr hlabel), target?_eq_goal? hop,
        target?_eq_label? (by rw [Instr.op_retarget, hlabel]), Instr.label?_retarget]
      exact .inr ⟨m, hgoal, .inl hz⟩
    | false =>
      rw [threadBy_of_not hskip, ahead?_cons_cons, Instr.op_retarget]
      by_cases hbr : y.op = .br
      · have hy : y ∈ code := hsuffix.subset (List.mem_cons_of_mem x List.mem_cons_self)
        rw [if_pos (.inl hbr), if_pos (.inl hbr), target?_eq_goal? hbr,
          target?_eq_goal? (by rw [Instr.op_retarget, hbr]), Instr.goal?_retarget]
        cases hgoal : y.goal? with
        | none => exact .inl ⟨rfl, rfl⟩
        | some m => exact .inr ⟨m, rfl, .inr ⟨List.mem_filterMap.mpr ⟨y, hy, hgoal⟩, rfl⟩⟩
      · by_cases hlabel : y.op = .label
        · rw [if_pos (.inr hlabel), if_pos (.inr hlabel), target?_eq_label? hlabel,
            target?_eq_label? (by rw [Instr.op_retarget, hlabel]), Instr.label?_retarget]
          cases y.label? with
          | none => exact .inl ⟨rfl, rfl⟩
          | some m => exact .inr ⟨m, rfl, .inl rfl⟩
        · have hneither : ¬ (y.op = .br ∨ y.op = .label) := fun h => h.elim hbr hlabel
          rw [if_neg hneither, if_neg hneither]
          exact .inl ⟨rfl, rfl⟩

theorem threaded_valid (hv : Valid code) : Valid code.threaded :=
  threadBy_valid hv fun _ hl => (landing_eq hv hl).2.mem_labels hv hl

theorem not_ends_threaded (hv : Valid code) {l : Label} (hl : l ∈ labels code) (h : ¬ code.Ends l) :
    ¬ code.threaded.Ends l := by
  rintro ⟨e, hle, hend⟩
  -- Whatever is passed on the way leads to no end in the code.
  have hpassed : ∀ {m}, code.threaded.Leads l m → m ∈ labels code ∧ ¬ code.Ends m := by
    intro m hm
    induction hm with
    | refl => exact ⟨hl, h⟩
    | @tail j k _ hjk ih =>
      obtain ⟨hj, hno⟩ := ih
      rcases next?_threadBy code.land hj with ⟨_, hnone⟩ | ⟨m, hm, hnext⟩
      · rw [threaded, hnone] at hjk
        cases hjk
      · have hmem := next?_mem_labels hv hj hm
        have hlead : code.Leads j k := by
          rcases hnext with hnext | ⟨_, hnext⟩
          · rw [threaded, hnext] at hjk
            cases hjk
            exact .single hm
          · rw [threaded, hnext] at hjk
            cases hjk
            exact .head hm (landing_eq hv hmem).2.leads
        exact ⟨hlead.mem_labels hv hj, fun hk => hno (hlead.ends_iff.mpr hk)⟩
  obtain ⟨he, hno⟩ := hpassed hle
  rcases next?_threadBy code.land he with ⟨hnone, _⟩ | ⟨m, _, hnext⟩
  · exact hno ⟨e, .refl, hnone⟩
  · rw [threaded] at hend
    rcases hnext with hnext | ⟨_, hnext⟩
    · rw [hnext] at hend
      cases hend
    · rw [hnext] at hend
      cases hend

theorem land_threaded (hv : Valid code) {l : Label} (hl : l ∈ targets code.threaded) :
    code.threaded.land l = l := by
  obtain ⟨l₀, hl₀, rfl⟩ := mem_targets_threadBy hl
  have hdefined := hv.resolved l₀ hl₀
  have hlands := (landing_eq hv hdefined).2
  have hmem := hlands.mem_labels hv hdefined
  have hstays : code.threaded.Lands (code.land l₀) (code.land l₀) := by
    rcases hlands with ⟨_, hend⟩ | ⟨heq, hno⟩
    · refine .inl ⟨.refl, ?_⟩
      rcases next?_threadBy code.land hmem with ⟨_, hnone⟩ | ⟨m, hm, _⟩
      · exact hnone
      · rw [hend] at hm
        cases hm
    · refine .inr ⟨rfl, ?_⟩
      rw [heq]
      exact not_ends_threaded hv hdefined hno
  have hdefined' : code.land l₀ ∈ labels code.threaded := by
    rw [threaded, labels_threadBy]
    exact hmem
  exact ((landing_eq (threaded_valid hv) hdefined').2).unique hstays

/-- If no branch goes elsewhere, all that threading does is done at once. -/
theorem threadBy_threadBy {dead : Bool} (hflows : Flows dead code) {f g : Label → Label}
    (hf : ∀ l ∈ targets code, f l = l) (hg : ∀ l ∈ targets code, g l = l) :
    threadBy g (threadBy f code) = threadBy f code := by
  induction code generalizing dead with
  | nil => rfl
  | cons x rest ih =>
    have hfRest : ∀ l ∈ targets rest, f l = l :=
      fun l hl => hf l (by rw [targets_cons]; exact List.mem_append_right _ hl)
    have hgRest : ∀ l ∈ targets rest, g l = l :=
      fun l hl => hg l (by rw [targets_cons]; exact List.mem_append_right _ hl)
    have hhead {h : Label → Label} (hh : ∀ l ∈ targets (x :: rest), h l = l) :
        x.retarget h = x := by
      rw [Instr.retarget_eq_self_iff]
      intro l hl
      apply hh
      rw [targets_cons, hl]
      exact List.mem_cons_self
    cases hskip : x.skips rest with
    | true =>
      rw [threadBy_of_skips hskip]
      exact ih hflows.2 hfRest hgRest
    | false =>
      rw [threadBy_of_not hskip, hhead hf, threadBy_cons_eq_self_iff]
      refine ⟨?_, hhead hg, ih hflows.2 hfRest hgRest⟩
      rw [Bool.eq_false_iff]
      intro hskips
      obtain ⟨l, y, more, hop, hgoal, hthreaded, hy⟩ := Instr.skips_iff.mp hskips
      -- The label that comes next now came next before: after a jump nothing but a label can be
      -- reached.
      cases rest with
      | nil => cases hthreaded
      | cons z rest =>
        have hz : z.op = .label := by
          apply hflows.2.1
          rw [hop]
          rfl
        have hzskip : z.skips rest = false := by
          rw [Bool.eq_false_iff]
          intro h
          obtain ⟨_, _, _, hbr, _⟩ := Instr.skips_iff.mp h
          rw [hz] at hbr
          cases hbr
        rw [threadBy_of_not hzskip] at hthreaded
        obtain ⟨rfl, _⟩ := List.cons.inj hthreaded
        rw [Instr.label?_retarget] at hy
        rw [Instr.skips_iff.mpr ⟨l, z, rest, hop, hgoal, rfl, hy⟩] at hskip
        cases hskip

theorem next?_threaded_threaded (hv : Valid code) :
    code.threaded.threaded.next? = code.threaded.next? := by
  funext k
  by_cases hk : k ∈ labels code.threaded
  · rcases next?_threadBy code.threaded.land hk with ⟨hnone, hnone'⟩ |
        ⟨m, hm, hnext | ⟨htarget, hnext⟩⟩
    · rw [hnone, threaded, hnone']
    · rw [hm, threaded, hnext]
    · rw [hm, threaded, hnext, land_threaded hv htarget]
  · have hk' : k ∉ labels code.threaded.threaded := by
      rw [threaded, labels_threadBy]
      exact hk
    rw [next?, seek_eq_nil hk', next?, seek_eq_nil hk]

/-- A jump that was sent elsewhere may turn out to be one to the next instruction, which the second
run sees; the third has nothing left to do. -/
theorem threaded_stable (hv : Valid code) {dead : Bool} (hflows : Flows dead code) :
    code.threaded.threaded.threaded = code.threaded.threaded := by
  have hfixed : ∀ l ∈ targets code.threaded, code.threaded.land l = l :=
    fun l hl => land_threaded hv hl
  have hvalid := threaded_valid hv
  refine threadBy_threadBy (flows_threadBy hflows) hfixed fun l hl => ?_
  rw [land_eq (threaded_valid hvalid) hvalid (labels_threadBy _) (next?_threaded_threaded hv),
    hfixed l hl]
  rw [threaded, labels_threadBy]
  exact hvalid.resolved l hl

end Threading

end Code

end ThreeAddress
