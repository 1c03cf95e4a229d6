import ThreeAddress.Proofs.Acceptance
import ThreeAddress.Proofs.Calls
import ThreeAddress.Proofs.Changes
import ThreeAddress.Proofs.Origins
import ThreeAddress.Proofs.PipelineBehaviour

/-!
# Labels and data of a whole program

The functions of a program share their labels and strings. Each function that is handed out branches
to labels alone that were made for it, calls what its tree calls and refers to strings of its tree,
and all this is still so when it has been optimised (`Session.calls_intact`). What functions do to
the program they share is to add to it, also those that fail.
-/

namespace ThreeAddress
set_option autoImplicit false

/-- The operand stands somewhere in the code. -/
def Code.Holds (code : Code) (a : Operand) : Prop := ∃ x ∈ code, some a ∈ x.args

/-- The functions that the code refers to, at whatever place. -/
def Instr.callees (x : Instr) : List (Label × Width) :=
  x.args.filterMap fun a => a.bind Operand.callee?

def Code.callees (code : Code) : List (Label × Width) := code.flatMap Instr.callees

/-- The code has labels that were made by the call, calls functions that the tree calls, in their
order, and refers to strings of the tree. -/
structure Code.BelongsTo (code : Code) (k : Call) : Prop where
  labels : ∀ l, code.Holds (.label l) → k.before.labels.size ≤ l.handle ∧
    k.after.labels.isFresh l = true
  callees : List.SublistForall₂ k.after.Refers code.callees k.decl.calls
  data : ∀ segment i, code.Holds (.data segment i) → segment = 0 ∧ ∃ (n : Nat) (b : Bytes), i = n ∧
    k.after.data.strings[n]? = some b ∧ .str b ∈ k.decl.nodes

/-- The program has all that it had, at the same places. -/
structure Program.Extends (q p : Program) : Prop where
  labels : p.labels.entries <+: q.labels.entries
  data : p.data.strings <+: q.data.strings
  funcs : q.funcs = p.funcs

@[simp] theorem Operand.callee?_reg (r : Reg) : (reg r).callee? = none := rfl

@[simp] theorem Operand.callee?_label (l : Label) : (label l).callee? = none := rfl

namespace Instr
variable {x : Instr} {a : Option Operand} {l : Label}

@[simp] theorem callees_cons (op : Opcode) (a : Option Operand) (rest : List (Option Operand)) :
    callees ⟨op, a :: rest⟩ = (a.bind Operand.callee?).toList ++ callees ⟨op, rest⟩ := by
  unfold callees
  rw [List.filterMap_cons]
  cases a.bind Operand.callee? <;> rfl

@[simp] theorem callees_nil (op : Opcode) : callees ⟨op, []⟩ = [] := rfl

theorem takes_of_misplaced? {s : Shape} {i j : Nat} {args : List (Option Operand)}
    (h : misplaced? s i args = none) (ha : args[j]? = some a) :
    (s.slot (i + j)).takes a = true := by
  induction args generalizing i j with
  | nil => cases ha
  | cons b args ih =>
    obtain ⟨hb, hargs⟩ := misplaced?_cons_eq_none_iff.mp h
    cases j with
    | zero =>
      cases ha
      exact hb
    | succ j =>
      have hslot := ih hargs ha
      rwa [Nat.add_right_comm] at hslot

theorem WellFormed.takes_slot (h : x.WellFormed) {j : Nat} (ha : x.args[j]? = some a) :
    ∃ s, x.op.shape? = some s ∧ (s.slot j).takes a = true := by
  obtain ⟨s, hs, _, hplaced⟩ := wellFormed_iff_shape.mp h
  have htakes := takes_of_misplaced? hplaced ha
  rw [Nat.zero_add] at htakes
  exact ⟨s, hs, htakes⟩

theorem WellFormed.label_of_mem (h : x.WellFormed) (hl : some (.label l) ∈ x.args) :
    x.label? = some l ∨ x.goal? = some l := by
  obtain ⟨j, hj⟩ := List.mem_iff_getElem?.mp hl
  obtain ⟨s, hs, htakes⟩ := h.takes_slot hj
  have htarget : s.slot j = .target := by
    cases hslot : s.slot j with
    | target => rfl
    | _ =>
      rw [hslot] at htakes
      cases htakes
  have hfirst : (x.op.isBranch = true ∨ x.op = .label) ∧ j = 0 := by
    cases hop : x.op <;> rw [hop] at hs <;> cases hs <;> rcases j with _ | _ | _ | j <;>
      simp [Shape.slot, Opcode.isBranch] at htarget ⊢
  obtain ⟨hop, rfl⟩ := hfirst
  have hoperand : x.operand? 0 = some (.label l) := by rw [operand?, hj, Option.join_some]
  have htarget? : x.target? = some l := by
    rw [target?, hoperand, if_pos (by simpa using hop)]
    rfl
  rcases hop with hop | hop
  · exact .inr (by rw [goal?, if_pos hop, htarget?])
  · exact .inl (by rw [label?, if_pos hop, htarget?])

theorem WellFormed.callees_eq (h : x.WellFormed) : x.callees = x.callee?.toList := by
  by_cases hop : x.op = .call
  · obtain ⟨d, c, rest, hargs, hd, hc, hrest⟩ := (wellFormed_iff_call hop).mp h
    have hresult : d.bind Operand.callee? = none := by
      rcases d with _ | d
      · rfl
      · cases d with
        | callee => cases hd
        | _ => rfl
    have hvalues : rest.filterMap (fun a => a.bind Operand.callee?) = [] := by
      apply List.filterMap_eq_nil_iff.mpr
      intro a ha
      obtain ⟨v, rfl, hv⟩ := Slot.takes_value_iff.mp (hrest a ha)
      cases v with
      | callee => cases hv
      | _ => rfl
    have hcallee : x.callee? = c.bind Operand.callee? := by
      rw [callee?, if_pos hop, operand?, hargs]
      rfl
    rw [callees, hargs, List.filterMap_cons, hresult, List.filterMap_cons, hvalues, hcallee]
    cases c.bind Operand.callee? with
    | none => rfl
    | some p => rfl
  · have hnone : x.callee? = none := if_neg hop
    rw [hnone]
    apply List.filterMap_eq_nil_iff.mpr
    intro a ha
    obtain ⟨j, hj⟩ := List.mem_iff_getElem?.mp ha
    obtain ⟨s, hs, htakes⟩ := h.takes_slot hj
    have hcallee : s.slot j ≠ .callee := by
      intro hslot
      cases hop' : x.op <;> rw [hop'] at hs <;> cases hs <;> rcases j with _ | _ | _ | j <;>
        simp [Shape.slot, hop'] at hslot hop
    rcases a with _ | a
    · rfl
    · cases a with
      | callee =>
        cases hslot : s.slot j with
        | callee => exact absurd hslot hcallee
        | _ =>
          rw [hslot] at htakes
          cases htakes
      | _ => rfl

end Instr

namespace Code
variable {code old new : Code} {l : Label}

theorem callees_eq (h : code.Checked) : code.callees = code.filterMap Instr.callee? := by
  unfold callees
  rw [List.filterMap_eq_flatMap_toList]
  apply List.flatMap_congr
  intro x hx
  exact (h x hx).callees_eq

theorem Valid.mem_labels (h : Valid code) (hl : code.Holds (.label l)) : l ∈ code.labels := by
  obtain ⟨x, hx, hmem⟩ := hl
  rcases (h.wellFormed x hx).label_of_mem hmem with hlabel | hgoal
  · exact List.mem_filterMap.mpr ⟨x, hx, hlabel⟩
  · exact h.resolved l (List.mem_filterMap.mpr ⟨x, hx, hgoal⟩)

/-- All that code refers to, the code that it was made from has referred to. -/
structure Inherits (new old : Code) : Prop where
  labels : ∀ l ∈ new.labels, l ∈ old.labels
  callees : new.callees.Sublist old.callees
  data : ∀ segment i, new.Holds (.data segment i) → old.Holds (.data segment i)

theorem Inherits.refl (code : Code) : Inherits code code := ⟨fun _ h => h, .refl _, fun _ _ h => h⟩

theorem Inherits.trans {a b c : Code} (h : Inherits a b) (h' : Inherits b c) : Inherits a c :=
  ⟨fun l hl => h'.labels l (h.labels l hl), h.callees.trans h'.callees,
    fun s i hd => h'.data s i (h.data s i hd)⟩

theorem Inherits.of_sublist (h : new.Sublist old) : Inherits new old where
  labels l hl := (h.filterMap _).subset hl
  callees := h.flatMap _
  data _ _ hd := by
    obtain ⟨x, hx, ha⟩ := hd
    exact ⟨x, h.subset hx, ha⟩

theorem Inherits.append {a b c d : Code} (h : Inherits a b) (h' : Inherits c d) :
    Inherits (a ++ c) (b ++ d) where
  labels l hl := by
    rw [labels_append, List.mem_append] at hl ⊢
    exact hl.imp (h.labels l) (h'.labels l)
  callees := by
    unfold Code.callees
    rw [List.flatMap_append, List.flatMap_append]
    exact h.callees.append h'.callees
  data segment i hd := by
    obtain ⟨x, hx, ha⟩ := hd
    rcases List.mem_append.mp hx with hx | hx
    · obtain ⟨y, hy, hya⟩ := h.data segment i ⟨x, hx, ha⟩
      exact ⟨y, List.mem_append_left _ hy, hya⟩
    · obtain ⟨y, hy, hya⟩ := h'.data segment i ⟨x, hx, ha⟩
      exact ⟨y, List.mem_append_right _ hy, hya⟩

theorem callee?_of_isValue {a : Operand} (h : a.isValue = true) : a.callee? = none := by
  cases a with
  | callee => cases h
  | _ => rfl

theorem Inherits.of_rule {folding : Prop} {gone : Code → RegKey → Prop}
    {apart : Reg → Operand → Prop} (h : Rule folding gone apart old new) : Inherits new old where
  labels := by
    rw [h.sameLabels.labels_eq]
    exact fun _ hl => hl
  callees := by
    cases h with
    | keep x => exact .refl _
    | nop | unread => exact List.nil_sublist _
    | forward => simp [Code.callees]
    | foldDrop _ _ _ _ ha | foldKeep _ _ _ _ ha | source _ ha =>
      simp [Code.callees, callee?_of_isValue ha]
  data segment i hd := by
    cases h with
    | keep x => exact hd
    | nop | unread => simp [Holds] at hd
    | forward | foldDrop | foldKeep | source => simp [Holds] at hd ⊢; grind

theorem Inherits.of_rewrites {folding : Prop} {gone : Code → RegKey → Prop}
    {apart : Reg → Operand → Prop} (h : Rewrites (Rule folding gone apart) old new) :
    Inherits new old := by
  induction h with
  | nil => exact .refl _
  | piece hab _ ih => exact (of_rule hab).append ih

theorem Inherits.renumber (order : List Int) (code : Code) :
    Inherits (code.map (Instr.renumber order)) code where
  labels := by
    rw [labels_renumber]
    exact fun _ hl => hl
  callees := by
    have hsame (x : Instr) : (x.renumber order).callees = x.callees := by
      rw [Instr.renumber_eq]
      unfold Instr.callees
      rw [List.filterMap_map]
      congr 1
      funext a
      rcases a with _ | a
      · rfl
      · cases a <;> rfl
    unfold Code.callees
    rw [List.flatMap_map]
    simp only [hsame]
    exact .refl _
  data segment i hd := by
    obtain ⟨y, hy, ha⟩ := hd
    obtain ⟨x, hx, rfl⟩ := List.mem_map.mp hy
    obtain ⟨a, ha, heq⟩ := List.mem_map.mp ha
    obtain ⟨b, rfl, hb⟩ := Option.map_eq_some_iff.mp heq
    cases b with
    | data s j =>
      cases hb
      exact ⟨x, hx, ha⟩
    | _ => cases hb

theorem Inherits.retarget (land : Label → Label) (x : Instr) : Inherits [x.retarget land] [x] := by
  rcases Instr.goal_cases x with hx | ⟨op, l, more, hop, rfl⟩
  · rw [Instr.retarget_of_none hx]
    exact .refl _
  · rw [Instr.retarget_of_goal? hop]
    have hlabels (m : Label) : Code.labels [⟨op, some (.label m) :: more⟩] = [] := by
      rw [labels_cons, Instr.label?_eq_none (Opcode.ne_label_of_isBranch hop)]
      rfl
    refine ⟨?_, ?_, ?_⟩
    · rw [hlabels]
      exact List.forall_mem_nil _
    · simp [Code.callees]
    · intro segment i hd
      simpa [Holds] using hd

theorem Inherits.threadBy (land : Label → Label) (code : Code) :
    Inherits (code.threadBy land) code := by
  induction code with
  | nil => exact .refl _
  | cons x rest ih =>
    cases hskip : x.skips rest with
    | true =>
      rw [threadBy_of_skips hskip]
      exact ih.trans (of_sublist (List.sublist_cons_self x rest))
    | false =>
      rw [threadBy_of_not hskip]
      exact (Inherits.retarget land x).append ih

theorem Change.inherits (h : Change old new) : Inherits new old := by
  cases h with
  | rewrite h => exact .of_rewrites h
  | renumber =>
    rw [code_renumberTemps]
    exact .renumber _ old
  | thread => exact .threadBy _ old
  | prune => exact .of_sublist (reachableFrom_sublist false old)

theorem Changes.inherits (h : Changes old new) : Inherits new old := by
  induction h with
  | refl => exact .refl _
  | tail _ hchange ih => exact hchange.inherits.trans ih

end Code

theorem sublistForall₂_of_sublist {α β : Type} {R : α → β → Prop} {l l' : List α} {m : List β}
    (h : List.SublistForall₂ R l m) (hl : l'.Sublist l) : List.SublistForall₂ R l' m := by
  induction h generalizing l' with
  | nil =>
    cases hl
    exact .nil
  | cons hab _ ih =>
    cases hl with
    | cons _ hl => exact .cons_right (ih hl)
    | cons_cons _ hl => exact .cons hab (ih hl)
  | cons_right _ ih => exact .cons_right (ih hl)

namespace Labels
variable {ls ls' : Labels} {l : Label}

theorem handle_lt_of_isFresh (h : ls.isFresh l = true) : l.handle < ls.size := by
  obtain ⟨name, hget⟩ := isFresh_iff.mp h
  exact (handle_of_get? hget).2

theorem size_le_of_isFresh (hls : ls.entries <+: ls'.entries) (h : ls'.isFresh l = true)
    (hold : ls.isFresh l = false) :
    ls.size ≤ l.handle := by
  have hnonneg := nonneg_of_isFresh h
  by_contra hlt
  obtain ⟨more, hmore⟩ := hls
  have hsize := ls.length_entries
  have hsame : ls'.get? l = ls.get? l := by
    unfold get?
    rw [← hmore, List.getElem?_append_left (by omega)]
  rw [isFresh_eq] at h hold
  rw [hsame, hold] at h
  cases h

end Labels

namespace Code
variable {code old new : Code} {k : Call} {l : Label}

theorem holds_of_mem_labels (h : l ∈ code.labels) : code.Holds (.label l) := by
  obtain ⟨x, hx, hlabel⟩ := List.mem_filterMap.mp h
  have hop := Instr.op_eq_of_label? hlabel
  obtain ⟨op, args⟩ := x
  simp only at hop
  subst hop
  refine ⟨_, hx, ?_⟩
  have hbind : (Instr.operand? ⟨.label, args⟩ 0).bind Operand.label? = some l := hlabel
  obtain ⟨a, ha, hal⟩ := Option.bind_eq_some_iff.mp hbind
  cases a with
  | label m =>
    cases hal
    exact List.mem_of_getElem? (Option.join_eq_some_iff.mp ha)
  | _ => cases hal

theorem BelongsTo.of_inherits (h : old.BelongsTo k) (hnew : Valid new)
    (hinherits : Inherits new old) : new.BelongsTo k where
  labels l hl := h.labels l (holds_of_mem_labels (hinherits.labels l (hnew.mem_labels hl)))
  callees := sublistForall₂_of_sublist h.callees hinherits.callees
  data segment i hd := h.data segment i (hinherits.data segment i hd)

theorem BelongsTo.disjoint {c d : Code} {j k : Call} (hjk : j.after.Grows k.before)
    (hc : c.BelongsTo j) (hd : d.BelongsTo k) (hl : c.Holds (.label l)) : ¬ d.Holds (.label l) := by
  intro hl'
  have hlt := Labels.handle_lt_of_isFresh (hc.labels l hl).2
  have hle := (hd.labels l hl').1
  have hsize := hjk.labels.length_le
  rw [Labels.length_entries, Labels.length_entries] at hsize
  omega

end Code

namespace Session
variable {s s' : Session} {d : Decl} {f : Func}

theorem labels_of_lowerFunc (h : s.lowerFunc d = .ok (.ok f, s')) {l : Label}
    (hl : l ∈ f.code.labels) :
    s.labels.size ≤ l.handle ∧ s'.labels.isFresh l = true := by
  have hgrows := lowerFunc_grows h
  obtain ⟨_, fin, hlower, rfl⟩ := lowerFunc_eq_ok h
  obtain ⟨ps, s₁, c, hps, hc, rfl⟩ := Decl.lower_eq_ok hlower
  have hlabels : c.terminate.labels = c.labels := by
    unfold Code.terminate
    split
    · rfl
    · simp
  have hpos : 0 < c.timesLabel l := by
    rw [hlabels] at hl
    exact List.count_pos_iff.mpr hl
  have hle := hc.timesLabel_le l
  have hold : (s.labels.isFresh l).toNat ≤ s₁.made l := (declare_eq_ok hps).1.made_le l
  have hone : fin.made l ≤ 1 := Bool.toNat_le _
  have hmade : fin.made l = 1 := by omega
  have hfresh : fin.session.labels.isFresh l = true := Bool.toNat_eq_one.mp hmade
  have hnot : s.labels.isFresh l = false := Bool.toNat_eq_zero.mp (by omega)
  exact ⟨Labels.size_le_of_isFresh hgrows.labels hfresh hnot, hfresh⟩

theorem belongsTo_of_lowerFunc (h : s.lowerFunc d = .ok (.ok f, s')) :
    f.code.BelongsTo ⟨s, d, .ok f, s'⟩ ∧ List.Forall₂ s'.Refers f.code.callees d.calls := by
  obtain ⟨hf, fin, hlower, hfin⟩ := lowerFunc_eq_ok h
  have hv := Func.verified_iff.mp hf
  have hsourced := Decl.sourced (S := s') hlower (hfin ▸ .refl _)
  have hcallees : List.Forall₂ s'.Refers f.code.callees d.calls := by
    rw [Code.callees_eq hv.wellFormed]
    exact hsourced.callees
  refine ⟨⟨?_, ?_, ?_⟩, hcallees⟩
  · intro l hl
    exact labels_of_lowerFunc h (hv.mem_labels hl)
  · exact List.sublistForall₂_iff.mpr ⟨_, hcallees, .refl _⟩
  · rintro segment i ⟨x, hx, ha⟩
    exact hsourced.data x hx _ ha

end Session

/-- Functions that are lowered one after the other in a program only add to it. Each that succeeds
has labels of its own, which were made for it, calls what its tree calls, and refers to strings of
its tree; and so it is after the standard pipeline. All labels that were made new have different
names. -/
theorem Session.calls_intact (p : Program) {calls : List Call} {s : Session}
    (h : (Session.ofProgram p).Calls calls s) :
    (∀ k ∈ calls, k.after.toProgram.Extends k.before.toProgram) ∧
    (∀ k ∈ calls, ∀ f, k.result = .ok f → f.code.BelongsTo k ∧
      List.Forall₂ k.after.Refers f.code.callees k.decl.calls ∧
      ∃ g, Pipeline.standard.runFunc f = .ok (g, .ok ()) ∧ g.code.BelongsTo k) ∧
    (calls.Pairwise fun j k => ∀ c d : Code, c.BelongsTo j → d.BelongsTo k →
      ∀ l, c.Holds (.label l) → ¬ d.Holds (.label l)) ∧
    ∀ l l' : Label, p.labels.size ≤ l.handle → p.labels.size ≤ l'.handle →
      s.labels.isFresh l = true → s.labels.isFresh l' = true →
      s.labels.name l = s.labels.name l' → l = l' := by
  refine ⟨?_, ?_, ?_, ?_⟩
  · intro k hk
    obtain ⟨hlower, _, _⟩ := h.of_mem hk
    have hgrows := lowerFunc_grows hlower
    exact ⟨hgrows.labels, hgrows.data, funcs_of_lowerFunc hlower⟩
  · intro k hk f hf
    obtain ⟨hlower, _, _⟩ := h.of_mem hk
    obtain ⟨before, d, result, after⟩ := k
    simp only at hf hlower
    subst hf
    obtain ⟨hbelongs, hcallees⟩ := belongsTo_of_lowerFunc hlower
    have hv := Func.verified_iff.mp (lowerFunc_eq_ok hlower).1
    obtain ⟨c, hrun, hc, hchanges⟩ := Pipeline.runFunc_changes hv
    exact ⟨hbelongs, hcallees, _, hrun, hbelongs.of_inherits hc hchanges.inherits⟩
  · apply h.pairwise.imp
    intro j k hjk c d hc hd l hl
    exact hc.disjoint hjk hd hl
  · intro l l' hl hl' hfresh hfresh' hname
    exact h.name_injective hl hl' hfresh hfresh' hname

/-- Makes labels before it fails. -/
def Decl.astray : Decl :=
  Sample.decl "astray" .void [] [.whileLoop (Sample.lit 1) (.block []), .breakLoop]

/-- A program that has a function, and a label of the name that the first new label gets. -/
def Program.started : Program :=
  ⟨.ofEntries [⟨"while.top.0", true⟩, ⟨"drip", false⟩], .empty, [.countdown]⟩

theorem Session.calls_intact_drain :
    ∃ j k f s, (Session.ofProgram .started).Calls [j, k] s ∧ (∃ e, j.result = .error e) ∧
      k.result = .ok f ∧ k.after.funcs = [.countdown] ∧ f.code.BelongsTo k ∧
        ∃ g, Pipeline.standard.runFunc f = .ok (g, .ok ()) ∧ g.code.BelongsTo k := by
  obtain ⟨e, s₁, hj⟩ :
      ∃ e s₁, (Session.ofProgram .started).lowerFunc .astray = .ok (.error e, s₁) := ⟨_, _, rfl⟩
  have hsound := (Decl.exists_lower_iff.mp (exists_lowerFunc_iff.mp exists_lowerFunc_drain)).2
  obtain ⟨f, s, hk⟩ : ∃ f s, s₁.lowerFunc .drain = .ok (.ok f, s) :=
    exists_lowerFunc_iff.mpr (Decl.exists_lower_iff.mpr ⟨⟨_, _, rfl⟩, hsound⟩)
  have hcalls := Calls.cons hj (.cons hk (.nil s))
  obtain ⟨hextends, hfuncs, _, _⟩ := calls_intact _ hcalls
  have hfirst := (hextends _ (.head _)).funcs
  have hsecond := (hextends _ (.tail _ (.head _))).funcs
  obtain ⟨hbelongs, _, hrun⟩ := hfuncs _ (.tail _ (.head _)) f rfl
  exact ⟨_, _, f, s, hcalls, ⟨e, rfl⟩, rfl, hsecond.trans hfirst, hbelongs, hrun⟩

end ThreeAddress
