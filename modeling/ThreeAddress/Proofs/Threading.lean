import ThreeAddress.Proofs.Circling
import ThreeAddress.Proofs.Landing
import ThreeAddress.Proofs.Rules

/-!
# Threading jumps

On valid code `threadJumps` is the plain recursion `threadBy`: a jump to the next instruction is
dropped, and any other branch goes where its label lands (`threadJumps_eq`). The code stays valid
and keeps its behaviour: between the old and the new target of a branch control meets nothing but
jumps and labels.
-/

namespace ThreeAddress
set_option autoImplicit false

namespace Instr

theorem goal?_eq_some_iff {x : Instr} {l : Label} :
    x.goal? = some l ↔ x.op.isBranch = true ∧ ∃ more, x.args = some (.label l) :: more := by
  obtain ⟨op, args⟩ := x
  rw [goal?]
  constructor
  · intro h
    split at h
    · rename_i hop
      refine ⟨hop, ?_⟩
      simp only at hop
      rw [target?, if_pos (by rw [hop]; rfl)] at h
      cases args with
      | nil => cases h
      | cons p more =>
        cases p with
        | none => cases h
        | some a =>
          cases a with
          | label m =>
            cases h
            exact ⟨more, rfl⟩
          | _ => cases h
    · cases h
  · rintro ⟨hop, more, rfl⟩
    rw [if_pos hop, target?, if_pos (by rw [hop]; rfl)]
    rfl

/-- The branch made to go where `land` says. -/
def retarget (land : Label → Label) (x : Instr) : Instr :=
  match x.goal? with
  | some l => { x with args := x.args.set 0 (some (.label (land l))) }
  | none => x

/-- A jump to the instruction that comes next. -/
def skips (x : Instr) : Code → Bool
  | [] => false
  | y :: _ => x.op = .br ∧ x.goal?.isSome ∧ y.label? = x.goal?

theorem skips_iff {x : Instr} {rest : Code} : x.skips rest = true ↔
    ∃ l y more, x.op = .br ∧ x.goal? = some l ∧ rest = y :: more ∧ y.label? = some l := by
  cases rest with
  | nil =>
    constructor
    · intro h
      cases h
    · rintro ⟨l, y, more, _, _, h, _⟩
      cases h
  | cons y more =>
    rw [skips, decide_eq_true_eq]
    constructor
    · rintro ⟨hop, hgoal, hy⟩
      obtain ⟨l, hl⟩ := Option.isSome_iff_exists.mp hgoal
      exact ⟨l, y, more, hop, hl, rfl, hy.trans hl⟩
    · rintro ⟨l, _, _, hop, hl, heq, hy⟩
      cases heq
      exact ⟨hop, Option.isSome_iff_exists.mpr ⟨l, hl⟩, hy.trans hl.symm⟩

section
variable {land : Label → Label} {x : Instr}

theorem retarget_of_goal? {op : Opcode} {l : Label} {more : List (Option Operand)}
    (hop : op.isBranch = true) :
    retarget land ⟨op, some (.label l) :: more⟩ = ⟨op, some (.label (land l)) :: more⟩ := by
  rw [retarget, goal?_eq_some_iff.mpr ⟨hop, more, rfl⟩]
  rfl

theorem retarget_of_none (h : x.goal? = none) : x.retarget land = x := by
  rw [retarget, h]

theorem goal_cases (x : Instr) : x.goal? = none ∨
    ∃ op l more, op.isBranch = true ∧ x = ⟨op, some (.label l) :: more⟩ := by
  cases hx : x.goal? with
  | none => exact .inl rfl
  | some l =>
    obtain ⟨hop, more, hargs⟩ := goal?_eq_some_iff.mp hx
    exact .inr ⟨x.op, l, more, hop, by rw [← hargs]⟩

@[simp] theorem op_retarget (x : Instr) : (x.retarget land).op = x.op := by
  rcases goal_cases x with hx | ⟨op, l, more, hop, rfl⟩
  · rw [retarget_of_none hx]
  · rw [retarget_of_goal? hop]

theorem goal?_retarget (x : Instr) : (x.retarget land).goal? = x.goal?.map land := by
  rcases goal_cases x with hx | ⟨op, l, more, hop, rfl⟩
  · rw [retarget_of_none hx, hx]
    rfl
  · rw [retarget_of_goal? hop, goal?_eq_some_iff.mpr ⟨hop, more, rfl⟩,
        goal?_eq_some_iff.mpr ⟨hop, more, rfl⟩]
    rfl

theorem label?_retarget (x : Instr) : (x.retarget land).label? = x.label? := by
  rcases goal_cases x with hx | ⟨op, l, more, hop, rfl⟩
  · rw [retarget_of_none hx]
  · have hne : op ≠ .label := by
      rintro rfl
      cases hop
    rw [retarget_of_goal? hop, label?_eq_none hne, label?_eq_none hne]

theorem keys_retarget (x : Instr) : (x.retarget land).keys = x.keys := by
  rcases goal_cases x with hx | ⟨op, l, more, hop, rfl⟩
  · rw [retarget_of_none hx]
  · rw [retarget_of_goal? hop]
    rfl

theorem retarget_eq_self_iff : x.retarget land = x ↔ ∀ l, x.goal? = some l → land l = l := by
  rcases goal_cases x with hx | ⟨op, l, more, hop, rfl⟩
  · rw [retarget_of_none hx, hx]
    simp
  · rw [retarget_of_goal? hop, goal?_eq_some_iff.mpr ⟨hop, more, rfl⟩]
    simp

theorem WellFormed.retarget (h : x.WellFormed) : (x.retarget land).WellFormed := by
  rcases goal_cases x with hx | ⟨op, l, more, hop, rfl⟩
  · rwa [retarget_of_none hx]
  · rw [retarget_of_goal? hop]
    rcases Opcode.isBranch_iff.mp hop with rfl | hop'
    · obtain ⟨a, ha, _⟩ := (wellFormed_iff_one rfl).mp h
      cases ha
      exact (wellFormed_iff_one rfl).mpr ⟨_, rfl, rfl⟩
    · obtain ⟨b, l', a, hb, heq, ha⟩ := h.exists_test hop'
      cases heq
      exact wellFormed_test hb ha _

end

end Instr

namespace Code

/-- Drops jumps to the next instruction and sends the other branches where `land` says. -/
def threadBy (land : Label → Label) : Code → Code
  | [] => []
  | x :: rest => if x.skips rest then threadBy land rest else x.retarget land :: threadBy land rest

section
variable {land : Label → Label} {code : Code}

theorem threadBy_of_skips {x : Instr} {rest : Code} (h : x.skips rest = true) :
    threadBy land (x :: rest) = threadBy land rest := if_pos h

theorem threadBy_of_not {x : Instr} {rest : Code} (h : x.skips rest = false) :
    threadBy land (x :: rest) = x.retarget land :: threadBy land rest := by
  rw [threadBy, h]
  rfl

theorem skips_of_label? {x : Instr} {l : Label} (h : x.label? = some l) (rest : Code) :
    x.skips rest = false := by
  rw [Bool.eq_false_iff]
  intro hskip
  obtain ⟨_, _, _, hop, _⟩ := Instr.skips_iff.mp hskip
  rw [Instr.op_eq_of_label? h] at hop
  cases hop

theorem length_threadBy_le (land : Label → Label) (code : Code) :
    (threadBy land code).length ≤ code.length := by
  induction code with
  | nil => exact Nat.le_refl 0
  | cons x rest ih =>
    cases h : x.skips rest with
    | true =>
      rw [threadBy_of_skips h]
      exact Nat.le_succ_of_le ih
    | false =>
      rw [threadBy_of_not h]
      exact Nat.succ_le_succ ih

theorem threadBy_cons_eq_self_iff {x : Instr} {rest : Code} :
    threadBy land (x :: rest) = x :: rest ↔
      x.skips rest = false ∧ x.retarget land = x ∧ threadBy land rest = rest := by
  cases h : x.skips rest with
  | true =>
    have hlen := length_threadBy_le land rest
    rw [threadBy_of_skips h]
    constructor
    · intro heq
      rw [heq, List.length_cons] at hlen
      omega
    · rintro ⟨hfalse, _⟩
      cases hfalse
  | false =>
    rw [threadBy_of_not h, List.cons.injEq]
    simp

theorem labels_threadBy (code : Code) : labels (threadBy land code) = labels code := by
  induction code with
  | nil => rfl
  | cons x rest ih =>
    cases h : x.skips rest with
    | true =>
      obtain ⟨_, _, _, hop, _⟩ := Instr.skips_iff.mp h
      have hlabel : x.label? = none := Instr.label?_eq_none (by rw [hop]; exact Opcode.noConfusion)
      rw [threadBy_of_skips h, ih, labels_cons, hlabel]
      rfl
    | false => rw [threadBy_of_not h, labels_cons, labels_cons, Instr.label?_retarget, ih]

theorem keys_jump {x : Instr} (hx : x.WellFormed) (hop : x.op = .br) : x.keys = [] := by
  obtain ⟨a, hargs, ha⟩ := (Instr.wellFormed_iff_one (by rw [hop]; rfl)).mp hx
  obtain ⟨l, rfl⟩ := Slot.takes_target_iff.mp ha
  rw [Instr.keys, hargs]
  rfl

theorem regKeys_threadBy (hwf : ∀ x ∈ code, x.WellFormed) :
    regKeys (threadBy land code) = regKeys code := by
  induction code with
  | nil => rfl
  | cons x rest ih =>
    obtain ⟨hx, hrest⟩ := List.forall_mem_cons.mp hwf
    cases h : x.skips rest with
    | true =>
      obtain ⟨_, _, _, hop, _⟩ := Instr.skips_iff.mp h
      rw [threadBy_of_skips h, ih hrest, regKeys_cons, keys_jump hx hop, List.nil_append]
    | false => rw [threadBy_of_not h, regKeys_cons, regKeys_cons, Instr.keys_retarget, ih hrest]

theorem mem_targets_threadBy {m : Label} (h : m ∈ targets (threadBy land code)) :
    ∃ l ∈ targets code, land l = m := by
  induction code with
  | nil => cases h
  | cons x rest ih =>
    have hrest (h : m ∈ targets (threadBy land rest)) : ∃ l ∈ targets (x :: rest), land l = m := by
      obtain ⟨l, hl, hm⟩ := ih h
      rw [targets_cons]
      exact ⟨l, List.mem_append_right _ hl, hm⟩
    cases hskip : x.skips rest with
    | true =>
      rw [threadBy_of_skips hskip] at h
      exact hrest h
    | false =>
      rw [threadBy_of_not hskip, targets_cons, Instr.goal?_retarget] at h
      rcases List.mem_append.mp h with h | h
      · obtain ⟨l, hl, hm⟩ := Option.map_eq_some_iff.mp (Option.mem_toList.mp h)
        rw [targets_cons, hl]
        exact ⟨l, List.mem_cons_self, hm⟩
      · exact hrest h

theorem wellFormed_threadBy (hwf : ∀ x ∈ code, x.WellFormed) :
    ∀ y ∈ threadBy land code, y.WellFormed := by
  induction code with
  | nil => exact hwf
  | cons x rest ih =>
    obtain ⟨hx, hrest⟩ := List.forall_mem_cons.mp hwf
    cases h : x.skips rest with
    | true =>
      rw [threadBy_of_skips h]
      exact ih hrest
    | false =>
      rw [threadBy_of_not h]
      exact List.forall_mem_cons.mpr ⟨hx.retarget, ih hrest⟩

theorem threadBy_valid (h : Valid code) (hland : ∀ l ∈ labels code, land l ∈ labels code) :
    Valid (threadBy land code) where
  wellFormed := wellFormed_threadBy h.wellFormed
  nodup := (labels_threadBy code).symm ▸ h.nodup
  nonneg := (labels_threadBy code).symm ▸ h.nonneg
  resolved m hm := by
    obtain ⟨l, hl, rfl⟩ := mem_targets_threadBy hm
    rw [labels_threadBy]
    exact hland l (h.resolved l hl)

theorem seek_threadBy (l : Label) (code : Code) :
    (threadBy land code).seek l = threadBy land (code.seek l) := by
  induction code with
  | nil => rfl
  | cons x rest ih =>
    rw [seek_cons]
    by_cases hx : x.label? = some l
    · rw [if_pos hx, threadBy_of_not (skips_of_label? hx rest), seek_cons,
        Instr.label?_retarget, if_pos hx]
    · rw [if_neg hx, ← ih]
      cases h : x.skips rest with
      | true => rw [threadBy_of_skips h]
      | false => rw [threadBy_of_not h, seek_cons, Instr.label?_retarget, if_neg hx]

end

theorem eq_succ_iff {code rest : Code} {x : Instr} {l : Label} {i p : Nat}
    (hnodup : (labels code).Nodup) (hl : l ∈ labels code) (hrest : code.drop i = x :: rest)
    (hseek : code.seek l = code.drop p) (hp : p < code.length) :
    p = i + 1 ↔ ∃ y more, rest = y :: more ∧ y.label? = some l := by
  have hdrop : code.drop (i + 1) = rest := by
    rw [← List.drop_drop, hrest]
    rfl
  constructor
  · rintro rfl
    obtain ⟨y, more, hy, hlabel, _⟩ := exists_seek hl
    exact ⟨y, more, by rw [← hdrop, ← hseek, hy], hlabel⟩
  · rintro ⟨y, more, rfl, hy⟩
    have hsuffix : (y :: more) <:+ code := hdrop ▸ List.drop_suffix (i + 1) code
    have hlen := congrArg List.length ((seek_of_suffix hnodup hsuffix hy).symm.trans hseek)
    have hlen' := congrArg List.length hdrop
    rw [List.length_drop] at hlen hlen'
    rw [List.length_cons] at hlen hlen'
    omega

theorem threadJumpsFrom_eq {code rest : Code} {i : Nat} (hv : Valid code)
    (hrest : code.drop i = rest) :
    ∃ b, (threadJumpsFrom code (labelsAt 0 code) i rest).run =
      .ok (.ok ⟨threadBy code.land rest, b⟩) ∧
      (b = false ↔ threadBy code.land rest = rest) := by
  induction rest generalizing i with
  | nil => exact ⟨false, rfl, fun _ => rfl, fun _ => rfl⟩
  | cons x rest ih =>
    have hdrop : code.drop (i + 1) = rest := by
      rw [← List.drop_drop, hrest]
      rfl
    obtain ⟨b, hb, hsame⟩ := ih hdrop
    have hx : x ∈ code := (hrest ▸ List.drop_suffix i code).subset List.mem_cons_self
    rw [threadJumpsFrom]
    cases hop : x.op.isBranch with
    | false =>
      have hgoal := Instr.goal?_eq_none hop
      have hskip : x.skips rest = false := by
        rw [Bool.eq_false_iff]
        intro h
        obtain ⟨l, _, _, _, hl, _⟩ := Instr.skips_iff.mp h
        rw [hgoal] at hl
        cases hl
      refine ⟨b, ?_, ?_⟩
      · rw [threadBy_of_not hskip, Instr.retarget_of_none hgoal]
        exact Fault.exceptT_bind_eq_ok_iff.mpr ⟨_, hb, rfl⟩
      · rw [threadBy_cons_eq_self_iff, hsame, Instr.retarget_of_none hgoal]
        exact ⟨fun h => ⟨hskip, rfl, h⟩, fun h => h.2.2⟩
    | true =>
      obtain ⟨l, more, hargs, htarget⟩ := (hv.wellFormed x hx).exists_target (.inl hop)
      have hgoal : x.goal? = some l := by rw [Instr.goal?, if_pos hop, htarget]
      have hl : l ∈ labels code := hv.resolved l (List.mem_filterMap.mpr ⟨x, hx, hgoal⟩)
      obtain ⟨p, hlookup, hseek, hp⟩ := lookup_labelsAt 0 hl
      rw [Nat.zero_add] at hlookup
      have hnext := eq_succ_iff hv.nodup hl hrest hseek hp
      have hskip : x.skips rest = true ↔ x.op = .br ∧ p = i + 1 := by
        rw [hnext, Instr.skips_iff]
        constructor
        · rintro ⟨m, y, more, hbr, hm, hr, hy⟩
          rw [hgoal] at hm
          cases hm
          exact ⟨hbr, y, more, hr, hy⟩
        · rintro ⟨hbr, y, more, hr, hy⟩
          exact ⟨l, y, more, hbr, hgoal, hr, hy⟩
      simp only [if_true, htarget, Option.getD_some, hlookup]
      by_cases hdrops : x.op = .br ∧ p = i + 1
      · rw [if_pos hdrops]
        refine ⟨true, ?_, ?_⟩
        · rw [threadBy_of_skips (hskip.mpr hdrops)]
          exact Fault.exceptT_bind_eq_ok_iff.mpr ⟨_, hb, rfl⟩
        · rw [threadBy_cons_eq_self_iff, hskip.mpr hdrops]
          exact ⟨Bool.noConfusion, fun h => Bool.noConfusion h.1⟩
      · rw [if_neg hdrops]
        have hkeeps : x.skips rest = false := Bool.eq_false_iff.mpr fun h => hdrops (hskip.mp h)
        have hlanding := Fault.exceptT_lift_eq_ok_iff.mpr (landing_eq hv hl).1
        rw [threadBy_of_not hkeeps, List.cons.injEq, Instr.retarget_eq_self_iff]
        by_cases hstay : code.land l = l
        · refine ⟨b, ?_, ?_⟩
          · have hx' : x.retarget code.land = x := by
              rw [Instr.retarget_eq_self_iff, hgoal]
              exact fun m hm => by cases hm; exact hstay
            rw [hx']
            refine Fault.exceptT_bind_eq_ok_iff.mpr ⟨_, hlanding, ?_⟩
            rw [if_pos hstay]
            exact Fault.exceptT_bind_eq_ok_iff.mpr ⟨_, hb, rfl⟩
          · rw [hsame, hgoal]
            exact ⟨fun h => ⟨fun m hm => by cases hm; exact hstay, h⟩, fun h => h.2⟩
        · refine ⟨true, ?_, ?_⟩
          · have hset :
                x.setPlace 0 (some (.label (code.land l))) = .ok (x.retarget code.land) := by
              rw [Instr.setPlace, if_pos (by rw [hargs]; exact Nat.succ_pos _),
                Instr.retarget, hgoal]
            refine Fault.exceptT_bind_eq_ok_iff.mpr ⟨_, hlanding, ?_⟩
            rw [if_neg hstay]
            refine Fault.exceptT_bind_eq_ok_iff.mpr ⟨_, Fault.exceptT_lift_eq_ok_iff.mpr hset, ?_⟩
            exact Fault.exceptT_bind_eq_ok_iff.mpr ⟨_, hb, rfl⟩
          · exact ⟨Bool.noConfusion, fun h => absurd (h.1 l hgoal) hstay⟩

/-- On valid code threading succeeds, and it says truly whether it changed anything. -/
theorem threadJumps_eq {code : Code} (hv : Valid code) :
    ∃ b, code.threadJumps.run = .ok (.ok ⟨threadBy code.land code, b⟩) ∧
      (b = false ↔ threadBy code.land code = code) := by
  obtain ⟨b, hb, hsame⟩ := threadJumpsFrom_eq (i := 0) hv rfl
  refine ⟨b, ?_, hsame⟩
  rw [threadJumps, hv.positions_eq]
  exact hb

end Code

namespace Machine
variable {M : Machine}

theorem effect_retarget (land : Label → Label) {x : Instr} {l : Label} (h : x.goal? = some l)
    (ρ : Regs) (w : World) :
    (M.effect x ρ w = .next ρ w ∧ M.effect (x.retarget land) ρ w = .next ρ w) ∨
      (M.effect x ρ w = .jump l ρ w ∧ M.effect (x.retarget land) ρ w = .jump (land l) ρ w) := by
  obtain ⟨op, args⟩ := x
  obtain ⟨hop, more, hargs⟩ := Instr.goal?_eq_some_iff.mp h
  simp only at hop hargs
  subst hargs
  rw [Instr.retarget_of_goal? hop]
  have htarget (m : Label) : Instr.target? ⟨op, some (.label m) :: more⟩ = some m := by
    rw [Instr.target?, if_pos (by rw [hop]; rfl)]
    rfl
  have hplace (a : Option Operand) : Instr.operand? ⟨op, a :: more⟩ 1 = more[0]?.join := rfl
  unfold effect
  simp only [htarget, hplace, Option.getD_some]
  rcases Opcode.isBranch_iff.mp hop with rfl | rfl | rfl
  · exact .inr ⟨rfl, rfl⟩
  · by_cases hv : M.value ρ more[0]?.join = 0
    · exact .inr ⟨if_pos hv, if_pos hv⟩
    · exact .inl ⟨if_neg hv, if_neg hv⟩
  · by_cases hv : M.value ρ more[0]?.join = 0
    · exact .inl ⟨if_neg (not_not.mpr hv), if_neg (not_not.mpr hv)⟩
    · exact .inr ⟨if_pos hv, if_pos hv⟩

theorem effect_of_not_branch {x : Instr} (h : x.op.isBranch = false) (ρ : Regs) (w : World) :
    (∃ σ v, M.effect x ρ w = .next σ v) ∨ ∃ u, M.effect x ρ w = .halt u w := by
  unfold effect
  cases hop : x.op with
  | br | brz | bnz =>
    rw [hop] at h
    cases h
  | ret => exact .inr ⟨_, rfl⟩
  | _ => exact .inl ⟨_, _, rfl⟩

theorem effect_label {x : Instr} (h : x.op = .label) (ρ : Regs) (w : World) :
    M.effect x ρ w = .next ρ w := by
  rw [effect, h]

variable {code : Code}

/-- Control comes from a label to where the label leads, over labels and jumps. -/
theorem drifts_of_leads (hv : Code.Valid code) {l m : Label} (hl : l ∈ code.labels)
    (h : code.Leads l m) (ρ : Regs) (w : World) :
    M.Drifts code ⟨code.seek l, ρ, w⟩ ⟨code.seek m, ρ, w⟩ := by
  induction h with
  | refl => exact .refl _
  | @tail j k hj hjk ih =>
    obtain ⟨x, rest, hseek, hlabel, hsuffix⟩ := Code.exists_seek (Code.Leads.mem_labels hv hl hj)
    rw [Code.next?, hseek] at hjk
    rw [hseek] at ih
    have hop := Instr.op_eq_of_label? hlabel
    refine ih.trans ((Drifts.next (.inl hop) (effect_label hop ρ w) rest).trans ?_)
    cases rest with
    | nil => cases hjk
    | cons y rest =>
      rw [Code.ahead?_cons_cons] at hjk
      split at hjk
      · rename_i hop
        rcases hop with hop | hop
        · exact .jump (.inr (.inl hop)) (by rw [effect, hop, hjk]; rfl) rest
        · have hy : y.label? = some k := by rw [Instr.label?, if_pos hop, hjk]
          rw [Code.seek_of_suffix hv.nodup ((List.suffix_cons x (y :: rest)).trans hsuffix) hy]
          exact .refl _
      · cases hjk

end Machine

theorem Code.seek_suffix (code : Code) (l : Label) : code.seek l <:+ code := by
  induction code with
  | nil => exact List.suffix_rfl
  | cons x rest ih =>
    rw [seek_cons]
    split
    · exact List.suffix_rfl
    · exact ih.trans (List.suffix_cons x rest)

/-- What is left of the new code is what is left of the old code, threaded. -/
def ThreadedConfig (code : Code) (land : Label → Label) (x y : Config) : Prop :=
  x.rest <:+ code ∧ y.rest = Code.threadBy land x.rest ∧ x.regs = y.regs ∧ x.world = y.world

theorem Machine.idles_retarget {M : Machine} {code code' rest rest' : Code} {x : Instr} {l : Label}
    {land : Label → Label} {n : Nat} {ρ : Regs} {w : World} (he : M.effect x ρ w = .jump l ρ w)
    (hn : M.Idles code n (.running ⟨code.seek l, ρ, w⟩)) :
    M.Idles code (1 + n) (.running ⟨x :: rest, ρ, w⟩) ↔
      M.Idles code' 1 (.running ⟨x.retarget land :: rest', ρ, w⟩) := by
  rw [Machine.idles_add, Machine.idles_one, Machine.idles_one, M.run_one, he, Effect.resolve,
    and_iff_left hn, Status.Idle, Status.Idle, Instr.Idle, Instr.Idle, Instr.op_retarget]

theorem idleLockstep_threadBy (M : Machine) {code : Code} (hv : Code.Valid code)
    {land : Label → Label} (hland : ∀ l ∈ code.labels, code.Leads l (land l)) :
    IdleLockstep M M code (Code.threadBy land code) (ThreadedConfig code land) := by
  refine ⟨fun h => h.2.2.2, ?_⟩
  rintro ⟨p, ρ, w⟩ ⟨_, _, _⟩ ⟨hsuffix, hrest, hregs, hworld⟩
  simp only at hsuffix hrest hregs hworld
  subst hrest hregs hworld
  cases p with
  | nil =>
    exact ⟨1, 1, Nat.one_pos, Nat.one_pos,
      .halted .ranOff w, by rw [Machine.idles_one, Machine.idles_one]; rfl⟩
  | cons x rest =>
    have hx : x ∈ code := hsuffix.subset List.mem_cons_self
    have hrest : rest <:+ code := (List.suffix_cons x rest).trans hsuffix
    cases hskip : x.skips rest with
    | true =>
      -- The jump that was dropped leads to the label after it, which both sides pass.
      obtain ⟨l, y, more, hop, hgoal, rfl, hy⟩ := Instr.skips_iff.mp hskip
      have hlabel := Instr.op_eq_of_label? hy
      have htarget : x.target? = some l := by
        rw [← hgoal, Instr.goal?, if_pos (by rw [hop]; rfl)]
      have hjump : M.effect x ρ w = .jump l ρ w := by
        rw [Machine.effect, hop, htarget]
        rfl
      have hseek : code.seek l = y :: more := Code.seek_of_suffix hv.nodup hrest hy
      rw [Code.threadBy_of_skips hskip, Code.threadBy_of_not (Code.skips_of_label? hy more)]
      refine ⟨1 + 1, 1, Nat.two_pos, Nat.one_pos, ?_, ?_⟩
      · rw [M.run_add, M.run_one, M.run_one, hjump, Effect.resolve, hseek, M.run_one,
            Machine.effect_label hlabel, Machine.effect_label (by rw [Instr.op_retarget, hlabel])]
        exact .running ⟨(List.suffix_cons y more).trans hrest, rfl, rfl, rfl⟩
      · rw [Machine.idles_add, Machine.idles_one, M.run_one, hjump, Effect.resolve, hseek,
            Machine.idles_one, Machine.idles_one]
        exact ⟨fun _ => .inl (by rw [Instr.op_retarget, hlabel]),
          fun _ => ⟨.inr (.inl hop), .inl hlabel⟩⟩
    | false =>
      rw [Code.threadBy_of_not hskip]
      cases hgoal : x.goal? with
      | none =>
        have hop := (hv.wellFormed x hx).isBranch_eq_false hgoal
        refine ⟨1, 1, Nat.one_pos, Nat.one_pos, ?_, ?_⟩
        · rw [Instr.retarget_of_none hgoal, M.run_one, M.run_one]
          rcases Machine.effect_of_not_branch (M := M) hop ρ w with ⟨σ, v, he⟩ | ⟨u, he⟩
          · rw [he]
            exact .running ⟨hrest, rfl, rfl, rfl⟩
          · rw [he]
            exact .halted _ w
        · rw [Instr.retarget_of_none hgoal, Machine.idles_one, Machine.idles_one]
          rfl
      | some l =>
        have hl : l ∈ code.labels := hv.resolved l (List.mem_filterMap.mpr ⟨x, hx, hgoal⟩)
        rcases Machine.effect_retarget (M := M) land hgoal ρ w with ⟨he, he'⟩ | ⟨he, he'⟩
        · refine ⟨1, 1, Nat.one_pos, Nat.one_pos, ?_, ?_⟩
          · rw [M.run_one, M.run_one, he, he']
            exact .running ⟨hrest, rfl, rfl, rfl⟩
          · rw [Machine.idles_one, Machine.idles_one, Status.Idle, Status.Idle, Instr.Idle,
              Instr.Idle, Instr.op_retarget]
        · obtain ⟨n, hn, hidle⟩ := Machine.drifts_of_leads (M := M) hv hl (hland l hl) ρ w
          refine ⟨1 + n, 1, by omega, Nat.one_pos, ?_, Machine.idles_retarget he hidle⟩
          rw [M.run_add, M.run_one, M.run_one, he, he', Effect.resolve, Effect.resolve, hn]
          exact .running ⟨code.seek_suffix _, Code.seek_threadBy _ _, rfl, rfl⟩

theorem behaviour_threadBy (M : Machine) {code : Code} (hv : Code.Valid code) {land : Label → Label}
    (hland : ∀ l ∈ code.labels, code.Leads l (land l)) (ρ : Regs) (w : World) :
    M.behaviour code ρ w = M.behaviour (Code.threadBy land code) ρ w :=
  behaviour_eq_of_lockstep (idleLockstep_threadBy M hv hland).lockstep
    ⟨List.suffix_rfl, rfl, rfl, rfl⟩

theorem circles_threadBy (M : Machine) {code : Code} (hv : Code.Valid code) {land : Label → Label}
    (hland : ∀ l ∈ code.labels, code.Leads l (land l)) (ρ : Regs) (w : World) :
    M.Circles code ρ w ↔ M.Circles (Code.threadBy land code) ρ w :=
  (idleLockstep_threadBy M hv hland).circles_iff ⟨List.suffix_rfl, rfl, rfl, rfl⟩

end ThreeAddress
