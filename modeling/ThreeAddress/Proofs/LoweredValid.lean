import ThreeAddress.Proofs.LoweredBehaviour
import ThreeAddress.Proofs.Success

/-!
# Lowered code is valid

Whatever the session, a tree that is lowered gives code that passes validation
(`Session.lowerFunc_consistent`). Its instructions are checked as they are made. Its labels are made
new one by one and each is put down once: counting them, a part of a tree puts down no more labels
than it makes (`Lowers.timesLabel_le`). And branches go to labels of the part they stand in, or out
of it where the part was told to go (`Lowers.targets_known`).
-/

namespace ThreeAddress
set_option autoImplicit false

open LowerM

/-- Whether the label has been made as a new one, as a number. -/
def Frame.made (l : Label) (s : Frame) : Nat := (s.session.labels.isFresh l).toNat

namespace Labels
variable {ls ls' : Labels} {l : Label}

theorem isFresh_iff : ls.isFresh l = true ↔ ∃ name, ls.get? l = some ⟨name, true⟩ := by
  rw [isFresh_eq]
  cases ls.get? l with
  | none => simp
  | some e =>
    obtain ⟨name, fresh⟩ := e
    simp

theorem nonneg_of_isFresh (h : ls.isFresh l = true) : 0 ≤ l.handle := by
  obtain ⟨name, hget⟩ := isFresh_iff.mp h
  exact (handle_of_get? hget).1

theorem isFresh_of_prefix (hls : ls.entries <+: ls'.entries) (h : ls.isFresh l = true) :
    ls'.isFresh l = true := by
  obtain ⟨name, hget⟩ := isFresh_iff.mp h
  exact isFresh_iff.mpr ⟨name, get?_of_prefix hls hget⟩

theorem get?_push_of_ne (ls : Labels) (e : LabelEntry) (h : l ≠ ⟨ls.size⟩) :
    (ls.push e).2.get? l = ls.get? l := by
  have hsize : l.handle ≠ ls.entries.length := by
    rw [length_entries]
    exact fun heq => h (congrArg Label.mk heq)
  unfold get?
  rw [entries_push]
  split
  · rfl
  · rcases Nat.lt_or_ge l.handle.toNat ls.entries.length with hlt | hge
    · rw [List.getElem?_append_left hlt]
    · rw [List.getElem?_eq_none hge, List.getElem?_eq_none]
      rw [List.length_append, List.length_singleton]
      omega

theorem not_isFresh_size (ls : Labels) : ls.isFresh ⟨ls.size⟩ = false := by
  rw [isFresh_eq, get?_eq_none (Int.le_refl _)]
  rfl

theorem count_fresh (ls : Labels) (name : Bytes) (l : Label) :
    [(ls.fresh name).1].count l + (ls.isFresh l).toNat = ((ls.fresh name).2.isFresh l).toNat := by
  rw [fresh_eq]
  have hfresh : (ls.push ⟨name, true⟩).1 = ⟨ls.size⟩ := rfl
  by_cases hl : l = ⟨ls.size⟩
  · have hnew : (ls.push ⟨name, true⟩).2.isFresh l = true := by
      rw [hl]
      exact isFresh_iff.mpr ⟨name, ls.get?_push_self ⟨name, true⟩⟩
    have hold : ls.isFresh l = false := by
      rw [hl]
      exact ls.not_isFresh_size
    rw [hnew, hold, hfresh, hl, List.count_singleton_self]
    rfl
  · have hsame : (ls.push ⟨name, true⟩).2.isFresh l = ls.isFresh l := by
      rw [isFresh_eq, isFresh_eq, get?_push_of_ne ls _ hl]
    have hcount : [(ls.push ⟨name, true⟩).1].count l = 0 :=
      List.count_eq_zero.mpr fun hmem => hl (List.mem_singleton.mp hmem)
    rw [hsame, hcount, Nat.zero_add]

end Labels

theorem Frame.Grows.made_le {s s' : Frame} (h : s.Grows s') (l : Label) : s.made l ≤ s'.made l := by
  unfold made
  cases hl : s.session.labels.isFresh l with
  | false => exact Nat.zero_le _
  | true => rw [Labels.isFresh_of_prefix h.session.labels hl]

theorem count_newLabel {base : String} {fin : Label} {s s' : Frame}
    (h : newLabel base s = .ok fin s') (l : Label) :
    [fin].count l + s.made l = s'.made l := by
  cases h
  exact Labels.count_fresh _ _ l

namespace Code
variable {c : Code} {l : Label}

@[simp] theorem labels_mark {k : NodeKind} : labels (.mark k :: c) = labels c := rfl

@[simp] theorem labels_defineLabel : labels (.defineLabel l :: c) = l :: labels c := rfl

@[simp] theorem labels_jump : labels (.jump l :: c) = labels c := rfl

@[simp] theorem labels_make {op : Opcode} (hop : op ≠ .label) {args : List Operand} :
    labels (.make op args :: c) = labels c := by
  rw [labels_cons, Instr.label?_eq_none hop]
  rfl

@[simp] theorem labels_given {dst : Option Reg} {v : Operand} : labels (given dst v) = [] := by
  cases dst <;> rfl

@[simp] theorem targets_mark {k : NodeKind} : targets (.mark k :: c) = targets c := rfl

@[simp] theorem targets_defineLabel : targets (.defineLabel l :: c) = targets c := rfl

@[simp] theorem targets_jump : targets (.jump l :: c) = l :: targets c := rfl

@[simp] theorem targets_make {op : Opcode} {args : List Operand} : targets (.make op args :: c) =
    (if op.isBranch then (args.head?.bind Operand.label?).toList else []) ++ targets c := by
  rw [targets_cons, Instr.goal?, Instr.target?]
  cases args <;> cases hop : op.isBranch <;> simp [Instr.make, Instr.operand?, hop]

@[simp] theorem targets_given {dst : Option Reg} {v : Operand} : targets (given dst v) = [] := by
  cases dst <;> rfl

end Code

@[simp] theorem Operand.label?_label (l : Label) : (Operand.label l).label? = some l := rfl

/-- How often the label is put down. -/
def Code.timesLabel (l : Label) (code : Code) : Nat := code.labels.count l

namespace Code
variable {c d : Code} {l m : Label}

@[simp] theorem timesLabel_nil : timesLabel l [] = 0 := rfl

@[simp] theorem timesLabel_append : timesLabel l (c ++ d) = timesLabel l c + timesLabel l d := by
  rw [timesLabel, labels_append, List.count_append]
  rfl

@[simp] theorem timesLabel_mark {k : NodeKind} : timesLabel l (.mark k :: c) = timesLabel l c := rfl

@[simp] theorem timesLabel_jump : timesLabel l (.jump m :: c) = timesLabel l c := rfl

@[simp] theorem timesLabel_defineLabel :
    timesLabel l (.defineLabel m :: c) = [m].count l + timesLabel l c := by
  change (m :: labels c).count l = _
  rw [← List.singleton_append, List.count_append]
  rfl

@[simp] theorem timesLabel_make {op : Opcode} (hop : op ≠ .label) {args : List Operand} :
    timesLabel l (.make op args :: c) = timesLabel l c := by
  rw [timesLabel, labels_make hop]
  rfl

@[simp] theorem timesLabel_given {dst : Option Reg} {v : Operand} :
    timesLabel l (given dst v) = 0 := by
  rw [timesLabel, labels_given]
  rfl

end Code

theorem Opcode.ne_label_of_isBranch {op : Opcode} (h : op.isBranch = true) : op ≠ .label := by
  rintro rfl
  cases h

@[simp] def Part.Branches : Part → Prop
  | .tests branch _ _ => branch.isBranch = true
  | _ => True

section
variable {p : Part} {loop : Option Loop} {b : Body} {s s' : Frame} {c : Code}

/-- A part puts down no label twice, and only labels that it has made. -/
theorem Lowers.timesLabel_le (h : Lowers p s c s') (hp : p.Branches) (l : Label) :
    c.timesLabel l + s.made l ≤ s'.made l := by
  induction h with
  | atom he hv => simpa using (reads_of_atom? he hv).2.1.made_le l
  | unary _ _ hd ihx =>
    have hx := ihx trivial
    have hle := (orTemp_grows hd).made_le l
    simp
    omega
  | binary _ _ _ hd ihx ihy =>
    have hx := ihx trivial
    have hy := ihy trivial
    have hle := (orTemp_grows hd).made_le l
    simp
    omega
  | chainOne _ ih => simpa using ih trivial
  | chain _ _ _ ihx iht =>
    have hx := ihx trivial
    have ht := iht trivial
    simp
    omega
  | all _ hd hfin _ iht =>
    have ht := iht rfl
    have hle := (orTemp_grows hd).made_le l
    have hnew := count_newLabel hfin l
    simp
    omega
  | any _ hd hfound hfin _ iht =>
    have ht := iht rfl
    have hle := (orTemp_grows hd).made_le l
    have hnew := count_newLabel hfound l
    have hnew' := count_newLabel hfin l
    simp
    omega
  | cond _ hother hfin _ _ ihc iha ihb =>
    have hc := ihc trivial
    have ha := iha trivial
    have hb := ihb trivial
    have hnew := count_newLabel hother l
    have hnew' := count_newLabel hfin l
    simp
    omega
  | call hcallee _ iha =>
    obtain ⟨_, _, _, hgrows, _⟩ := calleeOf_eq_ok hcallee
    have ha := iha trivial
    have hle := hgrows.made_le l
    simp
    omega
  | assignAtom he hr hv =>
    simpa using ((regOf_eq_ok hr).2.1.trans (reads_of_atom? he hv).2.1).made_le l
  | assign _ hr _ ihx =>
    have hx := ihx trivial
    have hle := (regOf_eq_ok hr).2.1.made_le l
    simp
    omega
  | load _ hd iha =>
    have ha := iha trivial
    have hle := (orTemp_grows hd).made_le l
    simp
    omega
  | fresh ht _ ih =>
    exact Nat.le_trans (Nat.add_le_add_left ((newTemp_grows ht).made_le l) _) (ih trivial)
  | operandAtom he hv => simpa using (reads_of_atom? he hv).2.1.made_le l
  | operand _ _ ih => exact ih trivial
  | termsLast _ _ hd ihx =>
    have hx := ihx trivial
    have hle := (orTemp_grows hd).made_le l
    simp
    omega
  | termsMore _ _ _ ht _ ihx iht =>
    have hx := ihx trivial
    have ht' := iht trivial
    have hle := (newTemp_grows ht).made_le l
    simp
    omega
  | testsNil | guardHole | argsNil => simp
  | testsCons _ _ ihx iht =>
    have hx := ihx trivial
    have ht := iht hp
    have hbranch := Opcode.ne_label_of_isBranch hp
    simp [hbranch]
    omega
  | guard _ _ ih => simpa using ih trivial
  | argsCons _ _ ihx ihs =>
    have hx := ihx trivial
    have hs := ihs trivial
    simp
    omega

theorem LowersBody.timesLabel_le (h : LowersBody loop b s c s') (l : Label) :
    c.timesLabel l + s.made l ≤ s'.made l := by
  induction h with
  | hole | breakLoop | continueLoop | retNone | nil => simp
  | block _ ih => simpa using ih
  | expr hx => simpa using hx.timesLabel_le trivial l
  | store ha hx =>
    have ha' := ha.timesLabel_le trivial l
    have hx' := hx.timesLabel_le trivial l
    simp
    omega
  | branch hc hfin _ iha =>
    have hc' := hc.timesLabel_le trivial l
    have hnew := count_newLabel hfin l
    simp
    omega
  | branchElse _ hc hfin hother _ _ iha ihb =>
    have hc' := hc.timesLabel_le trivial l
    have hnew := count_newLabel hfin l
    have hnew' := count_newLabel hother l
    simp
    omega
  | whileLoop htop hfin hc _ ihb =>
    have hc' := hc.timesLabel_le trivial l
    have hnew := count_newLabel htop l
    have hnew' := count_newLabel hfin l
    simp
    omega
  | forLoop _ htop hnext hfin hc _ _ ihstart ihb ihp =>
    have hc' := hc.timesLabel_le trivial l
    have htop' := count_newLabel htop l
    have hnext' := count_newLabel hnext l
    have hfin' := count_newLabel hfin l
    simp
    omega
  | ret _ hx => simpa using hx.timesLabel_le trivial l
  | cons _ _ ih ihs =>
    simp
    omega

/-- Where a part may send control beside its own labels. -/
@[simp] def Part.exits : Part → List Label
  | .tests _ target _ => [target]
  | .guard _ target => [target]
  | _ => []

/-- Where the statements of a loop may send control beside their own labels. -/
@[simp] def Loop.exits : Option Loop → List Label
  | some loop => [loop.onBreak, loop.onContinue]
  | none => []

/-- Branches go to what is known once the labels and the exits of their part are. -/
theorem Lowers.targets_known (h : Lowers p s c s') (hp : p.Branches) {K : Label → Prop}
    (hlabels : ∀ l ∈ c.labels, K l) (hexits : ∀ l ∈ p.exits, K l) : ∀ l ∈ c.targets, K l := by
  induction h with
  | atom | assignAtom | operandAtom | testsNil | guardHole | argsNil => simp [Opcode.isBranch]
  | unary _ _ _ ihx | load _ _ ihx | termsLast _ _ _ ihx | assign _ _ _ ihx | call _ _ ihx =>
    simp [Opcode.isBranch] at hlabels ⊢
    exact ihx trivial hlabels (List.forall_mem_nil _)
  | binary _ _ _ _ ihx ihy | termsMore _ _ _ _ _ ihx ihy =>
    simp [Opcode.isBranch, or_imp, forall_and] at hlabels ⊢
    exact ⟨ihx trivial hlabels.1 (List.forall_mem_nil _),
      ihy trivial hlabels.2 (List.forall_mem_nil _)⟩
  | chainOne _ ih => exact ih trivial hlabels (List.forall_mem_nil _)
  | chain _ _ _ ihx ihy | argsCons _ _ ihx ihy =>
    simp [or_imp, forall_and] at hlabels ⊢
    exact ⟨ihx trivial hlabels.1 (List.forall_mem_nil _),
      ihy trivial hlabels.2 (List.forall_mem_nil _)⟩
  | all _ _ _ _ iht =>
    simp [Opcode.isBranch, or_imp, forall_and] at hlabels ⊢
    exact iht rfl hlabels.1 (by simp [hlabels])
  | any _ _ _ _ _ iht =>
    simp [Opcode.isBranch, or_imp, forall_and] at hlabels ⊢
    exact ⟨iht rfl hlabels.1 (by simp [hlabels]), hlabels.2.2⟩
  | cond _ _ _ _ _ ihc iha ihb =>
    simp [or_imp, forall_and] at hlabels ⊢
    obtain ⟨hc, ha, hother, hb, hfin⟩ := hlabels
    exact ⟨ihc trivial hc (by simp [hother]), iha trivial ha (List.forall_mem_nil _), hfin,
      ihb trivial hb (List.forall_mem_nil _)⟩
  | fresh _ _ ih | operand _ _ ih => exact ih trivial hlabels (List.forall_mem_nil _)
  | testsCons _ _ ihx iht =>
    have hbranch := hp
    simp only [Part.Branches] at hbranch
    simp [hbranch, Opcode.ne_label_of_isBranch hp, or_imp, forall_and] at hlabels ⊢
    exact ⟨ihx trivial hlabels.1 (List.forall_mem_nil _), hexits _ (by simp),
      iht hp hlabels.2 hexits⟩
  | guard _ _ ih =>
    simp [Opcode.isBranch, or_imp, forall_and] at hlabels hexits ⊢
    exact ⟨ih trivial hlabels (List.forall_mem_nil _), hexits⟩

theorem LowersBody.targets_known (h : LowersBody loop b s c s') {K : Label → Prop}
    (hlabels : ∀ l ∈ c.labels, K l) (hexits : ∀ l ∈ Loop.exits loop, K l) :
    ∀ l ∈ c.targets, K l := by
  induction h with
  | hole | nil | retNone => simp [Opcode.isBranch]
  | breakLoop | continueLoop => simpa using hexits _ (by simp)
  | block _ ih => exact ih hlabels hexits
  | expr hx => exact hx.targets_known trivial hlabels (List.forall_mem_nil _)
  | store ha hx =>
    simp [Opcode.isBranch, or_imp, forall_and] at hlabels ⊢
    exact ⟨ha.targets_known trivial hlabels.1 (List.forall_mem_nil _),
      hx.targets_known trivial hlabels.2 (List.forall_mem_nil _)⟩
  | branch hc _ _ iha =>
    simp [or_imp, forall_and] at hlabels ⊢
    exact ⟨hc.targets_known trivial hlabels.1 (by simp [hlabels]), iha hlabels.2.1 hexits⟩
  | branchElse _ hc _ _ _ _ iha ihb =>
    simp [or_imp, forall_and] at hlabels ⊢
    obtain ⟨hcl, ha, hother, hb, hfin⟩ := hlabels
    exact ⟨hc.targets_known trivial hcl (by simp [hother]), iha ha hexits, hfin, ihb hb hexits⟩
  | whileLoop _ _ hc _ ihb =>
    simp [or_imp, forall_and] at hlabels ⊢
    obtain ⟨htop, hcl, hb, hfin⟩ := hlabels
    exact ⟨hc.targets_known trivial hcl (by simp [hfin]), ihb hb (by simp [htop, hfin]), htop⟩
  | forLoop _ _ _ _ hc _ _ ihstart ihb ihp =>
    simp [or_imp, forall_and] at hlabels ⊢
    obtain ⟨hs, htop, hcl, hb, hnext, hpost, hfin⟩ := hlabels
    exact ⟨ihstart hs hexits, hc.targets_known trivial hcl (by simp [hfin]),
      ihb hb (by simp [hnext, hfin]), ihp hpost hexits, htop⟩
  | ret _ hx =>
    simp [Opcode.isBranch] at hlabels ⊢
    exact hx.targets_known trivial hlabels (List.forall_mem_nil _)
  | cons _ _ ih ihs =>
    simp [or_imp, forall_and] at hlabels ⊢
    exact ⟨ih hlabels.1 hexits, ihs hlabels.2 hexits⟩

end

namespace Code

theorem Valid.terminate {c : Code} (h : Valid c) : Valid c.terminate := by
  unfold Code.terminate
  split
  · exact h
  · have hlabels : labels (c ++ [.make .ret []]) = labels c := by simp
    have htargets : targets (c ++ [.make .ret []]) = targets c := by simp [Opcode.isBranch]
    refine ⟨?_, hlabels ▸ h.nodup, hlabels ▸ h.nonneg, ?_⟩
    · have hret : (Instr.make .ret []).WellFormed := rfl
      exact checked_append.mpr ⟨h.wellFormed, (checked_cons hret).mpr checked_nil⟩
    · rw [hlabels, htargets]
      exact h.resolved

theorem valid_of_lowersBody {b : Body} {s s' : Frame} {c : Code} (h : LowersBody none b s c s')
    (hc : c.Checked) :
    Valid c where
  wellFormed := hc
  nodup := by
    apply List.nodup_iff_count_le_one.mpr
    intro l
    -- a label is put down no more often than it is made
    have hle := h.timesLabel_le l
    have hone : s'.made l ≤ 1 := Bool.toNat_le _
    unfold timesLabel at hle
    omega
  nonneg := by
    intro l hl
    have hle := h.timesLabel_le l
    have hpos : 0 < c.timesLabel l := List.count_pos_iff.mpr hl
    cases hfresh : s'.session.labels.isFresh l with
    | true => exact Labels.nonneg_of_isFresh hfresh
    | false =>
      have hzero : s'.made l = 0 := by rw [Frame.made, hfresh]; rfl
      omega
  resolved := h.targets_known (fun _ hl => hl) nofun

end Code

namespace LowerM
variable {α β : Type} {s s' : Frame} {e : Error}

theorem bind_eq_error_iff {x : LowerM α} {f : α → LowerM β} :
    (x >>= f) s = .error e s' ↔
      x s = .error e s' ∨ ∃ a s₁, x s = .ok a s₁ ∧ f a s₁ = .error e s' := by
  change EStateM.bind x f s = _ ↔ _
  unfold EStateM.bind
  cases x s with
  | ok a s₁ => simp
  | error e s₁ => simp

theorem within_eq_error_iff {c : Context} {act : LowerM α} :
    within c act s = .error e s' ↔ ∃ e', act s = .error e' s' ∧ e = e'.within c := by
  unfold within
  cases act s with
  | ok a s₁ => simp
  | error e' s₁ =>
    simp only [EStateM.Result.error.injEq]
    constructor
    · rintro ⟨rfl, rfl⟩
      exact ⟨e', ⟨rfl, rfl⟩, rfl⟩
    · rintro ⟨_, ⟨rfl, rfl⟩, rfl⟩
      exact ⟨rfl, rfl⟩

end LowerM

namespace Decl
variable {d : Decl} {s s' : Frame}

theorem lower_eq (d : Decl) : d.lower = declare d.header.params >>= fun r =>
    match r with
    | .error f => pure (.error f)
    | .ok ps => do
      let code ← within .body (d.stmt.lower none)
      return .ok ⟨d.header.name, d.header.ret, ps, code.terminate⟩ := by
  unfold lower stmt
  congr 1
  funext r
  cases r with
  | error f => rfl
  | ok ps =>
    cases d.body with
    | none => rfl
    | some list => rfl

theorem lower_eq_ok_iff {f : Func} : d.lower s = .ok (.ok f) s' ↔ ∃ ps s₁ c,
    declare d.header.params s = .ok (.ok ps) s₁ ∧ d.stmt.lower none s₁ = .ok c s' ∧
      f = ⟨d.header.name, d.header.ret, ps, c.terminate⟩ := by
  rw [lower_eq, bind_eq_ok_iff]
  constructor
  · rintro ⟨r, s₁, hr, h⟩
    cases r with
    | error f => cases (pure_eq_ok_iff.mp h).1
    | ok ps =>
      obtain ⟨c, s₂, hc, h⟩ := bind_eq_ok_iff.mp h
      obtain ⟨hf, rfl⟩ := pure_eq_ok_iff.mp h
      cases hf
      exact ⟨ps, s₁, c, hr, within_eq_ok_iff.mp hc, rfl⟩
  · rintro ⟨ps, s₁, c, hr, hc, rfl⟩
    refine ⟨.ok ps, s₁, hr, bind_eq_ok_iff.mpr ⟨c, s', within_eq_ok_iff.mpr hc, rfl⟩⟩

theorem lower_eq_error_iff {e : Error} :
    d.lower s = .error e s' ↔ declare d.header.params s = .error e s' ∨
      ∃ ps s₁ e', declare d.header.params s = .ok (.ok ps) s₁ ∧
        d.stmt.lower none s₁ = .error e' s' ∧
        e = e'.within .body := by
  rw [lower_eq, bind_eq_error_iff]
  constructor
  · rintro (h | ⟨r, s₁, hr, h⟩)
    · exact .inl h
    · cases r with
      | error f => cases h
      | ok ps =>
        rcases bind_eq_error_iff.mp h with h | ⟨c, s₂, _, h⟩
        · obtain ⟨e', he', rfl⟩ := within_eq_error_iff.mp h
          exact .inr ⟨ps, s₁, e', hr, he', rfl⟩
        · cases h
  · rintro (h | ⟨ps, s₁, e', hr, he', rfl⟩)
    · exact .inl h
    · exact .inr
        ⟨.ok ps, s₁, hr, bind_eq_error_iff.mpr (.inl (within_eq_error_iff.mpr ⟨e', he', rfl⟩))⟩

theorem valid_of_lower {f : Func} (h : d.lower s = .ok (.ok f) s') : Code.Valid f.code := by
  obtain ⟨ps, s₁, c, _, hc, rfl⟩ := lower_eq_ok_iff.mp h
  have hchecked : c.Checked := ((Stmt.lowerable d.stmt none).of_ok hc).2
  exact (Code.valid_of_lowersBody (d.stmt.lowers hc) hchecked).terminate

end Decl

namespace Session
variable {s : Session} {d : Decl}

theorem lowerFunc_of_lower {f : Func} {fin : Frame} (h : d.lower ⟨s, 0, []⟩ = .ok (.ok f) fin) :
    s.lowerFunc d = .ok (.ok f, fin.session) := by
  have hverified : f.validate.run = .ok (.ok ()) := Func.verified_iff.mpr (Decl.valid_of_lower h)
  unfold lowerFunc
  rw [h]
  change (f.validate.run >>= _) = _
  rw [hverified]
  rfl

theorem lowerFunc_eq_error_iff {e : Error} {s' : Session} : s.lowerFunc d = .ok (.error e, s') ↔
    ∃ fin, d.lower ⟨s, 0, []⟩ = .error e fin ∧ fin.session = s' := by
  cases hlower : d.lower ⟨s, 0, []⟩ with
  | error e' fin =>
    unfold lowerFunc
    rw [hlower]
    simp
  | ok r fin =>
    cases r with
    | error f =>
      have hfault : s.lowerFunc d = .error f := by
        unfold lowerFunc
        rw [hlower]
        rfl
      rw [hfault]
      simp
    | ok f =>
      rw [lowerFunc_of_lower hlower]
      simp

end Session

/-- In whatever session: once the parameters and the body of a function are lowered, its code is
valid and the function is handed out; so all errors come from the parameters or from the body. -/
theorem Session.lowerFunc_consistent (s : Session) (d : Decl) :
    (∀ ps s₁ c s₂, declare d.header.params ⟨s, 0, []⟩ = .ok (.ok ps) s₁ →
      d.stmt.lower none s₁ = .ok c s₂ →
      ∃ f : Func, f = ⟨d.header.name, d.header.ret, ps, c.terminate⟩ ∧
        Code.Valid f.code ∧ f.Verified ∧ s.lowerFunc d = .ok (.ok f, s₂.session)) ∧
    ∀ e s', s.lowerFunc d = .ok (.error e, s') ↔ ∃ fin, fin.session = s' ∧
      (declare d.header.params ⟨s, 0, []⟩ = .error e fin ∨
        ∃ ps s₁ e', declare d.header.params ⟨s, 0, []⟩ = .ok (.ok ps) s₁ ∧
          d.stmt.lower none s₁ = .error e' fin ∧ e = e'.within .body) := by
  constructor
  · intro ps s₁ c s₂ hps hc
    have hlower := Decl.lower_eq_ok_iff.mpr ⟨ps, s₁, c, hps, hc, rfl⟩
    have hvalid := Decl.valid_of_lower hlower
    exact ⟨_, rfl, hvalid, Func.verified_iff.mpr hvalid, lowerFunc_of_lower hlower⟩
  · intro e s'
    rw [lowerFunc_eq_error_iff]
    constructor
    · rintro ⟨fin, h, hs⟩
      exact ⟨fin, hs, Decl.lower_eq_error_iff.mp h⟩
    · rintro ⟨fin, hs, h⟩
      exact ⟨fin, Decl.lower_eq_error_iff.mpr h, hs⟩

theorem Session.lowerFunc_consistent_countdown :
    (∃ f s', Session.empty.lowerFunc .countdown = .ok (.ok f, s') ∧
        Code.Valid f.code ∧ f.Verified) ∧
      ∃ e s', Session.empty.lowerFunc (Sample.decl "astray" .void [] [.breakLoop]) =
        .ok (.error e, s') := by
  constructor
  · obtain ⟨ps, s₁, c, s₂, hps, hc⟩ :
        ∃ ps s₁ c s₂, declare Decl.countdown.header.params ⟨.empty, 0, []⟩ = .ok (.ok ps) s₁ ∧
        Decl.countdown.stmt.lower none s₁ = .ok c s₂ := ⟨_, _, _, _, rfl, rfl⟩
    obtain ⟨f, _, hvalid, hverified, hlower⟩ :=
      (lowerFunc_consistent .empty .countdown).1 ps s₁ c s₂ hps hc
    exact ⟨f, _, hlower, hvalid, hverified⟩
  · exact
      ⟨_, _, ((lowerFunc_consistent .empty _).2 _ _).mpr ⟨_, rfl, .inr ⟨_, _, _, rfl, rfl, rfl⟩⟩⟩

end ThreeAddress
