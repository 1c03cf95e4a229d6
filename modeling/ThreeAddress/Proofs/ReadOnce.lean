import ThreeAddress.Proofs.LocalSteps
import ThreeAddress.Proofs.Lowered

/-!
# Temporaries of lowered code

Lowering hands out a temporary for each value that it needs once. So lowered code reads no temporary
twice, and it writes the registers of variables by moves only (`Code.ReadOnce`). This is what lets a
comparison disappear in the branch after it, although folding itself does not ask who else reads the
result.

A temporary is counted as it passes through the rules of lowering: a part reads the operands it is
given, and leaves some to what comes after it (`Lowers.count_reads_le`).
-/

namespace ThreeAddress
set_option autoImplicit false

open LowerM

/-- The registers among some operands. -/
def Operand.keysOf (vs : List Operand) : List RegKey := (vs.map some).filterMap Operand.keyAt?

theorem Operand.keysOf_cons (v : Operand) (vs : List Operand) :
    keysOf (v :: vs) = keysOf [v] ++ keysOf vs := by
  rw [keysOf, List.map_cons, ← List.singleton_append, List.filterMap_append]
  rfl

theorem Instr.reads_make (op : Opcode) (args : List Operand) :
    (Instr.make op args).reads =
      Operand.keysOf (if op.isDefinition then args.drop 1 else args) := by
  unfold reads make Operand.keysOf
  split
  · rw [List.map_drop]
  · rfl

def timesTemp (i : Int) (vs : List Operand) : Nat := (Operand.keysOf vs).count ⟨true, i⟩

/-- How often the temporary `i` is read. -/
def Code.readsTemp (i : Int) (code : Code) : Nat := code.reads.count ⟨true, i⟩

/-- Whether the temporary `i` has been handed out, as a number. -/
def Frame.handed (i : Int) (s : Frame) : Nat := if i < s.nextTemp then 1 else 0

section Counting
variable {i : Int}

@[simp] theorem timesTemp_nil : timesTemp i [] = 0 := rfl

theorem timesTemp_cons (v : Operand) (vs : List Operand) :
    timesTemp i (v :: vs) = timesTemp i [v] + timesTemp i vs := by
  rw [timesTemp, Operand.keysOf_cons, List.count_append]
  rfl

@[simp] theorem timesTemp_cons_cons (v u : Operand) (vs : List Operand) :
    timesTemp i (v :: u :: vs) = timesTemp i [v] + timesTemp i (u :: vs) :=
  timesTemp_cons v (u :: vs)

@[simp] theorem timesTemp_num (n : Int) (w : Width) : timesTemp i [.num n w] = 0 := rfl

@[simp] theorem timesTemp_label (l : Label) (vs : List Operand) :
    timesTemp i (.label l :: vs) = timesTemp i vs := rfl

@[simp] theorem timesTemp_callee (l : Label) (w : Width) (vs : List Operand) :
    timesTemp i (.callee l w :: vs) = timesTemp i vs := rfl

theorem timesTemp_named {r : Reg} (hr : r.temp = false) (i : Int) : timesTemp i [.reg r] = 0 := by
  apply List.count_eq_zero.mpr
  intro hmem
  have htemp : true = r.temp := congrArg RegKey.temp (List.mem_singleton.mp hmem)
  rw [hr] at htemp
  cases htemp

theorem Reads.timesTemp_eq {s : Frame} {e : Expr} {v : Operand} (h : Reads s e v) (hs : s.Numbered)
    (i : Int) : timesTemp i [v] = 0 := by
  cases h with
  | var hr => exact timesTemp_named (hs.named hr) i
  | num | str | funcRef => rfl

namespace Code

@[simp] theorem readsTemp_nil : readsTemp i [] = 0 := rfl

@[simp] theorem readsTemp_append (c d : Code) :
    readsTemp i (c ++ d) = readsTemp i c + readsTemp i d := by
  rw [readsTemp, reads_append, List.count_append]
  rfl

@[simp] theorem readsTemp_mark (k : NodeKind) (c : Code) :
    readsTemp i (.mark k :: c) = readsTemp i c := rfl

@[simp] theorem readsTemp_defineLabel (l : Label) (c : Code) :
    readsTemp i (.defineLabel l :: c) = readsTemp i c := rfl

@[simp] theorem readsTemp_jump (l : Label) (c : Code) :
    readsTemp i (.jump l :: c) = readsTemp i c := rfl

@[simp] theorem readsTemp_make (op : Opcode) (args : List Operand) (c : Code) :
    readsTemp i (.make op args :: c) =
      timesTemp i (if op.isDefinition then args.drop 1 else args) + readsTemp i c := by
  rw [readsTemp, reads_cons, List.count_append, Instr.reads_make]
  rfl

theorem readsTemp_given_le (dst : Option Reg) (v : Operand) (i : Int) :
    readsTemp i (given dst v) ≤ timesTemp i [v] := by
  cases dst with
  | none => exact Nat.zero_le _
  | some r => exact Nat.le_of_eq (readsTemp_make .mov [.reg r, v] [])

end Code

theorem Frame.Grows.handed_le {s s' : Frame} (h : s.Grows s') (i : Int) :
    s.handed i ≤ s'.handed i := by
  have hle := h.temps
  unfold handed
  split <;> split <;> omega

theorem timesTemp_newTemp {w : Width} {t : Reg} {s s' : Frame}
    (h : newTemp w s = .ok t s') (i : Int) :
    timesTemp i [.reg t] + s.handed i = s'.handed i := by
  obtain ⟨rfl, rfl⟩ := newTemp_eq_ok h
  have hkeys : Operand.keysOf [.reg ⟨s.nextTemp, w, true, ""⟩] = [⟨true, s.nextTemp⟩] := rfl
  rw [timesTemp, hkeys, List.count_singleton]
  unfold Frame.handed
  by_cases hi : i = s.nextTemp
  · have hlt : (s.nextTemp : Int) < (s.nextTemp + 1 : Nat) := by omega
    rw [hi, beq_self_eq_true, if_pos rfl, if_neg (Int.lt_irrefl _)]
    exact (if_pos hlt).symm
  · have hne : ((⟨true, s.nextTemp⟩ : RegKey) == ⟨true, i⟩) = false := by
      rw [beq_eq_false_iff_ne]
      intro hkey
      exact hi (congrArg RegKey.index hkey).symm
    have hiff : i < s.nextTemp ↔ i < (s.nextTemp + 1 : Nat) := by omega
    rw [hne, if_neg Bool.false_ne_true, Nat.zero_add]
    exact if_congr hiff rfl rfl

end Counting

/-- The operands that a part leaves to be read. -/
@[simp] def Part.leaves : Part → List Operand
  | .fresh _ _ t => [.reg t]
  | .operand _ v => [v]
  | .args _ _ ts => ts.map .reg
  | _ => []

@[simp] def Part.given : Part → List Operand
  | .terms _ _ acc _ => [acc]
  | _ => []

variable {p : Part} {s s' : Frame} {c : Code}

theorem Lowers.count_reads_le (h : Lowers p s c s') (hs : s.Numbered) (i : Int) :
    c.readsTemp i + timesTemp i p.leaves + s.handed i ≤ timesTemp i p.given + s'.handed i := by
  induction h with
  | @atom e act k dst v s s' he hv =>
    obtain ⟨hreads, hgrows, _⟩ := reads_of_atom? he hv
    have hzero := hreads.timesTemp_eq (hgrows.numbered hs) i
    have hgiven := Code.readsTemp_given_le dst v i
    have hle := hgrows.handed_le i
    simp
    omega
  | unary _ _ hd ihx =>
    have hx := ihx hs
    have hle := (orTemp_grows hd).handed_le i
    simp [Opcode.isDefinition] at hx ⊢
    omega
  | binary _ hx hy hd ihx ihy =>
    have hx' := ihx hs
    have hy' := ihy (hx.grows.numbered hs)
    have hle := (orTemp_grows hd).handed_le i
    simp [Opcode.isDefinition] at hx' hy' ⊢
    omega
  | chainOne _ ih => simpa using ih hs
  | chain _ hx _ ihx iht =>
    have hx' := ihx hs
    have ht' := iht (hx.grows.numbered hs)
    simp at hx' ht' ⊢
    omega
  | all _ hd hfin _ iht =>
    have hgrows := (orTemp_grows hd).trans (newLabel_grows hfin)
    have ht' := iht (hgrows.numbered hs)
    have hle := hgrows.handed_le i
    simp [Opcode.isDefinition] at ht' ⊢
    omega
  | any _ hd hfound hfin _ iht =>
    have hgrows := ((orTemp_grows hd).trans (newLabel_grows hfound)).trans (newLabel_grows hfin)
    have ht' := iht (hgrows.numbered hs)
    have hle := hgrows.handed_le i
    simp [Opcode.isDefinition] at ht' ⊢
    omega
  | cond hc hother hfin ha _ ihc iha ihb =>
    have hlabels := (newLabel_grows hother).trans (newLabel_grows hfin)
    have hgrows := hc.grows.trans hlabels
    have hc' := ihc hs
    have ha' := iha (hgrows.numbered hs)
    have hb' := ihb ((hgrows.trans ha.grows).numbered hs)
    have hle := hlabels.handed_le i
    simp at hc' ha' hb' ⊢
    omega
  | call hcallee _ iha =>
    obtain ⟨l, rfl, _, hgrows, _⟩ := calleeOf_eq_ok hcallee
    have ha' := iha (hgrows.numbered hs)
    have hle := hgrows.handed_le i
    simp [Opcode.isDefinition] at ha' ⊢
    omega
  | @assignAtom v x act dst r vx s s₁ s' he hr hv =>
    obtain ⟨hlookup, hgrows₁, _⟩ := regOf_eq_ok hr
    obtain ⟨hreads, hgrows, _⟩ := reads_of_atom? he hv
    have hs₁ := hgrows₁.numbered hs
    have hzero := hreads.timesTemp_eq (hgrows.numbered hs₁) i
    have hnamed := timesTemp_named (hs₁.named hlookup) i
    have hgiven := Code.readsTemp_given_le dst (.reg r) i
    have hle := (hgrows₁.trans hgrows).handed_le i
    simp [Opcode.isDefinition]
    omega
  | @assign v x dst r t cx s s₁ s' _ hr _ ihx =>
    obtain ⟨hlookup, hgrows, _⟩ := regOf_eq_ok hr
    have hs₁ := hgrows.numbered hs
    have hx' := ihx hs₁
    have hnamed := timesTemp_named (hs₁.named hlookup) i
    have hgiven := Code.readsTemp_given_le dst (.reg r) i
    have hle := hgrows.handed_le i
    simp [Opcode.isDefinition] at hx' ⊢
    omega
  | load _ hd iha =>
    have ha' := iha hs
    have hle := (orTemp_grows hd).handed_le i
    simp [Opcode.isDefinition] at ha' ⊢
    omega
  | fresh ht _ ih =>
    have hx' := ih ((newTemp_grows ht).numbered hs)
    have hnew := timesTemp_newTemp ht i
    simp at hx' ⊢
    omega
  | operandAtom he hv =>
    obtain ⟨hreads, hgrows, _⟩ := reads_of_atom? he hv
    have hzero := hreads.timesTemp_eq (hgrows.numbered hs) i
    have hle := hgrows.handed_le i
    simp
    omega
  | operand _ _ ih => exact ih hs
  | termsLast _ _ hd ihx =>
    have hx' := ihx hs
    have hle := (orTemp_grows hd).handed_le i
    simp [Opcode.isDefinition] at hx' ⊢
    omega
  | termsMore _ _ hx ht _ ihx iht =>
    have hx' := ihx hs
    have hnew := timesTemp_newTemp ht i
    have ht' := iht ((hx.grows.trans (newTemp_grows ht)).numbered hs)
    simp [Opcode.isDefinition] at hx' ht' ⊢
    omega
  | testsNil => simp
  | testsCons hx _ ihx iht =>
    have hx' := ihx hs
    have ht' := iht (hx.grows.numbered hs)
    simp [apply_ite] at hx' ht' ⊢
    omega
  | guardHole => simp
  | guard _ _ ih =>
    have hx' := ih hs
    simp [Opcode.isDefinition] at hx' ⊢
    omega
  | argsNil => simp
  | @argsCons x rest w ws t ts cx cs s s₁ s' hx _ ihx ihs =>
    have hx' := ihx hs
    have hs' := ihs (hx.grows.numbered hs)
    have hcons := timesTemp_cons (i := i) (.reg t) (ts.map .reg)
    simp at hx' hs' ⊢
    omega

theorem LowersBody.count_reads_le {loop : Option Loop} {b : Body} (h : LowersBody loop b s c s')
    (hs : s.Numbered) (i : Int) : c.readsTemp i + s.handed i ≤ s'.handed i := by
  induction h with
  | hole | breakLoop | continueLoop | retNone | nil => simp [Opcode.isDefinition]
  | block _ ih => simpa using ih hs
  | expr hx => simpa using hx.count_reads_le hs i
  | store ha hx =>
    have ha' := ha.count_reads_le hs i
    have hx' := hx.count_reads_le (ha.grows.numbered hs) i
    simp [Opcode.isDefinition] at ha' hx' ⊢
    omega
  | branch hc hfin _ iha =>
    have hlabel := (newLabel_grows hfin)
    have hc' := hc.count_reads_le hs i
    have ha' := iha ((hc.grows.trans hlabel).numbered hs)
    have hle := hlabel.handed_le i
    simp at hc' ha' ⊢
    omega
  | branchElse _ hc hfin hother ha _ iha ihb =>
    have hlabels := (newLabel_grows hfin).trans (newLabel_grows hother)
    have hgrows := hc.grows.trans hlabels
    have hc' := hc.count_reads_le hs i
    have ha' := iha (hgrows.numbered hs)
    have hb' := ihb ((hgrows.trans ha.grows).numbered hs)
    have hle := hlabels.handed_le i
    simp at hc' ha' hb' ⊢
    omega
  | whileLoop htop hfin hc _ ihb =>
    have hlabels := (newLabel_grows htop).trans (newLabel_grows hfin)
    have hc' := hc.count_reads_le (hlabels.numbered hs) i
    have hb' := ihb ((hlabels.trans hc.grows).numbered hs)
    have hle := hlabels.handed_le i
    simp at hc' hb' ⊢
    omega
  | forLoop hstart htop hnext hfin hc hb _ ihstart ihb ihp =>
    have hlabels := ((newLabel_grows htop).trans (newLabel_grows hnext)).trans (newLabel_grows hfin)
    have hgrows := hstart.grows.trans hlabels
    have hgrows' := hgrows.trans hc.grows
    have hstart' := ihstart hs
    have hc' := hc.count_reads_le (hgrows.numbered hs) i
    have hb' := ihb (hgrows'.numbered hs)
    have hp' := ihp ((hgrows'.trans hb.grows).numbered hs)
    have hle := hlabels.handed_le i
    simp at hstart' hc' hb' hp' ⊢
    omega
  | ret _ hx =>
    have hx' := hx.count_reads_le hs i
    simp [Opcode.isDefinition] at hx' ⊢
    omega
  | cons hx _ ih ihs =>
    have hx' := ih hs
    have hs' := ihs (hx.grows.numbered hs)
    simp at hx' hs' ⊢
    omega

/-- The registers of variables are written by moves only. -/
def Code.MovesNamed (code : Code) : Prop :=
  ∀ x ∈ code, ∀ r, x.dst? = some r → r.temp = false → x.op = .mov

namespace Code

theorem movesNamed_cons {x : Instr}
    (hx : ∀ r, x.dst? = some r → r.temp = false → x.op = .mov) {c : Code} :
    MovesNamed (x :: c) ↔ MovesNamed c := by
  unfold MovesNamed
  rw [List.forall_mem_cons, and_iff_right hx]

@[simp] theorem movesNamed_nil : MovesNamed [] := nofun

@[simp] theorem movesNamed_append {d : Code} : MovesNamed (c ++ d) ↔ MovesNamed c ∧ MovesNamed d :=
  List.forall_mem_append

@[simp] theorem movesNamed_mov {args : List Operand} :
    MovesNamed (.make .mov args :: c) ↔ MovesNamed c :=
  movesNamed_cons fun _ _ _ => rfl

theorem movesNamed_make {op : Opcode} (hop : op.isDefinition = false) {args : List Operand} :
    MovesNamed (.make op args :: c) ↔ MovesNamed c := by
  apply movesNamed_cons
  intro r hr _
  obtain ⟨_, _, hdef, heq⟩ := Instr.dst?_eq_some_iff.mp hr
  obtain ⟨rfl, _⟩ := Instr.mk.inj heq
  rw [hop] at hdef
  cases hdef

@[simp] theorem movesNamed_mark {k : NodeKind} : MovesNamed (.mark k :: c) ↔ MovesNamed c :=
  movesNamed_make rfl

@[simp] theorem movesNamed_defineLabel {l : Label} :
    MovesNamed (.defineLabel l :: c) ↔ MovesNamed c :=
  movesNamed_make rfl

@[simp] theorem movesNamed_jump {l : Label} : MovesNamed (.jump l :: c) ↔ MovesNamed c :=
  movesNamed_make rfl

@[simp] theorem movesNamed_write {args : List Operand} :
    MovesNamed (.make .write args :: c) ↔ MovesNamed c :=
  movesNamed_make rfl

@[simp] theorem movesNamed_ret {args : List Operand} :
    MovesNamed (.make .ret args :: c) ↔ MovesNamed c :=
  movesNamed_make rfl

theorem movesNamed_make_cons {op : Opcode} {v : Operand} (hv : ∀ r, v = .reg r → r.temp = true)
    {vs : List Operand} :
    MovesNamed (.make op (v :: vs) :: c) ↔ MovesNamed c := by
  apply movesNamed_cons
  intro r hr hnamed
  obtain ⟨_, _, _, heq⟩ := Instr.dst?_eq_some_iff.mp hr
  cases heq
  rw [hv r rfl] at hnamed
  cases hnamed

@[simp] theorem movesNamed_make_label {op : Opcode} {l : Label} {vs : List Operand} :
    MovesNamed (.make op (.label l :: vs) :: c) ↔ MovesNamed c :=
  movesNamed_make_cons fun r hr => by cases hr

theorem movesNamed_make_temp {op : Opcode} {d : Reg} (hd : d.temp = true) {vs : List Operand} :
    MovesNamed (.make op (.reg d :: vs) :: c) ↔ MovesNamed c :=
  movesNamed_make_cons fun r hr => by cases hr; exact hd

theorem movesNamed_given {dst : Option Reg} {v : Operand} : MovesNamed (given dst v) := by
  cases dst <;> simp [given]

end Code

@[simp] def Part.dst? : Part → Option Reg
  | .value _ dst => dst
  | .terms _ dst _ _ => dst
  | _ => none

theorem newTemp_temp {w : Width} {t : Reg} (h : newTemp w s = .ok t s') : t.temp = true := by
  obtain ⟨rfl, _⟩ := newTemp_eq_ok h
  rfl

theorem orTemp_temp {dst : Option Reg} {w : Width} {d : Reg} (h : orTemp dst w s = .ok d s')
    (hdst : ∀ r ∈ dst, r.temp = true) : d.temp = true := by
  rcases orTemp_eq_ok h with ⟨rfl, _⟩ | ⟨_, ht⟩
  · exact hdst d rfl
  · exact newTemp_temp ht

theorem Lowers.movesNamed (h : Lowers p s c s') (hdst : ∀ r ∈ p.dst?, r.temp = true) :
    c.MovesNamed := by
  induction h with
  | atom => simpa using Code.movesNamed_given
  | unary _ _ hd ihx => simpa [Code.movesNamed_make_temp (orTemp_temp hd hdst)] using ihx nofun
  | binary _ _ _ hd ihx ihy =>
    simpa [Code.movesNamed_make_temp (orTemp_temp hd hdst)] using ⟨ihx nofun, ihy nofun⟩
  | chainOne _ ih => simpa using ih hdst
  | chain _ _ _ ihx iht => simpa using ⟨ihx nofun, iht hdst⟩
  | all _ _ _ _ iht | any _ _ _ _ _ iht => simpa using iht nofun
  | cond _ _ _ _ _ ihc iha ihb => simpa using ⟨ihc nofun, iha hdst, ihb hdst⟩
  | @call f args dst callee ts ca s s₁ s' _ _ iha =>
    have htemp : ∀ r, resultOf dst = .reg r → r.temp = true := by
      cases dst with
      | none => nofun
      | some d => exact fun r hr => hdst r (by cases hr; rfl)
    simpa [Code.movesNamed_make_cons htemp] using iha nofun
  | assignAtom => simpa using Code.movesNamed_given
  | assign _ _ _ ihx => simpa using ⟨ihx nofun, Code.movesNamed_given⟩
  | load _ hd iha => simpa [Code.movesNamed_make_temp (orTemp_temp hd hdst)] using iha nofun
  | fresh ht _ ih => exact ih fun r hr => by cases hr; exact newTemp_temp ht
  | operandAtom | testsNil | guardHole | argsNil => exact Code.movesNamed_nil
  | operand _ _ ih => exact ih nofun
  | termsLast _ _ hd ihx => simpa [Code.movesNamed_make_temp (orTemp_temp hd hdst)] using ihx nofun
  | termsMore _ _ _ ht _ ihx iht =>
    simpa [Code.movesNamed_make_temp (newTemp_temp ht)] using ⟨ihx nofun, iht hdst⟩
  | testsCons _ _ ihx iht => simpa using ⟨ihx nofun, iht nofun⟩
  | guard _ _ ih => simpa using ih nofun
  | argsCons _ _ ihx ihs => simpa using ⟨ihx nofun, ihs nofun⟩

theorem LowersBody.movesNamed {loop : Option Loop} {b : Body} (h : LowersBody loop b s c s') :
    c.MovesNamed := by
  induction h with
  | hole | nil => exact Code.movesNamed_nil
  | breakLoop | continueLoop | retNone => simp
  | block _ ih => simpa using ih
  | expr hx => simpa using hx.movesNamed nofun
  | store ha hx => simpa using ⟨ha.movesNamed nofun, hx.movesNamed nofun⟩
  | branch hc _ _ iha => simpa using ⟨hc.movesNamed nofun, iha⟩
  | branchElse _ hc _ _ _ _ iha ihb => simpa using ⟨hc.movesNamed nofun, iha, ihb⟩
  | whileLoop _ _ hc _ ihb => simpa using ⟨hc.movesNamed nofun, ihb⟩
  | forLoop _ _ _ _ hc _ _ ihstart ihb ihp => simpa using ⟨ihstart, hc.movesNamed nofun, ihb, ihp⟩
  | ret _ hx => simpa using hx.movesNamed nofun
  | cons _ _ ih ihs => simpa using ⟨ih, ihs⟩

namespace Code

/-- What lowering establishes and folding relies on. -/
structure ReadOnce (code : Code) : Prop where
  moves : code.MovesNamed
  once : ∀ i, code.readsTemp i ≤ 1

theorem ReadOnce.of_sublist {c d : Code} (h : ReadOnce d) (hsub : c.Sublist d) : ReadOnce c where
  moves x hx := h.moves x (hsub.subset hx)
  once i := Nat.le_trans ((hsub.flatMap Instr.reads).count_le _) (h.once i)

theorem readOnce_of_lowers {loop : Option Loop} {b : Body} (h : LowersBody loop b s c s')
    (hs : s.Numbered) :
    ReadOnce c.terminate := by
  have hread : ReadOnce (c ++ [.make .ret []]) := by
    refine ⟨by simpa using h.movesNamed, fun i => ?_⟩
    have hcount := h.count_reads_le hs i
    have hone : s'.handed i ≤ 1 := by
      unfold Frame.handed
      split <;> omega
    simp [Opcode.isDefinition]
    omega
  unfold terminate
  split
  · exact hread.of_sublist (List.sublist_append_left _ _)
  · exact hread

section Folding
variable {code : Code} {uses : RegKey → Nat} {x y : Instr} {f : Fold} {d : Reg}

theorem ReadOnce.count_reads_le (h : ReadOnce code) (hd : d.temp = true) :
    code.reads.count d.key ≤ 1 := by
  have hkey : d.key = ⟨true, d.index⟩ := by rw [Reg.key, hd]
  rw [hkey]
  exact h.once d.index

theorem ReadOnce.temp_of_folds (h : ReadOnce code) (hx : x ∈ code) (hfolds : Instr.Folds uses x y f)
    (hd : x.dst? = some d) : d.temp = true := by
  by_contra hnamed
  exact (hfolds.reads_eq hd).1 (h.moves x hx d hd (Bool.eq_false_iff.mpr hnamed))

theorem ReadOnce.not_mem_reads (h : ReadOnce code) (hxy : [x, y] <:+: code)
    (hfolds : Instr.Folds uses x y f) (hd : x.dst? = some d) : d.key ∉ x.reads := by
  intro hmem
  have hcount := h.count_reads_le (h.temp_of_folds (hxy.subset List.mem_cons_self) hfolds hd)
  have hle := (hxy.sublist.flatMap Instr.reads).count_le d.key
  have hpos := List.count_pos_iff.mpr hmem
  rw [List.flatMap_cons, List.flatMap_singleton, (hfolds.reads_eq hd).2, List.count_append,
    List.count_singleton_self] at hle
  change _ ≤ code.reads.count d.key at hle
  omega

theorem ReadOnce.foldTests_rewrites (h : ReadOnce code) (hwf : ∀ x ∈ code, x.WellFormed) :
    ∃ r, code.foldTests = .ok r ∧
      Rewrites (Rule True (fun _ k => k ∉ r.code.reads) Reg.Apart) code r.code := by
  have hrule : ∀ x y f, [x, y] <:+: code → Instr.Folds code.occurrences x y f →
      Rule True (fun a k => code.reads.count k < a.length) Reg.Apart [x, y]
        (if f.keep then [x, f.branch] else [f.branch]) := by
    intro x y f hxy hfolds
    refine hfolds.rule (fun d _ hd => ?_) fun d a _ hd ha hkey => ?_
    · have htemp := h.temp_of_folds (hxy.subset List.mem_cons_self) hfolds hd
      exact Nat.lt_succ_of_le (h.count_reads_le htemp)
    · exact h.not_mem_reads hxy hfolds hd
        (Instr.mem_reads (fun _ => Nat.le_refl 1) (by rw [ha]; exact hkey))
  obtain ⟨r, hr, hrw⟩ := foldTestsWith_rewrites hwf hrule
  exact ⟨r, hr, hrw.of_spent⟩

end Folding

end Code

end ThreeAddress
