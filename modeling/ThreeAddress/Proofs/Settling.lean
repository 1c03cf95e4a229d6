import Mathlib.Data.List.Forall2
import ThreeAddress.Proofs.Passes

/-!
# Settling comes to rest

Settling takes turns: results are sent where they are moved on to, and then what is unread is
dropped. This needs nothing of the code but that moves have their two operands. A turn that changes
something makes the code shorter, so there are no more turns than instructions and one, the last of
which finds nothing to do (`Pass.settle_rests`). Whatever does more than compute a value outlives
all turns in its place, and only a call may get another destination.
-/

namespace ThreeAddress
set_option autoImplicit false

/-- An instruction of this kind is there for more than the value it computes. -/
def Opcode.acts : Opcode → Bool
  | nop | write | br | brz | bnz | label | ret | call | other _ => true
  | mov | read | bin _ | un _ => false

namespace Instr

def acts (x : Instr) : Bool := x.op.acts

/-- The same instruction, or the same call with another destination. -/
inductive Survives : Instr → Instr → Prop where
  | same (x : Instr) : Survives x x
  | redirected (args : List (Option Operand)) (a : Option Operand) : Survives ⟨.call, args⟩
      ⟨.call, args.set 0 a⟩

theorem Survives.trans {x y z : Instr} (h : Survives x y) (h' : Survives y z) : Survives x z := by
  cases h with
  | same => exact h'
  | redirected args a =>
    cases h' with
    | same => exact .redirected args a
    | redirected _ b =>
      rw [List.set_set]
      exact .redirected args b

variable {x y : Instr}

theorem exists_place {i : Nat} (h : i < x.args.length) : ∃ a, x.place i = .ok a := by
  refine ⟨x.args[i], ?_⟩
  rw [place, List.getElem?_eq_getElem h]

theorem exists_isMovedOnBy (uses : RegKey → Nat) (hy : y.op = .mov → 2 ≤ y.args.length) :
    ∃ movedOn, x.isMovedOnBy uses y = .ok movedOn ∧
      (movedOn = true → x.op.isDefinition = true ∧ 0 < x.args.length ∧ y.op = .mov) := by
  unfold isMovedOnBy
  cases hd : x.dst? with
  | none => exact ⟨false, rfl, Bool.noConfusion⟩
  | some r =>
    obtain ⟨op, rest, hop, rfl⟩ := dst?_eq_some_iff.mp hd
    by_cases hmov : y.op = .mov
    · obtain ⟨a, ha⟩ := exists_place (i := 1) (hy hmov)
      refine ⟨Operand.sameReg a (some (.reg r)) && uses r.key == 2, ?_,
        fun _ => ⟨hop, Nat.succ_pos _, hmov⟩⟩
      change (if y.op = .mov then _ else _) = _
      rw [if_pos hmov, ha]
      rfl
    · exact ⟨false, if_neg hmov, Bool.noConfusion⟩

end Instr

namespace Code

/-- Every move has a place to move to and one to move from. -/
def MovesWhole (code : Code) : Prop := ∀ x ∈ code, x.op = .mov → 2 ≤ x.args.length

/-- What acts survives, in order. -/
def Outlives (old new : Code) : Prop :=
  List.Forall₂ Instr.Survives (old.filter Instr.acts) (new.filter Instr.acts)

theorem Outlives.refl (code : Code) : Outlives code code := List.forall₂_same.mpr fun x _ => .same x

theorem Outlives.trans {a b c : Code} (h : Outlives a b) (h' : Outlives b c) : Outlives a c := by
  unfold Outlives at h h' ⊢
  generalize a.filter Instr.acts = as at h
  generalize b.filter Instr.acts = bs at h h'
  generalize c.filter Instr.acts = cs at h'
  induction h generalizing cs with
  | nil => exact h'
  | cons hxy _ ih =>
    cases h' with
    | cons hyz h' => exact .cons (hxy.trans hyz) (ih _ h')

/-- What a turn may do to one instruction or two, whatever it knows about registers. -/
inductive Sheds : Code → Code → Prop where
  | keep (x : Instr) : Sheds [x] [x]
  | drop {x : Instr} : x.acts = false → Sheds [x] []
  | forward {op : Opcode} {y : Instr} (args : List (Option Operand)) (a : Option Operand) :
    op.isDefinition = true → y.op = .mov → Sheds [⟨op, args⟩, y] [⟨op, args.set 0 a⟩]

variable {code old new : Code}

theorem Sheds.outlives {a b : Code} (h : Sheds a b) : Outlives a b := by
  cases h with
  | keep x => exact .refl [x]
  | drop hx =>
    rw [Outlives, List.filter_cons_of_neg (by rw [hx]; exact Bool.false_ne_true)]
    exact .nil
  | @forward op y args a hop hy =>
    have hacts (args : List (Option Operand)) : Instr.acts ⟨op, args⟩ = op.acts := rfl
    have hmove : y.acts = false := by rw [Instr.acts, hy]; rfl
    rw [Outlives, List.filter_cons, List.filter_cons, List.filter_cons, hacts, hacts, hmove]
    cases op with
    | call => exact .cons (.redirected args a) .nil
    | mov | read | bin | un => exact .nil
    | nop | write | br | brz | bnz | label | ret | other => cases hop

theorem Sheds.movesWhole {a b : Code} (h : Sheds a b) (ha : MovesWhole a) : MovesWhole b := by
  cases h with
  | keep => exact ha
  | drop => exact List.forall_mem_nil _
  | @forward op y args a hop hy =>
    have hfirst := (List.forall_mem_cons.mp ha).1
    refine List.forall_mem_singleton.mpr fun hmov => ?_
    simpa using hfirst hmov

theorem Rewrites.outlives (h : Rewrites Sheds old new) : Outlives old new := by
  induction h with
  | nil => exact .nil
  | piece hab _ ih =>
    rw [Outlives, List.filter_append, List.filter_append]
    exact List.rel_append hab.outlives ih

theorem Rewrites.movesWhole (h : Rewrites Sheds old new) (hold : MovesWhole old) :
    MovesWhole new := by
  induction h with
  | nil => exact hold
  | piece hab _ ih =>
    obtain ⟨ha, hold⟩ := List.forall_mem_append.mp hold
    exact List.forall_mem_append.mpr ⟨hab.movesWhole ha, ih hold⟩

theorem forwardResultsWith_sheds (uses : RegKey → Nat) (h : MovesWhole code) :
    ∃ r, forwardResultsWith uses code = .ok r ∧ Rewrites Sheds code r.code ∧
      (r.changed = false → r.code = code) := by
  fun_induction forwardResultsWith uses code with
  | case1 x next rest ihMerged ihNext =>
    obtain ⟨hx, hnext, hrest⟩ : _ ∧ _ ∧ MovesWhole rest := by simpa [MovesWhole] using h
    obtain ⟨movedOn, hmoved, hshape⟩ := Instr.exists_isMovedOnBy (x := x) uses hnext
    rw [hmoved]
    cases movedOn with
    | true =>
      obtain ⟨hop, hargs, hmov⟩ := hshape rfl
      obtain ⟨a, ha⟩ :=
        Instr.exists_place (x := next) (i := 0) (Nat.lt_of_succ_le (Nat.le_of_lt (hnext hmov)))
      have hset : x.setPlace 0 a = .ok ⟨x.op, x.args.set 0 a⟩ := if_pos hargs
      obtain ⟨r, hr, hrw, _⟩ := ihMerged hrest
      refine ⟨⟨⟨x.op, x.args.set 0 a⟩ :: r.code, true⟩, ?_, .piece (.forward x.args a hop hmov) hrw,
        Bool.noConfusion⟩
      change (next.place 0 >>= fun place => x.setPlace 0 place >>= fun x =>
        forwardResultsWith uses rest >>= _) = _
      rw [ha, hr]
      change (x.setPlace 0 a >>= _) = _
      rw [hset]
      rfl
    | false =>
      obtain ⟨r, hr, hrw, hsame⟩ := ihNext (List.forall_mem_cons.mpr ⟨hnext, hrest⟩)
      refine ⟨⟨x :: r.code, r.changed⟩, ?_, .piece (.keep x) hrw,
        fun hc => congrArg (x :: ·) (hsame hc)⟩
      change (forwardResultsWith uses (next :: rest) >>= _) = _
      rw [hr]
      rfl
  | case2 x => exact ⟨⟨[x], false⟩, rfl, .single (.keep x), fun _ => rfl⟩
  | case3 => exact ⟨⟨[], false⟩, rfl, .nil, fun _ => rfl⟩

theorem dropUnread_sheds (code : Code) : Rewrites Sheds code code.dropUnread.code := by
  rw [dropUnread_eq]
  apply Rewrites.of_filter
  · exact fun x _ _ => .keep x
  · intro x _ hx
    obtain ⟨op, r, rest, hop, hcall, _, rfl⟩ := Instr.isUnread_iff.mp (by simpa using hx)
    refine .drop ?_
    cases op with
    | call => exact absurd rfl hcall
    | mov | read | bin | un => rfl
    | nop | write | br | brz | bnz | label | ret | other => cases hop

/-- One turn: results are forwarded, and then what is unread is dropped. -/
def settleOnce (code : Code) : Except Fault Simplified := do
  let r ← code.forwardResults
  return ⟨r.code.dropUnread.code, r.changed || r.code.dropUnread.changed⟩

/-- The code comes to rest in turn number `n`, all turns before having changed something. -/
inductive RestsIn : Nat → Code → Code → Prop where
  | last {code new : Code} : code.settleOnce = .ok ⟨new, false⟩ → RestsIn 1 code new
  | more {n : Nat} {code next new : Code} :
    code.settleOnce = .ok ⟨next, true⟩ → RestsIn n next new → RestsIn (n + 1) code new

/-- Neither of the two steps finds anything to do. -/
def AtRest (code : Code) : Prop :=
  code.forwardResults = .ok ⟨code, false⟩ ∧ code.dropUnread = ⟨code, false⟩

theorem settle_eq_settleOnce (code : Code) : code.settle = code.settleOnce >>= fun r =>
    if r.changed then do
      let s ← r.code.settle
      return ⟨s.code, true⟩
    else return ⟨r.code, false⟩ := by
  rw [settle_eq_bind, settleOnce]
  cases code.forwardResults <;> rfl

theorem RestsIn.settle {n : Nat} (h : RestsIn n code new) :
    code.settle = .ok ⟨new, decide (1 < n)⟩ := by
  have hpos {n : Nat} {code new : Code} (h : RestsIn n code new) : 0 < n := by
    cases h <;> exact Nat.succ_pos _
  induction h with
  | last hlast =>
    rw [settle_eq_settleOnce, hlast]
    rfl
  | @more n _ _ _ hmore hrest ih =>
    rw [settle_eq_settleOnce, hmore, decide_eq_true (Nat.succ_lt_succ (hpos hrest))]
    change (Code.settle _ >>= _) = _
    rw [ih]
    rfl

/-- A turn never faults on whole moves and leaves them whole. If it changes something the code gets
shorter, and otherwise the code is at rest. -/
theorem settleOnce_spec (h : MovesWhole code) :
    ∃ r, code.settleOnce = .ok r ∧ MovesWhole r.code ∧ Outlives code r.code ∧
      (r.changed = true → r.code.length < code.length) ∧
      (r.changed = false → r.code = code ∧ AtRest code) := by
  obtain ⟨r, hr, hsheds, hsame⟩ := forwardResultsWith_sheds code.occurrences h
  rw [← forwardResults_eq] at hr
  have hkept := r.code.dropUnread_sheds
  refine ⟨⟨r.code.dropUnread.code,
      r.changed || r.code.dropUnread.changed⟩, by rw [settleOnce, hr]; rfl,
    hkept.movesWhole (hsheds.movesWhole h), hsheds.outlives.trans hkept.outlives,
    fun hchanged => ?_, fun hchanged => ?_⟩
  · have hlf := length_forwardResultsWith hr
    have hlk := length_dropUnread r.code
    change r.code.dropUnread.code.length < code.length
    rcases Bool.or_eq_true_iff.mp hchanged with hc | hc
    · rw [hc, Bool.toNat_true] at hlf
      omega
    · rw [hc, Bool.toNat_true] at hlk
      omega
  · obtain ⟨hforward, hdrop⟩ := Bool.or_eq_false_iff.mp hchanged
    obtain ⟨c, changed⟩ := r
    obtain rfl : c = code := hsame hforward
    have hread := dropUnread_eq_self (dropUnread_changed.mp hdrop)
    refine ⟨congrArg Simplified.code hread, ?_, hread⟩
    obtain rfl : changed = false := hforward
    exact hr

/-- Every turn but the last takes an instruction away. -/
theorem exists_restsIn (h : MovesWhole code) :
    ∃ n new, RestsIn n code new ∧ n + new.length ≤ code.length + 1 ∧
      (n = 1 → new = code) ∧ AtRest new ∧ Outlives code new := by
  induction hlen : code.length using Nat.strongRecOn generalizing code with
  | ind k ih =>
    subst hlen
    obtain ⟨⟨next, changed⟩, honce, hwhole, hlives, hless, hrest⟩ := settleOnce_spec h
    cases changed with
    | false =>
      obtain ⟨hsame, hrests⟩ := hrest rfl
      obtain rfl : next = code := hsame
      exact ⟨1, next, .last honce, Nat.le_of_eq (Nat.add_comm 1 _), fun _ => rfl, hrests, hlives⟩
    | true =>
      have hshorter : next.length < code.length := hless rfl
      obtain ⟨n, new, hturns, hbound, hsame, hrests, hlives'⟩ := ih next.length hshorter hwhole rfl
      refine ⟨n + 1, new, .more honce hturns, by omega, fun hn => ?_, hrests, hlives.trans hlives'⟩
      obtain rfl : n = 0 := Nat.succ.inj hn
      cases hturns

end Code

/-- On a function whose moves have their two operands settling ends, in at most one turn more than
there are instructions. It leaves code on which neither of its steps finds anything to do, says
truly whether that is other code, which is then shorter, and keeps in order all instructions that do
more than compute a value, as they are but for the destinations of calls. -/
theorem Pass.settle_rests (f : Func) (hmoves : ∀ x ∈ f.code, x.op = .mov → 2 ≤ x.args.length) :
    ∃ n new changed, Code.RestsIn n f.code new ∧ n ≤ f.code.length + 1 ∧
      settle.run f = .ok ({ f with code := new }, .ok changed) ∧
      new.forwardResults = .ok ⟨new, false⟩ ∧ new.dropUnread = ⟨new, false⟩ ∧
      (changed = true ↔ new ≠ f.code) ∧ (new ≠ f.code ↔ new.length < f.code.length) ∧
      List.Forall₂ Instr.Survives (f.code.filter Instr.acts) (new.filter Instr.acts) := by
  obtain ⟨n, new, hturns, hbound, hsame, ⟨hforward, hdrop⟩, hlives⟩ := Code.exists_restsIn hmoves
  have hpos : n ≠ 0 := by
    rintro rfl
    cases hturns
  have hless : 1 < n → new.length < f.code.length := fun hn => by omega
  have hdiffers : new.length < f.code.length → new ≠ f.code :=
    fun hlt heq => Nat.lt_irrefl _ (heq ▸ hlt)
  have hmany : new ≠ f.code → 1 < n :=
    fun hne => Nat.lt_of_le_of_ne (Nat.one_le_iff_ne_zero.mpr hpos) fun hn => hne (hsame hn.symm)
  refine ⟨n, new, decide (1 < n),
    hturns, by omega, run_ofStep_lift hturns.settle, hforward, hdrop, ?_,
    ⟨fun hne => hless (hmany hne), hdiffers⟩, hlives⟩
  rw [decide_eq_true_iff]
  exact ⟨fun hn => hdiffers (hless hn), hmany⟩

/-- The result of a call is moved on twice, and a sum of it is moved on once and then read by
nobody. -/
def Func.relaying : Func :=
  let x : Reg := ⟨0, .i32, false, "x"⟩
  let t (i : Int) : Reg := ⟨i, .i32, true, ""⟩
  ⟨"relaying", .i32, [], [
    .make .call [.reg (t 0), .callee ⟨0⟩ .i32],
    .make .mov [.reg (t 1), .reg (t 0)],
    .make .mov [.reg x, .reg (t 1)],
    .make (.bin .add) [.reg (t 2), .reg x, .num 1 .i32],
    .make .mov [.reg (t 3), .reg (t 2)],
    .make .write [.reg x, .num 2 .i32],
    .make .ret [.reg x]]⟩

theorem Pass.settle_rests_relaying : (∀ x ∈ Func.relaying.code, x.op = .mov → 2 ≤ x.args.length) ∧
    ∃ n new changed, Code.RestsIn n Func.relaying.code new ∧ n ≤ 8 ∧
      settle.run .relaying = .ok ({ Func.relaying with code := new }, .ok changed) ∧
      new.forwardResults = .ok ⟨new, false⟩ ∧
      List.Forall₂ Instr.Survives (Func.relaying.code.filter Instr.acts)
        (new.filter Instr.acts) := by
  have hmoves : ∀ x ∈ Func.relaying.code, x.op = .mov → 2 ≤ x.args.length := by decide
  obtain ⟨n, new, changed, hturns, hbound, hrun, hforward, _, _, _, hlives⟩ :=
    settle_rests .relaying hmoves
  exact ⟨hmoves, n, new, changed, hturns, hbound, hrun, hforward, hlives⟩

end ThreeAddress
