import ThreeAddress.Proofs.Passes
import ThreeAddress.Proofs.Readings
import ThreeAddress.Proofs.StmtSimulation
import ThreeAddress.Sample

/-!
# Lowered functions behave as their trees

A function that is lowered successfully behaves, on every machine that agrees with the language, as
its tree with variables read in place (`behaviour_of_lower`), and as its tree read strictly if its
operands hold still (`lowerFunc_behaviour`). Two things are needed beside the simulation of its
body: control cannot fall off the end of code that ends in a terminator, and the parameters start in
the registers that are numbered like them.
-/

namespace ThreeAddress
set_option autoImplicit false

open LowerM

namespace Code
variable {x : Instr} {code rest : Code}

theorem isTerminated_cons (h : isTerminated (x :: rest) = true) :
    x.op.isTerminator = true ∨ isTerminated rest = true := by
  unfold isTerminated at h ⊢
  by_cases hx : x.op = .nop
  · rw [List.filter_cons_of_neg (by simp [hx])] at h
    exact .inr h
  · rw [List.filter_cons_of_pos (by simp [hx])] at h
    cases hrest : rest.filter (·.op ≠ .nop) with
    | nil =>
      rw [hrest] at h
      exact .inl h
    | cons y ys =>
      rw [hrest, List.getLast?_cons_cons] at h
      exact .inr h

theorem isTerminated_of_suffix (h : isTerminated code = true) (hs : (x :: rest) <:+ code)
    (hx : x.op ≠ .nop) :
    isTerminated (x :: rest) = true := by
  obtain ⟨p, rfl⟩ := hs
  unfold isTerminated at h ⊢
  have hfilter : (x :: rest).filter (·.op ≠ .nop) = x :: rest.filter (·.op ≠ .nop) :=
    List.filter_cons_of_pos (by simp [hx])
  rw [List.filter_append, List.getLast?_append, hfilter, List.getLast?_cons] at h
  rw [hfilter, List.getLast?_cons]
  exact h

end Code

namespace Machine
variable {M : Machine} {code : Code}

/-- Control is inside the code, and what is left of it ends in a terminator; or the code has
returned. -/
def Inside (code : Code) : Status → Prop
  | .running c => c.rest <:+ code ∧ c.rest.isTerminated = true
  | .halted h _ => h ≠ .ranOff

theorem Inside.seek (hterm : code.isTerminated = true) {l : Label} (hl : l ∈ code.labels)
    (ρ : Regs) (w : World) : Inside code (.running ⟨code.seek l, ρ, w⟩) := by
  obtain ⟨x, rest, hseek, hlabel, hsuffix⟩ := Code.exists_seek hl
  have hop : x.op ≠ .nop := by
    rw [Instr.op_eq_of_label? hlabel]
    exact Opcode.noConfusion
  rw [hseek]
  exact ⟨hsuffix, Code.isTerminated_of_suffix hterm hsuffix hop⟩

theorem Inside.step (hv : Code.Valid code) (hterm : code.isTerminated = true) {s : Status}
    (h : Inside code s) :
    Inside code (M.step code s) := by
  match s, h with
  | .halted e w, h => exact h
  | .running ⟨[], ρ, w⟩, ⟨_, h⟩ => cases h
  | .running ⟨x :: rest, ρ, w⟩, ⟨hsuffix, h⟩ =>
    rw [Machine.step]
    have hx : x ∈ code := hsuffix.subset List.mem_cons_self
    have hrest := (List.suffix_cons x rest).trans hsuffix
    have hnext : ∀ {ρ' w'}, M.effect x ρ w = .next ρ' w' →
        Inside code (.running ⟨rest, ρ', w'⟩) := by
      intro ρ' w' he
      refine ⟨hrest, (Code.isTerminated_cons h).resolve_left fun hop => ?_⟩
      unfold effect at he
      rcases Opcode.isTerminator_iff.mp hop with hop | hop
      · rw [hop] at he
        cases he
      · rw [hop] at he
        cases he
    cases hgoal : x.goal? with
    | some l =>
      rcases effect_retarget (M := M) id hgoal ρ w with ⟨he, _⟩ | ⟨he, _⟩
      · rw [he]
        exact hnext he
      · rw [he]
        exact Inside.seek hterm (hv.resolved l (List.mem_filterMap.mpr ⟨x, hx, hgoal⟩)) ρ w
    | none =>
      have hop := (hv.wellFormed x hx).isBranch_eq_false hgoal
      rcases effect_of_not_branch (M := M) hop ρ w with ⟨ρ', w', he⟩ | ⟨u, he⟩
      · rw [he]
        exact hnext he
      · rw [he]
        exact Halt.noConfusion

theorem Inside.run (hv : Code.Valid code) (hterm : code.isTerminated = true) (ρ : Regs)
    (w : World) (n : Nat) :
    Inside code (M.run code n (.running ⟨code, ρ, w⟩)) := by
  have hstart : Inside code (.running ⟨code, ρ, w⟩) := ⟨List.suffix_rfl, hterm⟩
  generalize Status.running ⟨code, ρ, w⟩ = s at hstart ⊢
  induction n generalizing s with
  | zero => exact hstart
  | succ n ih => exact ih _ (hstart.step hv hterm)

end Machine

theorem declare_cons_eq_ok_iff {v : Var} {params : List (Option Var)} {ps : List Param}
    {s s' : Frame} :
    declare (some v :: params) s = .ok (.ok ps) s' ↔
      s.vars.lookup v.id = none ∧ ∃ r s₁ qs, regOf v s = .ok r s₁ ∧
      declare params s₁ = .ok (.ok qs) s' ∧ ps = ⟨v.width, v.name⟩ :: qs := by
  rw [declare]
  constructor
  · intro h
    obtain ⟨s₀, _, hget, h⟩ := bind_eq_ok_iff.mp h
    cases hget
    cases hv : s.vars.lookup v.id with
    | some r =>
      rw [hv] at h
      obtain ⟨_, _, hfail, _⟩ := bind_eq_ok_iff.mp h
      exact absurd hfail fail_ne_ok
    | none =>
      rw [hv] at h
      obtain ⟨r, s₁, hr, h⟩ := bind_eq_ok_iff.mp h
      obtain ⟨rest, s₂, hrest, h⟩ := bind_eq_ok_iff.mp h
      obtain ⟨hps, rfl⟩ := pure_eq_ok_iff.mp h
      cases rest with
      | error e => cases hps
      | ok qs =>
        cases hps
        exact ⟨rfl, r, s₁, qs, hr, hrest, rfl⟩
  · intro h
    obtain ⟨hv, r, s₁, qs, hr, hrest, rfl⟩ := h
    refine bind_eq_ok_iff.mpr ⟨s, s, rfl, ?_⟩
    rw [hv]
    exact bind_eq_ok_iff.mpr ⟨r, s₁, hr, bind_eq_ok_iff.mpr ⟨.ok qs, s', hrest, rfl⟩⟩

/-- The parameters are the first variables, in their order. -/
theorem declare_eq_ok {params : List (Option Var)} {ps : List Param} {s s' : Frame}
    (h : declare params s = .ok (.ok ps) s') : s.Grows s' ∧ ∃ entries, s'.vars = s.vars ++ entries ∧
      params.map (Option.map Var.id) = entries.map (fun p => some p.1) ∧
      ps.length = entries.length := by
  induction params generalizing s ps with
  | nil =>
    obtain ⟨hps, rfl⟩ := pure_eq_ok_iff.mp h
    cases hps
    exact ⟨.refl s, [], (List.append_nil _).symm, rfl, rfl⟩
  | cons p params ih =>
    cases p with
    | none => cases pure_eq_ok_iff.mp h |>.1
    | some v =>
      obtain ⟨hv, r, s₁, qs, hr, hrest, rfl⟩ := declare_cons_eq_ok_iff.mp h
      obtain ⟨hgrows, entries, hvars, hids, hlen⟩ := ih hrest
      refine ⟨(regOf_eq_ok hr).2.1.trans hgrows, (v.id, r) :: entries, ?_, ?_, ?_⟩
      · rw [hvars, vars_of_regOf hv hr, List.append_assoc]
        rfl
      · rw [List.map_cons, hids]
        rfl
      · rw [List.length_cons, List.length_cons, hlen]

theorem Decl.lower_eq_ok {d : Decl} {f : Func} {s s' : Frame} (h : d.lower s = .ok (.ok f) s') :
    ∃ (ps : List Param) (s₁ : Frame) (c : Code), declare d.header.params s = .ok (.ok ps) s₁ ∧
      LowersBody none (.one d.stmt) s₁ c s' ∧
      f = ⟨d.header.name, d.header.ret, ps, c.terminate⟩ := by
  unfold Decl.lower at h
  obtain ⟨r, s₁, hr, h⟩ := bind_eq_ok_iff.mp h
  cases r with
  | error e => cases pure_eq_ok_iff.mp h |>.1
  | ok ps =>
    unfold Decl.stmt
    cases hbody : d.body with
    | none =>
      rw [hbody] at h
      obtain ⟨hf, rfl⟩ := pure_eq_ok_iff.mp h
      cases hf
      exact ⟨ps, s₁, [], hr, .hole, rfl⟩
    | some list =>
      rw [hbody] at h
      obtain ⟨c, s₂, hc, h⟩ := bind_eq_ok_iff.mp h
      obtain ⟨hf, rfl⟩ := pure_eq_ok_iff.mp h
      cases hf
      exact ⟨ps, s₁, c, hr, (Stmt.block list).lowers (within_eq_ok_iff.mp hc), rfl⟩

/-- What `n` turns of the loops show of a run: its end, or a point of it that is at least `n` steps
away. -/
def Machine.Bounds (M : Machine) (code : Code) (a : Config) (n : Nat) (r : Flow × Store) : Prop :=
  (∃ h m, r.1.halt? = some h ∧ M.run code m (.running a) = .halted h r.2.world) ∨
    (∃ m b, r.1.halt? = none ∧ n ≤ m ∧ M.run code m (.running a) = .running b ∧ b.world = r.2.world)

namespace Machine.Bounds
variable {M : Machine} {code : Code} {a : Config} {n : Nat} {r : Flow × Store}

theorem exists_world_eq (h : M.Bounds code a n r) :
    ∃ m, (M.run code m (.running a)).world = r.2.world := by
  rcases h with ⟨e, m, _, hrun⟩ | ⟨m, b, _, _, hrun, hw⟩
  · exact ⟨m, by rw [hrun]; rfl⟩
  · exact ⟨m, by rw [hrun]; exact hw⟩

theorem trace_bounded (h : M.Bounds code a n r) :
    (M.run code n (.running a)).world.trace <+: r.2.world.trace := by
  rcases h with ⟨e, m, _, hrun⟩ | ⟨m, b, _, hle, hrun, hw⟩
  · rcases Nat.le_total n m with hle | hle
    · have htrace := M.trace_run code hle (.running a)
      rw [hrun] at htrace
      exact htrace
    · rw [M.run_of_halted code hle hrun]
      exact List.prefix_rfl
  · have htrace := M.trace_run code hle (.running a)
    rw [hrun, Status.world, hw] at htrace
    exact htrace

theorem halt_eq (h : M.Bounds code a n r) {e : Halt} {w : World}
    (hrun : M.run code n (.running a) = .halted e w) :
    r.1.halt? = some e ∧ r.2.world = w := by
  rcases h with ⟨e', m, he, hm⟩ | ⟨m, b, _, hle, hm, _⟩
  · have hlast : M.run code (n + m) (.running a) = .halted e' r.2.world :=
      M.run_of_halted code (Nat.le_add_left m n) hm
    rw [M.run_of_halted code (Nat.le_add_right n m) hrun] at hlast
    cases hlast
    exact ⟨he, rfl⟩
  · rw [M.run_of_halted code hle hrun] at hm
    cases hm

end Machine.Bounds

theorem behaviour_eq_of_bounds {L : Language} {M : Machine} {m : Reading} {d : Decl} {code : Code}
    {ρ : Regs} {σ : Store} (h : ∀ n, M.Bounds code ⟨code, ρ, σ.world⟩ n (d.stmt.exec L m n σ)) :
    M.behaviour code ρ σ.world = d.behaviour L m σ := by
  apply Behaviour.ext
  · funext e w
    apply propext
    constructor
    · rintro ⟨n, hn⟩
      exact ⟨n, (h n).halt_eq hn⟩
    · rintro ⟨n, hhalt, hw⟩
      rcases h n with ⟨e', i, he, hrun⟩ | ⟨i, b, hnone, _⟩
      · rw [hhalt] at he
        cases he
        exact ⟨i, by rw [← hw]; exact hrun⟩
      · rw [hhalt] at hnone
        cases hnone
  · funext t
    apply propext
    constructor
    · rintro ⟨n, hn⟩
      exact ⟨n, hn.trans (h n).trace_bounded⟩
    · rintro ⟨n, hn⟩
      obtain ⟨i, hi⟩ := (h n).exists_world_eq
      exact ⟨i, by rw [hi]; exact hn⟩

theorem bounds_of_lowers {L : Language} {M : Machine} {x : Stmt} {s fin : Frame} {c : Code}
    (h : LowersBody none (.one x) s c fin) (hlinked : Linked L M fin.session) (hfin : fin.Numbered)
    (hv : Code.Valid c.terminate) {ρ : Regs} {σ : Store} (hρ : ρ.Holds fin σ) (n : Nat) :
    M.Bounds c.terminate ⟨c.terminate, ρ, σ.world⟩ n (x.exec L .inPlace n σ) := by
  have S : Setting L M c.terminate fin := ⟨hlinked, hfin, hv.nodup⟩
  obtain ⟨k, hk, hend⟩ : ∃ k, c.terminate = c ++ k ∧ (k = [] ∨ k = [.make .ret []]) := by
    unfold Code.terminate
    split
    · exact ⟨[], (List.append_nil c).symm, .inl rfl⟩
    · exact ⟨_, rfl, .inr rfl⟩
  have hreached := h.simulates S n (.refl fin) ⟨[], hk.symm⟩ hρ
  rw [← hk] at hreached
  change (x.exec L .inPlace n σ).1.Reached _ _ _ _ _ _ _ (x.exec L .inPlace n σ).2 at hreached
  generalize x.exec L .inPlace n σ = r at hreached ⊢
  obtain ⟨f, σ'⟩ := r
  cases f with
  | normal =>
    obtain ⟨ρ', ⟨m, hm⟩, _⟩ := hreached
    rcases hend with rfl | rfl
    · have hinside := Machine.Inside.run (M := M) hv c.isTerminated_terminate ρ σ.world m
      rw [hm] at hinside
      cases hinside.2
    · exact .inl ⟨.returned none, m + 1, rfl, by rw [Machine.run_add, hm]; rfl⟩
  | broke =>
    obtain ⟨l, hl, _⟩ := hreached
    cases hl
  | continued =>
    obtain ⟨l, hl, _⟩ := hreached
    cases hl
  | returned v =>
    obtain ⟨m, hm⟩ := hreached
    exact .inl ⟨.returned v, m, rfl, hm⟩
  | exhausted =>
    obtain ⟨m, b, hle, hm, hw⟩ := hreached
    exact .inr ⟨m, b, rfl, hle, hm, hw⟩

section Lowered
variable {s : Session} {d : Decl} {f : Func} {fin : Frame}

theorem numbered_of_lower (h : d.lower ⟨s, 0, []⟩ = .ok (.ok f) fin) : fin.Numbered := by
  obtain ⟨ps, s₁, c, hdeclare, hbody, _⟩ := Decl.lower_eq_ok h
  refine ((declare_eq_ok hdeclare).1.trans hbody.grows).numbered fun i p hp => ?_
  cases hp

/-- A lowered function does on the machine what its tree does, if the variables start with the same
values. -/
theorem behaviour_of_lower (h : d.lower ⟨s, 0, []⟩ = .ok (.ok f) fin) (hf : f.Verified)
    {L : Language} {M : Machine} (hlinked : Linked L M fin.session) {ρ : Regs} {σ : Store}
    (hρ : ρ.Holds fin σ) :
    M.behaviour f.code ρ σ.world = d.behaviour L .inPlace σ := by
  have hfin := numbered_of_lower h
  obtain ⟨ps, s₁, c, _, hbody, rfl⟩ := Decl.lower_eq_ok h
  exact behaviour_eq_of_bounds fun n =>
    bounds_of_lowers hbody hlinked hfin (Func.verified_iff.mp hf) hρ n

end Lowered

/-- The store in which the parameters have the values `args`, in their order, and all other
variables are 0. -/
def Decl.entry (d : Decl) (args : Nat → Int) (w : World) : Store :=
  ⟨fun id => (d.header.params.findIdx? fun p => p.map Var.id == some id).elim 0 args, w⟩

/-- The registers in which the parameters have the values `args`, in their order, and all others are
0. -/
def Func.entry (f : Func) (args : Nat → Int) : Regs := fun k =>
  if k.temp = false ∧ 0 ≤ k.index ∧ k.index < f.params.length then args k.index.toNat else 0

/-- The machine of a language for code that refers to the strings and labels of a session. -/
def Language.machine (L : Language) (s : Session) : Machine where
  toPrimitives := L.toPrimitives
  data segment i := if segment = 0 ∧ 0 ≤ i then s.data.strings[i.toNat]?.elim 0 L.str else 0
  callee l := L.callee (s.labels.name l)

theorem linked_machine (L : Language) (s : Session) : Linked L (L.machine s) s where
  primitives := rfl
  data b i hi := by
    obtain ⟨hlt, hb, _⟩ := List.idxOf?_eq_some_iff.mp hi
    simp [Language.machine, List.getElem?_eq_getElem hlt, hb]
  callee name l hl := by
    obtain ⟨i, hi, rfl⟩ := Option.map_eq_some_iff.mp hl
    obtain ⟨hlt, hentry, _⟩ := List.findIdx?_eq_some_iff_getElem.mp hi
    obtain ⟨_, hname⟩ := Bool.and_eq_true_iff.mp hentry
    have hget : s.labels.get? ⟨i⟩ = some s.labels.entries[i] := by
      simp [Labels.get?, List.getElem?_eq_getElem hlt]
    simp only [Language.machine, Labels.name_eq, hget, Option.map_some, Option.getD_some,
      eq_of_beq hname]

theorem Frame.Numbered.key_eq {s : Frame} (h : s.Numbered) {id : Int} {r : Reg}
    (hr : s.vars.lookup id = some r) :
    ∃ i : Nat, r.key = ⟨false, i⟩ ∧ s.vars.findIdx? (fun p => p.1 == id) = some i := by
  obtain ⟨l₁, l₂, hl, hfirst⟩ := List.lookup_eq_some_iff.mp hr
  refine ⟨l₁.length, h _ (id, r) (by simp [hl]), ?_⟩
  have hnone : l₁.findIdx? (fun p => p.1 == id) = none := by
    rw [List.findIdx?_eq_none_iff]
    intro p hp
    have hne := hfirst p hp
    simp only [bne_iff_ne, ne_eq] at hne
    exact beq_false_of_ne fun heq => hne heq.symm
  rw [hl, List.findIdx?_append, hnone, List.findIdx?_cons]
  simp

theorem holds_entry {s : Session} {d : Decl} {f : Func} {fin : Frame}
    (h : d.lower ⟨s, 0, []⟩ = .ok (.ok f) fin) (args : Nat → Int) (w : World) :
    (f.entry args).Holds fin (d.entry args w) := by
  intro id r hr
  obtain ⟨i, hkey, hindex⟩ := (numbered_of_lower h).key_eq hr
  obtain ⟨ps, s₁, c, hdeclare, hbody, rfl⟩ := Decl.lower_eq_ok h
  obtain ⟨_, entries, hvars, hids, hlen⟩ := declare_eq_ok hdeclare
  obtain ⟨more, hmore⟩ := hbody.grows.vars
  have hparams : d.header.params.findIdx? (fun p => p.map Var.id == some id) =
      entries.findIdx? (fun p => p.1 == id) := by
    have hmap := congrArg (List.findIdx? (· == some id)) hids
    rw [List.findIdx?_map, List.findIdx?_map] at hmap
    exact hmap
  rw [← hmore, hvars, List.nil_append, List.findIdx?_append] at hindex
  simp only [Func.entry, Decl.entry, hkey, hparams, hlen]
  cases hfind : entries.findIdx? (fun p => p.1 == id) with
  | some j =>
    rw [hfind] at hindex
    cases hindex
    have hlt := (List.findIdx?_eq_some_iff_getElem.mp hfind).1
    rw [if_pos ⟨trivial, by omega, by omega⟩]
    rfl
  | none =>
    rw [hfind, Option.none_or] at hindex
    obtain ⟨j, _, rfl⟩ := Option.map_eq_some_iff.mp hindex
    rw [if_neg fun hlt => by omega]
    rfl

/-- Lowering is correct. What the code of a function does is what its tree does if each variable
that is the left operand of an operator, the first of a chain or the address of a store is read when
the operator is applied, and what the tree does strictly from left to right if no such variable is
assigned by the operand after it. -/
theorem Session.lowerFunc_behaviour {s s' : Session} {d : Decl} {f : Func}
    (h : s.lowerFunc d = .ok (.ok f, s')) (L : Language) (args : Nat → Int) (w : World) :
    (L.machine s').behaviour f.code (f.entry args) w = d.behaviour L .inPlace (d.entry args w) ∧
      (d.isSteady = true →
        (L.machine s').behaviour f.code (f.entry args) w =
          d.behaviour L .strict (d.entry args w)) := by
  obtain ⟨hf, fin, hlower, rfl⟩ := lowerFunc_eq_ok h
  have hinPlace :=
    behaviour_of_lower hlower hf (linked_machine L fin.session) (holds_entry hlower args w)
  exact ⟨hinPlace, fun hsteady => hinPlace.trans (Decl.behaviour_inPlace hsteady _)⟩

/-- A language in which operators compute with integers and calls do nothing. -/
def Language.sample : Language where
  un
    | .not, a => if a = 0 then 1 else 0
    | .neg, a => -a
  bin
    | .add, a, b => a + b
    | .sub, a, b => a - b
    | .mul, a, b => a * b
    | .eq, a, b => if a = b then 1 else 0
    | .neq, a, b => if a = b then 0 else 1
    | .lt, a, b => if a < b then 1 else 0
    | _, _, _ => 0
  oracle _ _ w := (0, w.memory)
  str b := b.length
  callee _ := 0

theorem Language.sample_lawful : Language.sample.toPrimitives.Lawful where
  not_ne_zero_iff a := by simp [sample]
  eq_ne_zero_iff a b := by simp [sample]
  neq_ne_zero_iff a b := by simp [sample]

theorem Session.exists_lowerFunc_of_isSome {s : Session} {d : Decl}
    (hsome : ((s.lowerFunc d).toOption.any fun r => r.1.toOption.isSome) = true) :
    ∃ f s', s.lowerFunc d = .ok (.ok f, s') := by
  cases h : s.lowerFunc d with
  | error e =>
    rw [h] at hsome
    cases hsome
  | ok r =>
    obtain ⟨r, s'⟩ := r
    cases r with
    | error e =>
      rw [h] at hsome
      cases hsome
    | ok f => exact ⟨f, s', rfl⟩

/-- A loop that a break leaves when it has counted down to 3. -/
def Decl.countdown : Decl :=
  let n := Sample.local32 7 "n"
  Sample.decl "countdown" .i32 [n] [
    .whileLoop (.var n) (.block [
      Sample.set n (Sample.bin "-" (.var n) (Sample.lit 1)),
      .branch (Sample.cmp "==" (.var n) (Sample.lit 3)) .breakLoop .hole]),
    .ret (.var n)]

theorem Session.lowerFunc_behaviour_countdown : ∃ f s',
    Session.empty.lowerFunc .countdown = .ok (.ok f, s') ∧ Decl.countdown.isSteady = true ∧
      (Language.sample.machine s').behaviour f.code (f.entry fun _ => 9) ⟨fun _ => 0, []⟩ =
        Decl.countdown.behaviour .sample .strict
          (Decl.countdown.entry (fun _ => 9) ⟨fun _ => 0, []⟩) := by
  have hsteady : Decl.countdown.isSteady = true := by decide
  obtain ⟨f, s', h⟩ : ∃ f s', Session.empty.lowerFunc .countdown = .ok (.ok f, s') := ⟨_, _, rfl⟩
  exact ⟨f, s', h, hsteady, (lowerFunc_behaviour h .sample (fun _ => 9) ⟨fun _ => 0, []⟩).2 hsteady⟩

def Decl.assignedLate : Decl :=
  let x := Sample.local32 0 "x"
  Sample.decl "late" .i32 [] [.ret (Sample.bin "+" (.var x) (.assign (some x) (Sample.lit 5)))]

/-- Not every function behaves as its tree does strictly, also where operators do what they should:
where the tree gives 0 + 5, the code gives 5 + 5. -/
theorem Session.lowerFunc_behaviour_ne_strict : ¬ ∀ (s s' : Session) (d : Decl) (f : Func),
    s.lowerFunc d = .ok (.ok f, s') → ∀ L : Language, L.toPrimitives.Lawful →
      ∀ (args : Nat → Int) (w : World),
        (L.machine s').behaviour f.code (f.entry args) w =
          d.behaviour L .strict (d.entry args w) := by
  intro hstrict
  have heq := hstrict .empty _ .assignedLate _ rfl .sample Language.sample_lawful (fun _ => 0)
    ⟨fun _ => 0, []⟩
  have hhalts :=
    congrFun (congrFun (congrArg Behaviour.halts heq) (.returned (some 10))) ⟨fun _ => 0, []⟩
  obtain ⟨n, hn, _⟩ := (iff_of_eq hhalts).mp ⟨8, rfl⟩
  cases hn

end ThreeAddress
