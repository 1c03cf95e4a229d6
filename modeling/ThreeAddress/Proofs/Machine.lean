import Mathlib.Logic.Function.Basic
import ThreeAddress.Program

/-!
# Running code

A machine gives operators, data and calls a meaning and runs code on registers and a world. Widths
play no part. A configuration holds the code that is still to be run; a branch goes on with the code
from its label on.

What the outside may see of a run is its behaviour: whether and how it ends, and the writes and
calls up to any point of it. The second part also tells runs apart that never end. Code whose steps
can be grouped so that the groups of both sides correspond has one behaviour
(`behaviour_eq_of_lockstep`).
-/

namespace ThreeAddress
set_option autoImplicit false

inductive Event where
  | write (addr value : Int)
  | call (callee : Int) (args : List Int) (result : Int)
deriving DecidableEq

abbrev Memory := Int → Int

/-- The memory and what has happened so far, oldest first. -/
structure World where
  memory : Memory
  trace : List Event

def World.write (w : World) (addr value : Int) : World :=
  ⟨Function.update w.memory addr value, w.trace ++ [.write addr value]⟩

/-- What trees and code have in common. The oracle gives the result of a call and the memory after
it; it may look at everything that has happened before. -/
structure Primitives where
  un : UnOp → Int → Int
  bin : BinOp → Int → Int → Int
  oracle : Int → List Int → World → Int × Memory

/-- The operators that branches rely on. -/
structure Primitives.Lawful (P : Primitives) : Prop where
  not_ne_zero_iff : ∀ a, P.un .not a ≠ 0 ↔ a = 0
  eq_ne_zero_iff : ∀ a b, P.bin .eq a b ≠ 0 ↔ a = b
  neq_ne_zero_iff : ∀ a b, P.bin .neq a b ≠ 0 ↔ a ≠ b

def Primitives.call (P : Primitives) (callee : Int) (args : List Int) (w : World) : Int × World :=
  let (r, m) := P.oracle callee args w
  (r, ⟨m, w.trace ++ [.call callee args r]⟩)

structure Machine extends Primitives where
  data : UInt8 → Int → Int
  callee : Label → Int

abbrev Regs := RegKey → Int

/-- Leaves `v` in the register at a place; a place without one takes nothing. -/
def Regs.put (ρ : Regs) (place : Option Operand) (v : Int) : Regs :=
  match Operand.keyAt? place with
  | some k => Function.update ρ k v
  | none => ρ

/-- What one instruction does to control, registers and world. -/
inductive Effect where
  | next (ρ : Regs) (w : World)
  | jump (l : Label) (ρ : Regs) (w : World)
  | halt (v : Option Int) (w : World)

/-- Code still to be run, with registers and world. -/
structure Config where
  rest : Code
  regs : Regs
  world : World

inductive Halt where
  | returned (v : Option Int)
  | ranOff
deriving DecidableEq

inductive Status where
  | running (c : Config)
  | halted (h : Halt) (w : World)

def Status.world : Status → World
  | running c => c.world
  | halted _ w => w

/-- The code from the label `l` on; nothing if it is not defined. -/
def Code.seek (l : Label) : Code → Code
  | [] => []
  | x :: rest => if x.op = .label ∧ x.target? = some l then x :: rest else Code.seek l rest

/-- The effect of an instruction within `code` that is followed by `rest`. -/
def Effect.resolve (code rest : Code) : Effect → Status
  | next ρ w => .running ⟨rest, ρ, w⟩
  | jump l ρ w => .running ⟨code.seek l, ρ, w⟩
  | halt v w => .halted (.returned v) w

namespace Machine

def value (M : Machine) (ρ : Regs) : Option Operand → Int
  | some (.num v _) => v
  | some (.reg r) => ρ r.key
  | some (.data s i) => M.data s i
  | some (.callee l _) => M.callee l
  | _ => 0

def outcome (M : Machine) (x : Instr) (ρ : Regs) (w : World) : Int × World :=
  match x.op with
  | .mov => (M.value ρ (x.operand? 1), w)
  | .read => (w.memory (M.value ρ (x.operand? 1)), w)
  | .un op => (M.un op (M.value ρ (x.operand? 1)), w)
  | .bin op => (M.bin op (M.value ρ (x.operand? 1)) (M.value ρ (x.operand? 2)), w)
  | .call => M.call (M.value ρ (x.operand? 1)) ((x.args.drop 2).map (M.value ρ)) w
  | _ => (0, w)

def effect (M : Machine) (x : Instr) (ρ : Regs) (w : World) : Effect :=
  match x.op with
  | .mov | .read | .un _ | .bin _ | .call =>
    .next (ρ.put (x.operand? 0) (M.outcome x ρ w).1) (M.outcome x ρ w).2
  | .write => .next ρ (w.write (M.value ρ (x.operand? 0)) (M.value ρ (x.operand? 1)))
  | .br => .jump (x.target?.getD default) ρ w
  | .brz => if M.value ρ (x.operand? 1) = 0 then .jump (x.target?.getD default) ρ w else .next ρ w
  | .bnz => if M.value ρ (x.operand? 1) ≠ 0 then .jump (x.target?.getD default) ρ w else .next ρ w
  | .ret => .halt ((x.operand? 0).map fun a => M.value ρ (some a)) w
  | .nop | .label | .other _ => .next ρ w

def step (M : Machine) (code : Code) : Status → Status
  | .running ⟨x :: rest, ρ, w⟩ => (M.effect x ρ w).resolve code rest
  | .running ⟨[], _, w⟩ => .halted .ranOff w
  | .halted h w => .halted h w

def run (M : Machine) (code : Code) : Nat → Status → Status
  | 0, s => s
  | n + 1, s => M.run code n (M.step code s)

end Machine

/-- How a run may end, and which sequences of events it begins with. -/
@[ext]
structure Behaviour where
  halts : Halt → World → Prop
  observed : List Event → Prop

def Machine.behaviour (M : Machine) (code : Code) (ρ : Regs) (w : World) : Behaviour where
  halts h w' := ∃ n, M.run code n (.running ⟨code, ρ, w⟩) = .halted h w'
  observed t := ∃ n, t <+: (M.run code n (.running ⟨code, ρ, w⟩)).world.trace

namespace Machine
variable (M : Machine) (code : Code)

theorem run_one (x : Instr) (rest : Code) (ρ : Regs) (w : World) :
    M.run code 1 (.running ⟨x :: rest, ρ, w⟩) = (M.effect x ρ w).resolve code rest := rfl

theorem run_add (m n : Nat) (s : Status) :
    M.run code (m + n) s = M.run code n (M.run code m s) := by
  induction m generalizing s with
  | zero => rw [Nat.zero_add, run]
  | succ m ih => rw [Nat.succ_add, run, run, ih]

@[simp] theorem run_halted (n : Nat) (h : Halt) (w : World) :
    M.run code n (.halted h w) = .halted h w := by
  induction n with
  | zero => rfl
  | succ n ih => rw [run, step, ih]

theorem run_of_halted {m n : Nat} {s : Status} {h : Halt} {w : World} (hmn : m ≤ n)
    (hm : M.run code m s = .halted h w) : M.run code n s = .halted h w := by
  obtain ⟨k, rfl⟩ := Nat.le.dest hmn
  rw [run_add, hm, run_halted]

def Reaches (a b : Config) : Prop := ∃ n, M.run code n (.running a) = .running b

section
variable {M code}

theorem Reaches.refl (a : Config) : M.Reaches code a a := ⟨0, rfl⟩

theorem Reaches.trans {a b c : Config} (hab : M.Reaches code a b) (hbc : M.Reaches code b c) :
    M.Reaches code a c := by
  obtain ⟨m, hm⟩ := hab
  obtain ⟨n, hn⟩ := hbc
  exact ⟨m + n, by rw [run_add, hm, hn]⟩

theorem Reaches.next {x : Instr} {ρ ρ' : Regs} {w w' : World}
    (h : M.effect x ρ w = .next ρ' w') (k : Code) :
    M.Reaches code ⟨x :: k, ρ, w⟩ ⟨k, ρ', w'⟩ := ⟨1, by rw [run_one, h]; rfl⟩

theorem Reaches.jump {x : Instr} {ρ ρ' : Regs} {w w' : World} {l : Label}
    (h : M.effect x ρ w = .jump l ρ' w') (k : Code) :
    M.Reaches code ⟨x :: k, ρ, w⟩ ⟨code.seek l, ρ', w'⟩ := ⟨1, by rw [run_one, h]; rfl⟩

end

theorem trace_outcome (x : Instr) (ρ : Regs) (w : World) :
    w.trace <+: (M.outcome x ρ w).2.trace := by
  unfold outcome
  cases x.op with
  | call => exact List.prefix_append _ _
  | _ => exact List.prefix_rfl

theorem trace_step (s : Status) : s.world.trace <+: (M.step code s).world.trace := by
  match s with
  | .halted h w => exact List.prefix_rfl
  | .running ⟨[], ρ, w⟩ => exact List.prefix_rfl
  | .running ⟨x :: rest, ρ, w⟩ =>
    rw [step, effect]
    cases hop : x.op with
    | mov | read | un | bin | call => exact M.trace_outcome x ρ w
    | write => exact List.prefix_append _ _
    | brz | bnz =>
      simp only
      split <;> exact List.prefix_rfl
    | _ => exact List.prefix_rfl

theorem trace_run {m n : Nat} (hmn : m ≤ n) (s : Status) :
    (M.run code m s).world.trace <+: (M.run code n s).world.trace := by
  obtain ⟨k, rfl⟩ := Nat.le.dest hmn
  rw [run_add]
  generalize M.run code m s = t
  induction k generalizing t with
  | zero => exact List.prefix_rfl
  | succ k ih => exact (M.trace_step code t).trans (ih (Nat.le_add_right m k) _)

end Machine

/-- Statuses that correspond where `R` says which configurations do. -/
inductive Status.Matches (R : Config → Config → Prop) : Status → Status → Prop where
  | running {a b : Config} : R a b → Matches R (.running a) (.running b)
  | halted (h : Halt) (w : World) : Matches R (.halted h w) (.halted h w)

section Lockstep
variable {M N : Machine} {c d : Code} {R : Config → Config → Prop}

/-- From configurations that correspond both sides get, in one step or more, to statuses that
correspond. -/
structure Lockstep (M N : Machine) (c d : Code) (R : Config → Config → Prop) : Prop where
  world : ∀ {a b}, R a b → a.world = b.world
  progress : ∀ {a b}, R a b → ∃ m n, 0 < m ∧ 0 < n ∧
    Status.Matches R (M.run c m (.running a)) (N.run d n (.running b))

namespace Lockstep

theorem world_eq (h : Lockstep M N c d R) {s t : Status} (hst : Status.Matches R s t) :
    s.world = t.world := by
  cases hst with
  | running hab => exact h.world hab
  | halted => rfl

theorem far (h : Lockstep M N c d R) (k : Nat) {s t : Status} (hst : Status.Matches R s t) :
    ∃ m n, k ≤ m ∧ k ≤ n ∧ Status.Matches R (M.run c m s) (N.run d n t) := by
  induction k with
  | zero => exact ⟨0, 0, Nat.le_refl 0, Nat.le_refl 0, hst⟩
  | succ k ih =>
    obtain ⟨m, n, hm, hn, hmn⟩ := ih
    generalize hs : M.run c m s = s' at hmn
    generalize ht : N.run d n t = t' at hmn
    cases hmn with
    | running hab =>
      obtain ⟨m', n', hm', hn', hmatch⟩ := h.progress hab
      refine ⟨m + m', n + n', by omega, by omega, ?_⟩
      rw [Machine.run_add, Machine.run_add, hs, ht]
      exact hmatch
    | halted x w =>
      refine ⟨m + 1, n + 1, by omega, by omega, ?_⟩
      rw [Machine.run_add, Machine.run_add, hs, ht, Machine.run_halted, Machine.run_halted]
      exact .halted x w

theorem halts_iff (h : Lockstep M N c d R) {a b : Config} (hab : R a b) (x : Halt) (w : World) :
    (∃ n, M.run c n (.running a) = .halted x w) ↔ ∃ n, N.run d n (.running b) = .halted x w := by
  constructor
  · rintro ⟨k, hk⟩
    obtain ⟨m, n, hm, _, hmatch⟩ := h.far k (.running hab)
    rw [M.run_of_halted c hm hk] at hmatch
    generalize ht : N.run d n (.running b) = t at hmatch
    cases hmatch
    exact ⟨n, ht⟩
  · rintro ⟨k, hk⟩
    obtain ⟨m, n, _, hn, hmatch⟩ := h.far k (.running hab)
    rw [N.run_of_halted d hn hk] at hmatch
    generalize hs : M.run c m (.running a) = s at hmatch
    cases hmatch
    exact ⟨m, hs⟩

theorem observed_iff (h : Lockstep M N c d R) {a b : Config} (hab : R a b) (t : List Event) :
    (∃ n, t <+: (M.run c n (.running a)).world.trace) ↔
      ∃ n, t <+: (N.run d n (.running b)).world.trace := by
  constructor
  · rintro ⟨k, hk⟩
    obtain ⟨m, n, hm, _, hmatch⟩ := h.far k (.running hab)
    refine ⟨n, ?_⟩
    rw [← h.world_eq hmatch]
    exact hk.trans (M.trace_run c hm _)
  · rintro ⟨k, hk⟩
    obtain ⟨m, n, _, hn, hmatch⟩ := h.far k (.running hab)
    refine ⟨m, ?_⟩
    rw [h.world_eq hmatch]
    exact hk.trans (N.trace_run d hn _)

end Lockstep

theorem behaviour_eq_of_lockstep (h : Lockstep M N c d R) {ρ σ : Regs} {w : World}
    (hstart : R ⟨c, ρ, w⟩ ⟨d, σ, w⟩) : M.behaviour c ρ w = N.behaviour d σ w := by
  apply Behaviour.ext
  · funext x w'
    exact propext (h.halts_iff hstart x w')
  · funext t
    exact propext (h.observed_iff hstart t)

end Lockstep

end ThreeAddress
