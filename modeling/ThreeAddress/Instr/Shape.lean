import ThreeAddress.Error

/-!
# The operands an opcode takes

Every opcode that has a meaning has a shape: the slots that must be filled, and how many further
values may follow them. `Instr.check` compares an instruction with the shape of its opcode. It looks
at the number of operands first and then reports the leftmost one that its slot does not take.
-/

namespace ThreeAddress
set_option autoImplicit false

/-- What may stand at an operand place. -/
inductive Slot where
  | origin
  | register
  | value
  | target
  | callee
  /-- A register, or nothing where the result is not wanted. -/
  | result
deriving DecidableEq

namespace Slot

/-- No slot takes an empty place. -/
def takes : Slot → Option Operand → Bool
  | origin, some (.origin _) => true
  | register, some (.reg _) => true
  | value, some x => x.isValue
  | target, some (.label _) => true
  | callee, some (.callee ..) => true
  | result, some (.reg _) => true
  | result, some .nothing => true
  | _, _ => false

@[simp] theorem takes_none (s : Slot) : s.takes none = false := by cases s <;> rfl

end Slot

/-- How many values may follow the slots that must be filled. -/
inductive Extra where
  | none
  | atMostOne
  | any
deriving DecidableEq

def Extra.allows : Extra → Nat → Bool
  | none, n => n == 0
  | atMostOne, n => n ≤ 1
  | any, _ => true

structure Shape where
  slots : List Slot
  extra : Extra
deriving DecidableEq

namespace Shape

def slot (s : Shape) (i : Nat) : Slot := s.slots.getD i .value

def counts (s : Shape) (n : Nat) : Bool := s.slots.length ≤ n && s.extra.allows (n - s.slots.length)

end Shape

def Opcode.shape? : Opcode → Option Shape
  | nop => some ⟨[.origin], .none⟩
  | mov | read | un _ => some ⟨[.register, .value], .none⟩
  | bin _ => some ⟨[.register, .value, .value], .none⟩
  | write => some ⟨[.value, .value], .none⟩
  | br | label => some ⟨[.target], .none⟩
  | brz | bnz => some ⟨[.target, .value], .none⟩
  | ret => some ⟨[], .atMostOne⟩
  | call => some ⟨[.result, .callee], .any⟩
  | other _ => none

namespace Instr

/-- The context of a wrong number of operands; the right one is named where there is only one. -/
def countContext (x : Instr) (s : Shape) : Context :=
  match s.extra with
  | .none => .operandCountWanted x.op x.args.length s.slots.length
  | _ => .operandCount x.op x.args.length

/-- The leftmost operand, counted from `i`, that its slot does not take. -/
def misplaced? (s : Shape) : Nat → List (Option Operand) → Option (Nat × Option Operand)
  | _, [] => none
  | i, a :: rest => if (s.slot i).takes a then misplaced? s (i + 1) rest else some (i, a)

/-- Why an instruction is malformed, if it is. -/
def flaw? (x : Instr) : Option Context :=
  match x.op.shape? with
  | none => some (.unknownOpcode x.op)
  | some s =>
    if s.counts x.args.length then
      (misplaced? s 0 x.args).map fun (i, a) => .operand x.op i a
    else some (countContext x s)

/-- Every operand stands where its opcode takes it. -/
def WellFormed (x : Instr) : Prop := x.flaw? = none

instance (x : Instr) : Decidable x.WellFormed := inferInstanceAs (Decidable (x.flaw? = none))

def check (x : Instr) : Except Error Unit :=
  match x.flaw? with
  | none => .ok ()
  | some c => .error ((Error.of .malformedOperand).within c)

theorem check_eq_ok_iff {x : Instr} : x.check = .ok () ↔ x.WellFormed := by
  unfold check WellFormed
  cases x.flaw? <;> simp

end Instr

end ThreeAddress
