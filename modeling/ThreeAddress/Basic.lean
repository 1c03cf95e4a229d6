/-!
# Byte strings, widths and faults

Names, operators and string literals are byte strings: they need not be UTF-8. `Bytes.decode` reads
one character after the other and keeps each byte that is part of none, so that no byte is lost.

A width is the size and signedness of a value. Widths are only carried, compared and printed; no
operation of the library computes with the values they describe.

A fault is the outcome of a step that has no answer at all: it reads an operand or a node that is
not there, or a position that no set can hold. Unlike an error it is never collected or given
context: it ends the run.
-/

namespace ThreeAddress
set_option autoImplicit false

abbrev Bytes := List UInt8

namespace Bytes

def ofString (s : String) : Bytes := s.toUTF8.data.toList

instance : Coe String Bytes := ⟨ofString⟩

theorem ofString_injective {s t : String} (h : ofString s = ofString t) : s = t :=
  String.toByteArray_inj.mp (ByteArray.ext (Array.toList_inj.mp h))

/-- A piece of a byte string: a character, or a byte that belongs to no character. -/
inductive Piece where
  | char (c : Char)
  | stray (b : UInt8)
deriving DecidableEq

def continuation? (b : UInt8) : Option Nat :=
  if 0x80 ≤ b ∧ b < 0xc0 then some (b.toNat - 0x80) else none

/-- The payloads of the next `k` bytes, which have to be continuation bytes, put together after
`acc`. -/
def continuations? : Nat → Nat → Bytes → Option Nat
  | 0, acc, _ => some acc
  | k + 1, acc, b :: rest => do continuations? k (acc * 64 + (← continuation? b)) rest
  | _ + 1, _, [] => none

/-- The number of continuation bytes after a first byte, its payload, and the least code point that
needs so many bytes. -/
def lead? (b : UInt8) : Option (Nat × Nat × Nat) :=
  if b < 0x80 then some (0, b.toNat, 0)
  else if 0xc0 ≤ b ∧ b < 0xe0 then some (1, b.toNat - 0xc0, 0x80)
  else if 0xe0 ≤ b ∧ b < 0xf0 then some (2, b.toNat - 0xe0, 0x800)
  else if 0xf0 ≤ b ∧ b < 0xf8 then some (3, b.toNat - 0xf0, 0x10000)
  else none

/-- The character that starts with `b`, and the number of its bytes after `b`. Forms that are longer
than needed, surrogates and numbers past the last code point are none. -/
def char? (b : UInt8) (rest : Bytes) : Option (Char × Nat) := do
  let (k, payload, least) ← lead? b
  let n ← continuations? k payload rest
  if least ≤ n ∧ n.isValidChar then some (Char.ofNat n, k) else none

def decode : Bytes → List Piece
  | [] => []
  | b :: rest =>
    match char? b rest with
    | some (c, k) => .char c :: decode (rest.drop k)
    | none => .stray b :: decode rest
termination_by s => s.length
decreasing_by
  all_goals simp only [List.length_cons, List.length_drop]; omega

/-- As text, with the replacement character for each byte that belongs to no character. -/
def lossyText (s : Bytes) : String :=
  String.ofList (s.decode.map fun
    | .char c => c
    | .stray _ => '�')

end Bytes

structure Width where
  bits : Int
  signed : Bool
deriving DecidableEq, Inhabited

namespace Width

def void : Width := ⟨0, false⟩
def i32 : Width := ⟨32, true⟩

/-- Addresses, string data and function references. -/
def ptr : Width := ⟨64, false⟩
def bool : Width := ⟨8, false⟩

def isVoid (w : Width) : Bool := w.bits == 0

def size (w : Width) : Int := w.bits.tdiv 8

def text (w : Width) : String :=
  if w.isVoid then "void" else (if w.signed then "i" else "u") ++ toString w.bits

end Width

inductive Fault where
  /-- An operand or a word beyond the end of its list, or before its start. -/
  | outOfRange
  /-- The text of an operand that is missing. -/
  | missingOperand
  /-- A function or a parameter that a tree has in its lists but leaves out. -/
  | missingNode
  /-- A bit before the first one of a word. -/
  | negativeShift
deriving DecidableEq

namespace Fault

def message : Fault → String
  | outOfRange => "index out of range"
  | missingOperand | missingNode => "nil pointer dereference"
  | negativeShift => "negative shift amount"

theorem bind_eq_ok_iff {α β : Type} {x : Except Fault α} {f : α → Except Fault β} {b : β} :
    x >>= f = .ok b ↔ ∃ a, x = .ok a ∧ f a = .ok b := by
  cases x <;> simp [bind, Except.bind]

end Fault

end ThreeAddress
