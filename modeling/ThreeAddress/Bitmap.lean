import ThreeAddress.Basic

/-!
# Bitmaps

A set of small non-negative numbers, 64 to a word. Words are added as numbers come in and never
taken away, so that a cleared bitmap keeps its room. Positions are integers: those below zero belong
to no word or to no bit, and asking for them faults, unless the word asked for is beyond the end
anyway.
-/

namespace ThreeAddress
set_option autoImplicit false

structure Bitmap where
  words : List UInt64
deriving DecidableEq

namespace Bitmap

def empty : Bitmap := ⟨[]⟩

/-- The number of 64 binary digits, in two's complement, that `n` is stored as. -/
def stored (n : Int) : Int := n.bmod 18446744073709551616

/-- Room for `n` numbers from 0 on, and at least one word. Capacities are 64-bit numbers: one so
large that rounding up exceeds them gets a single word. -/
def ofCapacity (n : Int) : Bitmap :=
  ⟨0 :: List.replicate (((stored (n + 63)).tdiv 64).toNat - 1) 0⟩

/-- Word and bit of a position, both rounded toward zero. -/
def locate (p : Int) : Int × Int := (p.tdiv 64, p.tmod 64)

/-- Word and bit as positions in the list and in the word. -/
def checked (p : Int) : Except Fault (Nat × Nat) :=
  if (locate p).1 < 0 then .error .outOfRange
  else if (locate p).2 < 0 then .error .negativeShift
  else .ok ((locate p).1.toNat, (locate p).2.toNat)

def bit (j : Nat) : UInt64 := 1 <<< UInt64.ofNat j

def hasBit (w : UInt64) (j : Nat) : Bool := w &&& bit j != 0

/-- Adds empty words until there is a word `i`. -/
def grow (s : Bitmap) (i : Nat) : Bitmap :=
  ⟨s.words ++ List.replicate (i + 1 - s.words.length) 0⟩

def insert (s : Bitmap) (p : Int) : Except Fault Bitmap := do
  let (i, j) ← checked p
  return ⟨(s.grow i).words.modify i (· ||| bit j)⟩

def contains (s : Bitmap) (p : Int) : Except Fault Bool :=
  if s.words.length ≤ (locate p).1 then .ok false
  else do
    let (i, j) ← checked p
    return hasBit (s.words.getD i 0) j

/-- Inserts, and says whether the number is new. -/
def insertNew (s : Bitmap) (p : Int) : Except Fault (Bool × Bitmap) := do
  if ← s.contains p then return (false, s)
  else return (true, ← s.insert p)

def clear (s : Bitmap) : Bitmap := ⟨s.words.map fun _ => 0⟩

/-- The bits of a word that are set, in ascending order. -/
def bitsOf (w : UInt64) : List Nat := if w = 0 then [] else (List.range 64).filter (hasBit w)

/-- All members in ascending order, for words of which the first has number `i`. -/
def members (i : Nat) (ws : List UInt64) : List Nat :=
  (ws.zipIdx i).flatMap fun (w, i) => (bitsOf w).map (i * 64 + ·)

def toList (s : Bitmap) : List Nat := members 0 s.words

def bitCount (ws : List UInt64) : Nat := ws.foldl (fun n w => n + (bitsOf w).length) 0

def size (s : Bitmap) : Nat := bitCount s.words

/-- The lowest bit of a word that is set; a word that is zero has none. -/
def lowestBit? (w : UInt64) : Option Nat := if w = 0 then none else (List.range 64).find? (hasBit w)

def dropBit (w : UInt64) (j : Nat) : UInt64 := w &&& ~~~bit j

theorem hasBit_of_lowestBit? {w : UInt64} {j : Nat} (h : lowestBit? w = some j) :
    hasBit w j = true := by
  unfold lowestBit? at h
  split at h
  · cases h
  · exact List.find?_some h

theorem toNat_dropBit_lt {w : UInt64} {j : Nat} (h : hasBit w j = true) :
    (dropBit w j).toNat < w.toNat := by
  have hle : (dropBit w j).toNat ≤ w.toNat := by
    rw [dropBit, UInt64.toNat_and]
    exact Nat.and_le_left
  refine Nat.lt_of_le_of_ne hle fun heq => ?_
  have hzero : w &&& bit j = 0 := by
    rw [← UInt64.toNat_inj.mp heq, dropBit, UInt64.and_assoc, UInt64.not_and_self, UInt64.and_zero]
  rw [hasBit, hzero] at h
  cases h

/-- What a visitor sees of words of which the first has number `i`. Bits are taken out of the first
word from the lowest on until it is zero, and the visitor leaves after the first number at which
`more` is false. -/
def visitFrom (more : Nat → Bool) (i : Nat) : List UInt64 → List Nat
  | [] => []
  | w :: ws =>
    match _h : lowestBit? w with
    | none => visitFrom more (i + 1) ws
    | some j =>
      if more (i * 64 + j) then (i * 64 + j) :: visitFrom more i (dropBit w j :: ws)
      else [i * 64 + j]
termination_by ws => (ws.length, (ws.headD 0).toNat)
decreasing_by
  · exact Prod.Lex.left _ _ (Nat.lt_succ_self _)
  · exact Prod.Lex.right _ (toNat_dropBit_lt (hasBit_of_lowestBit? _h))

/-- The members that a visitor sees, word by word and bit by bit. -/
def visit (s : Bitmap) (more : Nat → Bool) : List Nat := visitFrom more 0 s.words

@[simp] theorem members_nil (i : Nat) : members i [] = [] := rfl

@[simp] theorem members_cons (i : Nat) (w : UInt64) (ws : List UInt64) :
    members i (w :: ws) = (bitsOf w).map (i * 64 + ·) ++ members (i + 1) ws := rfl

theorem foldl_bitsOf (n i : Nat) (ws : List UInt64) :
    ws.foldl (fun n w => n + (bitsOf w).length) n = n + (members i ws).length := by
  induction ws generalizing n i with
  | nil => rfl
  | cons w ws ih =>
    rw [List.foldl_cons, ih _ (i + 1), members_cons, List.length_append, List.length_map,
      Nat.add_assoc]

theorem length_members (i : Nat) (ws : List UInt64) : (members i ws).length = bitCount ws := by
  rw [bitCount, foldl_bitsOf 0 i ws, Nat.zero_add]

@[simp] theorem length_toList (s : Bitmap) : s.toList.length = s.size := length_members 0 s.words

end Bitmap

end ThreeAddress
