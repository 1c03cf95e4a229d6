import ThreeAddress.Bitmap
import ThreeAddress.Instr

/-!
# Wire form

A self-describing binary form: every item starts with a head that holds its kind in the upper three
bits and a number in the shortest of five forms, most significant byte first. An instruction is a
map of its mnemonic and its operand texts; a bitmap is an open array of its members, or the empty
item while it has no words.
-/

namespace ThreeAddress
set_option autoImplicit false

namespace Wire

inductive Kind where
  | int
  | string
  | array
  | map
deriving DecidableEq

/-- The upper three bits of a head. -/
def Kind.tag : Kind → Fin 8
  | int => 0
  | string => 3
  | array => 4
  | map => 5

/-- The lowest `k` bytes of `n`, most significant first. -/
def bigEndian : Nat → Nat → Bytes
  | 0, _ => []
  | k + 1, n => bigEndian k (n / 256) ++ [UInt8.ofNat n]

/-- The number stands in the head itself if it is below 24, else in 1, 2, 4 or 8 bytes after it. -/
def head (tag : Fin 8) (n : Nat) : Bytes :=
  let first (k : Nat) : UInt8 := UInt8.ofNat (tag * 32 + k)
  if n < 24 then [first n]
  else if n < 0x100 then first 24 :: bigEndian 1 n
  else if n < 0x10000 then first 25 :: bigEndian 2 n
  else if n < 0x100000000 then first 26 :: bigEndian 4 n
  else first 27 :: bigEndian 8 n

/-- The calls that add an item, or its head, to bytes. -/
structure Encoder where
  map : Bytes → Nat → Bytes
  array : Bytes → Nat → Bytes
  key : Bytes → Bytes → Bytes
  keyValue : Bytes → Bytes → Bytes → Bytes
  text : Bytes → Bytes → Bytes

def Encoder.instr (e : Encoder) (locate : Locator) (b : Bytes) (x : Instr) : Bytes :=
  let b := e.map b 2
  let b := e.keyValue b "op" x.op.mnemonic
  let b := e.key b "args"
  let b := e.array b x.args.length
  x.args.foldl (fun b a => e.text b (Operand.placeText locate a)) b

def string (tag : Fin 8) (s : Bytes) : Bytes := head tag s.length ++ s

def encoder : Encoder where
  map b n := b ++ head Kind.map.tag n
  array b n := b ++ head Kind.array.tag n
  key b k := b ++ string Kind.string.tag k
  keyValue b k v := b ++ string Kind.string.tag k ++ string Kind.string.tag v
  text b s := b ++ string Kind.string.tag s

def instr (locate : Locator) (x : Instr) : Bytes := encoder.instr locate [] x

def nothing : UInt8 := 0xf6
def openArray : UInt8 := 0x9f
def stop : UInt8 := 0xff

def bitmap (s : Bitmap) : Bytes :=
  if s.words.isEmpty then [nothing]
  else openArray :: s.toList.flatMap (head Kind.int.tag ·) ++ [stop]

@[simp] theorem length_bigEndian (k n : Nat) : (bigEndian k n).length = k := by
  induction k generalizing n with
  | zero => rfl
  | succ k ih => simp [bigEndian, ih]

end Wire

end ThreeAddress
