import Mathlib.Algebra.Ring.Nat
import ThreeAddress.Wire

/-!
# Reading the wire form back

A reader takes an item off the front of some bytes. `Recovers read b a` says that it finds `a`
wherever `b` stands, whatever comes after it, and takes off no more than `b`. Readers are put
together as the wire form is, so that this goes from numbers to heads, from heads to strings, and
from strings to instructions. What is written for an instruction can be read back, therefore no two
readings share their bytes and none starts another (`instr_recovered`). All this holds of every
encoder that writes heads and strings as `Encoder.Writes` says, the one of this library among them.
-/

namespace ThreeAddress
set_option autoImplicit false

namespace Wire

/-- Takes an item off the front of some bytes. -/
abbrev Reader := StateT Bytes Option

section
variable {α β : Type}

/-- The reader finds `a` in the bytes `b`, and leaves what comes after them. -/
def Recovers (read : Reader α) (b : Bytes) (a : α) : Prop :=
  ∀ rest, read.run (b ++ rest) = some (a, rest)

theorem recovers_pure (a : α) : Recovers (pure a) [] a := fun _ => rfl

theorem Recovers.bind {read : Reader α} {next : α → Reader β} {b c : Bytes} {a : α} {d : β}
    (h : Recovers read b a) (h' : Recovers (next a) c d) : Recovers (read >>= next) (b ++ c) d := by
  intro rest
  rw [StateT.run_bind, List.append_assoc, h]
  exact h' rest

theorem Recovers.map {read : Reader α} {b : Bytes} {a : α} (h : Recovers read b a) (f : α → β) :
    Recovers (f <$> read) b (f a) := by
  intro rest
  rw [StateT.run_map, h]
  rfl

theorem Recovers.unique {read : Reader α} {b c : Bytes} {a d : α} (h : Recovers read b a)
    (h' : Recovers read c d) (hstarts : b <+: c) : a = d ∧ b = c := by
  obtain ⟨rest, rfl⟩ := hstarts
  have hread := h rest
  have hread' := h' []
  rw [List.append_nil, hread] at hread'
  obtain ⟨rfl, rfl⟩ := Prod.mk.inj (Option.some.inj hread')
  exact ⟨rfl, (List.append_nil b).symm⟩

end

def readByte : Reader UInt8 := fun
  | [] => none
  | b :: rest => some (b, rest)

def readBytes (n : Nat) : Reader Bytes :=
  fun b => if n ≤ b.length then some (b.take n, b.drop n) else none

/-- The number whose bytes these are, most significant first. -/
def ofBigEndian (b : Bytes) : Nat := b.foldl (fun n byte => n * 256 + byte.toNat) 0

/-- The number of a head whose first byte has `m` in its lower five bits. -/
def readNumber (m : Nat) : Reader Nat :=
  if m < 24 then return m
  else if m = 24 then ofBigEndian <$> readBytes 1
  else if m = 25 then ofBigEndian <$> readBytes 2
  else if m = 26 then ofBigEndian <$> readBytes 4
  else if m = 27 then ofBigEndian <$> readBytes 8
  else failure

def readHead (tag : Fin 8) : Reader Nat := do
  let b ← readByte
  if b.toNat / 32 = tag then readNumber (b.toNat % 32) else failure

def readString (tag : Fin 8) : Reader Bytes := do readBytes (← readHead tag)

def readStrings (tag : Fin 8) : Nat → Reader (List Bytes)
  | 0 => return []
  | n + 1 => do
    let s ← readString tag
    return s :: (← readStrings tag n)

def readKey (tag : Fin 8) (key : Bytes) : Reader Unit := do
  if (← readString tag) = key then return () else failure

/-- The mnemonic of an instruction and the texts of its operands. -/
def readInstr (tag : Kind → Fin 8) : Reader (Bytes × List Bytes) := do
  if (← readHead (tag .map)) = 2 then
    readKey (tag .string) "op"
    let op ← readString (tag .string)
    readKey (tag .string) "args"
    let operands ← readStrings (tag .string) (← readHead (tag .array))
    return (op, operands)
  else failure

theorem recovers_readBytes (b : Bytes) : Recovers (readBytes b.length) b b := by
  intro rest
  have hle : b.length ≤ (b ++ rest).length := by simp
  change (if b.length ≤ (b ++ rest).length then
    some ((b ++ rest).take b.length, (b ++ rest).drop b.length) else none) = _
  rw [if_pos hle, List.take_left, List.drop_left]

theorem ofBigEndian_bigEndian {k n : Nat} (h : n < 256 ^ k) : ofBigEndian (bigEndian k n) = n := by
  induction k generalizing n with
  | zero =>
    have hn : n = 0 := by omega
    rw [hn]
    rfl
  | succ k ih =>
    have hdiv : n / 256 < 256 ^ k := by
      rw [Nat.pow_succ] at h
      omega
    have hhead : ofBigEndian (bigEndian (k + 1) n) =
        ofBigEndian (bigEndian k (n / 256)) * 256 + (UInt8.ofNat n).toNat := by
      rw [bigEndian, ofBigEndian, List.foldl_append]
      rfl
    rw [hhead, ih hdiv, UInt8.toNat_ofNat']
    omega

theorem recovers_bigEndian {k n : Nat} (h : n < 256 ^ k) :
    Recovers (ofBigEndian <$> readBytes k) (bigEndian k n) n := by
  have hread := recovers_readBytes (bigEndian k n)
  rw [length_bigEndian] at hread
  have hmap := hread.map ofBigEndian
  rwa [ofBigEndian_bigEndian h] at hmap

/-- A head is a byte for its tag and the form of its number, and what is left of the number. -/
theorem exists_head (tag : Fin 8) {n : Nat} (h : n < 2 ^ 64) :
    ∃ m b, m < 32 ∧ head tag n = UInt8.ofNat (tag * 32 + m) :: b ∧ Recovers (readNumber m) b n := by
  unfold head
  split
  · rename_i hn
    refine ⟨n, [], by omega, rfl, ?_⟩
    rw [readNumber, if_pos hn]
    exact recovers_pure n
  split
  · exact ⟨24, _, by omega, rfl, recovers_bigEndian (k := 1) (by omega)⟩
  split
  · exact ⟨25, _, by omega, rfl, recovers_bigEndian (k := 2) (by omega)⟩
  split
  · exact ⟨26, _, by omega, rfl, recovers_bigEndian (k := 4) (by omega)⟩
  · exact ⟨27, _, by omega, rfl, recovers_bigEndian (k := 8) (by omega)⟩

section
variable (tag : Fin 8)

theorem recovers_head {n : Nat} (h : n < 2 ^ 64) : Recovers (readHead tag) (head tag n) n := by
  obtain ⟨m, b, hm, hhead, hread⟩ := exists_head tag h
  have htag := tag.isLt
  have hbyte : (UInt8.ofNat (tag * 32 + m)).toNat = tag * 32 + m := by
    rw [UInt8.toNat_ofNat']
    omega
  have hkind : (UInt8.ofNat (tag * 32 + m)).toNat / 32 = tag := by omega
  have hform : (UInt8.ofNat (tag * 32 + m)).toNat % 32 = m := by omega
  intro rest
  rw [hhead, readHead, StateT.run_bind]
  change StateT.run (if (UInt8.ofNat (tag * 32 + m)).toNat / 32 = tag then _ else _) (b ++ rest) = _
  rw [if_pos hkind, hform]
  exact hread rest

theorem recovers_string {s : Bytes} (h : s.length < 2 ^ 64) :
    Recovers (readString tag) (string tag s) s :=
  (recovers_head tag h).bind (recovers_readBytes s)

theorem recovers_key {key : Bytes} (h : key.length < 2 ^ 64) :
    Recovers (readKey tag key) (string tag key) () := by
  rw [readKey, ← List.append_nil (string tag key)]
  refine (recovers_string tag h).bind ?_
  rw [if_pos rfl]
  exact recovers_pure ()

theorem recovers_strings {list : List Bytes} (h : ∀ s ∈ list, s.length < 2 ^ 64) :
    Recovers (readStrings tag list.length) (list.flatMap (string tag)) list := by
  induction list with
  | nil => exact recovers_pure []
  | cons s list ih =>
    obtain ⟨hs, hlist⟩ := List.forall_mem_cons.mp h
    rw [List.length_cons, readStrings, List.flatMap_cons,
      ← List.append_nil (list.flatMap (string tag))]
    exact (recovers_string tag hs).bind ((ih hlist).bind (recovers_pure (s :: list)))

end

theorem length_mnemonic (op : Opcode) : (Bytes.ofString op.mnemonic).length < 2 ^ 64 := by
  cases op with
  | bin op => cases op <;> decide
  | un op => cases op <;> decide
  | other k => revert k; decide +kernel
  | _ => decide

/-- The texts of the operands of an instruction, in their order. -/
def operandTexts (locate : Locator) (x : Instr) : List Bytes :=
  x.args.map (Operand.placeText locate)

/-- All lengths have room in a head: those of the operand texts, and the number of the operands. -/
def Sized (locate : Locator) (x : Instr) : Prop :=
  x.args.length < 2 ^ 64 ∧ ∀ s ∈ operandTexts locate x, s.length < 2 ^ 64

instance (locate : Locator) (x : Instr) : Decidable (Sized locate x) :=
  inferInstanceAs (Decidable (_ ∧ _))

/-- The encoder writes heads with the tags `tag`, and strings as a head and their bytes. Of numbers
from `2 ^ 64` on nothing is said, since they have no head. -/
structure Encoder.Writes (e : Encoder) (tag : Kind → Fin 8) : Prop where
  map : ∀ b, ∀ n < 2 ^ 64, e.map b n = b ++ head (tag .map) n
  array : ∀ b, ∀ n < 2 ^ 64, e.array b n = b ++ head (tag .array) n
  key : ∀ b (k : Bytes), k.length < 2 ^ 64 → e.key b k = b ++ string (tag .string) k
  keyValue : ∀ b (k v : Bytes), k.length < 2 ^ 64 → v.length < 2 ^ 64 →
    e.keyValue b k v = b ++ string (tag .string) k ++ string (tag .string) v
  text : ∀ b (s : Bytes), s.length < 2 ^ 64 → e.text b s = b ++ string (tag .string) s

theorem encoder_writes : encoder.Writes Kind.tag where
  map _ _ _ := rfl
  array _ _ _ := rfl
  key _ _ _ := rfl
  keyValue _ _ _ _ _ := rfl
  text _ _ _ := rfl

section
variable {e : Encoder} {tag : Kind → Fin 8} {locate : Locator} {x : Instr}

theorem Encoder.Writes.foldl_text (he : e.Writes tag) {args : List (Option Operand)} (b : Bytes)
    (h : ∀ s ∈ args.map (Operand.placeText locate), s.length < 2 ^ 64) :
    args.foldl (fun b a => e.text b (Operand.placeText locate a)) b =
      b ++ (args.map (Operand.placeText locate)).flatMap (string (tag .string)) := by
  induction args generalizing b with
  | nil => exact (List.append_nil b).symm
  | cons a args ih =>
    rw [List.map_cons] at h
    obtain ⟨ha, hargs⟩ := List.forall_mem_cons.mp h
    rw [List.foldl_cons, he.text b _ ha, ih _ hargs, List.map_cons, List.flatMap_cons,
      List.append_assoc]

theorem Encoder.Writes.instr_eq (he : e.Writes tag) (hx : Sized locate x) (b : Bytes) :
    e.instr locate b x = b ++ (head (tag .map) 2 ++
      (string (tag .string) "op" ++ (string (tag .string) x.op.mnemonic ++
        (string (tag .string) "args" ++ (head (tag .array) x.args.length ++
          (operandTexts locate x).flatMap (string (tag .string))))))) := by
  obtain ⟨hcount, htexts⟩ := hx
  have hop : (Bytes.ofString "op").length < 2 ^ 64 := by decide
  have hargs : (Bytes.ofString "args").length < 2 ^ 64 := by decide
  unfold Encoder.instr
  dsimp only
  rw [he.foldl_text _ htexts, he.array _ _ hcount, he.key _ _ hargs,
    he.keyValue _ _ _ hop (length_mnemonic x.op), he.map _ _ (by decide)]
  simp only [List.append_assoc]
  rfl

theorem Encoder.Writes.recovers_instr (he : e.Writes tag) (hx : Sized locate x) :
    Recovers (readInstr tag) (e.instr locate [] x) (x.op.mnemonic, operandTexts locate x) := by
  have hinstr := he.instr_eq hx []
  obtain ⟨hcount, htexts⟩ := hx
  have hoperands := recovers_strings (tag .string) htexts
  rw [operandTexts, List.length_map, ← operandTexts] at hoperands
  rw [readInstr, hinstr, List.nil_append]
  refine (recovers_head (tag .map) (by decide)).bind ?_
  rw [if_pos rfl]
  refine (recovers_key (tag .string) (by decide)).bind ?_
  refine (recovers_string (tag .string) (length_mnemonic x.op)).bind ?_
  refine (recovers_key (tag .string) (by decide)).bind ((recovers_head (tag .array) hcount).bind ?_)
  rw [← List.append_nil ((operandTexts locate x).flatMap _)]
  exact hoperands.bind (recovers_pure (Bytes.ofString x.op.mnemonic, operandTexts locate x))

end

/-- Whatever encoder writes heads and strings in this form, and whatever the tags are, an
instruction is read back from its bytes and whatever follows them: its mnemonic, the texts of its
operands, and the bytes that follow. The bytes of two instructions are therefore different if their
mnemonics or operand texts are, and do not start each other. -/
theorem instr_recovered {e : Encoder} {tag : Kind → Fin 8} (he : e.Writes tag) (locate : Locator)
    {x : Instr} (hx : Sized locate x) :
    (∀ rest, (readInstr tag).run (e.instr locate [] x ++ rest) =
      some ((Bytes.ofString x.op.mnemonic, operandTexts locate x), rest)) ∧
    ∀ y, Sized locate y →
      (x.op.mnemonic ≠ y.op.mnemonic ∨ operandTexts locate x ≠ operandTexts locate y →
        e.instr locate [] x ≠ e.instr locate [] y) ∧
      (e.instr locate [] x <+: e.instr locate [] y →
        e.instr locate [] x = e.instr locate [] y) := by
  have hread := he.recovers_instr hx
  refine ⟨hread, fun y hy => ⟨fun hne heq => ?_, fun hstarts => ?_⟩⟩
  · obtain ⟨hsame, -⟩ := hread.unique (he.recovers_instr hy) (heq ▸ List.prefix_rfl)
    obtain ⟨hop, htexts⟩ := Prod.mk.inj hsame
    exact hne.elim (fun h => h (Bytes.ofString_injective hop)) (fun h => h htexts)
  · exact (hread.unique (he.recovers_instr hy) hstarts).2

/-- A call with `n` arguments after an empty place, each named by `k` bytes that are no text, and a
mark made at a known point. -/
def wideCall (n k : Nat) : Instr :=
  ⟨.call, none :: some (.origin ⟨.node .call, 1⟩) ::
    List.replicate n (some (.reg ⟨0, .i32, false, List.replicate k 0xff⟩))⟩

def oneLine : Locator := fun _ => ⟨"lower", 7⟩

theorem instr_recovered_wideCall :
    encoder.Writes Kind.tag ∧ Sized oneLine (wideCall 22 300) ∧ Sized oneLine (wideCall 23 300) ∧
      (wideCall 22 300).args.length = 24 ∧
      (∀ rest, (readInstr Kind.tag).run (instr oneLine (wideCall 22 300) ++ rest) =
        some ((Bytes.ofString "call", operandTexts oneLine (wideCall 22 300)), rest)) ∧
      instr oneLine (wideCall 22 300) ≠ instr oneLine (wideCall 23 300) ∧
      ¬ instr oneLine (wideCall 22 300) <+: instr oneLine (wideCall 23 300) := by
  have hx : Sized oneLine (wideCall 22 300) := by decide +kernel
  have hy : Sized oneLine (wideCall 23 300) := by decide +kernel
  obtain ⟨hread, hother⟩ := instr_recovered encoder_writes oneLine hx
  obtain ⟨hne, hstarts⟩ := hother _ hy
  have hdiff : instr oneLine (wideCall 22 300) ≠ instr oneLine (wideCall 23 300) :=
    hne (.inr fun h => absurd (congrArg List.length h) (by decide))
  exact ⟨encoder_writes, hx, hy, rfl, hread, hdiff, fun h => hdiff (hstarts h)⟩

end Wire

end ThreeAddress
