import ThreeAddress.Program

/-!
# Steps that simplify code

A step gives new code and says whether it did anything. What it says is not a comparison of old and
new code: something may have been done and lead to the same code again.

* Jumps: a branch that lands on another jump or label goes where that leads, and a jump to the next
  instruction is dropped. Code after a jump or a return is dropped up to the next label.
* Registers: temporaries are numbered anew in the order of their first appearance. Results that are
  only moved on go straight to where they are moved, and definitions that nobody reads are dropped;
  the two steps are repeated until neither applies, which ends because each of them makes the code
  shorter.
* Tests: a comparison with zero, or a negation, is folded into the branch right after it; the
  comparison itself is kept if its result is used elsewhere. A branch on a moved value tests the
  source of the move.
-/

namespace ThreeAddress
set_option autoImplicit false

structure Simplified where
  code : Code
  changed : Bool
deriving DecidableEq

namespace Simplified

/-- Code from which something was taken away, or nothing. -/
def ofShorter (before after : Code) : Simplified := ⟨after, after.length ≠ before.length⟩

theorem length_ofShorter {before after : Code} (h : after.length ≤ before.length) :
    (ofShorter before after).code.length + (ofShorter before after).changed.toNat ≤
      before.length := by
  by_cases heq : after.length = before.length
  · have hc : (ofShorter before after).changed = false := decide_eq_false (fun hne => hne heq)
    rw [hc]
    exact h
  · have hc : (ofShorter before after).changed = true := decide_eq_true heq
    rw [hc]
    exact Nat.lt_of_le_of_ne h heq

end Simplified

namespace Code

def dropNops (code : Code) : Simplified := .ofShorter code (code.filter (·.op ≠ .nop))

end Code

namespace Positions

def without (table : Positions) (l : Label) : Positions := table.filter (·.1 ≠ l)

theorem length_without_lt {table : Positions} {l : Label} {p : Nat}
    (h : table.lookup l = some p) : (table.without l).length < table.length := by
  obtain ⟨before, after, rfl, _⟩ := List.lookup_eq_some_iff.mp h
  exact List.length_filter_lt_length_iff_exists.mpr ⟨(l, p), by simp, by simp⟩

end Positions

namespace Code

/-- Where control goes from a label at place `p` if nothing but a jump or a label stands after
it. -/
def onward? (code : Code) (p : Nat) : Option Label :=
  match code[p + 1]? with
  | some x => if x.op = .br ∨ x.op = .label then x.target? else none
  | none => none

/-- Follows jumps and labels from `here`, having come from `start`. Labels that were passed are in
`seen` and no more in the table; a label that is met again means a cycle, which leads back to
`start`. -/
def follow (code : Code) (start : Label) (table : Positions) (seen : Bitmap) (here : Label) :
    Except Fault Label :=
  match _h : table.lookup here with
  | none => return here
  | some p =>
    match code.onward? p with
    | none => return here
    | some next => do
      let (isNew, seen) ← seen.insertNew next.handle
      if isNew then code.follow start (table.without here) seen next
      else return start
termination_by table.length
decreasing_by exact Positions.length_without_lt ‹_›

/-- Where a branch to `l` ends up. -/
def landing (code : Code) (table : Positions) (l : Label) : Except Fault Label := do
  code.follow l table (← (Bitmap.ofCapacity table.length).insert l.handle) l

/-- The rest of the code from instruction `i` on. A branch without a label counts as one to label
0. -/
def threadJumpsFrom (code : Code) (table : Positions) (i : Nat) :
    Code → ExceptT Error (Except Fault) Simplified
  | [] => return ⟨[], false⟩
  | x :: rest =>
    if x.op.isBranch then
      let l := x.target?.getD ⟨0⟩
      match table.lookup l with
      | none => throw ((Error.of .unresolvedLabel).within (.instrTarget i l))
      | some p => do
        if x.op = .br ∧ p = i + 1 then
          let r ← threadJumpsFrom code table (i + 1) rest
          return ⟨r.code, true⟩
        else
          let final ← code.landing table l
          if final = l then
            let r ← threadJumpsFrom code table (i + 1) rest
            return ⟨x :: r.code, r.changed⟩
          else
            let x ← x.setPlace 0 (some (.label final))
            let r ← threadJumpsFrom code table (i + 1) rest
            return ⟨x :: r.code, true⟩
    else do
      let r ← threadJumpsFrom code table (i + 1) rest
      return ⟨x :: r.code, r.changed⟩

/-- Shortens branches. Every branch has to go to a label of the code. -/
def threadJumps (code : Code) : ExceptT Error (Except Fault) Simplified := do
  let table ← code.positions
  code.threadJumpsFrom table 0 code

/-- The rest of the code, where `dead` says that control does not come from the instruction
before. -/
def reachableFrom (dead : Bool) : Code → Code
  | [] => []
  | x :: rest =>
    if dead && x.op ≠ .label then reachableFrom true rest
    else x :: reachableFrom x.op.isTerminator rest

/-- Drops what stands between a jump or return and the next label. -/
def pruneUnreachable (code : Code) : Simplified := .ofShorter code (code.reachableFrom false)

end Code

/-- The numbers given to temporaries so far, by their indices, and whether any is not its index. -/
structure Numbering where
  given : List (Int × Nat)
  changed : Bool
deriving DecidableEq

namespace Numbering

/-- The number of the temporary with index `i`, which gets the next one if it is new. -/
def number (n : Numbering) (i : Int) : Nat × List (Int × Nat) :=
  match n.given.lookup i with
  | some k => (k, n.given)
  | none => (n.given.length, n.given ++ [(i, n.given.length)])

def operand (n : Numbering) : Option Operand → Option Operand × Numbering
  | some (.reg r) =>
    if r.temp then
      let (k, given) := n.number r.index
      if (k : Int) = r.index then (some (.reg r), ⟨given, n.changed⟩)
      else (some (.reg { r with index := k }), ⟨given, true⟩)
    else (some (.reg r), n)
  | a => (a, n)

def operands (n : Numbering) : List (Option Operand) → List (Option Operand) × Numbering
  | [] => ([], n)
  | a :: rest =>
    let (a, n) := n.operand a
    let (rest, n) := n.operands rest
    (a :: rest, n)

def code (n : Numbering) : Code → Code × Numbering
  | [] => ([], n)
  | x :: rest =>
    let (args, n) := n.operands x.args
    let (rest, n) := n.code rest
    ({ x with args } :: rest, n)

end Numbering

namespace Instr

/-- The result of `x` is only moved on by `next`. -/
def isMovedOnBy (uses : RegKey → Nat) (x next : Instr) : Except Fault Bool :=
  match x.dst? with
  | some r =>
    if next.op = .mov then do
      let source ← next.place 1
      return Operand.sameReg source (some (.reg r)) && uses r.key == 2
    else return false
  | none => return false

/-- A result that nobody reads. Calls are made for their effects. -/
def isUnread (uses : RegKey → Nat) (x : Instr) : Bool :=
  match x.dst? with
  | some r => x.op ≠ .call && uses r.key < 2
  | none => false

end Instr

namespace Code

/-- Numbers the temporaries from 0 on, in one scan from left to right. -/
def renumberTemps (code : Code) : Simplified :=
  let (code, n) := Numbering.code ⟨[], false⟩ code
  ⟨code, n.changed⟩

def forwardResultsWith (uses : RegKey → Nat) : Code → Except Fault Simplified
  | x :: next :: rest => do
    if ← x.isMovedOnBy uses next then
      let x ← x.setPlace 0 (← next.place 0)
      let r ← forwardResultsWith uses rest
      return ⟨x :: r.code, true⟩
    else
      let r ← forwardResultsWith uses (next :: rest)
      return ⟨x :: r.code, r.changed⟩
  | [x] => return ⟨[x], false⟩
  | [] => return ⟨[], false⟩

/-- Turns `op r, …; mov z, r` into `op z, …` where `r` occurs nowhere else, from left to right. -/
def forwardResults (code : Code) : Except Fault Simplified :=
  let keys := code.regKeys
  forwardResultsWith (fun k => keys.count k) code

def dropUnread (code : Code) : Simplified :=
  let keys := code.regKeys
  .ofShorter code (code.filter fun x => !x.isUnread fun k => keys.count k)

theorem forwardResults_eq (code : Code) :
    code.forwardResults = forwardResultsWith code.occurrences code := rfl

theorem dropUnread_eq (code : Code) :
    code.dropUnread = .ofShorter code (code.filter fun x => !x.isUnread code.occurrences) := rfl

theorem length_forwardResultsWith {uses : RegKey → Nat} {code : Code} {r : Simplified}
    (h : forwardResultsWith uses code = .ok r) :
    r.code.length + r.changed.toNat ≤ code.length := by
  fun_induction forwardResultsWith uses code generalizing r with
  | case1 x next rest ihMerged ihNext =>
    obtain ⟨movedOn, _, h⟩ := Fault.bind_eq_ok_iff.mp h
    cases movedOn with
    | true =>
      obtain ⟨place, _, h⟩ := Fault.bind_eq_ok_iff.mp h
      obtain ⟨y, _, h⟩ := Fault.bind_eq_ok_iff.mp h
      obtain ⟨tail, htail, h⟩ := Fault.bind_eq_ok_iff.mp h
      cases h
      have := ihMerged htail
      simp only [List.length_cons, Bool.toNat_true]
      omega
    | false =>
      obtain ⟨tail, htail, h⟩ := Fault.bind_eq_ok_iff.mp h
      cases h
      have := ihNext htail
      simp only [List.length_cons] at this ⊢
      omega
  | case2 x => cases h; simp
  | case3 => cases h; simp

theorem length_dropUnread (code : Code) :
    code.dropUnread.code.length + code.dropUnread.changed.toNat ≤ code.length :=
  Simplified.length_ofShorter (List.length_filter_le _ _)

/-- Repeats both steps until neither applies. -/
def settle (code : Code) : Except Fault Simplified :=
  match _h : code.forwardResults with
  | .error f => .error f
  | .ok forwarded =>
    let kept := forwarded.code.dropUnread
    if forwarded.changed || kept.changed then do
      let r ← settle kept.code
      return ⟨r.code, true⟩
    else return ⟨kept.code, false⟩
termination_by code.length
decreasing_by
  have hf := length_forwardResultsWith ‹code.forwardResults = .ok forwarded›
  have hk := length_dropUnread forwarded.code
  rcases Bool.or_eq_true_iff.mp ‹(forwarded.changed || kept.changed) = true› with hc | hc
  · rw [hc, Bool.toNat_true] at hf
    omega
  · rw [hc, Bool.toNat_true] at hk
    omega

end Code

/-- The branch on `a` that does what branching on `op t, a` does, where the compared number is
zero. -/
def Opcode.folded? : Opcode → Opcode → Option Opcode
  | .bin .eq, .brz => some .bnz
  | .bin .eq, .bnz => some .brz
  | .bin .neq, .brz => some .brz
  | .bin .neq, .bnz => some .bnz
  | .un .not, .brz => some .bnz
  | .un .not, .bnz => some .brz
  | _, _ => none

/-- The branch that stands for a pair of instructions, and whether the first of them stays. -/
structure Fold where
  branch : Instr
  keep : Bool
deriving DecidableEq

namespace Instr

/-- Folds `x` into the branch `next` on its result; `uses` counts register occurrences. -/
def foldInto (uses : RegKey → Nat) (x next : Instr) : Except Fault (Option Fold) :=
  match Opcode.folded? x.op next.op, x.dst?, next.cond? with
  | some op, some d, some c =>
    if Operand.sameReg (some (.reg d)) c then
      match x.op with
      | .bin _ => do
        let compared ← x.place 2
        if Operand.isZero compared then
          return some ⟨⟨op, [← next.place 0, ← x.place 1]⟩, 3 ≤ uses d.key⟩
        else return none
      | _ => do
        return some ⟨⟨op, [← next.place 0, ← x.place 1]⟩, false⟩
    else return none
  | _, _, _ => return none

/-- The branch `next` on the result of the move `x`, made to test the source of the move. A register
moved to itself gives no step. -/
def testSource (x next : Instr) : Except Fault (Option Instr) :=
  if x.op = .mov ∧ next.op = .brz then do
    let tested := next.cond?.join
    let target ← x.place 0
    if Operand.sameReg target tested then
      let source ← x.place 1
      if Operand.sameReg source tested then return none
      else return some (← next.setPlace 1 source)
    else return none
  else return none

end Instr

namespace Code

def foldTestsWith (uses : RegKey → Nat) : Code → Except Fault Simplified
  | x :: next :: rest => do
    match ← x.foldInto uses next with
    | some f =>
      let r ← foldTestsWith uses rest
      return ⟨(if f.keep then [x, f.branch] else [f.branch]) ++ r.code, true⟩
    | none =>
      let r ← foldTestsWith uses (next :: rest)
      return ⟨x :: r.code, r.changed⟩
  | [x] => return ⟨[x], false⟩
  | [] => return ⟨[], false⟩

def foldTests (code : Code) : Except Fault Simplified :=
  let keys := code.regKeys
  foldTestsWith (fun k => keys.count k) code

def testSourcesAfter (before : Instr) : Code → Except Fault Simplified
  | [] => return ⟨[before], false⟩
  | next :: rest => do
    match ← before.testSource next with
    | some next =>
      let r ← testSourcesAfter next rest
      return ⟨before :: r.code, true⟩
    | none =>
      let r ← testSourcesAfter next rest
      return ⟨before :: r.code, r.changed⟩

/-- Makes branches after a move test its source. The move stays. -/
def testSources : Code → Except Fault Simplified
  | [] => return ⟨[], false⟩
  | x :: rest => testSourcesAfter x rest

end Code

end ThreeAddress
