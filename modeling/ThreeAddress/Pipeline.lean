import ThreeAddress.Lowering.Program
import ThreeAddress.Simplify

/-!
# Passes, pipelines and compilation

A pass works on one function and says whether it changed it, or why it could not; either way it
hands the function on. A pipeline runs its setup passes once and its other passes round after round,
until a round changes nothing or the rounds are used up. A pass that fails stops the work on its
function and on no other.

Passes run in a monad of their own choice, so that they may count or record as they go. Those of
this library need nothing but faults.

Compilation is lowering and then optimising. Functions that fail at either stage are left out of the
program; the report lists those that failed at the first stage first.
-/

namespace ThreeAddress
set_option autoImplicit false

/-- The function that passes leave, and how they ended. -/
abbrev Ran (α : Type) := Func × Except Error α

structure Pass (m : Type → Type) where
  name : Bytes
  run : Func → m (Ran Bool)

namespace Pass

/-- A pass that takes a step on the code. If the step fails, the code stays. -/
def ofStep (name : Bytes) (step : Code → ExceptT Error (Except Fault) Simplified) :
    Pass (Except Fault) where
  name := name
  run f := do
    match ← (step f.code).run with
    | .ok r => return ({ f with code := r.code }, .ok r.changed)
    | .error e => return (f, .error e)

def nops : Pass (Except Fault) := ofStep "nops" fun c => return c.dropNops

def foldTests : Pass (Except Fault) := ofStep "fuse_compare" fun c => c.foldTests

def testSources : Pass (Except Fault) := ofStep "forward_mov_test" fun c => c.testSources

def renumberTemps : Pass (Except Fault) := ofStep "renumber" fun c => return c.renumberTemps

def settle : Pass (Except Fault) := ofStep "flow" fun c => c.settle

def threadJumps : Pass (Except Fault) := ofStep "pass_through" Code.threadJumps

def pruneUnreachable : Pass (Except Fault) :=
  ofStep "unreachable" fun c => return c.pruneUnreachable

def all : List (Pass (Except Fault)) :=
  [nops, foldTests, testSources, renumberTemps, settle, threadJumps, pruneUnreachable]

/-- The pass in a monad that faults and may do more. -/
def lift {m : Type → Type} [MonadLiftT (Except Fault) m] (p : Pass (Except Fault)) : Pass m :=
  ⟨p.name, fun f => liftM (p.run f)⟩

variable {m : Type → Type} [Monad m]

def runNamed (p : Pass m) (f : Func) : m (Ran Bool) := do
  let (f, r) ← p.run f
  return (f, r.mapError (·.within (.pass p.name)))

/-- Runs passes in order and says whether any of them changed the function. -/
def runAll : List (Pass m) → Func → m (Ran Bool)
  | [], f => return (f, .ok false)
  | p :: rest, f => do
    match ← p.runNamed f with
    | (f, .error e) => return (f, .error e)
    | (f, .ok changed) =>
      let (f, r) ← runAll rest f
      return (f, r.map (changed || ·))

end Pass

structure Pipeline (m : Type → Type) where
  setup : List (Pass m)
  iter : List (Pass m)
  /-- Nothing above zero means the usual number. -/
  maxRounds : Int

namespace Pipeline

def usualRounds : Nat := 100

def standard : Pipeline (Except Fault) where
  setup := [.nops, .foldTests, .testSources]
  iter := [.renumberTemps, .settle, .threadJumps, .pruneUnreachable]
  maxRounds := usualRounds

variable {m : Type → Type} [Monad m]

def lift [MonadLiftT (Except Fault) m] (pl : Pipeline (Except Fault)) : Pipeline m :=
  ⟨pl.setup.map Pass.lift, pl.iter.map Pass.lift, pl.maxRounds⟩

def roundLimit (pl : Pipeline m) : Nat :=
  if pl.maxRounds ≤ 0 then usualRounds else pl.maxRounds.toNat

def round (pl : Pipeline m) (f : Func) : m (Ran Bool) := Pass.runAll pl.iter f

/-- At most `n` rounds. -/
def rounds (pl : Pipeline m) : Nat → Func → m (Ran Unit)
  | 0, f => return (f, .ok ())
  | n + 1, f => do
    match ← pl.round f with
    | (f, .error e) => return (f, .error e)
    | (f, .ok true) => pl.rounds n f
    | (f, .ok false) => return (f, .ok ())

def runFunc (pl : Pipeline m) (f : Func) : m (Ran Unit) := do
  match ← Pass.runAll pl.setup f with
  | (f, .error e) => return (f, .error e)
  | (f, .ok _) => pl.rounds pl.roundLimit f

/-- The functions of a program while they are filtered in place: those that are kept stand at the
front of the list. -/
structure Filtering where
  slots : List Func
  kept : Nat
  errs : Report

/-- Works on the function in slot `i`, which goes behind those that are kept unless it fails. -/
def runSlot (pl : Pipeline m) (w : Filtering) (i : Nat) : m Filtering :=
  match w.slots[i]? with
  | none => return w
  | some f => do
    match ← pl.runFunc f with
    | (f, .error e) => return { w with slots := w.slots.set i f, errs := w.errs ++ [⟨f.name, e⟩] }
    | (f, .ok ()) => return { w with slots := (w.slots.set i f).set w.kept f, kept := w.kept + 1 }

/-- Works on all functions. Those that fail are left out and reported. -/
def runProgram (pl : Pipeline m) (p : Program) : m (Program × Option Failure) := do
  let w ← (List.range p.funcs.length).foldlM pl.runSlot ⟨p.funcs, 0, []⟩
  return ({ p with funcs := w.slots.take w.kept }, w.errs.err)

end Pipeline

/-- Adds the functions that a stage reports to `errs`. Any other error is handed on. -/
def collect (errs : Report) : Option Failure → Report × Option Error
  | none => (errs, none)
  | some (.funcs r) => (errs ++ r, none)
  | some (.other e) => (errs, some e)

section
variable {m : Type → Type} [Monad m] [MonadLiftT (Except Fault) m]

def compileWith (pl : Pipeline m) (file : File) : m (Option Program × Option Failure) := do
  let (p, err) ← liftM (Program.lower file)
  match collect [] err with
  | (_, some e) => return (none, some (.other (e.within (.note "lower"))))
  | (errs, none) =>
    let (p, err) ← pl.runProgram p
    match collect errs err with
    | (_, some e) => return (none, some (.other (e.within (.note "optimize"))))
    | (errs, none) => return (some p, errs.err)

end

def compile (file : File) : Except Fault (Option Program × Option Failure) :=
  compileWith .standard file

end ThreeAddress
