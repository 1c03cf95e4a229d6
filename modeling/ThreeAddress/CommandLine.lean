import ThreeAddress.Listing
import ThreeAddress.Pipeline
import ThreeAddress.Sample

/-!
# The command line

Three commands: `list` shows the samples, `lower` and `compile` print programs made of those that
are named. Flags may stand anywhere after the command, up to an argument of two dashes. Arguments
are read from left to right before anything is done. Names are worked on one after the other, so
that what was printed before an unknown name stays.
-/

namespace ThreeAddress
set_option autoImplicit false

namespace CommandLine

inductive Command where
  | help
  | list
  | lower (names : List String)
  | compile (rounds : Int) (setupOnly : Bool) (names : List String)
deriving DecidableEq

/-- What the arguments of a command ask for. -/
structure Options where
  rounds : Int
  setupOnly : Bool
  names : List String
deriving DecidableEq

def Options.usual : Options := ⟨Pipeline.usualRounds, false, []⟩

/-- What was printed, and the text of the error that ended it. -/
structure Output where
  stdout : Bytes
  error : Option Bytes
deriving DecidableEq

def Output.exitCode (o : Output) : Nat := if o.error.isSome then 1 else 0

inductive Flag where
  | rounds
  | setupOnly
deriving DecidableEq

def Flag.name : Flag → String
  | rounds => "rounds"
  | setupOnly => "setup-only"

inductive FlagError where
  | unknown
  | noValue
  | notTruth
  | notInteger (value : String) (e : Text.IntegerError)
deriving DecidableEq

def FlagError.message : FlagError → String
  | unknown => "no such flag"
  | noValue => "flag value is required"
  | notTruth => "not a bool value"
  | notInteger value e =>
    "strconv.ParseInt: parsing " ++ Text.quote value ++ ": " ++ e.message

inductive ArgError where
  | unexpected (arg : String)
  | flag (arg : String) (e : FlagError)
deriving DecidableEq

def ArgError.message : ArgError → String
  | unexpected arg => "no args expected, got " ++ arg
  | flag arg e => "parse flag: " ++ arg ++ ": " ++ e.message

/-- A dash alone is a name, and two dashes end the flags. -/
def isFlag (arg : String) : Bool := arg.startsWith "-" && arg != "-" && arg != "--"

def endsName (c : Char) : Bool := c == '=' || c == ' '

/-- The name of a flag after one dash or two, and the value that stands after the first equals sign
or blank. -/
def splitFlag (arg : String) : String × Option String :=
  let body := match arg.toList with
    | '-' :: '-' :: body => body
    | '-' :: body => body
    | body => body
  (String.ofList (body.takeWhile (!endsName ·)),
    (body.dropWhile (!endsName ·)).tail?.map String.ofList)

/-- A truth value as flags give it, in any case of letters; no letters at all are true. -/
def truth? (s : String) : Option Bool :=
  if ["", "1", "t", "true", "y", "yes"].contains s.toLower then some true
  else if ["0", "f", "false", "n", "no"].contains s.toLower then some false
  else none

def Options.setTruth (o : Options) (arg value : String) : Except ArgError Options :=
  match truth? value with
  | some b => .ok { o with setupOnly := b }
  | none => .error (.flag arg .notTruth)

def Options.setRounds (o : Options) (arg value : String) : Except ArgError Options :=
  match Text.readInteger value.toList with
  | .ok n => .ok { o with rounds := n }
  | .error e => .error (.flag arg (.notInteger value e))

def Options.addNames (o : Options) (names : List String) : Options :=
  { o with names := o.names ++ names }

/-- Reads the arguments of a command that takes names and the flags `known`. A number that is not
given with its flag is the argument after it. -/
def parseOptions (known : List Flag) (o : Options) : List String → Except ArgError Options
  | [] => .ok o
  | arg :: rest =>
    if arg = "--" then .ok (o.addNames rest)
    else if isFlag arg then
      let (name, value) := splitFlag arg
      match known.find? (·.name == name) with
      | none => .error (.flag arg .unknown)
      | some .setupOnly => do parseOptions known (← o.setTruth arg (value.getD "")) rest
      | some .rounds =>
        match value, rest with
        | some value, rest => do parseOptions known (← o.setRounds arg value) rest
        | none, value :: rest => do parseOptions known (← o.setRounds arg value) rest
        | none, [] => .error (.flag arg .noValue)
    else parseOptions known (o.addNames [arg]) rest

def reject (arg : String) : ArgError := if isFlag arg then .flag arg .unknown else .unexpected arg

def inside {α : Type} (command : String) : Except ArgError α → Except String α
  | .ok a => .ok a
  | .error e => .error (command ++ ": " ++ e.message)

def parse : List String → Except String Command
  | [] => .ok .help
  | "list" :: args =>
    match args with
    | [] => .ok .list
    | arg :: _ => inside "list" (.error (reject arg))
  | "lower" :: args => do
    let o ← inside "lower" (parseOptions [] .usual args)
    return .lower o.names
  | "compile" :: args => do
    let o ← inside "compile" (parseOptions [.rounds, .setupOnly] .usual args)
    return .compile o.rounds o.setupOnly o.names
  | arg :: _ => .error (reject arg).message

/-- Pads with blanks to at least `n` characters. -/
def padRight (n : Nat) (s : String) : String :=
  s ++ String.ofList (List.replicate (n - s.length) ' ')

def listLine (s : Sample) : String := padRight 10 s.name ++ " " ++ s.description ++ "\n"

def printAll (locate : Locator) (command : String)
    (make : File → Except Fault (Option Program × Option Failure)) : List String → Output
  | [] => ⟨[], none⟩
  | name :: rest =>
    match Sample.find? name with
    | none => ⟨[], some (command ++ ": no such sample: " ++ name)⟩
    | some s =>
      match make s.file with
      | .error f => ⟨[], some f.message⟩
      | .ok (_, some e) =>
        ⟨[], some (command ++ ": " ++ command ++ " " ++ name ++ ": " ++ e.message locate)⟩
      | .ok (p, none) =>
        let o := printAll locate command make rest
        { o with stdout := p.elim [] (Listing.program locate) ++ o.stdout }

def pipeline (rounds : Int) (setupOnly : Bool) : Pipeline (Except Fault) :=
  { Pipeline.standard with
    iter := if setupOnly then [] else Pipeline.standard.iter
    maxRounds := rounds }

def Command.run (locate : Locator) : Command → Output
  | help => ⟨[], none⟩
  | list => ⟨Sample.all.flatMap fun s => listLine s, none⟩
  | lower names =>
    printAll locate "lower" (fun file => do
      let (p, err) ← Program.lower file
      return (some p, err)) names
  | compile rounds setupOnly names =>
    printAll locate "compile" (compileWith (pipeline rounds setupOnly)) names

def run (locate : Locator) (args : List String) : Output :=
  match parse args with
  | .ok c => c.run locate
  | .error e => ⟨[], some e⟩

end CommandLine

end ThreeAddress
