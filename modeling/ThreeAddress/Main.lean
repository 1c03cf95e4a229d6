import ThreeAddress.CommandLine

def locate (pc : UInt64) : ThreeAddress.Place :=
  ⟨if pc = 1 then "Expr.lower" else "Stmt.lower", 0⟩

def main (args : List String) : IO UInt32 := do
  let o := ThreeAddress.CommandLine.run locate args
  IO.print o.stdout.lossyText
  if let some e := o.error then
    IO.eprintln ("error: " ++ e.lossyText)
  return o.exitCode.toUInt32
