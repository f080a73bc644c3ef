import Calculator.CommandLine

/-
  The program: the arguments are one command, whose output is printed.
-/

open Calculator in
def main (args : List String) : IO UInt32 := do
  let (output, code) := (Command.ofArgs none false args).run
  IO.print output
  return code.toUInt32
