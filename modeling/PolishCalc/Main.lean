import PolishCalc.CommandLine

/-! # The program

Reads the whole standard input, writes the transcript of a command and exits with
its code.  The command is the calculator, or the stack machine if the first
argument is `machine`.  Faults are reported without a trace of calls.
-/
open PolishCalc

/-- Run the command that the arguments choose. -/
def main (args : List String) : IO UInt32 := do
  let input ← (← IO.getStdin).readBinToEnd
  let transcript :=
    if args.head? = some "machine" then CommandLine.machineBytes input .withCause
    else CommandLine.calculateBytes input .withCause
  IO.print transcript.stdout
  IO.eprint transcript.stderr
  return transcript.exitCode.toUInt32
