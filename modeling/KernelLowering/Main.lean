import KernelLowering.CommandLine.Run

open KernelLowering

def main (args : List String) : IO UInt32 := do
  let outcome := CommandLine.run args
  (← IO.getStdout).putStr outcome.stdout
  (← IO.getStderr).putStr outcome.stderr
  return outcome.exit.code.toUInt32
