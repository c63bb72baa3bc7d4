import LinearScan.Demo

/-!
# The command line

Prints the demonstration; there are no arguments.
-/

/-- Print the demonstration. -/
def main : IO Unit :=
  LinearScan.demo.forM fun line => IO.println line
