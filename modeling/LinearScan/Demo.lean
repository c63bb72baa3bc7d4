import LinearScan.Compile
import LinearScan.Render.Assembly
import LinearScan.Render.Dump
import LinearScan.Samples

/-!
# The demonstration

One sample program from its instructions to assembly text: what the scan shows,
the listing of the trees with their registers, and the assembly.
-/

namespace LinearScan

/-- The lines of a compiled program: what the scan showed, the listing, and the
assembly text.  After a fault there is a listing only. -/
def Compiled.report (c : Compiled) : List String :=
  let n := c.alloc.notes
  let listing := c.ir.dump c.graph n
  match c.fault with
  | some fault => c.alloc.log.toList ++ fault.notice ++ listing
  | none =>
      let code :=
        match c.ir.assemble c.graph n #[] with
        | .ok _ code => code
        | .error _ code => code
      c.alloc.log.toList ++ ["IR dump ======="] ++ listing ++
        ["", "ASM dump ======"] ++ code.toList.map (AsmLine.render c.graph n)

/-- The lines of the demonstration. -/
def demo : List String :=
  match (Samples.fibonacci 10).compile {} with
  | .ok c => c.report
  | .error fault => fault.notice ++ [fault.message]

end LinearScan
