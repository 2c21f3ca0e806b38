import WordMachine.Assembly.Program

/-!
# Example programs

Two programs that are always at hand: the factorial of four and a Fibonacci number, both computed by
recursion on the stack.
-/

namespace WordMachine

namespace Examples

/-- The lines of the factorial program. -/
def factorialLines : List String :=
  ["# Computes 4! on the stack. The result is left in the reserved slot at",
    "# 0xFFFF and the stack is fully unwound on halt.",
    "$stack as 1.mem",
    "",
    "$stack[1] <= factorial(4.val 4.imm)",
    "compute 0.op 0.reg 0.reg   # halt",
    "",
    "# factorial(n) -> n!",
    "# Stack on entry: n, return address, result slot.",
    "factorial:",
    "  copy 1.mem 2.reg",
    "  compute sub.op 4.val 1.imm 2.reg",
    "  copy 0.reg recurse.disp 0.reg 2.eff",
    "  copy 4.val 1.imm 1.mem",
    "  copy 0.reg return.disp 0.reg",
    "recurse:",
    "  $stack[1] <= factorial(2.reg)",
    "  copy 1.mem 2.reg pop",
    "  compute mul.op 2.reg 1.mem",
    "return:",
    "  copy 1.mem 1.mem 2.imm     / store the result /",
    "  copy 1.reg 1.imm 1.reg     / drop the argument /",
    "  copy 1.mem 0.reg pop"]

/-- The lines of the Fibonacci program. -/
def fibLines : List String :=
  ["# Computes fib(6) recursively. The result is left in the reserved slot at",
    "# 0xFFFF and the stack is fully unwound on halt.",
    "$stack as 1.mem",
    "",
    "$stack[1] <= fib(4.val 6.imm)",
    "compute 0.op 0.reg 0.reg   # halt",
    "",
    "# fib(n) -> fib(n - 1) + fib(n - 2), with fib(0) = 0 and fib(1) = 1",
    "# Stack on entry: n, return address, result slot.",
    "fib:",
    "  copy 1.mem 2.reg",
    "  compute sub.op 4.val 1.imm 2.reg",
    "  copy 0.reg recurse.disp 0.reg 2.eff",
    "  copy 0.reg return.disp 0.reg",
    "recurse:",
    "  $stack[1] <= fib(2.reg)",
    "  copy 1.mem 1.imm 2.reg",
    "  compute sub.op 4.val 2.imm 2.reg",
    "  $stack[1] <= fib(2.reg)",
    "  copy 1.mem 2.reg pop",
    "  compute add.op 1.mem 2.reg pop",
    "  copy 2.reg 1.mem",
    "return:",
    "  copy 1.mem 1.mem 2.imm     / store the result /",
    "  copy 1.reg 1.imm 1.reg     / drop the argument /",
    "  copy 1.mem 0.reg pop"]

/-- The names of the examples. -/
def names : List String := ["factorial", "fib"]

/-- The source of an example. -/
def source? (name : String) : Option (List Char) :=
  let lines? := match name with
    | "factorial" => some factorialLines
    | "fib" => some fibLines
    | _ => none
  lines?.map fun lines => lines.flatMap fun line => line.toList ++ ['\n']

/-- The words of an example. -/
def words? (name : String) : Option (List Word) :=
  (source? name).bind fun source => ((Assembly.assemble? source).toOption).map (·.words)

end Examples

end WordMachine
