import OnePass.Register
import OnePass.Token

/-! # Instructions

The machine instructions that programs are made of. A variable lives in the stack frame, one word
per slot below the frame pointer. A printed value is passed to `printf` with a format; the registers
that the call may change are saved around it.
-/
namespace OnePass

inductive CodeLabel where
  | main
  | beginOf (construct : Nat)
  | endOf (construct : Nat)
  deriving DecidableEq, Repr

def CodeLabel.render : CodeLabel → String
  | main => "main"
  | beginOf n => "begin_" ++ toString n
  | endOf n => "end_" ++ toString n

/-- Places in the program's data: the two print formats and the string constants, which are numbered
from one. -/
inductive DataLabel where
  | integerFormat
  | stringFormat
  | literal (number : Nat)
  deriving DecidableEq, Repr

def DataLabel.render : DataLabel → String
  | integerFormat => "ifmt"
  | stringFormat => "sfmt"
  | literal n => "str_" ++ toString n

def frameOffset (slot : Nat) : Int :=
  -4 * slot

def Arithmetic.mnemonic : Arithmetic → String
  | add => "add"
  | subtract => "sub"
  | multiply => "mul"
  | divide => "sdiv"

def Comparison.negatedBranch : Comparison → String
  | equal => "bne"
  | notEqual => "beq"
  | less => "bge"
  | lessEqual => "bgt"
  | greater => "ble"
  | greaterEqual => "blt"

inductive Instruction where
  | saveFrame
  | enterFrame
  /-- Reserves the stack word of one more variable. -/
  | reserveSlot
  | loadNumber (target : Register) (digits : String)
  | loadAddress (target : Register) (label : DataLabel)
  | loadVariable (target : Register) (slot : Nat)
  | storeVariable (source : Register) (slot : Nat)
  | arithmetic (op : Arithmetic) (target left right : Register)
  | negate (target source : Register)
  | compare (left right : Register)
  /-- Branches if the last comparison does not hold. -/
  | branchUnless (op : Comparison) (target : CodeLabel)
  | branch (target : CodeLabel)
  | selectFormat (format : DataLabel)
  | saveScratch
  | passArgument (source : Register)
  | callPrintf
  | restoreScratch
  | clearResult
  | leaveFrame
  | returnToCaller
  deriving DecidableEq, Repr

namespace Instruction

def frameOperand (slot : Nat) : String :=
  "[fp, #" ++ toString (frameOffset slot) ++ "]"

def render : Instruction → String
  | saveFrame => "push \x7bfp, lr\x7d"
  | enterFrame => "mov fp, sp"
  | reserveSlot => "sub sp, sp, #4"
  | loadNumber r digits => "ldr " ++ r.render ++ ", =" ++ digits
  | loadAddress r label => "ldr " ++ r.render ++ ", =" ++ label.render
  | loadVariable r slot => "ldr " ++ r.render ++ ", " ++ frameOperand slot
  | storeVariable r slot => "str " ++ r.render ++ ", " ++ frameOperand slot
  | arithmetic op r a b =>
    op.mnemonic ++ " " ++ r.render ++ ", " ++ a.render ++ ", " ++ b.render
  | negate r a => "rsb " ++ r.render ++ ", " ++ a.render ++ ", #0"
  | compare a b => "cmp " ++ a.render ++ ", " ++ b.render
  | branchUnless op label => op.negatedBranch ++ " " ++ label.render
  | branch label => "b " ++ label.render
  | selectFormat label => "ldr r0, =" ++ label.render
  | saveScratch => "push \x7br1-r3, r12\x7d"
  | passArgument r => "mov r1, " ++ r.render
  | callPrintf => "bl printf"
  | restoreScratch => "pop \x7br1-r3, r12\x7d"
  | clearResult => "mov r0, #0"
  | leaveFrame => "mov sp, fp"
  | returnToCaller => "pop \x7bfp, pc\x7d"

end Instruction

end OnePass
