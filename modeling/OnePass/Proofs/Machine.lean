import OnePass.Assembly.Line
import OnePass.Proofs.Interpreter
import Mathlib.Logic.Function.Basic

/-! # The machine

How the text of a program is executed. The variables' words are kept apart from what is pushed and
popped. What is not settled by the text is a parameter: the quotient of two words, the addresses of
the data, and what a call leaves in the registers and flags that it may change.
-/
namespace OnePass

/-- What a register holds. Where a label of the data lies is left to the platform. -/
inductive Datum where
  | word (value : BitVec 32)
  | address (label : DataLabel)
  deriving DecidableEq, Repr

structure Scratch where
  r0 : Datum
  r1 : Datum
  r2 : Datum
  r3 : Datum
  r12 : Datum
  deriving DecidableEq, Repr

structure Machine where
  /-- The index of the line that is executed next. -/
  line : Nat
  /-- The registers `r4` to `r9`. -/
  work : Register → Datum
  scratch : Scratch
  /-- How the operands of the last comparison compared. -/
  flags : Ordering
  /-- The variables' words by their slots. -/
  cells : Nat → BitVec 32
  fp : Int
  sp : Int
  /-- The frame pointer of the caller, once it is saved. -/
  caller : Int
  pushed : List Scratch
  /-- How many slots have been reserved. -/
  reserved : Nat
  /-- The formats and arguments printed so far. -/
  output : List (Datum × Datum)
  halted : Bool

structure Platform where
  quotient : BitVec 32 → BitVec 32 → BitVec 32
  address : DataLabel → BitVec 32
  /-- The scratch registers and the flags behind a call. -/
  afterCall : Machine → Scratch × Ordering

namespace Platform

variable (p : Platform)

def wordOf : Datum → BitVec 32
  | .word value => value
  | .address label => p.address label

/-- What `add`, `sub`, `mul` and `sdiv` compute. -/
def compute (a b : BitVec 32) : Arithmetic → BitVec 32
  | .add => a + b
  | .subtract => a - b
  | .multiply => a * b
  | .divide => p.quotient a b

end Platform

def branchTaken (mnemonic : String) : Ordering → Bool
  | .lt => mnemonic ∈ ["blt", "ble", "bne"]
  | .eq => mnemonic ∈ ["beq", "ble", "bge"]
  | .gt => mnemonic ∈ ["bgt", "bge", "bne"]

def Machine.goto (m : Machine) (line : Nat) : Machine :=
  { m with line }

def Machine.setWork (m : Machine) (r : Register) (d : Datum) : Machine :=
  { m with work := Function.update m.work r d }

namespace Instruction

def effect (p : Platform) : Instruction → Machine → Machine
  | saveFrame, m => { m with sp := m.sp - 8, caller := m.fp }
  | enterFrame, m => { m with fp := m.sp }
  | reserveSlot, m => { m with sp := m.sp - 4, reserved := m.reserved + 1 }
  | loadNumber r digits, m => m.setWork r (.word (decimalWord digits))
  | loadAddress r label, m => m.setWork r (.address label)
  | loadVariable r slot, m => m.setWork r (.word (m.cells slot))
  | storeVariable r slot, m =>
    { m with cells := Function.update m.cells slot (p.wordOf (m.work r)) }
  | arithmetic op r a b, m =>
    m.setWork r (.word (p.compute (p.wordOf (m.work a)) (p.wordOf (m.work b)) op))
  | negate r a, m => m.setWork r (.word (0 - p.wordOf (m.work a)))
  | compare a b, m =>
    { m with flags := Ord.compare (p.wordOf (m.work a)).toInt (p.wordOf (m.work b)).toInt }
  | branchUnless _ _, m => m
  | branch _, m => m
  | selectFormat label, m => { m with scratch := { m.scratch with r0 := .address label } }
  | saveScratch, m => { m with sp := m.sp - 16, pushed := m.scratch :: m.pushed }
  | passArgument r, m => { m with scratch := { m.scratch with r1 := m.work r } }
  | callPrintf, m =>
    { m with
      output := m.output ++ [(m.scratch.r0, m.scratch.r1)]
      scratch := (p.afterCall m).1
      flags := (p.afterCall m).2 }
  | restoreScratch, m =>
    match m.pushed with
    | [] => m
    | s :: rest =>
      { m with sp := m.sp + 16, pushed := rest, scratch := { s with r0 := m.scratch.r0 } }
  | clearResult, m => { m with scratch := { m.scratch with r0 := .word 0 } }
  | leaveFrame, m => { m with sp := m.fp }
  | returnToCaller, m => { m with sp := m.sp + 8, fp := m.caller, halted := true }

def target? (i : Instruction) (flags : Ordering) : Option CodeLabel :=
  match i with
  | branch l => some l
  | branchUnless op l => if branchTaken op.negatedBranch flags then some l else none
  | _ => none

def slot? : Instruction → Option Nat
  | loadVariable _ slot => some slot
  | storeVariable _ slot => some slot
  | _ => none

end Instruction

namespace Line

def effect (p : Platform) : Line → Machine → Machine
  | instruction i, m => i.effect p m
  | _, m => m

def target? : Line → Ordering → Option CodeLabel
  | instruction i, flags => i.target? flags
  | _, _ => none

def slot? : Line → Option Nat
  | instruction i => i.slot?
  | _ => none

end Line

namespace Machine

variable (p : Platform) (text : List Line)

def successor (m : Machine) (line : Line) : Option Nat :=
  match line.target? m.flags with
  | some l => text.idxOf? (.label l)
  | none => some (m.line + 1)

def next (m : Machine) : Option Machine :=
  if m.halted then none
  else do
    let line ← text[m.line]?
    let following ← m.successor text line
    return (line.effect p m).goto following

def Accesses (m : Machine) (slot : Nat) : Prop :=
  m.halted = false ∧ text[m.line]?.bind Line.slot? = some slot

/-- The machine is about to execute the text from its entry, whatever its registers and cells
hold. -/
structure AtEntry (m : Machine) : Prop where
  line : text[m.line]? = some (.label .main)
  running : m.halted = false
  output : m.output = []
  reserved : m.reserved = 0

end Machine

/-- A platform with the signed quotient, whose calls change nothing. -/
def Platform.plain : Platform where
  quotient := BitVec.sdiv
  address _ := 0
  afterCall m := (m.scratch, m.flags)

def Machine.blank : Machine where
  line := 1
  work _ := .word 0
  scratch := ⟨.word 0, .word 0, .word 0, .word 0, .word 0⟩
  flags := .eq
  cells _ := 0
  fp := 0
  sp := 0
  caller := 0
  pushed := []
  reserved := 0
  output := []
  halted := false

/-! ## What is printed -/

def definition? (data : List Line) (label : DataLabel) : Option String :=
  data.findSome? fun
    | .definition l literal => if l = label then some literal else none
    | _ => none

theorem definition?_cons (l label : DataLabel) (literal : String) (data : List Line) :
    definition? (.definition l literal :: data) label =
      if l = label then some literal else definition? data label := by
  rw [definition?, List.findSome?_cons]
  by_cases h : l = label
  · simp [h]
  · simp [h, definition?]

/-- What is shown for a format and an argument, by the strings that the data define. -/
def printed? (data : List Line) : Datum × Datum → Option Printed
  | (.address format, argument) =>
    match definition? data format, argument with
    | some "\"%d\"", .word value => some (.number value)
    | some "\"%s\"", .address label => (definition? data label).map .text
    | _, _ => none
  | (.word _, _) => none

end OnePass
