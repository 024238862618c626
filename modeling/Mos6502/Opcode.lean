import Mos6502.Mode
/-!
The opcode registry: which bytes are instructions, and what instruction, addressing mode and base
cost each stands for. The registry is data; nothing in the processor's own timing is read from it.
-/

namespace Mos6502

/-- The registers that loads and stores move bytes through. -/
inductive Register where
  | a
  | x
  | y
  deriving DecidableEq, Repr

inductive Instruction where
  | load (register : Register)
  | store (register : Register)
  | jsr
  | rts
  | nop
  deriving DecidableEq, Repr

def Instruction.mnemonic : Instruction → String
  | .load .a => "LDA"
  | .load .x => "LDX"
  | .load .y => "LDY"
  | .store .a => "STA"
  | .store .x => "STX"
  | .store .y => "STY"
  | .jsr => "JSR"
  | .rts => "RTS"
  | .nop => "NOP"

structure Entry where
  instruction : Instruction
  mode : Mode
  /-- The cycles of a run in which no index carries into the next page. -/
  baseCycles : Nat
  deriving DecidableEq, Repr

/-- The length of the whole instruction, opcode included. -/
def Entry.size (e : Entry) : Nat := 1 + e.mode.operandBytes

def registry : List (UInt8 × Entry) :=
  [(0xA9, ⟨.load .a, .immediate, 2⟩),
   (0xA5, ⟨.load .a, .zeroPage, 3⟩),
   (0xB5, ⟨.load .a, .zeroPageX, 4⟩),
   (0xAD, ⟨.load .a, .absolute, 4⟩),
   (0xBD, ⟨.load .a, .absoluteX, 4⟩),
   (0xB9, ⟨.load .a, .absoluteY, 4⟩),
   (0xA1, ⟨.load .a, .indirectX, 6⟩),
   (0xB1, ⟨.load .a, .indirectY, 5⟩),
   (0xA2, ⟨.load .x, .immediate, 2⟩),
   (0xA6, ⟨.load .x, .zeroPage, 3⟩),
   (0xB6, ⟨.load .x, .zeroPageY, 4⟩),
   (0xAE, ⟨.load .x, .absolute, 4⟩),
   (0xBE, ⟨.load .x, .absoluteY, 4⟩),
   (0xA0, ⟨.load .y, .immediate, 2⟩),
   (0xA4, ⟨.load .y, .zeroPage, 3⟩),
   (0xB4, ⟨.load .y, .zeroPageX, 4⟩),
   (0xAC, ⟨.load .y, .absolute, 4⟩),
   (0xBC, ⟨.load .y, .absoluteX, 4⟩),
   (0x85, ⟨.store .a, .zeroPage, 3⟩),
   (0x95, ⟨.store .a, .zeroPageX, 4⟩),
   (0x8D, ⟨.store .a, .absolute, 4⟩),
   (0x9D, ⟨.store .a, .absoluteX, 5⟩),
   (0x99, ⟨.store .a, .absoluteY, 5⟩),
   (0x81, ⟨.store .a, .indirectX, 6⟩),
   (0x91, ⟨.store .a, .indirectY, 6⟩),
   (0x86, ⟨.store .x, .zeroPage, 3⟩),
   (0x96, ⟨.store .x, .zeroPageY, 4⟩),
   (0x8E, ⟨.store .x, .absolute, 4⟩),
   (0x84, ⟨.store .y, .zeroPage, 3⟩),
   (0x94, ⟨.store .y, .zeroPageX, 4⟩),
   (0x8C, ⟨.store .y, .absolute, 4⟩),
   (0x20, ⟨.jsr, .absolute, 6⟩),
   (0x60, ⟨.rts, .implicit, 6⟩),
   (0xEA, ⟨.nop, .implicit, 2⟩)]

/-- The entry of an opcode, or `none` for a byte that is no instruction. -/
def Entry.ofOpcode? (opcode : UInt8) : Option Entry := registry.lookup opcode

end Mos6502
