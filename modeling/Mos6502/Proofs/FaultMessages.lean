import Mathlib.Data.List.Basic
import Mos6502.Emulator
import Mos6502.Proofs.Numeral
/-!
Reading messages. A reader finds the cause, the opcode and the address or mode in the message of a
fault. It accepts the messages of faults and nothing else, so a message tells which fault it is of,
and so does the error that a host gets.
-/

namespace Mos6502

namespace Mode

def all : List Mode :=
  [implicit, immediate, zeroPage, zeroPageX, zeroPageY, absolute, absoluteX, absoluteY, indirectX,
    indirectY]

/-- Reads the name of a mode. Some names begin with others, so a name has to be there whole. -/
def ofName? (text : List Char) : Option Mode := all.find? fun mode => mode.name.toList == text

theorem ofName?_eq_some_iff {text : List Char} {mode : Mode} :
    ofName? text = some mode ↔ text = mode.name.toList := by
  constructor
  · intro h
    rw [ofName?] at h
    have hname := List.find?_some h
    exact (eq_of_beq hname).symm
  · rintro rfl
    cases mode <;> decide

end Mode

/-- What follows a phrase that a text begins with. -/
def afterPhrase? (phrase : String) (text : List Char) : Option (List Char) :=
  text.dropPrefix? phrase.toList

theorem afterPhrase?_eq_some_iff {phrase : String} {text rest : List Char} :
    afterPhrase? phrase text = some rest ↔ text = phrase.toList ++ rest := by
  rw [afterPhrase?, List.dropPrefix?_eq_some_iff]
  simp only [beq_iff_eq, exists_eq_right]

/-- The number of the given width that comes after a phrase, in upper case, and what follows it. -/
def numberAfter? (phrase : String) (width : Nat) (text : List Char) :
    Option (Nat × List Char) := do
  let text ← afterPhrase? phrase text
  let n ← Hex.number? .upper width (text.take width)
  return (n, text.drop width)

theorem numberAfter?_eq_some_iff {phrase : String} {width n : Nat} {text rest : List Char} :
    numberAfter? phrase width text = some (n, rest) ↔
      n < 16 ^ width ∧ text = phrase.toList ++ (Hex.digits .upper width n ++ rest) := by
  simp only [numberAfter?, Option.bind_eq_bind, Option.bind_eq_some_iff, afterPhrase?_eq_some_iff,
    Hex.number?_eq_some_iff, Hex.numeral_iff]
  constructor
  · rintro ⟨tail, rfl, m, ⟨hm, htake⟩, hrest⟩
    cases hrest
    refine ⟨hm, ?_⟩
    rw [← htake, List.take_append_drop]
  · rintro ⟨hn, rfl⟩
    refine ⟨_, rfl, n, ⟨hn, ?_⟩, ?_⟩
    · exact List.take_left' (Hex.length_digits .upper width n)
    · rw [List.drop_left' (Hex.length_digits .upper width n)]
      rfl

namespace Fault

def ofUnknown? (text : List Char) : Option Fault := do
  let (opcode, text) ← numberAfter? "Instruction 0x" 2 text
  let (address, text) ← numberAfter? " at 0x" 4 text
  if text = " is not handled".toList then
    some (unknownOpcode (.ofNat opcode) (.ofNat address))
  else none

def ofUnsupported? (text : List Char) : Option Fault := do
  let (opcode, text) ← numberAfter? "Opcode 0x" 2 text
  let name ← afterPhrase? " does not support addressing mode " text
  let mode ← Mode.ofName? name
  return unsupportedMode (.ofNat opcode) mode

/-- Reads the message of a fault. -/
def ofMessage? (text : String) : Option Fault :=
  (ofUnknown? text.toList).or (ofUnsupported? text.toList)

theorem toList_message_unknown (opcode : UInt8) (address : UInt16) :
    (unknownOpcode opcode address).message.toList =
      "Instruction 0x".toList ++ (Hex.digits .upper 2 opcode.toNat ++
        (" at 0x".toList ++ (Hex.digits .upper 4 address.toNat ++ " is not handled".toList))) := by
  rw [show (unknownOpcode opcode address).message = "Instruction 0x" ++
      String.ofList (Hex.byte .upper opcode) ++ " at 0x" ++
      String.ofList (Hex.word .upper address) ++ " is not handled" from rfl]
  simp only [Hex.byte, Hex.word, String.toList_append, String.toList_ofList, List.append_assoc]

theorem toList_message_unsupported (opcode : UInt8) (mode : Mode) :
    (unsupportedMode opcode mode).message.toList =
      "Opcode 0x".toList ++ (Hex.digits .upper 2 opcode.toNat ++
        (" does not support addressing mode ".toList ++ mode.name.toList)) := by
  rw [show (unsupportedMode opcode mode).message = "Opcode 0x" ++
      String.ofList (Hex.byte .upper opcode) ++ " does not support addressing mode " ++
      mode.name from rfl]
  simp only [Hex.byte, String.toList_append, String.toList_ofList, List.append_assoc]

theorem ofUnknown?_eq_some_iff {text : List Char} {f : Fault} :
    ofUnknown? text = some f ↔
      ∃ opcode address, f = unknownOpcode opcode address ∧ text = f.message.toList := by
  simp only [ofUnknown?, Option.bind_eq_bind, Option.bind_eq_some_iff]
  constructor
  · rintro ⟨⟨opcode, tail⟩, hopcode, ⟨address, last⟩, haddress, hf⟩
    obtain ⟨hop, rfl⟩ := numberAfter?_eq_some_iff.mp hopcode
    obtain ⟨had, rfl⟩ := numberAfter?_eq_some_iff.mp haddress
    rw [Option.ite_none_right_eq_some] at hf
    obtain ⟨rfl, hf⟩ := hf
    cases hf
    refine ⟨_, _, rfl, ?_⟩
    rw [toList_message_unknown, UInt8.toNat_ofNat_of_lt' hop, UInt16.toNat_ofNat_of_lt' had]
  · rintro ⟨opcode, address, rfl, rfl⟩
    rw [toList_message_unknown]
    refine ⟨(opcode.toNat, _), numberAfter?_eq_some_iff.mpr ⟨opcode.toNat_lt, rfl⟩,
      (address.toNat, _), numberAfter?_eq_some_iff.mpr ⟨address.toNat_lt, rfl⟩, ?_⟩
    rw [UInt8.ofNat_toNat, UInt16.ofNat_toNat]
    exact Option.ite_none_right_eq_some.mpr ⟨rfl, rfl⟩

theorem ofUnsupported?_eq_some_iff {text : List Char} {f : Fault} :
    ofUnsupported? text = some f ↔
      ∃ opcode mode, f = unsupportedMode opcode mode ∧ text = f.message.toList := by
  simp only [ofUnsupported?, Option.bind_eq_bind, Option.bind_eq_some_iff]
  constructor
  · rintro ⟨⟨opcode, tail⟩, hopcode, name, hname, mode, hmode, hf⟩
    obtain ⟨hop, rfl⟩ := numberAfter?_eq_some_iff.mp hopcode
    obtain rfl := afterPhrase?_eq_some_iff.mp hname
    obtain rfl := Mode.ofName?_eq_some_iff.mp hmode
    cases hf
    refine ⟨_, _, rfl, ?_⟩
    rw [toList_message_unsupported, UInt8.toNat_ofNat_of_lt' hop]
  · rintro ⟨opcode, mode, rfl, rfl⟩
    rw [toList_message_unsupported]
    refine ⟨(opcode.toNat, _), numberAfter?_eq_some_iff.mpr ⟨opcode.toNat_lt, rfl⟩,
      _, afterPhrase?_eq_some_iff.mpr rfl, mode, Mode.ofName?_eq_some_iff.mpr rfl, ?_⟩
    rw [UInt8.ofNat_toNat]
    rfl

/-- The first letter tells the two kinds of message apart. -/
theorem ofUnknown?_unsupported (opcode : UInt8) (mode : Mode) :
    ofUnknown? (unsupportedMode opcode mode).message.toList = none := by
  cases h : ofUnknown? (unsupportedMode opcode mode).message.toList with
  | none => rfl
  | some f =>
    obtain ⟨opcode', address, rfl, htext⟩ := ofUnknown?_eq_some_iff.mp h
    rw [toList_message_unknown, toList_message_unsupported] at htext
    have hletters := congrArg List.head? htext
    cases hletters

/-- Reading accepts exactly the messages of faults. -/
theorem ofMessage?_eq_some_iff {text : String} {f : Fault} :
    ofMessage? text = some f ↔ text = f.message := by
  rw [← String.toList_inj]
  constructor
  · intro h
    rcases Option.or_eq_some_iff.mp h with hunknown | ⟨-, hunsupported⟩
    · obtain ⟨-, -, -, htext⟩ := ofUnknown?_eq_some_iff.mp hunknown
      exact htext
    · obtain ⟨-, -, -, htext⟩ := ofUnsupported?_eq_some_iff.mp hunsupported
      exact htext
  · intro htext
    rw [ofMessage?, htext]
    cases f with
    | unknownOpcode opcode address =>
      rw [ofUnknown?_eq_some_iff.mpr ⟨opcode, address, rfl, rfl⟩]
      rfl
    | unsupportedMode opcode mode =>
      rw [ofUnknown?_unsupported, ofUnsupported?_eq_some_iff.mpr ⟨opcode, mode, rfl, rfl⟩]
      rfl

example : ofMessage? "Opcode 0x0F does not support addressing mode ZeroPageX" =
    some (unsupportedMode 0x0F .zeroPageX) := by decide

theorem message_inj {f g : Fault} : f.message = g.message ↔ f = g := by
  constructor
  · intro h
    have hf := ofMessage?_eq_some_iff.mpr (rfl : f.message = f.message)
    rw [ofMessage?_eq_some_iff.mpr h] at hf
    exact (Option.some.inj hf).symm
  · rintro rfl
    rfl

/-- What the message of a fault tells, and the error that a host gets. -/
structure MessageTells (f : Fault) : Prop where
  read : ∀ text, ofMessage? text = some f ↔ text = f.message
  distinct : ∀ g : Fault, f.message = g.message ↔ f = g
  host_message : (HostError.ofFault f).message = f.message
  host_opcode : (HostError.ofFault f).opcode = some f.opcode
  host_distinct : ∀ g : Fault, HostError.ofFault f = HostError.ofFault g ↔ f = g

end Fault

end Mos6502
