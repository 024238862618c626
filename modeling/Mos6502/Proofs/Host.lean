import Mos6502.Emulator
import Mos6502.Proofs.Numeral
import Mos6502.Proofs.Session
/-!
The emulator as its host sees it. A host sends commands and looks at the reply and the registers
after each: it finds what the machine inside does, with faults put into words. A reset makes the
emulator as good as new, and a failed run tells the byte that the emulator now stands at.
-/

namespace Mos6502

inductive Command where
  /-- Puts a fresh emulator in the place of the old one. -/
  | renew
  | reset
  | loadProgram (start : UInt16) (bytes : List UInt8)
  | execute (budget : Int32)
  | step
  | readMemory (address : UInt16)
  | writeMemory (address : UInt16) (v : UInt8)
  | dump (start : UInt16) (length : ℕ)

/-- What comes back from a command. A run that fails answers an `ε`. -/
inductive Reply (ε : Type) where
  | done
  | cycles (result : Except ε ℕ)
  | byte (v : UInt8)
  | text (s : String)

def Reply.mapError {ε ε' : Type} (f : ε → ε') : Reply ε → Reply ε'
  | done => done
  | cycles result => cycles (result.mapError f)
  | byte v => byte v
  | text s => text s

/-- A reply that tells of a failure has been made from one that does. -/
theorem Reply.of_mapError {ε ε' : Type} {f : ε → ε'} {reply : Reply ε} {error : ε'}
    (h : reply.mapError f = .cycles (.error error)) :
    ∃ fault, reply = .cycles (.error fault) ∧ error = f fault := by
  cases reply with
  | cycles result =>
    cases result with
    | error fault =>
      cases h
      exact ⟨fault, rfl, rfl⟩
    | ok count => cases h
  | done => cases h
  | byte v => cases h
  | text s => cases h

namespace Emulator

def obey (e : Emulator) : Command → Reply HostError × Emulator
  | .renew => (.done, initial)
  | .reset => (.done, e.reset)
  | .loadProgram start bytes => (.done, e.loadProgram start bytes)
  | .execute budget => (.cycles (e.execute budget).1, (e.execute budget).2)
  | .step => (.cycles e.step.1, e.step.2)
  | .readMemory address => (.byte (e.readMemory address), e)
  | .writeMemory address v => (.done, e.writeMemory address v)
  | .dump start length => (.text (e.dump start length), e)

/-- The replies to commands in turn, each with the registers after it. -/
def session (e : Emulator) : List Command → List (Reply HostError × Readings)
  | [] => []
  | c :: commands =>
    ((e.obey c).1, (e.obey c).2.readings) :: (e.obey c).2.session commands

def after (e : Emulator) (commands : List Command) : Emulator :=
  commands.foldl (fun e c => (e.obey c).2) e

end Emulator

namespace Machine

def obey (m : Machine Memory) : Command → Reply Fault × Machine Memory
  | .renew => (.done, ⟨.initial, .zero⟩)
  | .reset => (.done, m.reset)
  | .loadProgram start bytes => (.done, ⟨m.cpu, m.bus.load start bytes⟩)
  | .execute budget => (.cycles (m.execute budget).value, (m.execute budget).state)
  | .step => (.cycles m.step.value, m.step.state)
  | .readMemory address => (.byte (m.bus.read address), m)
  | .writeMemory address v => (.done, ⟨m.cpu, m.bus.write address v⟩)
  | .dump start length => (.text (m.bus.dumpRange start length), m)

def session (m : Machine Memory) : List Command → List (Reply Fault × Readings)
  | [] => []
  | c :: commands =>
    ((m.obey c).1, (m.obey c).2.cpu.readings) :: (m.obey c).2.session commands

theorem obey_error {m : Machine Memory} {c : Command} {fault : Fault}
    (h : (m.obey c).1 = .cycles (.error fault)) :
    fault = .unknownOpcode (m.obey c).2.opcode (m.obey c).2.cpu.pc := by
  cases c with
  | execute budget =>
    have hv : (m.answer (.execute budget)).value = .error fault := Reply.cycles.inj h
    exact answer_error hv
  | step =>
    have hv : (m.answer .step).value = .error fault := Reply.cycles.inj h
    exact answer_error hv
  | renew => cases h
  | reset => cases h
  | loadProgram start bytes => cases h
  | readMemory address => cases h
  | writeMemory address v => cases h
  | dump start length => cases h

end Machine

namespace Emulator

theorem obey_refines (e : Emulator) (c : Command) :
    (e.obey c).1 = (e.machine.obey c).1.mapError .ofFault ∧
      (e.obey c).2.machine = (e.machine.obey c).2 := by
  cases c <;> exact ⟨rfl, rfl⟩

theorem session_refines (e : Emulator) (commands : List Command) :
    e.session commands = (e.machine.session commands).map fun (reply, readings) =>
      (reply.mapError .ofFault, readings) := by
  induction commands generalizing e with
  | nil => rfl
  | cons c commands ih =>
    obtain ⟨hreply, hmachine⟩ := e.obey_refines c
    simp only [session, Machine.session, List.map_cons, ih, readings, hreply, hmachine]

theorem session_append (e : Emulator) (first rest : List Command) :
    e.session (first ++ rest) = e.session first ++ (e.after first).session rest := by
  induction first generalizing e with
  | nil => rfl
  | cons c first ih =>
    rw [List.cons_append, session, ih]
    rfl

/-- A failed run names the byte that the emulator reads where it now stands. -/
theorem obey_error {e : Emulator} {c : Command} {error : HostError}
    (h : (e.obey c).1 = .cycles (.error error)) :
    error = .ofFault (.unknownOpcode ((e.obey c).2.readMemory (e.obey c).2.readings.pc)
      (e.obey c).2.readings.pc) := by
  obtain ⟨hreply, hmachine⟩ := e.obey_refines c
  rw [hreply] at h
  obtain ⟨fault, hfault, rfl⟩ := Reply.of_mapError h
  rw [Machine.obey_error hfault, readings, readMemory, hmachine]
  rfl

/-- What a host finds in a session that begins with these commands. -/
structure ServesHost (commands : List Command) : Prop where
  starts : initial.readings = Cpu.initial.readings
  /-- The replies and readings are those of a bare machine that starts with cleared memory. -/
  refines : initial.session commands =
    ((⟨.initial, .zero⟩ : Machine Memory).session commands).map fun (reply, readings) =>
      (reply.mapError .ofFault, readings)
  /-- After a reset the session goes on like a new one. -/
  restarts : ∀ later, initial.session (commands ++ .reset :: later) =
    initial.session commands ++ (.done, initial.readings) :: initial.session later
  /-- A failure tells the byte at the program counter in the state that it leaves. -/
  identifies : ∀ c error, ((initial.after commands).obey c).1 = .cycles (.error error) →
    let e := ((initial.after commands).obey c).2
    let opcode := e.readMemory e.readings.pc
    error.opcode = some opcode ∧
    ∃ byte word, Hex.Numeral .upper 2 opcode.toNat byte ∧
      Hex.Numeral .upper 4 e.readings.pc.toNat word ∧
      error.message = "Instruction 0x" ++ String.ofList byte ++ " at 0x" ++ String.ofList word ++
        " is not handled"

theorem serves_host (commands : List Command) : ServesHost commands := by
  constructor
  · rfl
  · exact initial.session_refines commands
  · intro later
    rw [session_append]
    rfl
  · intro c error h e opcode
    rw [obey_error h]
    exact ⟨rfl, Hex.byte .upper opcode, Hex.word .upper e.readings.pc,
      Hex.numeral_byte .upper opcode, Hex.numeral_word .upper e.readings.pc, rfl⟩

end Emulator

end Mos6502
