import Mos6502.Proofs.Session
/-!
What a run depends on. Of memory only the cells that a run reads matter to it: from a memory that
agrees on them it takes the same course, and leaves in each cell what it last wrote there, or the
cell's own value if it wrote nothing there.
-/

namespace Mos6502

/-- The value that a cycle writes into a cell. -/
def Cycle.writtenTo (a : UInt16) : Cycle → Option UInt8
  | .write b v => if b = a then some v else none
  | _ => none

/-- The last of the values that cycles write into a cell. -/
def lastWritten (a : UInt16) (cycles : List Cycle) : Option UInt8 :=
  (cycles.filterMap (Cycle.writtenTo a)).getLast?

theorem lastWritten_append (a : UInt16) (xs ys : List Cycle) :
    lastWritten a (xs ++ ys) = (lastWritten a ys).or (lastWritten a xs) := by
  simp only [lastWritten, List.filterMap_append, List.getLast?_append]

@[simp] theorem lastWritten_nil (a : UInt16) : lastWritten a [] = none := rfl

@[simp] theorem lastWritten_read (a b : UInt16) (v : UInt8) (cycles : List Cycle) :
    lastWritten a (.read b v :: cycles) = lastWritten a cycles := rfl

@[simp] theorem lastWritten_internal (a : UInt16) (cycles : List Cycle) :
    lastWritten a (.internal :: cycles) = lastWritten a cycles := rfl

theorem lastWritten_write (a b : UInt16) (v : UInt8) :
    lastWritten a [.write b v] = if b = a then some v else none := by
  by_cases h : b = a <;> simp [lastWritten, Cycle.writtenTo, h]

/-- A program on plain memory leaves in each cell what its cycles say. -/
theorem BusM.runOn_read {α : Type} (p : BusM α) (memory : Memory) (a : UInt16) :
    (p.runOn memory).state.read a =
      (lastWritten a (p.runOn memory).timeline).getD (memory.read a) := by
  induction p generalizing memory with
  | done v => rfl
  | read b next ih => simp [runOn, ih]
  | write b v next ih =>
    rw [runOn, Outcome.state_after, Outcome.timeline_after, ih, lastWritten_append,
      lastWritten_write, Memory.bus_write, Memory.read_write]
    cases lastWritten a (next.runOn (memory.write b v)).timeline with
    | some w => rfl
    | none => by_cases h : b = a <;> simp [h]
  | idle next ih => simp [runOn, ih]

namespace Machine

theorem next_read (m : Machine Memory) (a : UInt16) :
    m.next.bus.read a = (lastWritten a m.step.timeline).getD (m.bus.read a) := by
  rw [next, step_eq_run]
  exact (CpuM.instruction.run m.cpu).runOn_read m.bus a

theorem stepped_read_history (m : Machine Memory) (n : ℕ) (a : UInt16) :
    (m.stepped n).bus.read a = (lastWritten a (m.history n)).getD (m.bus.read a) := by
  induction n with
  | zero => rfl
  | succ n ih =>
    rw [stepped_succ, next_read, ih, history_succ, lastWritten_append]
    cases lastWritten a (m.stepped n).step.timeline <;> rfl

theorem answer_read (m : Machine Memory) (r : Request) (a : UInt16) :
    (m.answer r).state.bus.read a =
      (lastWritten a (m.answer r).timeline).getD (m.bus.read a) := by
  obtain ⟨n, -, hs, ht | ht⟩ := m.exhausts_answer r
  · rw [hs, ht, stepped_read_history]
  · rw [hs, ht, stepped_read_history, lastWritten_append, fetch, lastWritten_read,
      lastWritten_nil, Option.none_or]

/-- Memories that agree on a set of cells agree on it as long as only these cells are read. -/
theorem agreement_simulation (agreed : UInt16 → Prop) :
    Simulation (fun c => ∀ a v, c = .read a v → agreed a)
      fun (b c : Memory) => ∀ a, agreed a → b.read a = c.read a where
  read := by
    intro b c a h hp
    exact h a (hp a _ rfl)
  write := by
    intro b c a v h _ x hx
    simp only [Memory.bus_write, Memory.read_write, h x hx]

/-- How a request is answered when the machine has another memory. -/
structure SameCourse (m : Machine Memory) (other : Memory) (r : Request) : Prop where
  value : ((⟨m.cpu, other⟩ : Machine Memory).answer r).value = (m.answer r).value
  cpu : ((⟨m.cpu, other⟩ : Machine Memory).answer r).state.cpu = (m.answer r).state.cpu
  /-- The same bytes cross the bus in the same order. -/
  timeline : ((⟨m.cpu, other⟩ : Machine Memory).answer r).timeline = (m.answer r).timeline
  cells : ∀ a, ((⟨m.cpu, other⟩ : Machine Memory).answer r).state.bus.read a =
    (lastWritten a (m.answer r).timeline).getD (other.read a)
  written : ∀ a, (m.answer r).state.bus.read a =
    (lastWritten a (m.answer r).timeline).getD (m.bus.read a)

/-- Only the cells that are read matter to a step or a run, be it one that fails. -/
theorem only_reads_matter (m : Machine Memory) (other : Memory) (r : Request)
    (hagree : ∀ a v, .read a v ∈ (m.answer r).timeline → m.bus.read a = other.read a) :
    SameCourse m other r := by
  have hrelated : Related
      (fun (b c : Memory) => ∀ a, m.bus.read a = other.read a → b.read a = c.read a)
      m ⟨m.cpu, other⟩ := ⟨rfl, fun _ h => h⟩
  obtain ⟨hv, ht, hcpu, -⟩ := hrelated.answer (agreement_simulation _) r <| by
    rintro x hx a v rfl
    exact hagree a v hx
  constructor
  · exact hv.symm
  · exact hcpu.symm
  · exact ht.symm
  · intro a
    rw [answer_read, ht]
  · exact m.answer_read r

/-- A load through a pointer and a store, amid cells that all hold the same byte. -/
def pointerCells (background : UInt8) (a : UInt16) : UInt8 :=
  if a = 0xC000 then 0xB1
  else if a = 0xC001 then 0x10
  else if a = 0xC002 then 0x85
  else if a = 0xC003 then 0x20
  else if a = 0x0010 then 0x00
  else if a = 0x0011 then 0x90
  else if a = 0x9001 then 0x55
  else background

def pointerLoad : Machine Memory where
  cpu := { Cpu.initial with pc := 0xC000, y := 1 }
  bus := .ofFn (pointerCells 0)

theorem onCells_pointerLoad : pointerLoad.onCells = ⟨pointerLoad.cpu, pointerCells 0⟩ := by
  have h : pointerLoad.bus.read = pointerCells 0 := funext (Memory.read_ofFn (pointerCells 0))
  rw [onCells, h]

theorem pointer_load_course :
    (pointerLoad.answer (.execute 6)).value = .ok 8 ∧
    (∀ a v, .read a v ∈ (pointerLoad.answer (.execute 6)).timeline →
      pointerLoad.bus.read a = (Memory.ofFn (pointerCells 0xFF)).read a) ∧
    SameCourse pointerLoad (.ofFn (pointerCells 0xFF)) (.execute 6) := by
  have hrun : pointerLoad.Completes 2 := by
    rw [completes_iff]
    intro k
    change k < 2 → (pointerLoad.stepped k).onCells.decoded.isSome
    rw [stepped_onCells, onCells_pointerLoad]
    revert k
    decide
  have hhistory : pointerLoad.history 2 =
      [.read 0xC000 0xB1, .read 0xC001 0x10, .read 0x0010 0x00, .read 0x0011 0x90,
        .read 0x9001 0x55, .read 0xC002 0x85, .read 0xC003 0x20, .write 0x0020 0x55] := by
    rw [history_onCells, onCells_pointerLoad]
    decide
  have hspent : pointerLoad.spent 2 = 8 := by rw [← length_history, hhistory]; rfl
  have hone : pointerLoad.spent 1 = 5 := by
    rw [← length_history, history_onCells, onCells_pointerLoad]
    decide
  have hn : pointerLoad.Exhausts (6 : Int32).toInt 2 :=
    .of_reached (by decide) hrun (by rw [hone]; decide) (by rw [hspent]; decide)
  have hexec := execute_of_reached hn (by rw [hspent]; decide)
  have hagree : ∀ a v, .read a v ∈ (pointerLoad.answer (.execute 6)).timeline →
      pointerLoad.bus.read a = (Memory.ofFn (pointerCells 0xFF)).read a := by
    intro a v hread
    rw [answer, hexec, hhistory] at hread
    rw [pointerLoad, Memory.read_ofFn, Memory.read_ofFn]
    simp only [List.mem_cons, Cycle.read.injEq, List.not_mem_nil, or_false, reduceCtorEq] at hread
    rcases hread with h | h | h | h | h | h | h
    all_goals
      rw [h.1]
      rfl
  refine ⟨?_, hagree, only_reads_matter pointerLoad _ (.execute 6) hagree⟩
  rw [answer, hexec, hspent]
  rfl

end Machine

end Mos6502
