import Mos6502.Proofs.Counter
import Mos6502.Proofs.Loading
/-!
Fetching. Fetches of bytes and words, in whatever order, take the cells at the program counter one
after the other: put together again, what they answer is what memory holds there. So after a load
at the program counter they give the loaded bytes back, also across the end of memory.
-/

namespace Mos6502

inductive Fetch where
  | byte
  | word
  deriving DecidableEq, Repr

inductive Fetched where
  | byte (v : UInt8)
  | word (w : UInt16)
  deriving DecidableEq, Repr

namespace Fetched

def kind : Fetched → Fetch
  | byte _ => .byte
  | word _ => .word

def bytes : Fetched → List UInt8
  | byte v => [v]
  | word w => [Word.low w, Word.high w]

end Fetched

namespace Fetch

/-- The number of bytes that a fetch takes. -/
def size : Fetch → ℕ
  | byte => 1
  | word => 2

def program : Fetch → CpuM Fetched
  | byte => Fetched.byte <$> CpuM.fetchByte
  | word => Fetched.word <$> CpuM.fetchWord

def total (fetches : List Fetch) : ℕ := (fetches.map size).sum

/-- Fetches one after the other, with all their answers. -/
def inTurn (fetches : List Fetch) : CpuM (List Fetched) := fetches.mapM program

theorem total_cons (f : Fetch) (fetches : List Fetch) :
    total (f :: fetches) = f.size + total fetches := by
  rw [total, List.map_cons, List.sum_cons, total]

end Fetch

theorem Fetched.length_bytes (v : Fetched) : v.bytes.length = v.kind.size := by
  cases v <;> rfl

theorem Fetched.length_flatMap_bytes (answers : List Fetched) :
    (answers.flatMap Fetched.bytes).length = Fetch.total (answers.map Fetched.kind) := by
  induction answers with
  | nil => rfl
  | cons v answers ih =>
    rw [List.flatMap_cons, List.length_append, v.length_bytes, ih, List.map_cons, Fetch.total_cons]

namespace Machine

/-- What running `fetches` has come to: the answers put together are what the cells at the program
counter hold, each fetched byte has cost one cycle, and the program counter is behind them. -/
structure FetchesHeld (m : Machine Memory) (fetches : List Fetch)
    (o : Outcome (Machine Memory) (List Fetched)) : Prop where
  kinds : o.value.map Fetched.kind = fetches
  held : m.bus.Holds m.cpu.pc (o.value.flatMap Fetched.bytes)
  state : o.state = m.skip (.ofNat (Fetch.total fetches))
  cost : o.cost = Fetch.total fetches

theorem run_fetch (m : Machine Memory) (f : Fetch) :
    ∃ v, v.kind = f ∧ m.bus.Holds m.cpu.pc v.bytes ∧
      (m.run f.program).value = v ∧ (m.run f.program).state = m.skip (.ofNat f.size) ∧
      (m.run f.program).cost = f.size := by
  have hstart : m.run f.program = (m.skip 0).run f.program := by simp [skip]
  rw [hstart]
  cases f with
  | byte =>
    refine ⟨.byte (m.byteAt 0), rfl, ⟨?_, trivial⟩, ?_⟩
    · simp [byteAt]
    · simp [Fetch.program, run_map, run_fetchByte, Fetch.size, Outcome.cost]
  | word =>
    refine ⟨.word (Word.ofBytes (m.byteAt 0) (m.byteAt 1)), rfl, ?_, ?_⟩
    · simp [Fetched.bytes, Memory.Holds, byteAt]
    · simp [Fetch.program, CpuM.fetchWord, run_map, run_bind, run_fetchByte, Fetch.size,
        Outcome.cost, Outcome.after]

theorem run_inTurn (m : Machine Memory) (fetches : List Fetch) :
    m.FetchesHeld fetches (m.run (Fetch.inTurn fetches)) := by
  induction fetches generalizing m with
  | nil =>
    constructor
    · rfl
    · trivial
    · simp [Fetch.inTurn, Fetch.total, skip]
    · rfl
  | cons f fetches ih =>
    obtain ⟨v, hkind, hheld, hvalue, hstate, hcost⟩ := m.run_fetch f
    have hrest := ih (m.skip (.ofNat f.size))
    generalize ho : (m.skip (.ofNat f.size)).run (Fetch.inTurn fetches) = rest at hrest
    have hrun : m.run (Fetch.inTurn (f :: fetches)) =
        ⟨v :: rest.value, rest.state, (m.run f.program).timeline ++ rest.timeline⟩ := by
      rw [Fetch.inTurn, List.mapM_cons, run_bind, hstate, hvalue, run_bind, ← Fetch.inTurn, ho]
      simp [Outcome.after]
    rw [hrun]
    constructor
    · rw [List.map_cons, hkind, hrest.kinds]
    · rw [List.flatMap_cons, Memory.holds_append, v.length_bytes, hkind]
      exact ⟨hheld, hrest.held⟩
    · rw [hrest.state, skip_skip, Fetch.total_cons, UInt16.ofNat_add]
    · rw [Fetch.total_cons, ← hcost, ← hrest.cost]
      exact List.length_append

/-- The machine with bytes loaded where it fetches next. -/
def loadAhead (m : Machine Memory) (bytes : List UInt8) : Machine Memory :=
  { m with bus := m.bus.load m.cpu.pc bytes }

/-- What comes of fetches that take as many bytes as have been loaded ahead of them, on a counter
that starts at `c`. -/
structure FetchesLoaded (m : Machine Memory) (bytes : List UInt8) (fetches : List Fetch) (c : Int32)
    (answers : List Fetched) (d : Counter) (last : Machine Memory) : Prop where
  run : (m.loadAhead bytes).countdown (Fetch.inTurn fetches) (.start c) = some (answers, d, last)
  kinds : answers.map Fetched.kind = fetches
  /-- The answers are the bytes in order, those of a word with the low one first. -/
  answered : answers.flatMap Fetched.bytes = bytes
  counter : d.value.toInt = c.toInt - bytes.length
  cpu : last.cpu = { m.cpu with pc := last.cpu.pc }
  pc : last.cpu.pc.toNat = (m.cpu.pc.toNat + bytes.length) % Memory.size
  /-- As many bytes as there are cells bring the program counter back. -/
  round : bytes.length = Memory.size → last.cpu = m.cpu
  memory : last.bus = (m.loadAhead bytes).bus

theorem fetches_undo_load (m : Machine Memory) (bytes : List UInt8) (fetches : List Fetch)
    (c : Int32) (hsize : bytes.length ≤ Memory.size) (htotal : Fetch.total fetches = bytes.length)
    (hrange : -2 ^ 31 ≤ c.toInt - bytes.length) :
    ∃ answers d last, FetchesLoaded m bytes fetches c answers d last := by
  have hfetched := (m.loadAhead bytes).run_inTurn fetches
  generalize ho : (m.loadAhead bytes).run (Fetch.inTurn fetches) = o at hfetched
  obtain ⟨hkinds, hheld, hstate, hcost⟩ := hfetched
  rw [htotal] at hstate hcost
  have hleft : o.left c.toInt = c.toInt - bytes.length := by rw [Outcome.left, hcost]
  obtain ⟨d, hrun, hcounter⟩ : ∃ d, (m.loadAhead bytes).countdown (Fetch.inTurn fetches)
      (.start c) = some (o.value, d, o.state) ∧ d.value.toInt = c.toInt - bytes.length := by
    rw [countdown_iff, ho]
    exact ⟨rfl, rfl, hleft, hrange⟩
  refine ⟨o.value, d, o.state, hrun, hkinds, ?_, hcounter, ?_, ?_, ?_, ?_⟩
  · -- the cells hold the answers and hold what was loaded, and these are equally many bytes
    apply hheld.unique (m.bus.holds_load m.cpu.pc hsize)
    rw [Fetched.length_flatMap_bytes, hkinds, htotal]
  · rw [hstate]
    rfl
  · rw [hstate]
    simp [loadAhead, Memory.size]
  · intro hn
    rw [hstate, hn]
    simp [loadAhead, Memory.size]
  · rw [hstate]
    rfl

/-- A place for a byte and a word across the end of memory. -/
def besideTheEnd : Machine Memory := ⟨{ Cpu.initial with pc := 0xFFFE }, .zero⟩

def threeBytes : List UInt8 := [0x12, 0x34, 0x56]

/-- The counter has no cycle to spare. -/
theorem byte_and_wrapped_word :
    threeBytes.length ≤ Memory.size ∧ Fetch.total [.byte, .word] = threeBytes.length ∧
    -2 ^ 31 ≤ (-2147483645 : Int32).toInt - threeBytes.length ∧
    ∃ d last, FetchesLoaded besideTheEnd threeBytes [.byte, .word] (-2147483645)
        [.byte 0x12, .word 0x5634] d last ∧
      d.value = .minValue ∧ last.cpu.pc = 1 := by
  have hsize : threeBytes.length ≤ Memory.size := by decide
  have htotal : Fetch.total [.byte, .word] = threeBytes.length := rfl
  have hrange : -2 ^ 31 ≤ (-2147483645 : Int32).toInt - threeBytes.length := by decide
  obtain ⟨answers, d, last, h⟩ :=
    fetches_undo_load besideTheEnd threeBytes [.byte, .word] (-2147483645) hsize htotal hrange
  have hanswers : answers = [.byte 0x12, .word 0x5634] := by
    match answers, h.kinds, h.answered with
    | [.byte v, .word w], _, hbytes =>
      obtain ⟨rfl, hlow, hhigh⟩ : v = 0x12 ∧ Word.low w = 0x34 ∧ Word.high w = 0x56 := by
        simpa [Fetched.bytes, threeBytes] using hbytes
      rw [← Word.ofBytes_low_high w, hlow, hhigh]
      rfl
  rw [hanswers] at h
  refine ⟨hsize, htotal, hrange, d, last, h, ?_, ?_⟩
  · apply Int32.toInt_inj.mp
    rw [h.counter]
    decide
  · apply UInt16.toNat_inj.mp
    rw [h.pc]
    decide

end Machine

end Mos6502
