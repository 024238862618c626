import Mos6502.Emulator
import Mos6502.Memory.Rom
import Mos6502.Proofs.Addressing
import Mos6502.Proofs.Effect
import Mos6502.Proofs.Timing
import Mos6502.Proofs.Run
import Mos6502.Proofs.Counter
import Mos6502.Proofs.Budget
import Mos6502.Proofs.Calls
import Mos6502.Proofs.Simulation
import Mos6502.Proofs.Slices
import Mos6502.Proofs.Session
import Mos6502.Proofs.Traffic
import Mos6502.Proofs.StraightLine
import Mos6502.Proofs.Accounting
import Mos6502.Proofs.WriteFootprint
import Mos6502.Proofs.ReadOnly
import Mos6502.Proofs.ReadFootprint
import Mos6502.Proofs.DataMovement
import Mos6502.Proofs.FlagIndependence
import Mos6502.Proofs.Host
import Mos6502.Proofs.Loading
import Mos6502.Proofs.Restore
import Mos6502.Proofs.Transfer
import Mos6502.Proofs.Subroutine
import Mos6502.Proofs.ReadBack
import Mos6502.Proofs.Fetching
import Mos6502.Proofs.DumpLines
import Mos6502.Proofs.DumpReading
import Mos6502.Proofs.DumpPages
import Mos6502.Proofs.NonzeroCells
import Mos6502.Proofs.WordAccess
import Mos6502.Proofs.FaultMessages
