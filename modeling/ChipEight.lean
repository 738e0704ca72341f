import ChipEight.Main
import ChipEight.Proofs.Agreement
import ChipEight.Proofs.Atomicity
import ChipEight.Proofs.Outcome
import ChipEight.Proofs.Moves
import ChipEight.Proofs.WellFormed
import ChipEight.Proofs.Subroutines
import ChipEight.Proofs.DecodeTable
import ChipEight.Proofs.FaultTable
import ChipEight.Proofs.ProgramCounter
import ChipEight.Proofs.Superposition
import ChipEight.Proofs.Mirror
import ChipEight.Proofs.Drive
import ChipEight.Proofs.Performed
import ChipEight.Proofs.Redraw
import ChipEight.Proofs.Overlay
import ChipEight.Proofs.Footprint
import ChipEight.Proofs.Chance
import ChipEight.Proofs.WriteSet
import ChipEight.Proofs.Timers
import ChipEight.Proofs.Restart
import ChipEight.Proofs.StraightLine
import ChipEight.Proofs.Ending
import ChipEight.Proofs.Admission
import ChipEight.Proofs.RunLog
import ChipEight.Proofs.KeySkips
import ChipEight.Proofs.BytewiseReads
import ChipEight.Proofs.UnseenKeys
import ChipEight.Proofs.Drawing
import ChipEight.Proofs.HeldKeys
import ChipEight.Proofs.Carries
import ChipEight.Proofs.Columns
import ChipEight.Proofs.FaithfulText
import ChipEight.Proofs.Disassembly
import ChipEight.Proofs.TraceLine
import ChipEight.Proofs.FaultMessage
import ChipEight.Proofs.SpelledOptions
