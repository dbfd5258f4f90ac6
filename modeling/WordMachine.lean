import WordMachine.Main
import WordMachine.Proofs.Arithmetic
import WordMachine.Proofs.Attribution
import WordMachine.Proofs.BufferMachines
import WordMachine.Proofs.Confinement
import WordMachine.Proofs.Control
import WordMachine.Proofs.Drawing
import WordMachine.Proofs.FirstFaults
import WordMachine.Proofs.Framing
import WordMachine.Proofs.FreshStarts
import WordMachine.Proofs.Headers
import WordMachine.Proofs.Hosts
import WordMachine.Proofs.ImageTable
import WordMachine.Proofs.Isolation
import WordMachine.Proofs.Layout
import WordMachine.Proofs.LimitedOutput
import WordMachine.Proofs.NumberWords
import WordMachine.Proofs.Progress
import WordMachine.Proofs.QuotedText
import WordMachine.Proofs.Reassembly
import WordMachine.Proofs.Requests
import WordMachine.Proofs.Residence
import WordMachine.Proofs.Resolution
import WordMachine.Proofs.Restyling
import WordMachine.Proofs.Routing
import WordMachine.Proofs.RunCommand
import WordMachine.Proofs.Sessions
import WordMachine.Proofs.StepEffects
import WordMachine.Proofs.Streams
import WordMachine.Proofs.Transfers
