import WordMachine.Alu
import WordMachine.Disassembly
import WordMachine.Main
import WordMachine.Tool.Scene
import WordMachine.Proofs.Masks
import WordMachine.Proofs.Codec
import WordMachine.Proofs.Checked
import WordMachine.Proofs.Operations
import WordMachine.Proofs.Tokens
import WordMachine.Proofs.Expansion
import WordMachine.Proofs.Rows
import WordMachine.Proofs.Lines
import WordMachine.Proofs.Passes
import WordMachine.Proofs.Addresses
import WordMachine.Proofs.Fidelity
import WordMachine.Proofs.Written
import WordMachine.Proofs.Reassembly
import WordMachine.Proofs.Brackets
import WordMachine.Proofs.Blocks
import WordMachine.Proofs.Failures
import WordMachine.Proofs.Execution
import WordMachine.Proofs.References
import WordMachine.Proofs.Convention
import WordMachine.Proofs.Pieces
import WordMachine.Proofs.CallLines
import WordMachine.Proofs.Calls
import WordMachine.Proofs.Tracking
import WordMachine.Proofs.Supervision
import WordMachine.Proofs.Requests
import WordMachine.Proofs.Exclusion
import WordMachine.Proofs.RunStates
import WordMachine.Proofs.Slots
import WordMachine.Proofs.Relocation
import WordMachine.Proofs.Spelling
import WordMachine.Proofs.ReadOnly
import WordMachine.Proofs.Images
import WordMachine.Proofs.Drift
import WordMachine.Proofs.Rebasing
import WordMachine.Proofs.Endless
import WordMachine.Proofs.Assignments
import WordMachine.Proofs.DirectAliases
import WordMachine.Proofs.Refusals
import WordMachine.Proofs.Windows
import WordMachine.Proofs.Numbering
import WordMachine.Proofs.Numerals
import WordMachine.Proofs.Selectors
import WordMachine.Proofs.Kept
import WordMachine.Proofs.Grammar
import WordMachine.Proofs.Comments
import WordMachine.Proofs.DataLines
import WordMachine.Proofs.Slices
import WordMachine.Proofs.Stacks
import WordMachine.Proofs.Suppression
import WordMachine.Proofs.RemoteControl
import WordMachine.Proofs.DoubleWidth
import WordMachine.Proofs.Quotients
import WordMachine.Proofs.Shifts
import WordMachine.Proofs.Listings
import WordMachine.Proofs.Loading
import WordMachine.Proofs.Room
import WordMachine.Proofs.Locations
import WordMachine.Proofs.Reports
import WordMachine.Proofs.Ledgers
import WordMachine.Proofs.Keepers
import WordMachine.Proofs.Places
import WordMachine.Proofs.Immediates
import WordMachine.Proofs.Offsets
import WordMachine.Proofs.Forms
