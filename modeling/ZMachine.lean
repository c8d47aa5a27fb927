import ZMachine.Device.Channel
import ZMachine.Device.Scripted
import ZMachine.Device.Terminal
import ZMachine.Main
import ZMachine.Memory.Cursor
import ZMachine.Proofs.Checks
import ZMachine.Proofs.Conduct
import ZMachine.Proofs.Faults
import ZMachine.Proofs.Memory
import ZMachine.Proofs.Activation
import ZMachine.Proofs.Transfer
import ZMachine.Proofs.Layout
import ZMachine.Proofs.Step
import ZMachine.Proofs.Outcome
import ZMachine.Proofs.CallReturn
import ZMachine.Proofs.Invariant
import ZMachine.Proofs.NextPc
import ZMachine.Proofs.AddressSpace
import ZMachine.Proofs.Safety
import ZMachine.Proofs.Encoding
import ZMachine.Proofs.Spelling
import ZMachine.Proofs.Forest
import ZMachine.Proofs.Agreement
import ZMachine.Proofs.Utf8
import ZMachine.Proofs.Message
import ZMachine.Proofs.Wire
import ZMachine.Proofs.Devices
import ZMachine.Proofs.StackRules
import ZMachine.Proofs.Restart
import ZMachine.Proofs.Lines
import ZMachine.Proofs.LineInput
import ZMachine.Proofs.Framing
import ZMachine.Proofs.Capture
import ZMachine.Proofs.Footprint
import ZMachine.Proofs.StepFaults
import ZMachine.Proofs.Relinking
import ZMachine.Proofs.Shifts
import ZMachine.Proofs.PlainText
import ZMachine.Proofs.Properties
import ZMachine.Proofs.PropertyUpdate
import ZMachine.Proofs.Lookup
import ZMachine.Proofs.Tokens
import ZMachine.Proofs.Variables
import ZMachine.Proofs.Operands
import ZMachine.Proofs.RoutineEntry
import ZMachine.Proofs.Branching
import ZMachine.Proofs.Attributes
import ZMachine.Proofs.Options
import ZMachine.Proofs.SettingsFile
import ZMachine.Proofs.Limits
import ZMachine.Proofs.ObjectCount
import ZMachine.Proofs.Arithmetic
import ZMachine.Proofs.Reseeding
import ZMachine.Proofs.TerminalOutput
import ZMachine.Proofs.ByteMap
