import ObjectMachine.Bytes.LittleEndian
import ObjectMachine.Bytes.Cursor
import ObjectMachine.Bytes.Write
import ObjectMachine.Code.Opcode
import ObjectMachine.Decimal.Shortest
import ObjectMachine.Decimal.Arithmetic
import ObjectMachine.Decimal.Reader
import ObjectMachine.Text.Blank
import ObjectMachine.Text.Quoted
import ObjectMachine.Code.Instruction
import ObjectMachine.Code.Assembly
import ObjectMachine.Code.Layout
import ObjectMachine.Compiled.Draft
import ObjectMachine.Compiled.Verify
import ObjectMachine.Compiled.Shrink
import ObjectMachine.Value.Conversion
import ObjectMachine.Value.Number
import ObjectMachine.Class.Catalog
import ObjectMachine.Native.Console
import ObjectMachine.Machine.Scheduler
import ObjectMachine.Program.Linker
import ObjectMachine.Program.Loader
import ObjectMachine.Machine.Store
import ObjectMachine.Machine.Operands
import ObjectMachine.Machine.Arrays
import ObjectMachine.Machine.Exits
import ObjectMachine.Machine.Calls
import ObjectMachine.Machine.Threads
import ObjectMachine.Machine.Engine
import ObjectMachine.Report.Metadata
import ObjectMachine.Report.Program
import ObjectMachine.Command.Path
import ObjectMachine.Command.Host
import ObjectMachine.Command.Folder
import ObjectMachine.Command.Problem
import ObjectMachine.Command.Options
import ObjectMachine.Command.Request
import ObjectMachine.Command.Style
import ObjectMachine.Command.Modules
import ObjectMachine.Command.Session
import ObjectMachine.Main
import ObjectMachine.Proofs.Code.Encoding
import ObjectMachine.Proofs.Bytes.Codec
import ObjectMachine.Proofs.Code.Stream
import ObjectMachine.Proofs.Code.Layout
import ObjectMachine.Proofs.Code.Shrink
import ObjectMachine.Proofs.Coupled
import ObjectMachine.Proofs.Machine.Coupling
import ObjectMachine.Proofs.Machine.Blind
import ObjectMachine.Proofs.Machine.Registers
import ObjectMachine.Proofs.Machine.Moves
import ObjectMachine.Proofs.Machine.Clocks
import ObjectMachine.Proofs.Machine.Forks
import ObjectMachine.Proofs.Machine.Reachable
import ObjectMachine.Proofs.Results
import ObjectMachine.Proofs.Machine.Returns
import ObjectMachine.Proofs.Machine.Branches
import ObjectMachine.Proofs.Machine.Lockstep
import ObjectMachine.Proofs.Machine.Runs
import ObjectMachine.Proofs.Program.Similar
import ObjectMachine.Proofs.Code.Closed
import ObjectMachine.Proofs.Program.Checked
import ObjectMachine.Proofs.Program.Shrinking
import ObjectMachine.Proofs.Program.Optimized
import ObjectMachine.Proofs.Upheld
import ObjectMachine.Proofs.Machine.Faults
import ObjectMachine.Proofs.Machine.Endings
import ObjectMachine.Proofs.Machine.Frames
import ObjectMachine.Proofs.Machine.Records
import ObjectMachine.Proofs.Machine.Regions
import ObjectMachine.Proofs.Program.Linked
import ObjectMachine.Proofs.Program.Grid
import ObjectMachine.Proofs.Program.Sections
import ObjectMachine.Proofs.Program.References
import ObjectMachine.Proofs.Program.Joined
import ObjectMachine.Proofs.Machine.Activations
import ObjectMachine.Proofs.Machine.Stacks
import ObjectMachine.Proofs.Machine.Calls
import ObjectMachine.Proofs.Machine.Courses
import ObjectMachine.Proofs.Machine.Throws
import ObjectMachine.Proofs.Machine.Conventions
import ObjectMachine.Proofs.Machine.Deferrals
import ObjectMachine.Proofs.Compiled.Members
import ObjectMachine.Proofs.Compiled.Grammar
import ObjectMachine.Proofs.Machine.Ordinary
import ObjectMachine.Proofs.Machine.Disregards
import ObjectMachine.Proofs.Machine.Decisions
import ObjectMachine.Proofs.Machine.Moments
import ObjectMachine.Proofs.Machine.Monitors
import ObjectMachine.Proofs.Machine.Isolation
import ObjectMachine.Proofs.Machine.Requests
import ObjectMachine.Proofs.Machine.Joins
import ObjectMachine.Proofs.Machine.Ticks
import ObjectMachine.Proofs.Machine.Choices
import ObjectMachine.Proofs.Machine.Turns
import ObjectMachine.Proofs.Machine.Interleavings
import ObjectMachine.Proofs.Machine.Sleeps
import ObjectMachine.Proofs.Compiled.RoundTrip
import ObjectMachine.Proofs.Program.Declarations
import ObjectMachine.Proofs.Program.Slots
import ObjectMachine.Proofs.Program.Fresh
import ObjectMachine.Proofs.Machine.Origins
import ObjectMachine.Proofs.Machine.Integrity
import ObjectMachine.Proofs.Machine.Loading
import ObjectMachine.Proofs.Machine.Initializers
import ObjectMachine.Proofs.Program.Symbols
import ObjectMachine.Proofs.Machine.Recast
import ObjectMachine.Proofs.Machine.Visits
import ObjectMachine.Proofs.Machine.Invocations
import ObjectMachine.Proofs.Program.Entry
import ObjectMachine.Proofs.Machine.Entrance
import ObjectMachine.Proofs.Machine.Outcomes
import ObjectMachine.Proofs.Code.Settled
import ObjectMachine.Proofs.Code.Greatest
import ObjectMachine.Proofs.Code.Append
import ObjectMachine.Proofs.Compiled.Relocated
import ObjectMachine.Proofs.Compiled.Shrunk
import ObjectMachine.Proofs.Program.Preshrunk
import ObjectMachine.Proofs.Code.Labels
import ObjectMachine.Proofs.Compiled.Built
import ObjectMachine.Proofs.Program.Discovery
import ObjectMachine.Proofs.Program.Inheritance
import ObjectMachine.Proofs.Program.Flattening
import ObjectMachine.Proofs.Program.Numbering
import ObjectMachine.Proofs.Program.Placement
import ObjectMachine.Proofs.Machine.Cells
import ObjectMachine.Proofs.Program.Carried
import ObjectMachine.Proofs.Code.Cases
import ObjectMachine.Proofs.Machine.Passages
import ObjectMachine.Proofs.Machine.Switches
import ObjectMachine.Proofs.Program.Names
import ObjectMachine.Proofs.Program.Registration
import ObjectMachine.Proofs.Value.Order
import ObjectMachine.Proofs.Machine.Comparisons
import ObjectMachine.Proofs.Compiled.Framing
import ObjectMachine.Proofs.Machine.Conversions
import ObjectMachine.Proofs.Machine.Limits
import ObjectMachine.Proofs.Program.Ancestry
