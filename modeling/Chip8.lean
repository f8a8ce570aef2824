import Chip8.Components.Display
import Chip8.Components.Keypad
import Chip8.Components.Memory
import Chip8.Components.Registers
import Chip8.Components.Stack
import Chip8.Components.Timers
import Chip8.Execution.Machine
import Chip8.Instruction.Decode
import Chip8.Link
import Chip8.Random.Generator
import Chip8.Session
import Chip8.Move
import Chip8.Proofs.Cycle
import Chip8.Proofs.Encoding
import Chip8.Proofs.Refusal
import Chip8.Bare.Execution
import Chip8.Proofs.Bounds
import Chip8.Proofs.Embedding.Moves
import Chip8.Proofs.Failure
import Chip8.Proofs.Safety
import Chip8.Proofs.KeyWait
import Chip8.Proofs.Redraw
import Chip8.Proofs.Lines
import Chip8.Proofs.Links
import Chip8.Proofs.KeyDelivery
import Chip8.Proofs.Commands
import Chip8.Proofs.Brackets
import Chip8.Proofs.CallStack
import Chip8.Proofs.Picture
import Chip8.Proofs.Unread
import Chip8.Proofs.Pacing
import Chip8.Proofs.Countdown
import Chip8.Proofs.Strictness
import Chip8.Proofs.Observation
import Chip8.Proofs.RandomBytes
import Chip8.Proofs.Seeds
import Chip8.Proofs.Postings
import Chip8.Proofs.SnapshotDelivery
import Chip8.Proofs.Sprites
import Chip8.Proofs.MemoryUse
import Chip8.Proofs.UnreadBytes
import Chip8.Proofs.StoredBytes
import Chip8.Proofs.SharedRedraw
import Chip8.Proofs.LitPixels
import Chip8.Proofs.Drawings
import Chip8.Proofs.Arithmetic
import Chip8.Proofs.Footprint
import Chip8.Proofs.Successors
import Chip8.Proofs.Dividers
import Chip8.Proofs.Log
import Chip8.Proofs.LastWrites
