import BlockStage.CommandLine.Arguments
import BlockStage.CommandLine.Run
import BlockStage.Decimal.Notation
import BlockStage.Decimal.Reader
import BlockStage.Decimal.Shortest
import BlockStage.Dict
import BlockStage.Digest.Sha256
import BlockStage.Engine.Basic
import BlockStage.Engine.Step
import BlockStage.Engine.Thread
import BlockStage.Engine.Tick
import BlockStage.Evaluation
import BlockStage.Host.Basic
import BlockStage.Host.Path
import BlockStage.Host.World
import BlockStage.Json.Basic
import BlockStage.Json.Decoder
import BlockStage.Json.Document
import BlockStage.Json.Printer
import BlockStage.Lint
import BlockStage.Lint.Finding
import BlockStage.Lint.LoopControl
import BlockStage.Lint.UnhandledBroadcast
import BlockStage.Lint.Unreachable
import BlockStage.Lint.UnsetVariable
import BlockStage.LogBuffer
import BlockStage.Main
import BlockStage.Program.Basic
import BlockStage.Program.Json
import BlockStage.Project.Envelope
import BlockStage.Project.Store
import BlockStage.Proofs.BroadcastWait
import BlockStage.Proofs.Budget
import BlockStage.Proofs.Chronicle
import BlockStage.Proofs.ContentHashes
import BlockStage.Proofs.ControlStack
import BlockStage.Proofs.Course
import BlockStage.Proofs.Decimal.Rounding
import BlockStage.Proofs.Decimal.Shape
import BlockStage.Proofs.Decimal.Shortest
import BlockStage.Proofs.Decimal.Sign
import BlockStage.Proofs.Decimal.Whole
import BlockStage.Proofs.Dict
import BlockStage.Proofs.Digits
import BlockStage.Proofs.Drive
import BlockStage.Proofs.Files
import BlockStage.Proofs.Finiteness
import BlockStage.Proofs.Identifiers
import BlockStage.Proofs.Independence.Motion
import BlockStage.Proofs.Independence.Schedule
import BlockStage.Proofs.Independence.Solo
import BlockStage.Proofs.Independence.Tracking
import BlockStage.Proofs.Isolation
import BlockStage.Proofs.Json.Agreement
import BlockStage.Proofs.Json.Numbers
import BlockStage.Proofs.Json.Reordering
import BlockStage.Proofs.Json.Text
import BlockStage.Proofs.Json.Values
import BlockStage.Proofs.Lifecycle
import BlockStage.Proofs.Lockstep
import BlockStage.Proofs.LoopControl
import BlockStage.Proofs.Observation
import BlockStage.Proofs.Passes
import BlockStage.Proofs.Places
import BlockStage.Proofs.Polling
import BlockStage.Proofs.Program.Exchange
import BlockStage.Proofs.Program.Literals
import BlockStage.Proofs.Program.Texts
import BlockStage.Proofs.ReadEquivalence
import BlockStage.Proofs.Replacement
import BlockStage.Proofs.RoundRobin
import BlockStage.Proofs.Run
import BlockStage.Proofs.RunawayGuard
import BlockStage.Proofs.SavedProjects
import BlockStage.Proofs.Step
import BlockStage.Proofs.Structured.Fiber
import BlockStage.Proofs.Structured.Lone
import BlockStage.Proofs.Structured.Refinement
import BlockStage.Proofs.Structured.Semantics
import BlockStage.Proofs.Structured.Simulation
import BlockStage.Proofs.Termination
import BlockStage.Proofs.Ticks
import BlockStage.Proofs.TimedActions
import BlockStage.Proofs.Timestamp
import BlockStage.Proofs.Unreachable
import BlockStage.Proofs.UnsetVariable
import BlockStage.Proofs.Variables
import BlockStage.Proofs.Waiting
import BlockStage.Proofs.WaitingOperations
import BlockStage.Proofs.Workspace.Duplicates
import BlockStage.Proofs.Workspace.EntryPoints
import BlockStage.Proofs.Workspace.Flattening
import BlockStage.Proofs.Workspace.Forest
import BlockStage.Proofs.Workspace.Height
import BlockStage.Proofs.Workspace.Identifiers
import BlockStage.Proofs.Workspace.Order
import BlockStage.Proofs.Workspace.Output
import BlockStage.Proofs.Workspace.Reading
import BlockStage.Proofs.Workspace.Roots
import BlockStage.Session.Basic
import BlockStage.Session.Drive
import BlockStage.Session.Request
import BlockStage.Settings.Basic
import BlockStage.Settings.Convert
import BlockStage.Settings.EnvFile
import BlockStage.Settings.Layer
import BlockStage.Settings.Load
import BlockStage.Settings.Printer
import BlockStage.Settings.Variables
import BlockStage.Sprite
import BlockStage.Text.Alphanumeric
import BlockStage.Text.Blank
import BlockStage.Text.Case
import BlockStage.Text.Digit
import BlockStage.Text.Hex
import BlockStage.Time
import BlockStage.Timestamp
import BlockStage.Toml.Basic
import BlockStage.Toml.Printer
import BlockStage.Toml.Reader
import BlockStage.Toml.Scalar
import BlockStage.Word
import BlockStage.Workspace.Block
import BlockStage.Workspace.Compile
import BlockStage.Workspace.Graph
