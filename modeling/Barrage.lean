import Barrage.Expr.Eval
import Barrage.Machine.Routine
import Barrage.Main
import Barrage.Proofs.Expr.OperandTypes
import Barrage.Proofs.Expr.WellTyped
import Barrage.Proofs.Expr.Slots
import Barrage.Proofs.Expr.TypeSoundness
import Barrage.Proofs.Expr.Nesting
import Barrage.Proofs.Expr.Names
import Barrage.Proofs.Expr.Renaming
import Barrage.Proofs.Expr.LinearRun
import Barrage.Proofs.Expr.Realizing
import Barrage.Proofs.Expr.Linearizing
import Barrage.Proofs.Expr.Flattening
import Barrage.Proofs.Chunk.Phrases
import Barrage.Proofs.Chunk.Reading
import Barrage.Proofs.Chunk.Lines
import Barrage.Proofs.Number.Words
import Barrage.Proofs.Text.Literals
import Barrage.Proofs.Chunk.Numerals
import Barrage.Proofs.Number.Rounding
import Barrage.Proofs.Number.Packing
import Barrage.Proofs.Number.Scientific
import Barrage.Proofs.Number.Shortest
import Barrage.Proofs.Chunk.Cutting
import Barrage.Proofs.Chunk.Functions
import Barrage.Proofs.Expr.Hoisting
import Barrage.Proofs.Expr.LinearTypes
import Barrage.Proofs.Chunk.Simplifying
import Barrage.Proofs.Chunk.UnitLines
import Barrage.Proofs.Chunk.Running
import Barrage.Proofs.Chunk.Serving
import Barrage.Proofs.Expr.FittingEnvironments
import Barrage.Proofs.Expr.FloatComparisons
import Barrage.Proofs.Expr.SourceNames
import Barrage.Proofs.Chunk.RefusedNames
import Barrage.Proofs.Chunk.Evaluating
import Barrage.Proofs.Chunk.UnitRuns
import Barrage.Proofs.Bake.UnitCalls
import Barrage.Proofs.Bake.Loading
import Barrage.Proofs.Bake.Sessions
import Barrage.Proofs.Bake.RecordedSources
import Barrage.Proofs.Bake.RoundTrip
import Barrage.Proofs.Pattern.Places
import Barrage.Proofs.Pattern.Replay
import Barrage.Proofs.Bake.TextReplay
import Barrage.Proofs.Bake.ReadObjects
import Barrage.Proofs.Bake.Histories
import Barrage.Proofs.Pattern.Compiling
import Barrage.Proofs.Pattern.FailedCalls
import Barrage.Proofs.Expr.Sizes
import Barrage.Proofs.Bake.Exporting
import Barrage.Proofs.Source.Surfaces
import Barrage.Proofs.Source.Cutting
import Barrage.Proofs.Source.Reading
import Barrage.Proofs.Chunk.UnitLevels
import Barrage.Proofs.Bake.TextLoading
import Barrage.Proofs.Machine.Watching
import Barrage.Proofs.Machine.Rounds
import Barrage.Proofs.Machine.Turns
import Barrage.Proofs.Machine.Frames
import Barrage.Proofs.Machine.PhaseRuns
import Barrage.Proofs.Machine.Containment
import Barrage.Proofs.Machine.Courses
import Barrage.Proofs.Machine.PlainTurns
import Barrage.Proofs.Machine.Timelines
import Barrage.Proofs.Machine.Joins
import Barrage.Proofs.Machine.Bystanders
import Barrage.Proofs.Machine.Cuts
import Barrage.Proofs.Machine.Surroundings
import Barrage.Proofs.Machine.Entrances
import Barrage.Proofs.Machine.PhaseTurns
import Barrage.Proofs.Machine.PhaseFrames
import Barrage.Proofs.Machine.PhaseEnds
import Barrage.Proofs.Machine.Waypoints
import Barrage.Proofs.Machine.Company
import Barrage.Proofs.Machine.Journeys
import Barrage.Proofs.Machine.PhaseBooks
import Barrage.Proofs.Machine.PhaseBlocks
import Barrage.Proofs.Machine.PhaseWalks
import Barrage.Proofs.Chunk.KeptEntities
import Barrage.Proofs.Expr.FlatForms
import Barrage.Proofs.Expr.LiftRules
import Barrage.Proofs.Expr.LinearForms
import Barrage.Proofs.Chunk.UnitNames
import Barrage.Proofs.Expr.LinearSizes
import Barrage.Proofs.Expr.Restoring
import Barrage.Proofs.Expr.Scoping
import Barrage.Proofs.Bake.Positions
import Barrage.Proofs.Machine.Polling
import Barrage.Proofs.Bake.Layout
import Barrage.Proofs.Chunk.LegibleUnits
import Barrage.Proofs.Bake.ServedSessions
import Barrage.Proofs.Chunk.KeyLiterals
import Barrage.Proofs.Bake.AskedObjects
import Barrage.Proofs.Bake.OpenedArtifacts
import Barrage.Proofs.Text.Positions
import Barrage.Proofs.Expr.ByteScanning
import Barrage.Proofs.Expr.CursorWalks
import Barrage.Proofs.Expr.CursorReading
import Barrage.Proofs.Machine.PhaseTimers
import Barrage.Proofs.Machine.TimedTurns
import Barrage.Proofs.Machine.TimedFrames
import Barrage.Proofs.Project.LoadedScripts
import Barrage.Proofs.Project.Plays
import Barrage.Proofs.Machine.Following
import Barrage.Proofs.Machine.Waits
import Barrage.Proofs.Machine.Waiters
import Barrage.Proofs.Machine.Resolutions
import Barrage.Proofs.Expr.CoveredHosts
import Barrage.Proofs.Bake.ServedCalls
import Barrage.Proofs.Machine.Abreast
import Barrage.Proofs.Machine.TwinFrames
import Barrage.Proofs.Pattern.TwinLeaves
import Barrage.Proofs.Disk.SparedFiles
import Barrage.Proofs.Pattern.TwinPatterns
import Barrage.Proofs.Project.ServedRuns
