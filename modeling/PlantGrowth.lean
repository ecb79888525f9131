import PlantGrowth.Chance.Source
import PlantGrowth.Chance.Stream
import PlantGrowth.Colour.Palette
import PlantGrowth.Colour.Rgba
import PlantGrowth.CommandLine
import PlantGrowth.Compaction
import PlantGrowth.ConfigError
import PlantGrowth.Decimal.Shortest
import PlantGrowth.Decimal.Text
import PlantGrowth.Expansion
import PlantGrowth.Fault
import PlantGrowth.Grammar.Letter
import PlantGrowth.Grammar.Rules
import PlantGrowth.Growth
import PlantGrowth.Journal
import PlantGrowth.Json.Document
import PlantGrowth.Json.Error
import PlantGrowth.Json.Lexical
import PlantGrowth.Json.Record
import PlantGrowth.Json.Skip
import PlantGrowth.Main
import PlantGrowth.Mesh
import PlantGrowth.Node
import PlantGrowth.Params
import PlantGrowth.Plant
import PlantGrowth.Proofs.Ages
import PlantGrowth.Proofs.Attachment
import PlantGrowth.Proofs.Binary32
import PlantGrowth.Proofs.Binary64
import PlantGrowth.Proofs.BracketCounts
import PlantGrowth.Proofs.Budget
import PlantGrowth.Proofs.Compaction
import PlantGrowth.Proofs.Cosmetics
import PlantGrowth.Proofs.Counters
import PlantGrowth.Proofs.Depths
import PlantGrowth.Proofs.Descriptions
import PlantGrowth.Proofs.Drawing
import PlantGrowth.Proofs.Draws
import PlantGrowth.Proofs.ExactValue
import PlantGrowth.Proofs.Extension
import PlantGrowth.Proofs.Failures
import PlantGrowth.Proofs.Fans
import PlantGrowth.Proofs.Faultless
import PlantGrowth.Proofs.FinalFrame
import PlantGrowth.Proofs.Frame
import PlantGrowth.Proofs.Gamut
import PlantGrowth.Proofs.Groups
import PlantGrowth.Proofs.GrowthFront
import PlantGrowth.Proofs.Handles
import PlantGrowth.Proofs.Identities
import PlantGrowth.Proofs.Idleness
import PlantGrowth.Proofs.InStep
import PlantGrowth.Proofs.Increments
import PlantGrowth.Proofs.Interleaving
import PlantGrowth.Proofs.JitterBounds
import PlantGrowth.Proofs.JointCount
import PlantGrowth.Proofs.JsonNumbers
import PlantGrowth.Proofs.JsonRecords
import PlantGrowth.Proofs.JsonValues
import PlantGrowth.Proofs.Kinds
import PlantGrowth.Proofs.LatticeNoise
import PlantGrowth.Proofs.Lengths
import PlantGrowth.Proofs.Likeness
import PlantGrowth.Proofs.Lockstep
import PlantGrowth.Proofs.Matching
import PlantGrowth.Proofs.Memoryless
import PlantGrowth.Proofs.Nesting
import PlantGrowth.Proofs.Numbering
import PlantGrowth.Proofs.Outcome
import PlantGrowth.Proofs.Parentage
import PlantGrowth.Proofs.Passes
import PlantGrowth.Proofs.Progress
import PlantGrowth.Proofs.Raising
import PlantGrowth.Proofs.Reachable
import PlantGrowth.Proofs.ReadBack
import PlantGrowth.Proofs.Recompaction
import PlantGrowth.Proofs.Register
import PlantGrowth.Proofs.Regrowth
import PlantGrowth.Proofs.Relocation
import PlantGrowth.Proofs.Replacement
import PlantGrowth.Proofs.Rooted
import PlantGrowth.Proofs.Rounding
import PlantGrowth.Proofs.Row
import PlantGrowth.Proofs.Sampling
import PlantGrowth.Proofs.ScalarArithmetic
import PlantGrowth.Proofs.ScalarBounds
import PlantGrowth.Proofs.ScalarOrder
import PlantGrowth.Proofs.Separation
import PlantGrowth.Proofs.SettingsText
import PlantGrowth.Proofs.Settled
import PlantGrowth.Proofs.ShortestDecimal
import PlantGrowth.Proofs.Simulation
import PlantGrowth.Proofs.Spelling
import PlantGrowth.Proofs.Stages
import PlantGrowth.Proofs.StrokeWidths
import PlantGrowth.Proofs.Succession
import PlantGrowth.Proofs.Sway
import PlantGrowth.Proofs.SwayBounds
import PlantGrowth.Proofs.Tips
import PlantGrowth.Proofs.Traces
import PlantGrowth.Proofs.Transparency
import PlantGrowth.Proofs.Turning
import PlantGrowth.Proofs.TurtleRun
import PlantGrowth.Proofs.WholePart
import PlantGrowth.Proofs.Word
import PlantGrowth.Proofs.WrittenRules
import PlantGrowth.Scalar
import PlantGrowth.Settings.Basic
import PlantGrowth.Settings.Text
import PlantGrowth.Site
import PlantGrowth.Skeleton
import PlantGrowth.Species.Basic
import PlantGrowth.Species.Preset
import PlantGrowth.Text.Blank
import PlantGrowth.Text.Hidden
import PlantGrowth.Text.Quoted
import PlantGrowth.Turtle.Stack
import PlantGrowth.Turtle.Step
import PlantGrowth.Vec
import PlantGrowth.Wind.FlowField
import PlantGrowth.Wind.Noise
