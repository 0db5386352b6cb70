import NodeLayers.JsonRecord
import NodeLayers.Main
import NodeLayers.Session
import NodeLayers.SharedRegistry
import NodeLayers.Proofs.Pieces
import NodeLayers.Proofs.Moves
import NodeLayers.Proofs.Nesting
import NodeLayers.Proofs.Spelling
import NodeLayers.Proofs.BraceBalance
import NodeLayers.Proofs.GlobalOption
import NodeLayers.Proofs.Likeness
import NodeLayers.Proofs.LikeReadings
import NodeLayers.Proofs.LikeDocuments
import NodeLayers.Proofs.Extension
import NodeLayers.Proofs.Concatenation
import NodeLayers.Proofs.Layout
import NodeLayers.Proofs.Acceptance
import NodeLayers.Proofs.MatchingBrace
import NodeLayers.Proofs.OptionLines
import NodeLayers.Proofs.DocumentTree
import NodeLayers.Proofs.LaidBlocks
import NodeLayers.Proofs.PortNumber
import NodeLayers.Proofs.WrittenForm
import NodeLayers.Proofs.Given
import NodeLayers.Proofs.OptionText
import NodeLayers.Proofs.RoundTrip
import NodeLayers.Proofs.Publishing
import NodeLayers.Proofs.Precedence
import NodeLayers.Proofs.FaultPlaces
import NodeLayers.Proofs.SameBlock
import NodeLayers.Proofs.JsonContainers
import NodeLayers.Proofs.JsonSettings
import NodeLayers.Proofs.JsonApp
import NodeLayers.Proofs.JsonDirective
import NodeLayers.Proofs.NameAgreement
import NodeLayers.Proofs.Arguments
import NodeLayers.Proofs.FaultTokens
import NodeLayers.Proofs.FaultDocuments
import NodeLayers.Proofs.Requoting
import NodeLayers.Proofs.TreeLines
import NodeLayers.Proofs.Insertion
import NodeLayers.Proofs.OptionReading
import NodeLayers.Proofs.ClosingBrace
import NodeLayers.Proofs.OptionArity
import NodeLayers.Proofs.LastWrite
import NodeLayers.Proofs.Grammar
import NodeLayers.Proofs.TokenLines
import NodeLayers.Proofs.TokenText
import NodeLayers.Proofs.SegmentRun
import NodeLayers.Proofs.Positions
import NodeLayers.Proofs.ReachablePositions
import NodeLayers.Proofs.Entries
import NodeLayers.Proofs.OptionFault
import NodeLayers.Proofs.FailedEntry
import NodeLayers.Proofs.GlobalEntries
import NodeLayers.Proofs.EntryOrder
import NodeLayers.Proofs.Loops
import NodeLayers.Proofs.ReadingLoops
import NodeLayers.Proofs.SinglePass
