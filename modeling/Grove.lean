import Grove.FileTree
import Grove.Main
import Grove.Proofs.Arena
import Grove.Proofs.Forest.Links
import Grove.Proofs.Forest.Chain
import Grove.Proofs.Forest.Rewire
import Grove.Proofs.Forest.Edits
import Grove.Proofs.Forest.Shape
import Grove.Proofs.Forest.Discard
import Grove.Proofs.Forest.Runs
import Grove.Proofs.Walker.Course
import Grove.Proofs.Walker.Traversal
import Grove.Proofs.Walker.Session
import Grove.Proofs.Tree.Levels
import Grove.Proofs.Forest.Subtree
import Grove.Proofs.Forest.Growth
import Grove.Proofs.Outline.Progress
import Grove.Proofs.Outline.Rows
import Grove.Proofs.Outline.RoundTrip
import Grove.Proofs.Forest.Ancestry
import Grove.Proofs.Forest.Names
import Grove.Proofs.Outline.Acceptance
import Grove.Proofs.Outline.Numbering
import Grove.Proofs.Forest.Refusal
import Grove.Proofs.Forest.Moves
import Grove.Proofs.Forest.Taking
import Grove.Proofs.Forest.Remains
import Grove.Proofs.Forest.Partition
import Grove.Proofs.Forest.Kin
import Grove.Proofs.Forest.Order
import Grove.Proofs.Script
import Grove.Proofs.Outline.Reread
import Grove.Proofs.Toml.Quoted
import Grove.Proofs.Toml.Document
import Grove.Proofs.Settings.File
import Grove.Proofs.Settings.Store
import Grove.Proofs.Settings.Environment
import Grove.Proofs.Settings.Load
import Grove.Proofs.Tree.Measures
import Grove.Proofs.Tree.Rails
import Grove.Proofs.Outline.Listings
import Grove.Proofs.Outline.Rendering
import Grove.Proofs.Outline.Lookup
import Grove.Proofs.Forest.Drawing
import Grove.Proofs.CommandLine.Outcome
import Grove.Proofs.Forest.SharedAncestor
import Grove.Proofs.Forest.Depth
import Grove.Proofs.Forest.Iteration
import Grove.Proofs.Forest.Leaves
import Grove.Proofs.Forest.Neighbours
import Grove.Proofs.Forest.DepthFirst
import Grove.Proofs.Walker.Path
import Grove.Proofs.Walker.Foreign
import Grove.Proofs.Forest.Siblings
import Grove.Proofs.Forest.Reuse
import Grove.Proofs.Walker.Cursors
