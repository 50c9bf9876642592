import GapText.Main
import GapText.Viewer.Command
import GapText.Workspace.Command
import GapText.Proofs.Gap
import GapText.Proofs.GapBounds
import GapText.Proofs.Code
import GapText.Proofs.Sync
import GapText.Proofs.Convert
import GapText.Proofs.Edits
import GapText.Proofs.Editor
import GapText.Proofs.Confined
import GapText.Proofs.Landmarks
import GapText.Proofs.Boundaries
import GapText.Proofs.Index
import GapText.Proofs.Drawing
import GapText.Proofs.Layout
import GapText.Proofs.Window
import GapText.Proofs.Search
import GapText.Proofs.Viewer
import GapText.Proofs.Marks
import GapText.Proofs.Rows
import GapText.Proofs.Faces
import GapText.Proofs.Reload
import GapText.Proofs.RawBytes
import GapText.Proofs.Twins
import GapText.Proofs.Canonical
import GapText.Proofs.Pieces
import GapText.Proofs.Ranges
import GapText.Proofs.Levels
import GapText.Proofs.OneBuffer
import GapText.Proofs.Deletion
import GapText.Proofs.Recentering
import GapText.Proofs.Making
import GapText.Proofs.Flags
import GapText.Proofs.Scrolling
import GapText.Proofs.Attributes
import GapText.Proofs.AtPoint
import GapText.Proofs.CommandLine
import GapText.Proofs.Cells
import GapText.Proofs.Guards
