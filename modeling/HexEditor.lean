import HexEditor.Text
import HexEditor.Offset
import HexEditor.Rope.Node
import HexEditor.Rope.Chunks
import HexEditor.Rope.Basic
import HexEditor.Pattern.Basic
import HexEditor.Pattern.Encoding
import HexEditor.Pattern.Search
import HexEditor.Selection.Basic
import HexEditor.Selection.Set
import HexEditor.Selection.Split
import HexEditor.Registers
import HexEditor.Edit.Local
import HexEditor.Edit.Basic
import HexEditor.History
import HexEditor.Count
import HexEditor.Key
import HexEditor.Command.Line
import HexEditor.Disk.Path
import HexEditor.Disk.Basic
import HexEditor.Disk.Stream
import HexEditor.Disk.File
import HexEditor.Session.Basic
import HexEditor.Session.Workspace
import HexEditor.Editor.Mode
import HexEditor.Editor.Notice
import HexEditor.Editor.State
import HexEditor.Editor.Commands
import HexEditor.Editor.Press
import HexEditor.Screen.Grid
import HexEditor.Screen.Status
import HexEditor.Screen.View
import HexEditor.Screen.Display
import HexEditor.Proofs.Checked
import HexEditor.Proofs.Rope.Content
import HexEditor.Proofs.Rope.Balance
import HexEditor.Proofs.Rope.Rotation
import HexEditor.Proofs.Rope.Version
import HexEditor.Proofs.Rope.Identity
import HexEditor.Proofs.Rope.Marked
import HexEditor.Proofs.Rope.Fresh
import HexEditor.Proofs.Rope.Reading
import HexEditor.Proofs.Pattern.Greedy
import HexEditor.Proofs.Rope.Walk
import HexEditor.Proofs.Rope.Equality
import HexEditor.Proofs.Rope.Leaves
import HexEditor.Proofs.Rope.Layout
import HexEditor.Proofs.Rope.Seams
import HexEditor.Proofs.Rope.Typing
import HexEditor.Proofs.Rope.Stock
import HexEditor.Proofs.Pattern.Search
import HexEditor.Proofs.Pattern.Notation
import HexEditor.Proofs.Pattern.Grammar
import HexEditor.Proofs.Pattern.Scan
import HexEditor.Proofs.Command.Words
import HexEditor.Proofs.Selection.Refine
import HexEditor.Proofs.Selection.Normal
import HexEditor.Proofs.Selection.Points
import HexEditor.Proofs.Selection.Components
import HexEditor.Proofs.Selection.Cutting
import HexEditor.Proofs.Selection.Matching
import HexEditor.Proofs.Selection.Widths
import HexEditor.Proofs.Selection.Moving
import HexEditor.Proofs.Session.Valid
import HexEditor.Proofs.Session.Moves
import HexEditor.Proofs.Session.Turn
import HexEditor.Proofs.Session.Linear
import HexEditor.Proofs.Session.Descent
import HexEditor.Proofs.Edit.InOrder
import HexEditor.Proofs.Edit.Patch
import HexEditor.Proofs.Edit.Parts
import HexEditor.Proofs.Edit.Insertion
import HexEditor.Proofs.Edit.Backspace
import HexEditor.Proofs.Edit.Restore
import HexEditor.Proofs.Edit.Overwriting
import HexEditor.Proofs.Edit.Placement
import HexEditor.Proofs.Edit.Landing
import HexEditor.Proofs.Edit.PasteSize
import HexEditor.Proofs.Edit.Removal
import HexEditor.Proofs.Edit.Deletion
import HexEditor.Proofs.Edit.Erasing
import HexEditor.Proofs.Edit.AtPoints
import HexEditor.Proofs.Edit.Keeping
import HexEditor.Proofs.Disk.Directory
import HexEditor.Proofs.Disk.Lines
import HexEditor.Proofs.Disk.Stream
import HexEditor.Proofs.Disk.Lookup
import HexEditor.Proofs.Disk.Saving
import HexEditor.Proofs.Disk.Temporary
import HexEditor.Proofs.Disk.Replacing
import HexEditor.Proofs.Editor.Tidy
import HexEditor.Proofs.Editor.Turns
import HexEditor.Proofs.Editor.Reachable
import HexEditor.Proofs.Editor.Faults
import HexEditor.Proofs.Editor.Linear
import HexEditor.Proofs.Editor.Grouping
import HexEditor.Proofs.Session.Return
import HexEditor.Proofs.Session.Stored
import HexEditor.Proofs.Session.Current
import HexEditor.Proofs.Session.Saving
import HexEditor.Proofs.Session.Distinct
import HexEditor.Proofs.Editor.Modes
import HexEditor.Proofs.Editor.Notices
import HexEditor.Proofs.Editor.Failures
import HexEditor.Proofs.Editor.Astray
import HexEditor.Proofs.Editor.Spelling
import HexEditor.Proofs.Editor.Toggling
import HexEditor.Proofs.Editor.CutPaste
import HexEditor.Proofs.Editor.Replacing
import HexEditor.Proofs.Editor.Counting
import HexEditor.Proofs.Editor.Digits
import HexEditor.Proofs.Editor.Moving
import HexEditor.Proofs.Screen.Painting
import HexEditor.Proofs.Screen.Colours
import HexEditor.Proofs.Screen.Rows
import HexEditor.Proofs.Screen.Shown
import HexEditor.Proofs.Screen.Following
import HexEditor.Proofs.Edit.Simultaneous
