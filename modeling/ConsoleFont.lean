import ConsoleFont.Bytes.Cursor
import ConsoleFont.Files.Tree
import ConsoleFont.Shelf
import ConsoleFont.Proofs.Words
import ConsoleFont.Proofs.Utf8
import ConsoleFont.Proofs.UnicodeTable
import ConsoleFont.Proofs.Psf2
import ConsoleFont.Proofs.Psf1
import ConsoleFont.Proofs.Headerless
import ConsoleFont.Proofs.PartList
import ConsoleFont.Proofs.Observation
import ConsoleFont.Proofs.Detection
import ConsoleFont.Proofs.Append
import ConsoleFont.Proofs.Loaded
import ConsoleFont.Proofs.RoundTrip
import ConsoleFont.Proofs.Bitmaps
import ConsoleFont.Proofs.Shelf
import ConsoleFont.Proofs.Commitment
import ConsoleFont.Proofs.Flattening
import ConsoleFont.Proofs.Acceptance
import ConsoleFont.Proofs.Releases
import ConsoleFont.Proofs.Lockstep
import ConsoleFont.Proofs.MoreOptions
import ConsoleFont.Proofs.ByHand
import ConsoleFont.Proofs.Truncation
import ConsoleFont.Proofs.Splitting
import ConsoleFont.Proofs.Appending
import ConsoleFont.Proofs.CodePoints
import ConsoleFont.Proofs.Machine.Checked
import ConsoleFont.Proofs.Machine.Cursor
import ConsoleFont.Proofs.Machine.Formats
import ConsoleFont.Proofs.Machine.Load
import ConsoleFont.Proofs.EmptyGlyphs
import ConsoleFont.Proofs.Machine.Pixels
import ConsoleFont.Proofs.PartNames
import ConsoleFont.Proofs.SpoiledLists
import ConsoleFont.Proofs.ByLength
import ConsoleFont.Proofs.CharacterPositions
import ConsoleFont.Proofs.DetectionOrder
import ConsoleFont.Proofs.Sentinel
import ConsoleFont.Proofs.CursorSteps
import ConsoleFont.Proofs.Machine.Walk
