import ScopeStack.Image.Listing
import ScopeStack.Layout
import ScopeStack.Sha256
import ScopeStack.Text.Utf8

/-!
# Compilation reports

A report is the summary of a compilation: either the frames, the sizes, the
listing and the hash of the image, or the diagnostic of the error that stopped
it. Frames are ordered by name, then by depth and size.
-/

namespace ScopeStack

/-- The outline of a frame. -/
structure FrameSummary where
  name : String
  depth : Nat
  parsSize : Int
  varsSize : Int
deriving DecidableEq, Repr

namespace FrameSummary

/-- The outline of a frame. -/
def ofFrame (frame : Frame) : FrameSummary :=
  ⟨frame.name, frame.depth, frame.parsSize, frame.varsSize⟩

/-- The order of frames in a report. -/
def order (first second : FrameSummary) : Ordering :=
  (compare first.name second.name).then <|
    (compare first.depth second.depth).then <|
      (compare first.parsSize second.parsSize).then (compare first.varsSize second.varsSize)

end FrameSummary

/-- The hash of an image: that of its listing. -/
def Image.hash (image : Image) : String := Sha256.hex (Utf8.encode image.listingText.toList)

/-- The summary of a compilation. -/
structure Report where
  success : Bool
  frames : List FrameSummary
  codeSize : Int
  dataSize : Int
  listing : List ListingLine
  errors : List Diagnostic
  imageHash : Option String
deriving DecidableEq, Repr

namespace Report

/-- The report of a compilation that failed. -/
def failure (error : Diagnostic) : Report := ⟨false, [], 0, 0, [], [error], none⟩

/-- The report of a compilation that succeeded. -/
def ofImage (layout : Layout) (image : Image) : Report :=
  let frames := (layout.frames.toList.map fun (_, frame) => FrameSummary.ofFrame frame).mergeSort
    fun first second => (FrameSummary.order first second).isLE
  ⟨true, frames, image.code.size, image.data.size, image.listing, [], some image.hash⟩

end Report

end ScopeStack
