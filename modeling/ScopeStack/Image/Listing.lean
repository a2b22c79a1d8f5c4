import ScopeStack.Image.Basic

/-!
# Listings

A listing shows every instruction and every data item of an image with its
address. Where a line stems from the source, its place follows in a column of
its own.
-/

namespace ScopeStack

/-- A line of a listing. -/
structure ListingLine where
  address : Int
  size : Int
  instr : String
  span : Option Span
deriving DecidableEq, Repr

namespace ListingLine

/-- Blanks in front of a text up to a width. -/
def padLeft (width : Nat) (text : String) : String :=
  String.ofList (List.replicate (width - text.length) ' ') ++ text

/-- Blanks after a text up to a width. -/
def padRight (width : Nat) (text : String) : String :=
  text ++ String.ofList (List.replicate (width - text.length) ' ')

/-- A line as it is printed. -/
def text (line : ListingLine) : String :=
  let address := padLeft 6 (Decimal.text line.address) ++ ": "
  match line.span with
  | some span => address ++ padRight 24 line.instr ++ " # " ++ span.text ++ "\n"
  | none => address ++ line.instr ++ "\n"

end ListingLine

/-- The lines of code that starts at an address. -/
def Code.listing : Int → Code → List ListingLine
  | _, [] => []
  | address, line :: rest =>
    ⟨address, line.item.size, line.item.text, line.span⟩ ::
      Code.listing (address + line.item.size) rest

/-- The lines of data that start at an address. -/
def Data.listing : Int → Data → List ListingLine
  | _, [] => []
  | address, line :: rest =>
    ⟨address, line.item.byteSize, line.item.text, line.span⟩ ::
      Data.listing (address + line.item.byteSize) rest

namespace Image

/-- The listing of an image: its code, then its data. -/
def listing (image : Image) : List ListingLine :=
  image.code.listing 0 ++ image.data.listing image.code.size

/-- The listing as text. -/
def listingText (image : Image) : String :=
  String.join (image.listing.map ListingLine.text)

end Image

end ScopeStack
