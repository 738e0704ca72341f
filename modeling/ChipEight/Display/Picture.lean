import ChipEight.Display.Frame

/-! Frames as text: a line for each row, a mark for each pixel. -/

namespace ChipEight.Frame

/-- The mark of a pixel. Bytes other than 1 count as dark. -/
def mark (pixel : UInt8) : Char := if pixel = 1 then '#' else '.'

def lines (f : Frame) : List String := f.rows.map fun row => String.ofList (row.map mark)

/-- The lines one under another, each with its end. -/
def text (f : Frame) : String := String.join (f.lines.map (· ++ "\n"))

end ChipEight.Frame
