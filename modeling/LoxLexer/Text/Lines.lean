/-!
# Lines of bytes

A line ends behind a line feed, which belongs to it; the last one may lack it.  No line is empty, and the lines of
some bytes are those bytes, cut.
-/
namespace LoxLexer

def lineFeed : UInt8 := 10

/-- Lines under way: those that are complete, and the bytes since. -/
structure LineCutter where
  complete : Array ByteArray
  current : ByteArray

namespace LineCutter

def empty : LineCutter := ⟨#[], ByteArray.empty⟩

def push (l : LineCutter) (b : UInt8) : LineCutter :=
  if b = lineFeed then ⟨l.complete.push (l.current.push b), ByteArray.empty⟩ else { l with current := l.current.push b }

/-- All lines, once there are no more bytes. -/
def finish (l : LineCutter) : List ByteArray :=
  if l.current.isEmpty then l.complete.toList else (l.complete.push l.current).toList

end LineCutter

def linesOf (bytes : ByteArray) : List ByteArray := (bytes.data.toList.foldl LineCutter.push LineCutter.empty).finish

end LoxLexer
