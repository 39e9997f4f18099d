/-!
# Positions in a source

A position is a byte offset into the UTF-8 form of a source, with the name of its file. Offsets
are words of 32 bits: a larger one is kept modulo 2 ^ 32.
-/

namespace Cssom

/-- A place in a source: a byte offset and the file it counts in. -/
structure Position where
  offset : UInt32
  file : String
deriving DecidableEq, Inhabited

namespace Position

/-- The file name of a source that was given without one. -/
def inlineFile : String := "<inline>"

/-- The place of what stands in no source. -/
def null : Position := ⟨0, "<null>"⟩

/-- The start of a source without a file name. -/
def origin : Position := ⟨0, inlineFile⟩

/-- The place that many bytes into a file. -/
def ofBytes (bytes : Nat) (file : String) : Position :=
  ⟨UInt32.ofNat bytes, file⟩

end Position

/-- What a token covers: from its first byte to the byte after its last. -/
structure Span where
  start : Position
  stop : Position
deriving DecidableEq, Inhabited

/-- The empty span at a place. -/
def Span.empty (position : Position) : Span :=
  ⟨position, position⟩

end Cssom
