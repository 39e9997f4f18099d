import Cssom.Token.Basic
import Mathlib.Tactic.MkIffOfInductiveProp

/-!
# Reading tokens by bytes

What a token stands for is a stretch of its text, between two bytes that its kind decides. A stretch
is cut out only if its bytes are in order and within the text, and no character is cut in two there.
Here the name, the contents and the address of a token are read in this way, which may fail;
`Token.name`, `Token.contents` and `Token.address` read the same by characters, and do not.
-/

namespace Cssom

namespace Text

/-- Two places in a text, by the bytes before them. A place that is counted back from the end of a
text may come out negative. -/
structure Stretch where
  start : Int
  stop : Int
deriving DecidableEq

namespace Stretch

/-- The stretch can be cut out of a text. -/
@[mk_iff]
structure Within (stretch : Stretch) (text : String) : Prop where
  nonneg : 0 ≤ stretch.start
  ordered : stretch.start ≤ stretch.stop
  inRange : stretch.stop ≤ text.utf8ByteSize
  /-- The stretch starts between two characters, or at an end of the text. -/
  start_valid : String.Pos.Raw.IsValid text ⟨stretch.start.toNat⟩
  /-- The stretch stops between two characters, or at an end of the text. -/
  stop_valid : String.Pos.Raw.IsValid text ⟨stretch.stop.toNat⟩

instance (stretch : Stretch) (text : String) : Decidable (stretch.Within text) :=
  decidable_of_iff _ (within_iff stretch text).symm

/-- The characters of the stretch, if it can be cut out of the text. -/
def cut? (stretch : Stretch) (text : String) : Option String :=
  if stretch.Within text then
    some (String.Pos.Raw.extract text ⟨stretch.start.toNat⟩ ⟨stretch.stop.toNat⟩)
  else none

end Stretch

/-- How many bytes stand before the first character of a kind. -/
def bytesBefore? (c : Char) : List Char → Option Nat
  | [] => none
  | d :: rest => if d = c then some 0 else (bytesBefore? c rest).map (d.utf8Size + ·)

end Text

namespace Token

open Text

/-- How many bytes the token covers. -/
def size (token : Token) : Int :=
  token.text.utf8ByteSize

/-- Where the name of a token stands: behind the sigil, or before the parenthesis. -/
def nameStretch (token : Token) : Stretch :=
  match token.kind with
  | .atKeyword | .hash => ⟨1, token.size⟩
  | .function => ⟨0, token.size - 1⟩
  | _ => ⟨0, token.size⟩

/-- Where the contents of a string stand. -/
def contentsStretch (token : Token) : Stretch :=
  match token.kind with
  | .string => ⟨1, token.size - 1⟩
  | .badString => ⟨1, token.size⟩
  | _ => ⟨0, token.size⟩

/-- Where an address stands: behind the first opening parenthesis, or from the start on if there is
none, and before the last byte. -/
def addressStretch (token : Token) : Stretch :=
  match token.kind with
  | .url =>
    let start := (bytesBefore? '(' token.text.toList).elim 0 (· + 1)
    ⟨start, token.size - 1⟩
  | _ => token.contentsStretch

/-- The name of the token, if it can be cut out. -/
def name? (token : Token) : Option String :=
  token.nameStretch.cut? token.text

/-- What the token stands for as a string, if it can be cut out. -/
def contents? (token : Token) : Option String :=
  (token.contentsStretch.cut? token.text).map fun inner =>
    String.ofList (readEscapes inner.toList)

/-- The address of the token, if it can be cut out. -/
def address? (token : Token) : Option String :=
  match token.kind with
  | .url =>
    (token.addressStretch.cut? token.text).map fun inner =>
      String.ofList (readEscapes (trim inner).toList)
  | _ => token.contents?

end Token

end Cssom
