import Cssom.Text.Characters

/-!
# At-keywords

Which rule an at-keyword starts. Some are spelled with a vendor's mark too.
-/

namespace Cssom

/-- The rules that start with an at-keyword. -/
inductive AtKeyword where
  | media
  | fontFace
  | keyframes
  | importRule
  | charset
  | namespaceRule
  | page
  | supports
  | viewport
  | document
  | unknown
deriving DecidableEq, Inhabited

namespace AtKeyword

/-- The spellings of at-keywords, in small letters. -/
def spellings : List (String × AtKeyword) :=
  [("media", media), ("font-face", fontFace), ("keyframes", keyframes),
    ("-webkit-keyframes", keyframes), ("-moz-keyframes", keyframes), ("import", importRule),
    ("charset", charset), ("namespace", namespaceRule), ("page", page), ("supports", supports),
    ("viewport", viewport), ("-ms-viewport", viewport), ("document", document),
    ("-moz-document", document)]

/-- The rule that a name starts, up to the case of ASCII letters. -/
def ofName (name : String) : AtKeyword :=
  (spellings.lookup (Text.lower name)).getD unknown

end AtKeyword

end Cssom
