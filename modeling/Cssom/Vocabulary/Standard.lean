import Cssom.Vocabulary.Basic

/-!
# The standard vocabulary

Properties, descriptors and media features in common use. A name may be spelled in any case, and a
property may carry a vendor's mark; the spelling in the vocabulary is the lowered name with the
mark. Custom properties, whose names start with two hyphens, all belong to it and keep their case.
-/

namespace Cssom.Vocabulary

/-- The properties that a rule may declare. -/
def properties : List String :=
  ["align-content", "align-items", "align-self", "animation", "animation-delay",
    "animation-direction", "animation-duration", "animation-fill-mode",
    "animation-iteration-count", "animation-name", "animation-play-state",
    "animation-timing-function", "appearance", "backface-visibility", "background",
    "background-attachment", "background-clip", "background-color", "background-image",
    "background-origin", "background-position", "background-repeat", "background-size",
    "border", "border-bottom", "border-bottom-color", "border-bottom-left-radius",
    "border-bottom-right-radius", "border-bottom-style", "border-bottom-width",
    "border-collapse", "border-color", "border-image", "border-left", "border-left-color",
    "border-left-style", "border-left-width", "border-radius", "border-right",
    "border-right-color", "border-right-style", "border-right-width", "border-spacing",
    "border-style", "border-top", "border-top-color", "border-top-left-radius",
    "border-top-right-radius", "border-top-style", "border-top-width", "border-width", "bottom",
    "box-shadow", "box-sizing", "caption-side", "clear", "clip", "color", "column-count",
    "column-gap", "columns", "content", "counter-increment", "counter-reset", "cursor",
    "direction", "display", "empty-cells", "filter", "flex", "flex-basis", "flex-direction",
    "flex-flow", "flex-grow", "flex-shrink", "flex-wrap", "float", "font", "font-family",
    "font-feature-settings", "font-size", "font-size-adjust", "font-stretch", "font-style",
    "font-variant", "font-weight", "gap", "grid", "grid-area", "grid-column", "grid-row",
    "grid-template", "grid-template-areas", "grid-template-columns", "grid-template-rows",
    "height", "justify-content", "left", "letter-spacing", "line-height", "list-style",
    "list-style-image", "list-style-position", "list-style-type", "margin", "margin-bottom",
    "margin-left", "margin-right", "margin-top", "max-height", "max-width", "min-height",
    "min-width", "object-fit", "opacity", "order", "orphans", "outline", "outline-color",
    "outline-offset", "outline-style", "outline-width", "overflow", "overflow-x", "overflow-y",
    "padding", "padding-bottom", "padding-left", "padding-right", "padding-top",
    "page-break-after", "page-break-before", "page-break-inside", "perspective",
    "pointer-events", "position", "quotes", "resize", "right", "size", "table-layout",
    "text-align", "text-decoration", "text-indent", "text-overflow", "text-shadow",
    "text-transform", "top", "transform", "transform-origin", "transition", "transition-delay",
    "transition-duration", "transition-property", "transition-timing-function", "unicode-bidi",
    "user-select", "vertical-align", "visibility", "white-space", "widows", "width",
    "will-change", "word-break", "word-spacing", "word-wrap", "z-index", "zoom"]

/-- The descriptors of a font. -/
def fontDescriptors : List String :=
  ["font-family", "src", "font-style", "font-weight", "font-stretch", "font-display",
    "font-variant", "font-feature-settings", "unicode-range"]

/-- The descriptors of a viewport. -/
def viewportDescriptors : List String :=
  ["min-width", "max-width", "width", "min-height", "max-height", "height", "zoom", "min-zoom",
    "max-zoom", "user-zoom", "orientation"]

/-- The features of a medium. -/
def mediaFeatures : List String :=
  ["width", "height", "device-width", "device-height", "aspect-ratio", "device-aspect-ratio",
    "orientation", "resolution", "color", "color-index", "monochrome", "scan", "grid", "hover",
    "any-hover", "pointer", "any-pointer", "prefers-color-scheme", "prefers-reduced-motion",
    "display-mode", "-webkit-device-pixel-ratio", "device-pixel-ratio"]

/-- The features of a medium that may be bounded, from below by `min-` and from above by `max-`. -/
def rangeFeatures : List String :=
  ["width", "height", "device-width", "device-height", "aspect-ratio", "device-aspect-ratio",
    "resolution", "color", "color-index", "monochrome", "-webkit-device-pixel-ratio",
    "device-pixel-ratio"]

/-- The marks that vendors put before the names of their own properties. -/
def vendorMarks : List String :=
  ["-webkit-", "-moz-", "-ms-", "-o-"]

/-- What follows a text at the start of another. -/
def dropPrefix? (mark name : String) : Option String :=
  if mark.toList.isPrefixOf name.toList then
    some (String.ofList (name.toList.drop mark.length))
  else none

/-- The name without a vendor's mark. -/
def stripVendor (name : String) : String :=
  (vendorMarks.findSome? fun mark => dropPrefix? mark name).getD name

/-- The spelling of a name that a table has, with or without its vendor's mark. -/
def lookUp (table : List String) (name : String) : Option String :=
  let lowered := Text.lower name
  if table.contains lowered || table.contains (stripVendor lowered) then some lowered else none

/-- The spelling of a property that a rule may declare. Two hyphens alone are no custom property. -/
def standardProperty (name : String) : Option String :=
  if Property.isCustom name && 2 < name.toList.length then some name else lookUp properties name

/-- The spelling of a media feature. -/
def standardFeature (name : String) : Option String :=
  let lowered := Text.lower name
  let bounded :=
    match (dropPrefix? "min-" lowered).or (dropPrefix? "max-" lowered) with
    | some base => rangeFeatures.contains base
    | none => false
  if mediaFeatures.contains lowered || bounded then some lowered else none

/-- The vocabulary in common use. -/
def standard : Vocabulary where
  property
    | .standard => standardProperty
    | .fontFace => lookUp fontDescriptors
    | .viewport => lookUp viewportDescriptors
  feature := standardFeature

end Cssom.Vocabulary
