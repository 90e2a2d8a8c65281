import EpubStyle.Profile.Href

/-!
# Media types of fonts

The media type of a font is the declared one, or else is guessed from the extension of its file
name. Of these, some are those of fonts that reading systems are required to support.
-/

namespace EpubStyle.MediaType

/-- The media types that file name extensions stand for. -/
def byExtension : List (String × String) :=
  [("otf", "font/otf"), ("ttf", "font/ttf"), ("woff", "font/woff"), ("woff2", "font/woff2"),
    ("ttc", "font/collection"), ("eot", "application/vnd.ms-fontobject"), ("svg", "image/svg+xml")]

/-- The media type that the name of a resource suggests. -/
def guess? (href : String) : Option String :=
  (Href.extension? href).bind (fun extension => byExtension.lookup extension)

/-- The media type is one of fonts. White space at its ends and case do not matter. -/
def isFont (mediaType : String) : Bool :=
  let name := (Text.lowerCase (Text.trimSpace mediaType)).toList
  "font/".toList.isPrefixOf name || "application/font".toList.isPrefixOf name ||
    "application/x-font".toList.isPrefixOf name || name == "application/vnd.ms-opentype".toList

end EpubStyle.MediaType
