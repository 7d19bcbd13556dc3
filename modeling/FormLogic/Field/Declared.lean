import FormLogic.Field.Path

/-!
Paths under which fields are declared. Two spellings of a declared path that differ in surrounding
white space, in empty segments or in a trailing slash have the same normal form. A text without a
slash is a bare name and only trimmed.
-/
namespace FormLogic.Field

open Text

/-- The normal form of a declared path. -/
def normalPath (path : Text) : Text :=
  let path := trim path
  if path.contains '/' then
    if path.head? = some '/' then absolutePath (segments path) else joinSegments (segments path)
  else path

/-- The last non-empty segment, or the whole text when it has none. -/
def lastSegment (path : Text) : Text := (segments path).getLast?.getD path

end FormLogic.Field
