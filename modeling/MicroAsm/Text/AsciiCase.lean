/-!
# Letter case in ASCII

Register names, segment names and processor names are compared without regard to the case of
their ASCII letters.
-/

namespace MicroAsm.Text

/-- The text with its ASCII capitals made small. -/
def lowerAscii (s : String) : String :=
  String.ofList (s.toList.map Char.toLower)

/-- The texts differ at most in the case of ASCII letters. -/
def eqIgnoringCase (s t : String) : Bool :=
  s.toList.map Char.toLower == t.toList.map Char.toLower

end MicroAsm.Text
