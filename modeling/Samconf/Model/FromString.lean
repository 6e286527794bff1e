/-
# Values from text

`samconfConfigSetValueFromString` and `samconfCreateFromStringAt`. The integer
conversion of the C library is written out for base 10; the conversion of
floating-point numbers, `strtod`, is a parameter that returns a value and the
rest of the string.
-/

import Samconf.Model.Lookup

namespace Samconf

open Foundation
open RoseTree (relabel)

/-- `isspace` in the C locale. -/
def isSpace (c : Char) : Bool :=
  c = ' ' || c = '\t' || c = '\n' || c = '\x0b' || c = '\x0c' || c = '\r'

/-- The value of a run of decimal digits. -/
def decimalValue (digits : List Char) : ℕ :=
  digits.foldl (fun n c => 10 * n + (c.toNat - '0'.toNat)) 0

/-- The nearest value of type `long long`. -/
def saturate (n : ℤ) : Int64 :=
  if n < Int64.minValue.toInt then Int64.minValue
  else if Int64.maxValue.toInt < n then Int64.maxValue
  else Int64.ofInt n

/-- An optional sign: whether it is a minus, and what follows it. -/
def splitSign : CString → Bool × CString
  | '-' :: rest => (true, rest)
  | '+' :: rest => (false, rest)
  | s => (false, s)

/-- `strtoll` with base 10: the value and the string from the end pointer on.
Without a digit the end pointer is the start. -/
def strtoll (s : CString) : Int64 × CString :=
  let (negative, number) := splitSign (s.dropWhile isSpace)
  let digits := number.takeWhile Char.isDigit
  if digits = [] then (0, s)
  else
    let magnitude : ℤ := decimalValue digits
    (saturate (if negative then -magnitude else magnitude), number.dropWhile Char.isDigit)

/-- `strcasecmp(s, t) == 0`. -/
def sameIgnoringCase (s t : CString) : Bool := s.map Char.toLower = t.map Char.toLower

/-- `samconfConfigSetValueFromString`. The union is overwritten without releasing
what it held, and the copy of a string is not checked. -/
def samconfConfigSetValueFromString (strtod : CString → Double × CString) (config : Config)
    (value : Option CString) : Run (ConfigStatus × Config) :=
  match value with
  | none => pure (.error, config)
  | some value =>
      let set (type : ConfigValueType) (value : Value) : Config :=
        relabel (fun d => { d with type := type, value := value }) config
      if sameIgnoringCase value "true".toList then pure (.ok, set .boolean (.boolean true))
      else if sameIgnoringCase value "false".toList then pure (.ok, set .boolean (.boolean false))
      else if (strtoll value).2 = [] then pure (.ok, set .int (.integer (strtoll value).1))
      else if (strtod value).2 = [] then pure (.ok, set .real (.real (strtod value).1))
      else do
        let copy ← strdup value
        pure (.ok, set .string (.string copy))

/-- `samconfCreateFromStringAt`. -/
def samconfCreateFromStringAt (strtod : CString → Double × CString) (root : Config)
    (path : CString) (value : Option CString) : Run (ConfigStatus × Config) :=
  match value with
  | none => pure (.error, root)
  | some value =>
      createAt (fun config => samconfConfigSetValueFromString strtod config (some value)) root path

end Samconf
