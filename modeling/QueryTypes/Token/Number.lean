import QueryTypes.Token

namespace QueryTypes.Token

def endsNumber (c : Char) : Bool := " \n\r\t,#!$:=@|&()[]\x7b\x7d".toList.contains c

def digitsValue (digits : List Char) : Nat :=
  digits.foldl (fun value c => 10 * value + (c.toNat - '0'.toNat)) 0

def isWhole (text : List Char) : Bool :=
  let digits := if text.head? == some '-' then text.tail else text
  digits == ['0'] || (!digits.isEmpty && digits.head? != some '0' && digits.all Char.isDigit)

def wholeValue (text : List Char) : Int :=
  if text.head? == some '-' then -(digitsValue text.tail : Int) else digitsValue text

/-- Whether a text may stand after the exponent mark. An unsigned exponent starts with one of the
    digits from 1 to 8. -/
def isExponent : List Char → Bool
  | [] => false
  | c :: digits => (c == '-' || c == '+' || ('1' ≤ c && c ≤ '8')) && digits.all Char.isDigit

def exponentValue? : List Char → Option Int
  | '-' :: digits => if digits.isEmpty then none else some (-(digitsValue digits : Int))
  | '+' :: digits => if digits.isEmpty then none else some (digitsValue digits)
  | digits => if digits.isEmpty then none else some (digitsValue digits)

def splitLast (p : Char → Bool) (text : List Char) : Option (List Char × List Char) :=
  match text.reverse.span (fun c => !p c) with
  | (_, []) => none
  | (after, _ :: before) => some (before.reverse, after.reverse)

def isExponentMark (c : Char) : Bool := c == 'e' || c == 'E'

def decimal? (whole places : List Char) (exponent : Int) : Option Binary64 :=
  if isWhole whole && places.all Char.isDigit then
    let digits := (if whole.head? == some '-' then whole.tail else whole) ++ places
    some (Binary64.ofDecimal (whole.head? == some '-') (digitsValue digits) digits.length
      (exponent - places.length))
  else none

def significand? (text : List Char) (exponent : Int) : Option Binary64 :=
  match splitLast (· == '.') text with
  | none => decimal? text [] exponent
  | some (whole, places) => if places.isEmpty then none else decimal? whole places exponent

def floatValue? (text : List Char) : Option Binary64 :=
  match splitLast isExponentMark text with
  | none => significand? text 0
  | some (before, exponent) =>
    if isExponent exponent then
      match exponentValue? exponent with
      | some value => significand? before value
      | none => none
    else none

def leastInt : Int := -9223372036854775808

def greatestInt : Int := 9223372036854775807

def ofNumber (text : List Char) : Token :=
  if text.any (fun c => c == '.' || isExponentMark c) then
    match floatValue? text with
    | some value => .float value
    | none => .malformed
  else if isWhole text && leastInt ≤ wholeValue text && wholeValue text ≤ greatestInt then
    .int (wholeValue text)
  else .malformed

end QueryTypes.Token
