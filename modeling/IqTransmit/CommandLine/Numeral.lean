/-! The numbers that a command line may hold. -/

namespace IqTransmit.Numeral

/-- The value of a non-empty run of decimal digits. -/
def ofDigits (cs : List Char) : Option Nat :=
  if cs.isEmpty || !cs.all Char.isDigit then none
  else some (cs.foldl (fun n c => 10 * n + (c.toNat - '0'.toNat)) 0)

/-- A number up to `limit`, perhaps with a plus sign. -/
def unsigned (limit : Nat) (text : String) : Option Nat :=
  let digits := match text.toList with
    | '+' :: cs => cs
    | cs => cs
  (ofDigits digits).filter (· ≤ limit)

/-- A number up to `limit`, perhaps with a sign; with a minus sign only zero. -/
def bounded (limit : Nat) (text : String) : Option Nat :=
  match text.toList with
  | '-' :: cs => (ofDigits cs).filter (· = 0)
  | _ => unsigned limit text

/-- Whether text is empty or an exponent: a letter, perhaps a sign, and digits. -/
def isExponent : List Char → Bool
  | [] => true
  | c :: cs =>
      let digits := match cs with
        | '+' :: ds | '-' :: ds => ds
        | ds => ds
      (c == 'e' || c == 'E') && (ofDigits digits).isSome

/-- Whether text is a decimal number without sign: digits with at most one point among or around
them, and perhaps an exponent. -/
def isDecimal (cs : List Char) : Bool :=
  let whole := cs.takeWhile Char.isDigit
  let rest := cs.dropWhile Char.isDigit
  match rest with
  | '.' :: rest =>
      let places := rest.takeWhile Char.isDigit
      !(whole.isEmpty && places.isEmpty) && isExponent (rest.dropWhile Char.isDigit)
  | rest => !whole.isEmpty && isExponent rest

/-- The words for values that are no finite number, in any case of letters. -/
def isSpecial (cs : List Char) : Bool :=
  let word := cs.map Char.toLower
  word == "inf".toList || word == "infinity".toList || word == "nan".toList

/-- Whether text is a floating-point number, perhaps with a sign. -/
def isFloat (text : String) : Bool :=
  let cs := match text.toList with
    | '+' :: cs | '-' :: cs => cs
    | cs => cs
  isDecimal cs || isSpecial cs

end IqTransmit.Numeral
