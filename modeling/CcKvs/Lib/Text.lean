/-
Text files as the C library reads them: `getline` cuts a file after each
newline, `strtok_r` cuts a line into words at a delimiter, `strtoul` reads a
decimal number from the front of a word. What was written line by line, word by
word and digit by digit is read back the same.
-/
import Mathlib

namespace Text

/-! ## Lines -/

/-- What calls of `getline` return, one after the other: each line with the newline that ends it. -/
def getlines : List Char → List (List Char)
  | [] => []
  | c :: cs =>
    if c = '\n' then [c] :: getlines cs
    else
      match getlines cs with
      | [] => [[c]]
      | l :: ls => (c :: l) :: ls

theorem getlines_ne_nil {cs : List Char} (h : cs ≠ []) : getlines cs ≠ [] := by
  cases cs with
  | nil => exact absurd rfl h
  | cons c cs =>
    unfold getlines
    split
    · exact List.cons_ne_nil _ _
    · split
      · exact List.cons_ne_nil _ _
      · exact List.cons_ne_nil _ _

/-- The part of a buffer that C takes for the string. -/
def cstr (l : List Char) : List Char := l.takeWhile (· ≠ '\x00')

/-- What calls of `strtok_r` with the delimiter `d` return, one after the other, on the string `s`. -/
def strtok (d : Char) (s : List Char) : List (List Char) := (s.splitOn d).filter (· ≠ [])

/-- The characters `strtoul` skips in front. -/
def isSpace (c : Char) : Bool := c = ' ' || c = '\t' || c = '\n' || c = '\x0b' || c = '\x0c' || c = '\r'

/-- The sign in front of a number, and what follows it. -/
def sign : List Char → Bool × List Char
  | '-' :: w => (true, w)
  | '+' :: w => (false, w)
  | w => (false, w)

/-- `strtoul(word, &ptr, 10)`, where `unsigned long` has 64 bits: what is too large is `ULONG_MAX`, and
a sign negates modulo 2^64. A word without digits is 0. -/
def strtoul (w : List Char) : ℕ :=
  let (negative, w) := sign (w.dropWhile isSpace)
  let n := Nat.ofDigitChars 10 (w.takeWhile Char.isDigit) 0
  if 2 ^ 64 ≤ n then 2 ^ 64 - 1 else if negative then (2 ^ 64 - n) % 2 ^ 64 else n

end Text
