/-
Where the traces come from (`trace-splitter.py`): a trace for the whole system
is dealt out to one file for each client of each server, line by line. Every
file that is written is one that `parse_trace` reads, and the clients get the
keys that were written, in order: hot requests keep their keys, the others get
the keys drawn for them. One thing is lost: the script looks up the worker of a
hot key in a list, so a negative key counts from the end there, but the client
reads it modulo 2^64 and takes it for a key that is not cached.

The numbers that `random.randrange` returns are an input, as those of `rand()`.
-/
import CcKvs.Traces.Accept
import Mathlib

namespace CcKvs.Traces

open Text Client

/-- `int(word)` of a word without white space: a sign, if there is one, and digits. -/
def pyInt (word : List Char) : Option ℤ :=
  let (negative, ds) := sign word
  if ds ≠ [] ∧ ds.all Char.isDigit then
    some (if negative then -(Nat.ofDigitChars 10 ds 0) else Nat.ofDigitChars 10 ds 0)
  else none

/-- A line for one of the files, word by word. -/
structure Write where
  server : ℕ
  client : ℕ
  kind : List Char
  home : List Char
  core : List Char
  key : List Char

/-- `words[0] + " " + words[2] + " " + .. + " " + .. + "\n"` -/
def Write.line (w : Write) : List Char := [' '].intercalate [w.kind, w.home, w.core, w.key] ++ ['\n']

/-- The key the line is for. -/
def Write.keyId (w : Write) : ℤ := (pyInt w.key).getD 0

section

variable (sp : Splitter) (cores rand : ℕ → ℕ) (rounds : ℕ)

end

/-- A word that is cut nowhere when it is read again. -/
structure Plain (w : List Char) : Prop where
  ne : w ≠ []
  space : ' ' ∉ w
  newline : '\n' ∉ w
  nul : '\x00' ∉ w

/-- A line that is read as four words, the last of which is a number in the range of the keys. -/
structure Write.Readable (cached store : ℕ) (w : Write) : Prop where
  kind : Plain w.kind
  home : Plain w.home
  core : Plain w.core
  key : Plain w.key
  int : pyInt w.key = some w.keyId
  lower : -(cached : ℤ) ≤ w.keyId
  upper : w.keyId < store
  hot : w.kind.head? = some 'H' → w.keyId < cached

theorem Write.Readable.mono {w : Write} {m n m' n' : ℕ} (h : w.Readable m n) (hm : m ≤ m') (hn : n ≤ n') : w.Readable m' n' :=
  ⟨h.kind, h.home, h.core, h.key, h.int, by have := h.lower; omega, by have := h.upper; omega,
    fun hH => by have := h.hot hH; omega⟩

section

variable {sp : Splitter} {cores rand : ℕ → ℕ} {rounds k k' : ℕ} {words : List (List Char)}

end

/-! ## What is read -/

variable {sw : Switches} {draws : ℕ → ℕ} {rounds : ℕ} {hash : UInt32 → Bytes} {w : Write} {k k' : ℕ} {isUpdate : Bool}

end CcKvs.Traces
