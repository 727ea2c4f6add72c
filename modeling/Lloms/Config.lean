import Mathlib.Data.Char
import Mathlib.Data.List.DropRight
import Mathlib.Data.List.Lex
import Lloms.Lib.OrdMap

/-! The flat config file (`config.hpp`): `key: value` lines, `#` comments, blank
lines. A `std::string` is a list of characters, one for each byte. -/
namespace Lloms
open Lib

abbrev Text := List Char

/-- `std::isspace` in the C locale. -/
def isSpace (c : Char) : Bool :=
  c = ' ' ∨ c = '\t' ∨ c = '\n' ∨ c.toNat = 0x0B ∨ c.toNat = 0x0C ∨ c = '\r'

def trim (s : Text) : Text := (s.dropWhile isSpace).rdropWhile isSpace

/-- The lines `std::getline` reads: a newline ends a line and starts none. -/
def lines : Text → List Text
  | [] => []
  | c :: rest =>
    if c = '\n' then [] :: lines rest
    else
      match lines rest with
      | [] => [[c]]
      | l :: ls => (c :: l) :: ls

/-- `kv_`. The hash map is kept in the order `keys()` sorts it to. -/
structure Config where
  kv : OrdMap Text Text := .empty

namespace Config

def getStr (cfg : Config) (key : Text) : Text := (cfg.kv.find? key).getD []

def keys (cfg : Config) : List Text := cfg.kv.entries.map Prod.fst

def parseLine (cfg : Config) (line : Text) : Config :=
  let line := line.takeWhile (· ≠ '#')
  match line.idxOf? ':' with
  | none => cfg
  | some colon =>
    let key := trim (line.take colon)
    let val := trim (line.drop (colon + 1))
    if key = [] then cfg else { kv := cfg.kv.set key val }

def fromString (text : Text) : Config := (lines text).foldl parseLine {}

end Config

end Lloms
