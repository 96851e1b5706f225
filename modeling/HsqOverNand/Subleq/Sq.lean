import HsqOverNand.Lib.Digits
import Mathlib.Data.BitVec
import Mathlib.Logic.Function.Basic

/-!
# The `.sq` word format (`src/hsq64.patch`, `src/src/subleq/subleq.cpp`)

The assembler writes 64-bit words as text; the emulator (`sqloadtext`) and the interpreter
(`loadFile`) read them. Text is a list of characters, a word is its bits, and `big::inumber` is a
type with the `str` of the base file.

`strtoull`, `atoll` and `fscanf` are those of glibc: they saturate, and `fscanf` takes a `0x` without
digits as a zero.
-/

set_option autoImplicit false

namespace NandServer

open Digits

abbrev Text := List Char

abbrev MAX_CODE_SIZE : Nat := 0xFFFFFF + 1

/-! ## Writing -/

inductive ItemState
  | EMPTY | STR | RES
  deriving DecidableEq, Repr

structure Item (I : Type) where
  s : Text
  i : I
  state : ItemState

structure Instruction (I : Type) where
  items : List (Item I)

/-- `to_u64` of the number with this `str()`. -/
def toU64 (s : Text) : BitVec 64 :=
  let neg := decide (s.head? = some '-')
  let r := (s.drop (if neg then 1 else 0)).foldl
    (fun r c => r * 10 + BitVec.ofInt 64 ((c.toNat : Int) - ('0'.toNat : Int))) 0
  if neg then 0 - r else r

/-- `%llx` -/
def hexText (u : BitVec 64) : Text := Nat.toDigits 16 u.toNat

section
variable {I : Type} (str : I → Text)

def Item.dumphex (it : Item I) : Text :=
  if it.state ≠ .RES then '#' :: it.s else hexText (toU64 (str it.i))

def Instruction.dumphex (ins : Instruction I) : Text := ins.items.flatMap fun it => it.dumphex str ++ [' ']

def header : Text := "# hsq 64bit subleq code (hex words)\n".toList

/-- The text of a program that is resolved. -/
def sqText (pr : List (Instruction I)) : Text :=
  header ++ pr.flatMap fun ins => ins.dumphex str ++ ['\n']

end

/-! ## Reading numbers -/

/-- `isspace` -/
def isSpace (c : Char) : Bool := c = ' ' || c = '\t' || c = '\n' || c = '\x0b' || c = '\x0c' || c = '\r'

structure Numeral where
  neg : Bool
  digits : Text
  rest : Text

/-- Sign and digits after white space; the zero of a `0x` is a digit. -/
def numeral (base : Nat) (s : Text) : Numeral :=
  let s := s.dropWhile isSpace
  let neg := decide (s.head? = some '-')
  let s := if neg ∨ s.head? = some '+' then s.drop 1 else s
  if base = 16 ∧ s.head? = some '0' ∧ (s[1]? = some 'x' ∨ s[1]? = some 'X') then
    ⟨neg, '0' :: (s.drop 2).takeWhile (isDigit base), (s.drop 2).dropWhile (isDigit base)⟩
  else ⟨neg, s.takeWhile (isDigit base), s.dropWhile (isDigit base)⟩

def Numeral.value (base : Nat) (n : Numeral) : Nat := n.digits.foldl (fun r c => r * base + digitVal c) 0

/-- The unsigned word; saturates at the largest. -/
def Numeral.toUnsigned (base : Nat) (n : Numeral) : BitVec 64 :=
  if 2 ^ 64 ≤ n.value base then BitVec.allOnes 64
  else if n.neg then 0 - BitVec.ofNat 64 (n.value base) else BitVec.ofNat 64 (n.value base)

def strtoull (s : Text) (base : Nat) : BitVec 64 := (numeral base s).toUnsigned base

/-- `atoll`; saturates on both sides. -/
def a2sq (s : Text) : BitVec 64 :=
  let n := numeral 10 s
  if n.neg then if 2 ^ 63 ≤ n.value 10 then BitVec.intMin 64 else BitVec.ofInt 64 (-n.value 10)
  else if 2 ^ 63 ≤ n.value 10 then BitVec.intMax 64 else BitVec.ofNat 64 (n.value 10)

/-- `fscanf` of a hexadecimal word, and what it leaves. -/
def fscanfHex (s : Text) : Option (BitVec 64 × Text) :=
  let n := numeral 16 s
  if n.digits = [] then none else some (n.toUnsigned 16, n.rest)

/-! ## The emulator's reader -/

/-- `std::getline` -/
def getline (s : Text) : Option (Text × Text) :=
  if s = [] then none else some (s.takeWhile (· ≠ '\n'), (s.dropWhile (· ≠ '\n')).drop 1)

/-- `ls >> s` -/
def extract (s : Text) : Option (Text × Text) :=
  let s := s.dropWhile isSpace
  if s = [] then none else some (s.takeWhile (!isSpace ·), s.dropWhile (!isSpace ·))

def parseWord (hex : Bool) (s : Text) : BitVec 64 :=
  if hex then
    let neg := decide (s.head? = some '-')
    let u := strtoull (s.drop (if neg then 1 else 0)) 16
    if neg then 0 - u else u
  else a2sq s

theorem getline_rest {s line rest : Text} (h : getline s = some (line, rest)) : rest.length < s.length := by
  cases s with
  | nil => cases h
  | cons c s =>
    simp only [getline, reduceCtorEq, if_false, Option.some.injEq, Prod.mk.injEq] at h
    rw [← h.2, List.dropWhile_cons, List.length_drop]
    split
    · have := (List.dropWhile_suffix (l := s) (· ≠ '\n')).length_le
      rw [List.length_cons]
      omega
    · simp

@[simp] theorem extract_nil : extract [] = none := rfl

theorem extract_space {c : Char} (hc : isSpace c = true) (s : Text) : extract (c :: s) = extract s := by
  simp only [extract, List.dropWhile_cons, hc, if_true]

theorem extract_word {c : Char} (hc : isSpace c = false) (s : Text) :
    extract (c :: s) = some (c :: s.takeWhile (!isSpace ·), s.dropWhile (!isSpace ·)) := by
  simp [extract, hc]

theorem extract_rest {s w rest : Text} (h : extract s = some (w, rest)) : rest.length < s.length := by
  induction s with
  | nil => cases h
  | cons c s ih =>
    cases hc : isSpace c with
    | true =>
      rw [extract_space hc] at h
      exact (ih h).trans (Nat.lt_succ_self _)
    | false =>
      rw [extract_word hc] at h
      cases h
      exact Nat.lt_succ_of_le (List.dropWhile_suffix _).length_le

/-- The words of a line. -/
def lineWords (hex : Bool) (line : Text) : List (BitVec 64) :=
  match _h : extract line with
  | none => []
  | some (s, rest) => parseWord hex s :: lineWords hex rest
termination_by line.length
decreasing_by exact extract_rest _h

/-- The characters that `find_first_not_of` skips. -/
def isBlank (c : Char) : Bool := c = ' ' || c = '\t' || c = '\r'

/-- The loop of `sqloadtext`. -/
def sqload (text : Text) (first hex : Bool) : List (BitVec 64) :=
  match _h : getline text with
  | none => []
  | some (line, rest) =>
    match line.dropWhile isBlank with
    | [] => sqload rest first hex
    | '#' :: _ => sqload rest false (first || hex)
    | _ => lineWords hex line ++ sqload rest false hex
termination_by text.length
decreasing_by all_goals exact getline_rest _h

/-- The words that `sqloadtext` appends. -/
def sqloadtext (text : Text) : List (BitVec 64) := sqload text true false

/-! ## The interpreter's reader -/

/-- `fgets` of at most `n` characters, and what it leaves. -/
def fgets : Nat → Text → Text × Text
  | 0, s => ([], s)
  | _, [] => ([], [])
  | n + 1, c :: s => if c = '\n' then ([c], s) else (c :: (fgets n s).1, (fgets n s).2)

/-- The loop that loads `code[i]` and up, and the number of words then loaded. -/
def loadWords (code : Nat → BitVec 64) (i : Nat) (text : Text) : Nat × (Nat → BitVec 64) :=
  match fscanfHex text with
  | none => (i, code)
  | some (w, rest) =>
    if MAX_CODE_SIZE ≤ i + 1 then (i + 1, Function.update code i w)
    else loadWords (Function.update code i w) (i + 1) rest
termination_by MAX_CODE_SIZE - i

/-- The loader of `main`; `none`: it cannot read the first line. -/
def loadFile (text : Text) : Option (Nat × (Nat → BitVec 64)) :=
  if text = [] then none else some (loadWords (fun _ => 0) 0 (fgets (100 - 1) text).2)

end NandServer
