import HsqOverNand.Subleq.Sq

/-!
# Both readers read what the assembler writes

`sq_round_trip`: for every program of resolved items, whatever integers they are, the emulator reads
from `sqText` the values modulo `2 ^ 64` in order, and the interpreter loads the same words into
`code` from 0 on, the first `2 ^ 24` of them.

* `toU64_decimal`: the fold over the decimal text is the value modulo `2 ^ 64`.
* `Spells text ws`: the text consists of hexadecimal words with white space after each.
* `lineWords_spells`, `loadWords_spells`: what the two readers make of such a text.
-/

set_option autoImplicit false

namespace NandServer

open Digits

/-! ## Statement -/

/-- Canonical decimal. -/
def decimal (v : Int) : Text :=
  if v < 0 then '-' :: Nat.toDigits 10 v.natAbs else Nat.toDigits 10 v.natAbs

def Instruction.Resolved {I : Type} (ins : Instruction I) : Prop := ∀ it ∈ ins.items, it.state = .RES

/-- The words of a program whose items have these values. -/
def values {I : Type} (val : I → Int) (pr : List (Instruction I)) : List (BitVec 64) :=
  pr.flatMap fun ins => ins.items.map fun it => BitVec.ofInt 64 (val it.i)

/-! ## The value of an item -/

/-- A character that is no digit is none of the digits. -/
theorem ne_of_isDigit {b : Nat} {c d : Char} (hc : isDigit b c = true) (hd : isDigit b d = false) :
    c ≠ d := by
  rintro rfl
  rw [hc] at hd
  cases hd

/-- The subtraction of `'0'`. -/
theorem digit_ofInt {c : Char} (hc : isDigit 10 c = true) :
    BitVec.ofInt 64 ((c.toNat : Int) - ('0'.toNat : Int)) = (digitVal c : BitVec 64) := by
  rw [toNat_of_isDigit le_rfl hc, BitVec.natCast_eq_ofNat, ← BitVec.ofInt_natCast, Nat.cast_add,
    show ('0'.toNat : Int) = ((48 : Nat) : Int) from rfl, add_sub_cancel_left]

theorem toU64_decimal (v : Int) : toU64 (decimal v) = BitVec.ofInt 64 v := by
  have hfold : ∀ n : Nat, (Nat.toDigits 10 n).foldl
      (fun r c => r * 10 + BitVec.ofInt 64 ((c.toNat : Int) - ('0'.toNat : Int))) (0 : BitVec 64) =
        BitVec.ofNat 64 n := by
    intro n
    rw [List.foldl_ext _ (fun r c => r * ((10 : Nat) : BitVec 64) + (digitVal c : BitVec 64)) 0
      fun r c hc => by rw [digit_ofInt (isDigit_of_mem (by decide) (by decide) hc)]; rfl]
    exact foldl_toDigits (by decide) (by decide) n
  unfold decimal
  split
  · rename_i hneg
    simp only [toU64, List.head?_cons, decide_true, if_true, List.drop_one, List.tail_cons]
    rw [hfold, ← BitVec.ofInt_natCast, Int.ofNat_natAbs_of_nonpos hneg.le, BitVec.ofInt_neg, zero_sub,
      neg_neg]
  · rename_i hpos
    have hne : (Nat.toDigits 10 v.natAbs).head? ≠ some '-' := by
      intro he
      have hmem := List.mem_of_head? he
      exact absurd (isDigit_of_mem (by decide) (by decide) hmem) (by decide)
    simp only [toU64, hne, decide_false, Bool.false_eq_true, if_false, List.drop_zero]
    rw [hfold, ← BitVec.ofInt_natCast, Int.natAbs_of_nonneg (not_lt.1 hpos)]

/-! ## A word as text -/

theorem hexText_digit {w : BitVec 64} {c : Char} (hc : c ∈ hexText w) : isDigit 16 c = true :=
  isDigit_of_mem (by decide) le_rfl hc

theorem hexText_cons (w : BitVec 64) : ∃ c s, hexText w = c :: s ∧ isDigit 16 c = true := by
  obtain ⟨c, s, h⟩ := List.exists_cons_of_ne_nil (Nat.toDigits_ne_nil (n := w.toNat) (b := 16))
  exact ⟨c, s, h, hexText_digit (by rw [hexText, h]; exact .head _)⟩

theorem isSpace_of_isDigit {c : Char} (hc : isDigit 16 c = true) : isSpace c = false := by
  have hne : ∀ d, isDigit 16 d = false → (c = d) = False := fun d hd => eq_false (ne_of_isDigit hc hd)
  simp [isSpace, hne _ (by decide : isDigit 16 ' ' = false), hne _ (by decide : isDigit 16 '\t' = false),
    hne _ (by decide : isDigit 16 '\n' = false), hne _ (by decide : isDigit 16 '\x0b' = false),
    hne _ (by decide : isDigit 16 '\x0c' = false), hne _ (by decide : isDigit 16 '\x0d' = false)]

theorem isDigit_of_isSpace {c : Char} (hc : isSpace c = true) : isDigit 16 c = false := by
  cases hd : isDigit 16 c with
  | false => rfl
  | true =>
    rw [isSpace_of_isDigit hd] at hc
    cases hc

/-- The digits of a text, up to a character that is none. -/
theorem span_append {p : Char → Bool} {l r : Text} (hl : ∀ c ∈ l, p c = true)
    (hrest : ∀ c ∈ r.head?, p c = false) :
    (l ++ r).takeWhile p = l ∧ (l ++ r).dropWhile p = r := by
  rw [List.takeWhile_append_of_pos hl, List.dropWhile_append_of_pos hl]
  cases r with
  | nil => simp
  | cons c r =>
    have hc := hrest c rfl
    simp [hc]

/-- `numeral` on a word that is followed by white space or nothing. -/
theorem numeral_hexText (w : BitVec 64) {r : Text} (hrest : ∀ c ∈ r.head?, isSpace c = true) :
    numeral 16 (hexText w ++ r) = ⟨false, hexText w, r⟩ := by
  obtain ⟨c, s, hw, hc⟩ := hexText_cons w
  have hdrop : (hexText w ++ r).dropWhile isSpace = hexText w ++ r := by
    rw [hw, List.cons_append, List.dropWhile_cons, isSpace_of_isDigit hc]
    rfl
  have hhead : (hexText w ++ r).head? = some c := by rw [hw]; rfl
  have hminus : c ≠ '-' := ne_of_isDigit hc (by decide)
  have hplus : c ≠ '+' := ne_of_isDigit hc (by decide)
  -- the second character is a digit or white space
  have hx : ∀ x, isDigit 16 x = false → isSpace x = false → (hexText w ++ r)[1]? ≠ some x := by
    intro x hd hs hx
    have hmem : (hexText w ++ r)[1]? = (s ++ r)[0]? := by rw [hw]; rfl
    rw [hmem] at hx
    cases s with
    | nil =>
      have := hrest x (by simpa [List.head?_eq_getElem?] using hx)
      rw [hs] at this
      cases this
    | cons d s =>
      have hd' : isDigit 16 d = true := hexText_digit (w := w) (by rw [hw]; simp)
      obtain rfl : d = x := Option.some.inj hx
      rw [hd] at hd'
      cases hd'
  have hspan := span_append (p := isDigit 16) (fun c => hexText_digit (w := w)) fun c hc =>
    isDigit_of_isSpace (hrest c hc)
  simp only [numeral, hdrop, hhead, Option.some.injEq, hminus, hplus, decide_false, or_self,
    Bool.false_eq_true, if_false, hx 'x' (by decide) (by decide), hx 'X' (by decide) (by decide),
    and_false, hspan.1, hspan.2]

theorem toUnsigned_hexText (w : BitVec 64) (r : Text) :
    (Numeral.mk false (hexText w) r).toUnsigned 16 = w := by
  have hval : (Numeral.mk false (hexText w) r).value 16 = w.toNat :=
    foldl_toDigits (R := Nat) (by decide) le_rfl w.toNat
  rw [Numeral.toUnsigned, hval, if_neg (by exact not_le.2 w.isLt)]
  simp

theorem fscanfHex_hexText (w : BitVec 64) {r : Text} (hrest : ∀ c ∈ r.head?, isSpace c = true) :
    fscanfHex (hexText w ++ r) = some (w, r) := by
  obtain ⟨c, s, hw, -⟩ := hexText_cons w
  rw [fscanfHex, numeral_hexText w hrest, toUnsigned_hexText]
  simp [hw]

theorem fscanfHex_space {c : Char} (hc : isSpace c = true) (s : Text) :
    fscanfHex (c :: s) = fscanfHex s := by
  simp only [fscanfHex, numeral, List.dropWhile_cons, hc, if_true]

theorem parseWord_hexText (w : BitVec 64) : parseWord true (hexText w) = w := by
  obtain ⟨c, s, hw, hc⟩ := hexText_cons w
  have hhead : (hexText w).head? ≠ some '-' := by
    rw [hw]
    exact fun he => ne_of_isDigit hc (by decide) (Option.some.inj he)
  have hnum := numeral_hexText w (r := []) (by simp)
  rw [List.append_nil] at hnum
  simp only [parseWord, hhead, decide_false, Bool.false_eq_true, if_true, if_false, List.drop_zero,
    strtoull, hnum, toUnsigned_hexText]

theorem extract_hexText (w : BitVec 64) {c : Char} (hc : isSpace c = true) (s : Text) :
    extract (hexText w ++ c :: s) = some (hexText w, c :: s) := by
  obtain ⟨d, ds, hw, hd⟩ := hexText_cons w
  have hspan := span_append (p := (!isSpace ·)) (l := ds) (r := c :: s)
    (fun e he => by
      rw [isSpace_of_isDigit (hexText_digit (w := w) (by rw [hw]; exact .tail _ he))]
      rfl)
    (fun e he => by
      obtain rfl : c = e := Option.some.inj he
      simp [hc])
  rw [hw, List.cons_append, extract_word (isSpace_of_isDigit hd), hspan.1, hspan.2]

/-! ## Texts of words -/

/-- Hexadecimal words with white space after each. -/
inductive Spells : Text → List (BitVec 64) → Prop
  | nil : Spells [] []
  | space {c : Char} {s : Text} {ws : List (BitVec 64)} :
      isSpace c = true → Spells s ws → Spells (c :: s) ws
  | word {c : Char} {s : Text} {ws : List (BitVec 64)} (w : BitVec 64) :
      isSpace c = true → Spells (c :: s) ws → Spells (hexText w ++ c :: s) (w :: ws)

theorem lineWords_none {hex : Bool} {line : Text} (h : extract line = none) : lineWords hex line = [] := by
  rw [lineWords]
  split
  · rfl
  · rename_i h'
    rw [h] at h'
    cases h'

theorem lineWords_some {hex : Bool} {line s rest : Text} (h : extract line = some (s, rest)) :
    lineWords hex line = parseWord hex s :: lineWords hex rest := by
  rw [lineWords]
  split
  · rename_i h'
    rw [h] at h'
    cases h'
  · rename_i h'
    rw [h] at h'
    cases h'
    rfl

theorem lineWords_spells {line : Text} {ws : List (BitVec 64)} (h : Spells line ws) :
    lineWords true line = ws := by
  induction h with
  | nil => exact lineWords_none rfl
  | @space c s ws hc hs ih =>
    rw [← ih]
    cases he : extract s with
    | none => rw [lineWords_none he, lineWords_none (by rw [extract_space hc, he])]
    | some r => rw [lineWords_some he, lineWords_some (by rw [extract_space hc, he])]
  | word w hc _ ih => rw [lineWords_some (extract_hexText w hc _), parseWord_hexText, ih]

theorem loadWords_none {code : Nat → BitVec 64} {i : Nat} {text : Text} (h : fscanfHex text = none) :
    loadWords code i text = (i, code) := by
  rw [loadWords, h]

theorem loadWords_some {code : Nat → BitVec 64} {i : Nat} {text rest : Text} {w : BitVec 64}
    (h : fscanfHex text = some (w, rest)) : loadWords code i text =
      if MAX_CODE_SIZE ≤ i + 1 then (i + 1, Function.update code i w)
      else loadWords (Function.update code i w) (i + 1) rest := by
  rw [loadWords, h]

/-- The words go to `code[i]` and up, as far as it reaches, and the rest of `code` stays. -/
theorem loadWords_spells {text : Text} {ws : List (BitVec 64)} (h : Spells text ws) :
    ∀ (code : Nat → BitVec 64) {i : Nat}, i < MAX_CODE_SIZE →
      (loadWords code i text).1 = min (i + ws.length) MAX_CODE_SIZE ∧
      (∀ k w, ws[k]? = some w → i + k < MAX_CODE_SIZE → (loadWords code i text).2 (i + k) = w) ∧
      ∀ k < i, (loadWords code i text).2 k = code k := by
  induction h with
  | nil =>
    intro code i hi
    rw [loadWords_none rfl]
    refine ⟨(min_eq_left hi.le).symm, fun k w hw => ?_, fun _ _ => rfl⟩
    simp at hw
  | @space c s ws hc hs ih =>
    intro code i hi
    have heq : loadWords code i (c :: s) = loadWords code i s := by
      cases he : fscanfHex s with
      | none => rw [loadWords_none he, loadWords_none (by rw [fscanfHex_space hc, he])]
      | some r => rw [loadWords_some he, loadWords_some (by rw [fscanfHex_space hc, he])]
    rw [heq]
    exact ih code hi
  | @word c s ws w hc hs ih =>
    intro code i hi
    have hscan := fscanfHex_hexText w (r := c :: s) (by simpa using hc)
    rw [loadWords_some hscan]
    by_cases hfull : MAX_CODE_SIZE ≤ i + 1
    · simp only [hfull, if_true]
      refine ⟨?_, fun k v hv hk => ?_, fun k hk => Function.update_of_ne hk.ne _ _⟩
      · rw [List.length_cons]
        omega
      · obtain rfl : k = 0 := by omega
        obtain rfl : w = v := Option.some.inj hv
        exact Function.update_self ..
    · simp only [hfull, if_false]
      obtain ⟨hn, hget, hkeep⟩ := ih (Function.update code i w) (i := i + 1) (by omega)
      refine ⟨?_, fun k v hv hk => ?_, fun k hk => ?_⟩
      · rw [hn, List.length_cons]
        congr 1
        omega
      · cases k with
        | zero =>
          obtain rfl : w = v := Option.some.inj hv
          show (loadWords (Function.update code i w) (i + 1) (c :: s)).2 i = w
          rw [hkeep i (by omega), Function.update_self]
        | succ k => rw [← hget k v hv (by omega), Nat.add_right_comm, Nat.add_assoc]
      · rw [hkeep k (by omega), Function.update_of_ne hk.ne]

/-! ## The text of a program -/

section
variable {I : Type} {str : I → Text} {val : I → Int} (hstr : ∀ v, str v = decimal (val v))
include hstr

theorem dumphex_resolved {it : Item I} (hres : it.state = .RES) :
    it.dumphex str = hexText (BitVec.ofInt 64 (val it.i)) := by
  rw [Item.dumphex, hres, hstr, toU64_decimal]
  rfl

/-- An instruction in front of white space. -/
theorem Spells.instruction {ins : Instruction I} (hres : ins.Resolved) {s : Text}
    {ws : List (BitVec 64)} (h : Spells s ws) :
    Spells (ins.dumphex str ++ s) ((ins.items.map fun it => BitVec.ofInt 64 (val it.i)) ++ ws) := by
  unfold Instruction.dumphex
  unfold Instruction.Resolved at hres
  generalize ins.items = its at hres
  induction its with
  | nil => exact h
  | cons it its ih =>
    have htail := ih fun it hit => hres it (.tail _ hit)
    rw [List.flatMap_cons, dumphex_resolved hstr (hres it (.head _)), List.append_assoc, List.append_assoc,
      List.map_cons, List.cons_append]
    exact .word _ (by decide) (.space (by decide) htail)

theorem spells_program {pr : List (Instruction I)} (hres : ∀ ins ∈ pr, ins.Resolved) :
    Spells (pr.flatMap fun ins => ins.dumphex str ++ ['\n']) (values val pr) := by
  unfold values
  induction pr with
  | nil => exact .nil
  | cons ins pr ih =>
    rw [List.flatMap_cons, List.flatMap_cons, List.append_assoc]
    exact Spells.instruction hstr (hres ins (.head _))
      (.space (by decide) (ih fun ins h => hres ins (.tail _ h)))

/-- The line of an instruction: a digit first, and no end of line. -/
theorem dumphex_line {ins : Instruction I} (hres : ins.Resolved) :
    (∀ c ∈ ins.dumphex str, c ≠ '\n') ∧
      (ins.items = [] ∨ ∃ c s, ins.dumphex str = c :: s ∧ isDigit 16 c = true) := by
  have hitem : ∀ it ∈ ins.items, it.dumphex str = hexText (BitVec.ofInt 64 (val it.i)) := fun it hit =>
    dumphex_resolved hstr (hres it hit)
  unfold Instruction.dumphex
  constructor
  · intro c hc
    obtain ⟨it, hit, hc⟩ := List.mem_flatMap.1 hc
    rw [hitem it hit] at hc
    rcases List.mem_append.1 hc with hc | hc
    · exact ne_of_isDigit (hexText_digit hc) (by decide)
    · rw [List.mem_singleton.1 hc]
      decide
  · cases hits : ins.items with
    | nil => exact .inl rfl
    | cons it its =>
      obtain ⟨c, s, hw, hc⟩ := hexText_cons (BitVec.ofInt 64 (val it.i))
      refine .inr ⟨c, s ++ ' ' :: its.flatMap fun it => it.dumphex str ++ [' '], ?_, hc⟩
      rw [List.flatMap_cons, hitem it (by rw [hits]; exact .head _), hw]
      simp

end

theorem getline_append {line : Text} (hline : ∀ c ∈ line, c ≠ '\n') (rest : Text) :
    getline (line ++ '\n' :: rest) = some (line, rest) := by
  have hspan := span_append (p := (· ≠ '\n')) (l := line) (r := '\n' :: rest) (by simpa using hline)
    (by simp)
  rw [getline, if_neg (by simp), hspan.1, hspan.2]
  rfl

/-! ## The lines of the emulator -/

section
variable {text line rest : Text} {first hex : Bool}

theorem sqload_none (h : getline text = none) : sqload text first hex = [] := by
  rw [sqload]
  split
  · rfl
  · rename_i h'
    rw [h] at h'
    cases h'

theorem sqload_some (h : getline text = some (line, rest)) : sqload text first hex =
    match line.dropWhile isBlank with
    | [] => sqload rest first hex
    | '#' :: _ => sqload rest false (first || hex)
    | _ => lineWords hex line ++ sqload rest false hex := by
  rw [sqload]
  split
  · rename_i h'
    rw [h] at h'
    cases h'
  · rename_i h'
    rw [h] at h'
    cases h'
    rfl

theorem sqload_words (h : getline text = some (line, rest)) {c : Char} {s : Text}
    (hline : line.dropWhile isBlank = c :: s) (hc : c ≠ '#') :
    sqload text first hex = lineWords hex line ++ sqload rest false hex := by
  rw [sqload_some h, hline]
  split
  · rename_i heq
    cases heq
  · rename_i heq
    cases heq
    exact absurd rfl hc
  · rfl

end

section
variable {I : Type} {str : I → Text} {val : I → Int} (hstr : ∀ v, str v = decimal (val v))
include hstr

theorem sqload_program {pr : List (Instruction I)} (hres : ∀ ins ∈ pr, ins.Resolved) :
    sqload (pr.flatMap fun ins => ins.dumphex str ++ ['\n']) false true = values val pr := by
  unfold values
  induction pr with
  | nil => exact sqload_none rfl
  | cons ins pr ih =>
    have hins := hres ins (.head _)
    obtain ⟨hline, hhead⟩ := dumphex_line hstr hins
    have hget := getline_append hline (pr.flatMap fun ins => ins.dumphex str ++ ['\n'])
    have htail := ih fun ins h => hres ins (.tail _ h)
    rw [List.flatMap_cons, List.flatMap_cons, List.append_assoc, ← htail]
    rcases hhead with hnil | ⟨c, s, hcons, hc⟩
    · have hblank : (ins.dumphex str).dropWhile isBlank = [] := by
        rw [Instruction.dumphex, hnil]
        rfl
      rw [hnil]
      refine (sqload_some hget).trans ?_
      rw [hblank]
      rfl
    · have hblank : (ins.dumphex str).dropWhile isBlank = c :: s := by
        have hno : isBlank c = false := by
          have hsp : ∀ d, isDigit 16 d = false → c ≠ d := fun d hd => ne_of_isDigit hc hd
          simp [isBlank, hsp ' ' (by decide), hsp '\t' (by decide), hsp '\r' (by decide)]
        rw [hcons, List.dropWhile_cons, hno]
        rfl
      have hwords : lineWords true (ins.dumphex str) =
          ins.items.map fun it => BitVec.ofInt 64 (val it.i) := by
        have h := Spells.instruction hstr hins .nil
        rw [List.append_nil, List.append_nil] at h
        exact lineWords_spells h
      rw [← hwords]
      exact sqload_words hget hblank (ne_of_isDigit hc (by decide))

end

/-! ## The header -/

theorem header_line : ∃ s, header = ('#' :: s) ++ ['\n'] ∧ '\n' ∉ '#' :: s ∧ s.length < 98 := by
  refine ⟨header.tail.dropLast, ?_, ?_, ?_⟩ <;> decide

/-- A first line that fits the buffer. -/
theorem fgets_line {n : Nat} {line : Text} (hlen : line.length < n) (hline : ∀ c ∈ line, c ≠ '\n')
    (rest : Text) : (fgets n (line ++ '\n' :: rest)).2 = rest := by
  induction line generalizing n with
  | nil =>
    obtain ⟨n, rfl⟩ := Nat.exists_eq_succ_of_ne_zero (Nat.ne_of_gt hlen)
    rfl
  | cons c line ih =>
    obtain ⟨n, rfl⟩ := Nat.exists_eq_succ_of_ne_zero (Nat.ne_of_gt (Nat.zero_lt_of_lt hlen))
    rw [List.cons_append, fgets, if_neg (hline c (.head _))]
    exact ih (Nat.lt_of_succ_lt_succ hlen) fun d hd => hline d (.tail _ hd)

/-! ## Main result -/

/-- See the module doc. -/
theorem sq_round_trip {I : Type} {str : I → Text} {val : I → Int}
    (hstr : ∀ v, str v = decimal (val v)) (pr : List (Instruction I)) (hres : ∀ ins ∈ pr, ins.Resolved) :
    sqloadtext (sqText str pr) = values val pr ∧
      ∃ code, loadFile (sqText str pr) = some (min (values val pr).length MAX_CODE_SIZE, code) ∧
        ∀ i w, i < MAX_CODE_SIZE → (values val pr)[i]? = some w → code i = w := by
  obtain ⟨s, hheader, hnl, hlen⟩ := header_line
  have hline : ∀ c ∈ '#' :: s, c ≠ '\n' := fun c hc he => hnl (he ▸ hc)
  have htext : sqText str pr =
      ('#' :: s) ++ '\n' :: pr.flatMap fun ins => ins.dumphex str ++ ['\n'] := by
    rw [sqText, hheader, List.append_assoc]
    rfl
  rw [htext]
  constructor
  · have hget := getline_append hline (pr.flatMap fun ins => ins.dumphex str ++ ['\n'])
    rw [sqloadtext, sqload_some hget, (rfl : ('#' :: s).dropWhile isBlank = '#' :: s)]
    exact sqload_program hstr hres
  · obtain ⟨hn, hget, -⟩ := loadWords_spells (spells_program hstr hres) (fun _ => 0)
      (by decide : 0 < MAX_CODE_SIZE)
    rw [Nat.zero_add] at hn
    have hload : loadFile (('#' :: s) ++ '\n' :: pr.flatMap fun ins => ins.dumphex str ++ ['\n']) =
        some (loadWords (fun _ => 0) 0 (pr.flatMap fun ins => ins.dumphex str ++ ['\n'])) := by
      rw [loadFile, if_neg (by simp), fgets_line (by rw [List.length_cons]; omega) hline]
    refine ⟨_, hload.trans (congrArg some (Prod.ext hn rfl)), fun i w hi hw => ?_⟩
    rw [← hget i w hw (by omega), Nat.zero_add]

/-- A program with the least word, a value beyond 64 bits and an instruction without items. -/
theorem sq_round_trip_sample : sqloadtext (sqText decimal
    [⟨[⟨[], -1, .RES⟩, ⟨[], 2 ^ 64 + 10, .RES⟩]⟩, ⟨[]⟩, ⟨[⟨[], -2 ^ 63, .RES⟩]⟩]) =
      [0xffffffffffffffff, 10, 0x8000000000000000] :=
  (@sq_round_trip Int decimal id (fun _ => rfl)
    [⟨[⟨[], -1, .RES⟩, ⟨[], 2 ^ 64 + 10, .RES⟩]⟩, ⟨[]⟩, ⟨[⟨[], -2 ^ 63, .RES⟩]⟩]
    (by simp [Instruction.Resolved])).1

end NandServer
