import HsqOverNand.Lib.AndMemory
import HsqOverNand.Server.Rom

/-!
# Four-bit transfers over scattered pins (`src/qspi/w25n_pio.c`)

A transfer on IO0..IO3 takes two words a byte. The words sent (`fillWords`) put bit `k` on
GPIO `io3 + k` and keep the `/WP` and `/HOLD` pins of the other devices high (`holdMask`); the words
received have bit `k` from GPIO `k` (`quadUnpack`).

* An access of `words[]` or `qtab[]` outside the array is `none`.
* The registry `g_devs` without the device itself is a list of pins.
-/

set_option autoImplicit false

namespace NandServer

abbrev BULK_MAX : Nat := 2176
abbrev QTX_SPAN : Nat := 22

abbrev Word := BitVec 32

/-- `w25n_pins_t` -/
structure Pins where
  cs : Nat
  clk : Nat
  io0 : Nat
  io1 : Nat
  io2 : Nat
  io3 : Nat
  sm : Nat
  deriving DecidableEq, Repr

/-- `1u << n` -/
def bit (n : Nat) : Word := (1 : Word) <<< n

namespace Pins

def U2 : Pins := { cs := 21, clk := 12, io0 := 19, io1 := 26, io2 := 20, io3 := 5, sm := 1 }

def U3 : Pins := { cs := 27, clk := 4, io0 := 15, io1 := 17, io2 := 18, io3 := 2, sm := 0 }

variable (p : Pins)

/-- `qtab[v]` -/
def swizzle (v : Nat) : Word :=
  (BitVec.ofNat 32 (v &&& 1) <<< (p.io0 - p.io3)) |||
    (BitVec.ofNat 32 ((v >>> 1) &&& 1) <<< (p.io1 - p.io3)) |||
    (BitVec.ofNat 32 ((v >>> 2) &&& 1) <<< (p.io2 - p.io3)) |||
    (BitVec.ofNat 32 ((v >>> 3) &&& 1) <<< 0)

def qtab : Vector Word 16 := .ofFn fun v => p.swizzle v

/-- A pin the wide OUT of this device drives. -/
def InSpan (g : Nat) : Prop := p.io3 ≤ g ∧ g < p.io3 + QTX_SPAN

instance (g : Nat) : Decidable (p.InSpan g) := inferInstanceAs (Decidable (_ ∧ _))

/-- `hi`, over the other registered devices. -/
def holdMask : List Pins → Word → Word
  | [], hi => hi
  | q :: qs, hi =>
    let hi := if p.InSpan q.io2 then hi ||| bit (q.io2 - p.io3) else hi
    let hi := if p.InSpan q.io3 then hi ||| bit (q.io3 - p.io3) else hi
    holdMask qs hi

abbrev Words := Vector Word (2 * BULK_MAX)

/-- `words[i] = w` -/
def setWord (words : Words) (i : Nat) (w : Word) : Option Words :=
  if h : i < 2 * BULK_MAX then some (words.set i w h) else none

/-- The loop of `qtx_bulk` from byte `i` on. -/
def fillWords (hi : Word) : List Byte → (i : Nat) → Words → Option Words
  | [], _, words => some words
  | b :: bs, i, words => do
    let w0 ← p.qtab[(b >>> 4).toNat]?
    let words ← setWord words (2 * i) (w0 ||| hi)
    let w1 ← p.qtab[(b &&& 15).toNat]?
    let words ← setWord words (2 * i + 1) (w1 ||| hi)
    fillWords hi bs (i + 1) words

/-- `((w >> io0) & 1) | ((w >> io1) & 1) << 1 | ..` -/
def nibble (w : Word) : Word :=
  ((w >>> p.io0) &&& 1#32) ||| (((w >>> p.io1) &&& 1#32) <<< 1) |||
    (((w >>> p.io2) &&& 1#32) <<< 2) ||| (((w >>> p.io3) &&& 1#32) <<< 3)

/-- `buf[i]` of `w25n_quad_read_buf`. -/
def unpackByte (w0 w1 : Word) : Byte := (p.nibble w0 <<< 4 ||| p.nibble w1).setWidth 8

/-- The last loop of `w25n_quad_read_buf`. -/
def quadUnpack (words : Words) (len : Nat) : Option (List Byte) :=
  (List.range len).mapM fun i => do
    let w0 ← words[2 * i]?
    let w1 ← words[2 * i + 1]?
    pure (p.unpackByte w0 w1)

/-! ## Pins and bits -/

/-- The pin of IO `j`. -/
def io (j : Nat) : Nat := if j = 0 then p.io0 else if j = 1 then p.io1 else if j = 2 then p.io2 else p.io3

/-- The level a word of the wide OUT puts on a pin of the span. -/
def driven (w : Word) (g : Nat) : Bool := w.getLsbD (g - p.io3)

/-- The wiring: four distinct pins from the smallest `io3` on, in the span and below 32, and no other
device on them. -/
structure Wired (others : List Pins) : Prop where
  distinct : ∀ j < 4, ∀ k < 4, p.io j = p.io k → j = k
  span : ∀ j < 4, p.InSpan (p.io j)
  low : ∀ j < 4, p.io j < 32
  apart : ∀ q ∈ others, ∀ j < 4, q.io2 ≠ p.io j ∧ q.io3 ≠ p.io j

end Pins

theorem getLsbD_bit {n k : Nat} (hn : n < 32) : (bit n).getLsbD k = decide (k = n) := by
  rw [bit, BitVec.getLsbD_shiftLeft, Bool.eq_iff_iff]
  simp
  omega

/-- One bit of a nibble, at position `s`. -/
theorem getLsbD_bitAt (v j : Nat) {s k : Nat} (hk : k < 32) :
    (BitVec.ofNat 32 ((v >>> j) &&& 1) <<< s).getLsbD k = (decide (k = s) && v.testBit j) := by
  rw [BitVec.getLsbD_shiftLeft, BitVec.getLsbD_ofNat, Nat.testBit_and, Nat.testBit_shiftRight]
  rcases lt_trichotomy k s with h | rfl | h
  · simp [h, h.ne]
  · simp [hk]
  · have h1 : Nat.testBit 1 (k - s) = false := Nat.testBit_lt_two_pow (by
      have := Nat.one_lt_two_pow (n := k - s) (by omega)
      omega)
    simp [h1, h.ne']

theorem getLsbD_bitOf (w : Word) (g : Nat) {k s : Nat} (hk : k < 32) :
    (((w >>> g) &&& 1#32) <<< s).getLsbD k = (decide (k = s) && w.getLsbD g) := by
  rw [BitVec.getLsbD_shiftLeft, BitVec.getLsbD_and, BitVec.getLsbD_ushiftRight]
  rcases lt_trichotomy k s with h | rfl | h
  · simp [h, h.ne]
  · simp [hk]
  · simp [h.ne']
    omega

namespace Pins

variable {p : Pins} {others : List Pins}

/-- The word of a nibble has its bits at the offsets of IO0..IO3. -/
theorem getLsbD_swizzle (v : Nat) {k : Nat} (hk : k < 32) : (p.swizzle v).getLsbD k = true ↔
    ∃ j < 4, k = p.io j - p.io3 ∧ v.testBit j = true := by
  have h0 := getLsbD_bitAt v 0 (s := p.io0 - p.io3) hk
  have h3 := getLsbD_bitAt v 3 (s := 0) hk
  rw [Nat.shiftRight_zero] at h0
  simp only [swizzle, BitVec.getLsbD_or, h0, h3, getLsbD_bitAt v 1 hk, getLsbD_bitAt v 2 hk,
    Bool.or_eq_true, Bool.and_eq_true, decide_eq_true_eq]
  constructor
  · rintro (((h | h) | h) | h)
    · exact ⟨0, by omega, h⟩
    · exact ⟨1, by omega, h⟩
    · exact ⟨2, by omega, h⟩
    · exact ⟨3, by omega, by simpa [io] using h⟩
  · rintro ⟨j, hj, h⟩
    match j, hj with
    | 0, _ => exact .inl (.inl (.inl h))
    | 1, _ => exact .inl (.inl (.inr h))
    | 2, _ => exact .inl (.inr h)
    | 3, _ => exact .inr (by simpa [io] using h)

/-- `g` is a pin the hold mask keeps high. -/
def Held (p : Pins) (others : List Pins) (g : Nat) : Prop :=
  ∃ q ∈ others, (g = q.io2 ∨ g = q.io3) ∧ p.InSpan g

theorem getLsbD_hold (hi : Word) (g : Nat) {k : Nat} :
    (if p.InSpan g then hi ||| bit (g - p.io3) else hi).getLsbD k = true ↔
      hi.getLsbD k = true ∨ (p.InSpan g ∧ k = g - p.io3) := by
  split
  · rename_i hg
    have hlt : g - p.io3 < 32 := by
      have := hg.2
      unfold QTX_SPAN at this
      omega
    rw [BitVec.getLsbD_or, getLsbD_bit hlt]
    simp [hg]
  · rename_i hg
    simp [hg]

theorem getLsbD_holdMask (others : List Pins) : ∀ (hi : Word) {k : Nat},
    (p.holdMask others hi).getLsbD k = true ↔
      hi.getLsbD k = true ∨ ∃ g, p.Held others g ∧ k = g - p.io3 := by
  induction others with
  | nil => exact fun hi k => by simp [holdMask, Held]
  | cons q qs ih =>
    intro hi k
    rw [holdMask, ih, getLsbD_hold, getLsbD_hold]
    constructor
    · rintro (((h | ⟨hs, hk⟩) | ⟨hs, hk⟩) | ⟨g, ⟨q', hq, hg, hs⟩, hk⟩)
      · exact .inl h
      · exact .inr ⟨q.io2, ⟨q, .head _, .inl rfl, hs⟩, hk⟩
      · exact .inr ⟨q.io3, ⟨q, .head _, .inr rfl, hs⟩, hk⟩
      · exact .inr ⟨g, ⟨q', .tail _ hq, hg, hs⟩, hk⟩
    · rintro (h | ⟨g, ⟨q', hq, hg, hs⟩, hk⟩)
      · exact .inl (.inl (.inl h))
      · rcases List.mem_cons.1 hq with rfl | hq
        · rcases hg with rfl | rfl
          · exact .inl (.inl (.inr ⟨hs, hk⟩))
          · exact .inl (.inr ⟨hs, hk⟩)
        · exact .inr ⟨g, ⟨q', hq, hg, hs⟩, hk⟩

/-- The word for a nibble, as it is sent. -/
def sent (p : Pins) (others : List Pins) (v : Nat) : Word := p.swizzle v ||| p.holdMask others 0

/-- A word sent holds the pins of the other devices high. -/
theorem driven_held (v : Nat) {g : Nat} (hg : p.Held others g) :
    p.driven (p.sent others v) g = true := by
  rw [driven, sent, BitVec.getLsbD_or, (getLsbD_holdMask others 0).2 (.inr ⟨g, hg, rfl⟩), Bool.or_true]

section
variable (h : p.Wired others)
include h

theorem Wired.lt {j : Nat} (hj : j < 4) : p.io j - p.io3 < 32 := by
  have := (h.span j hj).2
  unfold QTX_SPAN at this
  omega

/-- A word sent carries the nibble on IO0..IO3. -/
theorem Wired.driven_io (v : Nat) {j : Nat} (hj : j < 4) :
    p.driven (p.sent others v) (p.io j) = v.testBit j := by
  have hlt := h.lt hj
  rw [driven, sent, BitVec.getLsbD_or]
  have hmask : (p.holdMask others 0).getLsbD (p.io j - p.io3) = false := by
    by_contra hf
    rcases (getLsbD_holdMask others 0).1 (by simpa using hf) with hz | ⟨g, ⟨q, hq, hg, hs⟩, hk⟩
    · simp at hz
    · have heq : g = p.io j := by
        have := (h.span j hj).1
        have := hs.1
        omega
      rcases hg with rfl | rfl
      · exact (h.apart q hq j hj).1 heq
      · exact (h.apart q hq j hj).2 heq
  rw [hmask, Bool.or_false, Bool.eq_iff_iff, getLsbD_swizzle v hlt]
  constructor
  · rintro ⟨j', hj', hk, hv⟩
    have heq : p.io j' = p.io j := by
      have := (h.span j hj).1
      have := (h.span j' hj').1
      omega
    rwa [h.distinct j' hj' j hj heq] at hv
  · exact fun hv => ⟨j, hj, rfl, hv⟩

/-- What is captured from the levels of a sent word is its nibble. -/
theorem Wired.getLsbD_nibble {c : Word} {v : Nat}
    (hc : ∀ g, p.InSpan g → g < 32 → c.getLsbD g = p.driven (p.sent others v) g) {k : Nat}
    (hk : k < 32) : (p.nibble c).getLsbD k = (decide (k < 4) && v.testBit k) := by
  have hbit : ∀ j < 4, c.getLsbD (p.io j) = v.testBit j := fun j hj => by
    rw [hc _ (h.span j hj) (h.low j hj), h.driven_io v hj]
  have h0 := getLsbD_bitOf c p.io0 (s := 0) hk
  rw [BitVec.shiftLeft_zero] at h0
  rw [nibble, BitVec.getLsbD_or, BitVec.getLsbD_or, BitVec.getLsbD_or, h0, getLsbD_bitOf c _ hk,
    getLsbD_bitOf c _ hk, getLsbD_bitOf c _ hk]
  have h0 : c.getLsbD p.io0 = v.testBit 0 := hbit 0 (by omega)
  have h1 : c.getLsbD p.io1 = v.testBit 1 := hbit 1 (by omega)
  have h2 : c.getLsbD p.io2 = v.testBit 2 := hbit 2 (by omega)
  have h3 : c.getLsbD p.io3 = v.testBit 3 := hbit 3 (by omega)
  rw [h0, h1, h2, h3]
  by_cases hk4 : k < 4
  · match k, hk4 with
    | 0, _ | 1, _ | 2, _ | 3, _ => simp
  · have hne : k ≠ 0 ∧ k ≠ 1 ∧ k ≠ 2 ∧ k ≠ 3 := by omega
    simp [hk4, hne.1, hne.2.1, hne.2.2.1, hne.2.2.2]

/-- The byte whose nibbles were sent. -/
theorem Wired.unpackByte {c0 c1 : Word} {b : Byte}
    (h0 : ∀ g, p.InSpan g → g < 32 → c0.getLsbD g = p.driven (p.sent others (b >>> 4).toNat) g)
    (h1 : ∀ g, p.InSpan g → g < 32 → c1.getLsbD g = p.driven (p.sent others (b &&& 15).toNat) g) :
    p.unpackByte c0 c1 = b := by
  refine BitVec.eq_of_getLsbD_eq fun i hi => ?_
  rw [Pins.unpackByte, BitVec.getLsbD_setWidth, BitVec.getLsbD_or, BitVec.getLsbD_shiftLeft,
    h.getLsbD_nibble h1 (by omega)]
  rcases lt_or_ge i 4 with h4 | h4
  · have hb : (b &&& 15).toNat.testBit i = b.getLsbD i := by
      show (b &&& 15).getLsbD i = _
      match i, h4 with
      | 0, _ | 1, _ | 2, _ | 3, _ => simp
    rw [hb]
    simp [hi, h4]
  · have hb : (b >>> 4).toNat.testBit (i - 4) = b.getLsbD i := by
      show (b >>> 4).getLsbD (i - 4) = _
      rw [BitVec.getLsbD_ushiftRight, show 4 + (i - 4) = i by omega]
    rw [h.getLsbD_nibble h0 (by omega), hb]
    simp [hi, show ¬ i < 4 by omega, show i - 4 < 4 by omega, show i < 32 by omega]

end

/-! ## The loops -/

/-- The nibble of a byte that goes into word `k`: the high one first. -/
def nibbleAt (b : Byte) (k : Nat) : Nat := if k % 2 = 0 then (b >>> 4).toNat else (b &&& 15).toNat

theorem nibbleAt_lt (b : Byte) (k : Nat) : nibbleAt b k < 16 := by
  unfold nibbleAt
  split
  · rw [BitVec.toNat_ushiftRight, Nat.shiftRight_eq_div_pow]
    have := b.isLt
    omega
  · rw [BitVec.toNat_and]
    exact Nat.and_lt_two_pow _ (by decide : (15#8).toNat < 2 ^ 4)

theorem testBit_nibbleAt (b : Byte) (k : Nat) {j : Nat} (hj : j < 4) :
    (nibbleAt b k).testBit j = b.getLsbD (if k % 2 = 0 then 4 + j else j) := by
  unfold nibbleAt
  split
  · show (b >>> 4).getLsbD j = _
    rw [BitVec.getLsbD_ushiftRight]
  · show (b &&& 15).getLsbD j = _
    match j, hj with
    | 0, _ | 1, _ | 2, _ | 3, _ => simp

theorem qtab_get {v : Nat} (hv : v < 16) : p.qtab[v]? = some (p.swizzle v) := by
  rw [Vector.getElem?_eq_getElem hv, qtab, Vector.getElem_ofFn]

theorem setWord_eq (words : Words) {i : Nat} (hi : i < 2 * BULK_MAX) (w : Word) :
    setWord words i w = some (words.put ⟨i, hi⟩ w) := dif_pos hi

/-- Word `k` after the loop from byte `i` on. -/
def filled (p : Pins) (hi : Word) (bs : List Byte) (i : Nat) (words : Words) (k : Fin (2 * BULK_MAX)) :
    Word :=
  if 2 * i ≤ k ∧ k < 2 * (i + bs.length) then p.swizzle (nibbleAt (bs.getD (k / 2 - i) 0) k) ||| hi
  else words.get k

theorem fillWords_eq (hi : Word) : ∀ (bs : List Byte) (i : Nat) (words : Words),
    i + bs.length ≤ BULK_MAX → ∃ words', p.fillWords hi bs i words = some words' ∧
      ∀ k, words'.get k = filled p hi bs i words k := by
  intro bs
  induction bs with
  | nil =>
    intro i words _
    refine ⟨words, rfl, fun k => ?_⟩
    rw [filled, if_neg (by simp)]
  | cons b bs ih =>
    intro i words hlen
    rw [List.length_cons] at hlen
    have hi0 : 2 * i < 2 * BULK_MAX := by omega
    have hi1 : 2 * i + 1 < 2 * BULK_MAX := by omega
    let w0 : Word := p.swizzle (b >>> 4).toNat ||| hi
    let w1 : Word := p.swizzle (b &&& 15).toNat ||| hi
    let words2 : Words := (words.put ⟨2 * i, hi0⟩ w0).put ⟨2 * i + 1, hi1⟩ w1
    have hother : ∀ k, k.val / 2 ≠ i → words2.get k = words.get k := fun k hk => by
      rw [Vector.get_put_ne _ (Fin.ne_of_val_ne (by simp; omega)),
        Vector.get_put_ne _ (Fin.ne_of_val_ne (by simp; omega))]
    obtain ⟨words', hf, hk⟩ := ih (i + 1) words2 (by omega)
    refine ⟨words', ?_, fun k => (hk k).trans ?_⟩
    · have hq0 : p.qtab[(b >>> 4).toNat]? = some (p.swizzle (b >>> 4).toNat) :=
        qtab_get (nibbleAt_lt b 0)
      have hq1 : p.qtab[(b &&& 15).toNat]? = some (p.swizzle (b &&& 15).toNat) :=
        qtab_get (nibbleAt_lt b 1)
      simp only [fillWords, hq0, hq1, setWord_eq _ hi0, setWord_eq _ hi1, Option.bind_eq_bind,
        Option.bind_some]
      exact hf
    · unfold filled
      rw [List.length_cons]
      rcases lt_trichotomy (k.val / 2) i with hlt | heq | hgt
      · rw [if_neg (by omega), if_neg (by omega), hother k (by omega)]
      · rw [if_neg (by omega), if_pos (by omega), show k.val / 2 - i = 0 by omega, List.getD_cons_zero]
        rcases Nat.mod_two_eq_zero_or_one k.val with hm | hm
        · rw [Vector.get_put_ne _ (Fin.ne_of_val_ne (by simp; omega)),
            show k = ⟨2 * i, hi0⟩ from Fin.ext (by simp; omega), Vector.get_put_self]
          simp [w0, nibbleAt]
        · rw [show k = ⟨2 * i + 1, hi1⟩ from Fin.ext (by simp; omega), Vector.get_put_self]
          simp [w1, nibbleAt]
      · rw [show k.val / 2 - i = (k.val / 2 - (i + 1)) + 1 by omega, List.getD_cons_succ]
        by_cases hend : k.val < 2 * (i + 1 + bs.length)
        · rw [if_pos (by omega), if_pos (by omega)]
        · rw [if_neg (by omega), if_neg (by omega), hother k (by omega)]

/-- The words for a byte sequence, as a list. -/
def qtxWords (p : Pins) (others : List Pins) (data : List Byte) : List Word :=
  (List.range (2 * data.length)).map fun k => p.sent others (nibbleAt (data.getD (k / 2) 0) k)

/-- They are the words the code fills in. -/
theorem fillWords_take (data : List Byte) (hlen : data.length ≤ BULK_MAX) (words0 : Words) :
    ∃ words, p.fillWords (p.holdMask others 0) data 0 words0 = some words ∧
      words.toList.take (2 * data.length) = p.qtxWords others data := by
  obtain ⟨words, hf, hk⟩ := fillWords_eq (p := p) (p.holdMask others 0) data 0 words0 (by omega)
  refine ⟨words, hf, List.ext_getElem ?_ fun k h1 h2 => ?_⟩
  · simp [qtxWords]
    omega
  · have hlt : k < 2 * data.length := by simpa [qtxWords] using h2
    have hget := hk ⟨k, by omega⟩
    rw [filled, if_pos (by simp; omega)] at hget
    rw [List.getElem_take]
    exact hget.trans (by simp [qtxWords, sent])

theorem mapM_some {α β : Type} {f : α → Option β} {g : α → β} : ∀ l : List α,
    (∀ x ∈ l, f x = some (g x)) → l.mapM f = some (l.map g)
  | [], _ => rfl
  | x :: l, h => by
    rw [List.mapM_cons, h x (.head _), mapM_some l fun y hy => h y (.tail _ hy)]
    rfl

theorem quadUnpack_eq {words : Words} {data : List Byte} (hlen : data.length ≤ BULK_MAX)
    (h : ∀ i < data.length, ∀ k0 k1 : Fin (2 * BULK_MAX), k0.val = 2 * i → k1.val = 2 * i + 1 →
      p.unpackByte (words.get k0) (words.get k1) = data.getD i 0) :
    p.quadUnpack words data.length = some data := by
  have hdata : data = (List.range data.length).map fun i => data.getD i 0 := by
    refine List.ext_getElem (by simp) fun i h1 h2 => ?_
    simp [h1]
  conv_rhs => rw [hdata]
  refine mapM_some _ fun i hi => ?_
  have hi : i < data.length := List.mem_range.1 hi
  have h0 : words[2 * i]? = some (words.get ⟨2 * i, by omega⟩) := Vector.getElem?_eq_getElem _
  have h1 : words[2 * i + 1]? = some (words.get ⟨2 * i + 1, by omega⟩) :=
    Vector.getElem?_eq_getElem _
  have hb := h i hi ⟨2 * i, by omega⟩ ⟨2 * i + 1, by omega⟩ rfl rfl
  rw [h0, h1, ← hb]
  rfl

/-- **Swizzle and unswizzle.** For every wiring and every byte sequence that fits: no access is out
of range; each byte's high and low nibble appear on IO0..IO3 in this order; the other devices'
`/WP` and `/HOLD` pins of the span are high in every word; and the words captured from these levels
unpack to the bytes. -/
theorem quad_round_trip {p : Pins} {others : List Pins} (h : p.Wired others) (data : List Byte)
    (hlen : data.length ≤ BULK_MAX) (words0 : Words) :
    ∃ words, p.fillWords (p.holdMask others 0) data 0 words0 = some words ∧
      (∀ k : Fin (2 * BULK_MAX), k < 2 * data.length →
        (∀ j < 4, p.driven (words.get k) (p.io j) =
          (data.getD (k / 2) 0).getLsbD (if k.val % 2 = 0 then 4 + j else j)) ∧
        ∀ q ∈ others, ∀ g, (g = q.io2 ∨ g = q.io3) → p.InSpan g → p.driven (words.get k) g = true) ∧
      ∀ captured : Words, (∀ k : Fin (2 * BULK_MAX), k < 2 * data.length → ∀ g, p.InSpan g → g < 32 →
        (captured.get k).getLsbD g = p.driven (words.get k) g) →
        p.quadUnpack captured data.length = some data := by
  obtain ⟨words, hf, hk⟩ := fillWords_eq (p := p) (p.holdMask others 0) data 0 words0 (by omega)
  have hword : ∀ k : Fin (2 * BULK_MAX), k < 2 * data.length →
      words.get k = p.sent others (nibbleAt (data.getD (k / 2) 0) k) := fun k hlt => by
    rw [hk, filled, if_pos (by omega)]
    rfl
  refine ⟨words, hf, fun k hlt => ⟨fun j hj => ?_, fun q hq g hg hs => ?_⟩, fun captured hc => ?_⟩
  · rw [hword k hlt, h.driven_io _ hj, testBit_nibbleAt _ _ hj]
  · rw [hword k hlt]
    exact driven_held _ ⟨q, hq, hg, hs⟩
  · refine quadUnpack_eq hlen fun i hi k0 k1 hk0 hk1 => h.unpackByte (fun g hs hg => ?_) ?_
    · rw [hc k0 (by omega) g hs hg, hword k0 (by omega), show k0.val / 2 = i by omega, nibbleAt,
        if_pos (by omega)]
    · intro g hs hg
      rw [hc k1 (by omega) g hs hg, hword k1 (by omega), show k1.val / 2 = i by omega, nibbleAt,
        if_neg (by omega)]

/-- The wiring of the board: U2 next to U3. -/
theorem u2_wired : U2.Wired [U3] where
  distinct := by decide
  span := by decide
  low := by decide
  apart := by decide

theorem quad_round_trip_u2 : ∃ words,
    U2.fillWords (U2.holdMask [U3] 0) [0xab, 0x5c] 0 (.replicate _ 0) = some words ∧
      ∀ captured : Words, (∀ k : Fin (2 * BULK_MAX), k < 4 → ∀ g, U2.InSpan g → g < 32 →
        (captured.get k).getLsbD g = U2.driven (words.get k) g) →
        U2.quadUnpack captured 2 = some [0xab, 0x5c] := by
  obtain ⟨words, hf, -, hu⟩ := quad_round_trip u2_wired [0xab, 0x5c] (by decide) (.replicate _ 0)
  exact ⟨words, hf, hu⟩

end Pins

end NandServer
