import Multiprecision.Digit

/-! Fingerprints: one word that stands for a list of words. The words are mixed into four lanes, one
    round for each, and three more rounds hide the lanes before they are folded into one. These are the
    rounds of SipHash-1-3, under the key of zeros, on a message of whole words. -/

namespace Multiprecision

/-- The four lanes that words are mixed into. -/
structure Lanes where
  a : UInt64
  b : UInt64
  c : UInt64
  d : UInt64
  deriving DecidableEq, Repr

namespace Lanes

/-- The lanes before any word. -/
def start : Lanes where
  a := 0x736f6d6570736575
  b := 0x646f72616e646f6d
  c := 0x6c7967656e657261
  d := 0x7465646279746573

/-- A word turned left by `k` bits. -/
def rotate (w k : UInt64) : UInt64 := w <<< k ||| w >>> (64 - k)

/-- The first half of a round: the lanes `a` and `b` are mixed, and so are `c` and `d`. -/
def mixPairs (l : Lanes) : Lanes :=
  let a := l.a + l.b
  let c := l.c + l.d
  ⟨rotate a 32, rotate l.b 13 ^^^ a, c, rotate l.d 16 ^^^ c⟩

/-- The second half of a round: the lanes `a` and `d` are mixed, and so are `c` and `b`. -/
def mixAcross (l : Lanes) : Lanes :=
  let a := l.a + l.d
  let c := l.c + l.b
  ⟨a, rotate l.b 17 ^^^ c, rotate c 32, rotate l.d 21 ^^^ a⟩

/-- One round of mixing. -/
def round (l : Lanes) : Lanes := l.mixPairs.mixAcross

/-- The lanes after one more word. -/
def absorb (l : Lanes) (w : UInt64) : Lanes :=
  let l := round { l with d := l.d ^^^ w }
  { l with a := l.a ^^^ w }

/-- The lanes folded into one word, after three rounds. -/
def finish (l : Lanes) : UInt64 :=
  let l := { l with c := l.c ^^^ 0xff }.round.round.round
  l.a ^^^ l.b ^^^ l.c ^^^ l.d

end Lanes

namespace Fingerprint

/-- The word that closes a message of `n` words: the number of its bytes, in the top byte. -/
def closing (n : Nat) : UInt64 := UInt64.ofNat (8 * n) <<< 56

/-- The fingerprint of a message. -/
def ofWords (ws : List UInt64) : UInt64 :=
  ((ws.foldl Lanes.absorb Lanes.start).absorb (closing ws.length)).finish

/-- The fingerprint of the empty message. -/
example : ofWords [] = 15130871412783076140 := by decide +kernel

end Fingerprint

end Multiprecision
