/-! SipHash-2-4: a keyed 64-bit hash of a list of bytes. -/

namespace Planwright.SipHash

structure State where
  a : UInt64
  b : UInt64
  c : UInt64
  d : UInt64

def rotate (x : UInt64) (n : UInt64) : UInt64 := (x <<< n) ||| (x >>> (64 - n))

def State.round (s : State) : State :=
  let a := s.a + s.b
  let b := rotate s.b 13 ^^^ a
  let a := rotate a 32
  let c := s.c + s.d
  let d := rotate s.d 16 ^^^ c
  let a := a + d
  let d := rotate d 21 ^^^ a
  let c := c + b
  let b := rotate b 17 ^^^ c
  let c := rotate c 32
  ⟨a, b, c, d⟩

def State.absorb (s : State) (m : UInt64) : State :=
  let s := { s with d := s.d ^^^ m }
  let s := s.round.round
  { s with a := s.a ^^^ m }

def word (bytes : List UInt8) : UInt64 := bytes.foldr (fun b w => (w <<< 8) ||| b.toUInt64) 0

def absorbAll (length : Nat) (s : State) : List UInt8 → State
  | b0 :: b1 :: b2 :: b3 :: b4 :: b5 :: b6 :: b7 :: rest =>
    absorbAll length (s.absorb (word [b0, b1, b2, b3, b4, b5, b6, b7])) rest
  | rest => s.absorb (word rest ||| (UInt64.ofNat (length % 256) <<< 56))

def hash (k0 k1 : UInt64) (bytes : List UInt8) : UInt64 :=
  let start : State :=
    ⟨k0 ^^^ 0x736f6d6570736575, k1 ^^^ 0x646f72616e646f6d, k0 ^^^ 0x6c7967656e657261, k1 ^^^ 0x7465646279746573⟩
  let s := absorbAll bytes.length start bytes
  let s := { s with c := s.c ^^^ 0xff }
  let s := s.round.round.round.round
  s.a ^^^ s.b ^^^ s.c ^^^ s.d

def wordBytes (w : UInt64) : List UInt8 := (List.range 8).map fun i => (w >>> UInt64.ofNat (8 * i)).toUInt8

def textBytes (s : String) : List UInt8 := s.toUTF8.toList

end Planwright.SipHash
