/-!
The SHA-1 digest of a byte list: padding to blocks of sixteen words, a schedule of eighty words per
block, and one round per word.
-/

namespace Ability.Sha1

structure State where
  a : UInt32
  b : UInt32
  c : UInt32
  d : UInt32
  e : UInt32

def State.initial : State := ⟨0x67452301, 0xefcdab89, 0x98badcfe, 0x10325476, 0xc3d2e1f0⟩

def rotate (x : UInt32) (n : UInt32) : UInt32 := (x <<< n) ||| (x >>> (32 - n))

/-- The `n` low bytes of a number, the highest first. -/
def bigEndian : Nat → Nat → List UInt8
  | 0, _ => []
  | n + 1, v => bigEndian n (v / 256) ++ [UInt8.ofNat (v % 256)]

/-- One bit, zeros up to the next block less eight bytes, and the message length in bits. -/
def pad (message : List UInt8) : List UInt8 :=
  let n := message.length
  message ++ 0x80 :: List.replicate ((119 - n % 64) % 64) 0 ++ bigEndian 8 (8 * n)

def words : List UInt8 → List UInt32
  | w :: x :: y :: z :: r =>
    ((w.toUInt32 <<< 24) ||| (x.toUInt32 <<< 16) ||| (y.toUInt32 <<< 8) ||| z.toUInt32) :: words r
  | _ => []

/-- The next schedule word, from those already there, the newest first. -/
def nextWord (ws : List UInt32) : UInt32 :=
  rotate (ws.getD 2 0 ^^^ ws.getD 7 0 ^^^ ws.getD 13 0 ^^^ ws.getD 15 0) 1

def schedule (block : List UInt32) : List UInt32 :=
  (Nat.repeat (fun ws => nextWord ws :: ws) 64 block.reverse).reverse

def mix (t : Nat) (s : State) : UInt32 :=
  if t < 20 then (s.b &&& s.c) ||| (~~~s.b &&& s.d)
  else if 40 ≤ t ∧ t < 60 then (s.b &&& s.c) ||| (s.b &&& s.d) ||| (s.c &&& s.d)
  else s.b ^^^ s.c ^^^ s.d

def constant (t : Nat) : UInt32 :=
  if t < 20 then 0x5a827999 else if t < 40 then 0x6ed9eba1
  else if t < 60 then 0x8f1bbcdc else 0xca62c1d6

def round (s : State) (w : UInt32 × Nat) : State :=
  ⟨rotate s.a 5 + mix w.2 s + s.e + constant w.2 + w.1, s.a, rotate s.b 30, s.c, s.d⟩

def compress (s : State) (block : List UInt32) : State :=
  let t := (schedule block).zipIdx.foldl round s
  ⟨s.a + t.a, s.b + t.b, s.c + t.c, s.d + t.d, s.e + t.e⟩

def blocks : Nat → List UInt32 → List (List UInt32)
  | 0, _ => []
  | n + 1, ws => ws.take 16 :: blocks n (ws.drop 16)

def digest (message : List UInt8) : List UInt8 :=
  let ws := words (pad message)
  let s := (blocks (ws.length / 16) ws).foldl compress .initial
  [s.a, s.b, s.c, s.d, s.e].flatMap fun w => bigEndian 4 w.toNat

end Ability.Sha1
