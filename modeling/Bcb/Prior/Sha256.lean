import Bcb.Machine

namespace Bcb.Prior.Sha256

/-- `SHA_ROR`. -/
def ror (x n : UInt32) : UInt32 := (x >>> n) ||| (x <<< (32 - n))

def k : List UInt32 :=
  [0x428a2f98, 0x71374491, 0xb5c0fbcf, 0xe9b5dba5, 0x3956c25b, 0x59f111f1, 0x923f82a4, 0xab1c5ed5,
   0xd807aa98, 0x12835b01, 0x243185be, 0x550c7dc3, 0x72be5d74, 0x80deb1fe, 0x9bdc06a7, 0xc19bf174,
   0xe49b69c1, 0xefbe4786, 0x0fc19dc6, 0x240ca1cc, 0x2de92c6f, 0x4a7484aa, 0x5cb0a9dc, 0x76f988da,
   0x983e5152, 0xa831c66d, 0xb00327c8, 0xbf597fc7, 0xc6e00bf3, 0xd5a79147, 0x06ca6351, 0x14292967,
   0x27b70a85, 0x2e1b2138, 0x4d2c6dfc, 0x53380d13, 0x650a7354, 0x766a0abb, 0x81c2c92e, 0x92722c85,
   0xa2bfe8a1, 0xa81a664b, 0xc24b8b70, 0xc76c51a3, 0xd192e819, 0xd6990624, 0xf40e3585, 0x106aa070,
   0x19a4c116, 0x1e376c08, 0x2748774c, 0x34b0bcb5, 0x391c0cb3, 0x4ed8aa4a, 0x5b9cca4f, 0x682e6ff3,
   0x748f82ee, 0x78a5636f, 0x84c87814, 0x8cc70208, 0x90befffa, 0xa4506ceb, 0xbef9a3f7, 0xc67178f2]

structure State where
  a : UInt32
  b : UInt32
  c : UInt32
  d : UInt32
  e : UInt32
  f : UInt32
  g : UInt32
  h : UInt32

def init : State :=
  ⟨0x6a09e667, 0xbb67ae85, 0x3c6ef372, 0xa54ff53a, 0x510e527f, 0x9b05688c, 0x1f83d9ab, 0x5be0cd19⟩

def be32 (blk : List UInt8) (t : Nat) : UInt32 :=
  ((blk.getD (4 * t) 0).toUInt32 <<< 24) ||| ((blk.getD (4 * t + 1) 0).toUInt32 <<< 16) |||
    ((blk.getD (4 * t + 2) 0).toUInt32 <<< 8) ||| (blk.getD (4 * t + 3) 0).toUInt32

/-- `w[t]` from the words before it. -/
def nextWord (w : List UInt32) : UInt32 :=
  let t := w.length
  let w15 := w.getD (t - 15) 0
  let w2 := w.getD (t - 2) 0
  let s0 := ror w15 7 ^^^ ror w15 18 ^^^ (w15 >>> 3)
  let s1 := ror w2 17 ^^^ ror w2 19 ^^^ (w2 >>> 10)
  w.getD (t - 16) 0 + s0 + w.getD (t - 7) 0 + s1

def schedule (blk : List UInt8) : List UInt32 :=
  (fun w => w ++ [nextWord w])^[48] ((List.range 16).map (be32 blk))

def round (s : State) (kw : UInt32 × UInt32) : State :=
  let s1 := ror s.e 6 ^^^ ror s.e 11 ^^^ ror s.e 25
  let ch := (s.e &&& s.f) ^^^ (~~~s.e &&& s.g)
  let t1 := s.h + s1 + ch + kw.1 + kw.2
  let s0 := ror s.a 2 ^^^ ror s.a 13 ^^^ ror s.a 22
  let maj := (s.a &&& s.b) ^^^ (s.a &&& s.c) ^^^ (s.b &&& s.c)
  let t2 := s0 + maj
  ⟨t1 + t2, s.a, s.b, s.c, s.d + t1, s.e, s.f, s.g⟩

def sha256Block (h : State) (blk : List UInt8) : State :=
  let s := (k.zip (schedule blk)).foldl round h
  ⟨h.a + s.a, h.b + s.b, h.c + s.c, h.d + s.d, h.e + s.e, h.f + s.f, h.g + s.g, h.h + s.h⟩

def be32Bytes (x : UInt32) : List UInt8 :=
  [(x >>> 24).toUInt8, (x >>> 16).toUInt8, (x >>> 8).toUInt8, x.toUInt8]

def sha256 (data : List UInt8) : List UInt8 :=
  let full := data.length / 64
  let h := (List.range full).foldl (fun h i => sha256Block h ((data.drop (64 * i)).take 64)) init
  let rem := data.length - 64 * full
  let blk := data.drop (64 * full) ++ [0x80]
  let (h, blk) :=
    if 56 ≤ rem then
      (sha256Block h (blk ++ List.replicate (64 - (rem + 1)) 0), List.replicate 56 0)
    else (h, blk ++ List.replicate (56 - (rem + 1)) 0)
  let bits := data.length * 8 % 2 ^ 64
  let h := sha256Block h
    (blk ++ (List.range 8).map fun j => UInt8.ofNat (bits >>> (56 - 8 * j)))
  [h.a, h.b, h.c, h.d, h.e, h.f, h.g, h.h].flatMap be32Bytes

end Bcb.Prior.Sha256
