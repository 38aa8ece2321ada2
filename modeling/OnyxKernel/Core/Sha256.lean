import OnyxKernel.Infra.Bytes

/-!
# SHA-256

The streaming interface of `onyx_core::crypto::sha256`: bytes are collected in a buffer of 64, which is compressed
whenever it is full.
-/

namespace Onyx

open Infra

/-- `K` -/
def sha256K : List UInt32 :=
  [0x428a2f98, 0x71374491, 0xb5c0fbcf, 0xe9b5dba5, 0x3956c25b, 0x59f111f1, 0x923f82a4, 0xab1c5ed5,
   0xd807aa98, 0x12835b01, 0x243185be, 0x550c7dc3, 0x72be5d74, 0x80deb1fe, 0x9bdc06a7, 0xc19bf174,
   0xe49b69c1, 0xefbe4786, 0x0fc19dc6, 0x240ca1cc, 0x2de92c6f, 0x4a7484aa, 0x5cb0a9dc, 0x76f988da,
   0x983e5152, 0xa831c66d, 0xb00327c8, 0xbf597fc7, 0xc6e00bf3, 0xd5a79147, 0x06ca6351, 0x14292967,
   0x27b70a85, 0x2e1b2138, 0x4d2c6dfc, 0x53380d13, 0x650a7354, 0x766a0abb, 0x81c2c92e, 0x92722c85,
   0xa2bfe8a1, 0xa81a664b, 0xc24b8b70, 0xc76c51a3, 0xd192e819, 0xd6990624, 0xf40e3585, 0x106aa070,
   0x19a4c116, 0x1e376c08, 0x2748774c, 0x34b0bcb5, 0x391c0cb3, 0x4ed8aa4a, 0x5b9cca4f, 0x682e6ff3,
   0x748f82ee, 0x78a5636f, 0x84c87814, 0x8cc70208, 0x90befffa, 0xa4506ceb, 0xbef9a3f7, 0xc67178f2]

def rotr (x n : UInt32) : UInt32 := (x >>> n) ||| (x <<< (32 - n))

def ch (x y z : UInt32) : UInt32 := (x &&& y) ^^^ (~~~x &&& z)

def maj (x y z : UInt32) : UInt32 := (x &&& y) ^^^ (x &&& z) ^^^ (y &&& z)

/-- `SIG0` -/
def bigSigma0 (x : UInt32) : UInt32 := rotr x 2 ^^^ rotr x 13 ^^^ rotr x 22

/-- `SIG1` -/
def bigSigma1 (x : UInt32) : UInt32 := rotr x 6 ^^^ rotr x 11 ^^^ rotr x 25

def sigma0 (x : UInt32) : UInt32 := rotr x 7 ^^^ rotr x 18 ^^^ (x >>> 3)

def sigma1 (x : UInt32) : UInt32 := rotr x 17 ^^^ rotr x 19 ^^^ (x >>> 10)

/-- The eight words of the state, and the eight working variables of a compression. -/
structure Words where
  a : UInt32
  b : UInt32
  c : UInt32
  d : UInt32
  e : UInt32
  f : UInt32
  g : UInt32
  h : UInt32
  deriving DecidableEq

def Words.add (s t : Words) : Words :=
  ⟨s.a + t.a, s.b + t.b, s.c + t.c, s.d + t.d, s.e + t.e, s.f + t.f, s.g + t.g, s.h + t.h⟩

def Words.toList (s : Words) : List UInt32 := [s.a, s.b, s.c, s.d, s.e, s.f, s.g, s.h]

/-- `u32::from_be_bytes` of the four bytes at `off`. -/
def be32 (block : Bytes 64) (off : Nat) : UInt32 :=
  ((block.get off).toUInt32 <<< 24) ||| ((block.get (off + 1)).toUInt32 <<< 16) |||
    ((block.get (off + 2)).toUInt32 <<< 8) ||| (block.get (off + 3)).toUInt32

/-- The words `w[..16 + n]` of a block. -/
def schedule (block : Bytes 64) : Nat → List UInt32
  | 0 => (List.range 16).map fun t => be32 block (t * 4)
  | n + 1 =>
    let w := schedule block n
    let t := 16 + n
    w ++ [sigma1 (w.getD (t - 2) 0) + w.getD (t - 7) 0 + sigma0 (w.getD (t - 15) 0) + w.getD (t - 16) 0]

def sha256Round (s : Words) (k w : UInt32) : Words :=
  let t1 := s.h + bigSigma1 s.e + ch s.e s.f s.g + k + w
  let t2 := bigSigma0 s.a + maj s.a s.b s.c
  ⟨t1 + t2, s.a, s.b, s.c, s.d + t1, s.e, s.f, s.g⟩

def sha256Compress (state : Words) (block : Bytes 64) : Words :=
  state.add ((sha256K.zip (schedule block 48)).foldl (fun s kw => sha256Round s kw.1 kw.2) state)

structure Sha256State where
  state : Words
  buf : Bytes 64
  bufLen : Nat
  totalLen : UInt64

def sha256Init : Sha256State where
  state := ⟨0x6a09e667, 0xbb67ae85, 0x3c6ef372, 0xa54ff53a, 0x510e527f, 0x9b05688c, 0x1f83d9ab, 0x5be0cd19⟩
  buf := Bytes.zero
  bufLen := 0
  totalLen := 0

/-- One byte of `sha256_update`. -/
def sha256Push (s : Sha256State) (b : UInt8) : Sha256State :=
  let s := { s with buf := s.buf.set s.bufLen b, bufLen := s.bufLen + 1, totalLen := s.totalLen + 1 }
  if s.bufLen = 64 then { s with state := sha256Compress s.state s.buf, bufLen := 0 } else s

def sha256Update (s : Sha256State) (data : List UInt8) : Sha256State := data.foldl sha256Push s

/-- The loop of `sha256_final` that appends zeros, which runs at most 64 times. -/
def sha256Pad : Nat → Sha256State → Sha256State
  | 0, s => s
  | fuel + 1, s =>
    if s.bufLen % 64 = 56 then s
    else
      let s := if s.bufLen = 64 then { s with state := sha256Compress s.state s.buf, bufLen := 0 } else s
      sha256Pad fuel { s with buf := s.buf.set s.bufLen 0, bufLen := s.bufLen + 1 }

/-- The `i`-th byte of a number of `n` bytes, the highest first. -/
def beByte (n : Nat) (v : Nat) (i : Nat) : UInt8 := UInt8.ofNat (v / 2 ^ (8 * (n - 1 - i)))

def sha256Final (s : Sha256State) : Bytes 32 :=
  let bitLen := s.totalLen * 8
  let s := sha256Pad 64 { s with buf := s.buf.set s.bufLen 0x80, bufLen := s.bufLen + 1 }
  let buf : Bytes 64 := s.buf.blit 56 (fun i : Fin 8 => beByte 8 bitLen.toNat i.1 : Bytes 8)
  let state := sha256Compress s.state buf
  fun i => beByte 4 (state.toList.getD (i.1 / 4) 0).toNat (i.1 % 4)

def sha256 (data : List UInt8) : Bytes 32 := sha256Final (sha256Update sha256Init data)

end Onyx
