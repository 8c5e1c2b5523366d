import Fluxion.Text.Quoted

/-!
# BLAKE2b

The BLAKE2b hash function without a key, on lists of bytes, with a digest of
any length up to 64 bytes.

The state is mixed block by block. A block is 128 bytes, read as sixteen words
with the low byte first; the last block is filled with zeros and marked, and
the number of bytes hashed so far enters every block.
-/

namespace Fluxion.Digest.Blake2b

open Fluxion.Text

abbrev Chain := Vector UInt64 8

abbrev Words := Vector UInt64 16

/-- The fractional parts of the square roots of the first eight primes. -/
def initial : Chain :=
  #v[0x6a09e667f3bcc908, 0xbb67ae8584caa73b, 0x3c6ef372fe94f82b, 0xa54ff53a5f1d36f1,
    0x510e527fade682d1, 0x9b05688c2b3e6c1f, 0x1f83d9abfb41bd6b, 0x5be0cd19137e2179]

/-- The order in which each round takes the words of the block. -/
def schedule : List (Vector (Fin 16) 16) := [
  #v[0, 1, 2, 3, 4, 5, 6, 7, 8, 9, 10, 11, 12, 13, 14, 15],
  #v[14, 10, 4, 8, 9, 15, 13, 6, 1, 12, 0, 2, 11, 7, 5, 3],
  #v[11, 8, 12, 0, 5, 2, 15, 13, 10, 14, 3, 6, 7, 1, 9, 4],
  #v[7, 9, 3, 1, 13, 12, 11, 14, 2, 6, 5, 10, 4, 0, 15, 8],
  #v[9, 0, 5, 7, 2, 4, 10, 15, 14, 1, 11, 12, 6, 8, 3, 13],
  #v[2, 12, 6, 10, 0, 11, 8, 3, 4, 13, 7, 5, 15, 14, 1, 9],
  #v[12, 5, 1, 15, 14, 13, 4, 10, 0, 7, 6, 3, 9, 2, 8, 11],
  #v[13, 11, 7, 14, 12, 1, 3, 9, 5, 0, 15, 4, 8, 6, 2, 10],
  #v[6, 15, 14, 9, 11, 3, 0, 8, 12, 2, 13, 7, 1, 4, 10, 5],
  #v[10, 2, 8, 4, 7, 6, 1, 5, 15, 11, 9, 14, 3, 12, 13, 0],
  #v[0, 1, 2, 3, 4, 5, 6, 7, 8, 9, 10, 11, 12, 13, 14, 15],
  #v[14, 10, 4, 8, 9, 15, 13, 6, 1, 12, 0, 2, 11, 7, 5, 3]]

def rotateRight (w : UInt64) (places : UInt64) : UInt64 :=
  (w >>> places) ||| (w <<< (64 - places))

/-- Mixes two words of the block into four words of the state. -/
def mix (v : Words) (a b c d : Fin 16) (x y : UInt64) : Words :=
  let v := v.set a (v[a] + v[b] + x)
  let v := v.set d (rotateRight (v[d] ^^^ v[a]) 32)
  let v := v.set c (v[c] + v[d])
  let v := v.set b (rotateRight (v[b] ^^^ v[c]) 24)
  let v := v.set a (v[a] + v[b] + y)
  let v := v.set d (rotateRight (v[d] ^^^ v[a]) 16)
  let v := v.set c (v[c] + v[d])
  v.set b (rotateRight (v[b] ^^^ v[c]) 63)

/-- One round: the columns, then the diagonals. -/
def round (block : Words) (v : Words) (order : Vector (Fin 16) 16) : Words :=
  let word (i : Fin 16) : UInt64 := block[order[i]]
  let v := mix v 0 4 8 12 (word 0) (word 1)
  let v := mix v 1 5 9 13 (word 2) (word 3)
  let v := mix v 2 6 10 14 (word 4) (word 5)
  let v := mix v 3 7 11 15 (word 6) (word 7)
  let v := mix v 0 5 10 15 (word 8) (word 9)
  let v := mix v 1 6 11 12 (word 10) (word 11)
  let v := mix v 2 7 8 13 (word 12) (word 13)
  mix v 3 4 9 14 (word 14) (word 15)

def wordSize : Nat := 0x10000000000000000

/-- Works a block into the chaining value; `count` bytes are hashed once it is in. -/
def compress (h : Chain) (block : Words) (count : Nat) (final : Bool) : Chain :=
  let v : Words := h ++ initial
  let v := v.set 12 (v[12] ^^^ UInt64.ofNat (count % wordSize))
  let v := v.set 13 (v[13] ^^^ UInt64.ofNat (count / wordSize))
  let v := if final then v.set 14 (v[14] ^^^ 0xffffffffffffffff) else v
  let v := schedule.foldl (round block) v
  Vector.ofFn fun (i : Fin 8) => h[i] ^^^ v[i.val] ^^^ v[i.val + 8]

def wordOfBytes (bytes : List UInt8) : UInt64 :=
  bytes.foldr (fun byte word => (word <<< 8) ||| byte.toUInt64) 0

def wordsOfBytes (bytes : List UInt8) : Words :=
  Vector.ofFn fun i => wordOfBytes ((bytes.drop (8 * i.val)).take 8)

/-- The bytes of a word, the low one first. -/
def bytesOfWord (word : UInt64) : List UInt8 :=
  (List.range 8).map fun i => (word >>> UInt64.ofNat (8 * i)).toUInt8

/-- Works in all bytes; `count` were worked in before. The last block is the one
after which nothing follows. -/
def absorb (h : Chain) (count : Nat) (bytes : List UInt8) : Chain :=
  if 128 < bytes.length then
    absorb (compress h (wordsOfBytes (bytes.take 128)) (count + 128) false) (count + 128)
      (bytes.drop 128)
  else compress h (wordsOfBytes bytes) (count + bytes.length) true
termination_by bytes.length
decreasing_by
  simp only [List.length_drop]
  omega

def digest (size : Nat) (bytes : List UInt8) : List UInt8 :=
  let h := initial.set 0 (initial[0] ^^^ 0x01010000 ^^^ UInt64.ofNat size)
  ((absorb h 0 bytes).toList.flatMap bytesOfWord).take size

def hexText (bytes : List UInt8) : String :=
  String.ofList (bytes.flatMap fun byte => hexDigits 2 byte.toNat)

end Fluxion.Digest.Blake2b
