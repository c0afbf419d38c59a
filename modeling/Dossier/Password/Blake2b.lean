/-! The hash function BLAKE2b of RFC 7693, without a key. -/
namespace Dossier.Blake2b

@[inline] def rotateRight (x n : UInt64) : UInt64 := (x >>> n) ||| (x <<< (64 - n))

def initialState : Array UInt64 :=
  #[0x6a09e667f3bcc908, 0xbb67ae8584caa73b, 0x3c6ef372fe94f82b, 0xa54ff53a5f1d36f1,
    0x510e527fade682d1, 0x9b05688c2b3e6c1f, 0x1f83d9abfb41bd6b, 0x5be0cd19137e2179]

/-- The order in which each of the twelve rounds takes the words of a block. -/
def schedule : Array (Array Nat) :=
  #[#[0, 1, 2, 3, 4, 5, 6, 7, 8, 9, 10, 11, 12, 13, 14, 15],
    #[14, 10, 4, 8, 9, 15, 13, 6, 1, 12, 0, 2, 11, 7, 5, 3],
    #[11, 8, 12, 0, 5, 2, 15, 13, 10, 14, 3, 6, 7, 1, 9, 4],
    #[7, 9, 3, 1, 13, 12, 11, 14, 2, 6, 5, 10, 4, 0, 15, 8],
    #[9, 0, 5, 7, 2, 4, 10, 15, 14, 1, 11, 12, 6, 8, 3, 13],
    #[2, 12, 6, 10, 0, 11, 8, 3, 4, 13, 7, 5, 15, 14, 1, 9],
    #[12, 5, 1, 15, 14, 13, 4, 10, 0, 7, 6, 3, 9, 2, 8, 11],
    #[13, 11, 7, 14, 12, 1, 3, 9, 5, 0, 15, 4, 8, 6, 2, 10],
    #[6, 15, 14, 9, 11, 3, 0, 8, 12, 2, 13, 7, 1, 4, 10, 5],
    #[10, 2, 8, 4, 7, 6, 1, 5, 15, 11, 9, 14, 3, 12, 13, 0],
    #[0, 1, 2, 3, 4, 5, 6, 7, 8, 9, 10, 11, 12, 13, 14, 15],
    #[14, 10, 4, 8, 9, 15, 13, 6, 1, 12, 0, 2, 11, 7, 5, 3]]

/-- The four words that each mixing step of a round works on. -/
def lanes : List (Nat × Nat × Nat × Nat) :=
  [(0, 4, 8, 12), (1, 5, 9, 13), (2, 6, 10, 14), (3, 7, 11, 15),
   (0, 5, 10, 15), (1, 6, 11, 12), (2, 7, 8, 13), (3, 4, 9, 14)]

def mix (v : Array UInt64) (lane : Nat × Nat × Nat × Nat) (x y : UInt64) : Array UInt64 :=
  let (i, j, k, l) := lane
  let a := v.getD i 0 + v.getD j 0 + x
  let d := rotateRight (v.getD l 0 ^^^ a) 32
  let c := v.getD k 0 + d
  let b := rotateRight (v.getD j 0 ^^^ c) 24
  let a := a + b + y
  let d := rotateRight (d ^^^ a) 16
  let c := c + d
  let b := rotateRight (b ^^^ c) 63
  (((v.setIfInBounds i a).setIfInBounds j b).setIfInBounds k c).setIfInBounds l d

def round (words : Array UInt64) (order : Array Nat) (v : Array UInt64) : Array UInt64 :=
  lanes.zipIdx.foldl (fun v (lane, step) =>
    mix v lane (words.getD (order.getD (2 * step) 0) 0) (words.getD (order.getD (2 * step + 1) 0) 0)) v

/-- The state after a block of sixteen words; `taken` counts the bytes of the
message up to its end. -/
def compress (state words : Array UInt64) (taken : Nat) (last : Bool) : Array UInt64 :=
  let v := state ++ initialState
  let v := v.modify 12 (· ^^^ taken.toUInt64)
  let v := if last then v.modify 14 (· ^^^ 0xffffffffffffffff) else v
  let v := schedule.foldl (fun v order => round words order v) v
  state.mapIdx fun i word => word ^^^ v.getD i 0 ^^^ v.getD (i + 8) 0

/-- The word made of the eight bytes from an offset on, the first the lowest; bytes
beyond the end are zero. -/
def wordAt (bytes : ByteArray) (offset : Nat) : UInt64 :=
  (List.range 8).foldr (fun i word => (word <<< 8) ||| (bytes.data.getD (offset + i) 0).toUInt64) 0

def blockAt (bytes : ByteArray) (offset : Nat) : Array UInt64 :=
  ((List.range 16).map fun i => wordAt bytes (offset + 8 * i)).toArray

/-- The eight bytes of a word, the lowest first. -/
def bytesOfWord (word : UInt64) : List UInt8 :=
  (List.range 8).map fun i => (word >>> (8 * i).toUInt64).toUInt8

def bytesOfWords (words : Array UInt64) : ByteArray :=
  words.foldl (fun bytes word => (bytesOfWord word).foldl ByteArray.push bytes) ByteArray.empty

/-- The hash of some bytes, `size` bytes long, at most sixty-four. -/
def hash (size : Nat) (message : ByteArray) : ByteArray :=
  let state := initialState.modify 0 (· ^^^ (0x01010000 + size).toUInt64)
  let full := (message.size - 1) / 128
  let state := (List.range full).foldl (fun state i =>
    compress state (blockAt message (128 * i)) (128 * (i + 1)) false) state
  let state := compress state (blockAt message (128 * full)) message.size true
  (bytesOfWords state).extract 0 size

end Dossier.Blake2b
