import Dossier.Password.Blake2b

/-! The password hash functions Argon2d, Argon2i and Argon2id of RFC 9106, in the
version of the RFC, 19, and in the one before it, 16. -/
namespace Dossier.Argon2

inductive Variant where
  | d
  | i
  | id
deriving DecidableEq

def Variant.code : Variant → Nat
  | d => 0
  | i => 1
  | id => 2

/-- What a hash is made with, password and salt apart. -/
structure Settings where
  variant : Variant
  version : Nat
  /-- In blocks of 1024 bytes. -/
  memory : Nat
  passes : Nat
  lanes : Nat
  size : Nat
  associated : ByteArray := ByteArray.empty

/-- The four bytes of a number, the lowest first. -/
def word32 (n : Nat) : ByteArray :=
  ⟨#[n.toUInt8, (n / 256).toUInt8, (n / 65536).toUInt8, (n / 16777216).toUInt8]⟩

/-! ### Hashes of any length -/

/-- The halves of a chain of hashes, then the last hash whole, cut to `size` bytes. -/
def chain : (links : Nat) → (size : Nat) → (link : ByteArray) → ByteArray
  | 0, size, link => Blake2b.hash size link
  | links + 1, size, link =>
    link.extract 0 32 ++
      if links = 0 then Blake2b.hash (size - 32) link
      else chain links (size - 32) (Blake2b.hash 64 link)

/-- A hash of any number of bytes. -/
def longHash (size : Nat) (message : ByteArray) : ByteArray :=
  let message := word32 size ++ message
  if size ≤ 64 then Blake2b.hash size message
  else chain ((size + 31) / 32 - 2) size (Blake2b.hash 64 message)

/-! ### Blocks -/

/-- A block of 128 words. -/
abbrev Block := Array UInt64

def zeroBlock : Block := Array.replicate 128 0

def Block.ofBytes (bytes : ByteArray) : Block :=
  ((List.range 128).map fun i => Blake2b.wordAt bytes (8 * i)).toArray

def xor (a b : Block) : Block := Array.zipWith (· ^^^ ·) a b

@[inline] def addMul (a b : UInt64) : UInt64 :=
  a + b + 2 * (a &&& 0xffffffff) * (b &&& 0xffffffff)

@[inline] def quarter (a b c d : UInt64) (next : UInt64 → UInt64 → UInt64 → UInt64 → Block) : Block :=
  let a := addMul a b
  let d := Blake2b.rotateRight (d ^^^ a) 32
  let c := addMul c d
  let b := Blake2b.rotateRight (b ^^^ c) 24
  let a := addMul a b
  let d := Blake2b.rotateRight (d ^^^ a) 16
  let c := addMul c d
  let b := Blake2b.rotateRight (b ^^^ c) 63
  next a b c d

/-- Mixes four words of a block in their places. -/
@[inline] def mixAt (z : Block) (i j k l : Nat) : Block :=
  quarter (z.getD i 0) (z.getD j 0) (z.getD k 0) (z.getD l 0) fun a b c d =>
    (((z.setIfInBounds i a).setIfInBounds j b).setIfInBounds k c).setIfInBounds l d

/-- Mixes sixteen words of a block, which stand in pairs `stride` words apart. -/
def permute (z : Block) (start stride : Nat) : Block :=
  let nth (n : Nat) : Nat := start + stride * (n / 2) + n % 2
  let z := mixAt z (nth 0) (nth 4) (nth 8) (nth 12)
  let z := mixAt z (nth 1) (nth 5) (nth 9) (nth 13)
  let z := mixAt z (nth 2) (nth 6) (nth 10) (nth 14)
  let z := mixAt z (nth 3) (nth 7) (nth 11) (nth 15)
  let z := mixAt z (nth 0) (nth 5) (nth 10) (nth 15)
  let z := mixAt z (nth 1) (nth 6) (nth 11) (nth 12)
  let z := mixAt z (nth 2) (nth 7) (nth 8) (nth 13)
  mixAt z (nth 3) (nth 4) (nth 9) (nth 14)

/-- The compression of two blocks: rows, then columns, of their difference. -/
def compress (x y : Block) : Block :=
  let r := xor x y
  let z := Nat.fold 8 (fun i _ z => permute z (16 * i) 2) r
  let z := Nat.fold 8 (fun i _ z => permute z (2 * i) 16) z
  xor z r

/-! ### Filling the memory -/

/-- The memory in use: four segments a lane, all of one length. -/
structure Shape where
  lanes : Nat
  segment : Nat

def Shape.lane (shape : Shape) : Nat := 4 * shape.segment

def Settings.shape (s : Settings) : Shape := ⟨s.lanes, s.memory / (4 * s.lanes)⟩

/-- The place of a segment in the order of filling. -/
structure Place where
  pass : Nat
  slice : Nat
  lane : Nat

def Settings.initialHash (s : Settings) (password salt : ByteArray) : ByteArray :=
  Blake2b.hash 64 (word32 s.lanes ++ word32 s.size ++ word32 s.memory ++ word32 s.passes ++
    word32 s.version ++ word32 s.variant.code ++ word32 password.size ++ password ++
    word32 salt.size ++ salt ++ word32 0 ++ word32 s.associated.size ++ s.associated)

/-- The memory with the first two blocks of every lane. -/
def Settings.start (s : Settings) (initial : ByteArray) : Array Block :=
  let memory := Array.replicate (s.lanes * s.shape.lane) zeroBlock
  Nat.fold s.lanes (fun lane _ memory =>
    let block (n : Nat) := Block.ofBytes (longHash 1024 (initial ++ word32 n ++ word32 lane))
    (memory.setIfInBounds (lane * s.shape.lane) (block 0)).setIfInBounds
      (lane * s.shape.lane + 1) (block 1)) memory

/-- Whether the blocks referred to in a segment do not depend on the password. -/
def Settings.isIndependent (s : Settings) (place : Place) : Bool :=
  match s.variant with
  | .d => false
  | .i => true
  | .id => place.pass == 0 && place.slice < 2

/-- The random words for 128 blocks of a segment of that kind. -/
def Settings.addresses (s : Settings) (place : Place) (counter : Nat) : Block :=
  let input := [place.pass, place.lane, place.slice, s.lanes * s.shape.lane, s.passes, s.variant.code,
    counter].map Nat.toUInt64
  let block := (input ++ List.replicate 121 0).toArray
  compress zeroBlock (compress zeroBlock block)

/-- The place in its lane of the block that block `index` of a segment refers to. -/
def Shape.reference (shape : Shape) (place : Place) (index : Nat) (sameLane : Bool) (random : Nat) : Nat :=
  let finished := if place.pass = 0 then place.slice * shape.segment else 3 * shape.segment
  let area :=
    if sameLane then finished + index - 1 else if index = 0 then finished - 1 else finished
  let skewed := random * random / 0x100000000
  let relative := area - 1 - area * skewed / 0x100000000
  let first := if place.pass = 0 ∨ place.slice = 3 then 0 else (place.slice + 1) * shape.segment
  (first + relative) % shape.lane

/-- Fills the blocks of a segment from `index` on. -/
def Settings.fillSegment (s : Settings) (place : Place) :
    (blocks : Nat) → (index : Nat) → (addresses : Block) → Array Block → Array Block
  | 0, _, _, memory => memory
  | blocks + 1, index, addresses, memory =>
    let shape := s.shape
    let base := place.lane * shape.lane
    let offset := place.slice * shape.segment + index
    let previous := memory.getD (base + (offset + shape.lane - 1) % shape.lane) zeroBlock
    let independent := s.isIndependent place
    let addresses :=
      if independent && index % 128 == 0 then s.addresses place (index / 128 + 1) else addresses
    let random := (if independent then addresses.getD (index % 128) 0 else previous.getD 0 0).toNat
    let lane := if place.pass = 0 ∧ place.slice = 0 then place.lane else random / 0x100000000 % s.lanes
    let position := shape.reference place index (lane == place.lane) (random % 0x100000000)
    let block := compress previous (memory.getD (lane * shape.lane + position) zeroBlock)
    let block :=
      if place.pass = 0 ∨ s.version = 16 then block
      else xor block (memory.getD (base + offset) zeroBlock)
    s.fillSegment place blocks (index + 1) addresses (memory.setIfInBounds (base + offset) block)

def Settings.fill (s : Settings) (memory : Array Block) : Array Block :=
  Nat.fold s.passes (fun pass _ memory =>
    Nat.fold 4 (fun slice _ memory =>
      Nat.fold s.lanes (fun lane _ memory =>
        let place : Place := ⟨pass, slice, lane⟩
        let first := if pass = 0 ∧ slice = 0 then 2 else 0
        let addresses := if s.isIndependent place then s.addresses place 1 else zeroBlock
        s.fillSegment place (s.shape.segment - first) first addresses memory) memory) memory) memory

/-- The hash of a password. -/
def hash (s : Settings) (password salt : ByteArray) : ByteArray :=
  let memory := s.fill (s.start (s.initialHash password salt))
  let last := Nat.fold s.lanes (fun lane _ block =>
    xor block (memory.getD (lane * s.shape.lane + s.shape.lane - 1) zeroBlock)) zeroBlock
  longHash s.size (Blake2b.bytesOfWords last)

end Dossier.Argon2
