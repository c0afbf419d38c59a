/-! Bytes as text in the base of 64 digits, without padding. Every byte string has
one text; a text whose last digit holds bits of no byte is refused. -/
namespace Dossier.Base64

def alphabet : List Char :=
  "ABCDEFGHIJKLMNOPQRSTUVWXYZabcdefghijklmnopqrstuvwxyz0123456789+/".toList

def digit (value : Nat) : Char := alphabet.getD (value % 64) 'A'

def value? (c : Char) : Option Nat := alphabet.findIdx? (· == c)

/-- Three bytes make four digits, two make three, one makes two. -/
def encode : List UInt8 → List Char
  | a :: b :: c :: rest =>
    let group := (a.toNat * 256 + b.toNat) * 256 + c.toNat
    [digit (group / 262144), digit (group / 4096), digit (group / 64), digit group] ++ encode rest
  | [a, b] =>
    let group := (a.toNat * 256 + b.toNat) * 4
    [digit (group / 4096), digit (group / 64), digit group]
  | [a] =>
    let group := a.toNat * 16
    [digit (group / 64), digit group]
  | [] => []

def decodeValues? : List Nat → Option (List UInt8)
  | a :: b :: c :: d :: rest => do
    let group := ((a * 64 + b) * 64 + c) * 64 + d
    let bytes ← decodeValues? rest
    return [(group / 65536).toUInt8, (group / 256).toUInt8, group.toUInt8] ++ bytes
  | [a, b, c] =>
    let group := (a * 64 + b) * 64 + c
    if group % 4 = 0 then some [(group / 1024).toUInt8, (group / 4).toUInt8] else none
  | [a, b] =>
    let group := a * 64 + b
    if group % 16 = 0 then some [(group / 16).toUInt8] else none
  | [_] => none
  | [] => some []

def decode? (text : String) : Option (List UInt8) := (text.toList.mapM value?).bind decodeValues?

end Dossier.Base64
