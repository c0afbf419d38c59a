import Dossier.Password.Argon2
import Dossier.Password.Phc
import Dossier.Json.Reader

/-! Hashing and checking of passwords, and the costs it is done at. -/
namespace Dossier

/-- The costs of hashing a password. -/
structure HashParams where
  /-- In kibibytes. -/
  memoryCost : Nat := 19456
  timeCost : Nat := 2
  parallelism : Nat := 1
deriving DecidableEq

/-- Costs that hashing cannot be done at. -/
inductive HashFault where
  | littleMemory
  | littleTime
  | noThreads
  | manyThreads
deriving DecidableEq

def HashFault.message : HashFault → String
  | littleMemory => "memory cost is too small"
  | littleTime => "time cost is too small"
  | noThreads => "not enough threads"
  | manyThreads => "too many threads"

inductive PasswordError where
  | invalidParams (fault : HashFault)
  /-- What is stored in the place of a hash is none that can be checked. -/
  | malformedHash
deriving DecidableEq

def PasswordError.message : PasswordError → String
  | invalidParams fault => s!"invalid hash parameters: {fault.message}"
  | malformedHash => "malformed password hash"

/-- Costs are in order if there are eight blocks of memory for each thread, one pass
and one thread at least, and no more threads than 24 bits can count. -/
def HashParams.check (params : HashParams) : Except HashFault Unit :=
  if params.memoryCost < 8 ∨ params.memoryCost < min (8 * params.parallelism) 0xFFFFFFFF then
    .error .littleMemory
  else if params.timeCost < 1 then .error .littleTime
  else if params.parallelism < 1 then .error .noThreads
  else if 16777215 < params.parallelism then .error .manyThreads
  else .ok ()

/-- A way of hashing passwords. -/
structure Hasher where
  /-- The hash of a password with a salt. -/
  hash : (salt : ByteArray) → (plain : String) → String
  /-- Whether a stored hash is that of a password; `none` if it is no hash. -/
  verify : (candidate stored : String) → Option Bool

namespace Argon2

def variantOf? : String → Option Variant
  | "argon2d" => some .d
  | "argon2i" => some .i
  | "argon2id" => some .id
  | _ => none

/-- Takes over one parameter of a hash. -/
def applyParameter (params : HashParams × ByteArray) (parameter : String × String) :
    Option (HashParams × ByteArray) :=
  let (costs, associated) := params
  match parameter with
  | ("m", value) => do return ({ costs with memoryCost := ← PhcHash.decimal? value }, associated)
  | ("t", value) => do return ({ costs with timeCost := ← PhcHash.decimal? value }, associated)
  | ("p", value) => do return ({ costs with parallelism := ← PhcHash.decimal? value }, associated)
  | ("keyid", value) => do
    guard ((← Base64.decode? value).length ≤ 8)
    return (costs, associated)
  | ("data", value) => do
    let bytes ← Base64.decode? value
    guard (bytes.length ≤ 32)
    return (costs, ⟨bytes.toArray⟩)
  | _ => none

/-- How a stored hash was made, as far as it tells, and its salt. -/
def settingsOf? (stored : PhcHash) (salt : String) (size : Nat) : Option (Settings × ByteArray) := do
  let variant ← variantOf? stored.algorithm
  let version := stored.version.getD 19
  guard (version = 16 ∨ version = 19)
  let (costs, associated) ← stored.parameters.foldlM applyParameter ({}, ByteArray.empty)
  guard costs.check.isOk
  let salt ← Base64.decode? salt
  guard (8 ≤ salt.length)
  return (⟨variant, version, costs.memoryCost, costs.timeCost, costs.parallelism, size, associated⟩,
    ⟨salt.toArray⟩)

/-- Checks a password against a stored hash, at the costs the hash was made at. A
hash that stops before its last part is that of no password. -/
def verify (candidate stored : String) : Option Bool := do
  let parsed ← PhcHash.parse? stored
  match parsed.salt, parsed.hash with
  | some salt, some expected =>
    let (settings, salt) ← settingsOf? parsed salt expected.length
    return (Argon2.hash settings candidate.toUTF8 salt).toList == expected
  | _, _ => return false

/-- The text of the Argon2id hash of a password. -/
def hashText (params : HashParams) (salt : ByteArray) (plain : String) : String :=
  let settings : Settings :=
    ⟨.id, 19, params.memoryCost, params.timeCost, params.parallelism, 32, ByteArray.empty⟩
  let bytes := Argon2.hash settings plain.toUTF8 salt
  let costs := s!"m={params.memoryCost},t={params.timeCost},p={params.parallelism}"
  let salt := String.ofList (Base64.encode salt.toList)
  s!"$argon2id$v=19${costs}${salt}$" ++ String.ofList (Base64.encode bytes.toList)

end Argon2

/-- Argon2id at given costs. -/
def Hasher.argon2id (params : HashParams) : Except PasswordError Hasher :=
  match params.check with
  | .ok () => .ok ⟨Argon2.hashText params, Argon2.verify⟩
  | .error fault => .error (.invalidParams fault)

/-! ### The JSON form of costs -/

open Json in
def HashParams.read (levels : Nat) (tree : Tree) : Option HashParams := do
  let fields ← tree.fields? levels ["memory_cost", "time_cost", "parallelism"]
  let word := Tree.natural? 0x100000000
  return ⟨← fields.optional "memory_cost" 19456 word, ← fields.optional "time_cost" 2 word,
    ← fields.optional "parallelism" 1 word⟩

def HashParams.ofText? (text : String) : Option HashParams :=
  Json.read? (HashParams.read Json.nestingLimit) text

def HashParams.toJson (params : HashParams) : Json :=
  .record [("memory_cost", some (.count params.memoryCost)),
    ("time_cost", some (.count params.timeCost)), ("parallelism", some (.count params.parallelism))]

end Dossier
