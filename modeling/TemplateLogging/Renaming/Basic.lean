import TemplateLogging.Renaming.Sha256
import TemplateLogging.Text.Utf8

namespace TemplateLogging

namespace Base36

def digitChar (n : Nat) : Char :=
  if n < 10 then Char.ofNat ('0'.toNat + n) else Char.ofNat ('a'.toNat + (n - 10))

/-- The digits of a number, the highest first; only zero starts with `0`. -/
def digits (n : Nat) : List Char :=
  if n < 36 then [digitChar n] else digits (n / 36) ++ [digitChar (n % 36)]
termination_by n
decreasing_by omega

def digitValue (c : Char) : Nat :=
  if c.isDigit then c.toNat - '0'.toNat else c.toNat - 'a'.toNat + 10

/-- The number that digits write. -/
def value (digits : List Char) : Nat :=
  digits.foldl (fun n c => 36 * n + digitValue c) 0

end Base36

/-- What becomes of a key without an entry. -/
inductive Fallback where
  | identity
  | hashed
deriving DecidableEq

/-- A table of names; of two entries for one key the one in front counts. -/
structure Renaming where
  table : List (String × String) := []
  fallback : Fallback := .identity

namespace Renaming

/-- Reads bytes as one number, the first byte highest. -/
def numberOfBytes (bytes : List UInt8) : Nat :=
  bytes.foldl (fun n b => 256 * n + b.toNat) 0

/-- The letter `x` and the first five bytes of the digest in base 36. -/
def hashedNameWith (hash : List UInt8 → List UInt8) (key : String) : String :=
  let digest := hash (Text.utf8Bytes key.toList)
  String.ofList ('x' :: Base36.digits (numberOfBytes (digest.take 5)))

def hashedName (key : String) : String :=
  hashedNameWith Sha256.digest key

def insert (r : Renaming) (key name : String) : Renaming :=
  { r with table := (key, name) :: r.table }

def xid (r : Renaming) (key : String) : String :=
  match List.lookup key r.table with
  | some name => name
  | none =>
      match r.fallback with
      | .identity => key
      | .hashed => hashedName key

end Renaming

end TemplateLogging
