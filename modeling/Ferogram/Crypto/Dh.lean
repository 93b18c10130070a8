import Ferogram.Lib.BigEndian

/- Checks of the Diffie-Hellman parameters that a server sends (`ferogram-crypto/src/lib.rs`).
   Only one prime is accepted. -/
namespace Ferogram.Crypto
open Bytes

def modpow (base exp modulus : Nat) : Nat := base ^ exp % modulus

inductive DhError where
  | primeLengthInvalid
  | primeTooSmall
  | primeUnknown
  | generatorOutOfRange
  | generatorInvalid
  deriving DecidableEq, Repr

def telegramDhPrime : List UInt8 := [
  0xC7, 0x1C, 0xAE, 0xB9, 0xC6, 0xB1, 0xC9, 0x04, 0x8E, 0x6C, 0x52, 0x2F, 0x70, 0xF1, 0x3F, 0x73,
  0x98, 0x0D, 0x40, 0x23, 0x8E, 0x3E, 0x21, 0xC1, 0x49, 0x34, 0xD0, 0x37, 0x56, 0x3D, 0x93, 0x0F,
  0x48, 0x19, 0x8A, 0x0A, 0xA7, 0xC1, 0x40, 0x58, 0x22, 0x94, 0x93, 0xD2, 0x25, 0x30, 0xF4, 0xDB,
  0xFA, 0x33, 0x6F, 0x6E, 0x0A, 0xC9, 0x25, 0x13, 0x95, 0x43, 0xAE, 0xD4, 0x4C, 0xCE, 0x7C, 0x37,
  0x20, 0xFD, 0x51, 0xF6, 0x94, 0x58, 0x70, 0x5A, 0xC6, 0x8C, 0xD4, 0xFE, 0x6B, 0x6B, 0x13, 0xAB,
  0xDC, 0x97, 0x46, 0x51, 0x29, 0x69, 0x32, 0x84, 0x54, 0xF1, 0x8F, 0xAF, 0x8C, 0x59, 0x5F, 0x64,
  0x24, 0x77, 0xFE, 0x96, 0xBB, 0x2A, 0x94, 0x1D, 0x5B, 0xCD, 0x1D, 0x4A, 0xC8, 0xCC, 0x49, 0x88,
  0x07, 0x08, 0xFA, 0x9B, 0x37, 0x8E, 0x3C, 0x4F, 0x3A, 0x90, 0x60, 0xBE, 0xE6, 0x7C, 0xF9, 0xA4,
  0xA4, 0xA6, 0x95, 0x81, 0x10, 0x51, 0x90, 0x7E, 0x16, 0x27, 0x53, 0xB5, 0x6B, 0x0F, 0x6B, 0x41,
  0x0D, 0xBA, 0x74, 0xD8, 0xA8, 0x4B, 0x2A, 0x14, 0xB3, 0x14, 0x4E, 0x0E, 0xF1, 0x28, 0x47, 0x54,
  0xFD, 0x17, 0xED, 0x95, 0x0D, 0x59, 0x65, 0xB4, 0xB9, 0xDD, 0x46, 0x58, 0x2D, 0xB1, 0x17, 0x8D,
  0x16, 0x9C, 0x6B, 0xC4, 0x65, 0xB0, 0xD6, 0xFF, 0x9C, 0xA3, 0x92, 0x8F, 0xEF, 0x5B, 0x9A, 0xE4,
  0xE4, 0x18, 0xFC, 0x15, 0xE8, 0x3E, 0xBE, 0xA0, 0xF8, 0x7F, 0xA9, 0xFF, 0x5E, 0xED, 0x70, 0x05,
  0x0D, 0xED, 0x28, 0x49, 0xF4, 0x7B, 0xF9, 0x59, 0xD9, 0x56, 0x85, 0x0C, 0xE9, 0x29, 0x85, 0x1F,
  0x0D, 0x81, 0x15, 0xF6, 0x35, 0xB1, 0x05, 0xEE, 0x2E, 0x4E, 0x15, 0xD0, 0x4B, 0x24, 0x54, 0xBF,
  0x6F, 0x4F, 0xAD, 0xF0, 0x34, 0xB1, 0x04, 0x03, 0x11, 0x9C, 0xD8, 0xE3, 0xB9, 0x2F, 0xCC, 0x5B]

/-- Big-endian bytes modulo a small number. -/
def primeResidue (bytes : List UInt8) (modulus : Nat) : Nat :=
  bytes.foldl (fun acc b => (acc * 256 + b.toNat) % modulus) 0

def checkPAndG (dhPrime : List UInt8) (g : UInt32) : Except DhError Unit :=
  if dhPrime.length ≠ 256 then .error .primeLengthInvalid
  else if dhPrime.headD 0 &&& 0x80 = 0 then .error .primeTooSmall
  else if dhPrime ≠ telegramDhPrime then .error .primeUnknown
  else if ¬(2 ≤ g ∧ g ≤ 7) then .error .generatorOutOfRange
  else
    let valid : Bool :=
      if g = 2 then primeResidue dhPrime 8 = 7
      else if g = 3 then primeResidue dhPrime 3 = 2
      else if g = 4 then true
      else if g = 5 then primeResidue dhPrime 5 = 1 ∨ primeResidue dhPrime 5 = 4
      else if g = 6 then primeResidue dhPrime 24 = 19 ∨ primeResidue dhPrime 24 = 23
      else primeResidue dhPrime 7 = 3 ∨ primeResidue dhPrime 7 = 5 ∨ primeResidue dhPrime 7 = 6
    if valid then .ok () else .error .generatorInvalid

/-- What is accepted is the known prime. -/
theorem checkPAndG_ok {dhPrime : List UInt8} {g : UInt32} (h : checkPAndG dhPrime g = .ok ()) :
    dhPrime.length = 256 ∧ dhPrime = telegramDhPrime := by
  unfold checkPAndG at h
  split at h
  · cases h
  · next hlen =>
    split at h
    · cases h
    · split at h
      · cases h
      · next hprime => exact ⟨not_not.mp hlen, not_not.mp hprime⟩

end Ferogram.Crypto
