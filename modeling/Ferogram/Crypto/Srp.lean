import Mathlib.Data.Int.ModEq
import Mathlib.Tactic.Ring
import Ferogram.Crypto.DataV2
import Ferogram.Crypto.Dh

/- The password proof of two-factor authentication (`ferogram-crypto/src/srp.rs`).

   The hash is the one of `Primitives` and the key derivation function is an argument. Numbers
   are natural numbers, except for the difference that is reduced into the field: that one is an
   integer, and `rem_euclid` its remainder. `clientSecret` is the number that the source calls
   `big_sa`.

   The server has no code in this repository. It is written from the protocol: it keeps the
   verifier, sends `B`, and expects a proof made from its own value of the secret. The bytes it
   hashes for the modulus are an argument. -/
namespace Ferogram.Crypto
open Bytes

inductive SrpError where
  | gbOutOfRange
  | gaOutOfRange
  deriving DecidableEq, Repr

def pad256 (data : List UInt8) : List UInt8 := padLeft 256 data

def xor32 (a b : List UInt8) : List UInt8 := List.zipWith (· ^^^ ·) a b

/-- `base^(a + u*x)`, where `base` is `B` less the verifier's part. -/
def clientSecret (p g gB a k u x : Nat) : Nat :=
  let v := modpow g x p
  let kv := k * v % p
  let t := ((gB : Int) - kv) % p
  modpow t.toNat (a + u * x) p

section
variable (P : Primitives) (pbkdf2 : (password salt : List UInt8) → (rounds : Nat) → List.Vector UInt8 64)

def sh (data salt : List UInt8) : List UInt8 := (P.sha256 (salt ++ data ++ salt)).1

def ph1 (password salt1 salt2 : List UInt8) : List UInt8 := sh P (sh P password salt1) salt2

def ph2 (password salt1 salt2 : List UInt8) : List UInt8 :=
  let hash1 := ph1 P password salt1 salt2
  let dk := (pbkdf2 hash1 salt1 100000).1
  sh P dk salt2

/-- The proof `M1` and the padded `A`. The modulus is hashed as it came, and of `g` its low byte. -/
def calculate2fa (salt1 salt2 p : List UInt8) (g : Int32) (gB a password : List UInt8) :
    Except SrpError (List UInt8 × List UInt8) :=
  let bigP := ofBe p
  let gB := pad256 gB
  let a := pad256 a
  let gHash := pad256 [g.toUInt32.toUInt8]
  let bigGB := ofBe gB
  let bigG := g.toUInt32.toNat
  let bigA := ofBe a
  if bigGB ≤ 1 ∨ bigP ≤ bigGB + 1 then .error .gbOutOfRange
  else
    let bigK := ofBe (P.sha256 (p ++ gHash)).1
    let gA := pad256 (toBytesBe (modpow bigG bigA bigP))
    let bigGA := ofBe gA
    if bigGA ≤ 1 ∨ bigP ≤ bigGA + 1 then .error .gaOutOfRange
    else
      let bigU := ofBe (P.sha256 (gA ++ gB)).1
      let bigX := ofBe (ph2 P pbkdf2 password salt1 salt2)
      let bigSA := clientSecret bigP bigG bigGB bigA bigK bigU bigX
      let kA := (P.sha256 (pad256 (toBytesBe bigSA))).1
      let pXg := xor32 (P.sha256 p).1 (P.sha256 gHash).1
      .ok ((P.sha256 (pXg ++ (P.sha256 salt1).1 ++ (P.sha256 salt2).1 ++ gA ++ gB ++ kA)).1, gA)

end

/-! The server. -/

/-- What the server has stored for a user, and its private exponent. -/
structure SrpServer where
  salt1 : List UInt8
  salt2 : List UInt8
  /-- The modulus as it is hashed, and as a number. -/
  pBytes : List UInt8
  p : Nat
  g : Nat
  verifier : Nat
  b : Nat

namespace SrpServer
variable (P : Primitives) (s : SrpServer)

def k : Nat := ofBe (P.sha256 (s.pBytes ++ be 256 s.g)).1

def gB : Nat := (s.k P * s.verifier + s.g ^ s.b) % s.p

def u (gA : Nat) : Nat := ofBe (P.sha256 (be 256 gA ++ be 256 (s.gB P))).1

def secret (gA : Nat) : Nat := (gA * s.verifier ^ s.u P gA) ^ s.b % s.p

/-- The proof it expects from a client that sent `A`. -/
def m1 (gA : Nat) : List UInt8 :=
  let kA := (P.sha256 (be 256 (s.secret P gA))).1
  let pXg := xor32 (P.sha256 s.pBytes).1 (P.sha256 (be 256 s.g)).1
  (P.sha256 (pXg ++ (P.sha256 s.salt1).1 ++ (P.sha256 s.salt2).1 ++ be 256 gA ++
    be 256 (s.gB P) ++ kA)).1

end SrpServer

/-! The two secrets. -/

/-- The base of the client's power is the server's power, also where the difference is negative. -/
theorem base_eq (p k v w : Nat) :
    (((((k * v + w) % p : Nat) : Int) - (k * v % p : Nat)) % p).toNat = w % p := by
  have hmod : (((k * v + w) % p : Nat) : Int) - (k * v % p : Nat) ≡ w [ZMOD p] := by
    calc (((k * v + w) % p : Nat) : Int) - (k * v % p : Nat)
        ≡ ((k * v + w : Nat) : Int) - (k * v : Nat) [ZMOD p] := by
          rw [Int.natCast_mod, Int.natCast_mod]
          exact (Int.mod_modEq _ _).sub (Int.mod_modEq _ _)
      _ = w := by
          rw [Nat.cast_add]
          ring
  have hrem : ((((k * v + w) % p : Nat) : Int) - (k * v % p : Nat)) % p = ((w % p : Nat) : Int) := by
    rw [Int.natCast_mod]
    exact hmod
  rw [hrem, Int.toNat_natCast]

/-- Powers of residues, in any order. -/
theorem powers_agree (p g a b u x : Nat) :
    modpow (g ^ b % p) (a + u * x) p = (modpow g a p * modpow g x p ^ u) ^ b % p := by
  have hclient : (g ^ b % p) ^ (a + u * x) ≡ (g ^ b) ^ (a + u * x) [MOD p] := (Nat.mod_modEq _ _).pow _
  have hserver : (modpow g a p * modpow g x p ^ u) ^ b ≡ (g ^ a * (g ^ x) ^ u) ^ b [MOD p] :=
    ((Nat.mod_modEq _ _).mul ((Nat.mod_modEq _ _).pow u)).pow b
  have hpow : (g ^ b) ^ (a + u * x) = (g ^ a * (g ^ x) ^ u) ^ b := by
    ring
  calc modpow (g ^ b % p) (a + u * x) p = (g ^ b) ^ (a + u * x) % p := hclient
    _ = (g ^ a * (g ^ x) ^ u) ^ b % p := by rw [hpow]
    _ = (modpow g a p * modpow g x p ^ u) ^ b % p := hserver.symm

/-- The client's secret is the server's. -/
theorem clientSecret_eq (P : Primitives) (s : SrpServer) {x : Nat} (hv : s.verifier = modpow s.g x s.p)
    (a : Nat) :
    clientSecret s.p s.g (s.gB P) a (s.k P) (s.u P (modpow s.g a s.p)) x =
      s.secret P (modpow s.g a s.p) := by
  unfold clientSecret SrpServer.secret SrpServer.gB
  dsimp only
  rw [← hv, base_eq, powers_agree, hv]

/-! The proof. -/

/-- A number below the modulus, padded. -/
theorem pad256_toBytesBe (w : Nat) : pad256 (toBytesBe w) = be 256 w := by
  rw [pad256, padLeft_eq_be, ofBe_toBytesBe]

/-- The low byte of a small `g`. -/
theorem pad256_low_byte {g : Nat} (h : g < 256) :
    pad256 [(Int32.ofNat g).toUInt32.toUInt8] = be 256 g := by
  have hbyte : ofBe [(Int32.ofNat g).toUInt32.toUInt8] = g := by
    show (UInt32.ofNat g).toUInt8.toNat + 256 * 0 = g
    rw [UInt32.toNat_toUInt8, UInt32.toNat_ofNat']
    omega
  rw [pad256, padLeft_eq_be, hbyte]

/-- What the server has stored for a password. -/
def SrpServer.ofPassword (P : Primitives)
    (pbkdf2 : (password salt : List UInt8) → (rounds : Nat) → List.Vector UInt8 64)
    (salt1 salt2 pBytes : List UInt8) (p g b : Nat) (password : List UInt8) : SrpServer :=
  { salt1 := salt1, salt2 := salt2, pBytes := pBytes, p := p, g := g, b := b
    verifier := modpow g (ofBe (ph2 P pbkdf2 password salt1 salt2)) p }

/-- **The password proof.** For a modulus of at most 256 bytes and `g` of one byte, whatever the
password, the salts and the private numbers are: the client's secret is the server's, and where
`A` and `B` are in range the client returns the proof that the server expects. Every number but
the modulus is hashed with 256 bytes; the modulus is hashed as it came. -/
theorem password_proof_agrees (P : Primitives)
    (pbkdf2 : (password salt : List UInt8) → (rounds : Nat) → List.Vector UInt8 64)
    (salt1 salt2 p gB a password : List UInt8) (g b : Nat) (hp : p.length ≤ 256) (hg : g < 256)
    (hB : ofBe gB = (SrpServer.ofPassword P pbkdf2 salt1 salt2 p (ofBe p) g b password).gB P) :
    let s := SrpServer.ofPassword P pbkdf2 salt1 salt2 p (ofBe p) g b password
    let gA := modpow g (ofBe (pad256 a)) (ofBe p)
    (p.length = 256 → p = be 256 (ofBe p)) ∧
      clientSecret (ofBe p) g (s.gB P) (ofBe (pad256 a)) (s.k P) (s.u P gA)
        (ofBe (ph2 P pbkdf2 password salt1 salt2)) = s.secret P gA ∧
      calculate2fa P pbkdf2 salt1 salt2 p (Int32.ofNat g) gB a password =
        if s.gB P ≤ 1 ∨ ofBe p ≤ s.gB P + 1 then .error .gbOutOfRange
        else if gA ≤ 1 ∨ ofBe p ≤ gA + 1 then .error .gaOutOfRange
        else .ok (s.m1 P gA, be 256 gA) := by
  intro s gA
  have hsecret := clientSecret_eq P s rfl (ofBe (pad256 a))
  have hbigG : (Int32.ofNat g).toUInt32.toNat = g := by
    show (UInt32.ofNat g).toNat = g
    rw [UInt32.toNat_ofNat']
    omega
  refine ⟨fun hlen => (be_ofBe hlen).symm, hsecret, ?_⟩
  by_cases hzero : ofBe p = 0
  · -- there is no range to be in
    have hrange : ∀ w, w ≤ 1 ∨ ofBe p ≤ w + 1 := fun w => Or.inr (by omega)
    exact (if_pos (hrange _)).trans (if_pos (hrange _)).symm
  · have hpos : 0 < ofBe p := Nat.pos_of_ne_zero hzero
    have hlt : ∀ w, w % ofBe p < 256 ^ 256 := by
      intro w
      calc w % ofBe p < ofBe p := Nat.mod_lt w hpos
        _ < 256 ^ p.length := ofBe_lt p
        _ ≤ 256 ^ 256 := Nat.pow_le_pow_right (by decide) hp
    have hgB : pad256 gB = be 256 (s.gB P) := by
      rw [pad256, padLeft_eq_be, hB]
    have hbigGB : ofBe (be 256 (s.gB P)) = s.gB P := ofBe_be_of_lt (hlt _)
    have hbigGA : ofBe (be 256 gA) = gA := ofBe_be_of_lt (hlt _)
    unfold calculate2fa
    simp only [hgB, hbigG, pad256_low_byte hg, hbigGB, pad256_toBytesBe]
    rw [show ofBe (be 256 (modpow g (ofBe (pad256 a)) (ofBe p))) = gA from hbigGA]
    have hproof : s.m1 P gA = (P.sha256 (xor32 (P.sha256 p).1 (P.sha256 (be 256 g)).1 ++ (P.sha256 salt1).1 ++
        (P.sha256 salt2).1 ++ be 256 gA ++ be 256 (s.gB P) ++
        (P.sha256 (be 256 (clientSecret (ofBe p) g (s.gB P) (ofBe (pad256 a)) (s.k P) (s.u P gA)
          (ofBe (ph2 P pbkdf2 password salt1 salt2))))).1)).1 := by
      rw [show clientSecret (ofBe p) g (s.gB P) (ofBe (pad256 a)) (s.k P) (s.u P gA)
        (ofBe (ph2 P pbkdf2 password salt1 salt2)) = s.secret P gA from hsecret]
      rfl
    rw [hproof]
    rfl

/-! Inputs. -/

/-- A hash that adds up the bytes, modulo 5, and the length, modulo 7. -/
def sumPrimitives : Primitives where
  sha1 _ := List.Vector.replicate 20 0
  sha256 l := ⟨be 32 ((l.map UInt8.toNat).sum % 5 + l.length % 7), be_length _ _⟩
  aes256 := plainPrimitives.aes256

def zeroKdf (_ _ : List UInt8) (_ : Nat) : List.Vector UInt8 64 := List.Vector.replicate 64 0

/-- What the server of a one-letter password has for a modulus and `g`, with every number hashed
in 256 bytes, the modulus too. -/
def paddedServer (p g b : Nat) : SrpServer :=
  SrpServer.ofPassword sumPrimitives zeroKdf [1] [2] (be 256 p) p g b [97]

theorem password_proof_small_modulus :
    ofBe (toBytesBe 9) = (SrpServer.ofPassword sumPrimitives zeroKdf [1] [2] (be 256 23) (ofBe (be 256 23)) 5 3
        [97]).gB sumPrimitives ∧
      calculate2fa sumPrimitives zeroKdf [1] [2] (be 256 23) (Int32.ofNat 5) (toBytesBe 9) [3] [97] =
        .ok ((paddedServer 23 5 3).m1 sumPrimitives 10, be 256 10) := by
  have hB : ofBe (toBytesBe 9) = (SrpServer.ofPassword sumPrimitives zeroKdf [1] [2] (be 256 23)
      (ofBe (be 256 23)) 5 3 [97]).gB sumPrimitives := by decide +kernel
  have h := (password_proof_agrees sumPrimitives zeroKdf [1] [2] (be 256 23) (toBytesBe 9) [3] [97] 5 3
    (by decide +kernel) (by decide) hB).2.2
  exact ⟨hB, h.trans (by decide +kernel)⟩

/-- With a modulus of one byte, which is hashed as that byte, the client's secret and its proof
are not the server's; with `g = 259`, which is hashed as 3, its proof is not. -/
theorem password_proof_unpadded :
    clientSecret 23 5 ((paddedServer 23 5 3).gB sumPrimitives) 3
        (ofBe (sumPrimitives.sha256 ([23] ++ pad256 [5])).1) ((paddedServer 23 5 3).u sumPrimitives 10)
        (ofBe (ph2 sumPrimitives zeroKdf [97] [1] [2])) ≠ (paddedServer 23 5 3).secret sumPrimitives 10 ∧
    (∃ m1, calculate2fa sumPrimitives zeroKdf [1] [2] [23] (Int32.ofNat 5)
          (toBytesBe ((paddedServer 23 5 3).gB sumPrimitives)) [3] [97] = .ok (m1, be 256 10) ∧
        m1 ≠ (paddedServer 23 5 3).m1 sumPrimitives 10) ∧
    ∃ m1, calculate2fa sumPrimitives zeroKdf [1] [2] (be 256 1009) (Int32.ofNat 259)
          (toBytesBe ((paddedServer 1009 259 5).gB sumPrimitives)) [3] [97] = .ok (m1, be 256 8) ∧
        m1 ≠ (paddedServer 1009 259 5).m1 sumPrimitives 8 := by
  refine ⟨by decide +kernel, ⟨be 32 4, ?_, by decide +kernel⟩, ⟨be 32 4, ?_, by decide +kernel⟩⟩
  · decide +kernel
  · decide +kernel

end Ferogram.Crypto
