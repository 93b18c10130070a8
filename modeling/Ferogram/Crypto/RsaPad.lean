import Ferogram.Crypto.Rsa

/- What a server makes of a block of `encrypt_hashed` (`ferogram-crypto/src/rsa.rs`).

   The block is decrypted to 256 bytes, leading zeros included. Its first 32 bytes are the
   temporary key under the hash of the others; with it those are decrypted, and the data is
   what the hash at their end was taken of, the other way round. Whatever number of times the
   key was incremented, the server accepts, and what it reads starts with the data
   (`serverOpen_encryptHashed`). RSA is known by its power: `rsaDecrypt` undoes it below the
   modulus. -/
namespace Ferogram.Rsa
open Bytes Checked Crypto

section
variable (P : Primitives)

/-- The server's side, with its part of the key. -/
def serverOpen (rsaDecrypt : Nat → Nat) (block : List UInt8) : Option (List UInt8) :=
  let keyAesEncrypted := be 256 (rsaDecrypt (ofBe block))
  let aesEncrypted := keyAesEncrypted.drop 32
  let tempKey := List.zipWith (· ^^^ ·) (keyAesEncrypted.take 32) (P.sha256 aesEncrypted).1
  let dataWithHash := igeDecrypt P aesEncrypted tempKey (List.replicate 32 0)
  let dataWithPadding := (dataWithHash.take 192).reverse
  if (P.sha256 (tempKey ++ dataWithPadding)).1 = dataWithHash.drop 192 then some dataWithPadding else none

end

/-! The temporary key. -/

theorem carry_length (data : List UInt8) : (carry data).length = data.length := by
  induction data with
  | nil => rfl
  | cons b rest ih =>
    unfold carry
    split
    · rw [List.length_cons, ih, List.length_cons]
    · rfl

/-- It stays as long as it is. -/
theorem increment_length (data : List UInt8) : (increment data).length = data.length := by
  unfold increment
  dsimp only
  split
  · rw [List.length_reverse, carry_length, carry_length, List.length_reverse]
  · rw [List.length_reverse, carry_length, List.length_reverse]

theorem startKey_length (random : List.Vector UInt8 224) : (startKey random).length = 32 := by
  have hrandom : random.1.length = 224 := random.2
  rw [startKey, List.length_drop, hrandom]

/-! What is encrypted. -/

variable {P : Primitives}

theorem padded_length {data : List UInt8} (h : data.length ≤ 144) (random : List.Vector UInt8 224) :
    (padded data random).length = 192 := by
  have hrandom : random.1.length = 224 := random.2
  rw [padded, List.length_append, List.length_take, hrandom]
  omega

/-- What the server gets back by decryption, from a temporary key of 32 bytes. -/
theorem candidate_opened {data : List UInt8} (h : data.length ≤ 144) (random : List.Vector UInt8 224)
    {tempKey : List UInt8} (hkey : tempKey.length = 32) {rsaDecrypt : Nat → Nat} {block : List UInt8}
    (hblock : rsaDecrypt (ofBe block) = ofBe (candidate P (padded data random) tempKey)) :
    serverOpen P rsaDecrypt block = some (padded data random) := by
  have hpadded := padded_length h random
  have hwithHash := dataWithHash_length (P := P) h random tempKey
  have hhash : ∀ l, (P.sha256 l).1.length = 32 := fun l => (P.sha256 l).2
  have hiv : (List.replicate 32 (0 : UInt8)).length = 32 := List.length_replicate
  have hblocks : 16 ∣ (dataWithHash P (padded data random) tempKey).length := hwithHash ▸ Dvd.intro_left 14 rfl
  have hback := igeDecrypt_igeEncrypt (P := P) tempKey hiv hblocks
  have haes := (igeEncrypt_length (P := P) tempKey hiv hblocks).trans hwithHash
  -- the temporary key is under the hash of all that follows it
  generalize hencrypted : igeEncrypt P (dataWithHash P (padded data random) tempKey) tempKey (List.replicate 32 0) =
    encrypted at hback haes
  have hxored : (List.zipWith (· ^^^ ·) tempKey (P.sha256 encrypted).1).length = 32 := by
    rw [List.length_zipWith, hkey, hhash, Nat.min_self]
  have hcandidate : candidate P (padded data random) tempKey =
      List.zipWith (· ^^^ ·) tempKey (P.sha256 encrypted).1 ++ encrypted := by
    rw [candidate, hencrypted]
  have hbytes : be 256 (rsaDecrypt (ofBe block)) =
      List.zipWith (· ^^^ ·) tempKey (P.sha256 encrypted).1 ++ encrypted := by
    rw [hblock, hcandidate]
    exact be_ofBe (by rw [List.length_append, hxored, haes])
  have htempKey : List.zipWith (· ^^^ ·) (List.zipWith (· ^^^ ·) tempKey (P.sha256 encrypted).1) (P.sha256 encrypted).1 =
      tempKey := Ige.xor_xor (hkey.trans (hhash encrypted).symm)
  have hreversed : (padded data random).reverse.length = 192 := by
    rw [List.length_reverse, hpadded]
  unfold serverOpen
  dsimp only
  rw [hbytes, List.drop_left' hxored, List.take_left' hxored, htempKey, hback, dataWithHash,
    List.take_left' hreversed, List.drop_left' hreversed, List.reverse_reverse, if_pos rfl]

/-- A power modulo 2048 bits has at most 256 bytes. -/
theorem modpow_lt {key : Key} (hn : key.n < 2 ^ 2048) {m : Nat} (hm : m < key.n) : modpow m key.e key.n < 256 ^ 256 := by
  have hbits : 2048 = 8 * 256 := rfl
  rw [hbits, Nat.pow_mul 2 8 256] at hn
  calc modpow m key.e key.n < key.n := Nat.mod_lt _ (Nat.zero_lt_of_lt hm)
    _ < (2 ^ 8) ^ 256 := hn

/-- What returned was under a key of 32 bytes, and below the modulus. -/
theorem encryptHashed_ok {fuel : Nat} {data : List UInt8} {key : Key} {random : List.Vector UInt8 224} {block : List UInt8}
    (hn : key.n < 2 ^ 2048) (h : encryptHashed P fuel data key random = .ok block) :
    data.length ≤ 144 ∧ ∃ tempKey, tempKey.length = 32 ∧ ofBe (candidate P (padded data random) tempKey) < key.n ∧
      block = be 256 (modpow (ofBe (candidate P (padded data random) tempKey)) key.e key.n) := by
  unfold encryptHashed at h
  split at h
  · cases h
  · next hlen =>
    refine ⟨Nat.le_of_not_lt hlen, ?_⟩
    cases hloop : loop (tooLarge P key (padded data random)) (fun tempKey => .ok (increment tempKey)) fuel (startKey random) with
    | error stop =>
      rw [hloop] at h
      cases h
    | ok tempKey =>
      rw [hloop] at h
      have hkept : ∀ s s' : List UInt8, s.length = 32 → tooLarge P key (padded data random) s = true →
          Except.ok (increment s) = (Except.ok s' : Except Stop _) → s'.length = 32 := by
        intro s s' hs _ hs'
        rw [← Except.ok.inj hs', increment_length, hs]
      obtain ⟨hcond, hkey⟩ := loop_returned hkept fuel _ tempKey (startKey_length random) hloop
      have hbelow : ofBe (candidate P (padded data random) tempKey) < key.n := by
        rwa [tooLarge, decide_eq_false_iff_not, not_not] at hcond
      exact ⟨tempKey, hkey, hbelow, (Except.ok.inj h).symm.trans (zeros_toBytesBe (by decide) (modpow_lt hn hbelow))⟩

/-- The server accepts, and reads the data with its padding. -/
theorem serverOpen_encryptHashed {rsaDecrypt : Nat → Nat} {key : Key} (hn : key.n < 2 ^ 2048)
    (hinverse : ∀ m < key.n, rsaDecrypt (modpow m key.e key.n) = m) {fuel : Nat} {data : List UInt8}
    {random : List.Vector UInt8 224} {block : List UInt8} (h : encryptHashed P fuel data key random = .ok block) :
    block.length = 256 ∧
      ∃ opened, serverOpen P rsaDecrypt block = some opened ∧ opened.length = 192 ∧ data <+: opened := by
  obtain ⟨hdata, tempKey, hkey, hbelow, rfl⟩ := encryptHashed_ok hn h
  refine ⟨be_length _ _, padded data random, candidate_opened hdata random hkey ?_, padded_length hdata random,
    List.prefix_append _ _⟩
  rw [ofBe_be_of_lt (modpow_lt hn hbelow), hinverse _ hbelow]

/-- A temporary key of ones, which is too large and becomes 1. -/
theorem serverOpen_encryptHashed_ones :
    ∃ fuel block, encryptHashed plainPrimitives fuel [1, 2, 3] ⟨2 ^ 2047, 1⟩ (List.Vector.replicate 224 255) = .ok block ∧
      block.length = 256 ∧
      ∃ opened, serverOpen plainPrimitives id block = some opened ∧ opened.length = 192 ∧ [1, 2, 3] <+: opened := by
  have hsize : (⟨2 ^ 2047, 1⟩ : Key).n < 2 ^ 2048 := Nat.pow_lt_pow_right (by decide) (by decide)
  have hfits : Fits plainPrimitives ⟨2 ^ 2047, 1⟩ [1, 2, 3] (List.Vector.replicate 224 255) := ⟨1, by decide +kernel⟩
  generalize hkey : (⟨2 ^ 2047, 1⟩ : Key) = key at hsize hfits
  have he : key.e = 1 := congrArg Key.e hkey.symm
  have hinverse : ∀ m < key.n, id (modpow m key.e key.n) = m := by
    intro m hm
    rw [id, modpow, he, Nat.pow_one, Nat.mod_eq_of_lt hm]
  obtain ⟨fuel, block, hblock⟩ := (encryptHashed_returns_iff (by decide) key _).mpr hfits
  exact ⟨fuel, block, hblock, serverOpen_encryptHashed hsize hinverse hblock⟩

end Ferogram.Rsa
