import Mathlib.Data.Nat.Init
import Mathlib.Data.List.Basic
import Mathlib.Data.Fintype.EquivFin
import Mathlib.Data.Fintype.Vector

/- Infinite garble extension: a block cipher chained in both directions.

   Each plaintext block is combined with the ciphertext block before it on its way into the
   cipher, and with the plaintext block before it on its way out; the first block is combined
   with the two halves of the initialisation vector instead. `decrypt` undoes `encrypt` for
   every cipher whose blocks can be decrypted (`decrypt_encrypt`), and `encrypt` undoes
   `decrypt` (`encrypt_decrypt`). -/
namespace Ige

/-- The bytes of two blocks combined. -/
def xor (a b : List UInt8) : List UInt8 := List.zipWith (· ^^^ ·) a b

@[simp] theorem xor_length (a b : List UInt8) : (xor a b).length = min a.length b.length :=
  List.length_zipWith

theorem xor_xor {a b : List UInt8} (h : a.length = b.length) : xor (xor a b) b = a := by
  induction a generalizing b with
  | nil => rfl
  | cons x a ih =>
    cases b with
    | nil => cases h
    | cons y b =>
      have hhead : x ^^^ y ^^^ y = x := by
        rw [UInt8.xor_assoc, UInt8.xor_self, UInt8.xor_zero]
      show (x ^^^ y ^^^ y) :: xor (xor a b) b = x :: a
      rw [hhead, ih (by simpa using h)]

/-- A cipher on blocks of `size` bytes under one key. -/
structure BlockCipher (size : Nat) where
  encrypt : List UInt8 → List UInt8
  decrypt : List UInt8 → List UInt8
  encrypt_length : ∀ block, block.length = size → (encrypt block).length = size
  decrypt_encrypt : ∀ block, block.length = size → decrypt (encrypt block) = block

variable {size : Nat} (cipher : BlockCipher size)

def BlockCipher.encryptBlock (block : List.Vector UInt8 size) : List.Vector UInt8 size :=
  ⟨cipher.encrypt block.1, cipher.encrypt_length block.1 block.2⟩

instance finiteUInt8 : Finite UInt8 := Finite.of_injective UInt8.toFin fun _ _ => UInt8.toFin_inj.mp

/-- Of finitely many blocks every one is the encryption of one. -/
theorem BlockCipher.exists_encrypt {block : List UInt8} (h : block.length = size) :
    ∃ plain, plain.length = size ∧ cipher.encrypt plain = block := by
  have hinjective : Function.Injective cipher.encryptBlock := by
    intro a b hab
    have hbytes : cipher.encrypt a.1 = cipher.encrypt b.1 := congrArg Subtype.val hab
    apply Subtype.ext
    rw [← cipher.decrypt_encrypt a.1 a.2, hbytes, cipher.decrypt_encrypt b.1 b.2]
  obtain ⟨plain, hplain⟩ := Finite.surjective_of_injective hinjective ⟨block, h⟩
  exact ⟨plain.1, plain.2, congrArg Subtype.val hplain⟩

theorem BlockCipher.decrypt_length {block : List UInt8} (h : block.length = size) :
    (cipher.decrypt block).length = size := by
  obtain ⟨plain, hplain, rfl⟩ := cipher.exists_encrypt h
  rw [cipher.decrypt_encrypt plain hplain]
  exact hplain

theorem BlockCipher.encrypt_decrypt {block : List UInt8} (h : block.length = size) :
    cipher.encrypt (cipher.decrypt block) = block := by
  obtain ⟨plain, hplain, rfl⟩ := cipher.exists_encrypt h
  rw [cipher.decrypt_encrypt plain hplain]

/-- A permutation of the blocks, with its inverse. What is no block is left as it is. -/
def BlockCipher.ofPerm (σ : Equiv.Perm (List.Vector UInt8 size)) : BlockCipher size where
  encrypt block := if h : block.length = size then (σ ⟨block, h⟩).1 else block
  decrypt block := if h : block.length = size then (σ.symm ⟨block, h⟩).1 else block
  encrypt_length block h := by
    rw [dif_pos h]
    exact (σ ⟨block, h⟩).2
  decrypt_encrypt block h := by
    rw [dif_pos h, dif_pos (σ ⟨block, h⟩).2]
    exact congrArg Subtype.val (σ.symm_apply_apply ⟨block, h⟩)

/-- `n` blocks from the front, after a ciphertext block `iv1` and a plaintext block `iv2`. -/
def encrypt : Nat → List UInt8 → List UInt8 → List UInt8 → List UInt8
  | 0, _, _, _ => []
  | n + 1, iv1, iv2, buffer =>
    let block := buffer.take size
    let out := xor (cipher.encrypt (xor block iv1)) iv2
    out ++ encrypt n out block (buffer.drop size)

def decrypt : Nat → List UInt8 → List UInt8 → List UInt8 → List UInt8
  | 0, _, _, _ => []
  | n + 1, iv1, iv2, buffer =>
    let block := buffer.take size
    let out := xor (cipher.decrypt (xor block iv2)) iv1
    out ++ decrypt n block out (buffer.drop size)

variable {cipher}

/-- A block on its way in and out keeps its size. -/
theorem out_length (cipher : BlockCipher size) {block iv1 iv2 : List UInt8} (hblock : block.length = size) (h1 : iv1.length = size)
    (h2 : iv2.length = size) : (xor (cipher.encrypt (xor block iv1)) iv2).length = size := by
  have hin : (xor block iv1).length = size := by
    rw [xor_length, hblock, h1, Nat.min_self]
  rw [xor_length, cipher.encrypt_length _ hin, h2, Nat.min_self]

theorem in_length (cipher : BlockCipher size) {block iv1 iv2 : List UInt8} (hblock : block.length = size) (h1 : iv1.length = size)
    (h2 : iv2.length = size) : (xor (cipher.decrypt (xor block iv2)) iv1).length = size := by
  have hin : (xor block iv2).length = size := by
    rw [xor_length, hblock, h2, Nat.min_self]
  rw [xor_length, cipher.decrypt_length hin, h1, Nat.min_self]

/-- The first of several blocks, and the others. -/
theorem split_length {n : Nat} {buffer : List UInt8} (h : buffer.length = (n + 1) * size) :
    (buffer.take size).length = size ∧ (buffer.drop size).length = n * size := by
  rw [Nat.succ_mul] at h
  rw [List.length_take, List.length_drop, h]
  omega

theorem encrypt_length (n : Nat) : ∀ {iv1 iv2 buffer : List UInt8}, iv1.length = size →
    iv2.length = size → buffer.length = n * size → (encrypt cipher n iv1 iv2 buffer).length = n * size := by
  induction n with
  | zero =>
    intro iv1 iv2 buffer _ _ _
    rw [Nat.zero_mul]
    rfl
  | succ n ih =>
    intro iv1 iv2 buffer h1 h2 hbuf
    obtain ⟨hblock, hrest⟩ := split_length hbuf
    have hout := out_length cipher hblock h1 h2
    rw [encrypt, List.length_append, ih hout hblock hrest, hout, Nat.succ_mul, Nat.add_comm]

theorem decrypt_length (n : Nat) : ∀ {iv1 iv2 buffer : List UInt8}, iv1.length = size →
    iv2.length = size → buffer.length = n * size → (decrypt cipher n iv1 iv2 buffer).length = n * size := by
  induction n with
  | zero =>
    intro iv1 iv2 buffer _ _ _
    rw [Nat.zero_mul]
    rfl
  | succ n ih =>
    intro iv1 iv2 buffer h1 h2 hbuf
    obtain ⟨hblock, hrest⟩ := split_length hbuf
    have hout := in_length cipher hblock h1 h2
    rw [decrypt, List.length_append, ih hblock hout hrest, hout, Nat.succ_mul, Nat.add_comm]

/-- What was encrypted under a key and an initialisation vector is decrypted under them. -/
theorem decrypt_encrypt (n : Nat) : ∀ {iv1 iv2 buffer : List UInt8}, iv1.length = size →
    iv2.length = size → buffer.length = n * size →
    decrypt cipher n iv1 iv2 (encrypt cipher n iv1 iv2 buffer) = buffer := by
  induction n with
  | zero =>
    intro iv1 iv2 buffer _ _ hbuf
    rw [Nat.zero_mul, List.length_eq_zero_iff] at hbuf
    rw [hbuf]
    rfl
  | succ n ih =>
    intro iv1 iv2 buffer h1 h2 hbuf
    obtain ⟨hblock, hrest⟩ := split_length hbuf
    have hin : (xor (buffer.take size) iv1).length = size := by
      rw [xor_length, hblock, h1, Nat.min_self]
    have hout := out_length cipher hblock h1 h2
    have hback : xor (cipher.decrypt (xor (xor (cipher.encrypt (xor (buffer.take size) iv1)) iv2) iv2)) iv1 =
        buffer.take size := by
      rw [xor_xor ((cipher.encrypt_length _ hin).trans h2.symm), cipher.decrypt_encrypt _ hin,
        xor_xor (hblock.trans h1.symm)]
    rw [encrypt, decrypt]
    rw [List.take_left' hout, List.drop_left' hout, hback, ih hout hblock hrest, List.take_append_drop]

/-- The other way round: both keep the ciphertext block and the plaintext block before. -/
theorem encrypt_decrypt (n : Nat) : ∀ {iv1 iv2 buffer : List UInt8}, iv1.length = size →
    iv2.length = size → buffer.length = n * size →
    encrypt cipher n iv1 iv2 (decrypt cipher n iv1 iv2 buffer) = buffer := by
  induction n with
  | zero =>
    intro iv1 iv2 buffer _ _ hbuf
    rw [Nat.zero_mul, List.length_eq_zero_iff] at hbuf
    rw [hbuf]
    rfl
  | succ n ih =>
    intro iv1 iv2 buffer h1 h2 hbuf
    obtain ⟨hblock, hrest⟩ := split_length hbuf
    have hin : (xor (buffer.take size) iv2).length = size := by
      rw [xor_length, hblock, h2, Nat.min_self]
    have hout := in_length cipher hblock h1 h2
    have hback : xor (cipher.encrypt (xor (xor (cipher.decrypt (xor (buffer.take size) iv2)) iv1) iv1)) iv2 =
        buffer.take size := by
      rw [xor_xor ((cipher.decrypt_length hin).trans h1.symm), cipher.encrypt_decrypt hin, xor_xor (hblock.trans h2.symm)]
    rw [decrypt, encrypt]
    rw [List.take_left' hout, List.drop_left' hout, hback, ih hblock hout hrest, List.take_append_drop]

end Ige
