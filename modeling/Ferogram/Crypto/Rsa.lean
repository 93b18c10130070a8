import Ferogram.Crypto.DataV2
import Ferogram.Crypto.Dh
import Ferogram.Lib.Checked

/- RSA with the padding of MTProto, `encrypt_hashed` of `ferogram-crypto/src/rsa.rs`, and the
   keys of `ferogram-mtproto/src/authentication.rs`.

   The temporary key is incremented until what is to be encrypted is below the modulus. Whether
   it ever is, is a matter of the hash and the cipher (`encryptHashed_returns_iff`). -/
namespace Ferogram.Rsa
open Bytes Checked Crypto

structure Key where
  n : Nat
  e : Nat
  deriving DecidableEq

/-- The carry, from the last byte on. -/
def carry : List UInt8 → List UInt8
  | [] => []
  | b :: rest => if b = 255 then 0 :: carry rest else (b + 1) :: rest

/-- Behind the first byte the carry begins again at the last one. -/
def increment (data : List UInt8) : List UInt8 :=
  let carried := carry data.reverse
  if data.all (· = 255) then (carry carried).reverse else carried.reverse

section
variable (P : Primitives)

def dataWithHash (dataWithPadding tempKey : List UInt8) : List UInt8 :=
  dataWithPadding.reverse ++ (P.sha256 (tempKey ++ dataWithPadding)).1

/-- What would be encrypted under a temporary key. -/
def candidate (dataWithPadding tempKey : List UInt8) : List UInt8 :=
  let dataWithHash := igeEncrypt P (dataWithHash P dataWithPadding tempKey) tempKey (List.replicate 32 0)
  let xored := List.zipWith (· ^^^ ·) tempKey (P.sha256 dataWithHash).1
  xored ++ dataWithHash

/-- The data to the length of 192, with the first of the random bytes. -/
def padded (data : List UInt8) (random : List.Vector UInt8 224) : List UInt8 :=
  data ++ random.1.take (192 - data.length)

def startKey (random : List.Vector UInt8 224) : List UInt8 := random.1.drop 192

def tooLarge (key : Key) (dataWithPadding tempKey : List UInt8) : Bool :=
  ¬ ofBe (candidate P dataWithPadding tempKey) < key.n

def encryptHashed (fuel : Nat) (data : List UInt8) (key : Key) (random : List.Vector UInt8 224) : Except Stop (List UInt8) :=
  if 144 < data.length then .error .assertion
  else do
    let tempKey ← loop (tooLarge P key (padded data random)) (fun tempKey => .ok (increment tempKey)) fuel (startKey random)
    let payload := ofBe (candidate P (padded data random) tempKey)
    let block := toBytesBe (modpow payload key.e key.n)
    pure (List.replicate (256 - block.length) 0 ++ block)

/-- Some temporary key from the first one on will do. -/
def Fits (key : Key) (data : List UInt8) (random : List.Vector UInt8 224) : Prop :=
  ∃ i, ofBe (candidate P (padded data random) (increment^[i] (startKey random))) < key.n

variable {P}

/-- The cipher is given whole blocks. -/
theorem dataWithHash_length {data : List UInt8} (h : data.length ≤ 144) (random : List.Vector UInt8 224)
    (tempKey : List UInt8) : (dataWithHash P (padded data random) tempKey).length = 14 * 16 := by
  have hhash : (P.sha256 (tempKey ++ padded data random)).1.length = 32 := (P.sha256 _).2
  have hrandom : random.1.length = 224 := random.2
  have hpadded : (padded data random).length = 192 := by
    unfold padded
    rw [List.length_append, List.length_take, hrandom]
    omega
  rw [dataWithHash, List.length_append, List.length_reverse, hpadded, hhash]

theorem encryptHashed_below {fuel fuel' : Nat} (hle : fuel ≤ fuel') (data : List UInt8) (key : Key)
    (random : List.Vector UInt8 224) : Below (encryptHashed P fuel data key random) (encryptHashed P fuel' data key random) := by
  unfold encryptHashed
  split
  · exact Below.refl _
  · exact (loop_below (fun _ => Below.refl _) fuel hle _).bind fun _ => Below.refl _

/-- It returns, with enough fuel, exactly if a temporary key will do. -/
theorem encryptHashed_returns_iff {data : List UInt8} (h : data.length ≤ 144) (key : Key) (random : List.Vector UInt8 224) :
    (∃ fuel block, encryptHashed P fuel data key random = .ok block) ↔ Fits P key data random := by
  have hreturns := fun fuel => loop_returns_iff (tooLarge P key (padded data random)) increment fuel (startKey random)
  have hfits : ∀ tempKey, tooLarge P key (padded data random) tempKey = false ↔
      ofBe (candidate P (padded data random) tempKey) < key.n := by
    intro tempKey
    unfold tooLarge
    rw [decide_eq_false_iff_not, not_not]
  have hunfold : ∀ fuel, encryptHashed P fuel data key random =
      (loop (tooLarge P key (padded data random)) (fun tempKey => .ok (increment tempKey)) fuel (startKey random)).bind
        fun tempKey =>
          .ok (List.replicate (256 - (toBytesBe (modpow (ofBe (candidate P (padded data random) tempKey)) key.e key.n)).length) 0 ++
            toBytesBe (modpow (ofBe (candidate P (padded data random) tempKey)) key.e key.n)) :=
    fun fuel => if_neg (by omega)
  constructor
  · rintro ⟨fuel, block, hblock⟩
    rw [hunfold] at hblock
    cases hloop : loop (tooLarge P key (padded data random)) (fun tempKey => .ok (increment tempKey)) fuel (startKey random) with
    | error stop =>
      rw [hloop] at hblock
      cases hblock
    | ok tempKey =>
      obtain ⟨i, -, hi⟩ := (hreturns fuel).mp ⟨tempKey, hloop⟩
      exact ⟨i, (hfits _).mp hi⟩
  · rintro ⟨i, hi⟩
    obtain ⟨tempKey, hloop⟩ := (hreturns (i + 1)).mpr ⟨i, Nat.lt_succ_self i, (hfits _).mpr hi⟩
    have hblock := hunfold (i + 1)
    rw [hloop] at hblock
    exact ⟨i + 1, _, hblock⟩

end

/-- The keys are written in decimal, and can be read. -/
def keyForFingerprint (fp : Int64) : Option Key :=
  if fp = -3414540481677951611 then
    some { n := 29379598170669337022986177149456128565388431120058863768162556424047512191330847455146576344487764408661701890505066208632169112269581063774293102577308490531282748465986139880977280302242772832972539403531316010870401287642763009136156734339538042419388722777357134487746169093539093850251243897188928735903389451772730245253062963384108812842079887538976360465290946139638691491496062099570836476454855996319192747663615955633778034897140982517446405334423701359108810182097749467210509584293428076654573384828809574217079944388301239431309115013843331317877374435868468779972014486325557807783825502498215169806323
           e := 65537 }
  else if fp = -5595554452916591101 then
    some { n := 25342889448840415564971689590713473206898847759084779052582026594546022463853940585885215951168491965708222649399180603818074200620463776135424884632162512403163793083921641631564740959529419359595852941166848940585952337613333022396096584117954892216031229237302943701877588456738335398602461675225081791820393153757504952636234951323237820036543581047826906120927972487366805292115792231423684261262330394324750785450942589751755390156647751460719351439969059949569615302809050721500330239005077889855323917509948255722081644689442127297605422579707142646660768825302832201908302295573257427896031830742328565032949
           e := 65537 }
  else none

end Ferogram.Rsa
