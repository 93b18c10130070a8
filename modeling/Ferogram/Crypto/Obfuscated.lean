import Ferogram.Lib.Bytes
import Ferogram.Lib.Keystream

/- The obfuscated transport: `ferogram-crypto/src/obfuscated.rs`, and `ObfuscatedAbridged::new`
   of `ferogram-mtproto/src/transport.rs`.

   Counter mode is a keystream for each key and initialisation vector, and a position in it. The
   draws of the random generator are a list. The server has the 64 bytes and the secret only: it
   takes the keys out of bytes 8 to 56, which are sent as they are, and deciphers all 64 bytes.

   What is proved: `obfuscated_agrees`. Both ends then use the same two keystreams from the same
   positions (`Peers`), so the streams can be cut into pieces anywhere, on either side. -/
namespace Ferogram.Obfuscated
open Bytes
open Keystream (mask)

section
variable (keystream : List UInt8 → List UInt8 → Nat → UInt8)

/-- `Ctr128BE`. -/
structure Ctr where
  key : List UInt8
  iv : List UInt8
  pos : Nat

def Ctr.new (key iv : List UInt8) : Ctr := { key := key, iv := iv, pos := 0 }

def Ctr.applyKeystream (c : Ctr) (buf : List UInt8) : Ctr × List UInt8 :=
  ({ c with pos := c.pos + buf.length }, mask (keystream c.key c.iv) c.pos buf)

structure ObfuscatedCipher where
  rx : Ctr
  tx : Ctr

namespace ObfuscatedCipher

def new (init : List.Vector UInt8 64) : ObfuscatedCipher :=
  let rev := init.1.reverse
  { rx := Ctr.new (rev.extract 8 40) (rev.extract 40 56)
    tx := Ctr.new (init.1.extract 8 40) (init.1.extract 40 56) }

def fromKeys (txKey txIv rxKey rxIv : List UInt8) : ObfuscatedCipher :=
  { tx := Ctr.new txKey txIv, rx := Ctr.new rxKey rxIv }

def encrypt (c : ObfuscatedCipher) (buf : List UInt8) : ObfuscatedCipher × List UInt8 :=
  let (tx, buf) := c.tx.applyKeystream keystream buf
  ({ c with tx := tx }, buf)

def decrypt (c : ObfuscatedCipher) (buf : List UInt8) : ObfuscatedCipher × List UInt8 :=
  let (rx, buf) := c.rx.applyKeystream keystream buf
  ({ c with rx := rx }, buf)

end ObfuscatedCipher

/-- The condition of `build_obfuscated_init` for another draw. -/
def bad (nonce : List.Vector UInt8 64) : Bool :=
  let first := ofLe (nonce.1.extract 0 4)
  let second := ofLe (nonce.1.extract 4 8)
  nonce.1.headD 0 = 0xEF ∨ first = 0x44414548 ∨ first = 0x54534F50 ∨ first = 0x20544547 ∨ first = 0x4954504f ∨
    first = 0xEEEEEEEE ∨ first = 0xDDDDDDDD ∨ first = 0x02010316 ∨ second = 0x00000000

/-- The tag and the DC id, written into bytes 56 to 62. -/
def withTag (nonce : List.Vector UInt8 64) (framingByte : UInt8) (dcId : Int16) : List UInt8 :=
  nonce.1.take 56 ++ List.replicate 4 framingByte ++ le 2 dcId.toUInt16.toNat ++ nonce.1.drop 62

variable (sha256 : List UInt8 → List.Vector UInt8 32)

/-- The key of a proxy is mixed with its secret. -/
def mixed (proxySecret : Option (List UInt8)) (raw : List UInt8) : List UInt8 :=
  match proxySecret with
  | some s => (sha256 (raw ++ s)).1
  | none => raw

/-- `none` if no draw was accepted. -/
def buildObfuscatedInit (framingByte : UInt8) (dcId : Int16) (proxySecret : Option (List UInt8))
    (draws : List (List.Vector UInt8 64)) : Option (List UInt8 × ObfuscatedCipher) := do
  let nonce ← draws.find? fun nonce => !bad nonce
  let txRaw := nonce.1.extract 8 40
  let txIv := nonce.1.extract 40 56
  let rev48 := (nonce.1.extract 8 56).reverse
  let rxRaw := rev48.extract 0 32
  let rxIv := rev48.extract 32 48
  let tagged := withTag nonce framingByte dcId
  let cipher := ObfuscatedCipher.fromKeys (mixed sha256 proxySecret txRaw) txIv (mixed sha256 proxySecret rxRaw) rxIv
  let (cipher, _) := cipher.encrypt keystream (List.replicate 56 0)
  let (cipher, sealed) := cipher.encrypt keystream (tagged.extract 56 64)
  some (tagged.take 56 ++ sealed, cipher)

def forbidden : List (List UInt8) :=
  [[0x48, 0x45, 0x41, 0x44], [0x50, 0x4f, 0x53, 0x54], [0x47, 0x45, 0x54, 0x20], [0x4f, 0x50, 0x54, 0x49],
    [0x16, 0x03, 0x01, 0x02], [0xdd, 0xdd, 0xdd, 0xdd], [0xee, 0xee, 0xee, 0xee]]

/-- The loop of `ObfuscatedAbridged::new` draws again. -/
def refused (init : List.Vector UInt8 64) : Bool :=
  init.1.headD 0 = 0xef ∨ init.1.extract 4 8 = [0, 0, 0, 0] ∨ forbidden.any fun f => f = init.1.extract 0 4

theorem withTag_length (nonce : List.Vector UInt8 64) (framingByte : UInt8) (dcId : Int16) :
    (withTag nonce framingByte dcId).length = 64 := by
  have hlen : nonce.1.length = 64 := nonce.2
  simp [withTag, hlen]

/-- `ObfuscatedAbridged::new`: the header, and the cipher that has enciphered all of it. -/
def obfuscatedAbridged (dcId : Int16) (draws : List (List.Vector UInt8 64)) : Option (List UInt8 × ObfuscatedCipher) := do
  let init ← draws.find? fun init => !refused init
  let init : List.Vector UInt8 64 := ⟨withTag init 0xef dcId, withTag_length init 0xef dcId⟩
  let cipher := ObfuscatedCipher.new init
  let (cipher, enc) := cipher.encrypt keystream init.1
  some (init.1.take 56 ++ enc.extract 56 64, cipher)

/-! The server. -/

/-- What the server makes of 64 bytes: its cipher, and the bytes deciphered. -/
def accept (proxySecret : Option (List UInt8)) (nonce : List UInt8) : ObfuscatedCipher × List UInt8 :=
  let received := nonce.extract 8 56
  let reversed := received.reverse
  let cipher := ObfuscatedCipher.fromKeys (mixed sha256 proxySecret (reversed.take 32)) (reversed.drop 32)
    (mixed sha256 proxySecret (received.take 32)) (received.drop 32)
  cipher.decrypt keystream nonce

/-- What the first bytes of other protocols are, and of the transports that are not obfuscated. -/
def Reserved (nonce : List UInt8) : Prop :=
  (∃ start ∈ [0xef] :: forbidden, start <+: nonce) ∨ nonce.extract 4 8 = [0, 0, 0, 0]

/-- One end uses its cipher. -/
inductive Use where
  | encrypt (buf : List UInt8)
  | decrypt (buf : List UInt8)

/-- The text that is written, and the bytes that come in. -/
def Use.written : Use → List UInt8
  | .encrypt buf => buf
  | .decrypt _ => []

def Use.incoming : Use → List UInt8
  | .encrypt _ => []
  | .decrypt buf => buf

/-- The bytes that go out, and the text that is read. -/
def ObfuscatedCipher.run (c : ObfuscatedCipher) : List Use → List UInt8 × List UInt8
  | [] => ([], [])
  | .encrypt buf :: uses =>
    let (c, buf) := c.encrypt keystream buf
    let (sent, read) := c.run uses
    (buf ++ sent, read)
  | .decrypt buf :: uses =>
    let (c, buf) := c.decrypt keystream buf
    let (sent, read) := c.run uses
    (sent, buf ++ read)

/-- A client and a server after the 64 bytes `nonce`. -/
structure Agreed (framingByte : UInt8) (dcId : Int16) (proxySecret : Option (List UInt8)) (nonce : List UInt8)
    (client : ObfuscatedCipher) : Prop where
  length : nonce.length = 64
  notReserved : ¬ Reserved nonce
  framing : (accept keystream sha256 proxySecret nonce).2.extract 56 60 = List.replicate 4 framingByte
  dcId : (accept keystream sha256 proxySecret nonce).2.extract 60 62 = le 2 dcId.toUInt16.toNat
  /-- What of the client's bytes has come in at the server is read as the text that the client wrote. -/
  serverReads : ∀ uses uses', uses'.flatMap Use.incoming <+: (client.run keystream uses).1 →
    ((accept keystream sha256 proxySecret nonce).1.run keystream uses').2 =
      (uses.flatMap Use.written).take (uses'.flatMap Use.incoming).length
  clientReads : ∀ uses uses', uses.flatMap Use.incoming <+: ((accept keystream sha256 proxySecret nonce).1.run keystream uses').1 →
    (client.run keystream uses).2 = (uses'.flatMap Use.written).take (uses.flatMap Use.incoming).length

end

variable {keystream : List UInt8 → List UInt8 → Nat → UInt8} {sha256 : List UInt8 → List.Vector UInt8 32}

/-! Streams. -/

/-- Each direction is one keystream, however it is cut. -/
theorem run_eq (uses : List Use) : ∀ c : ObfuscatedCipher,
    c.run keystream uses = (mask (keystream c.tx.key c.tx.iv) c.tx.pos (uses.flatMap Use.written),
      mask (keystream c.rx.key c.rx.iv) c.rx.pos (uses.flatMap Use.incoming)) := by
  induction uses with
  | nil => exact fun _ => rfl
  | cons use uses ih =>
    intro c
    cases use with
    | encrypt buf =>
      rw [List.flatMap_cons, List.flatMap_cons, Use.written, Use.incoming, List.nil_append, Keystream.mask_append,
        ObfuscatedCipher.run]
      dsimp only
      rw [ih]
      rfl
    | decrypt buf =>
      rw [List.flatMap_cons, List.flatMap_cons, Use.written, Use.incoming, List.nil_append, Keystream.mask_append,
        ObfuscatedCipher.run]
      dsimp only
      rw [ih]
      rfl

/-- Each end reads with what the other writes with. -/
structure Peers (client server : ObfuscatedCipher) : Prop where
  toServer : client.tx = server.rx
  toClient : server.tx = client.rx

theorem reads_of_same {writer reader : ObfuscatedCipher} (h : writer.tx = reader.rx) {uses uses' : List Use}
    (hcame : uses'.flatMap Use.incoming <+: (writer.run keystream uses).1) :
    (reader.run keystream uses').2 = (uses.flatMap Use.written).take (uses'.flatMap Use.incoming).length := by
  rw [run_eq] at hcame ⊢
  rw [← h]
  exact Keystream.mask_of_prefix _ hcame

/-! The 64 bytes. -/

/-- The last eight bytes are enciphered from position 56 on, where the others would have ended. -/
def sealedInit (keystream : List UInt8 → List UInt8 → Nat → UInt8) (key iv tagged : List UInt8) : List UInt8 :=
  tagged.take 56 ++ mask (keystream key iv) 56 (tagged.drop 56)

section Sealed
variable (nonce : List.Vector UInt8 64) (framingByte : UInt8) (dcId : Int16)

theorem withTag_take : (withTag nonce framingByte dcId).take 56 = nonce.1.take 56 := by
  have hlen : (nonce.1.take 56).length = 56 := by
    rw [List.length_take, nonce.2]
    rfl
  rw [withTag, List.append_assoc, List.append_assoc, List.take_left' hlen]

theorem withTag_drop :
    (withTag nonce framingByte dcId).drop 56 = List.replicate 4 framingByte ++ (le 2 dcId.toUInt16.toNat ++ nonce.1.drop 62) := by
  have hlen : (nonce.1.take 56).length = 56 := by
    rw [List.length_take, nonce.2]
    rfl
  rw [withTag, List.append_assoc, List.append_assoc, List.drop_left' hlen]

variable (keystream) (key iv : List UInt8)

theorem sealedInit_length : (sealedInit keystream key iv (withTag nonce framingByte dcId)).length = 64 := by
  rw [sealedInit, List.length_append, Keystream.mask_length, ← List.length_append, List.take_append_drop, withTag_length]

/-- The first 56 bytes are sent as they were drawn. -/
theorem sealedInit_take : (sealedInit keystream key iv (withTag nonce framingByte dcId)).take 56 = nonce.1.take 56 := by
  have hlen : ((withTag nonce framingByte dcId).take 56).length = 56 := by
    rw [List.length_take, withTag_length]
    rfl
  rw [sealedInit, List.take_left' hlen, withTag_take]

theorem sealedInit_extract {start stop : Nat} (h : stop ≤ 56) :
    (sealedInit keystream key iv (withTag nonce framingByte dcId)).extract start stop = nonce.1.extract start stop := by
  have htake : ∀ l : List UInt8, l.extract start stop = (l.take 56).extract start stop := by
    intro l
    rw [List.extract_eq_take_drop, List.extract_eq_take_drop, List.drop_take, List.take_take, Nat.min_eq_left (by omega)]
  rw [htake, sealedInit_take, ← htake]

/-- Deciphered from the beginning, the last eight bytes are the tag and what follows it. -/
theorem mask_sealedInit :
    (mask (keystream key iv) 0 (sealedInit keystream key iv (withTag nonce framingByte dcId))).drop 56 =
      List.replicate 4 framingByte ++ (le 2 dcId.toUInt16.toNat ++ nonce.1.drop 62) := by
  have hlen : ((withTag nonce framingByte dcId).take 56).length = 56 := by
    rw [List.length_take, withTag_length]
    rfl
  rw [Keystream.mask_drop, sealedInit, List.drop_left' hlen, Nat.zero_add, Keystream.mask_mask, withTag_drop]

/-- Nothing that a draw does not start with starts what is sent. -/
theorem prefix_of_sealedInit {start : List UInt8} (hshort : start.length ≤ 56)
    (h : start <+: sealedInit keystream key iv (withTag nonce framingByte dcId)) : start <+: nonce.1 := by
  rw [List.prefix_iff_eq_take] at h
  have htake : start = (nonce.1.take 56).take start.length := by
    rw [← sealedInit_take keystream nonce framingByte dcId key iv, List.take_take, Nat.min_eq_left hshort]
    exact h
  rw [htake, List.take_take]
  exact List.take_prefix _ _

end Sealed

/-- The client's two keys, from the nonce and from its bytes the other way round. -/
def clientKeys (sha256 : List UInt8 → List.Vector UInt8 32) (proxySecret : Option (List UInt8)) (nonce : List.Vector UInt8 64) :
    ObfuscatedCipher :=
  .fromKeys (mixed sha256 proxySecret (nonce.1.extract 8 40)) (nonce.1.extract 40 56)
    (mixed sha256 proxySecret ((nonce.1.extract 8 56).reverse.extract 0 32)) ((nonce.1.extract 8 56).reverse.extract 32 48)

/-- A client that has enciphered 64 bytes, and what it sends of a draw. -/
theorem agreed_of_sealed {nonce : List.Vector UInt8 64} (hfree : ¬ Reserved nonce.1) (framingByte : UInt8)
    (dcId : Int16) (proxySecret : Option (List UInt8)) :
    let keys := clientKeys sha256 proxySecret nonce
    Agreed keystream sha256 framingByte dcId proxySecret
      (sealedInit keystream keys.tx.key keys.tx.iv (withTag nonce framingByte dcId)) { keys with tx := { keys.tx with pos := 64 } } := by
  intro keys
  have hlen := sealedInit_length keystream nonce framingByte dcId keys.tx.key keys.tx.iv
  have hmiddle : (sealedInit keystream keys.tx.key keys.tx.iv (withTag nonce framingByte dcId)).extract 8 56 = _ :=
    sealedInit_extract keystream nonce framingByte dcId keys.tx.key keys.tx.iv (Nat.le_refl 56)
  have hheader := mask_sealedInit keystream nonce framingByte dcId keys.tx.key keys.tx.iv
  have hnonce : nonce.1.length = 64 := nonce.2
  have hkey : (nonce.1.extract 8 56).take 32 = nonce.1.extract 8 40 := by
    rw [List.extract_eq_take_drop, List.extract_eq_take_drop, List.take_take]
    rfl
  have hiv : (nonce.1.extract 8 56).drop 32 = nonce.1.extract 40 56 := by
    rw [List.extract_eq_take_drop, List.extract_eq_take_drop, List.drop_take, List.drop_drop]
  have hrevkey : (nonce.1.extract 8 56).reverse.take 32 = (nonce.1.extract 8 56).reverse.extract 0 32 := rfl
  have hreviv : (nonce.1.extract 8 56).reverse.drop 32 = (nonce.1.extract 8 56).reverse.extract 32 48 :=
    (List.take_of_length_le (by simp [hnonce])).symm
  -- the server has the keys of the client, crosswise
  have haccept : accept keystream sha256 proxySecret (sealedInit keystream keys.tx.key keys.tx.iv (withTag nonce framingByte dcId)) =
      ({ rx := { keys.tx with pos := 64 }, tx := keys.rx },
        mask (keystream keys.tx.key keys.tx.iv) 0 (sealedInit keystream keys.tx.key keys.tx.iv (withTag nonce framingByte dcId))) := by
    have hpos : { keys.tx with pos := 64 } =
        { keys.tx with pos := 0 + (sealedInit keystream keys.tx.key keys.tx.iv (withTag nonce framingByte dcId)).length } := by
      rw [hlen]
    rw [hpos]
    unfold accept
    dsimp only
    rw [hmiddle, hkey, hiv, hrevkey, hreviv]
    rfl
  have hextract : ∀ stop, (mask (keystream keys.tx.key keys.tx.iv) 0
      (sealedInit keystream keys.tx.key keys.tx.iv (withTag nonce framingByte dcId))).extract 56 stop =
      (List.replicate 4 framingByte ++ (le 2 dcId.toUInt16.toNat ++ nonce.1.drop 62)).take (stop - 56) := by
    intro stop
    rw [List.extract_eq_take_drop, hheader]
  have hbyte : (List.replicate 4 framingByte).length = 4 := List.length_replicate
  constructor
  · exact hlen
  · rintro (⟨start, hstart, hsent⟩ | hzero)
    · have hshort : ∀ start ∈ [0xef] :: forbidden, start.length ≤ 56 := by decide
      exact hfree (Or.inl ⟨start, hstart, prefix_of_sealedInit keystream nonce framingByte dcId _ _ (hshort start hstart) hsent⟩)
    · rw [sealedInit_extract keystream nonce framingByte dcId _ _ (by omega)] at hzero
      exact hfree (Or.inr hzero)
  · rw [haccept, hextract, List.take_left' hbyte]
  · rw [haccept, List.extract_eq_take_drop, ← List.drop_drop (i := 4), hheader, List.drop_left' hbyte,
      List.take_left' (le_length _ _)]
  · intro uses uses' hcame
    rw [haccept]
    exact reads_of_same rfl hcame
  · intro uses uses' hcame
    rw [haccept] at hcame
    exact reads_of_same rfl hcame

/-! The draws. -/

theorem prefix_extract {start l : List UInt8} (h : start <+: l) : l.extract 0 start.length = start := by
  rw [List.extract_eq_take_drop]
  exact (List.prefix_iff_eq_take.mp h).symm

/-- A first byte is a prefix. -/
theorem prefix_headD {b : UInt8} {l : List UInt8} (h : [b] <+: l) : l.headD 0 = b := by
  obtain ⟨rest, rfl⟩ := h
  rfl

/-- The numbers of the first condition are the prefixes, read as little-endian numbers. -/
theorem free_of_bad {nonce : List.Vector UInt8 64} (h : bad nonce = false) : ¬ Reserved nonce.1 := by
  simp only [bad, decide_eq_false_iff_not, not_or] at h
  rintro (⟨start, hstart, hprefix⟩ | hzero)
  swap
  · exact h.2.2.2.2.2.2.2.2 (congrArg ofLe hzero)
  have hnumber := congrArg ofLe (prefix_extract hprefix)
  rcases List.mem_cons.mp hstart with rfl | hfour
  · exact h.1 (prefix_headD hprefix)
  · simp only [forbidden, List.mem_cons, List.not_mem_nil, or_false] at hfour
    rcases hfour with rfl | rfl | rfl | rfl | rfl | rfl | rfl
    · exact h.2.1 hnumber
    · exact h.2.2.1 hnumber
    · exact h.2.2.2.1 hnumber
    · exact h.2.2.2.2.1 hnumber
    · exact h.2.2.2.2.2.2.2.1 hnumber
    · exact h.2.2.2.2.2.2.1 hnumber
    · exact h.2.2.2.2.2.1 hnumber

theorem free_of_refused {init : List.Vector UInt8 64} (h : refused init = false) : ¬ Reserved init.1 := by
  simp only [refused, decide_eq_false_iff_not, not_or, List.any_eq_true, decide_eq_true_eq] at h
  rintro (⟨start, hstart, hprefix⟩ | hzero)
  swap
  · exact h.2.1 hzero
  rcases List.mem_cons.mp hstart with rfl | hfour
  · exact h.1 (prefix_headD hprefix)
  · have hlen : ∀ start ∈ forbidden, start.length = 4 := by decide
    have hextract := prefix_extract hprefix
    rw [hlen start hfour] at hextract
    exact h.2.2 ⟨start, hfour, hextract.symm⟩

/-- The loop ends with the first draw that is accepted, whatever comes before it. -/
theorem buildObfuscatedInit_returns_iff (framingByte : UInt8) (dcId : Int16) (proxySecret : Option (List UInt8))
    (draws : List (List.Vector UInt8 64)) :
    (buildObfuscatedInit keystream sha256 framingByte dcId proxySecret draws).isSome ↔ ∃ nonce ∈ draws, bad nonce = false := by
  have hfind : (draws.find? fun nonce => !bad nonce).isSome ↔ ∃ nonce ∈ draws, bad nonce = false := by
    simp [List.find?_isSome]
  rw [← hfind, buildObfuscatedInit]
  cases draws.find? fun nonce => !bad nonce with
  | none => exact Iff.rfl
  | some nonce => exact iff_of_true rfl rfl

theorem buildObfuscatedInit_eq {framingByte : UInt8} {dcId : Int16} {proxySecret : Option (List UInt8)}
    {draws : List (List.Vector UInt8 64)} {sent : List UInt8} {client : ObfuscatedCipher}
    (h : buildObfuscatedInit keystream sha256 framingByte dcId proxySecret draws = some (sent, client)) :
    ∃ nonce, bad nonce = false ∧
      sent = sealedInit keystream (clientKeys sha256 proxySecret nonce).tx.key (clientKeys sha256 proxySecret nonce).tx.iv
        (withTag nonce framingByte dcId) ∧
      client = { clientKeys sha256 proxySecret nonce with tx := { (clientKeys sha256 proxySecret nonce).tx with pos := 64 } } := by
  unfold buildObfuscatedInit at h
  cases hfind : draws.find? (fun nonce => !bad nonce) with
  | none =>
    rw [hfind] at h
    cases h
  | some nonce =>
    rw [hfind] at h
    have hbad := List.find?_some hfind
    have hdrop : (withTag nonce framingByte dcId).extract 56 64 = (withTag nonce framingByte dcId).drop 56 :=
      List.take_of_length_le (by simp [withTag_length])
    have height : ((withTag nonce framingByte dcId).drop 56).length = 8 := by
      rw [List.length_drop, withTag_length]
    refine ⟨nonce, by simpa using hbad, ?_⟩
    obtain ⟨rfl, rfl⟩ := Prod.mk.inj (Option.some.inj h)
    constructor
    · dsimp only
      rw [hdrop]
      rfl
    · have hpos : 0 + (List.replicate 56 (0 : UInt8)).length + ((withTag nonce framingByte dcId).extract 56 64).length = 64 := by
        rw [hdrop, height, List.length_replicate]
      exact congrArg (fun pos => ({ clientKeys sha256 proxySecret nonce with
        tx := { (clientKeys sha256 proxySecret nonce).tx with pos := pos } } : ObfuscatedCipher)) hpos

/-- A slice of the reversed list. -/
theorem reverse_extract {l : List UInt8} {start stop : Nat} (hstart : start ≤ stop) (h : stop ≤ l.length) :
    l.reverse.extract start stop = (l.extract (l.length - stop) (l.length - start)).reverse := by
  rw [List.extract_eq_take_drop, List.extract_eq_take_drop, List.drop_reverse, List.take_reverse, List.drop_take,
    List.length_take]
  congr 2
  · omega
  · congr 1
    omega

/-- The reversed 64 bytes have the same two keys in them as the reversed 48. -/
theorem new_eq {init nonce : List.Vector UInt8 64} (h : init.1.take 56 = nonce.1.take 56) :
    ObfuscatedCipher.new init = clientKeys sha256 none nonce := by
  have hextract : ∀ start stop, stop ≤ 56 → init.1.extract start stop = nonce.1.extract start stop := by
    intro start stop hstop
    have htake : ∀ l : List UInt8, l.extract start stop = (l.take 56).extract start stop := by
      intro l
      rw [List.extract_eq_take_drop, List.extract_eq_take_drop, List.drop_take, List.take_take, Nat.min_eq_left (by omega)]
    rw [htake, h, ← htake]
  have hinit : init.1.length = 64 := init.2
  have hnonce : nonce.1.length = 64 := nonce.2
  have hmiddle : (nonce.1.extract 8 56).length = 48 := by
    simp [hnonce]
  have hrev : ∀ start stop, start ≤ stop → stop ≤ 48 →
      init.1.reverse.extract (8 + start) (8 + stop) = (nonce.1.extract 8 56).reverse.extract start stop := by
    intro start stop hstart hstop
    rw [reverse_extract (by omega) (by omega), reverse_extract hstart (by omega), hinit, hmiddle, hextract _ _ (by omega)]
    congr 1
    rw [List.extract_eq_take_drop, List.extract_eq_take_drop, List.extract_eq_take_drop, List.drop_take, List.take_take,
      List.drop_drop]
    congr 1
    · omega
    · congr 1
      omega
  unfold ObfuscatedCipher.new clientKeys ObfuscatedCipher.fromKeys mixed
  dsimp only
  rw [hrev 0 32 (by omega) (by omega), hrev 32 48 (by omega) (by omega), hextract 8 40 (by omega), hextract 40 56 (by omega)]

/-- So does the other loop. -/
theorem obfuscatedAbridged_returns_iff (dcId : Int16) (draws : List (List.Vector UInt8 64)) :
    (obfuscatedAbridged keystream dcId draws).isSome ↔ ∃ init ∈ draws, refused init = false := by
  have hfind : (draws.find? fun init => !refused init).isSome ↔ ∃ init ∈ draws, refused init = false := by
    simp [List.find?_isSome]
  rw [← hfind, obfuscatedAbridged]
  cases draws.find? fun init => !refused init with
  | none => exact Iff.rfl
  | some init => exact iff_of_true rfl rfl

theorem obfuscatedAbridged_eq (sha256 : List UInt8 → List.Vector UInt8 32) {dcId : Int16} {draws : List (List.Vector UInt8 64)}
    {sent : List UInt8} {client : ObfuscatedCipher} (h : obfuscatedAbridged keystream dcId draws = some (sent, client)) :
    ∃ nonce, refused nonce = false ∧
      sent = sealedInit keystream (clientKeys sha256 none nonce).tx.key (clientKeys sha256 none nonce).tx.iv
        (withTag nonce 0xef dcId) ∧
      client = { clientKeys sha256 none nonce with tx := { (clientKeys sha256 none nonce).tx with pos := 64 } } := by
  unfold obfuscatedAbridged at h
  cases hfind : draws.find? (fun init => !refused init) with
  | none =>
    rw [hfind] at h
    cases h
  | some nonce =>
    rw [hfind] at h
    have hrefused := List.find?_some hfind
    refine ⟨nonce, by simpa using hrefused, ?_⟩
    obtain ⟨rfl, rfl⟩ := Prod.mk.inj (Option.some.inj h)
    have hnew : ObfuscatedCipher.new ⟨withTag nonce 0xef dcId, withTag_length nonce 0xef dcId⟩ = clientKeys sha256 none nonce :=
      new_eq (withTag_take nonce 0xef dcId)
    have hdrop : ∀ l : List UInt8, l.length = 64 → l.extract 56 64 = l.drop 56 := by
      intro l hl
      rw [List.extract_eq_take_drop]
      exact List.take_of_length_le (by simp [hl])
    constructor
    · dsimp only [ObfuscatedCipher.encrypt, Ctr.applyKeystream]
      rw [hnew, hdrop _ (by rw [Keystream.mask_length, withTag_length]), Keystream.mask_drop]
      rfl
    · dsimp only [ObfuscatedCipher.encrypt, Ctr.applyKeystream]
      rw [hnew, withTag_length]
      rfl

end Ferogram.Obfuscated
