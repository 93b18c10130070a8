import Ferogram.Lib.BigEndian
import Ferogram.Lib.Checked

/- The ClientHello of a FakeTLS connection (`ferogram-connect/src/connection.rs`).

   Lengths are computed as the source does it, apart from one another; a subtraction or a sum
   that leaves its type stops the program (where overflow is not checked, the length that is
   asked for then cannot be allocated). The digest is a function of the record. The reader of
   the other end is written down by itself, after the format: `WellFormed`.

   What is proved: `clientHello_wellFormed_iff`. Without the padding the body has 248 bytes and
   the domain, and the header of the padding has four: there is no room for it where one to
   three bytes are missing. -/
namespace Ferogram.Connect.ClientHello
open Bytes Checked

/-- What is drawn. -/
structure Choices where
  sessionId : List.Vector UInt8 32
  greaseSeed : List.Vector UInt8 4
  keySharePub : List.Vector UInt8 32

/-- `grease_u16`, in two bytes. -/
def greaseU16 (b : UInt8) : List UInt8 :=
  let v := (b &&& 0xf0) ||| 0x0a
  [v, v]

def Choices.grease (c : Choices) (i : Fin 4) : List UInt8 := greaseU16 (c.greaseSeed.get i)

def sub (a b : Nat) : Except Stop Nat := if a < b then .error .overflow else .ok (a - b)

section
variable (c : Choices)

def cipherSuites : List UInt8 :=
  c.grease 0 ++ [0x1301, 0x1302, 0x1303, 0xc02b, 0xc02f, 0xc02c, 0xc030, 0xcca9, 0xcca8, 0xc013, 0xc014, 0x009c, 0x009d, 0x002f,
    0x0035].flatMap (be 2)

def compression : List UInt8 := [0x01, 0x00]

/-- The sums are of `u16`. -/
def sniExt (domain : List UInt8) : Except Stop (List UInt8) := do
  let sniNameLen := domain.length % 2 ^ 16
  let sniListLen ← fit (2 ^ 16) (sniNameLen + 3)
  let sniExtLen ← fit (2 ^ 16) (sniListLen + 2)
  return [0x00, 0x00] ++ be 2 sniExtLen ++ be 2 sniListLen ++ [0x00] ++ be 2 sniNameLen ++ domain

def supGrp : List UInt8 := [0x00, 0x0a, 0x00, 0x08, 0x00, 0x06] ++ c.grease 1 ++ [0x00, 0x1d, 0x00, 0x17]

def ecPointFmt : List UInt8 := [0x00, 0x0b, 0x00, 0x02, 0x01, 0x00]

def sigAlgs : List UInt8 :=
  [0x00, 0x0d, 0x00, 0x12, 0x00, 0x10, 0x04, 0x03, 0x08, 0x04, 0x04, 0x01, 0x05, 0x03, 0x08, 0x05, 0x05, 0x01, 0x08, 0x06, 0x06,
    0x01]

/-- `h2` and `http/1.1`. -/
def alpn : List UInt8 :=
  [0x00, 0x10, 0x00, 0x0e, 0x00, 0x0c, 0x02, 0x68, 0x32, 0x08, 0x68, 0x74, 0x74, 0x70, 0x2f, 0x31, 0x2e, 0x31]

def ems : List UInt8 := [0x00, 0x17, 0x00, 0x00]

def sessTick : List UInt8 := [0x00, 0x23, 0x00, 0x00]

def supVer : List UInt8 := [0x00, 0x2b, 0x00, 0x05, 0x04] ++ c.grease 2 ++ [0x03, 0x04]

def pskModes : List UInt8 := [0x00, 0x2d, 0x00, 0x02, 0x01, 0x01]

def keyShare : List UInt8 := [0x00, 0x33, 0x00, 0x26, 0x00, 0x24, 0x00, 0x1d, 0x00, 0x20] ++ c.keySharePub.1

def renegInfo : List UInt8 := [0xff, 0x01, 0x00, 0x01, 0x00]

def greaseExtEntry : List UInt8 := c.grease 3 ++ [0x00, 0x02, 0x00, 0x00]

/-- The extensions behind the server name. -/
def otherExts : List UInt8 :=
  supGrp c ++ ecPointFmt ++ sigAlgs ++ alpn ++ ems ++ sessTick ++ supVer c ++ pskModes ++ keyShare c ++ renegInfo ++
    greaseExtEntry c

def targetHelloLen : Nat := 517

def prefixLen : Nat := 2 + 32 + 1 + c.sessionId.1.length + 2 + (cipherSuites c).length + compression.length + 2

/-- The extensions, padded if the body were too short. -/
def extBody (domain : List UInt8) : Except Stop (List UInt8) := do
  let sniExt ← sniExt domain
  let extBody := sniExt ++ otherExts c
  let unpaddedTotal := prefixLen c + extBody.length
  if unpaddedTotal < targetHelloLen then do
    let room ← sub targetHelloLen unpaddedTotal
    let padNeeded ← sub room 4
    return extBody ++ [0x00, 0x15] ++ be 2 padNeeded ++ List.replicate padNeeded 0
  else return extBody

/-- The body with the random field zeroed. -/
def helloBody (extBody : List UInt8) : List UInt8 :=
  let extensions := be 2 extBody.length ++ extBody
  [0x03, 0x03] ++ List.replicate 32 0 ++ [UInt8.ofNat c.sessionId.1.length] ++ c.sessionId.1 ++ be 2 (cipherSuites c).length ++
    cipherSuites c ++ compression ++ extensions

def record (helloBody : List UInt8) : List UInt8 :=
  let handshake := [0x01] ++ be 3 helloBody.length ++ helloBody
  [0x16] ++ [0x03, 0x01] ++ be 2 handshake.length ++ handshake

def clientRandomOffset : Nat := 5 + 4 + 2

/-- What is written to the stream. -/
def clientHello (digest : List UInt8 → List.Vector UInt8 32) (domain : List UInt8) : Except Stop (List UInt8) := do
  let extBody ← extBody c domain
  let record := record (helloBody c extBody)
  return record.take clientRandomOffset ++ (digest record).1 ++ record.drop (clientRandomOffset + 32)

end

/-! The other end. -/

structure Extension where
  id : List UInt8
  body : List UInt8
  deriving DecidableEq

/-- Extensions to the last byte. -/
def readExtensions : Nat → List UInt8 → Option (List Extension)
  | _, [] => some []
  | 0, _ :: _ => none
  | fuel + 1, l =>
    match block 2 (l.drop 2) with
    | none => none
    | some (body, rest) => (readExtensions fuel rest).map ({ id := l.take 2, body := body } :: ·)

structure Hello where
  random : List UInt8
  sessionId : List UInt8
  cipherSuites : List UInt8
  compression : List UInt8
  extensions : List Extension

def readRecord (l : List UInt8) : Option (List UInt8) :=
  if l.take 3 = [0x16, 0x03, 0x01] then wholeBlock 2 (l.drop 3) else none

def readHandshake (l : List UInt8) : Option (List UInt8) :=
  if l.take 1 = [0x01] then wholeBlock 3 (l.drop 1) else none

def readHello (l : List UInt8) : Option Hello :=
  if l.take 2 = [0x03, 0x03] ∧ 34 ≤ l.length then do
    let (sessionId, rest) ← block 1 (l.drop 34)
    let (cipherSuites, rest) ← block 2 rest
    let (compression, rest) ← block 1 rest
    let block ← wholeBlock 2 rest
    let extensions ← readExtensions block.length block
    return { random := (l.drop 2).take 32, sessionId := sessionId, cipherSuites := cipherSuites, compression := compression
             extensions := extensions }
  else none

/-- The list of server names has one, a host name. -/
def readServerName (l : List UInt8) : Option (List UInt8) := do
  let list ← wholeBlock 2 l
  if list.take 1 = [0x00] then wholeBlock 2 (list.drop 1) else none

/-- Every length is the number of the bytes behind it, from the record down to the name. -/
structure WellFormed (domain record body : List UInt8) (hello : Hello) : Prop where
  records : ∃ handshake, readRecord record = some handshake ∧ readHandshake handshake = some body
  reads : readHello body = some hello
  sessionId : hello.sessionId.length = 32
  cipherSuites : 2 ∣ hello.cipherSuites.length
  serverName : ∃ sni, ⟨[0x00, 0x00], sni⟩ ∈ hello.extensions ∧ readServerName sni = some domain

/-! The extensions. -/

def Extension.bytes (e : Extension) : List UInt8 := e.id ++ (be 2 e.body.length ++ e.body)

/-- An extension that has room in its fields. -/
def Extension.Fits (e : Extension) : Prop := e.id.length = 2 ∧ e.body.length < 256 ^ 2

theorem readExtensions_cons {e : Extension} (h : e.Fits) (fuel : Nat) (rest : List UInt8) :
    readExtensions (fuel + 1) (e.bytes ++ rest) = (readExtensions fuel rest).map (e :: ·) := by
  obtain ⟨hid, hbody⟩ := h
  have hbytes : e.bytes ++ rest = e.id ++ (be 2 e.body.length ++ (e.body ++ rest)) := by
    simp [Extension.bytes]
  have hdrop : (e.bytes ++ rest).drop 2 = be 2 e.body.length ++ (e.body ++ rest) := by
    rw [hbytes, List.drop_left' hid]
  have htake : (e.bytes ++ rest).take 2 = e.id := by
    rw [hbytes, List.take_left' hid]
  cases hcons : e.bytes ++ rest with
  | nil =>
    rw [hcons] at htake
    rw [← htake] at hid
    cases hid
  | cons b l =>
    rw [← hcons, readExtensions, hdrop, htake, block_be hbody]
    rw [hcons]
    exact nofun

/-- The extensions of a block that they fill. -/
theorem readExtensions_bytes (exts : List Extension) (h : ∀ e ∈ exts, e.Fits) : ∀ fuel, exts.length ≤ fuel →
    readExtensions fuel (exts.flatMap Extension.bytes) = some exts := by
  induction exts with
  | nil =>
    intro fuel _
    cases fuel <;> rfl
  | cons e exts ih =>
    intro fuel hfuel
    obtain ⟨fuel, rfl⟩ : ∃ n, fuel = n + 1 := ⟨fuel - 1, by rw [List.length_cons] at hfuel; omega⟩
    rw [List.flatMap_cons, readExtensions_cons (h e List.mem_cons_self),
      ih (fun e' he' => h e' (List.mem_cons_of_mem e he')) fuel (by rw [List.length_cons] at hfuel; omega)]
    rfl

theorem length_le_bytes (exts : List Extension) (h : ∀ e ∈ exts, e.Fits) :
    exts.length ≤ (exts.flatMap Extension.bytes).length := by
  induction exts with
  | nil => exact Nat.le_refl _
  | cons e exts ih =>
    have hid := (h e List.mem_cons_self).1
    have hrest := ih fun e' he' => h e' (List.mem_cons_of_mem e he')
    rw [List.flatMap_cons, List.length_append, List.length_cons, Extension.bytes, List.length_append, hid]
    omega

def sniBody (domain : List UInt8) : List UInt8 :=
  be 2 (domain.length + 3) ++ ([0x00] ++ (be 2 domain.length ++ domain))

def sni (domain : List UInt8) : Extension := ⟨[0x00, 0x00], sniBody domain⟩

def fixedExts (c : Choices) : List Extension :=
  [⟨[0x00, 0x0a], [0x00, 0x06] ++ c.grease 1 ++ [0x00, 0x1d, 0x00, 0x17]⟩,
    ⟨[0x00, 0x0b], [0x01, 0x00]⟩,
    ⟨[0x00, 0x0d], [0x00, 0x10, 0x04, 0x03, 0x08, 0x04, 0x04, 0x01, 0x05, 0x03, 0x08, 0x05, 0x05, 0x01, 0x08, 0x06, 0x06, 0x01]⟩,
    ⟨[0x00, 0x10], [0x00, 0x0c, 0x02, 0x68, 0x32, 0x08, 0x68, 0x74, 0x74, 0x70, 0x2f, 0x31, 0x2e, 0x31]⟩,
    ⟨[0x00, 0x17], []⟩,
    ⟨[0x00, 0x23], []⟩,
    ⟨[0x00, 0x2b], [0x04] ++ c.grease 2 ++ [0x03, 0x04]⟩,
    ⟨[0x00, 0x2d], [0x01, 0x01]⟩,
    ⟨[0x00, 0x33], [0x00, 0x24, 0x00, 0x1d, 0x00, 0x20] ++ c.keySharePub.1⟩,
    ⟨[0xff, 0x01], [0x00]⟩,
    ⟨c.grease 3, [0x00, 0x00]⟩]

def padding (n : Nat) : Extension := ⟨[0x00, 0x15], List.replicate n 0⟩

theorem grease_length (c : Choices) (i : Fin 4) : (c.grease i).length = 2 := rfl

/-- The arrays of the source are extensions, one behind the other. -/
theorem otherExts_eq (c : Choices) : otherExts c = (fixedExts c).flatMap Extension.bytes := by
  have hpub : c.keySharePub.1.length = 32 := c.keySharePub.2
  simp [otherExts, fixedExts, Extension.bytes, grease_length, hpub, be, le, supGrp, ecPointFmt, sigAlgs, alpn, ems, sessTick,
    supVer, pskModes, keyShare, renegInfo, greaseExtEntry]

theorem fixedExts_fits (c : Choices) : ∀ e ∈ fixedExts c, e.Fits := by
  have hpub : c.keySharePub.1.length = 32 := c.keySharePub.2
  intro e he
  simp only [fixedExts, List.mem_cons, List.not_mem_nil, or_false] at he
  rcases he with rfl | rfl | rfl | rfl | rfl | rfl | rfl | rfl | rfl | rfl | rfl <;>
    simp [Extension.Fits, grease_length, hpub]

theorem otherExts_length (c : Choices) : (otherExts c).length = 134 := by
  have hpub : c.keySharePub.1.length = 32 := c.keySharePub.2
  simp [otherExts, supGrp, ecPointFmt, sigAlgs, alpn, ems, sessTick, supVer, pskModes, keyShare, renegInfo, greaseExtEntry,
    grease_length, hpub]

theorem cipherSuites_length (c : Choices) : (cipherSuites c).length = 32 := rfl

theorem prefixLen_eq (c : Choices) : prefixLen c = 105 := by
  have hsession : c.sessionId.1.length = 32 := c.sessionId.2
  rw [prefixLen, hsession, cipherSuites_length]
  rfl

theorem sniExt_eq {domain : List UInt8} (h : domain.length ≤ 60000) : sniExt domain = .ok (sni domain).bytes := by
  have hmod : domain.length % 2 ^ 16 = domain.length := Nat.mod_eq_of_lt (by omega)
  have hlen : (sniBody domain).length = domain.length + 3 + 2 := by
    simp [sniBody]
    omega
  have hlist := fit_of_lt (by omega : domain.length + 3 < 2 ^ 16)
  have hext := fit_of_lt (by omega : domain.length + 3 + 2 < 2 ^ 16)
  have hbytes : [0x00, 0x00] ++ be 2 (domain.length + 3 + 2) ++ be 2 (domain.length + 3) ++ [0x00] ++ be 2 domain.length ++
      domain = (sni domain).bytes := by
    rw [Extension.bytes, sni, hlen, sniBody]
    simp
  unfold sniExt
  dsimp only
  rw [hmod, hlist]
  change (fit (2 ^ 16) (domain.length + 3 + 2)).bind _ = _
  rw [hext, ← hbytes]
  rfl

theorem sni_fits {domain : List UInt8} (h : domain.length ≤ 60000) : (sni domain).Fits := by
  refine ⟨rfl, ?_⟩
  simp [sni, sniBody]
  omega

theorem sni_bytes_length (domain : List UInt8) : (sni domain).bytes.length = 9 + domain.length := by
  simp [sni, Extension.bytes, sniBody]
  omega

/-! The layers. -/

/-- The body behind the random field. -/
def helloRest (c : Choices) (extBody : List UInt8) : List UInt8 :=
  be 1 c.sessionId.1.length ++ (c.sessionId.1 ++ (be 2 (cipherSuites c).length ++ (cipherSuites c ++
    (be 1 [(0x00 : UInt8)].length ++ ([0x00] ++ (be 2 extBody.length ++ extBody))))))

theorem helloBody_eq (c : Choices) (extBody : List UInt8) :
    helloBody c extBody = [0x03, 0x03] ++ (List.replicate 32 0 ++ helloRest c extBody) := by
  have hsession : c.sessionId.1.length = 32 := c.sessionId.2
  simp [helloBody, helloRest, compression, hsession, be, le]

theorem helloBody_length (c : Choices) (extBody : List UInt8) : (helloBody c extBody).length = 105 + extBody.length := by
  have hsession : c.sessionId.1.length = 32 := c.sessionId.2
  simp [helloBody, hsession, cipherSuites_length, compression]
  omega

/-- The digest is written over the random field. -/
theorem record_digest (digest : List UInt8) {body random rest : List UInt8}
    (hbody : body = [0x03, 0x03] ++ (random ++ rest)) (hrandom : random.length = 32) :
    (record body).take clientRandomOffset ++ digest ++ (record body).drop (clientRandomOffset + 32) =
      [0x16, 0x03, 0x01] ++ (be 2 ([0x01] ++ be 3 body.length ++ body).length ++
        ([0x01] ++ (be 3 body.length ++ ([0x03, 0x03] ++ (digest ++ rest))))) := by
  have hsplit : record body = ([0x16, 0x03, 0x01] ++ (be 2 ([0x01] ++ be 3 body.length ++ body).length ++ ([0x01] ++
      (be 3 body.length ++ [0x03, 0x03])))) ++ (random ++ rest) := by
    have hrecord : record body = [0x16, 0x03, 0x01] ++ (be 2 ([0x01] ++ be 3 body.length ++ body).length ++
        ([0x01] ++ (be 3 body.length ++ body))) := by
      simp [record]
    rw [hrecord]
    generalize be 2 ([0x01] ++ be 3 body.length ++ body).length = recLen
    generalize be 3 body.length = hsLen
    rw [hbody]
    simp
  have hhead : (([0x16, 0x03, 0x01] : List UInt8) ++ (be 2 ([0x01] ++ be 3 body.length ++ body).length ++ ([0x01] ++
      (be 3 body.length ++ [0x03, 0x03])))).length = clientRandomOffset := by
    simp [clientRandomOffset]
  rw [hsplit, List.take_left' hhead, ← List.drop_drop, List.drop_left' hhead, List.drop_left' hrandom]
  simp

/-- The other end reads extensions that fill their block, from under every other layer. -/
theorem reads_record (c : Choices) {exts : List Extension} (hexts : ∀ e ∈ exts, e.Fits)
    (hlen : (exts.flatMap Extension.bytes).length ≤ 65000) (digest : List.Vector UInt8 32) :
    let extBody := exts.flatMap Extension.bytes
    let body := [0x03, 0x03] ++ (digest.1 ++ helloRest c extBody)
    (∃ handshake, readRecord ((record (helloBody c extBody)).take clientRandomOffset ++ digest.1 ++
        (record (helloBody c extBody)).drop (clientRandomOffset + 32)) = some handshake ∧ readHandshake handshake = some body) ∧
      readHello body = some
        { random := digest.1, sessionId := c.sessionId.1, cipherSuites := cipherSuites c, compression := [0x00]
          extensions := exts } := by
  intro extBody body
  have hext : extBody.length ≤ 65000 := hlen
  have hdigest : digest.1.length = 32 := digest.2
  have hsession : c.sessionId.1.length = 32 := c.sessionId.2
  have hzeros : (List.replicate 32 (0 : UInt8)).length = 32 := List.length_replicate
  have hbody := helloBody_length c extBody
  have hsame : (helloBody c extBody).length = body.length := by
    rw [helloBody_eq, List.length_append, List.length_append, hzeros, List.length_append, List.length_append, hdigest]
  have hhs : ([0x01] ++ be 3 (helloBody c extBody).length ++ helloBody c extBody).length =
      ([0x01] ++ (be 3 body.length ++ body)).length := by
    simp [hsame]
  have hrecord := record_digest digest.1 (helloBody_eq c extBody) hzeros
  rw [hhs, hsame] at hrecord
  have hthree : ∀ l : List UInt8, ([0x16, 0x03, 0x01] ++ l).take 3 = [0x16, 0x03, 0x01] ∧ ([0x16, 0x03, 0x01] ++ l).drop 3 = l :=
    fun l => ⟨rfl, rfl⟩
  constructor
  · refine ⟨[0x01] ++ (be 3 body.length ++ body), ?_, ?_⟩
    · rw [hrecord, readRecord, (hthree _).1, (hthree _).2, if_pos rfl, wholeBlock_be]
      rw [List.length_append, List.length_append, be_length, ← hsame, hbody]
      show 1 + (3 + (105 + extBody.length)) < 256 ^ 2
      omega
    · have hone : ([0x01] ++ (be 3 body.length ++ body)).take 1 = [0x01] ∧
          ([0x01] ++ (be 3 body.length ++ body)).drop 1 = be 3 body.length ++ body := ⟨rfl, rfl⟩
      rw [readHandshake, hone.1, hone.2, if_pos rfl, wholeBlock_be (by rw [← hsame, hbody]; omega)]
  · have htake : body.take 2 = [0x03, 0x03] := rfl
    have hrandom : body.drop 2 = digest.1 ++ helloRest c extBody := rfl
    have hdrop : body.drop 34 = helloRest c extBody := by
      show body.drop (2 + 32) = _
      rw [← List.drop_drop, hrandom, List.drop_left' hdigest]
    have hlong : 34 ≤ body.length := by
      rw [← hsame, hbody]
      omega
    have hcipher : (cipherSuites c).length < 256 ^ 2 := by
      rw [cipherSuites_length]
      decide
    rw [readHello, if_pos ⟨htake, hlong⟩, hdrop, hrandom, List.take_left' hdigest, helloRest, block_be (by rw [hsession]; decide)]
    simp only [Option.bind_eq_bind, Option.bind_some]
    rw [block_be hcipher]
    simp only [Option.bind_some]
    rw [block_be (by decide)]
    simp only [Option.bind_some]
    rw [wholeBlock_be (by omega)]
    simp only [Option.bind_some]
    rw [readExtensions_bytes exts hexts _ (length_le_bytes exts hexts)]
    rfl

theorem readServerName_sni {domain : List UInt8} (h : domain.length ≤ 60000) : readServerName (sniBody domain) = some domain := by
  have hlen : ([0x00] ++ (be 2 domain.length ++ domain)).length = domain.length + 3 := by
    simp
    omega
  have hlist : wholeBlock 2 (sniBody domain) = some ([0x00] ++ (be 2 domain.length ++ domain)) := by
    rw [sniBody, ← hlen]
    exact wholeBlock_be (by omega)
  rw [readServerName, hlist]
  exact wholeBlock_be (by omega)

/-! Every domain. -/

/-- The length of the body without padding. -/
def unpaddedTotal (c : Choices) (domain : List UInt8) : Nat := prefixLen c + ((sni domain).bytes ++ otherExts c).length

theorem unpaddedTotal_eq (c : Choices) (domain : List UInt8) : unpaddedTotal c domain = 248 + domain.length := by
  rw [unpaddedTotal, prefixLen_eq, List.length_append, sni_bytes_length, otherExts_length]
  omega

/-- With the padding, where it is one. -/
def exts (c : Choices) (domain : List UInt8) : List Extension :=
  sni domain :: (fixedExts c ++ if domain.length < 266 then [padding (265 - domain.length)] else [])

theorem exts_fits (c : Choices) {domain : List UInt8} (h : domain.length ≤ 60000) : ∀ e ∈ exts c domain, e.Fits := by
  intro e he
  rcases List.mem_cons.mp he with rfl | he
  · exact sni_fits h
  · rcases List.mem_append.mp he with hfixed | hpad
    · exact fixedExts_fits c e hfixed
    · split at hpad
      · obtain rfl := List.mem_singleton.mp hpad
        refine ⟨rfl, ?_⟩
        rw [padding, List.length_replicate]
        omega
      · cases hpad

theorem exts_length (c : Choices) (domain : List UInt8) : ((exts c domain).flatMap Extension.bytes).length =
    143 + domain.length + if domain.length < 266 then 4 + (265 - domain.length) else 0 := by
  rw [exts, List.flatMap_cons, List.flatMap_append, ← otherExts_eq, List.length_append, List.length_append, sni_bytes_length,
    otherExts_length]
  split
  · simp [Extension.bytes, padding]
    omega
  · simp
    omega

/-- There is no room for the header of the padding where one to three bytes are missing. -/
theorem extBody_overflow (c : Choices) {domain : List UInt8} (hmin : 266 ≤ domain.length) (hmax : domain.length ≤ 268) :
    extBody c domain = .error .overflow := by
  have hroom : sub targetHelloLen (248 + domain.length) = .ok (269 - domain.length) := by
    rw [sub, if_neg (by unfold targetHelloLen; omega)]
    congr 1
    unfold targetHelloLen
    omega
  unfold extBody
  rw [sniExt_eq (by omega)]
  change (if unpaddedTotal c domain < targetHelloLen then sub targetHelloLen (unpaddedTotal c domain) >>= _ else _) = _
  rw [unpaddedTotal_eq, if_pos (by unfold targetHelloLen; omega), hroom]
  change (sub (269 - domain.length) 4).bind _ = _
  rw [sub, if_pos (by omega)]
  rfl

theorem extBody_ok (c : Choices) {domain : List UInt8} (h : domain.length ≤ 60000)
    (hroom : ¬(266 ≤ domain.length ∧ domain.length ≤ 268)) :
    extBody c domain = .ok ((exts c domain).flatMap Extension.bytes) := by
  unfold extBody
  rw [sniExt_eq h]
  change (if unpaddedTotal c domain < targetHelloLen then sub targetHelloLen (unpaddedTotal c domain) >>= _ else _) = _
  rw [unpaddedTotal_eq, exts, List.flatMap_cons, List.flatMap_append, ← otherExts_eq, ← List.append_assoc]
  by_cases hshort : domain.length < 266
  · have hfirst : sub targetHelloLen (248 + domain.length) = .ok (269 - domain.length) := by
      rw [sub, if_neg (by unfold targetHelloLen; omega)]
      congr 1
      unfold targetHelloLen
      omega
    have hsecond : sub (269 - domain.length) 4 = .ok (265 - domain.length) := by
      rw [sub, if_neg (by omega)]
      congr 1
      omega
    rw [if_pos (by unfold targetHelloLen; omega), hfirst, if_pos hshort]
    change (sub (269 - domain.length) 4).bind _ = _
    rw [hsecond]
    change Except.ok _ = Except.ok _
    congr 1
    simp [Extension.bytes, padding]
  · rw [if_neg (by unfold targetHelloLen; omega), if_neg hshort]
    change Except.ok _ = Except.ok _
    congr 1
    simp

/-- The hello is well formed just if the padding is not where there is no room for it. -/
theorem clientHello_wellFormed_iff (c : Choices) (digest : List UInt8 → List.Vector UInt8 32) {domain : List UInt8}
    (hmin : 1 ≤ domain.length) (hmax : domain.length ≤ 60000) :
    (∃ record body hello, clientHello c digest domain = .ok record ∧ WellFormed domain record body hello ∧
      (unpaddedTotal c domain < targetHelloLen → body.length = targetHelloLen)) ↔ ¬(266 ≤ domain.length ∧ domain.length ≤ 268) := by
  constructor
  · rintro ⟨record, body, hello, hok, -, -⟩ ⟨hlow, hhigh⟩
    rw [clientHello, extBody_overflow c hlow hhigh] at hok
    cases hok
  · intro hroom
    have hlen := exts_length c domain
    have hsmall : ((exts c domain).flatMap Extension.bytes).length ≤ 65000 := by
      rw [hlen]
      split <;> omega
    have hok := extBody_ok c hmax hroom
    generalize hext : (exts c domain).flatMap Extension.bytes = ext at hok
    obtain ⟨hrecords, hreads⟩ := reads_record c (exts_fits c hmax) hsmall (digest (record (helloBody c ext)))
    rw [hext] at hrecords hreads
    refine ⟨_, _, _, ?_, ⟨hrecords, hreads, c.sessionId.2, ⟨16, cipherSuites_length c⟩, ?_⟩, ?_⟩
    · rw [clientHello, hok]
      rfl
    · exact ⟨sniBody domain, List.mem_cons_self, readServerName_sni hmax⟩
    · intro hshort
      rw [unpaddedTotal_eq, targetHelloLen] at hshort
      have hbody := helloBody_length c ext
      have hrandom : (digest (record (helloBody c ext))).1.length = 32 := (digest _).2
      have hzeros : (List.replicate 32 (0 : UInt8)).length = 32 := List.length_replicate
      rw [helloBody_eq, List.length_append, List.length_append, hzeros, ← hext, hlen, if_pos (by omega)] at hbody
      rw [List.length_append, List.length_append, hrandom]
      rw [hext] at hbody
      rw [targetHelloLen]
      omega

def zeroChoices : Choices :=
  { sessionId := List.Vector.replicate 32 0, greaseSeed := List.Vector.replicate 4 0, keySharePub := List.Vector.replicate 32 0 }

/-- A padding without bytes. -/
theorem clientHello_wellFormed_edge :
    (∃ record body hello, clientHello zeroChoices (fun _ => List.Vector.replicate 32 7) (List.replicate 265 97) = .ok record ∧
      WellFormed (List.replicate 265 97) record body hello ∧
      (unpaddedTotal zeroChoices (List.replicate 265 97) < targetHelloLen → body.length = targetHelloLen)) ↔
      ¬(266 ≤ (List.replicate 265 (97 : UInt8)).length ∧ (List.replicate 265 (97 : UInt8)).length ≤ 268) :=
  clientHello_wellFormed_iff zeroChoices (fun _ => List.Vector.replicate 32 7)
    (by rw [List.length_replicate]; decide) (by rw [List.length_replicate]; decide)

/-- A domain of 266 bytes. -/
theorem clientHello_panics :
    clientHello zeroChoices (fun _ => List.Vector.replicate 32 7) (List.replicate 266 97) = .error .overflow := by
  rw [clientHello, extBody_overflow _ (by rw [List.length_replicate]) (by rw [List.length_replicate]; decide)]
  rfl

end Ferogram.Connect.ClientHello
