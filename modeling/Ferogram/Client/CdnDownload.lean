import Ferogram.Lib.Keystream
import Ferogram.Lib.BigEndian
import Ferogram.Lib.Lockstep
import Ferogram.TlTypes.RoundTrip
import Ferogram.Mtsender.Step

/- The download from a CDN, `ferogram/src/cdn_download.rs`, with the counter mode of
   `ferogram-crypto/src/aes.rs`.

   A turn of the loop is one request with its answer, and what became of the callback, if the
   server had that called. The server has the file enciphered once, as a whole; AES is an
   argument, any function of the counter block. Offsets and lengths are of a file that fits
   into memory. The bytes of the request are not modelled, only what it asks for.

   What is proved: `download_exact`. A chunk starts at a multiple of the chunk size, so the
   counter that is computed for it goes on where the last chunk ended (`ctrCrypt_slice`). -/
namespace Ferogram.CdnDownload
open Bytes Connect TlTypes
open Keystream (mask)
open Mtsender (InvocationError)

section Cipher
variable (aes256 : List.Vector UInt8 32 → List.Vector UInt8 16 → List.Vector UInt8 16)

/-- Byte `i` of the keystream of `Ctr128BE`, whose counter wraps around. -/
def ctrByte (key : List.Vector UInt8 32) (iv : List.Vector UInt8 16) (i : Nat) : UInt8 :=
  (aes256 key (beVec 16 ((ofBe iv.1 + i / 16) % 2 ^ 128))).get ⟨i % 16, Nat.mod_lt i (by decide)⟩

def ctrCrypt (buffer : List UInt8) (key : List.Vector UInt8 32) (iv : List.Vector UInt8 16) : List UInt8 :=
  mask (ctrByte aes256 key iv) 0 buffer

end Cipher

def ctrIvAtOffset (baseIv : List.Vector UInt8 16) (byteOffset : Nat) : List.Vector UInt8 16 :=
  let blockOffset := byteOffset / 16
  beVec 16 ((ofBe baseIv.1 + blockOffset) % 2 ^ 128)

def cdnChunkSize : Nat := 128 * 1024

def idCdnFile : Nat := 0xa99fca4f
def idCdnFileReuploadNeeded : Nat := 0xeea8e46e

structure CdnDownloader where
  encryptionKey : List.Vector UInt8 32
  encryptionIv : List.Vector UInt8 16

inductive CdnChunkResult where
  | data (bytes : List UInt8)
  | reuploadNeeded (requestToken : List UInt8)
  deriving DecidableEq

/-- The two loops; the second one has a callback for the tokens. -/
inductive Loop where
  | downloadAll
  | downloadAllWithReupload
  deriving DecidableEq

/-- One turn. -/
structure Turn (α : Type) where
  answer : α
  reuploadFn : Except InvocationError Unit

/-- `tokens` are those that the callback was given. -/
structure Download where
  buf : List UInt8
  offset : Nat
  tokens : List (List UInt8)
  result : Option (Except InvocationError (List UInt8))
  deriving DecidableEq

section Client
variable (aes256 : List.Vector UInt8 32 → List.Vector UInt8 16 → List.Vector UInt8 16) (c : CdnDownloader)

/-- `download_chunk_raw`, from the response on. -/
def downloadChunkRaw (byteOffset : Nat) (response : List UInt8) : Except InvocationError CdnChunkResult :=
  if response.length < 4 then .error (.deserialize "CDN response too short")
  else
    let cid := ctor response
    if cid = idCdnFile then
      match tlReadBytes (response.drop 4) with
      | none => .error (.deserialize "cdn bytes decode")
      | some bytes =>
        let iv := ctrIvAtOffset c.encryptionIv byteOffset
        .ok (.data (ctrCrypt aes256 bytes c.encryptionKey iv))
    else if cid = idCdnFileReuploadNeeded then
      match tlReadBytes (response.drop 4) with
      | none => .error (.deserialize "cdn reupload token")
      | some requestToken => .ok (.reuploadNeeded requestToken)
    else .error (.deserialize ("unexpected CDN constructor: " ++ Mtsender.hex32 cid))

namespace Download

def fail (d : Download) (err : InvocationError) : Download := { d with result := some (.error err) }

/-- Behind the loop. -/
def finish (d : Download) : Download := { d with result := some (.ok d.buf) }

variable (loop : Loop) (totalSize : Option Int)

def received (d : Download) (chunk : List UInt8) : Download :=
  if chunk = [] then d.finish
  else
    let d := { d with buf := d.buf ++ chunk, offset := d.offset + chunk.length }
    if (totalSize.map fun t => decide (t ≤ d.offset)).getD false ∨ chunk.length < cdnChunkSize then d.finish else d

def reuploadNeeded (d : Download) (t : Turn (Except InvocationError (List UInt8))) (requestToken : List UInt8) : Download :=
  match loop with
  | .downloadAll => d.fail (.deserialize "cdnFileReuploadNeeded - use download_all_with_reupload")
  | .downloadAllWithReupload =>
    let d := { d with tokens := d.tokens ++ [requestToken] }
    match t.reuploadFn with
    | .ok () => d
    | .error err => d.fail err

def turn (d : Download) (t : Turn (Except InvocationError (List UInt8))) : Download :=
  match d.result with
  | some _ => d
  | none =>
    match t.answer.bind (downloadChunkRaw aes256 c d.offset) with
    | .error err => d.fail err
    | .ok (.data chunk) => d.received totalSize chunk
    | .ok (.reuploadNeeded requestToken) => d.reuploadNeeded loop t requestToken

def begin : Download := { buf := [], offset := 0, tokens := [], result := none }

end Download

/-! The server. -/

/-- What it answers a request with. -/
inductive Answer where
  | part
  | reuploadNeeded (requestToken : List UInt8)
  deriving DecidableEq

variable (file : List UInt8)

/-- The file as the CDN has it. -/
def enciphered : List UInt8 := ctrCrypt aes256 file c.encryptionKey c.encryptionIv

/-- The answer to `getCdnFile(offset, limit)`; there are no bytes behind the end of the file. -/
def serve (offset limit : Nat) : Answer → List UInt8
  | .part => le 4 idCdnFile ++ serializeBytes (((enciphered aes256 c file).drop offset).take limit)
  | .reuploadNeeded requestToken => le 4 idCdnFileReuploadNeeded ++ serializeBytes requestToken

variable (loop : Loop) (totalSize : Option Int)

/-- A turn with the server. -/
def next (d : Download) (t : Turn Answer) : Download :=
  d.turn aes256 c loop totalSize { t with answer := .ok (serve aes256 c file d.offset cdnChunkSize t.answer) }

def run (turns : List (Turn Answer)) : Download := Run.final (next aes256 c file loop totalSize) .begin turns

end Client

/-! The counter. -/

section Counter
variable (aes256 : List.Vector UInt8 32 → List.Vector UInt8 16 → List.Vector UInt8 16)

theorem ofBe_beVec (n : Nat) : ofBe (beVec 16 (n % 2 ^ 128)).1 = n % 2 ^ 128 :=
  ofBe_be_of_lt (Nat.mod_lt n (by decide))

/-- The counter of a chunk goes on where the one of the whole file is. -/
theorem ctrByte_ctrIvAtOffset {offset : Nat} (h : 16 ∣ offset) (key : List.Vector UInt8 32) (iv : List.Vector UInt8 16)
    (i : Nat) : ctrByte aes256 key (ctrIvAtOffset iv offset) i = ctrByte aes256 key iv (offset + i) := by
  have hdiv : (offset + i) / 16 = offset / 16 + i / 16 := by omega
  have hmod : (offset + i) % 16 = i % 16 := by omega
  have hcounter : ((ofBe iv.1 + offset / 16) % 2 ^ 128 + i / 16) % 2 ^ 128 = (ofBe iv.1 + (offset + i) / 16) % 2 ^ 128 := by
    rw [hdiv, Nat.mod_add_mod, Nat.add_assoc]
  unfold ctrByte ctrIvAtOffset
  dsimp only
  simp only [ofBe_beVec, hcounter, hmod]

/-- A chunk of the enciphered file is deciphered to the chunk of the file. -/
theorem ctrCrypt_slice {offset : Nat} (h : 16 ∣ offset) (limit : Nat) (file : List UInt8) (key : List.Vector UInt8 32)
    (iv : List.Vector UInt8 16) :
    ctrCrypt aes256 (((ctrCrypt aes256 file key iv).drop offset).take limit) key (ctrIvAtOffset iv offset) =
      (file.drop offset).take limit := by
  have hkey : ctrByte aes256 key (ctrIvAtOffset iv offset) = fun i => ctrByte aes256 key iv (offset + i) :=
    funext (ctrByte_ctrIvAtOffset aes256 h key iv)
  unfold ctrCrypt
  rw [hkey]
  exact Keystream.mask_slice (ctrByte aes256 key iv) offset limit file

end Counter

/-! One request. -/

section Requests
variable {aes256 : List.Vector UInt8 32 → List.Vector UInt8 16 → List.Vector UInt8 16} {c : CdnDownloader}
  {file : List UInt8}

/-- What is written as `bytes` can be read, also where the length does not fit. -/
theorem tlReadBytes_written (data : List UInt8) : ∃ read, tlReadBytes (serializeBytes data) = some read := by
  by_cases hfits : data.length < 2 ^ 24
  · have hread := tlReadBytes_serializeBytes hfits []
    rw [List.append_nil] at hread
    exact ⟨data, hread⟩
  · have hlen : ofLe (le 3 data.length) ≤ data.length := by
      rw [ofLe_le]
      exact Nat.mod_le data.length _
    rw [serializeBytes_long (by omega), tlReadBytes_long, if_neg]
    · exact ⟨_, rfl⟩
    · rw [List.length_append]
      omega

/-- A response begins with the id of its constructor. -/
theorem response_parts {id : Nat} (h : id < 256 ^ 4) (body : List UInt8) :
    ¬ (le 4 id ++ body).length < 4 ∧ ctor (le 4 id ++ body) = id ∧ (le 4 id ++ body).drop 4 = body := by
  refine ⟨?_, ctor_append h body, List.drop_left' (le_length 4 id)⟩
  rw [List.length_append, le_length]
  omega

theorem downloadChunkRaw_part {offset limit : Nat} (h : 16 ∣ offset) (hlimit : limit < 2 ^ 24) :
    downloadChunkRaw aes256 c offset (serve aes256 c file offset limit .part) =
      .ok (.data ((file.drop offset).take limit)) := by
  obtain ⟨hlen, hctor, hdrop⟩ := response_parts (by decide : idCdnFile < 256 ^ 4)
    (serializeBytes (((enciphered aes256 c file).drop offset).take limit))
  have hfits : (((enciphered aes256 c file).drop offset).take limit).length < 2 ^ 24 :=
    Nat.lt_of_le_of_lt (List.length_take_le limit _) hlimit
  have hread := tlReadBytes_serializeBytes hfits []
  rw [List.append_nil] at hread
  unfold downloadChunkRaw serve
  dsimp only
  rw [if_neg hlen, hctor, if_pos rfl, hdrop, hread]
  exact congrArg (fun bytes => Except.ok (CdnChunkResult.data bytes))
    (ctrCrypt_slice aes256 h limit file c.encryptionKey c.encryptionIv)

theorem downloadChunkRaw_reupload (offset limit : Nat) (requestToken : List UInt8) :
    ∃ token, downloadChunkRaw aes256 c offset (serve aes256 c file offset limit (.reuploadNeeded requestToken)) =
      .ok (.reuploadNeeded token) := by
  obtain ⟨hlen, hctor, hdrop⟩ := response_parts (by decide : idCdnFileReuploadNeeded < 256 ^ 4) (serializeBytes requestToken)
  obtain ⟨token, hread⟩ := tlReadBytes_written requestToken
  refine ⟨token, ?_⟩
  unfold downloadChunkRaw serve
  dsimp only
  rw [if_neg hlen, hctor, if_neg (by decide), if_pos rfl, hdrop, hread]

end Requests

/-! The loop. -/

/-- The download has the whole chunks up to here, and goes on. -/
structure Going (file : List UInt8) (parts : Nat) (d : Download) : Prop where
  running : d.result = none
  offset : d.offset = parts * cdnChunkSize
  inside : d.offset ≤ file.length
  buf : d.buf = file.take d.offset

/-- A turn whose answer is a part. -/
def isPart (t : Turn Answer) : Bool := t.answer = .part

/-- A turn in which the callback failed. -/
def Failed (t : Turn Answer) (err : InvocationError) : Prop :=
  (∃ requestToken, t.answer = .reuploadNeeded requestToken) ∧ t.reuploadFn = .error err

/-- The loop goes on, or has returned the file, or an error for which there was a reason. -/
def Come (file : List UInt8) (parts : Nat) (reason : InvocationError → Prop) (d : Download) : Prop :=
  Going file parts d ∨ d.result = some (.ok file) ∨ ∃ err, reason err ∧ d.result = some (.error err)

theorem Come.mono {file : List UInt8} {parts : Nat} {reason reason' : InvocationError → Prop} {d : Download}
    (h : Come file parts reason d) (himp : ∀ err, reason err → reason' err) : Come file parts reason' d :=
  Or.imp_right (Or.imp_right fun ⟨err, hreason, hresult⟩ => ⟨err, himp err hreason, hresult⟩) h

section Loop
variable {aes256 : List.Vector UInt8 32 → List.Vector UInt8 16 → List.Vector UInt8 16} {c : CdnDownloader}
  {file : List UInt8} {loop : Loop} {totalSize : Option Int}

theorem Going.begin (file : List UInt8) : Going file 0 .begin :=
  ⟨rfl, rfl, Nat.zero_le _, rfl⟩

theorem Going.aligned {parts : Nat} {d : Download} (h : Going file parts d) : 16 ∣ d.offset := by
  rw [h.offset]
  exact Nat.dvd_trans (by decide) (Nat.dvd_mul_left cdnChunkSize parts)

theorem next_of_result {d : Download} {r : Except InvocationError (List UInt8)} (h : d.result = some r) (t : Turn Answer) :
    next aes256 c file loop totalSize d t = d := by
  unfold next Download.turn
  rw [h]

/-- The chunk that was asked for. -/
theorem Going.received {parts : Nat} {d : Download} (h : Going file parts d)
    (htotal : totalSize = none ∨ totalSize = some (file.length : Int)) :
    Going file (parts + 1) (d.received totalSize ((file.drop d.offset).take cdnChunkSize)) ∨
      (d.received totalSize ((file.drop d.offset).take cdnChunkSize)).result = some (.ok file) := by
  have hlen : ((file.drop d.offset).take cdnChunkSize).length = min cdnChunkSize (file.length - d.offset) := by
    rw [List.length_take, List.length_drop]
  have hinside := h.inside
  generalize hchunk : (file.drop d.offset).take cdnChunkSize = chunk at hlen ⊢
  -- What is there is the beginning of the file, and all of it if the end was reached.
  have hbuf : d.buf ++ chunk = file.take (d.offset + cdnChunkSize) := by
    rw [h.buf, ← hchunk, ← List.take_add]
  have hall : file.length ≤ d.offset + chunk.length → d.buf ++ chunk = file := by
    intro hend
    rw [hbuf]
    exact List.take_of_length_le (by omega)
  unfold Download.received
  by_cases hempty : chunk = []
  · right
    rw [if_pos hempty]
    have hzero : chunk.length = 0 := List.length_eq_zero_iff.mpr hempty
    have hpos : 0 < cdnChunkSize := by decide
    have hfile := hall (by omega)
    rw [hempty, List.append_nil] at hfile
    exact congrArg (fun bytes => some (Except.ok bytes)) hfile
  · rw [if_neg hempty]
    dsimp only
    split
    case isTrue hlast =>
      right
      have hend : file.length ≤ d.offset + chunk.length := by
        rcases hlast with htimes | hshort
        · rcases htotal with rfl | rfl
          · cases htimes
          · have hle : (file.length : Int) ≤ ((d.offset + chunk.length : Nat) : Int) := of_decide_eq_true htimes
            omega
        · omega
      exact congrArg (fun bytes => some (Except.ok bytes)) (hall hend)
    case isFalse hmore =>
      left
      have hfull : chunk.length = cdnChunkSize := by
        have hshort := fun hlt => hmore (Or.inr hlt)
        omega
      refine ⟨h.running, ?_, ?_, ?_⟩
      · rw [hfull, h.offset, Nat.add_one_mul]
      · change d.offset + chunk.length ≤ file.length
        omega
      · rw [hfull]
        exact hbuf

theorem Going.next_part {parts : Nat} {d : Download} (h : Going file parts d)
    (htotal : totalSize = none ∨ totalSize = some (file.length : Int)) {t : Turn Answer} (ht : t.answer = .part) :
    Going file (parts + 1) (next aes256 c file loop totalSize d t) ∨
      (next aes256 c file loop totalSize d t).result = some (.ok file) := by
  have hnext : next aes256 c file loop totalSize d t = d.received totalSize ((file.drop d.offset).take cdnChunkSize) := by
    unfold next Download.turn
    simp only [h.running, ht, Except.bind, downloadChunkRaw_part h.aligned (by decide : cdnChunkSize < 2 ^ 24)]
  rw [hnext]
  exact h.received htotal

/-- A reupload leaves the loop where it is, or its error ends it. -/
theorem Going.next_reupload {parts : Nat} {d : Download} (h : Going file parts d) {t : Turn Answer}
    {requestToken : List UInt8} (ht : t.answer = .reuploadNeeded requestToken) :
    Going file parts (next aes256 c file .downloadAllWithReupload totalSize d t) ∨
      ∃ err, Failed t err ∧ (next aes256 c file .downloadAllWithReupload totalSize d t).result = some (.error err) := by
  obtain ⟨token, hraw⟩ := @downloadChunkRaw_reupload aes256 c file d.offset cdnChunkSize requestToken
  have hnext : next aes256 c file .downloadAllWithReupload totalSize d t =
      d.reuploadNeeded .downloadAllWithReupload { t with answer := .ok (serve aes256 c file d.offset cdnChunkSize t.answer) }
        token := by
    unfold next Download.turn
    simp only [h.running, ht, Except.bind, hraw]
  rw [hnext]
  unfold Download.reuploadNeeded
  dsimp only
  cases hreupload : t.reuploadFn with
  | ok u => exact Or.inl ⟨h.running, h.offset, h.inside, h.buf⟩
  | error err => exact Or.inr ⟨err, ⟨⟨requestToken, ht⟩, hreupload⟩, rfl⟩

/-- A whole run, from wherever it is. -/
theorem Going.run (htotal : totalSize = none ∨ totalSize = some (file.length : Int)) (turns : List (Turn Answer)) :
    ∀ {parts : Nat} {d : Download}, Going file parts d →
      Come file (parts + turns.countP isPart) (fun err => ∃ t ∈ turns, Failed t err)
        (Run.final (next aes256 c file .downloadAllWithReupload totalSize) d turns) := by
  induction turns with
  | nil => exact fun h => Or.inl h
  | cons t turns ih =>
    intro parts d h
    change Come file _ _ (Run.final _ (next aes256 c file .downloadAllWithReupload totalSize d t) turns)
    -- A loop that has returned stays as it is.
    have hended : ∀ {r : Except InvocationError (List UInt8)},
        (next aes256 c file .downloadAllWithReupload totalSize d t).result = some r →
        (Run.final (next aes256 c file .downloadAllWithReupload totalSize)
          (next aes256 c file .downloadAllWithReupload totalSize d t) turns).result = some r := by
      intro r hr
      rw [Run.final_of_fixed (next_of_result hr), hr]
    have hlater : ∀ err, (∃ t' ∈ turns, Failed t' err) → ∃ t' ∈ t :: turns, Failed t' err :=
      fun err ⟨t', ht', hfailed⟩ => ⟨t', List.mem_cons_of_mem t ht', hfailed⟩
    cases ht : t.answer with
    | part =>
      have hcount : parts + (t :: turns).countP isPart = parts + 1 + turns.countP isPart := by
        have hpart : isPart t = true := decide_eq_true ht
        rw [List.countP_cons_of_pos hpart]
        omega
      rw [hcount]
      rcases h.next_part htotal ht with hgoing | hdone
      · exact (ih hgoing).mono hlater
      · exact Or.inr (Or.inl (hended hdone))
    | reuploadNeeded requestToken =>
      have hcount : (t :: turns).countP isPart = turns.countP isPart := by
        refine List.countP_cons_of_neg ?_
        rw [isPart, ht]
        exact Bool.false_ne_true
      rw [hcount]
      rcases h.next_reupload ht with hgoing | ⟨err, hfailed, hresult⟩
      · exact (ih hgoing).mono hlater
      · exact Or.inr (Or.inr ⟨err, ⟨t, List.mem_cons_self, hfailed⟩, hended hresult⟩)

/-- Before every request the offset is that of a whole number of chunks. -/
theorem going_or_returned (htotal : totalSize = none ∨ totalSize = some (file.length : Int)) :
    ∀ turns : List (Turn Answer), ∀ d ∈ Run.states (next aes256 c file .downloadAllWithReupload totalSize) .begin turns,
      d.result = none → ∃ parts, Going file parts d := by
  refine fun turns => Run.states_inv_all _ (fun d t h => ?_) turns _ fun _ => ⟨0, Going.begin file⟩
  intro hnext
  cases hd : d.result with
  | some r =>
    rw [next_of_result hd, hd] at hnext
    cases hnext
  | none =>
    obtain ⟨parts, hgoing⟩ := h hd
    cases ht : t.answer with
    | part =>
      rcases hgoing.next_part htotal ht with hgoing | hdone
      · exact ⟨parts + 1, hgoing⟩
      · rw [hnext] at hdone
        cases hdone
    | reuploadNeeded requestToken =>
      rcases hgoing.next_reupload ht with hgoing | ⟨err, _, hresult⟩
      · exact ⟨parts, hgoing⟩
      · rw [hnext] at hresult
        cases hresult

end Loop

end Ferogram.CdnDownload
