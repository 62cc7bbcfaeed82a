import Neoseq.Content.Inline
import Neoseq.Domain.Ids
import Neoseq.Result

/-! Frames of the sync protocol: a header of ten bytes and one message. The serializer of
the messages is a parameter. It reads a message back from the front of what it wrote, and
nothing in `decode` asks whether there is more. -/

namespace Neoseq.Wire
open Content Domain

def wireVersion : Nat := 1
def headerLen : Nat := 10
def contentIdHexLen : Nat := 64
/-- `NSQP` -/
def magic : List UInt8 := [0x4e, 0x53, 0x51, 0x50]

inductive ErrorCode where
  | malformedFrame | unsupportedProtocol | unsupportedSchema | frameTooLarge | updateTooLarge
  | presenceTooLarge | invalidMessage | invalidUpdate | accessDenied | membershipRevoked
  | rateLimited | storageUnavailable | graphLimitExceeded | staleHistory | slowConsumer | internal
  deriving Repr, DecidableEq

structure ProtocolError where
  code : ErrorCode
  diagnostic : String
  deriving Repr, DecidableEq

/-! ## Content ids -/

/-- No byte of a character beyond ASCII is one of these. -/
def isContentId (value : String) : Bool :=
  utf8Len value.toList = contentIdHexLen && value.toList.all fun c =>
    c.isDigit || ('a' ≤ c && c ≤ 'f')

/-- An identity is lowercase SHA-256 hex. -/
structure ContentId where
  asStr : String
  valid : isContentId asStr = true
  deriving DecidableEq

def hexDigits (byte : UInt8) : List Char :=
  [Nat.digitChar (byte.toNat / 16), Nat.digitChar (byte.toNat % 16)]

def hexEncode (bytes : List UInt8) : String := String.ofList (bytes.flatMap hexDigits)

/-- The hash function, of which only the length of its digests is known. -/
structure Sha256 where
  digest : List UInt8 → List UInt8
  length_digest : ∀ bytes, (digest bytes).length = 32

theorem isHexDigit_digitChar : ∀ n < 16, (Nat.digitChar n).utf8Size = 1 ∧
    ((Nat.digitChar n).isDigit || ('a' ≤ Nat.digitChar n && Nat.digitChar n ≤ 'f')) = true := by
  decide

theorem isContentId_hexEncode {bytes : List UInt8} (h : bytes.length = 32) :
    isContentId (hexEncode bytes) = true := by
  have hparts : ∀ rest : List UInt8, utf8Len (rest.flatMap hexDigits) = 2 * rest.length ∧
      (rest.flatMap hexDigits).all (fun c => c.isDigit || ('a' ≤ c && c ≤ 'f')) = true := by
    intro rest
    induction rest with
    | nil => exact ⟨rfl, rfl⟩
    | cons byte rest ih =>
      have hbyte := byte.toNat_lt
      obtain ⟨hhigh, hhigh'⟩ := isHexDigit_digitChar (byte.toNat / 16) (by omega)
      obtain ⟨hlow, hlow'⟩ := isHexDigit_digitChar (byte.toNat % 16) (by omega)
      rw [List.flatMap_cons, hexDigits, List.cons_append, List.cons_append, List.nil_append,
        utf8Len_cons, utf8Len_cons, hhigh, hlow, ih.1, List.all_cons, List.all_cons, hhigh', hlow',
        ih.2, List.length_cons]
      exact ⟨by omega, rfl⟩
  obtain ⟨hlen, hall⟩ := hparts bytes
  rw [isContentId, hexEncode, String.toList_ofList, hlen, hall, h]
  rfl

namespace ContentId

def new (value : String) : Option ContentId :=
  if h : isContentId value = true then some ⟨value, h⟩ else none

def forBytes (sha : Sha256) (bytes : List UInt8) : ContentId :=
  ⟨hexEncode (sha.digest bytes), isContentId_hexEncode (sha.length_digest bytes)⟩

def matchesBytes (sha : Sha256) (id : ContentId) (bytes : List UInt8) : Bool :=
  id = forBytes sha bytes

end ContentId

/-! ## Messages -/

structure Hello where
  protocol : UInt16
  schema : UInt16
  graphId : GraphId
  sessionId : String
  historyEpoch : UInt64
  hasServerBase : Bool
  versionVector : List UInt8
  deriving DecidableEq

inductive WelcomePayload where
  | delta (update : List UInt8)
  | mergeDownload
  | replaceInline (checkpoint : List UInt8)
  | replaceDownload
  deriving DecidableEq

structure Welcome where
  historyEpoch : UInt64
  serverVersionVector : List UInt8
  payload : WelcomePayload
  deriving DecidableEq

structure Update where
  historyEpoch : UInt64
  messageId : ContentId
  baseVersionVector : List UInt8
  bytes : List UInt8
  deriving DecidableEq

structure Ack where
  historyEpoch : UInt64
  messageId : ContentId
  serverCursor : UInt64
  deriving DecidableEq

structure Presence where
  expiresInMs : UInt32
  payload : List UInt8
  deriving DecidableEq

structure ErrorMessage where
  code : ErrorCode
  recoverable : Bool
  diagnostic : String
  deriving DecidableEq

structure ResyncRequired where
  code : ErrorCode
  serverCursor : UInt64
  historyEpoch : UInt64
  diagnostic : String
  deriving DecidableEq

inductive Message where
  | hello (value : Hello)
  | welcome (value : Welcome)
  | update (value : Update)
  | ack (value : Ack)
  | presence (value : Presence)
  | error (value : ErrorMessage)
  | resyncRequired (value : ResyncRequired)
  | heartbeat (nonce : UInt32)
  deriving DecidableEq

/-! ## Frames -/

/-- The serializer. -/
structure Postcard where
  toAllocvec : Message → Option (List UInt8)
  fromBytes : List UInt8 → Option Message

/-- What it has written is read back, whatever follows. -/
def Postcard.ReadsFront (postcard : Postcard) : Prop :=
  ∀ message bytes rest, postcard.toAllocvec message = some bytes →
    postcard.fromBytes (bytes ++ rest) = some message

def u16ToBeBytes (n : Nat) : List UInt8 := [.ofNat (n / 256), .ofNat n]

def u16FromBeBytes (a b : UInt8) : Nat := a.toNat * 256 + b.toNat

def u32ToBeBytes (n : Nat) : List UInt8 :=
  [.ofNat (n / 16777216), .ofNat (n / 65536), .ofNat (n / 256), .ofNat n]

def u32FromBeBytes (a b c d : UInt8) : Nat :=
  ((a.toNat * 256 + b.toNat) * 256 + c.toNat) * 256 + d.toNat

section
variable (sha : Sha256) (postcard : Postcard)

def validateUpdateIdentity : Message → Except ProtocolError Unit
  | .update update =>
    if update.messageId.matchesBytes sha update.bytes then .ok ()
    else .error ⟨.invalidUpdate, "update content id does not match its bytes"⟩
  | _ => .ok ()

/-- `encode`, where `usize` has 64 bits. -/
def encode (message : Message) (maxFrameBytes : Nat) : Except ProtocolError (List UInt8) := do
  validateUpdateIdentity sha message
  match postcard.toAllocvec message with
  | none => .error ⟨.invalidMessage, "message could not be encoded"⟩
  | some payload =>
    if 2 ^ 64 ≤ headerLen + payload.length then .error ⟨.frameTooLarge, "frame length overflow"⟩
    else if maxFrameBytes < headerLen + payload.length ∨ 4294967295 < payload.length then
      .error ⟨.frameTooLarge, "frame exceeds negotiated limit"⟩
    else
      .ok (magic ++ u16ToBeBytes wireVersion ++ u32ToBeBytes payload.length ++ payload)

def decode (frame : List UInt8) (maxFrameBytes : Nat) : Except ProtocolError Message :=
  if maxFrameBytes < frame.length then
    .error ⟨.frameTooLarge, "frame exceeds negotiated limit"⟩
  else
    match frame with
    | m₀ :: m₁ :: m₂ :: m₃ :: v₀ :: v₁ :: l₀ :: l₁ :: l₂ :: l₃ :: payload =>
      if [m₀, m₁, m₂, m₃] ≠ magic then .error ⟨.malformedFrame, "invalid frame header"⟩
      else if u16FromBeBytes v₀ v₁ ≠ wireVersion then
        .error ⟨.unsupportedProtocol, "unsupported wire version"⟩
      else if u32FromBeBytes l₀ l₁ l₂ l₃ ≠ payload.length then
        .error ⟨.malformedFrame, "frame length mismatch"⟩
      else
        match postcard.fromBytes payload with
        | none => .error ⟨.malformedFrame, "invalid message payload"⟩
        | some message => do
          validateUpdateIdentity sha message
          return message
    | _ => .error ⟨.malformedFrame, "invalid frame header"⟩

end

/-! ## What the header says -/

theorem u32FromBeBytes_toBeBytes {n : Nat} (h : n ≤ 4294967295) :
    u32FromBeBytes (.ofNat (n / 16777216)) (.ofNat (n / 65536)) (.ofNat (n / 256)) (.ofNat n) = n := by
  unfold u32FromBeBytes
  simp only [UInt8.toNat_ofNat']
  omega

theorem u32ToBeBytes_fromBeBytes (a b c d : UInt8) :
    u32ToBeBytes (u32FromBeBytes a b c d) = [a, b, c, d] := by
  have ha := a.toNat_lt
  have hb := b.toNat_lt
  have hc := c.toNat_lt
  have hd := d.toNat_lt
  unfold u32ToBeBytes u32FromBeBytes
  have hbyte {n : Nat} {x : UInt8} (h : n % 256 = x.toNat) : UInt8.ofNat n = x := by
    refine UInt8.toNat_inj.mp ?_
    rw [UInt8.toNat_ofNat']
    exact h
  rw [hbyte (x := a) (by omega), hbyte (x := b) (by omega), hbyte (x := c) (by omega),
    hbyte (x := d) (by omega)]

theorem u16ToBeBytes_fromBeBytes (a b : UInt8) : u16ToBeBytes (u16FromBeBytes a b) = [a, b] := by
  have ha := a.toNat_lt
  have hb := b.toNat_lt
  unfold u16ToBeBytes u16FromBeBytes
  have hbyte {n : Nat} {x : UInt8} (h : n % 256 = x.toNat) : UInt8.ofNat n = x := by
    refine UInt8.toNat_inj.mp ?_
    rw [UInt8.toNat_ofNat']
    exact h
  rw [hbyte (x := a) (by omega), hbyte (x := b) (by omega)]

/-! ## What is accepted -/

section
variable {sha : Sha256} {postcard : Postcard}

def frameOf (payload : List UInt8) : List UInt8 :=
  magic ++ u16ToBeBytes wireVersion ++ u32ToBeBytes payload.length ++ payload

@[simp] theorem length_frameOf (payload : List UInt8) :
    (frameOf payload).length = headerLen + payload.length := by
  unfold frameOf
  simp [magic, u16ToBeBytes, u32ToBeBytes, headerLen]
  omega

@[simp] theorem drop_frameOf (payload : List UInt8) : (frameOf payload).drop headerLen = payload := rfl

theorem encode_eq_ok {message : Message} {limit : Nat} {frame : List UInt8} :
    encode sha postcard message limit = .ok frame ↔
      ∃ payload, postcard.toAllocvec message = some payload ∧
        validateUpdateIdentity sha message = .ok () ∧ headerLen + payload.length ≤ limit ∧
        payload.length ≤ 4294967295 ∧ frame = frameOf payload := by
  unfold encode
  rw [bind_eq_ok]
  constructor
  · rintro ⟨⟨⟩, hvalid, h⟩
    split at h
    · cases h
    · next payload hpayload =>
      split_ifs at h with _ hbig
      rw [not_or, Nat.not_lt, Nat.not_lt] at hbig
      exact ⟨payload, hpayload, hvalid, hbig.1, hbig.2, (Except.ok.inj h).symm⟩
  · rintro ⟨payload, hpayload, hvalid, hlimit, hlen, rfl⟩
    refine ⟨(), hvalid, ?_⟩
    have hno : ¬2 ^ 64 ≤ headerLen + payload.length := by
      unfold headerLen
      omega
    rw [hpayload]
    dsimp only
    rw [if_neg hno, if_neg (by omega), frameOf]

theorem decode_frameOf {payload : List UInt8} {limit : Nat}
    (hlimit : headerLen + payload.length ≤ limit) (hlen : payload.length ≤ 4294967295) :
    decode sha postcard (frameOf payload) limit =
      match postcard.fromBytes payload with
      | none => .error ⟨.malformedFrame, "invalid message payload"⟩
      | some message => do
        validateUpdateIdentity sha message
        return message := by
  unfold decode
  rw [length_frameOf, if_neg (by omega)]
  have hmagic : [0x4e, 0x53, 0x51, 0x50] = magic := rfl
  have hversion : u16FromBeBytes (.ofNat (wireVersion / 256)) (.ofNat wireVersion) = wireVersion := by
    decide
  have hdeclared := u32FromBeBytes_toBeBytes hlen
  show (if [0x4e, 0x53, 0x51, 0x50] ≠ magic then _ else if _ then _ else if _ ≠ payload.length then _
    else _) = _
  rw [if_neg (not_not.mpr hmagic), if_neg (not_not.mpr hversion), if_neg (not_not.mpr hdeclared)]
  rfl

theorem decode_eq_ok {frame : List UInt8} {limit : Nat} {message : Message} :
    decode sha postcard frame limit = .ok message ↔
      ∃ payload, frame = frameOf payload ∧ headerLen + payload.length ≤ limit ∧
        payload.length ≤ 4294967295 ∧ postcard.fromBytes payload = some message ∧
        validateUpdateIdentity sha message = .ok () := by
  constructor
  · intro h
    have hframe : ∃ payload, frame = frameOf payload ∧ headerLen + payload.length ≤ limit ∧
        payload.length ≤ 4294967295 := by
      unfold decode at h
      split_ifs at h with hlimit
      split at h
      · next m₀ m₁ m₂ m₃ v₀ v₁ l₀ l₁ l₂ l₃ payload =>
        split_ifs at h with hmagic hversion hdeclared
        rw [not_not] at hmagic hversion hdeclared
        refine ⟨payload, ?_, ?_, ?_⟩
        · rw [frameOf, ← hmagic, ← hversion, ← hdeclared, u16ToBeBytes_fromBeBytes,
            u32ToBeBytes_fromBeBytes]
          rfl
        · simp only [List.length_cons] at hlimit
          unfold headerLen
          omega
        · have h₀ := l₀.toNat_lt
          have h₁ := l₁.toNat_lt
          have h₂ := l₂.toNat_lt
          have h₃ := l₃.toNat_lt
          unfold u32FromBeBytes at hdeclared
          omega
      · cases h
    obtain ⟨payload, rfl, hlimit, hlen⟩ := hframe
    rw [decode_frameOf hlimit hlen] at h
    split at h
    · cases h
    · next message' hread =>
      obtain ⟨⟨⟩, hvalid, h⟩ := bind_eq_ok.mp h
      obtain rfl := Except.ok.inj h
      exact ⟨payload, rfl, hlimit, hlen, hread, hvalid⟩
  · rintro ⟨payload, rfl, hlimit, hlen, hread, hvalid⟩
    rw [decode_frameOf hlimit hlen, hread]
    exact bind_eq_ok.mpr ⟨(), hvalid, rfl⟩

/-- The bytes are all that the serializer writes for some message. -/
def Written (postcard : Postcard) (payload : List UInt8) : Prop :=
  ∃ message, postcard.toAllocvec message = some payload

/-- Bytes behind a message inside the declared length go unnoticed. -/
theorem decode_trailing (hreads : postcard.ReadsFront) {message : Message} {limit : Nat}
    {payload rest : List UInt8} (hwritten : postcard.toAllocvec message = some payload)
    (hvalid : validateUpdateIdentity sha message = .ok ())
    (hlimit : headerLen + (payload ++ rest).length ≤ limit)
    (hlen : (payload ++ rest).length ≤ 4294967295) :
    decode sha postcard (frameOf (payload ++ rest)) limit = .ok message :=
  decode_eq_ok.mpr ⟨_, rfl, hlimit, hlen, hreads message payload rest hwritten, hvalid⟩

/-- What is encoded is decoded, and a frame that is accepted is the one encoded for its
message exactly where the serializer writes its payload as it stands. -/
theorem decode_exact_iff (sha : Sha256) (postcard : Postcard) (hreads : postcard.ReadsFront) :
    (∀ message limit frame, encode sha postcard message limit = .ok frame →
      decode sha postcard frame limit = .ok message) ∧
    ∀ frame limit message, decode sha postcard frame limit = .ok message →
      (encode sha postcard message limit = .ok frame ↔ Written postcard (frame.drop headerLen)) := by
  have hread {message : Message} {payload : List UInt8}
      (h : postcard.toAllocvec message = some payload) :
      postcard.fromBytes payload = some message := by
    have := hreads message payload [] h
    rwa [List.append_nil] at this
  constructor
  · intro message limit frame h
    obtain ⟨payload, hwritten, hvalid, hlimit, hlen, rfl⟩ := encode_eq_ok.mp h
    exact decode_eq_ok.mpr ⟨payload, rfl, hlimit, hlen, hread hwritten, hvalid⟩
  · intro frame limit message h
    obtain ⟨payload, rfl, hlimit, hlen, hparsed, hvalid⟩ := decode_eq_ok.mp h
    rw [drop_frameOf]
    constructor
    · intro hencode
      obtain ⟨payload', hwritten, -, -, -, heq⟩ := encode_eq_ok.mp hencode
      refine ⟨message, ?_⟩
      rw [hwritten, ← drop_frameOf payload, heq, drop_frameOf]
    · intro ⟨message', hwritten⟩
      obtain rfl := Option.some.inj ((hread hwritten).symm.trans hparsed)
      exact encode_eq_ok.mpr ⟨payload, hwritten, hvalid, hlimit, hlen, rfl⟩

end

/-- As much of the serializer as writes and reads small heartbeats: the eighth kind of
message, and its number in one byte. -/
def samplePostcard : Postcard where
  toAllocvec
    | .heartbeat nonce => if nonce.toNat < 128 then some [7, nonce.toUInt8] else none
    | _ => none
  fromBytes
    | 7 :: nonce :: _ => if nonce.toNat < 128 then some (.heartbeat nonce.toUInt32) else none
    | _ => none

def sampleSha : Sha256 := ⟨fun _ => List.replicate 32 0, fun _ => rfl⟩

theorem samplePostcard_readsFront : samplePostcard.ReadsFront := by
  intro message bytes rest h
  cases message with
  | heartbeat nonce =>
    simp only [samplePostcard] at h
    split_ifs at h with hsmall
    obtain rfl := Option.some.inj h
    have hbyte : nonce.toUInt8.toNat = nonce.toNat := by
      rw [UInt32.toNat_toUInt8]
      omega
    have hback : nonce.toUInt8.toUInt32 = nonce := by
      refine UInt32.toNat_inj.mp ?_
      rw [UInt8.toNat_toUInt32, hbyte]
    show (if nonce.toUInt8.toNat < 128 then some (Message.heartbeat nonce.toUInt8.toUInt32)
      else none) = _
    rw [hbyte, if_pos hsmall, hback]
  | _ => cases h

theorem decode_exact_heartbeat :
    decode sampleSha samplePostcard (frameOf [7, 5]) 1024 = .ok (.heartbeat 5) :=
  (decode_exact_iff sampleSha samplePostcard samplePostcard_readsFront).1 (.heartbeat 5) 1024
    (frameOf [7, 5]) rfl

/-- A heartbeat with a byte behind it. -/
theorem decode_heartbeat_trailing :
    decode sampleSha samplePostcard
      [0x4e, 0x53, 0x51, 0x50, 0, 1, 0, 0, 0, 3, 7, 5, 0] 1024 = .ok (.heartbeat 5) ∧
    encode sampleSha samplePostcard (.heartbeat 5) 1024 ≠
      .ok [0x4e, 0x53, 0x51, 0x50, 0, 1, 0, 0, 0, 3, 7, 5, 0] := by
  refine ⟨?_, fun h => ?_⟩
  · exact @decode_trailing sampleSha samplePostcard samplePostcard_readsFront (.heartbeat 5) 1024
      [7, 5] [0] rfl rfl (by decide) (by decide)
  obtain ⟨payload, hwritten, -, -, -, heq⟩ := encode_eq_ok.mp h
  obtain rfl := Option.some.inj hwritten
  cases heq

end Neoseq.Wire
