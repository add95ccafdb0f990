import Myrmic.Term

/-!
# Onboarding over an encrypted channel

A device reads the installer's metadata, derives the key of the channel from its own private key and the
installer's public key, sends its attestation and hands the data that follows to a consumer.  On a channel
with a key the bytes travel in frames that are encrypted with AES-GCM.  Without a public key in the metadata
there is no key, and the streams are wrapped in nothing: **the exchange of a device with a private key is
protected exactly if the metadata has a public key** (`exchange_protected_iff`).
-/
namespace Myrmic
open OrderedBytes Fallible List
namespace Onboarding

/-! ## Frames -/

/-- The size of the buffer for one frame. -/
def cryptoBufLen : Nat := 512

structure Frame where
  nonce : ByteVec 12
  tag : ByteVec 16
  cipher : Bytes

def toLeBytes (n : Nat) : ByteVec 2 := ⟨[UInt8.ofNat n, UInt8.ofNat (n / 256)], rfl⟩

def fromLeBytes (v : ByteVec 2) : Nat := (v.bytes.getD 0 0).toNat + 256 * (v.bytes.getD 1 0).toNat

def Frame.bytes (f : Frame) : Bytes :=
  f.nonce.bytes ++ (f.tag.bytes ++ ((toLeBytes f.cipher.length).bytes ++ f.cipher))

/-- Reads so many bytes, or all there are. -/
def readExact (n : Nat) (input : Bytes) : Except Bytes (ByteVec n × Bytes) :=
  (takeVec n input).elim (.error []) .ok

/-- A frame and the input after it, or what is left of the input on a failure. -/
def readFrame (input : Bytes) : Except Bytes (Frame × Bytes) := do
  let (nonce, input) ← readExact 12 input
  let (tag, input) ← readExact 16 input
  let (size, input) ← readExact 2 input
  let len := fromLeBytes size
  if cryptoBufLen < len then throw input
  if input.length < len then throw []
  return (⟨nonce, tag, input.take len⟩, input.drop len)

theorem readExact_eq {n : Nat} {input rest : Bytes} {v : ByteVec n}
    (h : readExact n input = .ok (v, rest)) : input = v.bytes ++ rest := by
  unfold readExact takeVec at h
  split at h
  · cases h
    exact (take_append_drop n input).symm
  · cases h

theorem toLeBytes_fromLeBytes (v : ByteVec 2) : toLeBytes (fromLeBytes v) = v := by
  obtain ⟨bytes, hl⟩ := v
  obtain ⟨a, b, rfl⟩ := length_eq_two.mp hl
  have ha : a.toNat / 256 = 0 := Nat.div_eq_of_lt a.toNat_lt
  simp [toLeBytes, fromLeBytes, Nat.add_mul_div_left, UInt8.ofNat_add, UInt8.ofNat_mul, ha]

/-- A frame is read from the bytes that it stands for. -/
theorem readFrame_eq {input rest : Bytes} {f : Frame} (h : readFrame input = .ok (f, rest)) :
    input = f.bytes ++ rest := by
  obtain ⟨⟨nonce, input₁⟩, hn, h⟩ := bind_eq_ok.mp h
  obtain ⟨⟨tag, input₂⟩, ht, h⟩ := bind_eq_ok.mp h
  obtain ⟨⟨size, input₃⟩, hs, h⟩ := bind_eq_ok.mp h
  dsimp only at h
  split at h
  · cases h
  · split at h
    · cases h
    · next hle =>
      cases h
      have hlen : (input₃.take (fromLeBytes size)).length = fromLeBytes size :=
        length_take_of_le (Nat.not_lt.mp hle)
      rw [readExact_eq hn, readExact_eq ht, readExact_eq hs, Frame.bytes, hlen, toLeBytes_fromLeBytes]
      simp only [append_assoc, take_append_drop]

/-- What is left of the input where no frame can be read is an end of it. -/
theorem readFrame_suffix {input rest : Bytes} (h : readFrame input = .error rest) :
    rest <:+ input := by
  have hno : ∀ {n : Nat} {input : Bytes}, readExact n input = .error rest → rest = [] := by
    intro n input h
    unfold readExact at h
    cases htv : takeVec n input <;> rw [htv] at h <;> cases h
    rfl
  rcases bind_eq_error.mp h with h | ⟨⟨nonce, input₁⟩, hn, h⟩
  · exact hno h ▸ nil_suffix
  rcases bind_eq_error.mp h with h | ⟨⟨tag, input₂⟩, ht, h⟩
  · exact hno h ▸ nil_suffix
  rcases bind_eq_error.mp h with h | ⟨⟨size, input₃⟩, hs, h⟩
  · exact hno h ▸ nil_suffix
  dsimp only at h
  rw [readExact_eq hn, readExact_eq ht, readExact_eq hs]
  split at h
  · cases h
    exact ((suffix_append ..).trans (suffix_append ..)).trans (suffix_append ..)
  · split at h
    · cases h
      exact nil_suffix
    · cases h

/-- What is used of the crates for base64, the curve and AES-GCM, which works in place. -/
class Crypto where
  Key : Type
  base64Decode : String → Option Bytes
  /-- The key agreed on by a private key and a point of the curve. -/
  agree : Bytes → Bytes → Option Key
  encrypt : Key → ByteVec 12 → Bytes → Bytes × ByteVec 16
  decrypt : Key → ByteVec 12 → Bytes → ByteVec 16 → Option Bytes

inductive ErrorKind where
  | invalidData
  | outOfMemory
deriving DecidableEq

structure InstallerMeta where
  dhInstallerPubKey : Option String

inductive DeviceKeys where
  | pki (pubKey privKey : Bytes)
  | insecure (deviceId : Bytes)

variable [Crypto]

/-! ## The channel's key -/

def computeCryptoKey (secret peerPubKey : Bytes) : Except ErrorKind Crypto.Key :=
  (Crypto.agree secret peerPubKey).elim (.error .invalidData) .ok

def deriveCryptoKey (secret : Bytes) : Option String → Except ErrorKind (Option Crypto.Key)
  | none => .ok none
  | some peerPubKey =>
    match Crypto.base64Decode peerPubKey with
    | none => .error .outOfMemory
    | some peerPubKey => (computeCryptoKey secret peerPubKey).map some

def DeviceKeys.newSecret : DeviceKeys → Option Bytes
  | .pki _ privKey => some privKey
  | .insecure _ => none

def DeviceKeys.deriveChannelKey (keys : DeviceKeys) (response : InstallerMeta) :
    Except ErrorKind (Option Crypto.Key) :=
  match keys.newSecret with
  | some secret => deriveCryptoKey secret response.dhInstallerPubKey
  | none => .ok none

/-! ## Reading -/

/-- What is decrypted and not yet retrieved, and what is still to be read. -/
structure CryptoReader where
  pending : Bytes
  input : Bytes

variable (key : Crypto.Key)

def Frame.plain? (f : Frame) : Option Bytes :=
  Crypto.decrypt key f.nonce f.cipher f.tag

/-- The frame is what encrypting the text gives. -/
def Frame.Seals (f : Frame) (plain : Bytes) : Prop :=
  Crypto.encrypt key f.nonce plain = (f.cipher, f.tag)

namespace CryptoReader

def load (r : CryptoReader) : Except ErrorKind Unit × CryptoReader :=
  if r.pending ≠ [] ∨ r.input = [] then (.ok (), r)
  else
    match readFrame r.input with
    | .error rest => (.error .invalidData, ⟨[], rest⟩)
    | .ok (f, rest) =>
      match f.plain? key with
      | none => (.error .invalidData, ⟨[], rest⟩)
      | some plain => (.ok (), ⟨plain, rest⟩)

def read (r : CryptoReader) (n : Nat) : Except ErrorKind Bytes × CryptoReader :=
  match r.load key with
  | (.error e, r) => (.error e, r)
  | (.ok (), r) => (.ok (r.pending.take n), { r with pending := r.pending.drop n })

/-- Reads one after another, with buffers of the given sizes. -/
def reads : List Nat → CryptoReader → List (Except ErrorKind Bytes) × CryptoReader
  | [], r => ([], r)
  | n :: sizes, r =>
    let (result, r) := r.read key n
    let (results, r) := reads sizes r
    (result :: results, r)

end CryptoReader

/-! ## Writing -/

inductive WriteOp where
  | write (data : Bytes)
  | flush

/-- The buffer and the frames sent. -/
structure CryptWriter where
  filled : Bytes
  sent : List Frame

namespace CryptWriter

def new : CryptWriter := ⟨[], []⟩

variable (nonces : Nat → ByteVec 12)

def send (w : CryptWriter) : CryptWriter :=
  if w.filled = [] then w
  else
    let nonce := nonces w.sent.length
    let (cipher, tag) := Crypto.encrypt key nonce w.filled
    ⟨[], w.sent ++ [⟨nonce, tag, cipher⟩]⟩

/-- Copies what fits into the buffer; how much that is tells the caller what is left to write. -/
def write (w : CryptWriter) (data : Bytes) : CryptWriter :=
  let w := if w.filled.length = cryptoBufLen then w.send key nonces else w
  { w with filled := w.filled ++ data.take (cryptoBufLen - w.filled.length) }

def apply (w : CryptWriter) : WriteOp → CryptWriter
  | .write data => w.write key nonces data
  | .flush => w.send key nonces

end CryptWriter
variable (nonces : Nat → ByteVec 12)

/-! ## The exchange -/

def noopReads : List Nat → Bytes → List (Except ErrorKind Bytes)
  | [], _ => []
  | n :: sizes, input => .ok (input.take n) :: noopReads sizes (input.drop n)

/-- The consumer's reads, through the wrapper for the key if there is one. -/
def createCryptoReadOpt : Option Crypto.Key → List Nat → Bytes → List (Except ErrorKind Bytes)
  | some key, sizes, input => (CryptoReader.reads key sizes ⟨[], input⟩).1
  | none, sizes, input => noopReads sizes input

/-- What the producer's writes put on the wire. -/
def createCryptoWriteOpt : Option Crypto.Key → List WriteOp → Bytes
  | some key, ops => (ops.foldl (CryptWriter.apply key nonces) .new).sent.flatMap Frame.bytes
  | none, ops => ops.flatMap fun
    | .write data => data
    | .flush => []

/-- Frames with their texts. -/
def Opens (opened : List (Frame × Bytes)) : Prop := ∀ e ∈ opened, e.1.plain? key = some e.2

omit [Crypto] in
/-- Frames stand in an input, in order and none within another, and there is something left of it. -/
inductive Carries : Bytes → List (Frame × Bytes) → Bytes → Prop
  | done {input rest : Bytes} : rest <:+ input → Carries input [] rest
  | frame {input after rest : Bytes} {e : Frame × Bytes} {opened : List (Frame × Bytes)} :
      e.1.bytes ++ after <:+ input → Carries after opened rest → Carries input (e :: opened) rest

def yielded (result : Except ErrorKind Bytes) : Bytes := result.toOption.getD []

/-- What the device sends as its attestation, and what its consumer is handed. -/
structure Exchange where
  attestation : Bytes
  handed : List (Except ErrorKind Bytes)

/-- The device's side, from the installer's metadata on. -/
def onboard (keys : DeviceKeys) (installer : InstallerMeta) (producer : List WriteOp) (input : Bytes)
    (sizes : List Nat) : Except ErrorKind Exchange := do
  let key ← keys.deriveChannelKey installer
  return ⟨createCryptoWriteOpt nonces key (producer ++ [.flush]), createCryptoReadOpt key sizes input⟩

/-- The exchange failed before it began, or everything in it went through AES-GCM under a key derived
from the private key: what the consumer is handed was decrypted from frames of the input, and what is
sent as the attestation are frames. -/
def Protected (privKey input : Bytes) (outcome : Except ErrorKind Exchange) : Prop :=
  ∀ x, outcome = .ok x → ∃ point key, Crypto.agree privKey point = some key ∧
    (∃ opened rest, Opens key opened ∧ Carries input opened rest ∧
      x.handed.flatMap yielded <+: opened.flatMap Prod.snd) ∧
    ∃ frames : List Frame, x.attestation = frames.flatMap Frame.bytes ∧
      ∀ f ∈ frames, ∃ plain, f.Seals key plain

omit [Crypto] in
theorem Carries.trans {input mid rest : Bytes} {opened opened' : List (Frame × Bytes)}
    (h : Carries input opened mid) (h' : Carries mid opened' rest) :
    Carries input (opened ++ opened') rest := by
  induction h with
  | done hs =>
    cases h' with
    | done hs' => exact .done (hs'.trans hs)
    | frame hs' hc => exact .frame (hs'.trans hs) hc
  | frame hs _ ih => exact .frame hs (ih h')

/-- What is read between two states of a reader comes out of frames of the input that were decrypted. -/
def Passes (r r' : CryptoReader) (data : Bytes) : Prop :=
  ∃ opened, Opens key opened ∧ Carries r.input opened r'.input ∧
    r.pending ++ opened.flatMap Prod.snd = data ++ r'.pending

theorem passes_load (r : CryptoReader) : Passes key r (r.load key).2 [] := by
  unfold CryptoReader.load
  split
  · exact ⟨[], nofun, .done suffix_rfl, append_nil _⟩
  · next hl =>
    have hp : r.pending = [] := not_not.mp fun hne => hl (.inl hne)
    split
    · next rest hf => exact ⟨[], nofun, .done (readFrame_suffix hf), by simp [hp]⟩
    · next f rest hf =>
      have hin : f.bytes ++ rest <:+ r.input := readFrame_eq hf ▸ suffix_rfl
      split
      · exact ⟨[], nofun, .done ((suffix_append ..).trans hin), by simp [hp]⟩
      · next plain hplain =>
        exact ⟨[(f, plain)], by simpa [Opens] using hplain, .frame hin (.done suffix_rfl), by simp [hp]⟩

theorem passes_read (r : CryptoReader) (n : Nat) :
    Passes key r (r.read key n).2 (yielded (r.read key n).1) := by
  obtain ⟨opened, ho, hc, hd⟩ := passes_load key r
  unfold CryptoReader.read
  split
  · next e r' hr =>
    rw [hr] at hc hd
    exact ⟨opened, ho, hc, hd⟩
  · next r' hr =>
    rw [hr] at hc hd
    exact ⟨opened, ho, hc, hd.trans (take_append_drop n _).symm⟩

theorem passes_reads (sizes : List Nat) (r : CryptoReader) :
    Passes key r (CryptoReader.reads key sizes r).2 ((CryptoReader.reads key sizes r).1.flatMap yielded) := by
  induction sizes generalizing r with
  | nil => exact ⟨[], nofun, .done suffix_rfl, append_nil _⟩
  | cons n sizes ih =>
    obtain ⟨opened, ho, hc, hd⟩ := passes_read key r n
    obtain ⟨opened', ho', hc', hd'⟩ := ih (r.read key n).2
    refine ⟨opened ++ opened', fun e he => (mem_append.mp he).elim (ho e) (ho' e), hc.trans hc', ?_⟩
    rw [flatMap_append, ← append_assoc, hd, append_assoc, hd', ← append_assoc]
    rfl

variable {key nonces} {w : CryptWriter}

/-- Every frame sent is the encryption of a text. -/
def CryptWriter.Sealed (key : Crypto.Key) (w : CryptWriter) : Prop := ∀ f ∈ w.sent, ∃ plain, f.Seals key plain

theorem CryptWriter.Sealed.send (h : w.Sealed key) : (w.send key nonces).Sealed key := by
  unfold CryptWriter.send
  split
  · exact h
  · exact forall_mem_append.mpr ⟨h, forall_mem_singleton.mpr ⟨w.filled, rfl⟩⟩

theorem CryptWriter.Sealed.run (h : w.Sealed key) (ops : List WriteOp) :
    (ops.foldl (apply key nonces) w).Sealed key := by
  induction ops generalizing w with
  | nil => exact h
  | cons op ops ih =>
    refine ih ?_
    cases op with
    | flush => exact h.send
    | write data =>
      unfold CryptWriter.apply CryptWriter.write
      dsimp only
      split
      · exact h.send
      · exact h

/-- One byte is no frame. -/
theorem not_protected {privKey input : Bytes} {b : UInt8} {handed : List (Except ErrorKind Bytes)} :
    ¬Protected privKey input (.ok ⟨[b], handed⟩) := by
  intro h
  obtain ⟨_, _, -, -, frames, hb, -⟩ := h _ rfl
  cases frames with
  | nil => cases hb
  | cons f frames =>
    have hl := congrArg length hb
    simp [Frame.bytes, f.nonce.length_eq] at hl
    omega

/-- **The exchange is protected exactly if the metadata has a key**, for every attestation, every stream
of bytes that follows and every consumer. -/
theorem exchange_protected_iff (nonces : Nat → ByteVec 12) (pubKey privKey : Bytes)
    (installer : InstallerMeta) :
    (∀ producer input sizes,
      Protected privKey input
        (onboard nonces (.pki pubKey privKey) installer producer input sizes)) ↔
    installer.dhInstallerPubKey.isSome = true := by
  obtain ⟨text⟩ := installer
  cases text with
  | none => exact iff_of_false (fun h => not_protected (h [.write [0]] [] [])) nofun
  | some text =>
    refine iff_of_true (fun producer input sizes x hx => ?_) rfl
    obtain ⟨key, hkey, hx⟩ := bind_eq_ok.mp hx
    simp only [DeviceKeys.deriveChannelKey, DeviceKeys.newSecret, deriveCryptoKey] at hkey
    split at hkey
    · cases hkey
    · next point _ =>
      unfold computeCryptoKey at hkey
      cases hagree : Crypto.agree privKey point with
      | none =>
        rw [hagree] at hkey
        cases hkey
      | some agreed =>
        rw [hagree] at hkey
        cases hkey
        cases hx
        obtain ⟨opened, ho, hc, hd⟩ := passes_reads agreed sizes ⟨[], input⟩
        exact ⟨point, agreed, hagree, ⟨opened, _, ho, hc, _, hd.symm⟩, _, rfl,
          CryptWriter.Sealed.run (w := .new) nofun _⟩

omit [Crypto] in
/-- **Without a public key in the metadata a device with a private key sends its attestation in the clear**
and hands on what it receives as it is. -/
theorem plain_exchange_accepted : ∃ (_ : Crypto) (nonces : Nat → ByteVec 12) (x : Exchange),
    onboard nonces (.pki [2] [1]) ⟨none⟩ [.write [7]] [8] [1] = .ok x ∧ x.handed = [.ok [8]] ∧
      ¬Protected [1] [8] (.ok x) := by
  let crypto : Crypto := ⟨Unit, fun _ => none, fun _ _ => none,
    fun _ _ plain => (plain, ⟨replicate 16 0, rfl⟩), fun _ _ _ _ => none⟩
  exact ⟨crypto, fun _ => ⟨replicate 12 0, rfl⟩, _, rfl, rfl, not_protected⟩

end Onboarding

end Myrmic
