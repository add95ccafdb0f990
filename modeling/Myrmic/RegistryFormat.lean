import Myrmic.RegistryCalls
import Myrmic.Wire

/-!
# The postcard wire format of registry records

A concrete codec for evaluating the registries, in the format of `Wire`: numbers are varints, a
sequence or a map comes after its length, an option or a variant after its tag.  A value **delimits
itself**, so it is read back from the front of any input it begins, and formats compose.
-/
namespace Myrmic
open OrderedBytes
namespace Wire

/-- A format whose values are read back from the front of any input they begin. -/
structure Format (α : Type) where
  write : α → Bytes
  read : Bytes → Option (α × Bytes)
  read_write : ∀ a rest, read (write a ++ rest) = some (a, rest)

namespace Format
variable {α β : Type}

def nat : Format Nat where
  write n := varint n n
  read := readVarint
  read_write n rest := by
    refine readVarint_varint ?_ rest
    calc n < 2 ^ n := Nat.lt_two_pow_self
      _ ≤ 128 ^ n := Nat.pow_le_pow_left (by decide) n
      _ ≤ 128 ^ (n + 1) := Nat.pow_le_pow_right (by decide) (Nat.le_succ n)

def vec (n : Nat) : Format (ByteVec n) where
  write v := v.bytes
  read := takeVec n
  read_write := takeVec_append

def option (f : Format α) : Format (Option α) where
  write := opt f.write
  read := readOpt f.read
  read_write := readOpt_opt f.read_write

def pair (f : Format α) (g : Format β) : Format (α × β) where
  write p := f.write p.1 ++ g.write p.2
  read bs := do
    let (a, bs) ← f.read bs
    let (b, bs) ← g.read bs
    return ((a, b), bs)
  read_write p rest := by simp [f.read_write, g.read_write]

/-- A tag and then one or the other. -/
def choice (f : Format α) (g : Format β) : Format (α ⊕ β) where
  write
    | .inl a => 0 :: f.write a
    | .inr b => 1 :: g.write b
  read
    | [] => none
    | tag :: bs =>
      if tag = 0 then (f.read bs).map fun r => (.inl r.1, r.2)
      else if tag = 1 then (g.read bs).map fun r => (.inr r.1, r.2)
      else none
  read_write x rest := by cases x <;> simp [f.read_write, g.read_write]

def readMany (f : Format α) : Nat → Bytes → Option (List α × Bytes)
  | 0, bs => some ([], bs)
  | n + 1, bs => do
    let (a, bs) ← f.read bs
    let (as, bs) ← readMany f n bs
    return (a :: as, bs)

theorem readMany_write (f : Format α) (as : List α) (rest : Bytes) :
    readMany f as.length (as.flatMap f.write ++ rest) = some (as, rest) := by
  induction as with
  | nil => rfl
  | cons a as ih => simp [readMany, f.read_write, ih]

def list (f : Format α) : Format (List α) where
  write as := nat.write as.length ++ as.flatMap f.write
  read bs := do
    let (n, bs) ← nat.read bs
    readMany f n bs
  read_write as rest := by simp [nat.read_write, readMany_write]

/-- What is written as something else. -/
def via (f : Format β) (out : α → β) (back : β → Option α) (h : ∀ a, back (out a) = some a) :
    Format α where
  write a := f.write (out a)
  read bs := do
    let (b, bs) ← f.read bs
    let a ← back b
    return (a, bs)
  read_write a rest := by simp [f.read_write, h]

def string : Format String :=
  (list nat).via (fun text => (strBytes text).map UInt8.toNat)
    (fun bytes => fromUtf8 (bytes.map UInt8.ofNat)) fun text => by
      simp [List.map_map, Function.comp_def]

/-- What remains is ignored. -/
@[reducible] def stored (f : Format α) : Stored α where
  toAllocvec := f.write
  fromBytes bs :=
    match f.read bs with
    | some (a, _) => .ok a
    | none => .error "unable to deserialize"
  fromBytes_toAllocvec a := by
    have h := f.read_write a []
    rw [List.append_nil] at h
    rw [h]

/-! ## Records -/

def bool : Format Bool :=
  nat.via Bool.toNat (fun n => some (n = 1)) fun b => by cases b <;> rfl

def u32Nat : Format UInt32 :=
  nat.via UInt32.toNat (fun n => some (UInt32.ofNat n)) fun n => by simp

/-- The only kind of hash is number 0. -/
def blobHash : Format BlobHash :=
  (pair nat (vec 32)).via (fun hash => (0, hash)) (fun p => if p.1 = 0 then some p.2 else none)
    fun _ => rfl

def gen : Format Gen :=
  (pair nat nat).via (fun g => (g.time.toNat, g.id.toNat))
    (fun p => some ⟨UInt64.ofNat p.1, BitVec.ofNat 128 p.2⟩) fun g => by simp

def lineage : Format SpawnLineage :=
  (pair (option (vec 16)) (pair bool (pair (option string) (option nat)))).via
    (fun l => (l.parent, l.detached, l.localName, l.deadlineMs))
    (fun p => some ⟨p.1, p.2.1, p.2.2.1, p.2.2.2⟩) fun _ => rfl

def placementKind : Format PlacementKind :=
  (choice (choice (vec 16) (vec 16)) (option (vec 16))).via
    (fun
      | .wasm runtime => .inl (.inl runtime)
      | .native runtime => .inl (.inr runtime)
      | .bridge sri => .inr (some sri)
      | .placeholder => .inr none)
    (fun
      | .inl (.inl runtime) => some (.wasm runtime)
      | .inl (.inr runtime) => some (.native runtime)
      | .inr (some sri) => some (.bridge sri)
      | .inr none => some .placeholder)
    fun kind => by cases kind <;> rfl

def restartType : Format RestartType :=
  nat.via
    (fun
      | .never => 0
      | .onError => 1
      | .always => 2)
    (fun
      | 0 => some .never
      | 1 => some .onError
      | 2 => some .always
      | _ => none)
    fun kind => by cases kind <;> rfl

def restartPolicy : Format RestartPolicy :=
  (pair restartType (pair nat (pair nat nat))).via
    (fun p => (p.restartType, p.maxRestarts, p.windowMs, p.delayMs))
    (fun p => some ⟨p.1, p.2.1, p.2.2.1, p.2.2.2⟩) fun _ => rfl

def lostReason : Format LostReason :=
  (choice (option u32Nat) nat).via
    (fun
      | .stopped code => .inl code
      | .nodeLost => .inr 0
      | .crashed => .inr 1
      | .terminated => .inr 2
      | .spawnFailed => .inr 3)
    (fun
      | .inl code => some (.stopped code)
      | .inr 0 => some .nodeLost
      | .inr 1 => some .crashed
      | .inr 2 => some .terminated
      | .inr 3 => some .spawnFailed
      | .inr _ => none)
    fun reason => by cases reason <;> rfl

def deployment : Format CellDeployment :=
  (pair (vec 16) (pair (option blobHash) (pair (option string) (pair lineage restartPolicy)))).via
    (fun d => (d.sri, d.class, d.app, d.lineage, d.restart))
    (fun p => some ⟨p.1, p.2.1, p.2.2.1, p.2.2.2.1, p.2.2.2.2⟩) fun _ => rfl

end Format
end Wire
section Stored
open Wire.Format

instance instStoredPlacementRow : Stored PlacementRow :=
  ((pair placementKind (option string)).via (fun row => (row.kind, row.app))
    (fun p => some ⟨p.1, p.2⟩) fun _ => rfl).stored

instance instStoredInstanceRow : Stored InstanceRow :=
  ((pair blobHash lineage).via (fun row => (row.class, row.lineage))
    (fun p => some ⟨p.1, p.2⟩) fun _ => rfl).stored

instance instStoredCellDeployment : Stored CellDeployment := deployment.stored

instance instStoredRootDeath : Stored RootDeath :=
  ((pair (vec 16) (pair gen lostReason)).via (fun d => (d.sri, d.genId, d.reason))
    (fun p => some ⟨p.1, p.2.1, p.2.2⟩) fun _ => rfl).stored

end Stored

/-! ## Text and checksums -/

/-- The hyphenated form, or the digits alone. -/
instance instUuidText : UuidText where
  parse text := do
    let bytes ← hexPairs (text.toList.filter fun c => c ≠ '-')
    if h : bytes.length = 16 then some ⟨bytes, h⟩ else none

/-- One bit of the reflected polynomial `0xEDB88320`. -/
def crcBit (crc : UInt32) : UInt32 :=
  if crc &&& 1 = 1 then (crc >>> 1) ^^^ 0xEDB88320 else crc >>> 1

def crcByte (crc : UInt32) (b : UInt8) : UInt32 :=
  (List.range 8).foldl (fun crc _ => crcBit crc) (crc ^^^ b.toUInt32)

/-- The algorithm CRC-32/ISO-HDLC. -/
instance instCrc32 : Crc32 where
  checksum bytes := bytes.foldl crcByte 0xFFFFFFFF ^^^ 0xFFFFFFFF

/-- The check value of the algorithm. -/
example : Crc32.checksum (strBytes "123456789") = 0xCBF43926 := by decide +kernel

end Myrmic
