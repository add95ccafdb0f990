import Myrmic.RegistryFormat
import Mathlib.Data.List.GetD

/-!
# Modules in a board's flash

A board keeps one compiled module in flash: its metadata in one region, its bytes in the next.  A
transfer announces the metadata, erases both regions, writes the chunks as they come and the metadata
last, and `load` believes only a module whose length and checksum are those of the metadata.

The handler answers a start from a **copy** of the metadata that it took when it last loaded a module.
An aborted transfer has erased the flash and leaves the copy, so the answer is not true then
(`aborted_transfer_answered`); in every run without such an abort it is
(`already_stored_truthful`).
-/
namespace Myrmic
open OrderedBytes Machine Wire.Format Wire

/-! ## The flash -/

/-- Where the two regions are.  The metadata region starts and ends on a word, which is all that is used of
its being made of whole sectors, and has room for the metadata, which takes at most 52 bytes; the module
region follows it. -/
structure PartitionLayout where
  metaPaddr : Nat
  metaLen : Nat
  xipPaddr : Nat
  xipLen : Nat
  /-- The size of the chip. -/
  capacity : Nat
  words : 4 ∣ metaPaddr ∧ 4 ∣ metaLen
  room : 52 ≤ metaLen
  contiguous : xipPaddr = metaPaddr + metaLen
  fits : xipPaddr + xipLen ≤ capacity
  addresses : capacity < 2 ^ 32

abbrev Flash := Nat → UInt8

/-- The flash of a board and the ranges of addresses that were written or erased. -/
structure Device where
  flash : Flash
  touched : List (Nat × Nat)

def Flash.slice (flash : Flash) (start len : Nat) : Bytes :=
  (List.range len).map fun i => flash (start + i)

/-- Writing can only clear bits. -/
def Flash.program (flash : Flash) (offset : Nat) (data : Bytes) : Flash := fun a =>
  if offset ≤ a then flash a &&& data.getD (a - offset) 0xFF else flash a

namespace PartitionLayout
variable (l : PartitionLayout)

/-- The driver refuses a write that is not of whole words, or beyond the chip. -/
def write (d : Device) (offset : Nat) (data : Bytes) : Option Device :=
  if 4 ∣ offset ∧ 4 ∣ data.length ∧ offset + data.length ≤ l.capacity then
    some ⟨d.flash.program offset data, (offset, offset + data.length) :: d.touched⟩
  else none

def eraseRegion (d : Device) (start len : Nat) : Device :=
  if (d.flash.slice start len).all (· = 0xFF) then d
  else ⟨fun a => if start ≤ a ∧ a < start + len then 0xFF else d.flash a,
    (start, start + len) :: d.touched⟩

/-- Erases both regions unless they are blank. -/
def erase (d : Device) : Device :=
  eraseRegion (eraseRegion d l.metaPaddr l.metaLen) l.xipPaddr l.xipLen

end PartitionLayout

/-! ## Metadata -/

structure Metadata where
  magic : UInt32
  version : UInt32
  len : UInt32
  crc : UInt32
  hash : ByteVec 32
deriving DecidableEq

/-- `WAOT`. -/
def Metadata.MAGIC : UInt32 := 0x57414F54

def Metadata.VERSION : UInt32 := 2

/-- The metadata that a transfer announces. -/
def Metadata.announced (len crc : UInt32) (hash : ByteVec 32) : Metadata :=
  ⟨MAGIC, VERSION, len, crc, hash⟩

def Wire.Format.uint32 : Wire.Format UInt32 := ⟨Wire.u32, Wire.readU32, Wire.readU32_u32⟩

open Wire.Format in
def metadataFormat : Wire.Format Metadata :=
  (uint32.pair (uint32.pair (uint32.pair (uint32.pair (vec 32))))).via
    (fun m => (m.magic, m.version, m.len, m.crc, m.hash))
    (fun p => some ⟨p.1, p.2.1, p.2.2.1, p.2.2.2.1, p.2.2.2.2⟩) fun _ => rfl

/-! ## Storing and loading -/

section Storage
variable [Crc32] (l : PartitionLayout)

/-- The module that is stored, if it is whole; anything else is erased. -/
def load (d : Device) : Option (Metadata × Bytes) × Device :=
  match metadataFormat.read (d.flash.slice l.metaPaddr l.metaLen) with
  | none => (none, l.erase d)
  | some (m, _) =>
    if m.magic ≠ Metadata.MAGIC ∨ m.version ≠ Metadata.VERSION ∨ l.xipLen < m.len.toNat then
      (none, l.erase d)
    else
      let module := d.flash.slice l.xipPaddr m.len.toNat
      if m.crc ≠ Crc32.checksum module then (none, l.erase d) else (some (m, module), d)

/-- A module on its way into flash, with the bytes that went into the checksum. -/
structure WasmWriter where
  device : Device
  digest : Bytes
  currentOffset : Nat
  expectedMetadata : Metadata

/-- A writer begins with both regions erased. -/
def WasmStorage.writer (d : Device) (m : Metadata) : WasmWriter := ⟨l.erase d, [], l.xipPaddr, m⟩

/-- Filled up to whole words. -/
def padded (data : Bytes) : Bytes := data ++ List.replicate ((4 - data.length % 4) % 4) 0xFF

namespace WasmWriter
variable (w : WasmWriter)

def write (data : Bytes) : Option WasmWriter :=
  (l.write w.device w.currentOffset data).map fun device =>
    { w with
      device := device
      digest := w.digest ++ data
      currentOffset := w.currentOffset + data.length }

/-- What the bytes written are by length and checksum is what was announced. -/
def matchesExpected (offset : Nat) (digest : Bytes) : Prop :=
  w.expectedMetadata.magic = Metadata.MAGIC ∧ w.expectedMetadata.version = Metadata.VERSION ∧
    w.expectedMetadata.len = UInt32.ofNat (offset - l.xipPaddr) ∧
    w.expectedMetadata.crc = Crc32.checksum digest

instance instDecidableMatchesExpected (offset : Nat) (digest : Bytes) :
    Decidable (w.matchesExpected l offset digest) :=
  inferInstanceAs (Decidable (_ ∧ _))

/-- Writes the last chunk and the metadata.  Dropped before it has finished, the writer erases. -/
def finalWrite (data : Bytes) : Except Device Device :=
  match l.write w.device w.currentOffset (padded data) with
  | none => .error (l.erase w.device)
  | some device =>
    if w.matchesExpected l (w.currentOffset + data.length) (w.digest ++ data) then
      match l.write device l.metaPaddr (padded (metadataFormat.write w.expectedMetadata)) with
      | none => .error (l.erase device)
      | some device => .ok device
    else .error (l.erase device)

end WasmWriter

inductive WasmTransfer where
  | start (metadata : Metadata)
  | chunk (data : Bytes)
  | finish (lastChunk : Bytes)
  | abort

/-- How far a transfer is; a panic resets the board. -/
inductive Storing where
  | writing (w : WasmWriter)
  | stored (d : Device)
  | aborted (d : Device)
  | panicked (d : Device)

def Storing.device : Storing → Device
  | .writing w => w.device
  | .stored d => d
  | .aborted d => d
  | .panicked d => d

/-- The next message of a transfer. -/
def storeModule (w : WasmWriter) : WasmTransfer → Storing
  | .chunk data =>
    match w.write l data with
    | some w => .writing w
    | none => .panicked w.device
  | .finish lastChunk =>
    match w.finalWrite l lastChunk with
    | .ok d => .stored d
    | .error d => .panicked d
  | .abort => .aborted (l.erase w.device)
  | .start _ => .panicked w.device

/-! ## The handler -/

inductive TransferReply where
  | proceed
  | alreadyStored
deriving DecidableEq

inductive HandlerPhase where
  | waiting (d : Device)
  | storing (w : WasmWriter)

structure RuntimeHandler where
  phase : HandlerPhase
  metadataOnDevice : Option Metadata

/-- Loads the module and keeps its metadata: at boot, and when a module is to be run. -/
def loadModule (d : Device) : RuntimeHandler :=
  ⟨.waiting (load l d).2, (load l d).1.map Prod.fst⟩

namespace RuntimeHandler
variable (h : RuntimeHandler)

def receive (msg : WasmTransfer) : RuntimeHandler × Option TransferReply :=
  match h.phase, msg with
  | .waiting d, .start m =>
    if h.metadataOnDevice = some m then (loadModule l d, some .alreadyStored)
    else ({ h with phase := .storing (WasmStorage.writer l d m) }, some .proceed)
  | .waiting _, _ => (h, none)
  | .storing w, msg =>
    match storeModule l w msg with
    | .writing w => ({ h with phase := .storing w }, none)
    | .stored d => (loadModule l d, none)
    | .aborted d => ({ h with phase := .waiting d }, none)
    | .panicked d => (loadModule l d, none)

def step (msg : WasmTransfer) : Option RuntimeHandler := some (h.receive l msg).1

def device : Device :=
  match h.phase with
  | .waiting d => d
  | .storing w => w.device

/-- **The condition**: a transfer is aborted only where no metadata is kept. -/
def AbortsClean (msg : WasmTransfer) : Prop :=
  msg = .abort → h.metadataOnDevice = none ∨ ∃ d, h.phase = .waiting d

/-- The flash holds the module that the metadata describes, and nothing else is loaded. -/
def Stores (d : Device) (m : Metadata) : Prop :=
  ∃ module, load l d = (some (m, module), d) ∧ module.length = m.len.toNat ∧
    Crc32.checksum module = m.crc

/-- While the handler waits, the metadata it keeps is that of the module in flash. -/
def Fresh : Prop := ∀ d m, h.phase = .waiting d → h.metadataOnDevice = some m → Stores l d m

variable {l} {h} {msg : WasmTransfer}

theorem aborted_iff {w : WasmWriter} : (∃ d, storeModule l w msg = .aborted d) ↔ msg = .abort := by
  cases msg with
  | abort | start m => simp [storeModule]
  | chunk data | finish lastChunk =>
    simp only [storeModule]
    split <;> simp

/-- A load finds a whole module and leaves it, or erases the flash. -/
theorem load_cases {d : Device} : (∃ m, (load l d).1.map Prod.fst = some m ∧ Stores l d m ∧
    (load l d).2 = d) ∨ load l d = (none, l.erase d) := by
  cases hr : metadataFormat.read (d.flash.slice l.metaPaddr l.metaLen) with
  | none => exact .inr (by simp only [load, hr])
  | some found =>
    obtain ⟨m, _⟩ := found
    by_cases hv : m.magic ≠ Metadata.MAGIC ∨ m.version ≠ Metadata.VERSION ∨ l.xipLen < m.len.toNat
    · exact .inr (by simp only [load, hr, if_pos hv])
    · by_cases hc : m.crc ≠ Crc32.checksum (d.flash.slice l.xipPaddr m.len.toNat)
      · exact .inr (by simp only [load, hr, if_neg hv, if_pos hc])
      · have hl : load l d = (some (m, d.flash.slice l.xipPaddr m.len.toNat), d) := by
          simp only [load, hr, if_neg hv, if_neg hc]
        refine .inl ⟨m, by rw [hl]; rfl, ⟨_, hl, ?_, (not_not.mp hc).symm⟩, by rw [hl]⟩
        simp [Flash.slice]

theorem fresh_loadModule {d : Device} : (loadModule l d).Fresh l := by
  intro d' m hp hm
  cases hp
  have hm : (load l d).1.map Prod.fst = some m := hm
  rcases load_cases with ⟨_, hm', hs, hd⟩ | hn
  · rw [hd]
    exact Option.some.inj (hm'.symm.trans hm) ▸ hs
  · rw [hn] at hm
    cases hm

/-- **Every step but an abort of a transfer keeps the copy true.** -/
theorem Fresh.receive (hfr : h.Fresh l) (hcl : h.AbortsClean msg) :
    (h.receive l msg).1.Fresh l := by
  cases hph : h.phase with
  | waiting d =>
    cases msg with
    | start m =>
      simp only [RuntimeHandler.receive, hph]
      split
      · exact fresh_loadModule
      · exact nofun
    | _ =>
      simp only [RuntimeHandler.receive, hph]
      exact hfr
  | storing w =>
    simp only [RuntimeHandler.receive, hph]
    cases hst : storeModule l w msg with
    | writing w => exact nofun
    | stored d | panicked d => exact fresh_loadModule
    | aborted d =>
      intro d' m _ hm
      rcases hcl (aborted_iff.mp ⟨d, hst⟩) with hno | ⟨d, hwa⟩
      · cases hno.symm.trans hm
      · cases hph.symm.trans hwa

/-- **The answer is true.**  In every run of a board's handler from its boot in which no transfer is
aborted while metadata is kept, a start is answered with `alreadyStored` only where the flash holds
the whole module that its metadata describes. -/
theorem already_stored_truthful {d : Device}
    (hrun : Reached (step l) AbortsClean (loadModule l d) h) (m : Metadata)
    (hreply : (h.receive l (.start m)).2 = some .alreadyStored) : Stores l h.device m := by
  have hf : h.Fresh l := hrun.holds (P := Fresh l) fresh_loadModule fun hf hc hst => by
    cases hst
    exact hf.receive hc
  cases hp : h.phase with
  | waiting d =>
    simp only [RuntimeHandler.receive, hp] at hreply
    split at hreply
    · next hk =>
      rw [device, hp]
      exact hf d m hp hk
    · cases hreply
  | storing w =>
    simp only [RuntimeHandler.receive, hp, storeModule] at hreply
    cases hreply

end RuntimeHandler
end Storage
namespace ModuleSample

def layout : PartitionLayout :=
  ⟨0, 64, 64, 16, 128, by decide, by decide, rfl, by decide, by decide⟩

def hash : ByteVec 32 := .fill 32 7

def module : Bytes := [0, 97, 115, 109]

def metadata : Metadata := .announced 4 (Crc32.checksum module) hash

def erased : Device := ⟨fun _ => 0xFF, []⟩

/-- A module is stored, and the transfer of another one is aborted. -/
def deploy : List WasmTransfer :=
  [.start metadata, .finish module, .start (.announced 8 0 hash), .abort]

end ModuleSample

open ModuleSample in
/-- **An aborted transfer is answered for.**  A module is stored, the transfer of another one is
aborted, and a start with the first one's metadata is answered with `alreadyStored` although the flash
is erased. -/
theorem aborted_transfer_answered :
    ∃ h, Reached (RuntimeHandler.step layout) (fun _ _ => True) (loadModule layout erased) h ∧
      (h.receive layout (.start metadata)).2 = some .alreadyStored ∧
      ¬RuntimeHandler.Stores layout h.device metadata := by
  obtain ⟨h, hr, hre, hn⟩ : ∃ h,
      Reached (RuntimeHandler.step layout) (fun _ _ => True) (loadModule layout erased) h ∧
      (h.receive layout (.start metadata)).2 = some .alreadyStored ∧
      (load layout h.device).1 = none := exists_reached deploy (by decide +kernel)
  refine ⟨h, hr, hre, ?_⟩
  rintro ⟨_, hl, -⟩
  rw [hl] at hn
  cases hn

open ModuleSample in
/-- After a module was stored, the answer to the same start is true. -/
theorem already_stored_truthful_deploy : RuntimeHandler.Stores layout
    (((loadModule layout erased).receive layout (.start metadata)).1.receive layout
      (.finish module)).1.device metadata :=
  RuntimeHandler.already_stored_truthful
    (.tail (.finish module) (.tail (.start metadata) .refl nofun rfl) nofun rfl) metadata
    (by decide +kernel)

/-! ## A whole transfer -/

theorem getD_append_blank (xs ys : Bytes) (i : Nat) : (xs ++ ys).getD i 0xFF =
    if i < xs.length then xs.getD i 0xFF else ys.getD (i - xs.length) 0xFF := by
  simp only [List.getD_eq_getElem?_getD, List.getElem?_append]
  split <;> rfl

/-- Padding is what was there before. -/
theorem getD_padded (data : Bytes) (i : Nat) : (padded data).getD i 0xFF = data.getD i 0xFF := by
  rw [padded, getD_append_blank]
  split
  · rfl
  · next h =>
    rw [List.getD_eq_default _ _ (Nat.le_of_not_lt h), List.getD_eq_getElem?_getD,
      List.getElem?_replicate]
    split <;> rfl

theorem length_padded (data : Bytes) : 4 ∣ (padded data).length ∧ data.length ≤ (padded data).length ∧
    (padded data).length < data.length + 4 := by
  simp only [padded, List.length_append, List.length_replicate]
  omega

theorem length_varint (fuel n : Nat) : (varint fuel n).length ≤ fuel + 1 := by
  induction fuel generalizing n with
  | zero => simp [varint]
  | succ fuel ih =>
    simp only [varint]
    split
    · simp
    · simpa using ih (n / 128)

theorem length_metadata (m : Metadata) : (metadataFormat.write m).length ≤ 52 := by
  have hl : (metadataFormat.write m).length = (u32 m.magic).length +
      ((u32 m.version).length + ((u32 m.len).length + ((u32 m.crc).length + 32))) := by
    simp [metadataFormat, via, pair, vec, uint32, m.hash.length_eq]
  have hu32 : ∀ n, (u32 n).length ≤ 5 := fun n => length_varint 4 n.toNat
  have := hu32 m.magic
  have := hu32 m.version
  have := hu32 m.len
  have := hu32 m.crc
  omega

theorem read_blank (n : Nat) : metadataFormat.read (List.replicate n 0xFF) = none := by
  have hv : readVarint (List.replicate n 0xFF) = none := by
    induction n with
    | zero => rfl
    | succ n ih => simp [List.replicate_succ, readVarint, ih]
  simp [metadataFormat, via, pair, uint32, readU32, hv]

theorem slice_eq {flash : Flash} {start len : Nat} {bytes : Bytes}
    (h : ∀ i < len, flash (start + i) = bytes.getD i 0xFF) :
    flash.slice start len = bytes.take len ++ List.replicate (len - bytes.length) 0xFF := by
  refine List.ext_getElem (by simp [Flash.slice]; omega) fun i hi _ => ?_
  have hi : i < len := by simpa [Flash.slice] using hi
  simp only [Flash.slice, List.getElem_map, List.getElem_range, h i hi, List.getElem_append,
    List.getElem_replicate, List.length_take]
  split
  · next hlt =>
    rw [List.getElem_take, List.getD_eq_getElem _ _ (by omega)]
  · exact List.getD_eq_default _ _ (by omega)

section Transfers
variable [Crc32] (l : PartitionLayout)

/-- The messages after a start, until the transfer is over. -/
def transfer : Storing → List WasmTransfer → Storing
  | .writing w, msg :: msgs => transfer (storeModule l w msg) msgs
  | s, _ => s

def sent : List WasmTransfer → Bytes
  | .chunk data :: msgs => data ++ sent msgs
  | .finish lastChunk :: _ => lastChunk
  | _ => []

/-- A range of addresses within one of the two regions. -/
def Inside (range : Nat × Nat) : Prop :=
  l.metaPaddr ≤ range.1 ∧ range.2 ≤ l.metaPaddr + l.metaLen ∨
    l.xipPaddr ≤ range.1 ∧ range.2 ≤ l.xipPaddr + l.xipLen

/-- **All or nothing**: only the two regions are written and erased, nothing panics, and when the
transfer is over the module that was announced and sent is loaded, or none is. -/
structure AllOrNothing (m : Metadata) (bytes : Bytes) (s : Storing) : Prop where
  inside : ∀ range ∈ s.device.touched, Inside l range
  calm : ∀ d, s ≠ .panicked d
  whole : ∀ d, s = .stored d ∨ s = .aborted d → (load l d).1 = none ∨
    (load l d).1 = some (m, bytes) ∧ bytes.length = m.len.toNat ∧ Crc32.checksum bytes = m.crc

/-- **The condition on the messages**: every chunk is of whole words, all fit into the module region, and
when the end comes they have the length and the checksum that were announced. -/
def Fits (m : Metadata) : Bytes → List WasmTransfer → Prop
  | bytes, .chunk data :: msgs =>
    4 ∣ data.length ∧ bytes.length + data.length ≤ l.xipLen ∧ Fits m (bytes ++ data) msgs
  | bytes, .finish lastChunk :: _ => bytes.length + (padded lastChunk).length ≤ l.xipLen ∧
    m.len.toNat = (bytes ++ lastChunk).length ∧ m.crc = Crc32.checksum (bytes ++ lastChunk)
  | _, .start _ :: _ => False
  | _, _ => True

/-- What a writer has written, in a flash that is blank otherwise. -/
structure WasmWriter.Holds (m : Metadata) (bytes : Bytes) (w : WasmWriter) : Prop where
  offset : w.currentOffset = l.xipPaddr + bytes.length
  digest : w.digest = bytes
  expected : w.expectedMetadata = m
  words : 4 ∣ bytes.length
  blank : ∀ i < l.metaLen, w.device.flash (l.metaPaddr + i) = 0xFF
  module : ∀ i < l.xipLen, w.device.flash (l.xipPaddr + i) = bytes.getD i 0xFF
  inside : ∀ range ∈ w.device.touched, Inside l range

variable {l} {m : Metadata} {bytes : Bytes} {w : WasmWriter} {d : Device} {range : Nat × Nat}
  {d' : Device}

/-! ### Erasing -/

section
omit [Crc32]

open PartitionLayout

theorem flash_eraseRegion (d : Device) {start len a : Nat} : (eraseRegion d start len).flash a =
      if start ≤ a ∧ a < start + len then 0xFF else d.flash a := by
  unfold eraseRegion
  split
  · next hb =>
    split
    · next ha =>
      have hm : d.flash a ∈ d.flash.slice start len :=
        List.mem_map.mpr ⟨a - start, List.mem_range.mpr (by omega), by congr 1; omega⟩
      simpa using List.all_eq_true.mp hb _ hm
    · rfl
  · rfl

theorem touched_eraseRegion {start len : Nat} :
    (range ∈ d.touched → range ∈ (eraseRegion d start len).touched) ∧
    (range ∈ (eraseRegion d start len).touched →
      range ∈ d.touched ∨ range = (start, start + len)) := by
  unfold eraseRegion
  split
  · exact ⟨id, .inl⟩
  · exact ⟨List.mem_cons_of_mem _, fun h => (List.mem_cons.mp h).symm⟩

theorem flash_erase (d : Device) {a : Nat} (hmi : l.metaPaddr ≤ a) (hm : a < l.xipPaddr + l.xipLen) :
    (l.erase d).flash a = 0xFF := by
  have := l.contiguous
  simp only [erase, flash_eraseRegion]
  split
  · rfl
  · rw [if_pos (by omega)]

theorem inside_erase (h : ∀ range ∈ d.touched, Inside l range) :
    ∀ range ∈ (l.erase d).touched, Inside l range := by
  intro range hr
  rcases touched_eraseRegion.2 hr with hr | rfl
  · rcases touched_eraseRegion.2 hr with hr | rfl
    · exact h range hr
    · exact .inl ⟨Nat.le_refl _, Nat.le_refl _⟩
  · exact .inr ⟨Nat.le_refl _, Nat.le_refl _⟩

end

theorem load_erase (d : Device) : (load l (l.erase d)).1 = none := by
  have := l.contiguous
  have hb : (l.erase d).flash.slice l.metaPaddr l.metaLen = List.replicate l.metaLen 0xFF := by
    have hf : ∀ i < l.metaLen, (l.erase d).flash (l.metaPaddr + i) = ([] : Bytes).getD i 0xFF :=
      fun i hi => flash_erase d (by omega) (by omega)
    simp [slice_eq hf]
  simp only [load, hb, read_blank]

section
omit [Crc32]

theorem holds_writer {flash : Flash} : (WasmStorage.writer l ⟨flash, []⟩ m).Holds l m [] := by
  have := l.contiguous
  exact ⟨rfl, rfl, rfl, by simp, fun i hi => flash_erase _ (by omega) (by omega),
    fun i hi => flash_erase _ (by omega) (by omega), inside_erase nofun⟩

/-! ### Writing -/

variable {data : Bytes}

theorem write_eq_some {offset : Nat} : l.write d offset data = some d' ↔
      (4 ∣ offset ∧ 4 ∣ data.length ∧ offset + data.length ≤ l.capacity) ∧
        ⟨d.flash.program offset data, (offset, offset + data.length) :: d.touched⟩ = d' := by
  unfold PartitionLayout.write
  split <;> simp_all

/-- Blank bytes take what is programmed, and bytes that are programmed blank stay. -/
theorem program_module {flash : Flash}
    (h : ∀ i < l.xipLen, flash (l.xipPaddr + i) = bytes.getD i 0xFF) {i : Nat} (hi : i < l.xipLen) :
    flash.program (l.xipPaddr + bytes.length) data (l.xipPaddr + i) = (bytes ++ data).getD i 0xFF := by
  rw [getD_append_blank, Flash.program, h i hi]
  by_cases hlt : i < bytes.length
  · rw [if_neg (by omega), if_pos hlt]
  · rw [List.getD_eq_default bytes _ (Nat.le_of_not_lt hlt), if_neg hlt,
      show l.xipPaddr + i - (l.xipPaddr + bytes.length) = i - bytes.length by omega]
    split
    · exact UInt8.neg_one_and
    · next ho => rw [List.getD_eq_default _ _ (by omega)]

variable (h : w.Holds l m bytes)
include h

/-- A write of whole words from where the writer is, within the module region, is taken. -/
theorem WasmWriter.Holds.written (hw : 4 ∣ data.length) (hf : bytes.length + data.length ≤ l.xipLen) :
    ∃ d, l.write w.device w.currentOffset data = some d ∧
      (∀ i < l.metaLen, d.flash (l.metaPaddr + i) = 0xFF) ∧
      (∀ i < l.xipLen, d.flash (l.xipPaddr + i) = (bytes ++ data).getD i 0xFF) ∧
      ∀ range ∈ d.touched, Inside l range := by
  have := l.contiguous
  have := l.fits
  have := l.words
  have := h.words
  have ho := h.offset
  refine ⟨_, write_eq_some.mpr ⟨⟨by omega, hw, by omega⟩, rfl⟩, fun i hi => ?_, fun i hi => ?_, ?_⟩
  · exact (if_neg (by omega)).trans (h.blank i hi)
  · rw [ho]
    exact program_module h.module hi
  · intro range hr
    rcases List.mem_cons.mp hr with rfl | hr
    · exact .inr ⟨by show l.xipPaddr ≤ w.currentOffset; omega,
        by show w.currentOffset + data.length ≤ _; omega⟩
    · exact h.inside range hr

/-- **A chunk that fits** is taken, and the writer then holds it too. -/
theorem WasmWriter.Holds.write (hw : 4 ∣ data.length) (hf : bytes.length + data.length ≤ l.xipLen) :
    ∃ w', w.write l data = some w' ∧ w'.Holds l m (bytes ++ data) := by
  obtain ⟨d, hwr, hb, hm, hi⟩ := h.written hw hf
  have hl : w.currentOffset + data.length = l.xipPaddr + (bytes ++ data).length := by
    rw [h.offset, List.length_append, Nat.add_assoc]
  refine ⟨⟨d, w.digest ++ data, w.currentOffset + data.length, w.expectedMetadata⟩,
    by rw [WasmWriter.write, hwr]; rfl, hl, ?_, h.expected, ?_, hb, hm, hi⟩
  · exact congrArg (· ++ data) h.digest
  · rw [List.length_append]
    exact Nat.dvd_add h.words hw

/-- A write from where the writer is that stays within a region is within the module region. -/
theorem WasmWriter.Holds.fits (hi : Inside l (w.currentOffset, w.currentOffset + data.length)) :
    bytes.length + data.length ≤ l.xipLen := by
  have := l.contiguous
  have ho := h.offset
  rcases hi with ⟨_, hm⟩ | ⟨_, hm⟩
  all_goals
    omega

end

/-! ### The end of a transfer -/

theorem finalWrite_eq_ok {data : Bytes} : w.finalWrite l data = .ok d' ↔
    ∃ d, l.write w.device w.currentOffset (padded data) = some d ∧
      w.matchesExpected l (w.currentOffset + data.length) (w.digest ++ data) ∧
      l.write d l.metaPaddr (padded (metadataFormat.write w.expectedMetadata)) = some d' := by
  unfold WasmWriter.finalWrite
  cases l.write w.device w.currentOffset (padded data) with
  | none => simp
  | some d =>
    simp only [Option.some.injEq, exists_eq_left']
    split
    · next hm =>
      cases l.write d l.metaPaddr (padded (metadataFormat.write w.expectedMetadata)) <;>
        simp [hm]
    · next hm => simp [hm]

theorem WasmWriter.Holds.matchesExpected_iff (h : w.Holds l m bytes) (hm : m.magic = Metadata.MAGIC)
    (hv : m.version = Metadata.VERSION) {data : Bytes}
    (hf : bytes.length + data.length ≤ l.xipLen) :
    w.matchesExpected l (w.currentOffset + data.length) (w.digest ++ data) ↔
      m.len.toNat = (bytes ++ data).length ∧ m.crc = Crc32.checksum (bytes ++ data) := by
  have := l.fits
  have := l.addresses
  have hl : w.currentOffset + data.length - l.xipPaddr = (bytes ++ data).length := by
    rw [h.offset, List.length_append]
    omega
  have hlt : (bytes ++ data).length < 2 ^ 32 := by
    rw [List.length_append]
    omega
  have ho : m.len = UInt32.ofNat (bytes ++ data).length ↔ m.len.toNat = (bytes ++ data).length := by
    rw [← UInt32.toNat_inj, UInt32.toNat_ofNat_of_lt' hlt]
  rw [WasmWriter.matchesExpected, h.expected, h.digest, hl, ho]
  simp only [hm, hv, true_and]

/-- **Loaded as it was stored**: blank metadata takes the metadata, and the module is the one written. -/
theorem load_stored (hma : m.magic = Metadata.MAGIC) (hve : m.version = Metadata.VERSION)
    (hbl : ∀ i < l.metaLen, d.flash (l.metaPaddr + i) = 0xFF)
    (hmo : ∀ i < l.xipLen, d.flash (l.xipPaddr + i) = bytes.getD i 0xFF)
    (hlen : m.len.toNat = bytes.length) (hcr : m.crc = Crc32.checksum bytes)
    (hfi : bytes.length ≤ l.xipLen)
    (hwr : l.write d l.metaPaddr (padded (metadataFormat.write m)) = some d') :
    (load l d').1 = some (m, bytes) := by
  have := l.contiguous
  have := l.room
  have hle := length_metadata m
  have hpa := length_padded (metadataFormat.write m)
  obtain ⟨-, rfl⟩ := write_eq_some.mp hwr
  have hme : ∀ i < l.metaLen, d.flash.program l.metaPaddr (padded (metadataFormat.write m))
      (l.metaPaddr + i) = (metadataFormat.write m).getD i 0xFF := by
    intro i hi
    rw [Flash.program, if_pos (by omega), hbl i hi, Nat.add_sub_cancel_left, getD_padded]
    exact UInt8.neg_one_and
  have hby : ∀ i < bytes.length, d.flash.program l.metaPaddr (padded (metadataFormat.write m))
      (l.xipPaddr + i) = bytes.getD i 0xFF := by
    intro i hi
    rw [Flash.program, if_pos (by omega), hmo i (by omega), List.getD_eq_default (padded _) _ (by omega)]
    exact UInt8.and_neg_one
  simp only [load, slice_eq hme, List.take_of_length_le (Nat.le_trans hle l.room),
    metadataFormat.read_write, hlen, slice_eq hby]
  simp [hma, hve, hcr, Nat.not_lt.mpr hfi]

/-- **The end of a transfer** is all or nothing exactly when the last chunk fits and what was sent is what
was announced. -/
theorem WasmWriter.Holds.finish (h : w.Holds l m bytes) (hmag : m.magic = Metadata.MAGIC)
    (hve : m.version = Metadata.VERSION) :
    AllOrNothing l m (bytes ++ data) (storeModule l w (.finish data)) ↔ Fits l m bytes [.finish data] := by
  have hpa := length_padded data
  constructor
  · intro hal
    cases hfi : w.finalWrite l data with
    | error d => exact absurd (by simp only [storeModule, hfi]) (hal.calm d)
    | ok d' =>
      obtain ⟨d, hwr, hma, hme⟩ := finalWrite_eq_ok.mp hfi
      have hfit : bytes.length + (padded data).length ≤ l.xipLen := by
        refine h.fits (hal.inside _ ?_)
        obtain ⟨-, rfl⟩ := write_eq_some.mp hwr
        obtain ⟨-, rfl⟩ := write_eq_some.mp hme
        simp [storeModule, hfi, Storing.device]
      exact ⟨hfit, (h.matchesExpected_iff hmag hve (by omega)).mp hma⟩
  · rintro ⟨hfit, hma⟩
    have := l.contiguous
    have := l.fits
    have := l.room
    have hle := length_metadata m
    have hmet := length_padded (metadataFormat.write m)
    obtain ⟨d, hwr, hbl, hmo, hin⟩ := h.written hpa.1 hfit
    obtain ⟨d', hme⟩ : ∃ d', l.write d l.metaPaddr (padded (metadataFormat.write m)) = some d' :=
      ⟨_, write_eq_some.mpr ⟨⟨l.words.1, hmet.1, by omega⟩, rfl⟩⟩
    have hfi : w.finalWrite l data = .ok d' := finalWrite_eq_ok.mpr
      ⟨d, hwr, (h.matchesExpected_iff hmag hve (by omega)).mpr hma, by rwa [h.expected]⟩
    have hse : ∀ i < l.xipLen, d.flash (l.xipPaddr + i) = (bytes ++ data).getD i 0xFF := by
      intro i hi
      rw [hmo i hi, getD_append_blank, getD_append_blank, getD_padded]
    have hlo := load_stored hmag hve hbl hse hma.1 hma.2 (by rw [List.length_append]; omega) hme
    simp only [storeModule, hfi]
    refine ⟨?_, nofun, ?_⟩
    · intro range hra
      obtain ⟨-, rfl⟩ := write_eq_some.mp hme
      rcases List.mem_cons.mp hra with rfl | hra
      · exact .inl ⟨Nat.le_refl _, by show l.metaPaddr + _ ≤ _; omega⟩
      · exact hin range hra
    · rintro _ (⟨⟨⟩⟩ | ⟨⟨⟩⟩)
      exact .inr ⟨hlo, hma.1.symm, hma.2.symm⟩

/-! ### Every transfer -/

variable (d : Device)

@[simp] theorem transfer_stored (msgs : List WasmTransfer) :
    transfer l (.stored d) msgs = .stored d := by
  cases msgs <;> rfl

@[simp] theorem transfer_aborted (msgs : List WasmTransfer) :
    transfer l (.aborted d) msgs = .aborted d := by
  cases msgs <;> rfl

@[simp] theorem transfer_panicked (msgs : List WasmTransfer) :
    transfer l (.panicked d) msgs = .panicked d := by
  cases msgs <;> rfl

theorem touched_storeModule (h : range ∈ w.device.touched) :
    range ∈ (storeModule l w msg).device.touched := by
  have her : ∀ {d : Device}, range ∈ d.touched → range ∈ (l.erase d).touched :=
    fun h => touched_eraseRegion.1 (touched_eraseRegion.1 h)
  have hwr : ∀ {d d' : Device} {offset : Nat} {data : Bytes}, l.write d offset data = some d' →
      range ∈ d.touched → range ∈ d'.touched := by
    intro d d' offset data hwr h
    obtain ⟨-, rfl⟩ := write_eq_some.mp hwr
    exact List.mem_cons_of_mem _ h
  cases msg with
  | start m => exact h
  | abort => exact her h
  | chunk data =>
    simp only [storeModule, WasmWriter.write]
    cases hda : l.write w.device w.currentOffset data with
    | none => exact h
    | some d => exact hwr hda h
  | finish data =>
    simp only [storeModule, WasmWriter.finalWrite]
    cases hda : l.write w.device w.currentOffset (padded data) with
    | none => exact her h
    | some d =>
      have h := hwr hda h
      by_cases hma : w.matchesExpected l (w.currentOffset + data.length) (w.digest ++ data)
      · simp only [if_pos hma]
        cases hme : l.write d l.metaPaddr (padded (metadataFormat.write w.expectedMetadata)) with
        | none => exact her h
        | some d' => exact hwr hme h
      · simp only [if_neg hma]
        exact her h

theorem touched_transfer (msgs : List WasmTransfer) {s : Storing} (h : range ∈ s.device.touched) :
    range ∈ (transfer l s msgs).device.touched := by
  induction msgs generalizing s with
  | nil => cases s <;> exact h
  | cons msg msgs ih =>
    cases s with
    | writing w => exact ih (touched_storeModule h)
    | _ => exact h

/-- From a writer on, by induction on the messages that are still to come. -/
theorem WasmWriter.Holds.transfer (h : w.Holds l m bytes) (hma : m.magic = Metadata.MAGIC)
    (hve : m.version = Metadata.VERSION) (msgs : List WasmTransfer) :
    AllOrNothing l m (bytes ++ sent msgs) (transfer l (.writing w) msgs) ↔ Fits l m bytes msgs := by
  induction msgs generalizing bytes w with
  | nil => exact ⟨fun _ => trivial, fun _ => ⟨h.inside, nofun, by rintro d (h | h) <;> cases h⟩⟩
  | cons msg msgs ih =>
    cases msg with
    | start m' => exact ⟨fun hal => hal.calm w.device (transfer_panicked ..), False.elim⟩
    | abort =>
      refine ⟨fun _ => trivial, fun _ => ?_⟩
      simp only [Myrmic.transfer, storeModule, transfer_aborted]
      refine ⟨inside_erase h.inside, nofun, ?_⟩
      rintro _ (⟨⟨⟩⟩ | ⟨⟨⟩⟩)
      exact .inl (load_erase w.device)
    | finish data =>
      have hov : Myrmic.transfer l (.writing w) (.finish data :: msgs) =
          storeModule l w (.finish data) := by
        simp only [Myrmic.transfer, storeModule]
        cases w.finalWrite l data <;> simp
      rw [hov]
      exact h.finish hma hve
    | chunk data =>
      rw [sent, ← List.append_assoc]
      by_cases hfi : 4 ∣ data.length ∧ bytes.length + data.length ≤ l.xipLen
      · obtain ⟨_, hwr, hho⟩ := h.write hfi.1 hfi.2
        rw [Myrmic.transfer, storeModule, hwr, ih hho]
        exact ⟨fun hre => ⟨hfi.1, hfi.2, hre⟩, fun hal => hal.2.2⟩
      · refine ⟨fun hal => absurd ?_ hfi, fun hal => absurd ⟨hal.1, hal.2.1⟩ hfi⟩
        cases hwr : l.write w.device w.currentOffset data with
        | none =>
          refine absurd ?_ (hal.calm w.device)
          simp [Myrmic.transfer, storeModule, WasmWriter.write, hwr]
        | some d =>
          refine ⟨(write_eq_some.mp hwr).1.2.1, h.fits (hal.inside _ (touched_transfer msgs ?_))⟩
          obtain ⟨-, rfl⟩ := write_eq_some.mp hwr
          simp [storeModule, WasmWriter.write, hwr, Storing.device]

variable (l) in
/-- **A transfer is all or nothing** exactly when its chunks are of whole words, fit into the module region
and are what was announced: the board panics at any other, or writes past the region. -/
theorem transfer_all_or_nothing (flash : Flash) (len crc : UInt32) (hash : ByteVec 32)
    (msgs : List WasmTransfer) : AllOrNothing l (.announced len crc hash) (sent msgs)
      (transfer l (.writing (WasmStorage.writer l ⟨flash, []⟩ (.announced len crc hash))) msgs) ↔
    Fits l (.announced len crc hash) [] msgs :=
  holds_writer.transfer rfl rfl msgs

end Transfers

open ModuleSample in
/-- **A module that is larger than its region is written past it.**  Twenty bytes are announced and sent,
and the last four of them are written after the region. -/
theorem oversized_module_written : ¬ AllOrNothing layout (.announced 20 0 hash) (List.replicate 20 1)
    (transfer layout (.writing (WasmStorage.writer layout erased (.announced 20 0 hash)))
      [.chunk (List.replicate 16 1), .chunk (List.replicate 4 1)]) := by
  intro h
  have hm : (80, 84) ∈ (transfer layout (.writing (WasmStorage.writer layout erased (.announced 20 0 hash)))
      [.chunk (List.replicate 16 1), .chunk (List.replicate 4 1)]).device.touched := by decide +kernel
  have hi := h.inside _ hm
  simp [Inside, layout] at hi

end Myrmic
