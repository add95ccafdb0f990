import Mathlib.Data.Prod.Lex
import Myrmic.StoreOps

/-!
# Cells and their records

A cell is identified by its SRI.  Each of its lives has a **generation**, and the placement and the
instance of a life are rows of their own, under a key that names the SRI and the generation; readers
take the newest.  Classes are named by the hash of their artifact.

The records have the fields that the registries and the orchestrator use.
-/
namespace Myrmic
open OrderedBytes

/-! ## Identities -/

/-- A cell's identity, a UUID. -/
abbrev Sri := ByteVec 16

/-- How identities are read from text. -/
class UuidText where
  parse : String → Option Sri

/-- A hybrid-logical-clock timestamp minted for each life of a cell. -/
structure Gen where
  time : UInt64
  id : BitVec 128
deriving DecidableEq

/-- Time first, the node's id as tiebreak. -/
def Gen.key (g : Gen) : Nat ×ₗ Nat := toLex (g.time.toNat, g.id.toNat)

theorem Gen.key_injective : Function.Injective Gen.key := by
  intro a b h
  have hp : (a.time.toNat, a.id.toNat) = (b.time.toNat, b.id.toNat) := toLex_inj.mp h
  obtain ⟨_, _⟩ := a
  obtain ⟨_, _⟩ := b
  simp only [Prod.mk.injEq, UInt64.toNat_inj, BitVec.toNat_inj] at hp
  rw [hp.1, hp.2]

instance instLinearOrderGen : LinearOrder Gen := LinearOrder.lift' Gen.key Gen.key_injective

/-- The content hash of a blob; it also names the class whose artifact the blob is. -/
abbrev BlobHash := ByteVec 32

abbrev RuntimeId := ByteVec 16

/-! ## Records -/

/-- The spawn edge a cell was born on. -/
structure SpawnLineage where
  parent : Option Sri
  detached : Bool
  localName : Option String
  deadlineMs : Option Nat
deriving DecidableEq

/-- An external deploy. -/
def SpawnLineage.root : SpawnLineage := ⟨none, false, none, none⟩

/-- Where a cell is placed. -/
inductive PlacementKind where
  | wasm (runtime : RuntimeId)
  | native (runtime : RuntimeId)
  | bridge (sri : Sri)
  | placeholder
deriving DecidableEq

/-- The node hosting the cell, when the placement names one. -/
def PlacementKind.host : PlacementKind → Option RuntimeId
  | .wasm runtime => some runtime
  | .native runtime => some runtime
  | .bridge _ => none
  | .placeholder => none

/-- What a placement row stores; its key carries the SRI and generation. -/
structure PlacementRow where
  kind : PlacementKind
  app : Option String
deriving DecidableEq

structure PlacementEntry where
  sri : Sri
  kind : PlacementKind
  app : Option String
  genId : Gen
deriving DecidableEq

def PlacementEntry.fromRow (sri : Sri) (genId : Gen) (row : PlacementRow) : PlacementEntry :=
  ⟨sri, row.kind, row.app, genId⟩

def PlacementEntry.row (entry : PlacementEntry) : PlacementRow := ⟨entry.kind, entry.app⟩

/-- What an instance row stores; its key carries the SRI and generation. -/
structure InstanceRow where
  «class» : BlobHash
  lineage : SpawnLineage
deriving DecidableEq

structure CellInstance where
  sri : Sri
  «class» : BlobHash
  genId : Gen
  lineage : SpawnLineage
deriving DecidableEq

def CellInstance.row (i : CellInstance) : InstanceRow := ⟨i.class, i.lineage⟩

/-- A target architecture that runs AOT-compiled cells. -/
inductive ArtifactPlatform where
  | riscv32imac
deriving DecidableEq

/-- A registered class: wasm with its compilations and the classes it spawns, or a compilation. -/
inductive ClassInfo where
  | wasm (aot : List (ArtifactPlatform × BlobHash)) (spawns : List BlobHash)
  | aot (platform : ArtifactPlatform) (crc : UInt32)
deriving DecidableEq

inductive RestartType where
  | never
  | onError
  | always
deriving DecidableEq

structure RestartPolicy where
  restartType : RestartType
  maxRestarts : Nat
  windowMs : Nat
  delayMs : Nat
deriving DecidableEq

def RestartPolicy.isEnabled (policy : RestartPolicy) : Bool := policy.restartType ≠ .never

inductive LostReason where
  | nodeLost
  | crashed
  | stopped (code : Option UInt32)
  | terminated
  | spawnFailed
deriving DecidableEq

/-- An abnormal exit: not a clean stop and not an operator's terminate. -/
def isAbnormal : LostReason → Bool
  | .crashed => true
  | .nodeLost => true
  | .spawnFailed => true
  | .stopped code =>
    match code with
    | some c => c ≠ 0
    | none => false
  | .terminated => false

/-- Whether a death warrants a restart. -/
def shouldRestart (restartType : RestartType) (reason : LostReason) : Bool :=
  match restartType with
  | .never => false
  | .onError => isAbnormal reason
  | .always => reason ≠ .terminated

/-- A deployment of one cell; a root's is kept to restart it. -/
structure CellDeployment where
  sri : Sri
  «class» : Option BlobHash
  app : Option String
  lineage : SpawnLineage
  restart : RestartPolicy
deriving DecidableEq

structure RootDeath where
  sri : Sri
  genId : Gen
  reason : LostReason
deriving DecidableEq

/-! ## Text -/

/-- The digits of a number in hexadecimal, at least `width` of them. -/
def hexDigits (width n : Nat) : List Char :=
  let digits := Nat.toDigits 16 n
  List.replicate (width - digits.length) '0' ++ digits

def hexBytes (bs : Bytes) : List Char := bs.flatMap fun b => hexDigits 2 b.toNat

/-- The hyphenated form. -/
def Sri.display (sri : Sri) : String :=
  let digits := hexBytes sri.bytes
  String.ofList (digits.take 8 ++ '-' :: (digits.drop 8).take 4 ++ '-' :: (digits.drop 12).take 4 ++
    '-' :: (digits.drop 16).take 4 ++ '-' :: digits.drop 20)

def hexValue (c : Char) : Option Nat :=
  if '0' ≤ c ∧ c ≤ '9' then some (c.toNat - '0'.toNat)
  else if 'a' ≤ c ∧ c ≤ 'f' then some (c.toNat - 'a'.toNat + 10)
  else if 'A' ≤ c ∧ c ≤ 'F' then some (c.toNat - 'A'.toNat + 10)
  else none

/-- A number written in hexadecimal with an optional sign, if it has at most `bits` bits. -/
def fromStrRadix16 (bits : Nat) (text : List Char) : Option Nat :=
  let digits := match text with
    | '+' :: digits => digits
    | digits => digits
  if digits = [] then none
  else do
    let n ← digits.foldlM (fun n c => (hexValue c).map (16 * n + ·)) 0
    if n < 2 ^ bits then some n else none

/-! ## Generation rows -/

/-- What the key of every generation row begins with. -/
def generations : String := "gen/"

/-- What the keys of all generations of a cell begin with. -/
def generationsOf (sri : Sri) : String := generations ++ sri.display ++ "/"

def generationKey (sri : Sri) (genId : Gen) : String :=
  generationsOf sri ++ String.ofList (hexDigits 16 genId.time.toNat ++ hexDigits 32 genId.id.toNat)

/-- Splits at the first occurrence of a character. -/
def splitOnce (c : Char) : List Char → Option (List Char × List Char)
  | [] => none
  | d :: ds => if d = c then some ([], ds) else (splitOnce c ds).map fun r => (d :: r.1, r.2)

/-- The SRI and generation a key names, if it has the shape of one. -/
def parseGenerationKey [UuidText] (key : String) : Option (Sri × Gen) := do
  let rest ← generations.toList.isPrefixOf? key.toList
  let (sri, genId) ← splitOnce '/' rest
  if (strBytes (String.ofList genId)).length ≠ 48 then none
  else
    let time ← fromStrRadix16 64 (genId.take 16)
    let id ← fromStrRadix16 128 (genId.drop 16)
    let sri ← UuidText.parse (String.ofList sri)
    return (sri, ⟨UInt64.ofNat time, BitVec.ofNat 128 id⟩)

/-- A codec for the values of rows. -/
class Stored (α : Type) where
  toAllocvec : α → Bytes
  fromBytes : Bytes → Except String α
  fromBytes_toAllocvec : ∀ a, fromBytes (toAllocvec a) = .ok a

attribute [simp] Stored.fromBytes_toAllocvec

/-- Keeps the newest generation of each SRI, in the order of the SRIs. -/
def insertNewest (sri : Sri) (genId : Gen) (key : String) (value : Bytes) :
    List (Sri × Gen × String × Bytes) → List (Sri × Gen × String × Bytes)
  | [] => [(sri, genId, key, value)]
  | (sri', genId', key', value') :: rows =>
    match compare sri.bytes sri'.bytes with
    | .lt => (sri, genId, key, value) :: (sri', genId', key', value') :: rows
    | .eq =>
      if genId' < genId then (sri, genId, key, value) :: rows
      else (sri', genId', key', value') :: rows
    | .gt => (sri', genId', key', value') :: insertNewest sri genId key value rows

/-- The newest row of each SRI, read; then an error for each key that is not one of a generation. -/
def newest [UuidText] {R T : Type} [Stored R] (assemble : Sri → Gen → R → T)
    (entries : List (String × Bytes)) : List (Except String T) :=
  let rows := entries.foldl (fun rows entry =>
    match parseGenerationKey entry.1 with
    | some (sri, genId) => insertNewest sri genId entry.1 entry.2 rows
    | none => rows) []
  let malformed := entries.filterMap fun entry =>
    match parseGenerationKey entry.1 with
    | some _ => none
    | none => some (.error ("malformed generation key " ++ entry.1.quote))
  rows.map (fun (sri, genId, key, value) =>
    match Stored.fromBytes value with
    | .ok row => .ok (assemble sri genId row)
    | .error reason => .error ("undecodable row under " ++ key.quote ++ ": " ++ reason)) ++ malformed

def newestPlacements [UuidText] [Stored PlacementRow] (entries : List (String × Bytes)) :
    List (Except String PlacementEntry) := newest PlacementEntry.fromRow entries

/-! ## Fencing -/

/-- What a fenced row mutation found, and did. -/
inductive FenceOutcome where
  | applied
  | absent
  | superseded (current : Gen)
deriving DecidableEq

/-- Whether a write for the generation `expected` may go ahead, or the outcome to report. -/
def fenceAdmission (existing : Option Gen) (expected : Gen) : Except FenceOutcome Unit :=
  match existing with
  | none => .error .absent
  | some current => if current ≠ expected then .error (.superseded current) else .ok ()

/-! ## Artifacts -/

/-- The checksum that boards verify. -/
class Crc32 where
  checksum : Bytes → UInt32

end Myrmic
