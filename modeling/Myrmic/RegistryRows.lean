import Myrmic.GenerationKeys
import Myrmic.OptimisticStore

/-!
# The rows behind registry calls

The bodies of registry calls, served by transactions on versioned rows: a point read is **tracked**, so
that a commit fails when the row was written since the transaction began, and listings are not.  Each
request is answered; a call whose body refuses commits what it has written, since the wrapper hands the
refusal to the transaction as a value.

`HasRow` is what it means for a generation of a cell to have a row.  As long as only keys of generations
were written under a cell's beginning (`Canonical`), listing the keys gives the generations that are
stored (`mem_generations`).
-/
namespace Myrmic
open OrderedBytes Fallible Dialogs OptimisticStore GenerationRows

/-- What names a row. -/
inductive RowKey where
  | kv (scope : ApiScope) (key : String)
  | table (scope : ApiScope) (table : String) (eid : Bytes)
  | blob (scope : ApiScope) (hash : BlobHash)
deriving DecidableEq

abbrev RowLog := List (Commit RowKey Bytes)

abbrev RowTx := OptimisticStore.Tx RowKey Bytes

/-- The rows of a scope whose keys begin with a text. -/
def kvRows (log : RowLog) (scope : ApiScope) (start : String) : List (String × Bytes) :=
  (rows log).filterMap fun
    | (.kv s key, value) =>
      if s = scope ∧ start.toList.isPrefixOf key.toList then some (key, value) else none
    | _ => none

def tableRows (log : RowLog) (scope : ApiScope) (table : String) : List (Bytes × Bytes) :=
  (rows log).filterMap fun
    | (.table s t eid, value) => if s = scope ∧ t = table then some (eid, value) else none
    | _ => none

variable {scope : ApiScope}

theorem mem_kvRows {log : RowLog} {start key : String} {value : Bytes} :
    (key, value) ∈ kvRows log scope start ↔
      start.toList <+: key.toList ∧ OptimisticStore.value log (.kv scope key) = some value := by
  simp only [kvRows, List.mem_filterMap, Prod.exists, ← mem_rows]
  constructor
  · rintro ⟨k, v, hm, hr⟩
    cases k with
    | kv s key' =>
      obtain ⟨⟨rfl, hs⟩, heq⟩ := Option.ite_none_right_eq_some.mp hr
      cases heq
      exact ⟨List.isPrefixOf_iff_prefix.mp hs, hm⟩
    | _ => cases hr
  · rintro ⟨hs, hm⟩
    exact ⟨_, _, hm, if_pos ⟨rfl, List.isPrefixOf_iff_prefix.mpr hs⟩⟩

/-- Serves the requests that registry calls send. -/
def serveRow [Sha2] (tx : RowTx) : TxOp → Reply × RowTx
  | .keyGet s key => (.response (.value (tx.get (.kv s key)).1), (tx.get (.kv s key)).2)
  | .keyPut s key value => (.response .done, tx.put (.kv s key) value)
  | .keyDelete s key => (.response .done, tx.erase (.kv s key))
  | .keyPrefix s start => (.response (.keys ((kvRows tx.view s start).map Prod.fst)), tx)
  | .keyList s start => (.response (.entries (kvRows tx.view s start)), tx)
  | .tbGet s table eid =>
    (.response (.value (tx.get (.table s table eid)).1), (tx.get (.table s table eid)).2)
  | .tbInsert s table (some eid) value =>
    (.response (.eid eid), tx.put (.table s table eid) value)
  | .tbDelete s table eid => (.response .done, tx.erase (.table s table eid))
  | .tbList s table none none none => (.response (.entities (tableRows tx.view s table)), tx)
  | .blobStore s blob =>
    (.response (.blobId ⟨s, Sha2.sha256 blob⟩), tx.put (.blob s (Sha2.sha256 blob)) blob)
  | op => (.refused ("no registry call sends " ++ op.name), tx)

theorem serveRow_lawful [Sha2] : Lawful serveRow := by
  intro tx op
  unfold serveRow
  split <;> exact ⟨rfl, rfl⟩

/-! ## Rows of generations -/

section Generations
variable [Sha2] [UuidText] {scope : ApiScope} {sri : Sri} {log : RowLog} {tx : RowTx} {genId : Gen}
  {gens : List Gen}

def genRow (scope : ApiScope) (sri : Sri) (genId : Gen) : RowKey :=
  .kv scope (generationKey sri genId)

def HasRow (scope : ApiScope) (sri : Sri) (log : RowLog) (genId : Gen) : Prop :=
  ∃ row, value log (genRow scope sri genId) = some row

/-- Under the beginning of a cell's generations there are only rows of generations. -/
def Canonical (scope : ApiScope) (sri : Sri) (log : RowLog) : Prop :=
  ∀ key row, value log (.kv scope key) = some row →
    (generationsOf sri).toList <+: key.toList → ∃ genId, key = generationKey sri genId

/-- What a transaction reads when it lists the generations of a cell. -/
def generations? (scope : ApiScope) (sri : Sri) (tx : RowTx) : Except String (List Gen) :=
  ((kvRows tx.view scope (generationsOf sri)).map Prod.fst).mapM readGeneration

omit [Sha2] in
theorem mem_generations (hc : Canonical scope sri tx.view)
    (h : generations? scope sri tx = .ok gens) : genId ∈ gens ↔ HasRow scope sri tx.view genId := by
  rw [mem_of_mapM h]
  constructor
  · rintro ⟨_, hk, hr⟩
    obtain ⟨⟨_, row⟩, hro, rfl⟩ := List.mem_map.mp hk
    obtain ⟨hs, hv⟩ := mem_kvRows.mp hro
    obtain ⟨genId', rfl⟩ := hc _ row hv hs
    rw [readGeneration_generationKey hr]
    exact ⟨row, hv⟩
  · rintro ⟨row, hro⟩
    have hk : generationKey sri genId ∈ (kvRows tx.view scope (generationsOf sri)).map Prod.fst :=
      List.mem_map.mpr ⟨_, mem_kvRows.mpr ⟨generationsOf_isPrefix sri genId, hro⟩, rfl⟩
    obtain ⟨genId', -, hr⟩ := exists_of_mapM h hk
    rw [readGeneration_generationKey hr] at hr
    exact ⟨_, hk, hr⟩

theorem run_newestGeneration (tx : RowTx) (genId : Gen) :
    (newestGeneration scope sri genId).run serveRow tx =
      ((generations? scope sri tx).map List.max?, (tx.get (genRow scope sri genId)).2) := by
  have hl : (generationsIn scope sri).run serveRow (tx.get (genRow scope sri genId)).2 =
        (generations? scope sri tx, (tx.get (genRow scope sri genId)).2) := run_generationsIn rfl
  change Dialog.run serveRow (Dialog.bind (generationsIn scope sri) _)
    (tx.get (genRow scope sri genId)).2 = _
  rw [Dialog.run_bind, hl]
  cases generations? scope sri tx <;> rfl

/-- A write is admitted if the generation is the newest that is listed. -/
theorem run_admitted (tx : RowTx) (genId : Gen) : (admitted scope sri genId).run serveRow tx =
      ((generations? scope sri tx).map fun gens => fenceAdmission gens.max? genId,
        (tx.get (genRow scope sri genId)).2) := by
  change Dialog.run serveRow (Dialog.bind (newestGeneration scope sri genId) _) tx = _
  rw [Dialog.run_bind, run_newestGeneration]
  cases generations? scope sri tx <;> rfl

/-- A removal deletes the row of the generation and no other, unless a key cannot be read. -/
theorem run_remove (tx : RowTx) (genId : Gen) : (∃ e, (remove scope sri genId).run serveRow tx =
        (.error e, (tx.get (genRow scope sri genId)).2)) ∨
      ∃ oc, (remove scope sri genId).run serveRow tx =
        (.ok oc, (tx.get (genRow scope sri genId)).2.erase (genRow scope sri genId)) := by
  have hr : (remove scope sri genId).run serveRow tx = _ :=
    Dialog.run_bind (newestGeneration scope sri genId) _ tx
  rw [hr, run_newestGeneration]
  cases generations? scope sri tx with
  | error e => exact .inl ⟨e, rfl⟩
  | ok gens =>
    refine .inr ?_
    simp only [Except.map]
    cases fenceAdmission gens.max? genId with
    | _ => exact ⟨_, rfl⟩

omit [Sha2] in
theorem hasRow_of_admission (hc : Canonical scope sri tx.view)
    (h : generations? scope sri tx = .ok gens) (ha : fenceAdmission gens.max? genId = .ok ()) :
    HasRow scope sri tx.view genId := by
  refine (mem_generations hc h).mp ?_
  unfold fenceAdmission at ha
  cases hm : gens.max? with
  | none =>
    rw [hm] at ha
    cases ha
  | some newest =>
    have heq : newest = genId := by
      by_contra hne
      simp [hm, hne] at ha
    exact heq ▸ List.max?_mem hm

end Generations

/-! ## Calls of one kind -/

section Calls
variable (Kind : RegistryCall → Prop)

abbrev CallResult (call : {call // Kind call}) : Type := call.1.Result

/-- A store on which calls of one kind are on their way. -/
abbrev RegistryDb := Db RowKey Bytes TxOp Reply String (CallResult Kind)

variable [UuidText] [Stored PlacementRow] [Stored InstanceRow] [Stored CellDeployment]
  [Stored RootDeath]

def bodyOf (call : {call // Kind call}) : Body (CallResult Kind call) := call.1.body

end Calls

end Myrmic
