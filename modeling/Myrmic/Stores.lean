import Myrmic.DataKeys
import Myrmic.Machine
import Myrmic.OpenTransaction

/-!
# One store and its open transactions

`Stores` is the machine of one store with any number of open transactions.  A transaction is begun on
the rows the store has, works on what it sees, and is committed or dropped; the operations are puts,
conditional puts and erasures at the transaction's own timestamp, recording chunks, restoring
snapshots, and the deletions that purges and releases are made of.  The database refuses a commit whose
reads have been overtaken.  The machine may drop any transaction, so it has every run that the
database's rule leaves, and more.

Entries of chunks and snapshots carry complete row keys.  `Stores.Within P` are the steps whose entries
only have keys with the property `P`; **in a run of such steps every row of the store lies under a key
with that property and is what its first byte promises** (`Stores.sound_of_reached`).
-/
namespace Myrmic
open OrderedBytes VersionedCell Fallible List Store

/-- Where data is stored: under a key of a scope, or under the lookup key of a term. -/
inductive Location where
  | data (s : Scope) (k : DataKey)
  | term (hash : HashedBytes)
deriving DecidableEq

/-- The raw key of a location. -/
def Location.key : Location → Bytes
  | .data s k => s.dataKey k
  | .term hash => semHashTag ++ semHash hash

theorem Location.userKey (loc : Location) : UserKey loc.key := by
  cases loc with
  | data s k => exact UserKey.of_scope
  | term hash => exact UserKey.semHash _

section Stores
variable [Postcard] {P : Bytes → Prop} {ks : Keyspace} {S : Scope → Prop} {c : TxCall}

/-! ## Operations -/

/-- What is done in an open transaction. -/
inductive TxCall where
  | writeScope (s : Scope)
  | put (loc : Location) (value : Bytes)
  | putIfAbsent (loc : Location) (value : Bytes)
  | erase (loc : Location)
  | insertChangeset (p : SyncPoint) (sm : SyncMeta) (entries : List (Bytes × Option Bytes))
  | restoreSnapshot (s : Scope) (snapshot : Snapshot)
  | deleteChunk (p : SyncPoint)
  | markSyncpointPurged (p : SyncPoint) (sm : SyncMeta)
  | forgetChunk (p : SyncPoint)

/-- What a call does to the transaction. -/
def Tx.call (tx : Tx) : TxCall → Except String Tx
  | .writeScope s => .ok (tx.writeScope s)
  | .put loc value => .ok (tx.putRaw loc.key value)
  | .putIfAbsent loc value => (tx.putIfAbsentRaw loc.key value).map Prod.snd
  | .erase loc => .ok (tx.eraseRaw loc.key)
  | .insertChangeset p sm entries => (tx.insertChangeset p sm entries).map Prod.snd
  | .restoreSnapshot s snapshot => tx.restoreSnapshot s snapshot
  | .deleteChunk p => tx.deleteChunk p
  | .markSyncpointPurged p sm => .ok (tx.markSyncpointPurged p sm)
  | .forgetChunk p => tx.forgetChunk p

/-- A later state of the same transaction. -/
structure Tx.Continues (tx tx' : Tx) : Prop where
  base : tx'.base = tx.base
  ts : tx'.ts = tx.ts
  id : tx'.id = tx.id
  retention : tx'.retention = tx.retention

/-- The row keys that come with an operation from outside. -/
def TxCall.entries : TxCall → List (Bytes × Option Bytes)
  | .insertChangeset _ _ entries => entries
  | .restoreSnapshot _ snapshot => snapshot.flatMap Chunk.entries
  | _ => []

/-- The sync points that an operation writes are of scopes in `S`. -/
def TxCall.PointsIn (S : Scope → Prop) : TxCall → Prop
  | .insertChangeset p _ _ => S p.scope
  | .restoreSnapshot s _ => S s
  | .markSyncpointPurged p _ => S p.scope
  | .forgetChunk p => S p.scope
  | _ => True

theorem Tx.Writes.of_call {P : Bytes → Prop} {tx tx' : Tx} (hS : c.PointsIn S)
    (hlo : ∀ loc : Location, P loc.key) (hen : ∀ e ∈ c.entries, P e.1) (h : tx.call c = .ok tx') :
    Writes S P tx tx' := by
  have hpu : ∀ (loc : Location) v, Writes S P tx (tx.putAtRaw loc.key v tx.ts) := fun loc v =>
    (Writes.refl.push (.drop _ _ _) (hlo loc)).push (.write _ _ _ _) (hlo loc)
  cases c with
  | writeScope s =>
    cases h
    exact Writes.refl.scope s
  | put loc v =>
    cases h
    exact hpu loc v
  | putIfAbsent loc v =>
    obtain ⟨_, hp, rfl⟩ := map_eq_ok.mp h
    obtain ⟨found, -, hp⟩ := bind_eq_ok.mp hp
    cases found with
    | some found =>
      cases hp
      exact .refl
    | none =>
      cases hp
      exact hpu loc v
  | erase loc =>
    cases h
    exact Writes.refl.push (.write _ _ _ _) (hlo loc)
  | insertChangeset p sm es =>
    obtain ⟨_, hi, rfl⟩ := map_eq_ok.mp h
    exact Writes.refl.insertChangeset hS hen hi
  | restoreSnapshot s snap =>
    refine Writes.refl.restoreSnapshot hS (fun chunk hch e he => ?_) h
    exact hen e (mem_flatMap.mpr ⟨chunk, hch, he⟩)
  | deleteChunk p => exact Writes.refl.delete (s := p.scope) h
  | markSyncpointPurged p sm =>
    cases h
    exact Writes.refl.push (.point p _) hS
  | forgetChunk p =>
    obtain ⟨tx₁, hd, h⟩ := bind_eq_ok.mp h
    cases h
    exact (Writes.refl.delete (s := p.scope) hd).push (.forget p) hS

/-- **Nothing a transaction does changes what it was begun with.** -/
theorem Tx.Writes.continues {P : Bytes → Prop} {tx tx' : Tx} (h : Writes S P tx tx') :
    tx.Continues tx' := by
  induction h with
  | refl => exact ⟨rfl, rfl, rfl, rfl⟩
  | scope _ s ih =>
    unfold Tx.writeScope
    split
    · exact ih
    · exact { ih with }
  | delete _ hd ih =>
    have he := Extends.deleteScopeAtVersion hd
    exact ⟨he.base.trans ih.base, he.ts.trans ih.ts, he.id.trans ih.id,
      he.retention.trans ih.retention⟩
  | push _ op _ ih => exact { ih with }

/-! ## The machine -/

/-- The committed rows and the open transactions, by number. -/
structure Stores where
  store : Keyspace
  opened : Nat → Option Tx

namespace Stores

/-- The life of a transaction. -/
inductive Action where
  | start (i : Nat) (ts : Version) (id : NodeId) (retention : Option Duration)
  | call (i : Nat) (c : TxCall)
  | commit (i : Nat)
  | drop (i : Nat)

/-- A new database: the version index is marked as built. -/
def fresh : Stores := ⟨(∅ : Keyspace).insert versionIndexFlag [], fun _ => none⟩

def set (st : Stores) (i : Nat) (tx : Option Tx) : Stores :=
  { st with opened := Function.update st.opened i tx }

def step (st : Stores) : Action → Option Stores
  | .start i ts id retention =>
    match st.opened i with
    | none => some (st.set i (some (Tx.start st.store ts id retention)))
    | some _ => none
  | .call i c => do
    let tx ← st.opened i
    let tx ← (tx.call c).toOption
    return st.set i (some tx)
  | .commit i => do
    let tx ← st.opened i
    let ks ← (tx.commit st.store).toOption
    return { st.set i none with store := ks }
  | .drop i => some (st.set i none)

def Action.entries : Action → List (Bytes × Option Bytes)
  | .call _ c => c.entries
  | _ => []

/-- The step brings in rows only under keys with a property. -/
def Within (P : Bytes → Prop) (_ : Stores) (action : Action) : Prop :=
  ∀ e ∈ action.entries, P e.1

omit [Postcard] in
instance {P : Bytes → Prop} [DecidablePred P] (st : Stores) (action : Action) :
    Decidable (st.Within P action) :=
  inferInstanceAs (Decidable (∀ e ∈ action.entries, P e.1))

theorem reached_mono {P Q : Bytes → Prop} (hPQ : ∀ k, P k → Q k) {start st : Stores}
    (h : Machine.Reached step (Within P) start st) : Machine.Reached step (Within Q) start st :=
  h.mono fun hw e he => hPQ e.1 (hw e he)

end Stores

/-! ## Rows that are in order -/

/-- A row of data, of the index or a sync point, by its first byte, or the flag row. -/
def KnownRow (key : Bytes) : Prop :=
  key = versionIndexFlag ∨ key.head? = some '@'.toUInt8 ∨ key.head? = some 's'.toUInt8 ∨
    key.head? = some '^'.toUInt8 ∨ key.head? = some '#'.toUInt8

/-- The store is well formed, its data rows lie under keys with the property `P`, and it has no other
kinds of rows. -/
structure Tidy (P : Bytes → Prop) (ks : Keyspace) : Prop where
  wellFormed : WellFormed ks
  keys : ∀ k t kind, UserKey k → encode k t kind ∈ ks → P k
  known : ∀ key, key ∈ ks → KnownRow key

/-- The write concerns rows under keys with the property `P`; a row that is removed with an index row
is the one the index row points at. -/
def RawOp.Within (P : Bytes → Prop) : RawOp → Prop
  | .write key _ _ _ => P key
  | .drop key _ _ => P key
  | .unindex ikey dataKey =>
    ∃ k t kind, P k ∧ dataKey = encode k t kind ∧ ikey = versionIndexKey t dataKey
  | .point _ _ => True
  | .forget _ => True

theorem Tidy.dropRow (h : Tidy P ks) {k : Bytes} (hk : UserKey k) (t : Version) (kind : KeyKind) :
    Tidy P (dropRow ks k t kind) :=
  ⟨h.wellFormed.dropRow hk,
    fun k' t' kind' hk' hm => h.keys k' t' kind' hk' (mem_dropRow.mp hm).2.2,
    fun key hm => h.known key (mem_dropRow.mp hm).2.2⟩

/-- A journal of writes under keys of data keeps a store in order, whatever store it is. -/
theorem Tidy.apply (hP : ∀ k, P k → UserKey k) (h : Tidy P ks) {op : RawOp} (hop : op.Within P) :
    Tidy P (op.apply ks) := by
  cases op with
  | write key ts kind value =>
    have hke := hP key hop
    refine ⟨h.wellFormed.writeRow hke, fun k t kind' hk hme => ?_, fun key' hme => ?_⟩
    · rcases mem_writeRow.mp hme with he | he | hme
      · obtain ⟨rfl, -, -⟩ := encode_injective he
        exact hop
      · exact absurd he (encode_ne_versionIndexKey hk)
      · exact h.keys k t kind' hk hme
    · rcases mem_writeRow.mp hme with rfl | rfl | hme
      · have hhe := head_encode hke ts kind
        rcases hke.head with hk | hk
        · exact .inr (.inl (hhe.trans hk))
        · exact .inr (.inr (.inl (hhe.trans hk)))
      · exact .inr (.inr (.inr (.inl rfl)))
      · exact h.known key' hme
  | drop key ts kind => exact h.dropRow (hP key hop) ts kind
  | unindex ikey dataKey =>
    obtain ⟨k, t, kind, hk, rfl, rfl⟩ := hop
    exact h.dropRow (hP k hk) t kind
  | point p sm =>
    have hme : ∀ {key}, key ∈ RawOp.apply ks (.point p sm) → key = p.encode ∨ key ∈ ks := by
      intro key hke
      obtain ⟨v, hv⟩ := mem_iff_exists_lookup.mp hke
      rw [RawOp.apply, insertPoint, lookup_insert] at hv
      split at hv
      · next he => exact .inl he.symm
      · exact .inr (mem_of_lookup hv)
    refine ⟨h.wellFormed.insertPoint p sm, fun k t kind hk hke => ?_, fun key hke => ?_⟩
    · exact h.keys k t kind hk ((hme hke).resolve_left (encode_ne_syncPoint hk))
    · rcases hme hke with rfl | hke
      · exact .inr (.inr (.inr (.inr rfl)))
      · exact h.known key hke
  | forget p =>
    exact ⟨h.wellFormed.erasePoint p,
      fun k t kind hk hme => h.keys k t kind hk (mem_erase.mp hme).2,
      fun key hme => h.known key (mem_erase.mp hme).2⟩

theorem Tidy.replay (hP : ∀ k, P k → UserKey k) (h : Tidy P ks) {jrn : List RawOp}
    (hops : ∀ op ∈ jrn, op.Within P) : Tidy P (replay ks jrn) := by
  induction jrn generalizing ks with
  | nil => exact h
  | cons op jrn ih =>
    exact ih (h.apply hP (hops op mem_cons_self)) fun op hop => hops op (mem_cons_of_mem _ hop)

/-! ## Transactions that are in order -/

namespace Tx

/-- The transaction was begun on a store that is in order, and so is all it wrote. -/
structure Sound (P : Bytes → Prop) (tx : Tx) : Prop where
  base : Tidy P tx.base
  journal : ∀ op ∈ tx.journal, op.Within P

variable {tx tx' : Tx}

theorem Sound.view (hP : ∀ k, P k → UserKey k) (h : tx.Sound P) : Tidy P tx.view :=
  h.base.replay hP h.journal

theorem Sound.push (h : tx.Sound P) (op : RawOp) (hop : op.Within P) : (tx.push op).Sound P := by
  exact ⟨h.base, forall_mem_append.mpr ⟨h.journal, forall_mem_singleton.mpr hop⟩⟩

theorem Sound.writeScope (h : tx.Sound P) (s : Scope) : (tx.writeScope s).Sound P := by
  unfold Tx.writeScope
  split
  · exact h
  · exact { h with }

theorem Sound.deleteIndexed (h : tx.Sound P) {ikeys : List Bytes}
    (hi : ∀ ikey ∈ ikeys, ∃ k t kind, P k ∧ ikey = versionIndexKey t (encode k t kind))
    (hd : tx.deleteIndexed ikeys = .ok tx') : tx'.Sound P := by
  induction ikeys generalizing tx with
  | nil =>
    cases hd
    exact h
  | cons ikey ikeys ih =>
    obtain ⟨_, hda, hd⟩ := bind_eq_ok.mp hd
    obtain ⟨k, t, kind, hk, rfl⟩ := hi ikey mem_cons_self
    rw [versionIndexDataKey_versionIndexKey] at hda
    cases hda
    exact ih (h.push (.unindex _ _) ⟨k, t, kind, hk, rfl, rfl⟩)
      (fun ikey hik => hi ikey (mem_cons_of_mem _ hik)) hd

variable {s : Scope} (hP : ∀ k, P k → UserKey k)
include hP

theorem Sound.deleteScopeAtVersion (h : tx.Sound P) {ts : Version}
    (hde : tx.deleteScopeAtVersion s ts = .ok tx') : tx'.Sound P := by
  obtain ⟨⟨n, _⟩, hr, hde⟩ := bind_eq_ok.mp hde
  cases hde
  obtain ⟨_, hin, hr⟩ := bind_eq_ok.mp hr
  cases hr
  refine h.deleteIndexed (fun ikey hi => ?_) hin
  obtain ⟨row, hro, rfl⟩ := mem_map.mp hi
  obtain ⟨hg, hp⟩ := mem_prefixOf.mp hro
  obtain ⟨d, hd, -⟩ := exists_of_versionIndexPrefix hp
  have hv := h.view hP
  obtain ⟨k, t, kind, hk, hke, hda⟩ :=
    hv.wellFormed.index row.1 (mem_of_lookup hg) (by rw [hd]; rfl)
  exact ⟨k, t, kind, hv.keys k t kind hk hda, hke⟩

/-- **Everything a transaction does keeps it in order.** -/
theorem Sound.writes (h : tx.Sound P) (hw : Writes S P tx tx') : tx'.Sound P := by
  induction hw with
  | refl => exact h
  | scope _ s ih => exact ih.writeScope s
  | delete _ hd ih => exact ih.deleteScopeAtVersion hP hd
  | push _ op hop ih =>
    refine ih.push op ?_
    cases op with
    | write | drop => exact hop
    | unindex => exact hop.elim
    | point | forget => trivial

omit hP

theorem within_commitPoints {scopes : List Scope} {points : List RawOp}
    (h : tx.commitPoints scopes = .ok points) : ∀ op ∈ points, op.Within P := by
  induction scopes generalizing points with
  | nil =>
    cases h
    simp
  | cons s scopes ih =>
    obtain ⟨_, -, h⟩ := bind_eq_ok.mp h
    obtain ⟨_, hr, h⟩ := bind_eq_ok.mp h
    cases h
    intro op hop
    rcases mem_cons.mp hop with rfl | hop
    · trivial
    · exact ih hr op hop

/-- A commit keeps the store in order, whatever has been committed since the transaction began. -/
theorem Sound.commit (hP : ∀ k, P k → UserKey k) (h : tx.Sound P) {ks' : Keyspace}
    (hs : Tidy P ks) (hc : tx.commit ks = .ok ks') : Tidy P ks' := by
  obtain ⟨_, hp, hc⟩ := bind_eq_ok.mp hc
  cases hc
  exact hs.replay hP (forall_mem_append.mpr ⟨h.journal, within_commitPoints hp⟩)

end Tx

/-! ## Runs -/

namespace Stores

/-- The store and all open transactions are in order. -/
structure Sound (P : Bytes → Prop) (st : Stores) : Prop where
  store : Tidy P st.store
  opened : ∀ i tx, st.opened i = some tx → tx.Sound P

variable {st st' : Stores}

theorem Sound.set (h : st.Sound P) (i : Nat) {tx : Option Tx} (htx : ∀ x, tx = some x → x.Sound P) :
    (st.set i tx).Sound P := by
  refine ⟨h.store, fun j x hx => ?_⟩
  by_cases hj : j = i
  · subst hj
    exact htx x (by simpa [Stores.set] using hx)
  · exact h.opened j x (by simpa [Stores.set, hj] using hx)

theorem sound_fresh : fresh.Sound P := by
  have hme : ∀ {key}, key ∈ fresh.store → key = versionIndexFlag := by
    intro key hke
    obtain ⟨v, hv⟩ := mem_iff_exists_lookup.mp hke
    rw [fresh, lookup_insert] at hv
    split at hv
    · next he => exact he.symm
    · simp at hv
  have hno : ∀ {k t kind}, UserKey k → encode k t kind ∉ fresh.store := by
    intro k t kind hk hke
    have hhe := head_encode hk t kind
    rw [hme hke] at hhe
    rcases hk.head with h | h <;> rw [h] at hhe <;> exact absurd hhe (by decide)
  refine ⟨⟨⟨?_, ?_, fun k t kind hk hke => absurd hke (hno hk), ?_⟩,
    fun k t kind hk hke => absurd hke (hno hk), fun key hke => .inl (hme hke)⟩, nofun⟩
  · intro key hke hhe
    rw [hme hke] at hhe
    exact absurd hhe (by decide)
  · intro key hke hhe
    rw [hme hke] at hhe
    exact absurd hhe (by decide)
  · intro key v hge hhe
    rw [hme (mem_of_lookup hge)] at hhe
    exact absurd hhe (by decide)

theorem Sound.step (hP : ∀ k, P k → UserKey k) (hlo : ∀ loc : Location, P loc.key)
    (h : st.Sound P) {act : Action} (hwi : st.Within P act)
    (hst : st.step act = some st') : st'.Sound P := by
  cases act with
  | start i ts id ret =>
    simp only [Stores.step] at hst
    split at hst
    · cases hst
      refine h.set i fun x hx => ?_
      cases hx
      exact ⟨h.store, by simp [Tx.start]⟩
    · cases hst
  | call i c =>
    obtain ⟨tx, htx, hst⟩ := Option.bind_eq_some_iff.mp hst
    obtain ⟨_, htx', hst⟩ := Option.bind_eq_some_iff.mp hst
    cases hst
    refine h.set i fun x hx => ?_
    cases hx
    have hS : c.PointsIn fun _ => True := by cases c <;> trivial
    exact (h.opened i tx htx).writes hP (.of_call hS hlo hwi (toOption_eq_some.mp htx'))
  | commit i =>
    obtain ⟨tx, htx, hst⟩ := Option.bind_eq_some_iff.mp hst
    obtain ⟨_, hks', hst⟩ := Option.bind_eq_some_iff.mp hst
    cases hst
    have hse : (st.set i none).Sound P := h.set i nofun
    exact ⟨(h.opened i tx htx).commit hP h.store (toOption_eq_some.mp hks'), hse.opened⟩
  | drop i =>
    cases hst
    exact h.set i nofun

/-- **Every state of such a run is in order.** -/
theorem sound_of_reached (hP : ∀ k, P k → UserKey k) (hl : ∀ loc : Location, P loc.key)
    (h : Machine.Reached step (Within P) fresh st) : st.Sound P :=
  h.holds sound_fresh fun hs hw hst => hs.step hP hl hw hst

end Stores
end Stores

end Myrmic
