import Myrmic.PlacementOwners
import Myrmic.Registries

/-!
# Registry calls that run alone

A registry call is modelled at two levels.  `RegistryCall.body` is what the call sends to the database,
row by row, and this is what statements about overlapping calls are about.  `DbCall.perform` is what the
callers of a registry count on: a call reads and changes tables, at once.  Here the two are related.

`Stands` says that the rows of a store are the tables of the registries: every placement, instance, spec
and death is stored under its key, and nothing else is stored there.  A write of one of these rows is a
write of one table (`Stands.write`), and **a call whose transaction sees the last commit returns what
`perform` returns and leaves rows that stand for what `perform` leaves** (`performs_of_stands`).

The listings that orchestrators make are no calls that change a registry and have no body here; nor is
the removal of assets covered, whose requests are about paths of blobs and not about rows.
-/
namespace Myrmic.RegistryTables
open OrderedBytes Fallible Dialogs OptimisticStore OptimisticStore.Tx KeyedTables GenerationRows List

/-! ## Rows and tables -/

/-- A place where a registry keeps a row. -/
inductive Place where
  | placement (sri : Sri) (genId : Gen)
  | «instance» (sri : Sri) (genId : Gen)
  | spec (sri : Sri)
  | death (sri : Sri)

namespace Place

/-- The row that a place is stored under. -/
def row : Place → RowKey
  | .placement sri genId => genRow placementScope sri genId
  | .instance sri genId => genRow instanceRegistryScope sri genId
  | .spec sri => .table rootRestartScope entriesTable (sriEid sri)
  | .death sri => .table rootDeathScope entriesTable (sriEid sri)

/-- What the registries have at a place, as it is stored. -/
def stored [Stored PlacementRow] [Stored InstanceRow] [Stored CellDeployment] [Stored RootDeath]
    (reg : Registries) : Place → Option Bytes
  | .placement sri genId => (lookup DbCall.placementKey (sri, genId) reg.placements).map
      fun entry => Stored.toAllocvec entry.row
  | .instance sri genId => (lookup DbCall.instanceKey (sri, genId) reg.instances).map
      fun i => Stored.toAllocvec i.row
  | .spec sri => (lookup (fun s => s.deployment.sri) sri reg.specs).map
      fun s => Stored.toAllocvec s.deployment
  | .death sri => (lookup RootDeath.sri sri reg.deaths).map Stored.toAllocvec

/-- The row of a place is never that of a claim. -/
theorem row_ne_claimRow (p : Place) (sri : Sri) : p.row ≠ claimRow sri := by
  intro h
  cases p with
  | placement sri' genId | «instance» sri' genId =>
    injection h with _ hk
    exact placementClaimKey_not_isPrefix (hk ▸ generationsOf_isPrefix sri' genId)
  | _ => cases h

end Place

/-- The row of a gateway route. -/
def routeRow (mount : String) : RowKey := .table gatewayConfigScope entriesTable (strBytes mount)

theorem Place.row_ne_routeRow (p : Place) (mount : String) : p.row ≠ routeRow mount := by
  intro h
  cases p with
  | spec sri | death sri =>
    injection h with hs
    exact absurd hs (by decide)
  | _ => cases h

/-- Lists with the same elements have the same greatest one. -/
theorem max?_congr {α : Type} [LinearOrder α] {l l' : List α} (h : ∀ a, a ∈ l ↔ a ∈ l') :
    l.max? = l'.max? := by
  ext a
  simp only [List.max?_eq_some_iff, h]

/-- How identities are written is read back. -/
class LawfulUuidText extends UuidText where
  parse_display : ∀ sri : Sri, parse sri.display = some sri

section Keys
variable [LawfulUuidText] {sri sri' : Sri} {genId genId' : Gen} {scope : ApiScope}

theorem display_injective (h : sri.display = sri'.display) : sri = sri' := by
  have hp := congrArg UuidText.parse h
  rw [LawfulUuidText.parse_display, LawfulUuidText.parse_display] at hp
  exact Option.some.inj hp

theorem generationKey_inj (h : generationKey sri genId = generationKey sri' genId') :
    sri = sri' ∧ genId = genId' := by
  have hs : sri = sri' :=
    display_injective (display_eq_of_isPrefix (h ▸ generationsOf_isPrefix sri genId)).symm
  subst hs
  exact ⟨rfl, generationKey_injective sri h⟩

theorem Place.row_injective {p q : Place} (h : p.row = q.row) : p = q := by
  cases p <;> cases q
  case placement.placement | instance.instance =>
    injection h with _ hk
    obtain ⟨rfl, rfl⟩ := generationKey_inj hk
    rfl
  case spec.spec | death.death =>
    injection h with _ _ he
    rw [display_injective (strBytes_injective he)]
  case placement.instance | instance.placement | spec.death | death.spec =>
    -- the scopes differ
    injection h with hs
    exact absurd hs (by decide)
  all_goals cases h

/-- Under the beginning of a cell a place is one of its generations. -/
theorem Place.generation_of_row {p : Place} {key : String} (h : p.row = .kv scope key)
    (hs : (generationsOf sri).toList <+: key.toList) : ∃ genId, key = generationKey sri genId := by
  cases p with
  | placement sri' genId | «instance» sri' genId =>
    injection h with _ hk
    subst hk
    exact ⟨genId, by rw [display_injective (display_eq_of_isPrefix hs)]⟩
  | _ => cases h

theorem parseGenerationKey_of_lawful :
    parseGenerationKey (generationKey sri genId) = some (sri, genId) := by
  rw [parseGenerationKey_eq, LawfulUuidText.parse_display]
  rfl

omit [LawfulUuidText] in
/-- Where only generations are stored, a listed row is one of them. -/
theorem generation_of_mem_kvRows {tx : RowTx} (hc : Canonical scope sri tx.view)
    {e : String × Bytes} (he : e ∈ kvRows tx.view scope (generationsOf sri)) :
    ∃ genId, e.1 = generationKey sri genId ∧
      value tx.view (genRow scope sri genId) = some e.2 := by
  obtain ⟨hs, hv⟩ := mem_kvRows.mp he
  obtain ⟨genId, hk⟩ := hc e.1 e.2 hv hs
  exact ⟨genId, hk, by rwa [hk] at hv⟩

/-- Where only generations are stored, they are listed. -/
theorem generations_ok {tx : RowTx} {gens : List Gen} (hc : Canonical scope sri tx.view)
    (hg : ∀ genId, HasRow scope sri tx.view genId ↔ genId ∈ gens) :
    ∃ listed, generations? scope sri tx = .ok listed ∧ listed.max? = gens.max? := by
  have hok : ∃ listed, generations? scope sri tx = .ok listed := by
    refine mapM_ok fun key hk => ?_
    obtain ⟨e, he, rfl⟩ := mem_map.mp hk
    obtain ⟨genId, hk, -⟩ := generation_of_mem_kvRows hc he
    exact ⟨genId, by simp only [hk, readGeneration, parseGenerationKey_of_lawful]⟩
  obtain ⟨listed, hl⟩ := hok
  exact ⟨listed, hl, max?_congr fun genId => (mem_generations hc hl).trans (hg genId)⟩

end Keys

/-! ## The newest rows can be read -/

theorem mem_insertNewest {sri : Sri} {genId : Gen} {key : String} {v : Bytes}
    {rows : List (Sri × Gen × String × Bytes)} {r : Sri × Gen × String × Bytes}
    (hr : r ∈ insertNewest sri genId key v rows) : r = (sri, genId, key, v) ∨ r ∈ rows := by
  induction rows with
  | nil => exact .inl (mem_singleton.mp hr)
  | cons first rows ih =>
    simp only [insertNewest] at hr
    split at hr
    · exact mem_cons.mp hr
    · split at hr
      · exact (mem_cons.mp hr).imp_right (mem_cons_of_mem _)
      · exact .inr hr
    · rcases mem_cons.mp hr with rfl | hr
      · exact .inr mem_cons_self
      · exact (ih hr).imp_right (mem_cons_of_mem _)

theorem newest_ok [UuidText] {R T : Type} [Stored R] (assemble : Sri → Gen → R → T)
    {entries : List (String × Bytes)}
    (hp : ∀ e ∈ entries, ∃ named, parseGenerationKey e.1 = some named)
    (hd : ∀ e ∈ entries, ∃ row : R, Stored.fromBytes e.2 = .ok row) :
    ∀ x ∈ newest assemble entries, ∃ y, x = .ok y := by
  intro x hx
  rcases mem_append.mp hx with hx | hx
  · obtain ⟨r, hr, heq⟩ := mem_map.mp hx
    have hfrom : ∃ e ∈ entries, r.2.2.2 = e.2 := by
      -- what is kept was in one of the entries
      clear heq
      revert r
      refine foldlRecOn (motive := fun rows : List (Sri × Gen × String × Bytes) =>
        ∀ r ∈ rows, ∃ e ∈ entries, r.2.2.2 = e.2) _ _ (fun _ hr => absurd hr not_mem_nil) ?_
      intro rows ih e he r hr
      split at hr
      · rcases mem_insertNewest hr with rfl | hr
        · exact ⟨e, he, rfl⟩
        · exact ih r hr
      · exact ih r hr
    obtain ⟨e, he, hv⟩ := hfrom
    obtain ⟨row, hrow⟩ := hd e he
    refine ⟨assemble r.1 r.2.1 row, ?_⟩
    rw [← heq]
    simp only [hv, hrow]
  · obtain ⟨e, he, hm⟩ := mem_filterMap.mp hx
    obtain ⟨named, hn⟩ := hp e he
    rw [hn] at hm
    cases hm

/-- Entries that can be read give a result for some of them, if there are any. -/
theorem mapM_newest_ok [UuidText] {R T : Type} [Stored R] (assemble : Sri → Gen → R → T)
    (entries : List (String × Bytes))
    (hp : ∀ e ∈ entries, ∃ named, parseGenerationKey e.1 = some named)
    (hd : ∀ e ∈ entries, ∃ row : R, Stored.fromBytes e.2 = .ok row) :
    ∃ found, (newest assemble entries).mapM (fun x => x) = .ok found ∧
      (found = [] ↔ entries = []) := by
  obtain ⟨found, hfo⟩ := mapM_ok (f := fun x : Except String T => x) (newest_ok assemble hp hd)
  refine ⟨found, hfo, fun hnil => ?_, ?_⟩
  · by_contra hne
    obtain ⟨x, hx⟩ := exists_mem_of_ne_nil _ (newest_ne_nil assemble hne)
    obtain ⟨y, hy, -⟩ := exists_of_mapM hfo hx
    rw [hnil] at hy
    cases hy
  · rintro rfl
    cases hfo
    rfl

/-! ## Writes -/

section Stands
variable [Stored PlacementRow] [Stored InstanceRow] [Stored CellDeployment] [Stored RootDeath]

/-- The rows of a store are those of the registries.  Of a route only its mount is looked at. -/
structure Stands (reg : Registries) (log : RowLog) : Prop where
  rows : ∀ p : Place, value log p.row = p.stored reg
  routes : ∀ mount, (value log (routeRow mount)).isSome ↔ ∃ r ∈ reg.routes, r.mount = mount
  placements : ∀ sri, Canonical placementScope sri log
  instances : ∀ sri, Canonical instanceRegistryScope sri log

variable {sri : Sri} {genId : Gen} {scope : ApiScope} {tx : RowTx} {reg reg' : Registries}

omit [Stored PlacementRow] [Stored InstanceRow] [Stored CellDeployment] [Stored RootDeath] in
theorem canonical_write {r : RowKey} {w : Option Bytes} (h : Canonical scope sri tx.view)
    (hr : ∀ key, r = .kv scope key → (generationsOf sri).toList <+: key.toList →
      ∃ genId, key = generationKey sri genId) :
    Canonical scope sri (tx.write r w).view := by
  intro key v hv hs
  by_cases hk : r = .kv scope key
  · exact hr key hk hs
  · rw [value_view_write_of_ne (Ne.symm hk)] at hv
    exact h key v hv hs

namespace Stands
variable (h : Stands reg tx.view)
include h

/-- A write of a row is a write of the table it is in. -/
theorem write [LawfulUuidText] (hts : ∀ c ∈ tx.base, c.ts < tx.ts) {p : Place}
    (hro : reg'.routes = reg.routes) (hq : ∀ q ≠ p, q.stored reg' = q.stored reg) :
    Stands reg' (tx.write p.row (p.stored reg')).view where
  rows q := by
    by_cases hqp : q = p
    · rw [hqp, value_view_write hts]
    · rw [value_view_write_of_ne fun he => hqp (Place.row_injective he), h.rows, hq q hqp]
  routes mount := by
    rw [value_view_write_of_ne (p.row_ne_routeRow mount).symm, hro]
    exact h.routes mount
  placements sri := canonical_write (h.placements sri) fun _ hk hs => Place.generation_of_row hk hs
  instances sri := canonical_write (h.instances sri) fun _ hk hs => Place.generation_of_row hk hs

/-- The row that keeps claims apart stands for nothing. -/
theorem writeClaim (sri : Sri) (w : Option Bytes) :
    Stands reg (tx.write (claimRow sri) w).view := by
  have hcl : ∀ sri', ∀ scope key, claimRow sri = .kv scope key →
      (generationsOf sri').toList <+: key.toList → ∃ genId, key = generationKey sri' genId := by
    intro sri' scope key hk hs
    injection hk with _ hk
    exact absurd (hk ▸ hs) placementClaimKey_not_isPrefix
  refine ⟨fun p => ?_, fun mount => ?_, fun sri' => ?_, fun sri' => ?_⟩
  · rw [value_view_write_of_ne (p.row_ne_claimRow sri), h.rows]
  · rw [value_view_write_of_ne (fun he => by cases he)]
    exact h.routes mount
  · exact canonical_write (h.placements sri') (hcl sri' _)
  · exact canonical_write (h.instances sri') (hcl sri' _)

theorem eraseRoute (hts : ∀ c ∈ tx.base, c.ts < tx.ts) (mount : String) :
    Stands { reg with routes := reg.routes.filter fun r => r.mount ≠ mount }
      (tx.write (routeRow mount) none).view where
  rows p := by
    rw [value_view_write_of_ne (p.row_ne_routeRow mount), h.rows]
    cases p <;> rfl
  routes mount' := by
    by_cases hm : mount' = mount
    · subst hm
      rw [value_view_write hts]
      simp
    · have hne : routeRow mount' ≠ routeRow mount := by
        intro he
        injection he with _ _ he
        exact hm (strBytes_injective he)
      rw [value_view_write_of_ne hne, h.routes]
      simp only [mem_filter, decide_eq_true_eq]
      constructor
      · rintro ⟨r, hr, rfl⟩
        exact ⟨r, ⟨hr, hm⟩, rfl⟩
      · rintro ⟨r, ⟨hr, -⟩, rfl⟩
        exact ⟨r, hr, rfl⟩
  placements sri := canonical_write (h.placements sri) fun _ hk => by cases hk
  instances sri := canonical_write (h.instances sri) fun _ hk => by cases hk

/-! ## Listings -/

/-- A generation has a row if something is stored at its place. -/
theorem hasRow_iff {p : Place} (hp : p.row = genRow scope sri genId) :
    HasRow scope sri tx.view genId ↔ (p.stored reg).isSome := by
  rw [HasRow, ← Option.isSome_iff_exists, ← h.rows, hp]

theorem hasRow_placement :
    HasRow placementScope sri tx.view genId ↔ genId ∈ reg.placementGens sri := by
  rw [h.hasRow_iff (p := .placement sri genId) rfl, Place.stored, Option.isSome_map,
    Option.isSome_iff_ne_none, Ne, lookup_eq_none]
  simp [Registries.placementGens, DbCall.placementKey, and_assoc]

theorem hasRow_instance :
    HasRow instanceRegistryScope sri tx.view genId ↔ genId ∈ reg.instanceGens sri := by
  rw [h.hasRow_iff (p := .instance sri genId) rfl, Place.stored, Option.isSome_map,
    Option.isSome_iff_ne_none, Ne, lookup_eq_none]
  simp [Registries.instanceGens, DbCall.instanceKey, and_assoc]

end Stands

/-! ## Tables -/

/-- A table of the registries: where its rows are, and what is stored there. -/
structure Table (α κ : Type) [DecidableEq κ] where
  place : κ → Place
  key : α → κ
  encode : α → Bytes
  rows : Registries → List α
  set : List α → Registries → Registries
  stored_place : ∀ l reg k, (place k).stored (set l reg) = (lookup key k l).map encode
  set_rows : ∀ reg, set (rows reg) reg = reg
  stored_rest : ∀ l reg q, (∀ k, q ≠ place k) → q.stored (set l reg) = q.stored reg
  routes_set : ∀ l reg, (set l reg).routes = reg.routes

def placementTable : Table PlacementEntry (Sri × Gen) where
  place k := .placement k.1 k.2
  key := DbCall.placementKey
  encode entry := Stored.toAllocvec entry.row
  rows := Registries.placements
  set l reg := { reg with placements := l }
  stored_place _ _ _ := rfl
  set_rows _ := rfl
  stored_rest _ _
    | .placement sri genId, hq => absurd rfl (hq (sri, genId))
    | .instance .., _ | .spec _, _ | .death _, _ => rfl
  routes_set _ _ := rfl

def instanceTable : Table CellInstance (Sri × Gen) where
  place k := .instance k.1 k.2
  key := DbCall.instanceKey
  encode i := Stored.toAllocvec i.row
  rows := Registries.instances
  set l reg := { reg with instances := l }
  stored_place _ _ _ := rfl
  set_rows _ := rfl
  stored_rest _ _
    | .instance sri genId, hq => absurd rfl (hq (sri, genId))
    | .placement .., _ | .spec _, _ | .death _, _ => rfl
  routes_set _ _ := rfl

def specTable : Table Spec Sri where
  place := .spec
  key s := s.deployment.sri
  encode s := Stored.toAllocvec s.deployment
  rows := Registries.specs
  set l reg := { reg with specs := l }
  stored_place _ _ _ := rfl
  set_rows _ := rfl
  stored_rest _ _
    | .spec sri, hq => absurd rfl (hq sri)
    | .placement .., _ | .instance .., _ | .death _, _ => rfl
  routes_set _ _ := rfl

def deathTable : Table RootDeath Sri where
  place := .death
  key := RootDeath.sri
  encode := Stored.toAllocvec
  rows := Registries.deaths
  set l reg := { reg with deaths := l }
  stored_place _ _ _ := rfl
  set_rows _ := rfl
  stored_rest _ _
    | .death sri, hq => absurd rfl (hq sri)
    | .placement .., _ | .instance .., _ | .spec _, _ => rfl
  routes_set _ _ := rfl

variable {α κ : Type} [DecidableEq κ] (t : Table α κ)

theorem Table.stored_rows (k : κ) :
    (t.place k).stored reg = (lookup t.key k (t.rows reg)).map t.encode := by
  have hs := t.stored_place (t.rows reg) reg k
  rwa [t.set_rows] at hs

namespace Stands

/-- What was claimed and recorded is not stored. -/
theorem notes {log : RowLog} (h : Stands reg log) (lives : List Life) (recorded : List RootDeath) :
    Stands { reg with lives := lives, recorded := recorded } log :=
  ⟨fun p => (h.rows p).trans (by cases p <;> rfl), h.routes, h.placements, h.instances⟩

variable [LawfulUuidText] (h : Stands reg tx.view) (hts : ∀ c ∈ tx.base, c.ts < tx.ts)
include h hts

theorem setRow {l : List α} {k : κ}
    (hl : ∀ k', k' ≠ k → lookup t.key k' l = lookup t.key k' (t.rows reg)) :
    Stands (t.set l reg) (tx.write (t.place k).row ((lookup t.key k l).map t.encode)).view := by
  have hw := h.write hts (p := t.place k) (t.routes_set l reg) fun q hq => ?_
  · rwa [t.stored_place] at hw
  · by_cases hin : ∃ k', q = t.place k'
    · obtain ⟨k', rfl⟩ := hin
      rw [t.stored_place, t.stored_rows, hl k' fun he => hq (by rw [he])]
    · exact t.stored_rest l reg q (not_exists.mp hin)

theorem putRow (a : α) : Stands (t.set (put t.key a (t.rows reg)) reg)
      (tx.put (t.place (t.key a)).row (t.encode a)).view := by
  have hs := h.setRow t hts (l := put t.key a (t.rows reg)) (k := t.key a) fun _ => lookup_put_of_ne
  rwa [lookup_put_self] at hs

theorem eraseRow (k : κ) : Stands (t.set (erase t.key k (t.rows reg)) reg)
      (tx.erase (t.place k).row).view := by
  have hs := h.setRow t hts (l := erase t.key k (t.rows reg)) (k := k) fun _ => lookup_erase_of_ne
  rwa [lookup_erase_self] at hs

end Stands

/-! ## Calls -/

section Calls
variable [LawfulUuidText] [Sha2]

/-- A body returns an outcome, and leaves rows that stand for what the outcome leaves. -/
def Does {α : Type} (tx : RowTx) (body : Body α) (outcome : α × Registries) : Prop :=
  ∃ tx' : RowTx, body.run serveRow tx = (.ok outcome.1, tx') ∧ tx'.base = tx.base ∧ tx'.ts = tx.ts ∧
    Stands outcome.2 tx'.view

omit [Stored InstanceRow] [Stored CellDeployment] [Stored RootDeath] in
/-- A cell is found placed if a placement of it is stored. -/
theorem run_getPlacementInTx {gens : List Gen} (hc : Canonical placementScope sri tx.view)
    (hr : ∀ genId row, value tx.view (genRow placementScope sri genId) = some row →
      ∃ entry : PlacementRow, Stored.fromBytes row = .ok entry)
    (hg : ∀ genId, HasRow placementScope sri tx.view genId ↔ genId ∈ gens) :
    ∃ found, (getPlacementInTx sri).run serveRow tx = (.ok found, tx) ∧
      (found = none ↔ gens = []) := by
  have hru : (getPlacementInTx sri).run serveRow tx = _ :=
    Dialog.run_bind (GenerationRows.list placementScope (generationsOf sri)) _ _
  have hli : (GenerationRows.list placementScope (generationsOf sri)).run serveRow tx =
      (.ok (kvRows tx.view placementScope (generationsOf sri)), tx) := rfl
  have hnil : kvRows tx.view placementScope (generationsOf sri) = [] ↔ gens = [] := by
    rw [eq_nil_iff_forall_not_mem, eq_nil_iff_forall_not_mem]
    constructor
    · intro hno genId hge
      obtain ⟨row, hro⟩ := (hg genId).mpr hge
      exact hno _ (mem_kvRows.mpr ⟨generationsOf_isPrefix sri genId, hro⟩)
    · intro hno e he
      obtain ⟨genId, -, hv⟩ := generation_of_mem_kvRows hc he
      exact hno genId ((hg genId).mp ⟨e.2, hv⟩)
  obtain ⟨placements, hpl, hem⟩ := mapM_newest_ok PlacementEntry.fromRow
    (kvRows tx.view placementScope (generationsOf sri))
    (fun e he => by
      obtain ⟨genId, hk, -⟩ := generation_of_mem_kvRows hc he
      exact ⟨_, hk ▸ parseGenerationKey_of_lawful⟩)
    fun e he => by
      obtain ⟨genId, -, hv⟩ := generation_of_mem_kvRows hc he
      exact hr genId e.2 hv
  have hpl' : (newestPlacements _).mapM (fun p => p) = .ok placements := hpl
  simp only [hli, hpl'] at hru
  exact ⟨placements.getLast?, hru, by rw [getLast?_eq_none_iff, hem, hnil]⟩

variable (h : Stands reg tx.view) (hts : ∀ c ∈ tx.base, c.ts < tx.ts)
include h hts

theorem does_claim (entry : PlacementEntry) (deployment : CellDeployment) :
    Does tx (doClaim entry) ((DbCall.claimPlacement entry deployment).perform reg) := by
  have hru : (doClaim entry).run serveRow tx = _ :=
    Dialog.run_bind (getPlacementInTx entry.sri) _ (tx.get (claimRow entry.sri)).2
  have hread : ∃ found, (getPlacementInTx entry.sri).run serveRow (tx.get (claimRow entry.sri)).2 =
        (.ok found, (tx.get (claimRow entry.sri)).2) ∧
      (found = none ↔ reg.placementGens entry.sri = []) := by
    refine run_getPlacementInTx (h.placements entry.sri) (fun genId row hv => ?_)
      fun genId => h.hasRow_placement
    obtain ⟨e, -, rfl⟩ := Option.map_eq_some_iff.mp ((h.rows (.placement _ genId)).symm.trans hv)
    exact ⟨e.row, Stored.fromBytes_toAllocvec e.row⟩
  obtain ⟨found, hfo, hnone⟩ := hread
  have hfree : found = none ↔ reg.getPlacement entry.sri = none := by
    rw [hnone, Registries.getPlacement_eq_none]
    simp [Registries.placementGens, filter_eq_nil_iff]
  rw [hfo] at hru
  cases found with
  | some placed =>
    obtain ⟨e, he⟩ := Option.ne_none_iff_exists'.mp (mt hfree.mpr (by simp))
    rw [DbCall.perform_claim_taken reg deployment he]
    exact ⟨_, hru, rfl, rfl, h⟩
  | none =>
    rw [DbCall.perform_claim_free reg deployment (hfree.mp rfl)]
    exact ⟨_, hru, rfl, rfl,
      ((h.writeClaim entry.sri (some [])).putRow placementTable hts entry).notes _ reg.recorded⟩

theorem does_commit (entry : PlacementEntry) :
    Does tx (doCommitPlacement entry) ((DbCall.commitPlacement entry).perform reg) := by
  have hru : (doCommitPlacement entry).run serveRow tx = _ :=
    Dialog.run_bind (GenerationRows.admitted placementScope entry.sri entry.genId) _ tx
  obtain ⟨gens, hge, hmax⟩ := generations_ok (h.placements entry.sri) fun _ => h.hasRow_placement
  rw [run_admitted, hge] at hru
  simp only [Except.map, hmax] at hru
  simp only [DbCall.perform]
  split
  · next outcome ha =>
    rw [ha] at hru
    exact ⟨_, hru, rfl, rfl, h⟩
  · next ha =>
    rw [ha] at hru
    exact ⟨_, hru, rfl, rfl, h.putRow placementTable hts entry⟩

omit [Stored PlacementRow] [Stored InstanceRow] [Stored CellDeployment] [Stored RootDeath] h hts in
theorem run_remove_ok {gens : List Gen} (hc : Canonical scope sri tx.view)
    (hg : ∀ genId, HasRow scope sri tx.view genId ↔ genId ∈ gens) :
    (remove scope sri genId).run serveRow tx = (.ok (removalOutcome gens genId),
      (tx.get (genRow scope sri genId)).2.erase (genRow scope sri genId)) := by
  have hru : (remove scope sri genId).run serveRow tx = _ :=
    Dialog.run_bind (newestGeneration scope sri genId) _ tx
  obtain ⟨listed, hge, hmax⟩ := generations_ok hc hg
  rw [hru, run_newestGeneration, hge]
  simp only [Except.map, hmax, removalOutcome]
  cases fenceAdmission gens.max? genId <;> rfl

theorem does_removePlacement (sri : Sri) (genId : Gen) :
    Does tx (doRemovePlacement sri genId) ((DbCall.removePlacement sri genId).perform reg) := by
  have hru : (doRemovePlacement sri genId).run serveRow tx = _ :=
    Dialog.run_bind (GenerationRows.remove placementScope sri genId) _ tx
  rw [run_remove_ok (h.placements sri) fun _ => h.hasRow_placement] at hru
  exact ⟨_, hru, rfl, rfl,
    Stands.writeClaim (h.eraseRow placementTable hts (sri, genId)) sri none⟩

theorem does_removeInstance (sri : Sri) (genId : Gen) :
    Does tx (remove instanceRegistryScope sri genId)
      ((DbCall.removeInstanceRow sri genId).perform reg) :=
  ⟨_, run_remove_ok (h.instances sri) fun _ => h.hasRow_instance, rfl, rfl,
    h.eraseRow instanceTable hts (sri, genId)⟩

theorem does_writeSpec (deployment : CellDeployment) (author : Gen) :
    Does tx (doWriteSpec deployment) ((DbCall.writeSpec deployment author).perform reg) :=
  ⟨_, rfl, rfl, rfl, h.putRow specTable hts ⟨deployment, author⟩⟩

theorem does_recordDeath (death : RootDeath) :
    Does tx (doRecord death) ((DbCall.recordDeath death).perform reg) :=
  ⟨_, rfl, rfl, rfl, (h.putRow deathTable hts death).notes reg.lives _⟩

/-- A body that erases a row where it finds one. -/
theorem does_eraseFound {k : κ} {body : Body Bool}
    (hnone : (tx.get (t.place k).row).1 = none →
      body.run serveRow tx = (.ok false, (tx.get (t.place k).row).2))
    (hsome : ∀ a, (tx.get (t.place k).row).1 = some (t.encode a) →
      body.run serveRow tx = (.ok true, (tx.get (t.place k).row).2.erase (t.place k).row)) :
    Does tx body ((t.rows reg).any (fun a => t.key a = k),
      t.set (erase t.key k (t.rows reg)) reg) := by
  have hv : (tx.get (t.place k).row).1 = _ := (h.rows (t.place k)).trans (t.stored_rows k)
  cases hl : lookup t.key k (t.rows reg) with
  | none =>
    have hno := lookup_eq_none.mp hl
    have hsame : erase t.key k (t.rows reg) = t.rows reg :=
      filter_eq_self.mpr fun a ha => decide_eq_true (hno a ha)
    have hany : ((t.rows reg).any fun a => t.key a = k) = false := by simpa using hno
    rw [hany, hsame, t.set_rows]
    exact ⟨_, hnone (by rw [hv, hl, Option.map_none]), rfl, rfl, h⟩
  | some a =>
    obtain ⟨ha, hk⟩ := mem_of_lookup hl
    have hany : ((t.rows reg).any fun a => t.key a = k) = true :=
      any_eq_true.mpr ⟨a, ha, decide_eq_true hk⟩
    rw [hany]
    exact ⟨_, hsome a (by rw [hv, hl, Option.map_some]), rfl, rfl, h.eraseRow t hts k⟩

theorem does_eraseSpec (sri : Sri) :
    Does tx (doEraseSpec sri) ((DbCall.eraseSpec sri).perform reg) := by
  have hru : (doEraseSpec sri).run serveRow tx = _ := Dialog.run_bind (doGetSpec sri) _ tx
  have hget : (doGetSpec sri).run serveRow tx = Dialog.run serveRow
      (decodedOption "failed to deserialize root restart spec" (tx.get (specTable.place sri).row).1)
      (tx.get (specTable.place sri).row).2 := rfl
  rw [hget] at hru
  refine does_eraseFound specTable h hts (fun hv => ?_) fun s hv => ?_
  · rw [hru, hv]
    rfl
  · rw [hru, hv]
    simp only [specTable, decodedOption, decoded, Stored.fromBytes_toAllocvec]
    rfl

theorem does_clearDeath (sri : Sri) :
    Does tx (doClear sri) ((DbCall.clearDeath sri).perform reg) := by
  have hru : (doClear sri).run serveRow tx = _ := Dialog.run_bind
    (tableGet "unable to get root death" rootDeathScope entriesTable (sriEid sri)) _ tx
  have hget : (tableGet "unable to get root death" rootDeathScope entriesTable (sriEid sri)).run
      serveRow tx = (.ok (tx.get (deathTable.place sri).row).1,
        (tx.get (deathTable.place sri).row).2) := rfl
  rw [hget] at hru
  refine does_eraseFound deathTable h hts (fun hv => ?_) fun d hv => ?_
  · rw [hru, hv]
    rfl
  · rw [hru, hv]
    rfl

omit [LawfulUuidText] in
theorem does_deleteRoutes (owner : Sri) (mounts : List String) :
    Does tx (Dialog.each deregisterGatewayRouteInTx mounts)
      ((DbCall.deleteRoutes owner mounts).perform reg) := by
  induction mounts generalizing reg tx with
  | nil =>
    refine ⟨tx, rfl, rfl, rfl, ?_⟩
    simpa [DbCall.perform] using h
  | cons mount mounts ih =>
    obtain ⟨tx', hru, hb, ht, hst⟩ := ih (h.eraseRoute hts mount) hts
    refine ⟨tx', hru, hb, ht, ?_⟩
    have hf : (reg.routes.filter fun r => r.mount ∉ mount :: mounts) =
        (reg.routes.filter fun r => r.mount ≠ mount).filter fun r => r.mount ∉ mounts := by
      simp [filter_filter, Bool.and_comm]
    simp only [DbCall.perform, hf]
    exact hst

end Calls

/-! ## Two levels of one call -/

/-- The body that is sent for a call which changes rows. -/
def registryCall : (c : DbCall) → Option {r : RegistryCall // r.Result = c.Value}
  | .claimPlacement entry _ => some ⟨.claimPlacement entry, rfl⟩
  | .commitPlacement entry => some ⟨.commitPlacement entry, rfl⟩
  | .removePlacement sri genId => some ⟨.removePlacement sri genId, rfl⟩
  | .removeInstanceRow sri genId => some ⟨.removeInstance sri genId, rfl⟩
  | .writeSpec deployment _ => some ⟨.writeSpec deployment, rfl⟩
  | .eraseSpec sri => some ⟨.eraseSpec sri, rfl⟩
  | .recordDeath death => some ⟨.recordDeath death, rfl⟩
  | .clearDeath sri => some ⟨.clearDeath sri, rfl⟩
  | .deleteRoutes _ mounts => some ⟨.deregisterCellRoutes mounts, rfl⟩
  | _ => none

/-- **A call that runs alone does what its callers count on**: in a transaction that began after every
commit it sees, its body returns what `perform` returns, and the rows stand for what `perform` leaves. -/
theorem performs_of_stands [LawfulUuidText] [Sha2] {c : DbCall}
    {r : {r : RegistryCall // r.Result = c.Value}} (hc : registryCall c = some r)
    (h : Stands reg tx.view) (hts : ∀ c ∈ tx.base, c.ts < tx.ts) :
    Does tx (cast (congrArg Body r.2) r.1.body) (c.perform reg) := by
  cases c with
  | claimPlacement entry deployment =>
    cases hc
    exact does_claim h hts entry deployment
  | commitPlacement entry =>
    cases hc
    exact does_commit h hts entry
  | removePlacement sri genId =>
    cases hc
    exact does_removePlacement h hts sri genId
  | removeInstanceRow sri genId =>
    cases hc
    exact does_removeInstance h hts sri genId
  | writeSpec deployment author =>
    cases hc
    exact does_writeSpec h hts deployment author
  | eraseSpec sri =>
    cases hc
    exact does_eraseSpec h hts sri
  | recordDeath death =>
    cases hc
    exact does_recordDeath h hts death
  | clearDeath sri =>
    cases hc
    exact does_clearDeath h hts sri
  | deleteRoutes owner mounts =>
    cases hc
    exact does_deleteRoutes h hts owner mounts
  | _ => cases hc

end Stands

end Myrmic.RegistryTables
