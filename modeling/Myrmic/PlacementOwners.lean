import Myrmic.RegistryFormat
import Myrmic.RegistryRows

/-!
# A cell has one owner

A cell is claimed, its placement committed and removed by calls of three kinds, which may overlap in any
way.  Rows are kept per generation, so two claims write different rows, and the listing by which a claim
finds the cell free is not tracked.  What excludes a second owner is the **claim row**: every claim reads
and writes it and every removal writes it, while a commit of a placement writes a row only where its
generation, whose row it has read, is stored already.

`Placed` says this of single commits.  A transaction that has read the claim row and commits finds no
generation that was not stored when it began (`owner_base`), so a claim that succeeds has found the
cell free at its commit (`one_owner_per_sri`).
-/
namespace Myrmic
open OrderedBytes Fallible Dialogs OptimisticStore Machine List

/-! ## The newest rows -/

theorem insertNewest_ne_nil {sri : Sri} {genId : Gen} {key : String} {v : Bytes}
    {rows : List (Sri × Gen × String × Bytes)} : insertNewest sri genId key v rows ≠ [] := by
  cases rows with
  | nil => simp [insertNewest]
  | cons row rows =>
    simp only [insertNewest]
    split
    · simp
    · split <;> simp
    · simp

theorem newest_ne_nil [UuidText] {R T : Type} [Stored R] (assemble : Sri → Gen → R → T)
    {es : List (String × Bytes)} (h : es ≠ []) : newest assemble es ≠ [] := by
  cases es with
  | nil => exact absurd rfl h
  | cons e es =>
    cases hpa : parseGenerationKey e.1 with
    | none => simp [newest, hpa]
    | some named =>
      simp only [newest, foldl_cons, hpa, ne_eq, append_eq_nil_iff, map_eq_nil_iff, not_and]
      refine fun hni => absurd hni ?_
      refine foldlRecOn (motive := (· ≠ [])) _ _
        insertNewest_ne_nil fun rows hro e _ => ?_
      split
      · exact insertNewest_ne_nil
      · exact hro

/-! ## What the bodies do -/

/-- The row that excludes a second claim. -/
def claimRow (sri : Sri) : RowKey := .kv placementScope (placementClaimKey sri)

theorem genRow_ne_claimRow {sri : Sri} {genId : Gen} :
    genRow placementScope sri genId ≠ claimRow sri := by
  intro h
  injection h with _ hk
  exact placementClaimKey_not_isPrefix (hk ▸ generationsOf_isPrefix sri genId)

theorem genRow_injective {scope : ApiScope} {sri : Sri} {genId genId' : Gen}
    (h : genRow scope sri genId = genRow scope sri genId') : genId = genId' := by
  injection h with _ hk
  exact generationKey_injective sri hk

section Bodies
variable [Sha2] [UuidText] [Stored PlacementRow] (tx : RowTx) (entry : PlacementEntry)

/-- A claim writes nothing, or it has found no generation and writes its own and the claim row. -/
theorem run_doClaim : (∃ r, (doClaim entry).run serveRow tx = (r, (tx.get (claimRow entry.sri)).2) ∧
      r ≠ .ok .claimed) ∨
    (doClaim entry).run serveRow tx = (.ok .claimed, ((tx.get (claimRow entry.sri)).2.put
        (claimRow entry.sri) []).put (genRow placementScope entry.sri entry.genId)
          (Stored.toAllocvec entry.row)) ∧
      ∀ genId, ¬HasRow placementScope entry.sri tx.view genId := by
  have hru : (doClaim entry).run serveRow tx = _ :=
    Dialog.run_bind (getPlacementInTx entry.sri) _ (tx.get (claimRow entry.sri)).2
  have hfo : (getPlacementInTx entry.sri).run serveRow (tx.get (claimRow entry.sri)).2 = _ :=
    Dialog.run_bind (GenerationRows.list placementScope (generationsOf entry.sri)) _ _
  have hli : (GenerationRows.list placementScope (generationsOf entry.sri)).run serveRow
      (tx.get (claimRow entry.sri)).2 = (.ok (kvRows tx.view placementScope
        (generationsOf entry.sri)), (tx.get (claimRow entry.sri)).2) := rfl
  simp only [hli] at hfo
  rw [hru, hfo]
  cases hre : (newestPlacements (kvRows tx.view placementScope (generationsOf entry.sri))).mapM
      fun pl => pl with
  | error e => exact .inl ⟨_, rfl, by simp⟩
  | ok pls =>
    dsimp only
    cases hla : pls.getLast? with
    | some found => exact .inl ⟨_, rfl, by simp⟩
    | none =>
      refine .inr ⟨rfl, ?_⟩
      rintro genId ⟨row, hro⟩
      have hentry := mem_kvRows.mpr ⟨generationsOf_isPrefix entry.sri genId, hro⟩
      obtain ⟨pl, hpl⟩ := exists_mem_of_ne_nil _
        (newest_ne_nil PlacementEntry.fromRow (ne_nil_of_mem hentry))
      obtain ⟨found, hfo, -⟩ := exists_of_mapM hre hpl
      rw [List.getLast?_eq_none_iff.mp hla] at hfo
      cases hfo

/-- A commit of a placement writes nothing, or the row of its generation, which is stored. -/
theorem run_doCommitPlacement (hca : Canonical placementScope entry.sri tx.view) :
    (∃ r, (doCommitPlacement entry).run serveRow tx =
        (r, (tx.get (genRow placementScope entry.sri entry.genId)).2) ∧ r ≠ .ok .applied) ∨
    (doCommitPlacement entry).run serveRow tx =
        (.ok .applied, (tx.get (genRow placementScope entry.sri entry.genId)).2.put
          (genRow placementScope entry.sri entry.genId) (Stored.toAllocvec entry.row)) ∧
      HasRow placementScope entry.sri tx.view entry.genId := by
  have hru : (doCommitPlacement entry).run serveRow tx = _ :=
    Dialog.run_bind (GenerationRows.admitted placementScope entry.sri entry.genId) _ tx
  rw [hru, run_admitted]
  cases hge : generations? placementScope entry.sri tx with
  | error e => exact .inl ⟨_, rfl, by simp⟩
  | ok gens =>
    cases had : fenceAdmission gens.max? entry.genId with
    | ok u => exact .inr ⟨by simp only [Except.map, had]; rfl,
        hasRow_of_admission hca hge had⟩
    | error oc =>
      refine .inl ⟨.ok oc, by simp only [Except.map, had]; rfl, ?_⟩
      rintro ⟨⟩
      unfold fenceAdmission at had
      split at had
      · cases had
      · split at had <;> cases had

omit [Stored PlacementRow] in
/-- A removal writes nothing, or it deletes the row of its generation and the claim row. -/
theorem run_doRemovePlacement {sri : Sri} {genId : Gen} :
    (∃ e, (doRemovePlacement sri genId).run serveRow tx =
        (.error e, (tx.get (genRow placementScope sri genId)).2)) ∨
      ∃ oc, (doRemovePlacement sri genId).run serveRow tx =
        (.ok oc, ((tx.get (genRow placementScope sri genId)).2.erase
          (genRow placementScope sri genId)).erase (claimRow sri)) := by
  have hr : (doRemovePlacement sri genId).run serveRow tx = _ :=
    Dialog.run_bind (GenerationRows.remove placementScope sri genId) _ tx
  rw [hr]
  rcases run_remove tx genId with ⟨e, he⟩ | ⟨oc, hok⟩
  · rw [he]
    exact .inl ⟨e, rfl⟩
  · rw [hok]
    exact .inr ⟨oc, rfl⟩

end Bodies

/-! ## Commits -/

abbrev Owner (sri : Sri) (log : RowLog) (genId : Gen) : Prop := HasRow placementScope sri log genId

/-- What every commit does to the placements of a cell: it writes rows of generations and the claim row,
and without writing the claim row it makes no generation appear. -/
structure Placed (sri : Sri) (c : Commit RowKey Bytes) (log : RowLog) : Prop where
  rows : ∀ k, c.Writes k → k = claimRow sri ∨ ∃ genId, k = genRow placementScope sri genId ∧
    (c.Writes (claimRow sri) ∨ Owner sri log genId)
  claimed : c.Writes (claimRow sri) ∨ ∀ genId, Owner sri (c :: log) genId → Owner sri log genId
  one : ∀ genId genId', Owner sri (c :: log) genId → Owner sri (c :: log) genId' → genId = genId'

section Commits
variable {sri : Sri} {c : Commit RowKey Bytes} {log newer base : RowLog} {genId genId' : Gen}

theorem writes_pair {ts : Nat} {a b k : RowKey} {v w : Option Bytes} :
    Commit.Writes ⟨ts, [(a, v), (b, w)]⟩ k ↔ k = a ∨ k = b := by simp [Commit.Writes]

variable (h : Built (Placed sri) log)
include h

theorem one_of_built (ho : Owner sri log genId) (ho' : Owner sri log genId') : genId = genId' := by
  cases h with
  | nil =>
    obtain ⟨_, hr⟩ := ho
    cases hr
  | cons _ hc => exact hc.one _ _ ho ho'

theorem canonical_of_built : Canonical placementScope sri log := by
  intro key row hr hs
  obtain ⟨_, hv, -⟩ := Option.bind_eq_some_iff.mp hr
  obtain ⟨c, hc, -, hw⟩ := exists_of_version hv
  have hk : ∀ c ∈ log, ∀ k, c.Writes k → k = claimRow sri ∨
      ∃ genId, k = genRow placementScope sri genId :=
    h.forall_mem fun c log hc k hw => (hc.rows k hw).imp_right fun ⟨genId, hke, _⟩ => ⟨genId, hke⟩
  rcases hk c hc _ hw with hke | ⟨genId, hke⟩
  · injection hke with _ hke
    exact absurd (hke ▸ hs) placementClaimKey_not_isPrefix
  · injection hke with _ hke
    exact ⟨genId, hke⟩

omit h in
/-- Where the claim row is untouched no generation has appeared. -/
theorem owner_base (h : Built (Placed sri) (newer ++ base)) (hu : Untouched newer (claimRow sri))
    (ho : Owner sri (newer ++ base) genId) : Owner sri base genId := by
  induction newer with
  | nil => exact ho
  | cons c newer ih =>
    obtain ⟨hno, hn⟩ := forall_mem_cons.mp hu
    cases h with
    | cons h hc => exact ih h hn (hc.claimed.resolve_left hno genId ho)

omit h in
/-- Where the claim row is untouched since the cell was free, so is every generation. -/
theorem untouched_of_free (h : Built (Placed sri) (newer ++ base))
    (hu : Untouched newer (claimRow sri)) (hf : ∀ genId, ¬Owner sri base genId)
    (genId : Gen) : Untouched newer (genRow placementScope sri genId) := by
  induction newer with
  | nil => exact fun _ hc => absurd hc not_mem_nil
  | cons c newer ih =>
    obtain ⟨hno, hn⟩ := forall_mem_cons.mp hu
    cases h with
    | cons h hc =>
      refine forall_mem_cons.mpr ⟨fun hw => ?_, ih h hn⟩
      rcases hc.rows _ hw with hk | ⟨genId', hk, hwh⟩
      · exact genRow_ne_claimRow hk
      · have ho := hwh.resolve_left hno
        exact hf genId' (owner_base h hn ho)

/-- A commit that makes no generation appear. -/
theorem Placed.of_owner
    (hr : ∀ k, c.Writes k → k = claimRow sri ∨ ∃ genId, k = genRow placementScope sri genId ∧
      (c.Writes (claimRow sri) ∨ Owner sri log genId))
    (ho : ∀ genId, Owner sri (c :: log) genId → Owner sri log genId) : Placed sri c log :=
  ⟨hr, .inr ho, fun _ _ hg hg' => one_of_built h (ho _ hg) (ho _ hg')⟩

omit h in
theorem owner_cons (h : ¬ c.Writes (genRow placementScope sri genId)) :
    Owner sri (c :: log) genId ↔ Owner sri log genId := by
  rw [Owner, HasRow, value_cons_of_not_writes h, Owner, HasRow]

theorem Placed.of_no_writes (ts : Nat) : Placed sri ⟨ts, []⟩ log :=
  .of_owner h (fun _ hw => absurd hw not_mem_nil) fun _ => (owner_cons not_mem_nil).mp

omit h in
/-- A commit of a claim that has found the cell free. -/
theorem placed_claim (h : Built (Placed sri) (newer ++ base))
    (hu : Untouched newer (claimRow sri)) (hf : ∀ genId, ¬Owner sri base genId) {ts : Nat}
    {row : Bytes} : Placed sri ⟨ts, [(genRow placementScope sri genId, some row),
      (claimRow sri, some [])]⟩ (newer ++ base) := by
  have how : ∀ genId', Owner sri (⟨ts, [(genRow placementScope sri genId, some row),
      (claimRow sri, some [])]⟩ :: (newer ++ base)) genId' → genId' = genId := by
    intro genId' ho
    by_contra hne
    refine hf genId' (owner_base h hu ((owner_cons ?_).mp ho))
    intro hw
    rcases writes_pair.mp hw with hk | hk
    · exact hne (genRow_injective hk)
    · exact genRow_ne_claimRow hk
  refine ⟨fun k hw => ?_, .inl (writes_pair.mpr (.inr rfl)),
    fun g g' hg hg' => (how g hg).trans (how g' hg').symm⟩
  rcases writes_pair.mp hw with rfl | rfl
  · exact .inr ⟨genId, rfl, .inl (writes_pair.mpr (.inr rfl))⟩
  · exact .inl rfl

/-- A commit that writes the row of a generation that holds the cell. -/
theorem placed_commit (ho : Owner sri log genId) {ts : Nat} {row : Bytes} :
    Placed sri ⟨ts, [(genRow placementScope sri genId, some row)]⟩ log := by
  refine .of_owner h (fun k hw => ?_) fun genId' ho' => ?_
  · rw [mem_singleton.mp hw]
    exact .inr ⟨genId, rfl, .inr ho⟩
  · by_cases heq : genId' = genId
    · exact heq ▸ ho
    · refine (owner_cons fun hw => heq ?_).mp ho'
      exact genRow_injective (mem_singleton.mp hw)

end Commits

/-! ## Runs -/

/-- The calls that change the placement of a cell. -/
def RegistryCall.Places (sri : Sri) : RegistryCall → Prop
  | claimPlacement entry => entry.sri = sri
  | commitPlacement entry => entry.sri = sri
  | removePlacement sri' _ => sri' = sri
  | _ => False

section Runs
open OptimisticStore.Tx
variable [Sha2] [UuidText] [Stored PlacementRow] [Stored InstanceRow] [Stored CellDeployment]
  [Stored RootDeath] {sri : Sri} {entry : PlacementEntry} {genId : Gen}
  {tx : RowTx} {newer : RowLog} {hentry : RegistryCall.Places sri (.claimPlacement entry)}

theorem claim_finished {r : Except String PlacementClaimOutcome}
    (h : Finished serveRow (bodyOf (RegistryCall.Places sri)) ⟨.claimPlacement entry, hentry⟩ r tx
      newer) : tx.own = [] ∧ r ≠ .ok .claimed ∨
      tx.own = [(genRow placementScope sri entry.genId, some (Stored.toAllocvec entry.row)),
        (claimRow sri, some [])] ∧
      (∀ genId, ¬Owner sri tx.base genId) ∧ Untouched newer (claimRow sri) := by
  have hs : entry.sri = sri := hentry
  subst hs
  have hru : (doClaim entry).run serveRow _ = (r, tx) := h.run
  rcases run_doClaim _ entry with ⟨_, hr', hne⟩ | ⟨hc, hf⟩
  · obtain ⟨rfl, htx⟩ := Prod.mk.inj (hr'.symm.trans hru)
    exact .inl ⟨(congrArg own htx).symm, hne⟩
  · obtain ⟨rfl, htx⟩ := Prod.mk.inj (hc.symm.trans hru)
    have ht : [claimRow entry.sri] = tx.tracked := congrArg tracked htx
    refine .inr ⟨(congrArg own htx).symm, fun genId ho => ?_,
      h.untouched _ (ht ▸ mem_singleton_self _)⟩
    obtain ⟨row, hro⟩ := ho
    exact hf genId ⟨row, (value_view_start ..).trans hro⟩

variable {r : Except String FenceOutcome} (hbu : Built (Placed sri) (newer ++ tx.base))
include hbu

theorem commit_finished {hentry : RegistryCall.Places sri (.commitPlacement entry)}
    (h : Finished serveRow (bodyOf (RegistryCall.Places sri)) ⟨.commitPlacement entry, hentry⟩ r tx
      newer) : tx.own = [] ∧ r ≠ .ok .applied ∨
      tx.own = [(genRow placementScope sri entry.genId, some (Stored.toAllocvec entry.row))] ∧
      Owner sri (newer ++ tx.base) entry.genId := by
  have hsr : entry.sri = sri := hentry
  subst hsr
  have hru : (doCommitPlacement entry).run serveRow _ = (r, tx) := h.run
  have hca : Canonical placementScope entry.sri (start tx.ts tx.base).view := by
    intro key row hro
    exact canonical_of_built hbu.of_append key row ((value_view_start ..).symm.trans hro)
  rcases run_doCommitPlacement _ entry hca with ⟨_, hr', hne⟩ | ⟨hap, row, hro⟩
  · obtain ⟨rfl, htx⟩ := Prod.mk.inj (hr'.symm.trans hru)
    exact .inl ⟨(congrArg own htx).symm, hne⟩
  · obtain ⟨rfl, htx⟩ := Prod.mk.inj (hap.symm.trans hru)
    have htr : [genRow placementScope entry.sri entry.genId] = tx.tracked := congrArg tracked htx
    refine .inr ⟨(congrArg own htx).symm, row, ?_⟩
    rw [value_append_of_untouched (h.untouched _ (htr ▸ mem_singleton_self _))]
    exact (value_view_start ..).symm.trans hro

omit hbu in
theorem removal_finished {hs : RegistryCall.Places sri (.removePlacement sri genId)}
    (h : Finished serveRow (bodyOf (RegistryCall.Places sri)) ⟨.removePlacement sri genId, hs⟩ r tx
      newer) :
    tx.own = [] ∨ tx.own = [(claimRow sri, none), (genRow placementScope sri genId, none)] := by
  have hr : (doRemovePlacement sri genId).run serveRow _ = (r, tx) := h.run
  rcases run_doRemovePlacement _ with ⟨e, he⟩ | ⟨_, hok⟩
  · exact .inl (congrArg (fun p => own p.2) (he.symm.trans hr)).symm
  · exact .inr (congrArg (fun p => own p.2) (hok.symm.trans hr)).symm

variable {call : {call // RegistryCall.Places sri call}} {r : Except String (CallResult _ call)}
  (h : Finished serveRow (bodyOf (RegistryCall.Places sri)) call r tx newer)
  {st st' st₁ st₂ st₃ : RegistryDb (RegistryCall.Places sri)} {i j : Nat}
include h

theorem placed_of_finished : Placed sri tx.commit (newer ++ tx.base) := by
  have hno : tx.own = [] → Placed sri tx.commit (newer ++ tx.base) := by
    intro hown
    rw [OptimisticStore.Tx.commit, hown]
    exact .of_no_writes hbu tx.ts
  obtain ⟨call, hca⟩ := call
  cases call with
  | claimPlacement entry =>
    rcases claim_finished h with ⟨hown, -⟩ | ⟨hown, hfr, hun⟩
    · exact hno hown
    · rw [OptimisticStore.Tx.commit, hown]
      exact placed_claim hbu hun hfr
  | commitPlacement entry =>
    rcases commit_finished hbu h with ⟨hown, -⟩ | ⟨hown, how⟩
    · exact hno hown
    · rw [OptimisticStore.Tx.commit, hown]
      exact placed_commit hbu how
  | removePlacement sri' genId =>
    cases hca
    rcases removal_finished h with hown | hown
    · exact hno hown
    · rw [OptimisticStore.Tx.commit, hown]
      refine .of_owner hbu (fun k hw => ?_) fun genId' ho => ?_
      · rcases writes_pair.mp hw with rfl | rfl
        · exact .inl rfl
        · exact .inr ⟨genId, rfl, .inl (writes_pair.mpr (.inl rfl))⟩
      · obtain ⟨row, hr⟩ := ho
        by_cases heq : genId' = genId
        · subst heq
          refine ⟨row, value_of_value_cons_delete ?_ hr⟩
          simp [Commit.write, genRow_ne_claimRow.symm]
        · refine (owner_cons fun hw => ?_).mp ⟨row, hr⟩
          rcases writes_pair.mp hw with hk | hk
          · exact genRow_ne_claimRow hk
          · exact heq (genRow_injective hk)
  | _ => exact hca.elim

omit h in
omit hbu in
theorem owner_claimed (hb : Built (Placed sri) (newer ++ tx.base))
    (h : Finished serveRow (bodyOf (RegistryCall.Places sri)) ⟨.claimPlacement entry, hentry⟩
      (.ok .claimed) tx newer) : Owner sri (tx.commit :: (newer ++ tx.base)) entry.genId := by
  rcases claim_finished h with ⟨-, hne⟩ | ⟨ho, hf, hu⟩
  · exact absurd rfl hne
  · refine ⟨Stored.toAllocvec entry.row, value_cons_of_latest ?_ fun version hv => ?_⟩
    · simp [OptimisticStore.Tx.commit, Commit.write, ho]
    · -- nothing was written to the row since the claim began
      rw [version_append_of_untouched (untouched_of_free hb hu hf _)] at hv
      obtain ⟨c, hc, hts, -⟩ := exists_of_version hv
      exact hts ▸ h.later c hc

/-- Only the removal of a generation ends its hold on the cell. -/
theorem removal_of_ended (how : Owner sri (newer ++ tx.base) genId)
    (hen : ¬Owner sri (tx.commit :: (newer ++ tx.base)) genId) :
    call.1 = .removePlacement sri genId := by
  have hwr : tx.commit.Writes (genRow placementScope sri genId) := by
    by_contra hnot
    exact hen ((owner_cons hnot).mpr how)
  have hown : tx.own ≠ [] := by
    intro hown
    rw [Commit.Writes, OptimisticStore.Tx.commit, hown] at hwr
    cases hwr
  obtain ⟨call, hca⟩ := call
  cases call with
  | claimPlacement entry =>
    rcases claim_finished h with ⟨hno, -⟩ | ⟨-, hfr, hun⟩
    · exact absurd hno hown
    · exact absurd (owner_base hbu hun how) (hfr genId)
  | commitPlacement entry =>
    rcases commit_finished hbu h with ⟨hno, -⟩ | ⟨hpu, -⟩
    · exact absurd hno hown
    · rw [Commit.Writes, OptimisticStore.Tx.commit, hpu] at hwr
      have heq : genId = entry.genId := genRow_injective (mem_singleton.mp hwr)
      have hwri : tx.commit.write (genRow placementScope sri genId) =
          some (some (Stored.toAllocvec entry.row)) := by
        simp [OptimisticStore.Tx.commit, Commit.write, hpu, heq]
      rcases value_cons_cases hwri with hne | hold
      · exact absurd ⟨_, hne⟩ hen
      · exact absurd (how.imp fun _ hro => hold.trans hro) hen
  | removePlacement sri' genId' =>
    cases hca
    rcases removal_finished h with hno | hre
    · exact absurd hno hown
    · rw [OptimisticStore.Tx.commit, hre] at hwr
      rcases writes_pair.mp hwr with hke | hke
      · exact absurd hke genRow_ne_claimRow
      · rw [genRow_injective hke]
  | _ => exact hca.elim

omit h

omit hbu

variable (sri) in
/-- A run of calls that change the placement of a cell, interleaved in any way. -/
abbrev PlacementRun :
    RegistryDb (RegistryCall.Places sri) → RegistryDb (RegistryCall.Places sri) → Prop :=
  Reached (Db.step serveRow (bodyOf (RegistryCall.Places sri))) fun _ _ => True

theorem PlacementRun.built {st : RegistryDb (RegistryCall.Places sri)}
    (h : PlacementRun sri Db.start st) : Built (Placed sri) st.log := by
  refine reached_built serveRow_lawful ?_ h
  intro st i call tx rest r newer _ _ hn hf hb
  rw [hn] at hb ⊢
  exact placed_of_finished hb hf

theorem PlacementRun.finished (hr : PlacementRun sri Db.start st)
    (h : st.Commits serveRow (bodyOf _) i call r st') :
    ∃ tx newer, st.log = newer ++ tx.base ∧ st'.log = tx.commit :: (newer ++ tx.base) ∧
      Finished serveRow (bodyOf _) call r tx newer ∧ Built (Placed sri) (newer ++ tx.base) := by
  obtain ⟨tx, newer, hl, hl', hf⟩ := h.finished (Db.reached_sound serveRow_lawful hr)
  exact ⟨tx, newer, hl, hl ▸ hl', hf, hl ▸ hr.built⟩

/-- Between two claims that succeed, the placement of the first one is removed. -/
theorem PlacementRun.removed_between (hrun : PlacementRun sri Db.start st)
    {first second : PlacementEntry} {hfir : first.sri = sri} {hse : second.sri = sri}
    (hcl : st.Commits serveRow (bodyOf _) i ⟨.claimPlacement first, hfir⟩ (.ok .claimed) st₁)
    (hla : PlacementRun sri st₁ st₂)
    (hcl' : st₂.Commits serveRow (bodyOf _) j ⟨.claimPlacement second, hse⟩ (.ok .claimed)
      st₃) : ∃ mid k r mid', PlacementRun sri st₁ mid ∧
      mid.Commits serveRow (bodyOf _) k ⟨.removePlacement sri first.genId, rfl⟩ r mid' ∧
      PlacementRun sri mid' st₂ ∧ Owner sri mid.log first.genId ∧ ¬Owner sri mid'.log first.genId := by
  obtain ⟨_, _, -, -, hst₁, -⟩ := id hcl
  have hrun₁ : PlacementRun sri Db.start st₁ := .tail _ hrun trivial hst₁
  have how : Owner sri st₁.log first.genId := by
    obtain ⟨tx, newer, -, hlo, hfi, hbu⟩ := hrun.finished hcl
    exact hlo ▸ owner_claimed hbu hfi
  have hfr : ¬Owner sri st₂.log first.genId := by
    obtain ⟨tx, newer, hlo, -, hfi, hbu⟩ := PlacementRun.finished (hrun₁.trans hla) hcl'
    rcases claim_finished hfi with ⟨-, hne⟩ | ⟨-, hfr, hun⟩
    · exact absurd rfl hne
    · intro hhe
      exact hfr _ (owner_base hbu hun (hlo ▸ hhe))
  obtain ⟨mid, _, mid', hmi, hst, hre, hhe, hen⟩ :=
    hla.exists_end (P := fun st => Owner sri st.log first.genId) how hfr
  have hru : PlacementRun sri Db.start mid := hrun₁.trans hmi
  rcases Db.step_cases (Db.reached_sound serveRow_lawful hru) hst with
    hsa | ⟨k, call, r, hco⟩
  · exact absurd (hsa ▸ hhe) hen
  · obtain ⟨tx, newer, hlo, hlo', hfi, hbu⟩ := hru.finished hco
    have hca := removal_of_ended hbu hfi (hlo ▸ hhe) (hlo' ▸ hen)
    obtain ⟨call, _⟩ := call
    cases hca
    exact ⟨mid, k, r, mid', hmi, hco, hre, hhe, hen⟩

/-- **A cell has one owner.**  In every state of every run of claims, commits and removals of placements
of a cell: at most one generation is stored; a claim succeeds after another one only when the other's
placement has been removed in between; a commit of a placement is applied only where its generation
is stored and the newest; and a removal leaves the rows of other generations. -/
theorem one_owner_per_sri (hrun : PlacementRun sri Db.start st) :
    (∀ genId genId', Owner sri st.log genId → Owner sri st.log genId' → genId = genId') ∧
    (∀ (first second : PlacementEntry) (hfirst : first.sri = sri) (hsecond : second.sri = sri) i j st₁ st₂ st₃,
      st.Commits serveRow (bodyOf _) i ⟨.claimPlacement first, hfirst⟩ (.ok .claimed) st₁ →
      PlacementRun sri st₁ st₂ →
      st₂.Commits serveRow (bodyOf _) j ⟨.claimPlacement second, hsecond⟩ (.ok .claimed) st₃ →
      ∃ mid k r mid', PlacementRun sri st₁ mid ∧
        mid.Commits serveRow (bodyOf _) k ⟨.removePlacement sri first.genId, rfl⟩ r mid' ∧
        PlacementRun sri mid' st₂ ∧
        Owner sri mid.log first.genId ∧ ¬Owner sri mid'.log first.genId) ∧
    (∀ (entry : PlacementEntry) (hentry : entry.sri = sri) i st',
      st.Commits serveRow (bodyOf _) i ⟨.commitPlacement entry, hentry⟩ (.ok .applied) st' →
      Owner sri st.log entry.genId ∧ ∀ genId, Owner sri st.log genId → genId ≤ entry.genId) ∧
    ∀ genId i r st', st.Commits serveRow (bodyOf _) i ⟨.removePlacement sri genId, rfl⟩ r st' →
      ∀ genId', genId' ≠ genId → value st'.log (genRow placementScope sri genId') =
        value st.log (genRow placementScope sri genId') := by
  have hon : ∀ genId genId', Owner sri st.log genId → Owner sri st.log genId' → genId = genId' :=
    fun _ _ => one_of_built hrun.built
  refine ⟨hon, ?_, ?_, ?_⟩
  · intro first second _ _ i j st₁ st₂ st₃ hcl hla hcl'
    exact hrun.removed_between hcl hla hcl'
  · intro entry _ i st' hco
    obtain ⟨tx, newer, hlo, -, hfi, hbu⟩ := hrun.finished hco
    rcases commit_finished hbu hfi with ⟨-, hne⟩ | ⟨-, how⟩
    · exact absurd rfl hne
    · rw [← hlo] at how
      exact ⟨how, fun genId hhe => (hon genId _ hhe how).le⟩
  · intro genId i r st' hco genId' hne
    obtain ⟨tx, newer, hlo, hlo', hfi, -⟩ := hrun.finished hco
    rw [hlo', hlo]
    refine value_cons_of_not_writes fun hwr => ?_
    rcases removal_finished hfi with hown | hown
    · rw [Commit.Writes, OptimisticStore.Tx.commit, hown] at hwr
      cases hwr
    · rw [OptimisticStore.Tx.commit, hown] at hwr
      rcases writes_pair.mp hwr with hke | hke
      · exact genRow_ne_claimRow hke
      · exact hne (genRow_injective hke)

end Runs
namespace PlacementSample

def sri : Sri := .fill 16 1

/-- The placement of the cell that a claim of a generation writes. -/
def entry (genId : Gen) : PlacementEntry := ⟨sri, .placeholder, none, genId⟩

scoped instance sha2 : Sha2 := ⟨fun _ => .fill 32 0⟩

abbrev Act := Action {call // RegistryCall.Places sri call}

def claim (i : Nat) (genId : Gen) : Act := .begin i ⟨.claimPlacement (entry genId), rfl⟩

/-- Two claims that overlap: both find the cell free, and the commit of the second is refused. -/
def overlap : List Act :=
  [claim 0 ⟨1, 1⟩, claim 1 ⟨2, 1⟩, .request 0, .request 1, .request 1, .request 0, .request 0,
    .request 1, .request 1, .request 0, .commit 0, .commit 1]

/-- The first placement is removed, and the second generation claims the cell again. -/
def handover : List Act :=
  [.begin 2 ⟨.removePlacement sri ⟨1, 1⟩, rfl⟩, .request 2, .request 2, .request 2, .request 2,
    .commit 2, claim 3 ⟨2, 1⟩, .request 3, .request 3, .request 3, .request 3, .commit 3]

/-- A generation is stored and the log has so many commits. -/
def HasAfter (genId : Gen) (commits : Nat) (st : RegistryDb (RegistryCall.Places sri)) : Prop :=
  (value st.log (genRow placementScope sri genId)).isSome = true ∧ st.log.length = commits

instance (genId : Gen) (commits : Nat) : DecidablePred (HasAfter genId commits) :=
  fun _ => inferInstanceAs (Decidable (_ ∧ _))

end PlacementSample

open PlacementSample in
/-- Of two claims that overlap one is committed and its generation is the one owner; when it has been
removed, the other generation becomes the one owner. -/
theorem one_owner_per_sri_claimed : ∃ st st', PlacementRun sri Db.start st ∧
    PlacementRun sri st st' ∧ st.log.length = 1 ∧
    (∀ genId, Owner sri st.log genId ↔ genId = ⟨1, 1⟩) ∧
    ∀ genId, Owner sri st'.log genId ↔ genId = ⟨2, 1⟩ := by
  obtain ⟨st, hr, ⟨hf, hl⟩, hlater⟩ : ∃ st, PlacementRun sri Db.start st ∧ HasAfter ⟨1, 1⟩ 1 st ∧
      (runAllowed (Db.step serveRow (bodyOf _)) (fun _ _ => True) st handover).any
        (HasAfter ⟨2, 1⟩ 3 ·) = true :=
    exists_reached overlap (by decide +kernel)
  obtain ⟨st', hr', hs, -⟩ : ∃ st', PlacementRun sri st st' ∧ HasAfter ⟨2, 1⟩ 3 st' :=
    exists_reached handover hlater
  have ho : Owner sri st.log ⟨1, 1⟩ := Option.isSome_iff_exists.mp hf
  have ho' : Owner sri st'.log ⟨2, 1⟩ := Option.isSome_iff_exists.mp hs
  refine ⟨st, st', hr, hr', hl, fun genId => ⟨fun hh => ?_, fun he => he ▸ ho⟩,
    fun genId => ⟨fun hh => ?_, fun he => he ▸ ho'⟩⟩
  · exact (one_owner_per_sri hr).1 genId _ hh ho
  · exact (one_owner_per_sri (hr.trans hr')).1 genId _ hh ho'

end Myrmic
