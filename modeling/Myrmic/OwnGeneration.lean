import Myrmic.UndeployRuns

/-!
# Releasing one's own generation

An undeploy acts on the generation it has found, and the rollback of a deploy on the generations it has
claimed.  Placements and instances are removed by generation.  Specs, routes and assets are not: they
are kept by cell alone, and an undeploy that is late erases the spec of the generation that has come
after (`late_undeploy_erases_newer_spec`).

`releases_own_generation` is about runs in which **specs, routes and assets are released only while no
newer generation of the cell has been claimed**: then nothing of a newer generation is ever removed.
Rows do not say which generation wrote them, so that the model keeps it beside them; that these authors
are lives that were claimed is an invariant of every run (`AuthorsLive`).
-/
namespace Myrmic
open KeyedTables Processes Machine List
namespace Orchestration

/-- The cell whose rows a request removes. -/
def cleans : Request → Option Sri
  | .db (.eraseSpec sri) => some sri
  | .db (.deleteRoutes owner _) => some owner
  | .db (.unlinkAssets owner _) => some owner
  | .db (.removePlacement sri _) => some sri
  | .db (.removeInstanceRow sri _) => some sri
  | _ => none

/-- The generations of a cell that an undeploy or a deploy acts for. -/
def ownGens (sri : Sri) (history : List OrchEvent) : OrchTask → List Gen
  | .undeploy s => if s = sri then (lifeFound history).toList else []
  | .deploy _ => ((seen claimedIn history).filter fun claim => claim.1 = sri).map Prod.snd
  | _ => []

/-- Nothing of a cell that is newer than a generation is removed. -/
structure KeepsNewer (sri : Sri) (genId : Gen) (reg reg' : Registries) : Prop where
  specs : ∀ s ∈ reg.specs, s.deployment.sri = sri → genId < s.author → s ∈ reg'.specs
  routes : ∀ r ∈ reg.routes, r.owner = sri → genId < r.author → r ∈ reg'.routes
  assets : ∀ a ∈ reg.assets, a.owner = sri → genId < a.author → a ∈ reg'.assets
  placements : ∀ p ∈ reg.placements, p.sri = sri → genId < p.genId → p ∈ reg'.placements
  instances : ∀ i ∈ reg.instances, i.sri = sri → genId < i.genId → i ∈ reg'.instances

/-- No generation of the cell that is newer than those a task acts for has been claimed. -/
def noNewerLife (w : OrchWorld) (task : OrchTask) (history : List OrchEvent) (sri : Sri) : Bool :=
  w.state.reg.lives.all fun life =>
    life.deployment.sri ≠ sri || (ownGens sri history task).all fun genId => life.genId ≤ genId

/-- **The condition on a step**: it is about the rows that are kept by cell alone. -/
def releasesInTime (w : OrchWorld) (action : OrchAction) : Bool :=
  match servedBy w action with
  | some ⟨_, task, history, .db (.eraseSpec sri), _⟩ => noNewerLife w task history sri
  | some ⟨_, task, history, .db (.deleteRoutes owner _), _⟩ => noNewerLife w task history owner
  | some ⟨_, task, history, .db (.unlinkAssets owner _), _⟩ => noNewerLife w task history owner
  | _ => true

/-! ## Authors -/

/-- What is stored of specs, routes and assets was written by lives that were claimed. -/
structure AuthorsLive (reg : Registries) : Prop where
  specs : ∀ s ∈ reg.specs, isLife reg s.deployment.sri s.author = true
  routes : ∀ r ∈ reg.routes, isLife reg r.owner r.author = true
  assets : ∀ a ∈ reg.assets, isLife reg a.owner a.author = true

section Authors
variable {reg reg' : Registries} {w w' : OrchWorld} {action : OrchAction} {start : Swarm}
  {sri : Sri} {genId : Gen} {allowed : OrchWorld → OrchAction → Prop} {dep : CellDeployment}
  {task : OrchTask} {hist : List OrchEvent} {entry : PlacementEntry}

theorem isLife_mono (hli : ∀ life ∈ reg.lives, life ∈ reg'.lives) (h : isLife reg sri genId = true) :
    isLife reg' sri genId = true := by
  obtain ⟨life, hm, hl⟩ := any_eq_true.mp h
  exact any_eq_true.mpr ⟨life, hli life hm, hl⟩

theorem perform_lives (c : DbCall) : ∀ life ∈ reg.lives, life ∈ (c.perform reg).2.lives := by
  intro life hl
  rcases c.lives_cases reg with h | ⟨e, dep, -, h⟩
  · rw [h]
    exact hl
  · rw [h]
    exact mem_cons_of_mem _ hl

theorem lives_step (hs : OrchStepped w action w') :
    ∀ life ∈ w.state.reg.lives, life ∈ w'.state.reg.lives := by
  rcases reg_cases hs with h | ⟨s, c, -, -, h⟩ | ⟨e, -, h⟩
  · rw [h]
    exact fun _ hl => hl
  · rw [h]
    exact perform_lives c
  · rw [(event_frame h).2.2.2.1]
    exact fun _ hl => hl

theorem entry_of_claims (h : sends task hist (.db (.claimPlacement entry dep))) :
    entry.sri = dep.sri := by
  cases task with
  | deploy cells => exact h.2.1
  | _ => exact h.elim

/-- What is known of a claim that was won. -/
def ClaimedLife (w : OrchWorld) (e : OrchEvent) : Prop :=
  ∀ claim ∈ claimedIn e, isLife w.state.reg claim.1 claim.2 = true

theorem claimed_of_reached (h : Reached step allowed ⟨start, []⟩ w) :
    ∀ p ∈ w.procs, ∀ e ∈ p.history, ClaimedLife w e := by
  refine reached_events h (Q := ClaimedLife) (fun _ hp => (not_mem_nil hp).elim) ?_
    (fun _ hst hl claim hc => isLife_mono (lives_step hst) (hl claim hc))
  intro w i fate task hist req next a st tasks hr _ hpr hs claim hc
  have hj := sends_of_keeps (keeps_of_reached hr) hpr
  cases req with
  | db c =>
    cases c with
    | claimPlacement entry dep =>
      rcases call_cases (serve_db hs).1 with ⟨-, rfl, rfl⟩ | ⟨e, -, rfl, -⟩ | ⟨e, -, rfl, -⟩
      · rcases DbCall.perform_claim w.state.reg with hp | ⟨-, hp⟩
        · rw [hp] at hc
          exact (not_mem_nil hc).elim
        · rw [hp] at hc ⊢
          rw [mem_singleton.mp hc]
          refine any_eq_true.mpr ⟨_, mem_cons_self, ?_⟩
          simp [entry_of_claims hj]
      · exact (not_mem_nil hc).elim
      · exact (not_mem_nil hc).elim
    | _ => exact (not_mem_nil hc).elim
  | _ => exact (not_mem_nil hc).elim

theorem authorsLive_of_subset (h : AuthorsLive reg) (hl : ∀ life ∈ reg.lives, life ∈ reg'.lives)
    (hsp : ∀ s ∈ reg'.specs, s ∈ reg.specs ∨ isLife reg' s.deployment.sri s.author = true)
    (hro : ∀ r ∈ reg'.routes, r ∈ reg.routes ∨ isLife reg' r.owner r.author = true)
    (has : ∀ a ∈ reg'.assets, a ∈ reg.assets ∨ isLife reg' a.owner a.author = true) :
    AuthorsLive reg' := by
  refine ⟨fun s hs => ?_, fun r hr => ?_, fun a ha => ?_⟩
  · rcases hsp s hs with hold | hn
    · exact isLife_mono hl (h.specs s hold)
    · exact hn
  · rcases hro r hr with hold | hn
    · exact isLife_mono hl (h.routes r hold)
    · exact hn
  · rcases has a ha with hold | hn
    · exact isLife_mono hl (h.assets a hold)
    · exact hn

/-- What cells write is written by lives that were claimed. -/
theorem authorsLive_event {e : CellEvent} (h : AuthorsLive reg) (hev : event reg e = some reg') :
    AuthorsLive reg' := by
  revert hev
  fun_cases event reg e <;> rintro ⟨⟩
  · exact authorsLive_of_subset h (fun _ h => h) (fun _ h => .inl h) (fun _ h => .inl h)
      fun _ h => .inl h
  · next hli =>
    refine authorsLive_of_subset h (fun _ h => h) (fun _ h => .inl h) (fun r hr => ?_) fun _ h => .inl h
    rcases mem_put.mp hr with ⟨hr, -⟩ | rfl
    · exact .inl hr
    · exact .inr hli
  · next hli =>
    refine authorsLive_of_subset h (fun _ h => h) (fun _ h => .inl h) (fun _ h => .inl h) fun a ha => ?_
    rcases mem_put.mp ha with ⟨ha, -⟩ | rfl
    · exact .inl ha
    · exact .inr hli

theorem claim_of_writes {author : Gen} (h : sends task hist (.db (.writeSpec dep author))) :
    (dep.sri, author) ∈ seen claimedIn hist := by
  cases task with
  | deploy cells => exact h.2
  | _ => exact h.elim

/-- In every run specs, routes and assets are those of lives that were claimed. -/
theorem authorsLive_of_reached (hsta : AuthorsLive start.reg)
    (h : Reached step allowed ⟨start, []⟩ w) : AuthorsLive w.state.reg := by
  induction h with
  | refl => exact hsta
  | @tail w w' action hre hal hst ih =>
    have hste := stepped hst
    rcases reg_cases hste with hreg | ⟨s, c, hs, hreq, hreg⟩ | ⟨e, -, hev⟩
    · rw [hreg]
      exact ih
    · have hli := lives_step hste
      rw [hreg] at hli ⊢
      refine authorsLive_of_subset ih hli (fun spec hsp => ?_)
        (fun r hr => .inl (c.routes_subset _ r hr)) fun a ha => .inl (c.assets_subset _ a ha)
      rcases c.specs_cases w.state.reg with hsa | ⟨dep, author, rfl, hpu⟩ | ⟨sri, rfl, her⟩
      · exact .inl (hsa ▸ hsp)
      · have hju := sends_of_served hre hs
        rw [hreq] at hju
        rw [hpu, mem_put] at hsp
        rcases hsp with ⟨hsp, -⟩ | rfl
        · exact .inl hsp
        · obtain ⟨_, hp, -⟩ := mem_of_served hs
          obtain ⟨e, he, hcl⟩ := mem_seen.mp (claim_of_writes hju)
          have hlif := claimed_of_reached hre _ hp e he _ hcl
          exact .inr (isLife_mono hli hlif)
      · exact .inl (KeyedTables.mem_erase.mp (her ▸ hsp)).1
    · exact authorsLive_event ih hev

end Authors

/-! ## Releases -/

section Releases
variable {reg : Registries} {w w' : OrchWorld} {action : OrchAction} {start : Swarm} {sri : Sri}
  {genId : Gen} {allowed : OrchWorld → OrchAction → Prop} {task : OrchTask} {hist : List OrchEvent}
  {req : Request}

/-- A deploy claims a cell once. -/
def ClaimsOnce (task : OrchTask) (history : List OrchEvent) : Prop :=
  ∀ cells, task = .deploy cells → ∀ sri genId genId', (sri, genId) ∈ seen claimedIn history →
    (sri, genId') ∈ seen claimedIn history → genId = genId'

theorem claim_of_event {a : req.Ans} (h : (sri, genId) ∈ claimedIn ⟨req, a⟩) :
    ∃ entry dep, req = .db (.claimPlacement entry dep) ∧ entry.sri = sri ∧
      entry.genId = genId := by
  cases req with
  | db c =>
    cases c with
    | claimPlacement entry dep =>
      cases a with
      | error e => exact (not_mem_nil h).elim
      | ok oc =>
        cases oc with
        | claimed =>
          cases mem_singleton.mp h
          exact ⟨entry, dep, rfl, rfl, rfl⟩
        | alreadyExists => exact (not_mem_nil h).elim
    | _ => exact (not_mem_nil h).elim
  | _ => exact (not_mem_nil h).elim

theorem claimsOnce_of_reached (h : Reached step allowed ⟨start, []⟩ w) :
    ∀ p ∈ w.procs, ClaimsOnce p.task p.history := by
  refine reached_histories h (I := ClaimsOnce) (nofun) (fun _ hp => (not_mem_nil hp).elim) ?_
  rintro w i fate task hist req next a st tasks hre - hpr - hold cells rfl sri g g' hg hg'
  have hju := sends_of_keeps (keeps_of_reached hre) hpr
  rw [seen_snoc] at hg hg'
  -- a second claim of the cell is of the generation that was claimed before
  have hne : ∀ {g g'}, (sri, g) ∈ seen claimedIn hist → (sri, g') ∈ claimedIn ⟨req, a⟩ → g = g' := by
    intro g g' hbe hcl
    obtain ⟨entry, dep, rfl, rfl, rfl⟩ := claim_of_event hcl
    exact hju.2.2.2 g hbe
  rcases mem_append.mp hg with hg | hg <;> rcases mem_append.mp hg' with hg' | hg'
  · exact hold cells rfl sri g g' hg hg'
  · exact hne hg hg'
  · exact (hne hg' hg).symm
  · obtain ⟨entry, dep, hreq, rfl, rfl⟩ := claim_of_event hg
    obtain ⟨_, _, hreq', -, rfl⟩ := claim_of_event hg'
    rw [hreq] at hreq'
    cases hreq'
    rfl

theorem eq_of_removes {removed : Gen}
    (hr : req = .db (.removePlacement sri removed) ∨ req = .db (.removeInstanceRow sri removed))
    (hj : sends task hist req) (how : genId ∈ ownGens sri hist task) (ho : ClaimsOnce task hist) :
    removed = genId := by
  cases task with
  | undeploy s =>
    have hf : s = sri ∧ lifeFound hist = some genId := by simpa [ownGens] using how
    rcases hr with rfl | rfl
    · exact Option.some.inj (hj.2.1.symm.trans hf.2)
    · exact Option.some.inj (hj.2.symm.trans hf.2)
  | deploy cells =>
    have hc : (sri, genId) ∈ seen claimedIn hist := by simpa [ownGens] using how
    rcases hr with rfl | rfl
    · exact ho cells rfl sri removed genId hj hc
    · exact ho cells rfl sri removed genId hj hc
  | _ => exact (not_mem_nil how).elim

open KeepsNewer

theorem KeepsNewer.refl : KeepsNewer sri genId reg reg :=
  ⟨fun _ h _ _ => h, fun _ h _ _ => h, fun _ h _ _ => h, fun _ h _ _ => h, fun _ h _ _ => h⟩

/-- Where no newer life was claimed, what a life has written is not newer. -/
theorem not_newer_of_releases {s : Served} {author : Gen} (h : releasesInTime w action = true)
    (hs : servedBy w action = some s)
    (hr : s.req = .db (.eraseSpec sri) ∨ (∃ mounts, s.req = .db (.deleteRoutes sri mounts)) ∨
      ∃ paths, s.req = .db (.unlinkAssets sri paths))
    (ho : genId ∈ ownGens sri s.history s.task) (hl : isLife w.state.reg sri author = true) :
    ¬genId < author := by
  have hno : noNewerLife w s.task s.history sri = true := by
    obtain ⟨i, _, _, _, _⟩ := s
    rcases hr with hr | ⟨mounts, hr⟩ | ⟨paths, hr⟩
    all_goals
      cases hr
      simpa only [releasesInTime, hs] using h
  obtain ⟨life, hm, hl⟩ := any_eq_true.mp hl
  have ha := all_eq_true.mp hno life hm
  simp only [Bool.and_eq_true, decide_eq_true_eq] at hl
  obtain ⟨hs, rfl⟩ := hl
  simp only [hs, ne_eq, not_true_eq_false, decide_false, Bool.false_or, all_eq_true,
    decide_eq_true_eq] at ha
  exact not_lt_of_ge (ha genId ho)

/-- **Undeploys and rollbacks remove only what is of their own generation**, or older. -/
theorem releases_own_generation {s : Served} (hstart : AuthorsLive start.reg)
    (h : Reached step (fun w action => releasesInTime w action = true) ⟨start, []⟩ w)
    (hallowed : releasesInTime w action = true) (hs : servedBy w action = some s)
    (hcleans : cleans s.req = some sri) (hown : genId ∈ ownGens sri s.history s.task)
    (hst : step w action = some w') : KeepsNewer sri genId w.state.reg w'.state.reg := by
  have hau := authorsLive_of_reached hstart h
  have hju := sends_of_served h hs
  rcases reg_cases (stepped hst) with hreg | ⟨s', c, hs', hre, hreg⟩ | ⟨e, rfl, -⟩
  · rw [hreg]
    exact refl
  · rw [hs] at hs'
    cases hs'
    obtain ⟨_, hp, -⟩ := mem_of_served hs
    have hon : ClaimsOnce s.task s.history := claimsOnce_of_reached h _ hp
    rw [hreg]
    rw [hre] at hcleans
    cases c with
    | eraseSpec sri' =>
      cases hcleans
      refine { refl with specs := fun spec hsp hsr hne => absurd hne ?_ }
      exact not_newer_of_releases hallowed hs (.inl hre) hown (hsr ▸ hau.specs spec hsp)
    | deleteRoutes owner mounts =>
      cases hcleans
      refine { refl with routes := fun r hr hsr hne => absurd hne ?_ }
      exact not_newer_of_releases hallowed hs (.inr (.inl ⟨mounts, hre⟩)) hown (hsr ▸ hau.routes r hr)
    | unlinkAssets owner paths =>
      cases hcleans
      refine { refl with assets := fun a ha hsr hne => absurd hne ?_ }
      exact not_newer_of_releases hallowed hs (.inr (.inr ⟨paths, hre⟩)) hown (hsr ▸ hau.assets a ha)
    | removePlacement sri' removed =>
      cases hcleans
      have heq := eq_of_removes (.inl hre) hju hown hon
      refine { refl with placements := fun p hp hsr hne => ?_ }
      refine KeyedTables.mem_erase.mpr ⟨hp, fun hke => ?_⟩
      exact hne.ne' ((Prod.mk.inj hke).2.trans heq)
    | removeInstanceRow sri' removed =>
      cases hcleans
      have heq := eq_of_removes (.inr hre) hju hown hon
      refine { refl with instances := fun i hi hsr hne => ?_ }
      refine KeyedTables.mem_erase.mpr ⟨hi, fun hke => ?_⟩
      exact hne.ne' ((Prod.mk.inj hke).2.trans heq)
    | _ => cases hcleans
  · cases hs

end Releases
namespace Sample

/-- An undeploy has found the first life and is about to erase the spec. -/
def undeployFound : List OrchAction := [.start (.undeploy root), .advance 0 .done, .advance 0 .done]

/-- Another undeploy is faster, and the root is deployed again. -/
def overtaken : List OrchAction :=
  undeployed 1 ++ [.start (.deploy [rootDeployment])] ++ deploySteps 2 secondLife otherNode

end Sample
open Orchestration.Sample

/-- **A late undeploy erases the spec of the newer generation**: it has found the first life, and goes on
after the root was undeployed and deployed again. -/
theorem late_undeploy_erases_newer_spec : ∃ w w' s, Reached step (fun _ _ => True) ⟨running, []⟩ w ∧
      servedBy w (.advance 0 .done) = some s ∧ cleans s.req = some root ∧
      firstLife ∈ ownGens root s.history s.task ∧ step w (.advance 0 .done) = some w' ∧
      ¬KeepsNewer root firstLife w.state.reg w'.state.reg := by
  obtain ⟨w, s, hr, hs, hc, ho, w', hst, hb, ha⟩ : ∃ w s,
      Reached step (fun _ _ => True) ⟨running, []⟩ w ∧
      servedBy w (.advance 0 .done) = some s ∧ cleans s.req = some root ∧
      firstLife ∈ ownGens root s.history s.task ∧
      ∃ w' ∈ step w (.advance 0 .done),
        ⟨rootDeployment, secondLife⟩ ∈ w.state.reg.specs ∧ w'.state.reg.specs = [] :=
    exists_reached_some (undeployFound ++ overtaken) (by decide +kernel)
  refine ⟨w, w', s, hr, hs, hc, ho, hst, fun hke => ?_⟩
  have hn : firstLife < secondLife := by decide
  have hk := hke.specs _ hb rfl hn
  rw [ha] at hk
  exact not_mem_nil hk

theorem running_authorsLive : AuthorsLive running.reg := by
  refine ⟨fun s hs => ?_, fun r hr => (not_mem_nil hr).elim, fun a ha => (not_mem_nil ha).elim⟩
  rw [mem_singleton.mp hs]
  decide +kernel

/-- The undeploy has released everything but the instance row, and the root is deployed again. -/
def Sample.succeeded : List OrchAction :=
  undeployFound ++ replicate 5 (.advance 0 .done) ++ [.start (.deploy [rootDeployment])] ++
    deploySteps 1 secondLife otherNode

/-- An undeploy that has released specs, routes and assets in time removes the instance row of its own
generation last.  By then a newer generation may have been placed: its rows stay. -/
theorem undeploy_in_time :
    ∃ w w' s, servedBy w (.advance 0 .done) = some s ∧ cleans s.req = some root ∧
      step w (.advance 0 .done) = some w' ∧ rootInstance firstLife ∈ w.state.reg.instances ∧
      rootInstance firstLife ∉ w'.state.reg.instances ∧
      ⟨root, .wasm otherNode, none, secondLife⟩ ∈ w.state.reg.placements ∧
      ⟨rootDeployment, secondLife⟩ ∈ w.state.reg.specs ∧
      KeepsNewer root firstLife w.state.reg w'.state.reg := by
  obtain ⟨w, s, hr, hs, ha, hc, ho, w', hst, hi, hi', hp, hsp⟩ : ∃ w s,
      Reached step (fun w action => releasesInTime w action = true) ⟨running, []⟩ w ∧
      servedBy w (.advance 0 .done) = some s ∧ releasesInTime w (.advance 0 .done) = true ∧
      cleans s.req = some root ∧ firstLife ∈ ownGens root s.history s.task ∧
      ∃ w' ∈ step w (.advance 0 .done), rootInstance firstLife ∈ w.state.reg.instances ∧
        rootInstance firstLife ∉ w'.state.reg.instances ∧
        ⟨root, .wasm otherNode, none, secondLife⟩ ∈ w.state.reg.placements ∧
        ⟨rootDeployment, secondLife⟩ ∈ w.state.reg.specs :=
    exists_reached_some succeeded (by decide +kernel)
  exact ⟨w, w', s, hs, hc, hst, hi, hi', hp, hsp,
    releases_own_generation running_authorsLive hr ha hs hc ho hst⟩

end Orchestration

end Myrmic
