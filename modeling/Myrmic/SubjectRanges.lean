import Myrmic.KeySpace
import Myrmic.Replication

/-!
# The sync points of a subject

A replica handle is responsible for a **subject**: a namespace, a database or one scope.  Which scopes
that are is decided on names (`Subject.contains`), which sync points it scans on the bytes of their keys
(`rangeFromSubject`).  `subject_range_matches` says that these agree, so that a scan does not run over
into names that merely begin alike.
-/
namespace Myrmic
open OrderedBytes SegmentedKeys Fallible

/-- The fields of a sync point's key that a subject gives. -/
def Subject.fields : Subject → List (Field .written)
  | .nameSpace ns => [.str ns]
  | .database ns db => [.str ns, .str db]
  | .scope s => s.values

theorem Subject.typed (subject : Subject) :
    subject.fields.map Field.kind <+: KeyModel.syncPoint.fields := by
  cases subject <;> exact ⟨_, rfl⟩

/-- The keys of the sync points of a subject. -/
def rangeFromSubject (subject : Subject) : Except String (Bytes × Bytes) :=
  context "unable to construct sync point range"
    (Builder.range ⟨.syncPoint, subject.fields, subject.typed⟩)

variable (subject : Subject)

/-- A subject's fields begin a sync point's key when it contains the scope. -/
theorem Subject.isPrefix_iff {p : SyncPoint} :
    encodeSteps (keyCodec .written) KeyModel.syncPoint.segments subject.fields <+: p.encode ↔
      subject.contains p.scope = true := by
  rw [← encode_syncPoint, encodeSteps_isPrefix_iff (C := keyCodec _) subject.typed ⟨[], rfl⟩]
  · have hs : ∀ a b : Name, (Field.str a : Field .written) = .str b ↔ b = a := by simp [eq_comm]
    obtain ⟨⟨_, _, _⟩, _, _, _⟩ := p
    rcases subject with _ | _ | ⟨_, _, _⟩ <;>
      simp [fields, contains, SyncPoint.values, Scope.values, hs, -Field.str.injEq]
  · cases subject <;> simp [fields, SyncPoint.values, Scope.values]

theorem Subject.head_fields : (encodeSteps (keyCodec .written) KeyModel.syncPoint.segments
    subject.fields).head? = some '#'.toUInt8 := rfl

/-- **The range of a subject holds the sync points of its scopes**: a sync point's key lies in it exactly
if the subject contains the scope, and a scan of it meets all sync points of these scopes that a store
holds, and no others. -/
theorem subject_range_matches [Postcard] : ∃ lower upper,
    rangeFromSubject subject = .ok (lower, upper) ∧
    (∀ p : SyncPoint, ((compare lower p.encode).isLE = true ∧ compare p.encode upper = .lt) ↔
      subject.contains p.scope = true) ∧
    ∀ ks, WellFormed ks → ∃ points heads, findSyncPointsRev ks lower upper = .ok points ∧
      (∀ p m, (p, m) ∈ points ↔ subject.contains p.scope = true ∧ metaAt ks p = some m) ∧
      collectLatestHeads ks lower upper = .ok heads ∧
      ∀ p m, (p, m) ∈ heads ↔ subject.contains p.scope = true ∧ IsHead ks p m := by
  obtain ⟨lower, upper, hr, hk⟩ := Builder.range_spec ⟨.syncPoint, subject.fields, subject.typed⟩
  obtain ⟨rfl, hu⟩ := keyRange_eq_ok hr
  refine ⟨_, upper, by rw [rangeFromSubject, hr, context_ok], fun p => ?_, fun ks h => ?_⟩
  · rw [← hk, ← subject.isPrefix_iff]
    rfl
  · obtain ⟨L, -, hre, hm, -⟩ := listing_spec h _ subject.head_fields
    obtain ⟨H, hh, hmh, -⟩ := collectLatestHeads_region h subject.head_fields hu
      fun {p q} hs hp => subject.isPrefix_iff.mpr (by
        rw [hs.2]
        exact subject.isPrefix_iff.mp hp)
    refine ⟨L.reverse, H, ?_, fun p m => ?_, hh, fun p m => ?_⟩
    · exact (congrArg (·.reverse.mapM readSyncPointRev) (Store.rangeOf_eq_prefixOf hu)).trans hre
    · rw [List.mem_reverse, hm, subject.isPrefix_iff]
    · rw [hmh, subject.isPrefix_iff]

end Myrmic
