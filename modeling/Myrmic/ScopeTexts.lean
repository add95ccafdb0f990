import Myrmic.Custody
import Myrmic.GenerationKeys

/-!
# Scopes in texts

A custody row is stored under its scope's names joined by `/`, and replicas of a scope are located under a
topic with the same text.  Names are refused only for a NUL, so they may hold the separator: **the key
identifies the row's scope and node, and the topic is read back, exactly for** the scopes none of whose
names has a `/` (`scope_texts_exact_iff`).
-/
namespace Myrmic
open OrderedBytes List

def Scope.display (s : Scope) : String :=
  s.nameSpace.val ++ "/" ++ s.database.val ++ "/" ++ s.schema.val

/-- The row's key in the custody table. -/
def CustodyRow.key (row : CustodyRow) : String :=
  row.scope.display ++ "@" ++ String.ofList (hexBytes row.node.bytes)

namespace ReplicaQuery

def locatePrefix : String := "@db/@v1/@-locate"

def format (nameSpace database schema : String) : String :=
  locatePrefix ++ "/" ++ nameSpace ++ "/" ++ database ++ "/" ++ schema

/-- Splits a locate keyexpr back into its names. -/
def parseScope (ke : String) : Except String (String × String × String) :=
  match (locatePrefix.toList.isPrefixOf? ke.toList).bind fun rest => ['/'].isPrefixOf? rest with
  | none => .error "not a locate keyexpr"
  | some rest =>
    match splitOn '/' rest with
    | [nameSpace, database, schema] =>
      .ok (String.ofList nameSpace, String.ofList database, String.ofList schema)
    | _ => .error "expected exactly three chunks after the locate prefix"

end ReplicaQuery

open ReplicaQuery

/-- The topic that the scope's replicas are located under. -/
def Scope.topic (s : Scope) : String :=
  ReplicaQuery.format s.nameSpace.val s.database.val s.schema.val

/-- The scope's texts name it and no other. -/
structure Scope.TextsExact (s : Scope) : Prop where
  key : ∀ (node : NodeId) (row : CustodyRow), CustodyRow.key ⟨s, node⟩ = row.key → row = ⟨s, node⟩
  topic : parseScope s.topic = .ok (s.nameSpace.val, s.database.val, s.schema.val)
  noOther : ∀ t : Scope,
    parseScope t.topic = .ok (s.nameSpace.val, s.database.val, s.schema.val) → t = s

/-- No name has the separator. -/
def Scope.Unsplit (s : Scope) : Prop :=
  '/' ∉ s.nameSpace.val.toList ∧ '/' ∉ s.database.val.toList ∧ '/' ∉ s.schema.val.toList

/-! ## Chunks -/

section Chunks
variable {c : Char} {xs ys : List Char}

theorem splitOn_append_cons (xs ys : List Char) :
    splitOn c (xs ++ c :: ys) = splitOn c xs ++ splitOn c ys :=
  splitOnP_append_cons xs ys (beq_self_eq_true c)

theorem splitOn_of_notMem (h : c ∉ xs) : splitOn c xs = [xs] := by
  have hs : splitOn c ([c].intercalate [xs]) = [xs] := splitOn_intercalate c (by simpa using h) (by simp)
  simpa using hs

theorem of_splitOn_eq_singleton (h : splitOn c xs = [ys]) : ys = xs ∧ c ∉ xs := by
  constructor
  · have hi : [c].intercalate (splitOn c xs) = xs := intercalate_splitOn c
    rw [h] at hi
    simpa using hi
  · intro hc
    obtain ⟨u, v, rfl⟩ := append_of_mem hc
    rw [splitOn_append_cons] at h
    have hl := congrArg length h
    have hu := length_pos_of_ne_nil (splitOn_ne_nil c u)
    have hv := length_pos_of_ne_nil (splitOn_ne_nil c v)
    rw [length_append, length_singleton] at hl
    omega

end Chunks

namespace Scope
variable {s t : Scope}

/-- The chunks of the scope's text: three, and one more for each separator in a name. -/
def chunks (s : Scope) : List (List Char) :=
  splitOn '/' s.nameSpace.val.toList ++
    (splitOn '/' s.database.val.toList ++ splitOn '/' s.schema.val.toList)

theorem splitOn_display (s : Scope) : splitOn '/' s.display.toList = s.chunks := by
  have hd : s.display.toList = s.nameSpace.val.toList ++
      '/' :: (s.database.val.toList ++ '/' :: s.schema.val.toList) := by
    simp [display]
  rw [hd, splitOn_append_cons, splitOn_append_cons, chunks]

theorem Unsplit.chunks_eq (h : s.Unsplit) :
    s.chunks = [s.nameSpace.val.toList, s.database.val.toList, s.schema.val.toList] := by
  rw [chunks, splitOn_of_notMem h.1, splitOn_of_notMem h.2.1, splitOn_of_notMem h.2.2]
  rfl

theorem unsplit_of_chunks {n d m : List Char} (h : s.chunks = [n, d, m]) : s.Unsplit := by
  obtain ⟨a, as, ha⟩ := exists_cons_of_ne_nil (splitOn_ne_nil '/' s.nameSpace.val.toList)
  obtain ⟨b, bs, hb⟩ := exists_cons_of_ne_nil (splitOn_ne_nil '/' s.database.val.toList)
  obtain ⟨e, es, he⟩ := exists_cons_of_ne_nil (splitOn_ne_nil '/' s.schema.val.toList)
  rw [chunks, ha, hb, he] at h
  have hl := congrArg length h
  simp only [length_append, length_cons, length_nil] at hl
  obtain rfl : as = [] := length_eq_zero_iff.mp (by omega)
  obtain rfl : bs = [] := length_eq_zero_iff.mp (by omega)
  obtain rfl : es = [] := length_eq_zero_iff.mp (by omega)
  exact ⟨(of_splitOn_eq_singleton ha).2, (of_splitOn_eq_singleton hb).2, (of_splitOn_eq_singleton he).2⟩

/-- The chunks of an unsplit scope are those of no other. -/
theorem Unsplit.eq_of_chunks (h : s.Unsplit) (he : t.chunks = s.chunks) : t = s := by
  rw [h.chunks_eq] at he
  rw [(unsplit_of_chunks he).chunks_eq] at he
  obtain ⟨⟨n, _⟩, ⟨d, _⟩, ⟨m, _⟩⟩ := t
  obtain ⟨⟨n', _⟩, ⟨d', _⟩, ⟨m', _⟩⟩ := s
  simp only [cons.injEq, String.toList_inj, and_true] at he
  obtain ⟨rfl, rfl, rfl⟩ := he
  rfl

theorem parseScope_topic (s : Scope) : parseScope s.topic = match s.chunks with
      | [nameSpace, database, schema] =>
        .ok (String.ofList nameSpace, String.ofList database, String.ofList schema)
      | _ => .error "expected exactly three chunks after the locate prefix" := by
  have hf : s.topic.toList = locatePrefix.toList ++ '/' :: s.display.toList := by
    simp [topic, ReplicaQuery.format, display]
  rw [parseScope, hf, isPrefixOf?_append, Option.bind_some,
    show ['/'].isPrefixOf? ('/' :: s.display.toList) = some s.display.toList from
      isPrefixOf?_append]
  dsimp only
  rw [splitOn_display]

theorem unsplit_of_parseScope {names : String × String × String}
    (h : parseScope s.topic = .ok names) : s.Unsplit := by
  rw [parseScope_topic] at h
  split at h
  · next hc => exact unsplit_of_chunks hc
  · cases h

theorem Unsplit.parseScope_eq (h : s.Unsplit) :
    parseScope s.topic = .ok (s.nameSpace.val, s.database.val, s.schema.val) := by
  rw [parseScope_topic, h.chunks_eq]
  simp

end Scope

theorem CustodyRow.key_eq_iff {row row' : CustodyRow} :
    row.key = row'.key ↔ row.scope.display = row'.scope.display ∧ row.node = row'.node := by
  refine ⟨fun h => ?_, fun ⟨hs, hn⟩ => by rw [key, key, hs, hn]⟩
  have hl := congrArg String.toList h
  simp only [key, String.toList_append, String.toList_ofList, append_assoc] at hl
  have hlen : ∀ r : CustodyRow, (hexBytes r.node.bytes).length = 32 := fun r => by
    rw [length_hexBytes, r.node.length_eq]
  obtain ⟨hs, hn⟩ := append_inj' hl (by simp [hlen])
  refine ⟨String.toList_inj.mp hs, NodeId.ext ?_⟩
  have hb := congrArg hexPairs (append_cancel_left hn)
  rw [hexPairs_hexBytes, hexPairs_hexBytes] at hb
  exact Option.some.inj hb

/-- The custody key identifies the scope and the node, and the topic of the scope is read back and is no
other's, exactly if no name of the scope has a `/`. -/
theorem scope_texts_exact_iff (s : Scope) : s.TextsExact ↔ s.Unsplit := by
  refine ⟨fun h => Scope.unsplit_of_parseScope h.topic, fun h => ⟨?_, h.parseScope_eq, ?_⟩⟩
  · intro node row he
    obtain ⟨hs, hn⟩ := CustodyRow.key_eq_iff.mp he
    have hc : row.scope = s := h.eq_of_chunks (by
      rw [← Scope.splitOn_display, ← Scope.splitOn_display, ← hs])
    rw [← hc, show node = row.node from hn]
  · intro t ht
    refine h.eq_of_chunks ?_
    rw [(Scope.unsplit_of_parseScope ht).parseScope_eq] at ht
    simp only [Except.ok.injEq, Prod.mk.injEq] at ht
    rw [Scope.chunks, Scope.chunks, ht.1, ht.2.1, ht.2.2]

def Sample.nestedNamespace : Scope :=
  ⟨⟨"a/b", by decide +kernel⟩, ⟨"c", by decide +kernel⟩, ⟨"d", by decide +kernel⟩⟩

def Sample.nestedDatabase : Scope :=
  ⟨nameA, ⟨"b/c", by decide +kernel⟩, ⟨"d", by decide +kernel⟩⟩

theorem separator_in_name_aliases : ¬Sample.nestedNamespace.TextsExact := by
  intro h
  have hk := h.key ⟨List.replicate 16 0, rfl⟩ ⟨Sample.nestedDatabase, ⟨List.replicate 16 0, rfl⟩⟩ (by decide +kernel)
  exact absurd hk (by decide +kernel)

end Myrmic
