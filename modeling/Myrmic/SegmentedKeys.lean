import Myrmic.OrderedBytes
import Myrmic.Fallible

/-!
# Keys made of segments

A key format is a list of segments: literal bytes, and fields of several kinds.  A key is the values of
its fields.  A **partial** key has values for the first fields only, and is written up to the field it
lacks, so that its bytes are the beginning of every key that continues it.

A codec says how the fields are written and read.  If reading cuts a written field off the front of
whatever follows it, then so does reading a key (`decodeSteps_encodeSteps`), a key begins another only
if its values do (`encodeSteps_isPrefix_iff`), and keys compare as the **first field they differ in**
(`compare_encodeSteps`).
-/
namespace SegmentedKeys
open OrderedBytes Fallible List
variable {Kind Field ε : Type}

inductive Segment (Kind : Type) where
  | literal (bytes : Bytes)
  | field (kind : Kind)

/-- How fields and literals are written and read back. -/
structure Codec (Kind Field ε : Type) where
  kind : Field → Kind
  encode : Field → Bytes
  read : Kind → Bytes → Except ε (Field × Bytes)
  expect : Bytes → Bytes → Except ε Bytes
  read_encode : ∀ f rest, read (kind f) (encode f ++ rest) = .ok (f, rest)
  expect_literal : ∀ lit rest, expect lit (lit ++ rest) = .ok rest

def fieldsOf : List (Segment Kind) → List Kind
  | [] => []
  | .literal _ :: segments => fieldsOf segments
  | .field kind :: segments => kind :: fieldsOf segments

variable (C : Codec Kind Field ε)

/-- Writes a key up to the first field it has no value for. -/
def encodeSteps : List (Segment Kind) → List Field → Bytes
  | [], _ => []
  | .literal bytes :: segments, values => bytes ++ encodeSteps segments values
  | .field _ :: _, [] => []
  | .field _ :: segments, value :: values => C.encode value ++ encodeSteps segments values

/-- Reads the first `n` fields of a key and the literals up to the next one. -/
def decodeSteps : List (Segment Kind) → Nat → Bytes → Except ε (List Field × Bytes)
  | [], _, bs => .ok ([], bs)
  | .literal bytes :: segments, n, bs => do
    let bs ← C.expect bytes bs
    decodeSteps segments n bs
  | .field _ :: _, 0, bs => .ok ([], bs)
  | .field kind :: segments, n + 1, bs => do
    let (value, bs) ← C.read kind bs
    let (values, bs) ← decodeSteps segments n bs
    return (value :: values, bs)

variable {C} {segs : List (Segment Kind)} {values values' : List Field} {f g : Field}

/-- **What was written is read back**, whatever follows it. -/
theorem decodeSteps_encodeSteps (h : values.map C.kind <+: fieldsOf segs) (rest : Bytes) :
    decodeSteps C segs values.length (encodeSteps C segs values ++ rest) = .ok (values, rest) := by
  induction segs generalizing values with
  | nil =>
    obtain rfl : values = [] := map_eq_nil_iff.mp (prefix_nil.mp h)
    rfl
  | cons seg segs ih =>
    cases seg with
    | literal bytes =>
      rw [encodeSteps, append_assoc, decodeSteps, C.expect_literal]
      exact ih h
    | field kind =>
      cases values with
      | nil => rfl
      | cons v values =>
        obtain ⟨hki, hva⟩ := cons_prefix_cons.mp h
        rw [encodeSteps, append_assoc, length_cons, decodeSteps, ← hki, C.read_encode]
        simp only [bind, Except.bind]
        rw [ih hva]
        rfl

theorem encode_append_inj (hk : C.kind f = C.kind g) {x y : Bytes}
    (h : C.encode f ++ x = C.encode g ++ y) : f = g ∧ x = y := by
  have hr := C.read_encode f x
  rw [h, hk, C.read_encode g y] at hr
  cases hr
  exact ⟨rfl, rfl⟩

/-- **A key with fewer fields begins another exactly if its fields do.** -/
theorem encodeSteps_isPrefix_iff (h : values.map C.kind <+: fieldsOf segs)
    (h' : values'.map C.kind <+: fieldsOf segs) (hl : values.length ≤ values'.length) :
    encodeSteps C segs values <+: encodeSteps C segs values' ↔ values <+: values' := by
  induction segs generalizing values values' with
  | nil =>
    obtain rfl : values = [] := map_eq_nil_iff.mp (prefix_nil.mp h)
    simp [encodeSteps]
  | cons seg segs ih =>
    cases seg with
    | literal bytes =>
      rw [encodeSteps, encodeSteps, prefix_append_right_inj]
      exact ih h h' hl
    | field kind =>
      cases values with
      | nil => simp [encodeSteps]
      | cons v values =>
        obtain ⟨value', values', rfl⟩ := exists_cons_of_length_pos (Nat.lt_of_lt_of_le (by simp) hl)
        obtain ⟨hk, hv⟩ := cons_prefix_cons.mp h
        obtain ⟨hk', hv'⟩ := cons_prefix_cons.mp h'
        rw [encodeSteps, encodeSteps, cons_prefix_cons, ← ih hv hv' (Nat.le_of_succ_le_succ hl)]
        constructor
        · rintro ⟨x, hx⟩
          rw [append_assoc] at hx
          obtain ⟨he, hx⟩ := encode_append_inj (hk.trans hk'.symm) hx
          exact ⟨he, x, hx⟩
        · rintro ⟨rfl, x, hx⟩
          exact ⟨x, by rw [append_assoc, hx]⟩

/-- Different fields of one kind compare alike whatever follows them. -/
theorem compare_encode_append (hk : C.kind f = C.kind g) (hne : f ≠ g) (x y : Bytes) :
    compare (C.encode f ++ x) (C.encode g ++ y) = compare (C.encode f) (C.encode g) := by
  refine compare_append_of_not_isPrefix ?_ ?_ x y
  · rintro ⟨z, hz⟩
    have ha : C.encode f ++ z = C.encode g ++ [] := by rw [hz, append_nil]
    exact hne (encode_append_inj hk ha).1
  · rintro ⟨z, hz⟩
    have ha : C.encode g ++ z = C.encode f ++ [] := by rw [hz, append_nil]
    exact hne (encode_append_inj hk.symm ha).1.symm

/-- **Keys compare as the first field they differ in.** -/
theorem compare_encodeSteps {front rest rest' : List Field}
    (h : (front ++ f :: rest).map C.kind <+: fieldsOf segs)
    (h' : (front ++ g :: rest').map C.kind <+: fieldsOf segs) (hne : f ≠ g) :
    compare (encodeSteps C segs (front ++ f :: rest))
      (encodeSteps C segs (front ++ g :: rest')) = compare (C.encode f) (C.encode g) := by
  induction segs generalizing front with
  | nil =>
    have hni := map_eq_nil_iff.mp (prefix_nil.mp h)
    exact absurd hni (append_ne_nil_of_right_ne_nil _ (cons_ne_nil _ _))
  | cons seg segs ih =>
    cases seg with
    | literal bytes =>
      rw [encodeSteps, encodeSteps, compare_append_left]
      exact ih h h'
    | field kind =>
      cases front with
      | nil =>
        have hf := (cons_prefix_cons.mp h).1
        have hg := (cons_prefix_cons.mp h').1
        exact compare_encode_append (hf.trans hg.symm) hne _ _
      | cons v front =>
        rw [cons_append, cons_append, encodeSteps, encodeSteps, compare_append_left]
        exact ih (cons_prefix_cons.mp h).2 (cons_prefix_cons.mp h').2

end SegmentedKeys
