import Mathlib.Data.List.Sort
import Mathlib.Tactic.Linarith
import Mathlib.Tactic.Ring

/-!
# Byte strings in lexicographic order

An ordered key-value store compares its keys byte by byte.  Whoever lays out structured keys in such
a store relies on a handful of facts about that order, and this module collects them for arbitrary
byte strings:

* **fixed-width big-endian numbers** (`be`, `ofBe`) are a bijection onto the byte strings of their
  width, and comparing two of them compares the numbers;
* **concatenation** compares like a pair, as soon as the first components have one length;
* **prefix ranges**: the strings that start with `p` are exactly the half-open interval from `p` to
  the successor `prefixUpper p`, which is missing only when `p` is empty or all `0xFF`.
-/
namespace OrderedBytes

/-- A byte string, as a key or a value of an ordered store. -/
abbrev Bytes := List UInt8

/-! ## Big-endian numbers -/

/-- The `w` big-endian bytes of `n`; digits beyond the width are lost. -/
def be : Nat → Nat → Bytes
  | 0, _ => []
  | w + 1, n => UInt8.ofNat (n / 256 ^ w) :: be w (n % 256 ^ w)

/-- The number a byte string spells in base 256, most significant byte first. -/
def ofBe : Bytes → Nat
  | [] => 0
  | b :: bs => b.toNat * 256 ^ bs.length + ofBe bs

@[simp] theorem length_be {w n : Nat} : (be w n).length = w := by
  induction w generalizing n with
  | zero => rfl
  | succ w ih => simp [be, ih]

theorem ofBe_lt (bs : Bytes) : ofBe bs < 256 ^ bs.length := by
  induction bs with
  | nil => simp [ofBe]
  | cons b bs ih =>
    have hb : b.toNat + 1 ≤ 256 := b.toNat_lt
    calc ofBe (b :: bs) = b.toNat * 256 ^ bs.length + ofBe bs := rfl
      _ < b.toNat * 256 ^ bs.length + 256 ^ bs.length := by omega
      _ = (b.toNat + 1) * 256 ^ bs.length := by rw [Nat.succ_mul]
      _ ≤ 256 * 256 ^ bs.length := Nat.mul_le_mul_right _ hb
      _ = 256 ^ (b :: bs).length := by rw [List.length_cons, pow_succ']

theorem leadingDigit_lt {w n : Nat} (h : n < 256 ^ (w + 1)) : n / 256 ^ w < 256 := by
  rw [Nat.div_lt_iff_lt_mul (Nat.pow_pos (by decide))]
  rwa [pow_succ'] at h

theorem ofBe_be {w n : Nat} (h : n < 256 ^ w) : ofBe (be w n) = n := by
  induction w generalizing n with
  | zero =>
    have : n = 0 := by simpa using h
    simp [be, ofBe, this]
  | succ w ih =>
    have hp : 0 < 256 ^ w := Nat.pow_pos (by decide)
    have hl : ofBe (be w (n % 256 ^ w)) = n % 256 ^ w := ih (Nat.mod_lt _ hp)
    simp only [be, ofBe, length_be, hl, UInt8.toNat_ofNat']
    rw [Nat.mod_eq_of_lt (leadingDigit_lt h), Nat.div_add_mod']

theorem be_ofBe (bs : Bytes) : be bs.length (ofBe bs) = bs := by
  induction bs with
  | nil => rfl
  | cons b bs ih =>
    have hlt := ofBe_lt bs
    have hp : 0 < 256 ^ bs.length := Nat.pow_pos (by decide)
    have hd : (b.toNat * 256 ^ bs.length + ofBe bs) / 256 ^ bs.length = b.toNat := by
      rw [Nat.mul_comm, Nat.mul_add_div hp, Nat.div_eq_of_lt hlt, Nat.add_zero]
    have hm : (b.toNat * 256 ^ bs.length + ofBe bs) % 256 ^ bs.length = ofBe bs := by
      rw [Nat.mul_comm, Nat.mul_add_mod, Nat.mod_eq_of_lt hlt]
    simp only [List.length_cons, be, ofBe, hd, hm, ih, UInt8.ofNat_toNat]

theorem be_injective {w m n : Nat} (hm : m < 256 ^ w) (hn : n < 256 ^ w)
    (h : be w m = be w n) : m = n := by
  rw [← ofBe_be hm, ← ofBe_be hn, h]

/-! ## Lexicographic comparison -/

theorem compare_refl (k : Bytes) : compare k k = .eq := Std.ReflCmp.compare_self

theorem compare_append_left (p a b : Bytes) : compare (p ++ a) (p ++ b) = compare a b := by
  induction p with
  | nil => rfl
  | cons c p ih => simp [ih]

/-- When neither part is the beginning of the other, what follows them does not matter. -/
theorem compare_append_of_not_isPrefix {a b : Bytes} (hab : ¬ a <+: b) (hba : ¬ b <+: a)
    (x y : Bytes) : compare (a ++ x) (b ++ y) = compare a b := by
  induction a generalizing b with
  | nil => exact absurd (List.nil_prefix) hab
  | cons c a ih =>
    cases b with
    | nil => exact absurd (List.nil_prefix) hba
    | cons d b =>
      by_cases hcd : c = d
      · subst hcd
        have := ih (fun h => hab (by simpa using h)) fun h => hba (by simpa using h)
        simp [this]
      · have hne : compare c d ≠ .eq := fun h => hcd (Std.LawfulEqCmp.eq_of_compare h)
        rw [List.cons_append, List.cons_append, List.compare_cons_cons, List.compare_cons_cons]
        cases h : compare c d <;> simp_all

/-- Concatenations whose first parts have one length compare like pairs. -/
theorem compare_append {a b : Bytes} (h : a.length = b.length) (x y : Bytes) :
    compare (a ++ x) (b ++ y) = (compare a b).then (compare x y) := by
  induction a generalizing b with
  | nil =>
    obtain rfl : b = [] := List.length_eq_zero_iff.mp h.symm
    simp
  | cons c a ih =>
    obtain ⟨d, _, rfl⟩ := List.exists_cons_of_length_eq_add_one h.symm
    simp only [List.cons_append, List.compare_cons_cons]
    rw [ih (by simpa using h), Ordering.then_assoc]

theorem compare_uint8 (a b : UInt8) : compare a b = compare a.toNat b.toNat := by
  simp only [compare, compareOfLessAndEq, UInt8.lt_iff_toNat_lt, ← UInt8.toNat_inj]

/-- Quotient and remainder, compared as a pair, compare the numbers. -/
theorem compare_div_then_mod (m n d : Nat) :
    (compare (m / d) (n / d)).then (compare (m % d) (n % d)) = compare m n := by
  have hm := Nat.div_add_mod m d
  have hn := Nat.div_add_mod n d
  rcases Nat.lt_trichotomy (m / d) (n / d) with h | h | h
  · rw [Nat.compare_eq_lt.mpr h, Nat.compare_eq_lt.mpr (Nat.lt_of_div_lt_div h)]
    rfl
  · rw [Nat.compare_eq_eq.mpr h, Ordering.eq_then]
    rw [h] at hm
    rcases Nat.lt_trichotomy (m % d) (n % d) with h' | h' | h'
    · rw [Nat.compare_eq_lt.mpr h', Nat.compare_eq_lt.mpr (by omega)]
    · rw [Nat.compare_eq_eq.mpr h', Nat.compare_eq_eq.mpr (by omega)]
    · rw [Nat.compare_eq_gt.mpr h', Nat.compare_eq_gt.mpr (by omega)]
  · rw [Nat.compare_eq_gt.mpr h, Nat.compare_eq_gt.mpr (Nat.lt_of_div_lt_div h)]
    rfl

/-- Big-endian numbers of one width compare like the numbers themselves. -/
theorem compare_be {w m n : Nat} (hm : m < 256 ^ w) (hn : n < 256 ^ w) :
    compare (be w m) (be w n) = compare m n := by
  induction w generalizing m n with
  | zero =>
    obtain rfl : m = 0 := by simpa using hm
    obtain rfl : n = 0 := by simpa using hn
    simp [be]
  | succ w ih =>
    have hpo : 0 < 256 ^ w := Nat.pow_pos (by decide)
    simp only [be, List.compare_cons_cons]
    rw [ih (Nat.mod_lt _ hpo) (Nat.mod_lt _ hpo)]
    -- the leading digits decide, and the remainders where those agree
    have hle : compare (UInt8.ofNat (m / 256 ^ w)) (UInt8.ofNat (n / 256 ^ w))
        = compare (m / 256 ^ w) (n / 256 ^ w) := by
      rw [compare_uint8, UInt8.toNat_ofNat', UInt8.toNat_ofNat',
        Nat.mod_eq_of_lt (leadingDigit_lt hm), Nat.mod_eq_of_lt (leadingDigit_lt hn)]
    rw [hle]
    exact compare_div_then_mod m n _

/-! ## Prefixes

Two strings that both start the same longer string are comparable, so a family of strings of which
none starts another can be cut off the front of a key without ambiguity. -/

/-- The smallest string above every string that starts with `p`, if there is one. -/
def prefixUpper : Bytes → Option Bytes
  | [] => none
  | b :: bs =>
    match prefixUpper bs with
    | some u => some (b :: u)
    | none => if b < 255 then some [b + 1] else none

theorem toNat_succ_of_lt {b : UInt8} (h : b < 255) : (b + 1).toNat = b.toNat + 1 := by
  have : b.toNat < 255 := UInt8.lt_iff_toNat_lt.mp h
  rw [UInt8.toNat_add]
  exact Nat.mod_eq_of_lt (by simpa using by omega)

theorem compare_uint8_lt {a b : UInt8} : compare a b = .lt ↔ a.toNat < b.toNat := by
  rw [compare_uint8, Nat.compare_eq_lt]

theorem compare_uint8_gt {a b : UInt8} : compare a b = .gt ↔ b.toNat < a.toNat := by
  rw [compare_uint8, Nat.compare_eq_gt]

/-- **Prefix ranges.**  The strings that start with `p` are the half-open interval from `p` up to
`prefixUpper p`, unbounded above where that successor is missing. -/
theorem isPrefix_iff_range (p k : Bytes) :
    p <+: k ↔ (compare p k).isLE ∧ ∀ u, prefixUpper p = some u → compare k u = .lt := by
  induction p generalizing k with
  | nil => cases k <;> simp [prefixUpper]
  | cons b bs ih =>
    cases k with
    | nil => simp
    | cons c cs =>
      rcases Nat.lt_trichotomy b.toNat c.toNat with h | h | h
      · -- the first byte is already past `p`, so past every string that starts with `p`
        have hne : b ≠ c := fun e => by simp [e] at h
        have hb : b < 255 := UInt8.lt_iff_toNat_lt.mpr (by have := c.toNat_lt; simp; omega)
        have hcb : compare c b = .gt := compare_uint8_gt.mpr h
        simp only [List.cons_prefix_cons, hne, false_and, false_iff, not_and, not_forall]
        intro _
        cases hu : prefixUpper bs with
        | some u => exact ⟨b :: u, by simp [prefixUpper, hu], by simp [hcb]⟩
        | none =>
          refine ⟨[b + 1], by simp [prefixUpper, hu, hb], ?_⟩
          have hge : compare c (b + 1) ≠ .lt := by
            rw [Ne, compare_uint8_lt, toNat_succ_of_lt hb]
            omega
          rcases hc : compare c (b + 1) with _ | _ | _
          · exact absurd hc hge
          · cases cs <;> simp [hc]
          · simp [hc]
      · -- the first bytes agree: the rest decides, or the successor increments this byte
        obtain rfl : b = c := UInt8.toNat_inj.mp h
        simp only [List.cons_prefix_cons, true_and, List.compare_cons_cons, Std.ReflCmp.compare_self,
          Ordering.eq_then, ih cs]
        refine and_congr_right fun _ => ?_
        cases hu : prefixUpper bs with
        | some u => simp [prefixUpper, hu]
        | none =>
          by_cases hb : b < 255
          · have : compare b (b + 1) = .lt := compare_uint8_lt.mpr (by rw [toNat_succ_of_lt hb]; omega)
            simp [prefixUpper, hu, hb, this]
          · simp [prefixUpper, hu, hb]
      · have hne : b ≠ c := fun e => by simp [e] at h
        have hbc : compare b c = .gt := compare_uint8_gt.mpr h
        simp [hne, hbc]

theorem isLE_iff_not_lt (a b : Bytes) : (compare a b).isLE = true ↔ ¬compare b a = .lt := by
  rw [Ordering.isLE_iff_ne_gt, Std.OrientedCmp.gt_iff_lt]

/-- What is not below the successor of `p` is above `p` and does not start with it. -/
theorem isLE_prefixUpper {p u : Bytes} (hu : prefixUpper p = some u) (y : Bytes) :
    (compare u y).isLE = true ↔ (compare p y).isLE = true ∧ ¬p <+: y := by
  have hra : ∀ k, p <+: k ↔ (compare p k).isLE = true ∧ compare k u = .lt := by
    intro k
    simp [isPrefix_iff_range, hu]
  have hlt : (compare p u).isLE = true := by simp [((hra p).mp List.prefix_rfl).2]
  rw [hra, isLE_iff_not_lt u y, not_and]
  exact ⟨fun h => ⟨Std.TransCmp.isLE_trans hlt ((isLE_iff_not_lt u y).mpr h), fun _ => h⟩,
    fun h => h.2 h.1⟩

/-- What lies between two strings that start with `p` starts with `p`. -/
theorem isPrefix_of_between {p a b c : Bytes} (ha : p <+: a) (hc : p <+: c)
    (hab : compare a b = .lt) (hbc : compare b c = .lt) : p <+: b := by
  rw [isPrefix_iff_range] at ha hc ⊢
  constructor
  · exact Std.TransCmp.isLE_trans ha.1 (by simp [hab])
  · intro u hu
    exact Std.TransCmp.lt_trans hbc (hc.2 u hu)

end OrderedBytes
