import Myrmic.RegistryCalls

/-!
# The texts of keys

The row of a generation is kept under a key that spells the SRI and the generation in hexadecimal.  What
a key spells is **read back** from it (`parseGenerationKey_generationKey`), no two generations share a
key, and the keys of one cell's generations are those with the cell's beginning.  How an SRI is read
from its hyphenated form is up to the library for identities.
-/
namespace Myrmic
open OrderedBytes Dialogs List

/-! ## Hexadecimal digits -/

def IsHexDigit (c : Char) : Prop := ∃ d < 16, c = Nat.digitChar d

theorem hexValue_digitChar : ∀ d < 16, hexValue (Nat.digitChar d) = some d := by decide

theorem digitChar_ne_plus : ∀ d < 16, Nat.digitChar d ≠ '+' := by decide

variable {c : Char} {width n : Nat}

theorem isHexDigit_of_mem_toDigits {n : Nat} (h : c ∈ Nat.toDigits 16 n) : IsHexDigit c := by
  induction n using Nat.strong_induction_on with
  | _ n ih =>
    by_cases hlt : n < 16
    · rw [Nat.toDigits_of_lt_base hlt, mem_singleton] at h
      exact ⟨n, hlt, h⟩
    · rw [Nat.toDigits_of_base_le (by omega) (by omega), mem_append, mem_singleton] at h
      rcases h with h | h
      · exact ih (n / 16) (by omega) h
      · exact ⟨n % 16, Nat.mod_lt _ (by omega), h⟩

theorem isHexDigit_of_mem_hexDigits (h : c ∈ hexDigits width n) : IsHexDigit c := by
  rcases mem_append.mp h with h | h
  · rw [eq_of_mem_replicate h]
    exact ⟨0, by omega, rfl⟩
  · exact isHexDigit_of_mem_toDigits h

theorem length_hexDigits (hw : 0 < width) (h : n < 16 ^ width) :
    (hexDigits width n).length = width := by
  have hle := (Nat.length_toDigits_le_iff (by omega) hw).mpr h
  simp only [hexDigits, length_append, length_replicate]
  omega

/-- One more digit of a number that is read. -/
def readDigit (n : Nat) (c : Char) : Option Nat := (hexValue c).map (16 * n + ·)

theorem read_toDigits (n : Nat) : (Nat.toDigits 16 n).foldlM readDigit 0 = some n := by
  induction n using Nat.strong_induction_on with
  | _ n ih =>
    by_cases hlt : n < 16
    · simp [Nat.toDigits_of_lt_base hlt, readDigit, hexValue_digitChar n hlt]
    · have hm : n % 16 < 16 := Nat.mod_lt _ (by omega)
      have hs : 16 * (n / 16) + n % 16 = n := Nat.div_add_mod n 16
      rw [Nat.toDigits_of_base_le (by omega) (by omega), foldlM_append, ih (n / 16) (by omega)]
      simp [readDigit, hexValue_digitChar _ hm, hs]

theorem read_zeros (z : Nat) : (List.replicate z '0').foldlM readDigit 0 = some 0 := by
  induction z with
  | zero => rfl
  | succ z ih =>
    have hz : readDigit 0 '0' = some 0 := by decide
    simp [replicate_succ, hz, ih]

theorem read_hexDigits (width n : Nat) : (hexDigits width n).foldlM readDigit 0 = some n := by
  simp only [hexDigits, foldlM_append, read_zeros]
  exact read_toDigits n

theorem fromStrRadix16_hexDigits {bits width n : Nat} (h : n < 2 ^ bits) :
    fromStrRadix16 bits (hexDigits width n) = some n := by
  have hdi : ∀ c ∈ hexDigits width n, IsHexDigit c := fun c => isHexDigit_of_mem_hexDigits
  have hr := read_hexDigits width n
  have hne : hexDigits width n ≠ [] := by simp [hexDigits, Nat.toDigits_ne_nil]
  generalize hexDigits width n = digits at hne hr hdi
  cases digits with
  | nil => exact absurd rfl hne
  | cons c cs =>
    obtain ⟨d, hd, hc⟩ := hdi c mem_cons_self
    have hp : c ≠ '+' := hc ▸ digitChar_ne_plus d hd
    have hno : ∀ digits, c :: cs = '+' :: digits → False := by
      rintro digits ⟨⟩
      exact hp rfl
    simp only [fromStrRadix16]
    split
    · next hn => cases hn
    · change ((c :: cs).foldlM readDigit 0).bind _ = _
      rw [hr]
      simp [h]

/-! ## Texts of digits -/

theorem length_strBytes_digits {cs : List Char} (h : ∀ c ∈ cs, IsHexDigit c) :
    (strBytes (String.ofList cs)).length = cs.length := by
  have hs : ∀ d < 16, (Nat.digitChar d).utf8Size = 1 := by decide
  have hb : (strBytes (String.ofList cs)).length = (cs.map Char.utf8Size).sum := by
    simp [strBytes, String.toByteArray_ofList, List.utf8Encode]
  rw [hb]
  clear hb
  induction cs with
  | nil => rfl
  | cons c cs ih =>
    obtain ⟨d, hd, rfl⟩ := h c mem_cons_self
    simp only [map_cons, sum_cons, length_cons, hs d hd, ih fun c hc => h c (mem_cons_of_mem _ hc)]
    omega

theorem isPrefixOf?_append {start rest : List Char} :
    start.isPrefixOf? (start ++ rest) = some rest := by
  induction start with
  | nil => simp [List.isPrefixOf?]
  | cons c start ih => simp [List.isPrefixOf?, ih]

theorem splitOnce_append {pre after : List Char} (h : c ∉ pre) :
    splitOnce c (pre ++ c :: after) = some (pre, after) := by
  induction pre with
  | nil => simp [splitOnce]
  | cons d pre ih =>
    obtain ⟨hd, hb⟩ := not_or.mp fun hm => h (mem_cons.mpr hm)
    simp [splitOnce, Ne.symm hd, ih hb]

theorem isHexDigit_of_mem_hexBytes {bs : Bytes} (h : c ∈ hexBytes bs) : IsHexDigit c := by
  obtain ⟨b, -, hc⟩ := mem_flatMap.mp h
  exact isHexDigit_of_mem_hexDigits hc

variable (sri : Sri) {genId genId' : Gen}

theorem slash_notMem_display : '/' ∉ sri.display.toList := by
  have hsl : ¬ IsHexDigit '/' := by
    rintro ⟨d, hd, heq⟩
    exact absurd heq.symm ((by decide : ∀ d < 16, Nat.digitChar d ≠ '/') d hd)
  intro hme
  have hpa : ∀ c ∈ sri.display.toList, IsHexDigit c ∨ c = '-' := by
    intro c hc
    simp only [Sri.display, String.toList_ofList, cons_append, append_assoc,
      mem_append, mem_cons] at hc
    rcases hc with hc | hc | hc | hc | hc | hc | hc | hc | hc
    · exact .inl (isHexDigit_of_mem_hexBytes (mem_of_mem_take hc))
    · exact .inr hc
    · exact .inl (isHexDigit_of_mem_hexBytes (mem_of_mem_drop (mem_of_mem_take hc)))
    · exact .inr hc
    · exact .inl (isHexDigit_of_mem_hexBytes (mem_of_mem_drop (mem_of_mem_take hc)))
    · exact .inr hc
    · exact .inl (isHexDigit_of_mem_hexBytes (mem_of_mem_drop (mem_of_mem_take hc)))
    · exact .inr hc
    · exact .inl (isHexDigit_of_mem_hexBytes (mem_of_mem_drop hc))
  rcases hpa _ hme with h | h
  · exact hsl h
  · cases h

/-! ## Bytes as digits -/

theorem hexDigits_two : ∀ n < 256,
    hexDigits 2 n = [Nat.digitChar (n / 16), Nat.digitChar (n % 16)] := by decide +kernel

theorem length_hexBytes (bs : Bytes) : (hexBytes bs).length = 2 * bs.length := by
  induction bs with
  | nil => rfl
  | cons b bs ih =>
    rw [hexBytes, flatMap_cons, length_append, hexDigits_two _ b.toNat_lt, ← hexBytes, ih]
    simp only [length_cons, length_nil]
    omega

theorem hexPairs_hexBytes (bs : Bytes) : hexPairs (hexBytes bs) = some bs := by
  induction bs with
  | nil => rfl
  | cons b bs ih =>
    have hb : b.toNat < 256 := b.toNat_lt
    have hhi := hexValue_digitChar (b.toNat / 16) (by omega)
    have hlo := hexValue_digitChar (b.toNat % 16) (by omega)
    have hs : 16 * (b.toNat / 16) + b.toNat % 16 = b.toNat := Nat.div_add_mod _ _
    have hc : hexBytes (b :: bs) = Nat.digitChar (b.toNat / 16) ::
        Nat.digitChar (b.toNat % 16) :: hexBytes bs := by
      simp only [hexBytes, flatMap_cons, hexDigits_two _ hb, cons_append, nil_append]
    simp only [hc, hexPairs, hhi, hlo, ih, hs, Option.bind_eq_bind, Option.bind_some,
      Option.pure_def, UInt8.ofNat_toNat]

/-! ## Keys of generations -/

/-- The digits that a generation's key ends with. -/
def genDigits (genId : Gen) : List Char :=
  hexDigits 16 genId.time.toNat ++ hexDigits 32 genId.id.toNat

theorem length_timeDigits (genId : Gen) : (hexDigits 16 genId.time.toNat).length = 16 :=
  length_hexDigits (by omega) (lt_of_lt_of_le genId.time.toNat_lt (by norm_num))

theorem length_idDigits (genId : Gen) : (hexDigits 32 genId.id.toNat).length = 32 :=
  length_hexDigits (by omega) (lt_of_lt_of_le genId.id.isLt (by norm_num))

theorem generationKey_toList (genId : Gen) : (generationKey sri genId).toList =
      generations.toList ++ (sri.display.toList ++ '/' :: genDigits genId) := by
  have hs : "/".toList = ['/'] := by decide
  simp only [generationKey, generationsOf, String.toList_append, String.toList_ofList, hs,
    genDigits, append_assoc, cons_append, nil_append]

/-- What a generation's key is read as; how SRIs are read is up to the library. -/
theorem parseGenerationKey_eq [UuidText] (genId : Gen) : parseGenerationKey (generationKey sri genId) =
      (UuidText.parse sri.display).map fun sri' => (sri', genId) := by
  have hd : ∀ c ∈ genDigits genId, IsHexDigit c := fun c hc =>
    (mem_append.mp hc).elim isHexDigit_of_mem_hexDigits isHexDigit_of_mem_hexDigits
  have hb : (strBytes (String.ofList (genDigits genId))).length = 48 := by
    rw [length_strBytes_digits hd]
    simp [genDigits, length_timeDigits, length_idDigits]
  have ht : (genDigits genId).take 16 = hexDigits 16 genId.time.toNat :=
    take_left' (length_timeDigits genId)
  have hid : (genDigits genId).drop 16 = hexDigits 32 genId.id.toNat :=
    drop_left' (length_timeDigits genId)
  unfold parseGenerationKey
  rw [generationKey_toList, isPrefixOf?_append]
  simp only [Option.bind_eq_bind, Option.bind_some, splitOnce_append (slash_notMem_display sri), hb,
    ne_eq, not_true_eq_false, if_false, ht, hid, String.ofList_toList,
    fromStrRadix16_hexDigits genId.time.toNat_lt, fromStrRadix16_hexDigits genId.id.isLt,
    Option.pure_def, UInt64.ofNat_toNat, BitVec.ofNat_toNat, BitVec.setWidth_eq]
  exact Option.map_eq_bind.symm

/-- **What a generation's key is read as is the generation**, however SRIs are read. -/
theorem parseGenerationKey_generationKey [UuidText] {sri sri' : Sri}
    (h : parseGenerationKey (generationKey sri genId) = some (sri', genId')) : genId' = genId := by
  rw [parseGenerationKey_eq] at h
  obtain ⟨_, -, heq⟩ := Option.map_eq_some_iff.mp h
  cases heq
  rfl

/-- How the keys of a cell's generations are read. -/
def readGeneration [UuidText] (key : String) : Except String Gen :=
  match parseGenerationKey key with
  | some (_, genId) => .ok genId
  | none => .error ("malformed generation key " ++ key.quote)

theorem readGeneration_generationKey [UuidText] {sri : Sri}
    (h : readGeneration (generationKey sri genId) = .ok genId') : genId' = genId := by
  unfold readGeneration at h
  split at h
  · next hp =>
    cases h
    exact parseGenerationKey_generationKey hp
  · cases h

/-- Whatever serves the listing of a cell's generations, the keys it gives are read. -/
theorem run_generationsIn [UuidText] {σ : Type} {serve : σ → TxOp → Reply × σ} {s s' : σ}
    {scope : ApiScope} {sri : Sri} {keys : List String}
    (h : serve s (.keyPrefix scope (generationsOf sri)) = (.response (.keys keys), s')) :
    (GenerationRows.generationsIn scope sri).run serve s = (keys.mapM readGeneration, s') := by
  have hr : ∀ key (s : σ), Dialog.run serve (match parseGenerationKey key with
      | some (_, genId) => .done genId
      | none => .fail ("malformed generation key " ++ key.quote)) s = (readGeneration key, s) := by
    intro key s
    unfold readGeneration
    cases parseGenerationKey key <;> rfl
  change Dialog.run serve (Dialog.bind _ _) s = _
  rw [Dialog.run_bind, Body.request, Dialog.run_send, h]
  exact Dialog.run_mapM hr

/-- A key has the beginning of one cell only. -/
theorem display_eq_of_isPrefix {sri sri' : Sri}
    (h : (generationsOf sri).toList <+: (generationKey sri' genId).toList) :
    sri'.display = sri.display := by
  have hs : "/".toList = ['/'] := by decide
  rw [generationsOf, String.toList_append, String.toList_append, generationKey_toList, append_assoc,
    prefix_append_right_inj, hs] at h
  obtain ⟨rest, heq⟩ := h
  rw [append_assoc, cons_append, nil_append] at heq
  have hsp : splitOnce '/' (sri.display.toList ++ '/' :: rest) = some (sri.display.toList, rest) :=
    splitOnce_append (slash_notMem_display sri)
  rw [heq, splitOnce_append (slash_notMem_display sri')] at hsp
  exact String.toList_inj.mp (congrArg Prod.fst (Option.some.inj hsp))

theorem generationKey_injective : Function.Injective (generationKey sri) := by
  intro a b h
  have hl := congrArg String.toList h
  rw [generationKey_toList, generationKey_toList, append_right_inj, append_right_inj,
    cons_inj_right] at hl
  have ht := append_inj_left hl ((length_timeDigits a).trans (length_timeDigits b).symm)
  have hid := append_inj_right hl ((length_timeDigits a).trans (length_timeDigits b).symm)
  have hti : a.time.toNat = b.time.toNat := Option.some.inj
    ((read_hexDigits 16 a.time.toNat).symm.trans (ht ▸ read_hexDigits 16 b.time.toNat))
  have hi : a.id.toNat = b.id.toNat := Option.some.inj
    ((read_hexDigits 32 a.id.toNat).symm.trans (hid ▸ read_hexDigits 32 b.id.toNat))
  exact Gen.key_injective (by rw [Gen.key, Gen.key, hti, hi])

/-- The keys of a cell's generations are those with the cell's beginning. -/
theorem generationsOf_isPrefix (genId : Gen) :
    (generationsOf sri).toList <+: (generationKey sri genId).toList := by
  rw [generationKey, String.toList_append]
  exact prefix_append _ _

/-- The key of a claim is not one of a generation. -/
theorem placementClaimKey_not_isPrefix {sri sri' : Sri} :
    ¬ (generationsOf sri).toList <+: (placementClaimKey sri').toList := by
  rintro ⟨_, h⟩
  have hg : (generationsOf sri).toList = 'g' :: ("en/".toList ++ sri.display.toList ++ "/".toList) := by
    simp only [generationsOf, generations, String.toList_append]
    rfl
  have hc : (placementClaimKey sri').toList = 'c' :: ("laim/".toList ++ sri'.display.toList) := by
    simp only [placementClaimKey, String.toList_append]
    rfl
  rw [hg, hc] at h
  cases h

end Myrmic
