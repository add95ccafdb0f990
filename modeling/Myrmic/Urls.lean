import Mathlib.Algebra.Group.Nat.Defs
import Myrmic.Fallible

/-!
# URLs

A URL is written as `scheme://host[:port]path[?query]`, with an IPv6 address in brackets.  The parser
cuts the text at delimiters, one after another, and takes what comes before the first slash for the
authority.  A query that follows the authority directly is then not found, although the source means
to handle it: the parts of a URL are read back **exactly if a query comes after a path**
(`parse_inverts_iff`).  What has been parsed always has a path, so it is parsed again from what is
written for it.  Texts are lists of characters here.
-/
namespace Myrmic
open List Fallible
namespace Web

inductive Scheme where
  | http
  | https
  | mqtt
  | mqtts
deriving DecidableEq

/-- Always lower case. -/
def Scheme.asStr : Scheme → List Char
  | .http => "http".toList
  | .https => "https".toList
  | .mqtt => "mqtt".toList
  | .mqtts => "mqtts".toList

/-- A parsed URL; only an IPv6 address has a scope. -/
structure Url where
  scheme : Scheme
  host : List Char
  isHostIpv6 : Bool
  scopeId : Option (Fin (2 ^ 32))
  port : Option (Fin (2 ^ 16))
  path : List Char
  query : Option (List Char)
deriving DecidableEq

inductive ParseError where
  | noScheme
  | unsupportedScheme (scheme : List Char)
  | ipv6AddressInvalid (authority : List Char)
  | emptyHost
  | missingPort
  | invalidPort (port : List Char)
  | missingScope
  | invalidScope (scope : List Char)
deriving DecidableEq

/-- What stands before the first `c`, and what comes after it. -/
def cut (c : Char) : List Char → List Char × Option (List Char)
  | [] => ([], none)
  | a :: text => if a = c then ([], some text) else Prod.map (a :: ·) id (cut c text)

/-- A part that is written after a delimiter, if it is there. -/
def after (c : Char) : Option (List Char) → List Char
  | none => []
  | some text => c :: text

/-- What stands before and after the first `://`. -/
def splitScheme : List Char → Option (List Char × List Char)
  | [] => none
  | c :: text =>
    if "://".toList <+: c :: text then some ([], text.drop 2)
    else (splitScheme text).map (Prod.map (c :: ·) id)

/-- Schemes are compared without regard to case. -/
def Scheme.parse (text : List Char) : Except ParseError Scheme :=
  match [http, https, mqtt, mqtts].find? fun scheme => text.map Char.toLower = scheme.asStr with
  | some scheme => .ok scheme
  | none => .error (.unsupportedScheme text)

/-- Reads an unsigned number as the standard library does, a leading `+` allowed. -/
def number (bits : Nat) (missing : ParseError) (invalid : List Char → ParseError) :
    Option (List Char) → Except ParseError (Option (Fin (2 ^ bits)))
  | none => .ok none
  | some [] => .error missing
  | some (c :: text) =>
    let digits := if c = '+' then text else c :: text
    if h : digits ≠ [] ∧ digits.all Char.isDigit ∧ Nat.ofDigitChars 10 digits 0 < 2 ^ bits then
      .ok (some ⟨_, h.2.2⟩)
    else .error (invalid (c :: text))

/-- The texts of the host, of the port and of the scope. -/
def splitAuthority : List Char →
    Except ParseError (List Char × Option (List Char) × Bool × Option (List Char))
  | '[' :: rest =>
    match cut ']' rest with
    | (_, none) => .error (.ipv6AddressInvalid ('[' :: rest))
    | (address, some remainder) =>
      match cut '%' address, remainder with
      | ([], _), _ => .error .emptyHost
      | (host, scope), [] => .ok (host, none, true, scope)
      | (host, scope), ':' :: port => .ok (host, some port, true, scope)
      | _, _ => .error (.invalidPort remainder)
  | authority => .ok ((cut ':' authority).1, (cut ':' authority).2, false, none)

/-- The path, where an empty one is the root, and the query. -/
def splitPath (text : List Char) : List Char × Option (List Char) :=
  (if (cut '?' text).1 = [] then ['/'] else (cut '?' text).1, (cut '?' text).2)

def parse (url : List Char) : Except ParseError Url := do
  let (scheme, rest) ← (splitScheme url).elim (.error .noScheme) .ok
  let scheme ← Scheme.parse scheme
  -- a question mark before the first slash stays in the authority
  let (authority, below) := cut '/' rest
  let (path, query) := splitPath (after '/' below)
  let (host, port, isHostIpv6, scope) ← splitAuthority authority
  let port ← number 16 .missingPort .invalidPort port
  let scopeId ← number 32 .missingScope .invalidScope scope
  return ⟨scheme, host, isHostIpv6, scopeId, port, path, query⟩

namespace Url

def digits {bits : Nat} (n : Option (Fin (2 ^ bits))) : Option (List Char) :=
  n.map fun n => Nat.toDigits 10 n

/-- The host, in brackets if it is an address, and the port. -/
def authority (u : Url) : List Char :=
  let port := after ':' (digits u.port)
  if u.isHostIpv6 then '[' :: (u.host ++ after '%' (digits u.scopeId) ++ ']' :: port)
  else u.host ++ port

def display (u : Url) : List Char :=
  u.scheme.asStr ++ "://".toList ++ u.authority ++ u.path ++ after '?' u.query

/-- The URL with an empty path written out. -/
def rooted (u : Url) : Url := { u with path := if u.path = [] then ['/'] else u.path }

/-- Hosts: addresses in brackets, and names. -/
def IsHost (host : List Char) (isIpv6 : Bool) : Prop :=
  if isIpv6 then host ≠ [] ∧ ']' ∉ host ∧ '%' ∉ host else ':' ∉ host ∧ host.head? ≠ some '['

instance (host : List Char) (isIpv6 : Bool) : Decidable (IsHost host isIpv6) :=
  inferInstanceAs (Decidable (ite ..))

/-- The parts a URL is written from. -/
structure WellFormed (u : Url) : Prop where
  host : IsHost u.host u.isHostIpv6
  scope : u.isHostIpv6 = false → u.scopeId = none
  slash : '/' ∉ u.host
  path : u.path = [] ∨ ∃ below, u.path = '/' :: below ∧ '?' ∉ below

end Url

variable {c : Char} {text a : List Char} {o : Option (List Char)} {u : Url} {bits : Nat}
  {missing : ParseError} {invalid : List Char → ParseError}

/-! ## Cutting -/

/-- A cut takes nothing away but the delimiter. -/
theorem cut_spec (c : Char) (text : List Char) :
    c ∉ (cut c text).1 ∧ text = (cut c text).1 ++ after c (cut c text).2 := by
  induction text with
  | nil => exact ⟨not_mem_nil, rfl⟩
  | cons b text ih =>
    by_cases hb : b = c
    · simp [cut, hb, after]
    · simpa [cut, hb, Ne.symm hb] using ih

theorem mem_of_cut {d : Char} (h : d ∈ (cut c text).1) : d ∈ text := by
  rw [(cut_spec c text).2]
  exact mem_append_left _ h

theorem cut_append (h : c ∉ a) : cut c (a ++ after c o) = (a, o) := by
  induction a with
  | nil => cases o <;> simp [cut, after]
  | cons b a ih =>
    obtain ⟨hb, hn⟩ := not_or.mp fun hm => h (mem_cons.mpr hm)
    simp [cut, Ne.symm hb, ih hn]

theorem notMem_digits (hd : c.isDigit = false) {d : Char} (hne : c ≠ d)
    (n : Option (Fin (2 ^ bits))) : c ∉ after d (Url.digits n) := by
  cases n with
  | none => exact not_mem_nil
  | some n =>
    refine not_or.mpr ⟨hne, fun hm => ?_⟩ ∘ mem_cons.mp
    rw [Nat.isDigit_of_mem_toDigits (by decide) (by decide) hm] at hd
    cases hd

/-- A number is read back from its digits, which begin with no sign. -/
theorem number_digits (n : Option (Fin (2 ^ bits))) :
    number bits missing invalid (Url.digits n) = .ok n := by
  cases n with
  | none => rfl
  | some n =>
    have hp : ∀ c ∈ Nat.toDigits 10 n, c.isDigit = true := fun c =>
      Nat.isDigit_of_mem_toDigits (by decide) (by decide)
    have hv : Nat.ofDigitChars 10 (Nat.toDigits 10 n) 0 = n := Nat.ofDigitChars_ten_toDigits
    cases hn : Nat.toDigits 10 n with
    | nil => exact absurd hn Nat.toDigits_ne_nil
    | cons c text =>
      rw [hn] at hp hv
      have hc : c ≠ '+' := by
        rintro rfl
        cases hp _ mem_cons_self
      simp [Url.digits, hn, number, hc, hv, List.all_eq_true.mpr hp]

theorem splitScheme_asStr (scheme : Scheme) (rest : List Char) :
    splitScheme (scheme.asStr ++ "://".toList ++ rest) = some (scheme.asStr, rest) := by
  cases scheme <;> rfl

/-! ## Reading what was written -/

section Written
variable (h : u.WellFormed)
include h

theorem notMem_authority : '/' ∉ u.authority := by
  have hp := notMem_digits (c := '/') (d := ':') rfl (by decide) u.port
  have hs := notMem_digits (c := '/') (d := '%') rfl (by decide) u.scopeId
  unfold Url.authority
  split <;> simp [h.slash, hp, hs]

theorem splitAuthority_authority : splitAuthority u.authority =
    .ok (u.host, Url.digits u.port, u.isHostIpv6, Url.digits u.scopeId) := by
  have hh := h.host
  unfold Url.authority
  cases hv : u.isHostIpv6 with
  | true =>
    -- neither the address nor the scope has a closing bracket
    rw [hv] at hh
    obtain ⟨hne, hb, hs⟩ := hh
    have hc : cut ']' (u.host ++ after '%' (Url.digits u.scopeId) ++
        ']' :: after ':' (Url.digits u.port)) = (u.host ++ after '%' (Url.digits u.scopeId),
          some (after ':' (Url.digits u.port))) := by
      refine cut_append (o := some _) fun hm => (mem_append.mp hm).elim hb ?_
      exact notMem_digits rfl (by decide) _
    simp only [if_true, splitAuthority, hc, cut_append hs]
    obtain ⟨c, host, hu⟩ := exists_cons_of_ne_nil hne
    rw [hu]
    cases u.port <;> rfl
  | false =>
    -- a name does not begin with a bracket, so the first branch is not taken
    rw [hv] at hh
    simp only [Bool.false_eq_true, if_false]
    unfold splitAuthority
    split
    · next rest heq =>
      refine absurd ?_ hh.2
      cases hu : u.host with
      | nil => cases hp : Url.digits u.port <;> rw [hu, hp] at heq <;> cases heq
      | cons c host =>
        rw [hu] at heq
        cases heq
        rfl
    · simp [cut_append hh.1, h.scope hv, Url.digits]

theorem parse_display (hq : u.path = [] → u.query = none) : parse u.display = .ok u.rooted := by
  -- what follows the authority begins with a slash, if anything does
  obtain ⟨below, hb, hn⟩ :
      ∃ below, u.path ++ after '?' u.query = after '/' below ∧ '?' ∉ u.path := by
    rcases h.path with hp | ⟨below, hp, hn⟩
    · exact ⟨none, by simp [hp, hq hp, after], by simp [hp]⟩
    · exact ⟨some (below ++ after '?' u.query), by simp [hp, after], by simp [hp, hn]⟩
  have hs : Scheme.parse u.scheme.asStr = .ok u.scheme := by cases u.scheme <;> rfl
  unfold parse Url.display
  rw [append_assoc, append_assoc, splitScheme_asStr, hb]
  simp only [Option.elim_some, hs, cut_append (notMem_authority h), bind, Except.bind]
  rw [← hb]
  simp only [splitPath, cut_append hn, splitAuthority_authority h, number_digits]
  rfl

end Written

/-! ## What was read -/

/-- The host of an authority has none of the characters that end a host. -/
theorem splitAuthority_ok {host : List Char} {port scope : Option (List Char)} {v6 : Bool}
    (h : splitAuthority text = .ok (host, port, v6, scope)) :
    (∀ c ∈ host, c ∈ text) ∧ Url.IsHost host v6 ∧ (v6 = false → scope = none) := by
  unfold splitAuthority at h
  split at h
  · next rest =>
    split at h
    · cases h
    · next address remainder hc =>
      obtain ⟨scope', hi, hne, rfl⟩ : ∃ s, cut '%' address = (host, s) ∧ host ≠ [] ∧ v6 = true := by
        split at h <;> cases h
        · next hi => exact ⟨_, hi, by simp_all, rfl⟩
        · next hi => exact ⟨_, hi, by simp_all, rfl⟩
      obtain rfl : host = (cut '%' address).1 := by rw [hi]
      obtain rfl : address = (cut ']' rest).1 := by rw [hc]
      refine ⟨fun c hm => mem_cons_of_mem _ (mem_of_cut (mem_of_cut hm)),
        ⟨hne, fun hm => ?_, ?_⟩, by simp⟩
      · exact (cut_spec ']' rest).1 (mem_of_cut hm)
      · exact (cut_spec '%' _).1
  · next hno =>
    cases h
    refine ⟨fun c => mem_of_cut, ⟨(cut_spec ':' text).1, fun heq => ?_⟩, fun _ => rfl⟩
    obtain ⟨host, hh⟩ := head?_eq_some_iff.mp heq
    have ht := (cut_spec ':' text).2
    rw [hh] at ht
    exact hno _ ht

/-- A path begins with a slash, and a query comes after it. -/
theorem splitPath_spec (below : Option (List Char)) : ∃ b,
    (splitPath (after '/' below)).1 = '/' :: b ∧ '?' ∉ b ∧ ((splitPath (after '/' below)).2 = none ∨
      after '/' below = '/' :: b ++ after '?' (splitPath (after '/' below)).2) := by
  cases below with
  | none => exact ⟨[], rfl, not_mem_nil, .inl rfl⟩
  | some below =>
    obtain ⟨hn, hb⟩ := cut_spec '?' below
    exact ⟨(cut '?' below).1, rfl, hn, .inr (congrArg ('/' :: ·) hb)⟩

/-- What was parsed is well formed and has a path, and its query comes after a slash. -/
theorem parse_eq_ok (h : parse text = .ok u) : u.WellFormed ∧ u.path ≠ [] ∧ ∃ scheme rest,
    splitScheme text = some (scheme, rest) ∧
      (u.query = none ∨ ∃ a b, rest = a ++ '/' :: b ++ after '?' u.query) := by
  obtain ⟨⟨scheme, rest⟩, hs, h⟩ := bind_eq_ok.mp h
  obtain ⟨_, -, h⟩ := bind_eq_ok.mp h
  obtain ⟨⟨host, port, v6, scope⟩, ha, h⟩ := bind_eq_ok.mp h
  obtain ⟨_, -, h⟩ := bind_eq_ok.mp h
  obtain ⟨scopeId, hn, h⟩ := bind_eq_ok.mp h
  cases h
  have hs : splitScheme text = some (scheme, rest) := by
    cases hsp : splitScheme text <;> rw [hsp] at hs <;> cases hs
    rfl
  obtain ⟨hsub, hh, hsc⟩ := splitAuthority_ok ha
  obtain ⟨hc, hr⟩ := cut_spec '/' rest
  obtain ⟨b, hp, hb, hq⟩ := splitPath_spec (cut '/' rest).2
  refine ⟨⟨hh, fun hv => ?_, fun hm => hc (hsub _ hm), .inr ⟨b, hp, hb⟩⟩,
    ne_of_eq_of_ne hp (cons_ne_nil _ _), scheme, rest, hs,
    hq.imp_right fun hq => ⟨(cut '/' rest).1, b, ?_⟩⟩
  · rw [hsc hv] at hn
    cases hn
    rfl
  · rw [append_assoc]
    exact hr.trans (congrArg _ hq)

/-- **Parsing inverts writing exactly if a query comes after a path**, and what was parsed is parsed
again from what is written for it. -/
theorem parse_inverts_iff (u : Url) :
    (u.WellFormed → (parse u.display = .ok u.rooted ↔ (u.path = [] → u.query = none))) ∧
      ∀ text, parse text = .ok u → parse u.display = .ok u := by
  refine ⟨fun hu => ⟨fun h hp => ?_, parse_display hu⟩, fun text h => ?_⟩
  · -- a query that follows the authority would have to come after a slash
    obtain ⟨-, -, scheme, rest, hs, hq⟩ := parse_eq_ok h
    rw [Url.display, hp, append_nil, append_assoc, splitScheme_asStr] at hs
    cases hs
    refine hq.resolve_right ?_
    rintro ⟨a, b, heq⟩
    exact notMem_authority hu (append_cancel_right heq ▸ mem_append_right _ mem_cons_self)
  · obtain ⟨hr, hne, -⟩ := parse_eq_ok h
    have hro : u.rooted = u := by simp [Url.rooted, hne]
    rw [parse_display hr fun hp => absurd hp hne, hro]

def Url.scoped : Url :=
  ⟨.https, "fe80::1".toList, true, some 3, some 8443, "/a".toList, some "b=/?c".toList⟩

theorem scoped_url_read_back :
    Url.scoped.display = "https://[fe80::1%3]:8443/a?b=/?c".toList ∧
      parse Url.scoped.display = .ok Url.scoped :=
  ⟨by decide, ((parse_inverts_iff Url.scoped).1
    ⟨by decide, by decide, by decide, .inr ⟨['a'], rfl, by decide⟩⟩).2 (by decide)⟩

/-- A URL with a query and no path. -/
def Url.bare : Url := ⟨.http, ['a'], false, none, none, [], some ['q']⟩

/-- The query of `http://a?q` is taken for a part of the host. -/
theorem query_read_as_host :
    Url.bare.WellFormed ∧ Url.bare.display = "http://a?q".toList ∧
      Url.bare.rooted = ⟨.http, ['a'], false, none, none, ['/'], some ['q']⟩ ∧
      parse Url.bare.display = .ok ⟨.http, "a?q".toList, false, none, none, ['/'], none⟩ :=
  ⟨⟨by decide, by decide, by decide, .inl rfl⟩, by decide, rfl, by decide⟩

end Web
end Myrmic
