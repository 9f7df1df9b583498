import Mathlib.Data.List.TakeWhile
import Mathlib.Algebra.Group.Nat.Defs

/-!
# `mg_parse_address`

The listening address handed to `mg_bind` (`mongoose.c`, lines 2629–2692),
with the `sscanf` conversions it uses. The only address this program ever
passes is the decimal text of a port number; `mgParseAddress_toString` says
what becomes of it: an `int` is accepted exactly below `0xffff`, as a TCP port.

Mirroring notes:
- `%u` skips blanks, takes an optional sign and converts with `strtoul`, on 64
  bits, which saturates; the result is stored modulo `2 ^ 32`.
- `mg_resolve_from_hosts_file` is a parameter; without the synchronous
  resolver every other host name is refused.
- The C returns the length of the address or a value `≤ 0`; the latter is
  `none` here, as `mg_bind_opt` treats all of them alike.
-/

namespace SimplestWeb.Mongoose

/-- `SOCK_STREAM` or `SOCK_DGRAM`. -/
inductive SockType
  | stream
  | dgram
  deriving DecidableEq, Repr

/-- What `mg_parse_address` stores for `mg_bind_opt`. -/
structure ParsedAddress where
  len : Nat
  port : Nat
  proto : SockType
  deriving DecidableEq, Repr

def MG_MAX_HOST_LEN : Nat := 200

/-- `isspace` in the "C" locale. -/
def isBlank (c : Char) : Bool := c == ' ' || decide (9 ≤ c.toNat ∧ c.toNat ≤ 13)

/-- The number `strtoul` makes of the digits of `v`, as an `unsigned int`. -/
def strtoul (neg : Bool) (v : Nat) : Nat :=
  if 2 ^ 64 ≤ v then 2 ^ 32 - 1
  else if neg then (2 ^ 64 - v) % 2 ^ 32
  else v % 2 ^ 32

/-- `sscanf`'s `%u`: the number and the rest of the input. -/
def scanUnsigned (s : List Char) : Option (Nat × List Char) :=
  let s := s.dropWhile isBlank
  let neg := s.head? == some '-'
  let s := if neg || s.head? == some '+' then s.drop 1 else s
  let ds := s.takeWhile Char.isDigit
  if ds.isEmpty then none
  else some (strtoul neg (Nat.ofDigitChars 10 ds 0), s.dropWhile Char.isDigit)

/-- A literal character of a `sscanf` format. -/
def scanChar (c : Char) (s : List Char) : Option (List Char) :=
  if s.head? = some c then some (s.drop 1) else none

/-- `"%u.%u.%u.%u:%u%n"`: the port and the rest. -/
def scanDotted (s : List Char) : Option (Nat × List Char) := do
  let (_, s) ← scanUnsigned s
  let s ← scanChar '.' s
  let (_, s) ← scanUnsigned s
  let s ← scanChar '.' s
  let (_, s) ← scanUnsigned s
  let s ← scanChar '.' s
  let (_, s) ← scanUnsigned s
  let s ← scanChar ':' s
  scanUnsigned s

/-- `"%[^ :]:%u%n"`: the host, the port and the rest. -/
def scanHost (s : List Char) : Option (List Char × Nat × List Char) := do
  let inHost := fun c => c != ' ' && c != ':'
  let host := s.takeWhile inHost
  if host.isEmpty then none
  else
    let s ← scanChar ':' (s.dropWhile inHost)
    let (port, s) ← scanUnsigned s
    return (host, port, s)

/-- `":%u%n"` or `"%u%n"`: the port and the rest. -/
def scanPort (s : List Char) : Option (Nat × List Char) :=
  (do let s ← scanChar ':' s
      scanUnsigned s) <|> scanUnsigned s

/-- The optional `udp://` or `tcp://` in front. -/
def stripScheme (str : List Char) : SockType × List Char :=
  if "udp://".toList.isPrefixOf str then (.dgram, str.drop 6)
  else if "tcp://".toList.isPrefixOf str then (.stream, str.drop 6)
  else (.stream, str)

/-- The chain of `sscanf`s: the port and what follows the address. -/
def scanAddress (mgResolveFromHostsFile : List Char → Bool) (str : List Char) :
    Option (Nat × List Char) :=
  match scanDotted str with
  | some r => some r
  | none =>
    match if str.length < MG_MAX_HOST_LEN then scanHost str else none with
    | some (host, port, rest) => if mgResolveFromHostsFile host then some (port, rest) else none
    | none => scanPort str

/-- `ch == '\0' || ch == ',' || isspace(ch)` for the character after the
address. -/
def endsAddress (rest : List Char) : Bool :=
  match rest with
  | [] => true
  | ch :: _ => ch == ',' || isBlank ch

/-- `mg_parse_address`. -/
def mgParseAddress (mgResolveFromHostsFile : List Char → Bool) (str : List Char) :
    Option ParsedAddress :=
  let (proto, str) := stripScheme str
  match scanAddress mgResolveFromHostsFile str with
  | none => none
  | some (port, rest) =>
    if port < 0xffff && endsAddress rest then some ⟨str.length - rest.length, port, proto⟩
    else none

/-! ## Decimal port numbers -/

/-- An `unsigned int` is read as it is. -/
theorem strtoul_of_lt {k : Nat} (hk : k < 2 ^ 32) : strtoul false k = k := by
  unfold strtoul
  rw [if_neg (by omega), if_neg (by simp), Nat.mod_eq_of_lt hk]

/-- `%u` reads a decimal numeral to its end. -/
theorem scanUnsigned_digits {ds : List Char} (hne : ds ≠ []) (hds : ∀ c ∈ ds, c.isDigit = true) :
    scanUnsigned ds = some (strtoul false (Nat.ofDigitChars 10 ds 0), []) := by
  obtain ⟨c, cs, rfl⟩ := List.exists_cons_of_ne_nil hne
  have hc : c.isDigit = true := hds c List.mem_cons_self
  have hblank : isBlank c = false := by
    rw [Char.isDigit_iff_toNat] at hc
    simp only [isBlank, Bool.or_eq_false_iff, beq_eq_false_iff_ne, decide_eq_false_iff_not]
    have h0 : '0'.toNat = 48 := rfl
    refine ⟨?_, by omega⟩
    rintro rfl
    exact absurd hc.1 (by decide)
  have hneg : c ≠ '-' := by
    rintro rfl
    cases hc
  have hpos : c ≠ '+' := by
    rintro rfl
    cases hc
  have htake : (c :: cs).takeWhile Char.isDigit = c :: cs :=
    List.takeWhile_eq_self_iff.mpr hds
  have hdrop : (c :: cs).dropWhile Char.isDigit = [] :=
    List.dropWhile_eq_nil_iff.mpr hds
  have hskip : (c :: cs).dropWhile isBlank = c :: cs := by
    rw [List.dropWhile_cons, hblank]
    rfl
  have hminus : (c == '-') = false := beq_eq_false_iff_ne.mpr hneg
  simp [scanUnsigned, hskip, htake, hdrop, hminus, hpos]

/-- A literal that is not a digit does not match a numeral. -/
theorem scanChar_digits {c : Char} (hc : c.isDigit = false) {ds : List Char}
    (hds : ∀ d ∈ ds, d.isDigit = true) : scanChar c ds = none := by
  cases ds with
  | nil => rfl
  | cons d ds =>
    have hd : d ≠ c := by
      rintro rfl
      rw [hds d List.mem_cons_self] at hc
      cases hc
    simp [scanChar, hd]

/-- **The address of a server**: the decimal text of `k` is accepted exactly if
it is read as a number below `0xffff`, and then names that TCP port. -/
theorem mgParseAddress_toString (resolve : List Char → Bool) (k : Nat) :
    mgParseAddress resolve (toString k).toList =
      if strtoul false k < 0xffff then
        some ⟨(toString k).toList.length, strtoul false k, .stream⟩
      else none := by
  have htext : (toString k).toList = Nat.toDigits 10 k := by
    rw [Nat.toString_eq_repr, Nat.toList_repr]
  rw [htext]
  have hds : ∀ c ∈ Nat.toDigits 10 k, c.isDigit = true :=
    fun c hc => Nat.isDigit_of_mem_toDigits (by omega) (by omega) hc
  have hne : Nat.toDigits 10 k ≠ [] := Nat.toDigits_ne_nil
  have hval : Nat.ofDigitChars 10 (Nat.toDigits 10 k) 0 = k := Nat.ofDigitChars_ten_toDigits
  generalize Nat.toDigits 10 k = ds at hds hne hval
  obtain ⟨c, cs, rfl⟩ := List.exists_cons_of_ne_nil hne
  have hscan := scanUnsigned_digits hne hds
  rw [hval] at hscan
  have hc : c.isDigit = true := hds c List.mem_cons_self
  have hu : 'u' ≠ c := by
    rintro rfl
    cases hc
  have ht : 't' ≠ c := by
    rintro rfl
    cases hc
  -- of the formats only that of a port matches
  have hdotted : scanDotted (c :: cs) = none := by
    simp [scanDotted, hscan, scanChar]
  have hhost : scanHost (c :: cs) = none := by
    have hall : ∀ d ∈ c :: cs, (d != ' ' && d != ':') = true := by
      intro d hd
      have := hds d hd
      rw [Bool.and_eq_true, bne_iff_ne, bne_iff_ne]
      constructor <;> rintro rfl <;> cases this
    unfold scanHost
    simp only [List.takeWhile_eq_self_iff.mpr hall, List.dropWhile_eq_nil_iff.mpr hall]
    rfl
  have hport : scanPort (c :: cs) = some (strtoul false k, []) := by
    simp [scanPort, scanChar_digits (c := ':') rfl hds, hscan]
  have hscheme : stripScheme (c :: cs) = (.stream, c :: cs) := by
    simp [stripScheme, hu, ht]
  have haddr : scanAddress resolve (c :: cs) = some (strtoul false k, []) := by
    simp [scanAddress, hdotted, hhost, hport]
  simp only [mgParseAddress, hscheme, haddr]
  simp [endsAddress]

example : mgParseAddress (fun _ => false) "8000".toList = some ⟨4, 8000, .stream⟩ := by decide

end SimplestWeb.Mongoose
