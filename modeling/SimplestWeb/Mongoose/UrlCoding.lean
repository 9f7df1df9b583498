import SimplestWeb.Mongoose.HttpMessage

/-!
# Percent encoding

`mg_url_decode` (`mongoose.c`, line 7248) and `mg_url_encode` (line 10646).
Decoding undoes encoding (`mgUrlDecode_encode`), and an encoded name has no
separators of a URI in it but the ones the name had.

Mirroring notes:
- `mg_url_decode` gives the decoded bytes; `none` is its `-1`. `room` is
  `dst_len - 1`.
- `mg_url_encode` is `mg_url_encode_opt` with its set of safe characters and no flags.
-/

namespace SimplestWeb.Mongoose

def percent : UInt8 := 37

/-- `mg_url_decode`. -/
def mgUrlDecode (form : Bool) : Nat → Bytes → Option Bytes
  | _, [] => some []
  | 0, _ :: _ => none
  | room + 1, b :: s =>
    if b = percent then
      match s with
      | h :: l :: s =>
        match hexDigit h, hexDigit l with
        | some a, some b => (mgUrlDecode form room s).map (UInt8.ofNat (a * 16 + b) :: ·)
        | _, _ => none
      | _ => none
    else
      (mgUrlDecode form room s).map ((if form && b == 43 then space else b) :: ·)

/-- `isalnum`. -/
def isalnum (b : UInt8) : Bool :=
  isdigit b || decide (65 ≤ b ∧ b ≤ 90) || decide (97 ≤ b ∧ b ≤ 122)

/-- `"0123456789abcdef"[n]`. -/
def hexChar (n : Nat) : UInt8 := UInt8.ofNat (if n < 10 then 48 + n else 87 + n)

def urlSafe : Bytes := cstr "._-$,;~()/"

/-- What one byte is encoded as. -/
def urlEncodeByte (b : UInt8) : Bytes :=
  if isalnum b || urlSafe.contains b then [b]
  else [percent, hexChar (b.toNat / 16), hexChar (b.toNat % 16)]

/-- `mg_url_encode`. -/
def mgUrlEncode (src : Bytes) : Bytes := src.flatMap urlEncodeByte

/-! ## Decoding -/

section

variable {form : Bool} {room room' : Nat} {c d src : Bytes}

/-- A decoded component is no longer than it was. -/
theorem mgUrlDecode_length (h : mgUrlDecode form room src = some d) : d.length ≤ src.length := by
  fun_induction mgUrlDecode form room src generalizing d with
  | case1 => exact Option.some.inj h ▸ Nat.le_refl 0
  | case2 => exact absurd h (by simp)
  | case3 room h' l s a b ha hb ih =>
    obtain ⟨d', hd', rfl⟩ := Option.map_eq_some_iff.mp h
    have hle := ih hd'
    simp only [List.length_cons]
    omega
  | case4 => exact absurd h (by simp)
  | case5 => exact absurd h (by simp)
  | case6 room b s hb ih =>
    obtain ⟨d', hd', rfl⟩ := Option.map_eq_some_iff.mp h
    have hle := ih hd'
    simp only [List.length_cons]
    omega

/-- A byte that stands for itself, or for a blank in a form. -/
theorem mgUrlDecode_plain {b : UInt8} (hb : b ≠ percent) : mgUrlDecode form (room + 1) (b :: src) =
    (mgUrlDecode form room src).map ((if form && b == 43 then space else b) :: ·) := by
  conv_lhs => unfold mgUrlDecode
  rw [if_neg hb]

/-- A percent sign and two digits stand for a byte. -/
theorem mgUrlDecode_percent : mgUrlDecode form (room + 1) (percent :: src) =
    match src with
    | h :: l :: src =>
      match hexDigit h, hexDigit l with
      | some a, some b => (mgUrlDecode form room src).map (UInt8.ofNat (a * 16 + b) :: ·)
      | _, _ => none
    | _ => none := by
  conv_lhs => unfold mgUrlDecode
  rw [if_pos rfl]
  rcases src with _ | ⟨x, _ | ⟨y, src⟩⟩
  all_goals rfl

/-- With room for all of it the room does not matter. -/
theorem mgUrlDecode_room (h : src.length ≤ room) (h' : src.length ≤ room') :
    mgUrlDecode form room src = mgUrlDecode form room' src := by
  induction room generalizing src room' with
  | zero =>
    rw [List.length_eq_zero_iff.mp (Nat.le_zero.mp h)]
    unfold mgUrlDecode
    rfl
  | succ room ih =>
    cases src with
    | nil =>
      unfold mgUrlDecode
      rfl
    | cons b src =>
      rw [List.length_cons] at h h'
      obtain ⟨k, rfl⟩ : ∃ k, room' = k + 1 := ⟨room' - 1, by omega⟩
      by_cases hb : b = percent
      · rw [hb, mgUrlDecode_percent, mgUrlDecode_percent]
        rcases src with _ | ⟨x, _ | ⟨y, src⟩⟩
        · rfl
        · rfl
        · simp only [List.length_cons] at h h'
          have hrest : mgUrlDecode form room src = mgUrlDecode form k src :=
            ih (by omega) (by omega)
          show (match hexDigit x, hexDigit y with
            | some a, some b => (mgUrlDecode form room src).map (UInt8.ofNat (a * 16 + b) :: ·)
            | _, _ => none) = _
          rw [hrest]
      · have hrest : mgUrlDecode form room src = mgUrlDecode form k src := ih (by omega) (by omega)
        rw [mgUrlDecode_plain hb, mgUrlDecode_plain hb, hrest]

/-! ## Decoding what has been encoded -/

/-- The digits that are written are read back. -/
theorem hexDigit_hexChar : ∀ n < 16, hexDigit (hexChar n) = some n := by decide

theorem isalnum_hexChar : ∀ n < 16, isalnum (hexChar n) = true := by decide

theorem mgUrlEncode_cons (b : UInt8) (src : Bytes) :
    mgUrlEncode (b :: src) = urlEncodeByte b ++ mgUrlEncode src := rfl

/-- One byte is decoded. -/
theorem mgUrlDecode_byte (b : UInt8) : mgUrlDecode false (room + 1) (urlEncodeByte b ++ src) =
    (mgUrlDecode false room src).map (b :: ·) := by
  unfold urlEncodeByte
  by_cases hsafe : (isalnum b || urlSafe.contains b) = true
  · have hb : b ≠ percent := by
      intro heq
      rw [heq] at hsafe
      exact absurd hsafe (by decide)
    rw [if_pos hsafe, List.singleton_append, mgUrlDecode_plain hb]
    rfl
  · have hlt : b.toNat < 256 := b.toNat_lt
    have hhigh := hexDigit_hexChar (b.toNat / 16) (by omega)
    have hlow := hexDigit_hexChar (b.toNat % 16) (by omega)
    have hbyte : UInt8.ofNat (b.toNat / 16 * 16 + b.toNat % 16) = b := by
      rw [Nat.div_add_mod', UInt8.ofNat_toNat]
    rw [if_neg hsafe]
    show mgUrlDecode false (room + 1) (percent :: hexChar _ :: hexChar _ :: src) = _
    rw [mgUrlDecode_percent]
    dsimp only
    rw [hhigh, hlow]
    dsimp only
    rw [hbyte]

/-- **Round trip.** Decoding undoes encoding, when there is room for the bytes. -/
theorem mgUrlDecode_encode (h : src.length ≤ room) :
    mgUrlDecode false room (mgUrlEncode src) = some src := by
  induction src generalizing room with
  | nil =>
    show mgUrlDecode false room [] = some []
    unfold mgUrlDecode
    rfl
  | cons b src ih =>
    rw [List.length_cons] at h
    obtain ⟨k, rfl⟩ : ∃ k, room = k + 1 := ⟨room - 1, by omega⟩
    rw [mgUrlEncode_cons, mgUrlDecode_byte, ih (by omega)]
    rfl

/-- Encoding makes nothing shorter. -/
theorem length_le_mgUrlEncode (src : Bytes) : src.length ≤ (mgUrlEncode src).length := by
  induction src with
  | nil => exact Nat.zero_le _
  | cons b src ih =>
    have hbyte : 1 ≤ (urlEncodeByte b).length := by
      unfold urlEncodeByte
      split
      all_goals simp
    rw [mgUrlEncode_cons, List.length_append, List.length_cons]
    omega

/-- Encoding puts only letters, digits and percent signs in. -/
theorem mem_mgUrlEncode {a : UInt8} (h : a ∈ mgUrlEncode src) :
    a ∈ src ∨ a = percent ∨ isalnum a = true := by
  obtain ⟨b, hb, ha⟩ := List.mem_flatMap.mp h
  unfold urlEncodeByte at ha
  have hlt : b.toNat < 256 := b.toNat_lt
  split at ha
  · rw [List.mem_singleton.mp ha]
    exact Or.inl hb
  · simp only [List.mem_cons, List.not_mem_nil, or_false] at ha
    rcases ha with ha | ha | ha
    · exact Or.inr (Or.inl ha)
    · rw [ha]
      exact Or.inr (Or.inr (isalnum_hexChar _ (by omega)))
    · rw [ha]
      exact Or.inr (Or.inr (isalnum_hexChar _ (by omega)))

end

end SimplestWeb.Mongoose
