import SimplestWeb.Lib.Framing
import SimplestWeb.Mongoose.HttpMessage
import Mathlib.Data.List.TakeWhile
import Mathlib.Data.Nat.Digits.Lemmas

/-!
# Chunked bodies

`IsChunk` is the format of a chunk; `mgHttpParseChunk` finds these and nothing
else (`mgHttpParseChunk_eq_some`), so chunks are a `Framing`, and
`collectChunks` computes its `Frames` (`collectChunks_iff`). What
`mg_send_http_chunk` writes is read back (`collectChunks_encode`).

`mg_handle_chunked` sets the message length to "len(body) + len(headers)", as its
comment has it, only if nothing is buffered behind the empty chunk: otherwise
that counts as well (`messageLen_eq_iff`).
-/

namespace SimplestWeb.Mongoose

open SimplestWeb.Lib (Framing)

variable {s t enc enc' rest data body hex : Bytes} {n i : Nat}

/-! ## The format of a chunk -/

/-- `isxdigit`. -/
def isxdigit (b : UInt8) : Bool := (hexDigit b).isSome

/-- The number a row of hexadecimal digits stands for. -/
def hexValue (hex : Bytes) : Nat := (hex.filterMap hexDigit).foldl (fun n d => n * 16 + d) 0

/-- `hex` is the length line of a chunk with `n` bytes. -/
structure IsLength (hex : Bytes) (n : Nat) : Prop where
  ne : hex ≠ []
  short : hex.length ≤ 6
  digits : ∀ b ∈ hex, isxdigit b = true
  value : hexValue hex = n

/-- A chunk: the length in hexadecimal and the data, each ended by CR LF. -/
inductive IsChunk : Bytes → Bytes → Prop
  | mk {hex data : Bytes} (h : IsLength hex data.length) :
      IsChunk (hex ++ cr :: lf :: (data ++ [cr, lf])) data

theorem length_filterMap_hexDigit (h : ∀ b ∈ hex, isxdigit b = true) :
    (hex.filterMap hexDigit).length = hex.length := by
  induction hex with
  | nil => rfl
  | cons b hex ih =>
    obtain ⟨d, hd⟩ := Option.isSome_iff_exists.mp (h b List.mem_cons_self)
    rw [List.filterMap_cons_some hd, List.length_cons, List.length_cons,
      ih fun b hb => h b (List.mem_cons_of_mem _ hb)]

/-- The test for the end of a line. -/
theorem crlf_at :
    (s[i]? != some cr || s[i + 1]? != some lf) = true ↔ ¬ ∃ r, s.drop i = cr :: lf :: r := by
  have h₀ : s[i]? = (s.drop i)[0]? := by rw [List.getElem?_drop, Nat.add_zero]
  have h₁ : s[i + 1]? = (s.drop i)[1]? := by rw [List.getElem?_drop]
  rw [h₀, h₁]
  generalize s.drop i = l
  match l with
  | [] => simp
  | [a] => simp
  | a :: b :: r => simp; tauto

/-- The data starts behind the length line. -/
theorem drop_length_line (hex r : Bytes) (a b : UInt8) :
    (hex ++ a :: b :: r).drop (hex.length + 2) = r := by
  rw [Nat.add_comm, ← List.drop_drop]
  rw [List.drop_drop, Nat.add_comm, ← List.drop_drop, List.drop_left]
  rfl

/-- A length is accepted. -/
theorem lengthLine_accepted (h : IsLength hex n) :
    ((hex.filterMap hexDigit).isEmpty || decide (6 < hex.length)) ≠ true := by
  have hcount := length_filterMap_hexDigit h.digits
  have hshort := h.short
  rw [Ne, Bool.or_eq_true, not_or, List.isEmpty_iff, decide_eq_true_iff, Nat.not_lt]
  refine ⟨?_, hshort⟩
  intro hnil
  rw [hnil, List.length_nil] at hcount
  exact h.ne (List.length_eq_zero_iff.mp hcount.symm)

/-- A chunk is found at the front of a buffer. -/
theorem IsChunk.parse (h : IsChunk enc data) (t : Bytes) :
    mgHttpParseChunk (enc ++ t) = some (enc.length, data) := by
  obtain @⟨hex, data, hl⟩ := h
  have heq : hex ++ cr :: lf :: (data ++ [cr, lf]) ++ t =
      hex ++ cr :: lf :: (data ++ cr :: lf :: t) := by
    simp only [List.append_assoc, List.cons_append, List.nil_append]
  have htake : (hex ++ cr :: lf :: (data ++ cr :: lf :: t)).takeWhile isxdigit = hex := by
    rw [List.takeWhile_append_of_pos hl.digits, List.takeWhile_cons_of_neg (by decide),
      List.append_nil]
  have hlen : (hex ++ cr :: lf :: (data ++ [cr, lf])).length = hex.length + 2 + data.length + 2 := by
    simp only [List.length_append, List.length_cons, List.length_nil]
    omega
  unfold mgHttpParseChunk
  rw [heq, show (fun b => (hexDigit b).isSome) = isxdigit from rfl, htake]
  dsimp only
  rw [length_filterMap_hexDigit hl.digits, drop_length_line,
    show List.foldl _ _ _ = hexValue hex from rfl, hl.value, if_neg (lengthLine_accepted hl),
    if_neg fun h => crlf_at.mp h ⟨_, List.drop_left⟩,
    if_neg fun h => crlf_at.mp h ⟨_, List.drop_left⟩, List.take_left, hlen]

/-- **What is accepted is a chunk.** -/
theorem mgHttpParseChunk_eq_some :
    mgHttpParseChunk s = some (n, data) ↔
      ∃ enc t, s = enc ++ t ∧ IsChunk enc data ∧ enc.length = n := by
  constructor
  · intro h
    unfold mgHttpParseChunk at h
    rw [show (fun b => (hexDigit b).isSome) = isxdigit from rfl] at h
    have hdig : ∀ b ∈ s.takeWhile isxdigit, isxdigit b = true := fun b hb =>
      List.mem_takeWhile_imp hb
    have hs : s.takeWhile isxdigit ++ s.dropWhile isxdigit = s := List.takeWhile_append_dropWhile
    generalize s.takeWhile isxdigit = hex at h hdig hs
    generalize s.dropWhile isxdigit = tail at hs
    subst hs
    dsimp only at h
    rw [length_filterMap_hexDigit hdig, show List.foldl _ _ _ = hexValue hex from rfl] at h
    split at h
    next => cases h
    next hline =>
      split at h
      next => cases h
      next hcrlf =>
        split at h
        next => cases h
        next hend =>
          injection h with h
          injection h with hn hdata
          -- the two line ends are where the tests have found them
          obtain ⟨r, hr⟩ := not_not.mp (mt crlf_at.mpr hcrlf)
          obtain ⟨t, ht⟩ := not_not.mp (mt crlf_at.mpr hend)
          rw [List.drop_left] at hr
          subst hr
          rw [drop_length_line] at ht hdata
          have hlt : hexValue hex < r.length := by
            have := congrArg List.length ht
            rw [List.length_drop, List.length_cons] at this
            omega
          have hlen : data.length = hexValue hex := by
            rw [← hdata, List.length_take]
            omega
          have hl : IsLength hex data.length := by
            rw [Bool.or_eq_true, not_or, decide_eq_true_iff] at hline
            refine ⟨?_, by omega, hdig, hlen.symm⟩
            rintro rfl
            exact hline.1 rfl
          refine ⟨_, t, ?_, ⟨hl⟩, ?_⟩
          · rw [← List.take_append_drop (hexValue hex) r, ht, hdata]
            simp only [List.append_assoc, List.cons_append, List.nil_append]
          · simp only [List.length_append, List.length_cons, List.length_nil]
            omega
  · rintro ⟨enc, t, rfl, hc, rfl⟩
    exact hc.parse t

/-! ## Encoding -/

/-- The digit for `d < 16`. -/
def hexByte (d : Nat) : UInt8 := UInt8.ofNat (if d < 10 then 48 + d else 55 + d)

/-- What `%lX` prints. -/
def printLX (n : Nat) : Bytes :=
  if n = 0 then [hexByte 0] else (Nat.digits 16 n).reverse.map hexByte

/-- `mg_send_http_chunk`. -/
def mgSendHttpChunk (data : Bytes) : Bytes :=
  printLX data.length ++ cr :: lf :: (data ++ [cr, lf])

/-- A body in chunks, the last of which is empty. -/
def chunkedBody (datas : List Bytes) : Bytes :=
  (datas.map mgSendHttpChunk).flatten ++ mgSendHttpChunk []

/-- The digits that `%lX` writes are read back … -/
theorem hexDigit_hexByte : ∀ d < 16, hexDigit (hexByte d) = some d := by decide

/-- … and so are numbers. -/
theorem hexValue_map_hexByte {ds : List Nat} (h : ∀ d ∈ ds, d < 16) :
    hexValue (ds.reverse.map hexByte) = Nat.ofDigits 16 ds := by
  have hds : (ds.reverse.map hexByte).filterMap hexDigit = ds.reverse := by
    rw [List.filterMap_map, List.filterMap_congr (g := some), List.filterMap_some]
    intro d hd
    exact hexDigit_hexByte d (h d (List.mem_reverse.mp hd))
  unfold hexValue
  rw [hds, List.foldl_reverse, Nat.ofDigits_eq_foldr]
  congr 1
  funext d n
  show n * 16 + d = d + 16 * n
  omega

/-- What `%lX` writes for less than 16 MiB is a length. -/
theorem printLX_isLength (h : n < 16 ^ 6) : IsLength (printLX n) n := by
  unfold printLX
  split
  next hn =>
    subst hn
    refine ⟨by decide, by decide, ?_, by decide⟩
    intro b hb
    rw [List.mem_singleton.mp hb]
    decide
  next hn =>
    have hlt : ∀ d ∈ Nat.digits 16 n, d < 16 := fun d hd => Nat.digits_lt_base (by decide) hd
    refine ⟨?_, ?_, ?_, ?_⟩
    · rw [Ne, List.map_eq_nil_iff, List.reverse_eq_nil_iff]
      exact Nat.digits_ne_nil_iff_ne_zero.mpr hn
    · rw [List.length_map, List.length_reverse]
      exact (Nat.digits_length_le_iff (by decide) n).mpr h
    · intro b hb
      obtain ⟨d, hd, rfl⟩ := List.mem_map.mp hb
      unfold isxdigit
      rw [hexDigit_hexByte d (hlt d (List.mem_reverse.mp hd))]
      rfl
    · rw [hexValue_map_hexByte hlt]
      exact Nat.ofDigits_digits 16 n

/-- Data of up to sixteen megabytes fits into one chunk. -/
theorem mgSendHttpChunk_isChunk (h : data.length < 16 ^ 6) : IsChunk (mgSendHttpChunk data) data :=
  ⟨printLX_isLength h⟩

/-! ## Reassembly -/

/-- Chunks delimit themselves. -/
def chunkFraming : Framing UInt8 Bytes where
  parse := mgHttpParseChunk
  bounds := by
    intro s n b h
    obtain ⟨enc, t, rfl, ⟨hl⟩, rfl⟩ := mgHttpParseChunk_eq_some.mp h
    simp only [List.length_append, List.length_cons]
    omega
  stable := by
    intro s n b t h
    obtain ⟨enc, u, rfl, hc, rfl⟩ := mgHttpParseChunk_eq_some.mp h
    rw [List.append_assoc]
    exact hc.parse (u ++ t)

/-- The chunks at the front of a buffer, up to the empty one. -/
abbrev Chunks (s : Bytes) (datas : List Bytes) (rest : Bytes) (zero : Bool) : Prop :=
  chunkFraming.Frames (· = []) s datas rest zero

theorem chunkFraming_data_le (h : chunkFraming.parse s = some (n, data)) :
    data.length + (s.drop n).length ≤ s.length := by
  obtain ⟨enc, t, rfl, ⟨hl⟩, rfl⟩ := mgHttpParseChunk_eq_some.mp h
  rw [List.drop_left]
  simp only [List.length_append, List.length_cons]
  omega

/-- The buffer does not grow when the framing is removed. -/
theorem Chunks.length_le {datas : List Bytes} {zero : Bool} (h : Chunks s datas rest zero) :
    datas.flatten.length + rest.length ≤ s.length := by
  induction h with
  | stop _ =>
    rw [List.flatten_nil, List.length_nil]
    omega
  | last hp hb =>
    have hle := chunkFraming_data_le hp
    rw [List.flatten_singleton]
    exact hle
  | next hp _ _ ih =>
    have hle := chunkFraming_data_le hp
    rw [List.flatten_cons, List.length_append]
    omega

/-- The loop takes all of the chunks. -/
theorem Chunks.collect {datas : List Bytes} {zero : Bool} (h : Chunks s datas rest zero) :
    ∀ {fuel : Nat}, s.length < fuel → collectChunks fuel s = (datas.flatten, rest, zero) := by
  induction h with
  | stop h =>
    intro fuel hf
    obtain ⟨fuel, rfl⟩ : ∃ k, fuel = k + 1 := ⟨fuel - 1, by omega⟩
    unfold collectChunks
    rw [show mgHttpParseChunk _ = none from h]
    rfl
  | @last s n b h hb =>
    intro fuel hf
    obtain ⟨fuel, rfl⟩ : ∃ k, fuel = k + 1 := ⟨fuel - 1, by omega⟩
    unfold collectChunks
    rw [show mgHttpParseChunk s = some (n, b) from h, hb]
    rfl
  | @next s rest n b datas zero h hb _ ih =>
    intro fuel hf
    obtain ⟨fuel, rfl⟩ : ∃ k, fuel = k + 1 := ⟨fuel - 1, by omega⟩
    have hpos := chunkFraming.bounds h
    have hlt : (s.drop n).length < fuel := by
      rw [List.length_drop]
      omega
    unfold collectChunks
    rw [show mgHttpParseChunk s = some (n, b) from h]
    dsimp only
    rw [if_neg (mt List.isEmpty_iff.mp hb), ih hlt]
    rfl

/-- **`collectChunks` reads the chunks that are buffered**, and nothing else. -/
theorem collectChunks_iff {fuel : Nat} {zero : Bool} (hf : s.length < fuel) :
    collectChunks fuel s = (body, rest, zero) ↔
      ∃ datas, Chunks s datas rest zero ∧ body = datas.flatten := by
  constructor
  · intro h
    obtain ⟨datas, rest', zero', hc⟩ := Framing.Frames.exists chunkFraming (· = []) s
    rw [Chunks.collect hc hf] at h
    cases h
    exact ⟨datas, hc, rfl⟩
  · rintro ⟨datas, hc, rfl⟩
    exact hc.collect hf

/-- The chunks of an encoded body, with the empty one and anything else behind them. -/
theorem chunks_encode {datas : List Bytes} (h : ∀ d ∈ datas, d ≠ [] ∧ d.length < 16 ^ 6)
    (t : Bytes) :
    Chunks (chunkedBody datas ++ t) (datas ++ [[]]) t true := by
  have hp : ∀ {d}, d.length < 16 ^ 6 → chunkFraming.Encodes (mgSendHttpChunk d) d := by
    intro d hd
    have := (mgSendHttpChunk_isChunk hd).parse []
    rwa [List.append_nil] at this
  have henc : List.Forall₂ chunkFraming.Encodes (datas.map mgSendHttpChunk) datas := by
    rw [List.forall₂_map_left_iff, List.forall₂_same]
    intro d hd
    exact hp (h d hd).2
  exact Framing.Frames.of_encodes henc (fun d hd => (h d hd).1) (hp (by decide)) rfl t

/-- **Round trip**: what was sent chunk by chunk is read back, and `t`, behind the empty
chunk, is left. -/
theorem collectChunks_encode {datas : List Bytes} (h : ∀ d ∈ datas, d ≠ [] ∧ d.length < 16 ^ 6)
    (t : Bytes) {fuel : Nat} (hf : (chunkedBody datas ++ t).length < fuel) :
    collectChunks fuel (chunkedBody datas ++ t) = (datas.flatten, t, true) := by
  rw [Chunks.collect (chunks_encode h t) hf, List.flatten_concat, List.append_nil]

theorem collectChunks_encode_hello :
    collectChunks 100 (chunkedBody [cstr "hel", cstr "lo"] ++ cstr "GET") =
      ([cstr "hel", cstr "lo"].flatten, cstr "GET", true) :=
  collectChunks_encode (by decide) (cstr "GET") (by decide)

/-! ## `mg_handle_chunked` -/

/-- The buffer and the message after the framing has been removed. -/
theorem mgHandleChunked_eq {head : Bytes} {hm : HttpMessage} {datas : List Bytes} {zero : Bool}
    (h : Chunks s datas rest zero) (hne : datas ≠ []) :
    mgHandleChunked (head ++ s) head.length hm =
      (head ++ datas.flatten ++ rest,
        { hm with bodyLen := datas.flatten.length
                  messageLen := if zero then (head ++ datas.flatten ++ rest).length
                    else hm.messageLen }) := by
  have hle := Framing.Frames.length_le h
  have hpos := List.length_pos_iff.mpr hne
  unfold mgHandleChunked
  rw [List.drop_left, List.take_left]
  dsimp only
  rw [Chunks.collect h (Nat.lt_succ_self _)]
  dsimp only
  rw [if_neg (by omega)]

/-- A buffer that does not start with a chunk stays as it is. -/
theorem mgHandleChunked_none {head : Bytes} {hm : HttpMessage} (h : mgHttpParseChunk s = none) :
    mgHandleChunked (head ++ s) head.length hm = (head ++ s, hm) := by
  have hstop : Chunks s [] s false := .stop h
  unfold mgHandleChunked
  rw [List.drop_left]
  dsimp only
  rw [Chunks.collect hstop (Nat.lt_succ_self _)]
  dsimp only
  rw [if_pos rfl]

/-- The buffer does not grow. -/
theorem mgHandleChunked_length_le (buf : Bytes) (reqLen : Nat) (hm : HttpMessage) :
    (mgHandleChunked buf reqLen hm).1.length ≤ buf.length := by
  obtain ⟨datas, rest, zero, hc⟩ := Framing.Frames.exists chunkFraming (· = []) (buf.drop reqLen)
  have hle := Chunks.length_le hc
  unfold mgHandleChunked
  dsimp only
  rw [Chunks.collect hc (Nat.lt_succ_self _)]
  dsimp only
  split
  next => exact Nat.le_refl _
  next =>
    rw [List.length_append, List.length_append, List.length_take]
    rw [List.length_drop] at hle
    omega

/-- **The message ends with its body if and only if** nothing is buffered behind the
empty chunk. -/
theorem messageLen_eq_iff {head : Bytes} {hm : HttpMessage} {datas : List Bytes}
    (h : Chunks s datas rest true) (hne : datas ≠ []) :
    (mgHandleChunked (head ++ s) head.length hm).2.messageLen =
      head.length + (mgHandleChunked (head ++ s) head.length hm).2.bodyLen ↔ rest = [] := by
  rw [mgHandleChunked_eq h hne]
  dsimp only
  rw [if_pos rfl, List.length_append, List.length_append, ← List.length_eq_zero_iff]
  omega

end SimplestWeb.Mongoose
