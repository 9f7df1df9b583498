import SimplestWeb.Lib.Framing
import SimplestWeb.Lib.Octets
import SimplestWeb.Mongoose.HttpMessage

/-!
# Websocket frames

A frame has an octet of flags, a length in one, two or eight octets, a mask if it
comes from a client, and the payload. `mgSendWebsocketFrame` writes it
(`mongoose.c`, line 9998); `wsLengths` and `WsLengths.payload` are what
`mg_deliver_websocket_data` (line 9837) does to read it.

Frames are a `Framing` (`wsFraming`), and what is written is read back whatever the
flags and the mask, if the length of the data is an `int` (`mgSendWebsocketFrame_encodes`).

Mirroring notes:
- `mg_send` takes its length as an `int`. A negative one is refused by
  `mbuf_insert`, where `buf` is above the first two gigabytes.
-/

namespace SimplestWeb.Mongoose

open SimplestWeb.Lib (Framing)
open SimplestWeb.Lib.Octets

variable {s t : Bytes}

def FLAGS_MASK_FIN : UInt8 := 128
def FLAGS_MASK_OP : UInt8 := 15

def WEBSOCKET_OP_CONTINUE : Nat := 0
def WEBSOCKET_OP_TEXT : Nat := 1
def WEBSOCKET_OP_BINARY : Nat := 2
def WEBSOCKET_OP_CLOSE : Nat := 8
def WEBSOCKET_OP_PING : Nat := 9
def WEBSOCKET_OP_PONG : Nat := 10
def WEBSOCKET_DONT_FIN : Nat := 256

structure WsFrame where
  flags : UInt8
  payload : Bytes
  deriving DecidableEq, Repr

/-! ## Reading -/

/-- `mask_len`, `header_len` and `data_len`; the last two are 0 where the header is not
complete. -/
structure WsLengths where
  maskLen : Nat
  headerLen : Nat
  dataLen : Nat
  deriving DecidableEq, Repr

def wsLengths (newData : Bytes) : WsLengths :=
  match newData with
  | _ :: b :: rest =>
    let len := (b &&& 127).toNat
    let maskLen := if b &&& FLAGS_MASK_FIN ≠ 0 then 4 else 0
    if len < 126 ∧ maskLen ≤ newData.length then ⟨maskLen, 2 + maskLen, len⟩
    else if len = 126 ∧ 4 + maskLen ≤ newData.length then ⟨maskLen, 4 + maskLen, ofBE (rest.take 2)⟩
    else if 10 + maskLen ≤ newData.length then
      ⟨maskLen, 10 + maskLen, ofBE (rest.take 4) * 2 ^ 32 + ofBE ((rest.drop 4).take 4)⟩
    else ⟨maskLen, 0, 0⟩
  | _ => ⟨0, 0, 0⟩

/-- The data behind the header, without the mask. -/
def WsLengths.payload (l : WsLengths) (newData : Bytes) : Bytes :=
  let data := (newData.drop l.headerLen).take l.dataLen
  if 0 < l.maskLen then xorKey ((newData.drop (l.headerLen - l.maskLen)).take l.maskLen) data
  else data

/-- The frame at the front of a buffer, and its length. -/
def wsFrame (s : Bytes) : Option (Nat × WsFrame) :=
  let l := wsLengths s
  let n := l.headerLen + l.dataLen
  if 0 < n ∧ n ≤ s.length ∧ n < 2 ^ 64 then some (n, ⟨s.headD 0, l.payload s⟩) else none

/-- Either there is a header, with its mask, or nothing is known of the length. -/
theorem wsLengths_cases (s : Bytes) :
    2 + (wsLengths s).maskLen ≤ (wsLengths s).headerLen ∧ 2 ≤ s.length ∨
      (wsLengths s).headerLen = 0 ∧ (wsLengths s).dataLen = 0 := by
  match s with
  | [] => exact Or.inr ⟨rfl, rfl⟩
  | [_] => exact Or.inr ⟨rfl, rfl⟩
  | a :: b :: rest =>
    have hlen : 2 ≤ (a :: b :: rest).length := by
      simp only [List.length_cons]
      omega
    unfold wsLengths
    dsimp only
    generalize (if b &&& FLAGS_MASK_FIN ≠ 0 then 4 else 0) = m
    split
    · exact Or.inl ⟨Nat.le_refl _, hlen⟩
    · split
      · exact Or.inl ⟨Nat.add_le_add_right (by decide) m, hlen⟩
      · split
        · exact Or.inl ⟨Nat.add_le_add_right (by decide) m, hlen⟩
        · exact Or.inr ⟨rfl, rfl⟩

/-- What comes behind a complete header does not change it. -/
theorem wsLengths_append (t : Bytes) (h : 0 < (wsLengths s).headerLen) :
    wsLengths (s ++ t) = wsLengths s := by
  match s with
  | [] => exact absurd h (Nat.lt_irrefl 0)
  | [_] => exact absurd h (Nat.lt_irrefl 0)
  | a :: b :: rest =>
    have hm : (if b &&& FLAGS_MASK_FIN ≠ 0 then 4 else 0) ≤ 4 := by
      split
      · exact Nat.le_refl 4
      · exact Nat.zero_le 4
    have hlen : (a :: b :: (rest ++ t)).length = (a :: b :: rest).length + t.length := by
      simp only [List.length_cons, List.length_append]
      omega
    have hrest : (a :: b :: rest).length = rest.length + 2 := rfl
    rw [List.cons_append, List.cons_append]
    unfold wsLengths at h ⊢
    dsimp only at h ⊢
    rw [hlen]
    generalize (if b &&& FLAGS_MASK_FIN ≠ 0 then 4 else 0) = m at h hm ⊢
    by_cases hshort : (b &&& 127).toNat < 126 ∧ m ≤ (a :: b :: rest).length
    · rw [if_pos hshort, if_pos (by omega)]
    · rw [if_neg hshort] at h ⊢
      by_cases hmedium : (b &&& 127).toNat = 126 ∧ 4 + m ≤ (a :: b :: rest).length
      · rw [if_pos hmedium, if_neg (by omega), if_pos (by omega),
          List.take_append_of_le_length (by omega)]
      · rw [if_neg hmedium] at h ⊢
        by_cases hlong : 10 + m ≤ (a :: b :: rest).length
        · rw [if_pos hlong, if_neg (by omega), if_neg (by omega), if_pos (by omega),
            List.take_append_of_le_length (by omega), List.drop_append_of_le_length (by omega),
            List.take_append_of_le_length (by rw [List.length_drop]; omega)]
        · rw [if_neg hlong] at h
          exact absurd h (Nat.lt_irrefl 0)

/-- The payload of a whole frame does not depend on what is behind it. -/
theorem payload_append {l : WsLengths} (t : Bytes) (hm : l.maskLen ≤ l.headerLen)
    (hle : l.headerLen + l.dataLen ≤ s.length) : l.payload (s ++ t) = l.payload s := by
  unfold WsLengths.payload
  dsimp only
  rw [List.drop_append_of_le_length (by omega),
    List.take_append_of_le_length (by rw [List.length_drop]; omega),
    List.drop_append_of_le_length (by omega),
    List.take_append_of_le_length (by rw [List.length_drop]; omega)]

/-- Frames delimit themselves. -/
def wsFraming : Framing UInt8 WsFrame where
  parse := wsFrame
  bounds := by
    intro s n f h
    unfold wsFrame at h
    dsimp only at h
    split at h
    next hn =>
      cases h
      exact ⟨hn.1, hn.2.1⟩
    next => cases h
  stable := by
    intro s n f t h
    unfold wsFrame at h ⊢
    dsimp only at h ⊢
    split at h
    next hn =>
      rcases wsLengths_cases s with ⟨hheader, hlen⟩ | ⟨h₁, h₂⟩
      · have hhead : (s ++ t).headD 0 = s.headD 0 := by
          cases s with
          | nil => exact absurd hlen (by decide)
          | cons b s => rfl
        rw [wsLengths_append t (by omega), hhead, payload_append t (by omega) hn.2.1,
          List.length_append, if_pos (by omega)]
        exact h
      · omega
    next => cases h

/-! ## Writing -/

/-- The first octet of a header. -/
def wsFlags (op : Nat) : UInt8 :=
  (if op &&& WEBSOCKET_DONT_FIN ≠ 0 then 0 else FLAGS_MASK_FIN) ||| (UInt8.ofNat op &&& FLAGS_MASK_OP)

/-- `mg_send_ws_header`, without the mask. -/
def mgSendWsHeader (masked : Bool) (op len : Nat) : Bytes :=
  let bit := if masked then FLAGS_MASK_FIN else 0
  if len < 126 then [wsFlags op, UInt8.ofNat len ||| bit]
  else if len < 65535 then wsFlags op :: (126 ||| bit) :: toBE 2 len
  else wsFlags op :: (127 ||| bit) :: (toBE 4 (len / 2 ^ 32) ++ toBE 4 (len % 2 ^ 32))

/-- What `mg_send` appends of `data`. -/
def mgSendData (data : Bytes) : Bytes :=
  if data.length % 2 ^ 32 < 2 ^ 31 then data.take (data.length % 2 ^ 32) else []

/-- Below 2³¹ bytes all of the payload is sent. -/
theorem mgSendData_of_lt {data : Bytes} (h : data.length < 2 ^ 31) : mgSendData data = data := by
  have hmod : data.length % 2 ^ 32 = data.length := Nat.mod_eq_of_lt (by omega)
  unfold mgSendData
  rw [hmod, if_pos h, List.take_length]

/-- What `mg_ws_random_mask` returns, as it is sent. -/
structure WsMask where
  key : Bytes
  length : key.length = 4

/-- `mg_send_websocket_frame`; only clients have a mask. -/
def mgSendWebsocketFrame (mask : Option WsMask) (op : Nat) (data : Bytes) : Bytes :=
  match mask with
  | none => mgSendWsHeader false op data.length ++ mgSendData data
  | some mask => mgSendWsHeader true op data.length ++ mask.key ++ xorKey mask.key (mgSendData data)

/-- The second octet has the bit for the mask and a length. -/
theorem second_octet : ∀ (masked : Bool) (k : Nat), k < 128 →
    ((UInt8.ofNat k ||| (if masked then FLAGS_MASK_FIN else 0)) &&& 127).toNat = k ∧
      (((UInt8.ofNat k ||| (if masked then FLAGS_MASK_FIN else 0)) &&& FLAGS_MASK_FIN ≠ 0) ↔
        masked = true) := by
  decide

/-- The length of the mask. -/
def maskLen (masked : Bool) : Nat := if masked then 4 else 0

/-- A header that was written is read back, once the mask is there. -/
theorem wsLengths_header (masked : Bool) (op : Nat) {len : Nat} (hlen : len < 2 ^ 64)
    (ht : maskLen masked ≤ t.length) :
    wsLengths (mgSendWsHeader masked op len ++ t) =
      ⟨maskLen masked, (mgSendWsHeader masked op len).length + maskLen masked, len⟩ := by
  have hmask : ∀ k, k < 128 →
      (if (UInt8.ofNat k ||| (if masked then FLAGS_MASK_FIN else 0)) &&& FLAGS_MASK_FIN ≠ 0
        then 4 else 0) = maskLen masked := by
    intro k hk
    unfold maskLen
    by_cases hmasked : masked = true
    · rw [if_pos ((second_octet masked k hk).2.mpr hmasked), if_pos hmasked]
    · rw [if_neg (mt (second_octet masked k hk).2.mp hmasked), if_neg hmasked]
  unfold mgSendWsHeader
  dsimp only
  -- the length is in the second octet, in the two or in the eight octets behind it
  by_cases hshort : len < 126
  · rw [if_pos hshort]
    show wsLengths (wsFlags op :: _ :: t) = _
    unfold wsLengths
    dsimp only
    rw [hmask len (by omega), (second_octet masked len (by omega)).1,
      if_pos ⟨hshort, by simp only [List.length_cons]; omega⟩]
    rfl
  · rw [if_neg hshort]
    by_cases hmedium : len < 65535
    · rw [if_pos hmedium]
      show wsLengths (wsFlags op :: (UInt8.ofNat 126 ||| _) :: (toBE 2 len ++ t)) = _
      have hsize : 4 + maskLen masked ≤
          (wsFlags op :: (UInt8.ofNat 126 ||| if masked = true then FLAGS_MASK_FIN else 0) ::
            (toBE 2 len ++ t)).length := by
        simp only [List.length_cons, List.length_append, length_toBE]
        omega
      unfold wsLengths
      dsimp only
      rw [hmask 126 (by decide), (second_octet masked 126 (by decide)).1, if_neg (by omega),
        if_pos ⟨rfl, hsize⟩, List.take_left' (length_toBE 2 len), ofBE_toBE (by omega)]
      simp only [List.length_cons, length_toBE]
    · rw [if_neg hmedium]
      show wsLengths (wsFlags op :: (UInt8.ofNat 127 ||| _) ::
        (toBE 4 (len / 2 ^ 32) ++ toBE 4 (len % 2 ^ 32) ++ t)) = _
      have hsize : 10 + maskLen masked ≤
          (wsFlags op :: (UInt8.ofNat 127 ||| if masked = true then FLAGS_MASK_FIN else 0) ::
            (toBE 4 (len / 2 ^ 32) ++ toBE 4 (len % 2 ^ 32) ++ t)).length := by
        simp only [List.length_cons, List.length_append, length_toBE]
        omega
      unfold wsLengths
      dsimp only
      rw [hmask 127 (by decide), (second_octet masked 127 (by decide)).1, if_neg (by omega),
        if_neg (by omega), if_pos hsize, List.append_assoc, List.take_left' (length_toBE 4 _),
        List.drop_left' (length_toBE 4 _), List.take_left' (length_toBE 4 _),
        ofBE_toBE (by omega), ofBE_toBE (by omega), Nat.div_add_mod']
      simp only [List.length_cons, List.length_append, length_toBE]

/-- A header starts with the flags. -/
theorem head_header (masked : Bool) (op len : Nat) (t : Bytes) :
    (mgSendWsHeader masked op len ++ t).headD 0 = wsFlags op := by
  unfold mgSendWsHeader
  dsimp only
  split
  · rfl
  · split
    · rfl
    · rfl

/-- A header has two to ten bytes. -/
theorem length_header_le (masked : Bool) (op len : Nat) :
    2 ≤ (mgSendWsHeader masked op len).length ∧ (mgSendWsHeader masked op len).length ≤ 10 := by
  unfold mgSendWsHeader
  dsimp only
  split
  · simp
  · split
    · simp [length_toBE]
    · simp [length_toBE]

/-- Bytes that are as long as their header says are a frame. -/
theorem wsFrame_exact {l : WsLengths} (hl : wsLengths s = l) (hpos : 0 < s.length)
    (hn : l.headerLen + l.dataLen = s.length) (hlt : s.length < 2 ^ 64) :
    wsFrame s = some (s.length, ⟨s.headD 0, l.payload s⟩) := by
  unfold wsFrame
  dsimp only
  rw [hl, hn, if_pos ⟨hpos, Nat.le_refl _, hlt⟩]

/-- Without a mask the payload is the data. -/
theorem payload_unmasked (header data : Bytes) :
    WsLengths.payload ⟨0, header.length, data.length⟩ (header ++ data) = data := by
  unfold WsLengths.payload
  rw [if_neg (Nat.lt_irrefl 0)]
  dsimp only
  rw [List.drop_left, List.take_length]

/-- With a mask it is the data too. -/
theorem payload_masked (header data : Bytes) (mask : WsMask) :
    WsLengths.payload ⟨4, header.length + 4, data.length⟩
      (header ++ (mask.key ++ xorKey mask.key data)) = data := by
  have hkey := mask.length
  unfold WsLengths.payload
  rw [if_pos (show 0 < 4 by decide)]
  dsimp only
  rw [Nat.add_sub_cancel, List.drop_left, List.take_left' hkey, ← List.drop_drop, List.drop_left,
    List.drop_left' hkey, List.take_of_length_le (Nat.le_of_eq (length_xorKey _ _)), xorKey_xorKey]

/-- **Round trip**: a frame is read back, with the flags and the data it was written with. -/
theorem mgSendWebsocketFrame_encodes (mask : Option WsMask) (op : Nat) {data : Bytes}
    (h : data.length < 2 ^ 31) :
    wsFraming.Encodes (mgSendWebsocketFrame mask op data) ⟨wsFlags op, data⟩ := by
  show wsFrame _ = some _
  cases mask with
  | none =>
    have hheader := length_header_le false op data.length
    have hl := wsLengths_header (t := data) false op (by omega : data.length < 2 ^ 64)
      (Nat.zero_le _)
    have hlen : (mgSendWsHeader false op data.length ++ data).length =
        (mgSendWsHeader false op data.length).length + data.length := List.length_append
    unfold mgSendWebsocketFrame
    dsimp only
    rw [mgSendData_of_lt h, wsFrame_exact hl (by omega) (by rw [hlen]; rfl) (by omega), head_header]
    exact congrArg (fun p => some (_, WsFrame.mk _ p)) (payload_unmasked _ data)
  | some mask =>
    have hheader := length_header_le true op data.length
    have hkey := mask.length
    have htail : (mask.key ++ xorKey mask.key data).length = 4 + data.length := by
      rw [List.length_append, hkey, length_xorKey]
    have hl := wsLengths_header (t := mask.key ++ xorKey mask.key data) true op
      (by omega : data.length < 2 ^ 64) (by rw [htail]; exact Nat.le_add_right 4 _)
    have hlen : (mgSendWsHeader true op data.length ++ (mask.key ++ xorKey mask.key data)).length =
        (mgSendWsHeader true op data.length).length + 4 + data.length := by
      rw [List.length_append, htail]
      omega
    unfold mgSendWebsocketFrame
    dsimp only
    rw [mgSendData_of_lt h, List.append_assoc, wsFrame_exact hl (by omega) (by rw [hlen]; rfl) (by omega), head_header]
    exact congrArg (fun p => some (_, WsFrame.mk _ p)) (payload_masked _ data mask)

end SimplestWeb.Mongoose
