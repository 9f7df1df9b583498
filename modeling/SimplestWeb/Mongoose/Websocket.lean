import Mathlib.Data.List.Forall2
import SimplestWeb.Mongoose.WsFrame

/-!
# Websocket messages

`mg_deliver_websocket_data` (`mongoose.c`, line 9837) takes the frames off the front of
`recv_mbuf`, as long as they are complete, and puts the fragments of a message together
in the same buffer, behind an octet with the flags of the first; `reass_len` is how much
of the buffer that is.

`MakeUp` says which frames make up which messages. In however many pieces the frames arrive,
the handler is shown the messages they make up, each once and in order, and pings are
answered (`stream_reassembled`).

Mirroring notes:
- The connections are those of a server, which send their frames without a mask.
- The handler only looks at the message.
- The overlapping moves inside the buffer are what remains of it, put together.
-/

namespace SimplestWeb.Mongoose

/-! ## The code -/

/-- `struct websocket_message`; `data` is the buffer from its pointer on. -/
structure WebsocketMessage where
  flags : UInt8
  data : Bytes
  size : Nat
  deriving DecidableEq, Repr

/-- What is used of the connection. -/
structure WsConn where
  recvMbuf : Bytes := []
  reassLen : Nat := 0
  sendMbuf : Bytes := []
  sendAndClose : Bool := false
  /-- `MG_F_WEBSOCKET_NO_DEFRAG` -/
  noDefrag : Bool := false
  deriving DecidableEq, Repr

/-- The operation of a frame. -/
def wsOp (flags : UInt8) : Nat := (flags &&& FLAGS_MASK_OP).toNat

def mgIsWsFragment (flags : UInt8) : Bool :=
  flags &&& FLAGS_MASK_FIN == 0 || wsOp flags == WEBSOCKET_OP_CONTINUE

def mgIsWsFirstFragment (flags : UInt8) : Bool :=
  flags &&& FLAGS_MASK_FIN == 0 && wsOp flags != WEBSOCKET_OP_CONTINUE

def mgIsWsControlFrame (flags : UInt8) : Bool :=
  wsOp flags == WEBSOCKET_OP_CLOSE || wsOp flags == WEBSOCKET_OP_PING ||
    wsOp flags == WEBSOCKET_OP_PONG

def strlen (s : Bytes) : Nat := (s.takeWhile (· ≠ 0)).length

def mbufRemove (buf : Bytes) (n : Nat) : Bytes :=
  if 0 < n ∧ n ≤ buf.length then buf.drop n else buf

namespace WsConn

/-- `mg_send_websocket_frame`. -/
def send (c : WsConn) (op : Nat) (data : Bytes) : WsConn :=
  { c with
    sendMbuf := c.sendMbuf ++ mgSendWebsocketFrame none op data
    sendAndClose := c.sendAndClose || op == WEBSOCKET_OP_CLOSE }

/-- `mg_ws_close`; a length that is `~0` as an `int` is that of a string. -/
def mgWsClose (c : WsConn) (data : Bytes) (len : Nat) : WsConn :=
  let len := if len % 2 ^ 32 = 2 ^ 32 - 1 then strlen data else len
  { c.send WEBSOCKET_OP_CLOSE (data.take len) with sendAndClose := true }

/-- `new_data`, behind what has been put together. -/
def newData (c : WsConn) : Bytes := c.recvMbuf.drop c.reassLen

/-- `reass`: the next frame is a fragment. -/
def reass (c : WsConn) : Bool :=
  !c.newData.isEmpty && mgIsWsFragment (c.newData.headD 0) && !c.noDefrag

/-- A fragment: its data goes behind the others, and `tail` behind it. The flags of the first
one stay in front. -/
def reassemble (c : WsConn) (flags : UInt8) (data tail : Bytes) : WsConn × List WebsocketMessage :=
  let first := mgIsWsFirstFragment flags
  let buf := c.recvMbuf.take (if first then c.reassLen + 1 else c.reassLen) ++ data ++ tail
  let reassLen := (if first then 1 else c.reassLen) + data.length
  if flags &&& FLAGS_MASK_FIN ≠ 0 then
    ({ c with recvMbuf := mbufRemove buf reassLen, reassLen := 0 },
      [⟨FLAGS_MASK_FIN ||| buf.headD flags, buf.drop 1, (reassLen + (2 ^ 64 - 1)) % 2 ^ 64⟩])
  else ({ c with recvMbuf := buf, reassLen := reassLen }, [])

/-- A complete message, or a control frame. -/
def complete (c : WsConn) (flags : UInt8) (data tail : Bytes) : WsConn × List WebsocketMessage :=
  let answered :=
    if wsOp flags = WEBSOCKET_OP_PING then c.send WEBSOCKET_OP_PONG data
    else if wsOp flags = WEBSOCKET_OP_CLOSE then c.mgWsClose (data ++ tail) data.length
    else c
  ({ answered with recvMbuf := c.recvMbuf.take c.reassLen ++ tail },
    [⟨flags, data ++ tail, data.length⟩])

end WsConn

/-- One call of `mg_deliver_websocket_data`: what it returns, and what it shows to the handler. -/
def mgDeliverWebsocketData (c : WsConn) : Bool × WsConn × List WebsocketMessage :=
  let newData := c.newData
  let flags := newData.headD 0
  if c.reass && mgIsWsControlFrame flags then
    (false, c.mgWsClose (cstr "fragmented control frames are illegal") (2 ^ 64 - 1), [])
  else if !newData.isEmpty && !c.reass && !mgIsWsControlFrame flags && decide (0 < c.reassLen) then
    (false, c.mgWsClose (cstr "non-continuation in the middle of a fragmented message")
      (2 ^ 64 - 1), [])
  else
    let l := wsLengths newData
    let frameLen := (l.headerLen + l.dataLen) % 2 ^ 64
    if frameLen < l.headerLen ∨ frameLen < l.dataLen then
      (false, c.mgWsClose (cstr "overflowed message") (2 ^ 64 - 1), [])
    else if 0 < frameLen ∧ frameLen ≤ newData.length then
      let data := l.payload newData
      let tail := newData.drop frameLen
      (true, if c.reass then c.reassemble flags data tail else c.complete flags data tail)
    else (false, c, [])

/-- The loop of `mg_ws_handler` on `MG_EV_RECV`. -/
def deliverAll : Nat → WsConn → WsConn × List WebsocketMessage
  | 0, c => (c, [])
  | fuel + 1, c =>
    match mgDeliverWebsocketData c with
    | (false, c, ms) => (c, ms)
    | (true, c, ms) => ((deliverAll fuel c).1, ms ++ (deliverAll fuel c).2)

/-- `bs` arrives. -/
def wsReceive (c : WsConn) (bs : Bytes) : WsConn × List WebsocketMessage :=
  deliverAll (c.recvMbuf.length + bs.length + 1) { c with recvMbuf := c.recvMbuf ++ bs }

def wsReceiveAll : WsConn → List Bytes → WsConn × List WebsocketMessage
  | c, [] => (c, [])
  | c, bs :: more =>
    ((wsReceiveAll (wsReceive c bs).1 more).1,
      (wsReceive c bs).2 ++ (wsReceiveAll (wsReceive c bs).1 more).2)

/-! ## What the frames make up -/

/-- The buffer in front of the frames: the fragments of a message so far. -/
def assembled : Option WsFrame → Bytes
  | none => []
  | some g => g.flags :: g.payload

/-- `c` has put `p` together, and `buf` is behind it. -/
structure Holds (c : WsConn) (p : Option WsFrame) (buf : Bytes) : Prop where
  recv : c.recvMbuf = assembled p ++ buf
  reass : c.reassLen = (assembled p).length
  defrag : c.noDefrag = false

/-- A fragment that continues a message. -/
structure Continues (f : WsFrame) (last : Bool) : Prop where
  op : wsOp f.flags = WEBSOCKET_OP_CONTINUE
  fin : (f.flags &&& FLAGS_MASK_FIN ≠ 0) ↔ last = true

/-- With `p` put together, the frames `fs` make up the messages `ms`, and `p'` is begun. Control
frames may come at any time, and are complete; their length is not taken for that of a string. -/
inductive MakeUp : Option WsFrame → List WsFrame → List WsFrame → Option WsFrame → Prop
  | done (p : Option WsFrame) : MakeUp p [] [] p
  | control (h : mgIsWsFragment f.flags = false) (hc : mgIsWsControlFrame f.flags = true)
      (hlen : f.payload.length < 2 ^ 32 - 1) (hr : MakeUp p fs ms p') : MakeUp p (f :: fs) (f :: ms) p'
  | whole (h : mgIsWsFragment f.flags = false) (hc : mgIsWsControlFrame f.flags = false)
      (hr : MakeUp none fs ms p') : MakeUp none (f :: fs) (f :: ms) p'
  | first (h : mgIsWsFirstFragment f.flags = true) (hc : mgIsWsControlFrame f.flags = false)
      (hr : MakeUp (some f) fs ms p') : MakeUp none (f :: fs) ms p'
  | next (h : Continues f false) (hr : MakeUp (some ⟨g.flags, g.payload ++ f.payload⟩) fs ms p') :
      MakeUp (some g) (f :: fs) ms p'
  | last (h : Continues f true) (hlen : g.payload.length + f.payload.length + 1 < 2 ^ 64)
      (hr : MakeUp none fs ms p') :
      MakeUp (some g) (f :: fs) (⟨FLAGS_MASK_FIN ||| g.flags, g.payload ++ f.payload⟩ :: ms) p'

/-- The frame that is sent back. -/
def answer (f : WsFrame) : Bytes :=
  if wsOp f.flags = WEBSOCKET_OP_PING then mgSendWebsocketFrame none WEBSOCKET_OP_PONG f.payload
  else if wsOp f.flags = WEBSOCKET_OP_CLOSE then
    mgSendWebsocketFrame none WEBSOCKET_OP_CLOSE f.payload
  else []

/-- What the handler sees of a message. -/
def WebsocketMessage.shown (m : WebsocketMessage) : WsFrame := ⟨m.flags, m.data.take m.size⟩

/-- The message lies in the buffer. -/
def WebsocketMessage.Inside (m : WebsocketMessage) : Prop := m.size ≤ m.data.length

/-! ## One frame -/

section

variable {c : WsConn} {s t buf enc : Bytes} {n : Nat} {f g : WsFrame} {p p' : Option WsFrame}
  {fs ms : List WsFrame}

/-- A frame lies in the buffer and is longer than its payload. -/
theorem wsFrame_eq_some (h : wsFrame s = some (n, f)) :
    (wsLengths s).headerLen + (wsLengths s).dataLen = n ∧ 0 < n ∧ n ≤ s.length ∧ n < 2 ^ 64 ∧
      f = ⟨s.headD 0, (wsLengths s).payload s⟩ := by
  unfold wsFrame at h
  dsimp only at h
  split at h
  next hn =>
    cases h
    exact ⟨rfl, hn.1, hn.2.1, hn.2.2, rfl⟩
  next => cases h

/-- The frame in front is taken, unless it is out of place. -/
theorem deliver_frame (h : wsFrame c.newData = some (n, f))
    (hcontrol : (c.reass && mgIsWsControlFrame f.flags) = false)
    (hmiddle : (!c.reass && !mgIsWsControlFrame f.flags && decide (0 < c.reassLen)) = false) :
    mgDeliverWebsocketData c =
      (true, if c.reass then c.reassemble f.flags f.payload (c.newData.drop n)
        else c.complete f.flags f.payload (c.newData.drop n)) := by
  obtain ⟨rfl, hpos, hle, hlt, rfl⟩ := wsFrame_eq_some h
  unfold mgDeliverWebsocketData
  dsimp only at hcontrol hmiddle ⊢
  rw [hcontrol, Bool.and_assoc, Bool.and_assoc, ← Bool.and_assoc (!c.reass), hmiddle, Bool.and_false,
    if_neg Bool.false_ne_true, if_neg Bool.false_ne_true, Nat.mod_eq_of_lt hlt, if_neg (by omega),
    if_pos ⟨hpos, hle⟩]

/-- Nothing is done without data. -/
theorem deliver_nil (h : c.newData = []) : mgDeliverWebsocketData c = (false, c, []) := by
  have hreass : c.reass = false := by
    unfold WsConn.reass
    rw [h]
    rfl
  unfold mgDeliverWebsocketData
  rw [hreass, h]
  rfl

/-- A frame of which something is missing stays where it is. -/
theorem deliver_cut (ht : t ≠ []) (h : wsFraming.Encodes (c.newData ++ t) f)
    (hcontrol : (c.reass && mgIsWsControlFrame f.flags) = false)
    (hmiddle : (!c.reass && !mgIsWsControlFrame f.flags && decide (0 < c.reassLen)) = false) :
    mgDeliverWebsocketData c = (false, c, []) := by
  obtain ⟨hlen, -, -, hlt, heq⟩ := wsFrame_eq_some h
  have hpos := List.length_pos_iff.mpr ht
  cases hnew : c.newData with
  | nil => exact deliver_nil hnew
  | cons b s =>
    have hflags : f.flags = b := by
      rw [heq, hnew]
      rfl
    rw [hnew, List.length_append] at hlen hlt
    rw [hflags] at hcontrol hmiddle
    unfold mgDeliverWebsocketData
    dsimp only
    rw [hnew, List.headD_cons, hcontrol, Bool.and_assoc, Bool.and_assoc,
      ← Bool.and_assoc (!c.reass), hmiddle, Bool.and_false, if_neg Bool.false_ne_true,
      if_neg Bool.false_ne_true]
    rcases wsLengths_cases (b :: s) with ⟨hheader, -⟩ | ⟨h₁, h₂⟩
    · -- the length is known, and is that of the whole frame
      rw [wsLengths_append t (by omega)] at hlen
      rw [hlen, Nat.mod_eq_of_lt hlt, if_neg (by omega), if_neg (by omega)]
    · rw [h₁, h₂, if_neg (by omega), if_neg (by omega)]

/-- The connection is closed for an error: a fragment of a control frame, a message in the middle
of another, or a length that overflows. -/
def Refused (c : WsConn) : Prop :=
  (c.reass && mgIsWsControlFrame (c.newData.headD 0)) = true ∨
    (!c.newData.isEmpty && !c.reass && !mgIsWsControlFrame (c.newData.headD 0) &&
      decide (0 < c.reassLen)) = true ∨
    ((wsLengths c.newData).headerLen + (wsLengths c.newData).dataLen) % 2 ^ 64 <
        (wsLengths c.newData).headerLen ∨
      ((wsLengths c.newData).headerLen + (wsLengths c.newData).dataLen) % 2 ^ 64 <
        (wsLengths c.newData).dataLen

/-- What one call can do: refuse the frame, wait for the rest of it, or take it. -/
theorem deliver_cases (c : WsConn) :
    (Refused c ∧ ∃ text, mgDeliverWebsocketData c = (false, c.mgWsClose text (2 ^ 64 - 1), [])) ∨
      (¬ Refused c ∧ wsFrame c.newData = none ∧ mgDeliverWebsocketData c = (false, c, [])) ∨
      ¬ Refused c ∧ ∃ n f, wsFrame c.newData = some (n, f) ∧ mgDeliverWebsocketData c =
        (true, if c.reass then c.reassemble f.flags f.payload (c.newData.drop n)
          else c.complete f.flags f.payload (c.newData.drop n)) := by
  unfold mgDeliverWebsocketData
  dsimp only
  split
  next hcontrol => exact Or.inl ⟨Or.inl hcontrol, _, rfl⟩
  next hcontrol =>
    split
    next hmiddle => exact Or.inl ⟨Or.inr (Or.inl hmiddle), _, rfl⟩
    next hmiddle =>
      split
      next hover => exact Or.inl ⟨Or.inr (Or.inr hover), _, rfl⟩
      next hover =>
        have hnot : ¬ Refused c := not_or.mpr ⟨hcontrol, not_or.mpr ⟨hmiddle, hover⟩⟩
        -- there was no overflow
        rw [not_or, Nat.not_lt, Nat.not_lt] at hover
        have hsum : ((wsLengths c.newData).headerLen + (wsLengths c.newData).dataLen) % 2 ^ 64 =
            (wsLengths c.newData).headerLen + (wsLengths c.newData).dataLen := by
          omega
        have hframe : wsFrame c.newData =
            if 0 < (wsLengths c.newData).headerLen + (wsLengths c.newData).dataLen ∧
                (wsLengths c.newData).headerLen + (wsLengths c.newData).dataLen ≤ c.newData.length ∧
                (wsLengths c.newData).headerLen + (wsLengths c.newData).dataLen < 2 ^ 64 then
              some ((wsLengths c.newData).headerLen + (wsLengths c.newData).dataLen,
                ⟨c.newData.headD 0, (wsLengths c.newData).payload c.newData⟩)
            else none := rfl
        rw [hsum]
        by_cases hok : 0 < (wsLengths c.newData).headerLen + (wsLengths c.newData).dataLen ∧
            (wsLengths c.newData).headerLen + (wsLengths c.newData).dataLen ≤ c.newData.length
        · rw [if_pos hok]
          exact Or.inr (Or.inr ⟨hnot, _, _, hframe.trans (if_pos ⟨hok.1, hok.2, by omega⟩), rfl⟩)
        · rw [if_neg hok]
          exact Or.inr (Or.inl ⟨hnot, hframe.trans (if_neg fun h => hok ⟨h.1, h.2.1⟩), rfl⟩)

theorem wsFrame_length (h : wsFrame s = some (n, f)) : f.payload.length + 2 ≤ n := by
  obtain ⟨hn, hpos, hle, -, rfl⟩ := wsFrame_eq_some h
  have hpayload : ((wsLengths s).payload s).length = (wsLengths s).dataLen := by
    unfold WsLengths.payload
    dsimp only
    split
    · rw [SimplestWeb.Lib.Octets.length_xorKey, List.length_take, List.length_drop]
      omega
    · rw [List.length_take, List.length_drop]
      omega
  rcases wsLengths_cases s with ⟨hheader, -⟩ | ⟨h₁, h₂⟩
  · dsimp only
    omega
  · omega

theorem length_mbufRemove_le (buf : Bytes) (n : Nat) : (mbufRemove buf n).length ≤ buf.length := by
  unfold mbufRemove
  split
  · rw [List.length_drop]
    exact Nat.sub_le _ _
  · exact Nat.le_refl _

/-- A frame that is taken makes the buffer shorter, and what has been put together stays in it. -/
theorem taken_bounds (hle : c.reassLen ≤ c.recvMbuf.length) (h : wsFrame c.newData = some (n, f)) :
    let c' := (if c.reass then c.reassemble f.flags f.payload (c.newData.drop n)
      else c.complete f.flags f.payload (c.newData.drop n)).1
    c'.reassLen ≤ c'.recvMbuf.length ∧ c'.recvMbuf.length < c.recvMbuf.length := by
  have hlen := wsFrame_length h
  obtain ⟨-, -, hn, -, -⟩ := wsFrame_eq_some h
  have hnew : c.newData.length = c.recvMbuf.length - c.reassLen := List.length_drop
  dsimp only
  split
  · -- a fragment loses its header, but may leave the flags
    have hkept : ∀ k, k ≤ c.reassLen + 1 →
        (c.recvMbuf.take k ++ f.payload ++ c.newData.drop n).length =
          k + f.payload.length + (c.newData.length - n) := by
      intro k hk
      rw [List.length_append, List.length_append, List.length_take, List.length_drop,
        Nat.min_eq_left (by omega)]
    unfold WsConn.reassemble
    dsimp only
    cases mgIsWsFirstFragment f.flags
    · have hbuf := hkept c.reassLen (Nat.le_succ _)
      simp only [Bool.false_eq_true, if_false]
      split
      · have hremove := length_mbufRemove_le
          (c.recvMbuf.take c.reassLen ++ f.payload ++ c.newData.drop n)
          (c.reassLen + f.payload.length)
        exact ⟨Nat.zero_le _, by dsimp only; omega⟩
      · exact ⟨by dsimp only; omega, by dsimp only; omega⟩
    · have hbuf := hkept (c.reassLen + 1) (Nat.le_refl _)
      simp only [if_true]
      split
      · have hremove := length_mbufRemove_le
          (c.recvMbuf.take (c.reassLen + 1) ++ f.payload ++ c.newData.drop n)
          (1 + f.payload.length)
        exact ⟨Nat.zero_le _, by dsimp only; omega⟩
      · exact ⟨by dsimp only; omega, by dsimp only; omega⟩
  · have hbuf : (c.recvMbuf.take c.reassLen ++ c.newData.drop n).length =
        c.reassLen + (c.newData.length - n) := by
      rw [List.length_append, List.length_take, List.length_drop, Nat.min_eq_left hle]
    have hreass : (c.complete f.flags f.payload (c.newData.drop n)).1.reassLen = c.reassLen := by
      unfold WsConn.complete
      dsimp only
      split
      · rfl
      · split
        · rfl
        · rfl
    have hrecv : (c.complete f.flags f.payload (c.newData.drop n)).1.recvMbuf =
        c.recvMbuf.take c.reassLen ++ c.newData.drop n := rfl
    rw [hreass, hrecv, hbuf]
    exact ⟨by omega, by omega⟩

/-- What has been put together stays in the buffer, and the loop ends. -/
theorem deliver_bounds (hle : c.reassLen ≤ c.recvMbuf.length) :
    (mgDeliverWebsocketData c).2.1.reassLen ≤ (mgDeliverWebsocketData c).2.1.recvMbuf.length ∧
      ((mgDeliverWebsocketData c).1 = true →
        (mgDeliverWebsocketData c).2.1.recvMbuf.length < c.recvMbuf.length) := by
  rcases deliver_cases c with ⟨-, text, heq⟩ | ⟨-, -, heq⟩ | ⟨-, n, f, hframe, heq⟩
  · rw [heq]
    exact ⟨hle, fun hok => absurd hok Bool.false_ne_true⟩
  · rw [heq]
    exact ⟨hle, fun hok => absurd hok Bool.false_ne_true⟩
  · obtain ⟨hreass, hshort⟩ := taken_bounds hle hframe
    rw [heq]
    exact ⟨hreass, fun _ => hshort⟩

/-- Only control frames are answered. -/
theorem answer_of_not_control (h : mgIsWsControlFrame f.flags = false) : answer f = [] := by
  unfold mgIsWsControlFrame at h
  rw [Bool.or_eq_false_iff, Bool.or_eq_false_iff, beq_eq_false_iff_ne, beq_eq_false_iff_ne] at h
  unfold answer
  rw [if_neg h.1.2, if_neg h.1.1]

theorem Continues.not_control {last : Bool} (h : Continues f last) :
    mgIsWsControlFrame f.flags = false := by
  unfold mgIsWsControlFrame
  rw [h.op]
  rfl

theorem Continues.fragment {last : Bool} (h : Continues f last) :
    mgIsWsFragment f.flags = true ∧ mgIsWsFirstFragment f.flags = false := by
  unfold mgIsWsFragment mgIsWsFirstFragment
  rw [h.op]
  exact ⟨Bool.or_true _, Bool.and_false _⟩

theorem first_fragment (h : mgIsWsFirstFragment f.flags = true) :
    mgIsWsFragment f.flags = true ∧ f.flags &&& FLAGS_MASK_FIN = 0 := by
  unfold mgIsWsFirstFragment at h
  rw [Bool.and_eq_true, beq_iff_eq] at h
  unfold mgIsWsFragment
  rw [h.1]
  exact ⟨rfl, rfl⟩

/-- What is held behind the message is read next. -/
theorem Holds.newData (h : Holds c p buf) : c.newData = buf := by
  unfold WsConn.newData
  rw [h.recv, h.reass, List.drop_left]

/-- Whether the frame in front is taken for a fragment. -/
theorem Holds.reass_eq (h : Holds c p buf) (hne : buf ≠ []) :
    c.reass = mgIsWsFragment (buf.headD 0) := by
  unfold WsConn.reass
  rw [h.newData, h.defrag, List.isEmpty_eq_false_iff.mpr hne]
  simp

/-- A frame is in place: it is not refused. -/
theorem MakeUp.inPlace (hm : MakeUp p (f :: fs) ms p') (hlen : c.reassLen = (assembled p).length)
    (hreass : c.reass = mgIsWsFragment f.flags) :
    (c.reass && mgIsWsControlFrame f.flags) = false ∧
      (!c.reass && !mgIsWsControlFrame f.flags && decide (0 < c.reassLen)) = false := by
  rw [hreass, hlen]
  cases hm with
  | control h hc =>
    rw [h, hc]
    exact ⟨rfl, rfl⟩
  | whole h hc =>
    rw [h, hc]
    exact ⟨rfl, rfl⟩
  | first h hc =>
    rw [(first_fragment h).1, hc]
    exact ⟨rfl, rfl⟩
  | next h =>
    rw [h.fragment.1, h.not_control]
    exact ⟨rfl, rfl⟩
  | last h =>
    rw [h.fragment.1, h.not_control]
    exact ⟨rfl, rfl⟩

/-! ## One frame of a message -/

/-- What one call does with the next frame: `shown` and `sent` are added to what has been shown
and sent. -/
structure Delivered (c c' : WsConn) (out : List WebsocketMessage) (shown : List WsFrame)
    (sent : Bytes) : Prop where
  shown : out.map WebsocketMessage.shown = shown
  inside : ∀ m ∈ out, m.Inside
  sent : c'.sendMbuf = c.sendMbuf ++ sent

/-- Nothing is shown, nothing answered. -/
theorem Delivered.quiet {c' : WsConn} (h : c'.sendMbuf = c.sendMbuf) : Delivered c c' [] [] [] :=
  ⟨rfl, fun _ hm => absurd hm List.not_mem_nil, h.trans (List.append_nil _).symm⟩

/-- One message is shown. -/
theorem Delivered.one {c' : WsConn} {m : WebsocketMessage} {sent : Bytes} (hshown : m.shown = f)
    (hin : m.Inside) (hsent : c'.sendMbuf = c.sendMbuf ++ sent) : Delivered c c' [m] [f] sent := by
  refine ⟨by rw [List.map_singleton, hshown], fun m' hm => ?_, hsent⟩
  rw [List.mem_singleton.mp hm]
  exact hin

/-- One thing after the other. -/
theorem Delivered.trans {c' c'' : WsConn} {out out' : List WebsocketMessage}
    {ms ms' : List WsFrame} {sent sent' : Bytes} (h : Delivered c c' out ms sent)
    (h' : Delivered c' c'' out' ms' sent') :
    Delivered c c'' (out ++ out') (ms ++ ms') (sent ++ sent') := by
  refine ⟨?_, fun m hm => ?_, ?_⟩
  · rw [List.map_append, h.shown, h'.shown]
  · rcases List.mem_append.mp hm with hm | hm
    · exact h.inside m hm
    · exact h'.inside m hm
  · rw [h'.sent, h.sent, List.append_assoc]

theorem reassemble_sendMbuf (c : WsConn) (flags : UInt8) (data tail : Bytes) :
    (c.reassemble flags data tail).1.sendMbuf = c.sendMbuf := by
  unfold WsConn.reassemble
  dsimp only
  split
  · rfl
  · rfl

/-- A message that came in one frame, or a control frame. -/
theorem complete_delivered (h : Holds c p (enc ++ buf))
    (hlen : mgIsWsControlFrame f.flags = true → f.payload.length < 2 ^ 32 - 1) :
    Holds (c.complete f.flags f.payload buf).1 p buf ∧
      Delivered c (c.complete f.flags f.payload buf).1 (c.complete f.flags f.payload buf).2 [f]
        (answer f) := by
  have hrecv : c.recvMbuf.take c.reassLen ++ buf = assembled p ++ buf := by
    rw [h.recv, h.reass, List.take_left]
  have hshown : WebsocketMessage.shown ⟨f.flags, f.payload ++ buf, f.payload.length⟩ = f := by
    unfold WebsocketMessage.shown
    dsimp only
    rw [List.take_left]
  have hin : WebsocketMessage.Inside ⟨f.flags, f.payload ++ buf, f.payload.length⟩ := by
    unfold WebsocketMessage.Inside
    dsimp only
    rw [List.length_append]
    exact Nat.le_add_right _ _
  unfold WsConn.complete answer
  dsimp only
  by_cases hping : wsOp f.flags = WEBSOCKET_OP_PING
  · rw [if_pos hping, if_pos hping]
    exact ⟨⟨hrecv, h.reass, h.defrag⟩, .one hshown hin rfl⟩
  · rw [if_neg hping, if_neg hping]
    -- only the answer to a close frame depends on its length
    by_cases hclose : wsOp f.flags = WEBSOCKET_OP_CLOSE
    · have hcontrol : mgIsWsControlFrame f.flags = true := by
        unfold mgIsWsControlFrame
        rw [hclose]
        rfl
      have hshort := hlen hcontrol
      rw [if_pos hclose, if_pos hclose]
      refine ⟨⟨hrecv, h.reass, h.defrag⟩, .one hshown hin ?_⟩
      unfold WsConn.mgWsClose
      dsimp only
      rw [if_neg (by omega), List.take_left]
      rfl
    · rw [if_neg hclose, if_neg hclose]
      exact ⟨⟨hrecv, h.reass, h.defrag⟩, .one hshown hin (List.append_nil _).symm⟩

/-- The first fragment stays in the buffer, with its flags. -/
theorem reassemble_first (h : Holds c none (f.flags :: enc ++ buf))
    (hf : mgIsWsFirstFragment f.flags = true) :
    Holds (c.reassemble f.flags f.payload buf).1 (some f) buf ∧
      Delivered c (c.reassemble f.flags f.payload buf).1 (c.reassemble f.flags f.payload buf).2
        [] [] := by
  have hsend := reassemble_sendMbuf c f.flags f.payload buf
  have htake : c.recvMbuf.take (c.reassLen + 1) = [f.flags] := by
    rw [h.recv, h.reass]
    rfl
  unfold WsConn.reassemble at hsend ⊢
  dsimp only at hsend ⊢
  rw [hf, if_neg (by simp [(first_fragment hf).2]), if_pos rfl, if_pos rfl, htake] at hsend ⊢
  refine ⟨⟨rfl, ?_, h.defrag⟩, .quiet hsend⟩
  show 1 + f.payload.length = f.payload.length + 1
  omega

/-- A fragment is put behind the others. -/
theorem reassemble_buffer (h : Holds c (some g) (enc ++ buf))
    (hf : mgIsWsFirstFragment f.flags = false) :
    c.recvMbuf.take (if mgIsWsFirstFragment f.flags then c.reassLen + 1 else c.reassLen) ++
        f.payload ++ buf = assembled (some ⟨g.flags, g.payload ++ f.payload⟩) ++ buf ∧
      (if mgIsWsFirstFragment f.flags then 1 else c.reassLen) + f.payload.length =
        (assembled (some ⟨g.flags, g.payload ++ f.payload⟩)).length := by
  rw [hf, if_neg Bool.false_ne_true, if_neg Bool.false_ne_true, h.recv, h.reass, List.take_left]
  refine ⟨rfl, ?_⟩
  unfold assembled
  simp only [List.length_cons, List.length_append]
  omega

/-- A fragment that is not the last is put behind what is held. -/
theorem reassemble_next (h : Holds c (some g) (enc ++ buf)) (hf : Continues f false) :
    Holds (c.reassemble f.flags f.payload buf).1 (some ⟨g.flags, g.payload ++ f.payload⟩) buf ∧
      Delivered c (c.reassemble f.flags f.payload buf).1 (c.reassemble f.flags f.payload buf).2
        [] [] := by
  have hsend := reassemble_sendMbuf c f.flags f.payload buf
  obtain ⟨hbuf, hlen⟩ := reassemble_buffer h hf.fragment.2
  have hfin : ¬ f.flags &&& FLAGS_MASK_FIN ≠ 0 := fun hne => absurd (hf.fin.mp hne) Bool.false_ne_true
  unfold WsConn.reassemble at hsend ⊢
  dsimp only at hsend ⊢
  rw [if_neg hfin, hbuf, hlen] at hsend ⊢
  exact ⟨⟨rfl, rfl, h.defrag⟩, .quiet hsend⟩

/-- The last one completes the message. -/
theorem reassemble_last (h : Holds c (some g) (enc ++ buf)) (hf : Continues f true)
    (hlen : g.payload.length + f.payload.length + 1 < 2 ^ 64) :
    Holds (c.reassemble f.flags f.payload buf).1 none buf ∧
      Delivered c (c.reassemble f.flags f.payload buf).1 (c.reassemble f.flags f.payload buf).2
        [⟨FLAGS_MASK_FIN ||| g.flags, g.payload ++ f.payload⟩] [] := by
  have hsend := reassemble_sendMbuf c f.flags f.payload buf
  obtain ⟨hbuf, hsize⟩ := reassemble_buffer h hf.fragment.2
  have hfin : f.flags &&& FLAGS_MASK_FIN ≠ 0 := hf.fin.mpr rfl
  have hlast : (assembled (some ⟨g.flags, g.payload ++ f.payload⟩)).length =
      g.payload.length + f.payload.length + 1 := by
    unfold assembled
    rw [List.length_cons, List.length_append]
  have hmsg : (g.payload.length + f.payload.length + 1 + (2 ^ 64 - 1)) % 2 ^ 64 =
      (g.payload ++ f.payload).length := by
    rw [List.length_append]
    omega
  -- the flags octet is removed together with the message
  have hremove : mbufRemove (assembled (some ⟨g.flags, g.payload ++ f.payload⟩) ++ buf)
      (g.payload.length + f.payload.length + 1) = buf := by
    unfold mbufRemove
    rw [if_pos ⟨Nat.succ_pos _, by rw [List.length_append, hlast]; exact Nat.le_add_right _ _⟩]
    exact List.drop_left' hlast
  unfold WsConn.reassemble at hsend ⊢
  dsimp only at hsend ⊢
  rw [if_pos hfin, hbuf, hsize, hlast, hmsg, hremove] at hsend ⊢
  refine ⟨⟨rfl, rfl, h.defrag⟩, .one ?_ ?_ (hsend.trans (List.append_nil _).symm)⟩
  · unfold WebsocketMessage.shown assembled
    dsimp only
    rw [List.cons_append, List.drop_one, List.tail_cons, List.headD_cons, List.take_left]
  · unfold WebsocketMessage.Inside assembled
    dsimp only
    rw [List.cons_append, List.drop_one, List.tail_cons,
      show (g.payload ++ f.payload ++ buf).length = _ from List.length_append]
    exact Nat.le_add_right _ _

/-! ## The stream of frames -/

/-- **One frame**: the call returns 1, and the rest of the frames make up the rest of the
messages. -/
theorem MakeUp.deliver (hm : MakeUp p (f :: fs) ms p') (hc : Holds c p (enc ++ buf))
    (he : wsFraming.Encodes enc f) :
    ∃ c' out p₁ shown ms₁, mgDeliverWebsocketData c = (true, c', out) ∧ Holds c' p₁ buf ∧
      MakeUp p₁ fs ms₁ p' ∧ ms = shown ++ ms₁ ∧ Delivered c c' out shown (answer f) := by
  have hparse : wsFrame c.newData = some (enc.length, f) := by
    rw [hc.newData]
    exact he.parse_append buf
  obtain ⟨-, hpos, hle, -, heq⟩ := wsFrame_eq_some hparse
  have hflags : (enc ++ buf).headD 0 = f.flags := by
    rw [heq, hc.newData]
  have hne : enc ++ buf ≠ [] := by
    rw [hc.newData] at hle
    exact List.length_pos_iff.mp (by omega)
  have hreass : c.reass = mgIsWsFragment f.flags := by
    rw [hc.reass_eq hne, hflags]
  obtain ⟨hcontrol, hmiddle⟩ := hm.inPlace hc.reass hreass
  -- the bytes decide which branch is taken, and the place of the frame what comes of it
  rw [deliver_frame hparse hcontrol hmiddle, hreass, hc.newData, List.drop_left]
  cases hm with
  | control h hctl hlen hr =>
    obtain ⟨hholds, hdone⟩ := complete_delivered hc fun _ => hlen
    rw [h, if_neg Bool.false_ne_true]
    exact ⟨_, _, p, [f], _, rfl, hholds, hr, rfl, hdone⟩
  | whole h hctl hr =>
    obtain ⟨hholds, hdone⟩ := complete_delivered hc fun hyes => by
      rw [hctl] at hyes
      cases hyes
    rw [h, if_neg Bool.false_ne_true]
    exact ⟨_, _, none, [f], _, rfl, hholds, hr, rfl, hdone⟩
  | first h hctl hr =>
    obtain ⟨b, enc', rfl⟩ : ∃ b enc', enc = b :: enc' := List.exists_cons_of_ne_nil fun hnil => by
      rw [hnil] at hpos
      exact Nat.lt_irrefl 0 hpos
    obtain rfl : b = f.flags := hflags
    obtain ⟨hholds, hdone⟩ := reassemble_first hc h
    rw [(first_fragment h).1, if_pos rfl, answer_of_not_control hctl]
    exact ⟨_, _, some f, [], _, rfl, hholds, hr, rfl, hdone⟩
  | next h hr =>
    obtain ⟨hholds, hdone⟩ := reassemble_next hc h
    rw [h.fragment.1, if_pos rfl, answer_of_not_control h.not_control]
    exact ⟨_, _, _, [], _, rfl, hholds, hr, rfl, hdone⟩
  | last h hlen hr =>
    obtain ⟨hholds, hdone⟩ := reassemble_last hc h hlen
    rw [h.fragment.1, if_pos rfl, answer_of_not_control h.not_control]
    exact ⟨_, _, none, [_], _, rfl, hholds, hr, rfl, hdone⟩

/-- What is buffered and what is still to come are the frames `fs`, which make up `ms`. -/
structure Awaits (c : WsConn) (future : Bytes) (fs ms : List WsFrame) (p' : Option WsFrame) :
    Prop where
  intro ::
  awaits : ∃ p buf encs, Holds c p buf ∧ List.Forall₂ wsFraming.Encodes encs fs ∧
    buf ++ future = encs.flatten ∧ MakeUp p fs ms p'

/-- What is held lies in the buffer. -/
theorem Awaits.reassLen_le {future : Bytes} (h : Awaits c future fs ms p') :
    c.reassLen ≤ c.recvMbuf.length := by
  obtain ⟨p, buf, encs, hc, -, -, -⟩ := h.awaits
  rw [hc.reass, hc.recv, List.length_append]
  exact Nat.le_add_right _ _

/-- One call: it waits, and then something is still to come, or it takes the next frame. -/
theorem Awaits.deliver {future : Bytes} (h : Awaits c future fs ms p') :
    (mgDeliverWebsocketData c = (false, c, []) ∧ (future = [] → fs = [])) ∨
      ∃ f fs₁ shown ms₁ c' out, fs = f :: fs₁ ∧ ms = shown ++ ms₁ ∧
        mgDeliverWebsocketData c = (true, c', out) ∧ Awaits c' future fs₁ ms₁ p' ∧
        Delivered c c' out shown (answer f) := by
  obtain ⟨p, buf, encs, hc, henc, hbuf, hm⟩ := h.awaits
  cases henc with
  | nil =>
    have hnil : buf = [] := (List.append_eq_nil_iff.mp hbuf).1
    exact Or.inl ⟨deliver_nil (hc.newData.trans hnil), fun _ => rfl⟩
  | @cons enc f encs fs he hencs =>
    -- the whole frame is buffered, and `rest` behind it
    have htake : ∀ rest, buf = enc ++ rest → rest ++ future = encs.flatten →
        ∃ f' fs₁ shown ms₁ c' out, f :: fs = f' :: fs₁ ∧ ms = shown ++ ms₁ ∧
          mgDeliverWebsocketData c = (true, c', out) ∧ Awaits c' future fs₁ ms₁ p' ∧
          Delivered c c' out shown (answer f') := by
      intro rest hrest hflat
      rw [hrest] at hc
      obtain ⟨c', out, p₁, shown, ms₁, hout, hc', hm', hms, hdone⟩ := hm.deliver hc he
      exact ⟨f, fs, shown, ms₁, c', out, rfl, hms, hout, ⟨p₁, rest, encs, hc', hencs, hflat, hm'⟩,
        hdone⟩
    rw [List.flatten_cons] at hbuf
    rcases List.append_eq_append_iff.mp hbuf with ⟨t, ht, hfuture⟩ | ⟨t, ht, hrest⟩
    · by_cases hnil : t = []
      · rw [hnil, List.append_nil] at ht
        exact Or.inr (htake [] (by rw [ht, List.append_nil]) (by rw [hfuture, hnil]; rfl))
      · -- the rest of the frame is still to come
        have hall : wsFraming.Encodes (c.newData ++ t) f := by
          rw [hc.newData, ← ht]
          exact he
        have hfut : future ≠ [] := by
          rw [hfuture]
          exact List.append_ne_nil_of_left_ne_nil hnil _
        refine Or.inl ⟨?_, fun hf => absurd hf hfut⟩
        cases hb : buf with
        | nil => exact deliver_nil (hc.newData.trans hb)
        | cons b buf' =>
          have hflags : b = f.flags := by
            obtain ⟨-, -, -, -, heq⟩ := wsFrame_eq_some hall
            rw [heq, hc.newData, hb]
            rfl
          have hreass : c.reass = mgIsWsFragment f.flags := by
            rw [hc.reass_eq (by simp [hb]), hb, ← hflags]
            rfl
          obtain ⟨hcontrol, hmiddle⟩ := hm.inPlace hc.reass hreass
          exact deliver_cut hnil hall hcontrol hmiddle
    · exact Or.inr (htake t ht hrest.symm)

/-- **The loop takes the frames that are complete**, and all of them if nothing is to come. -/
theorem Awaits.taken {future : Bytes} (h : Awaits c future fs ms p') {fuel : Nat}
    (hf : c.recvMbuf.length < fuel) :
    ∃ fs₁ fs₂ ms₁ ms₂, fs = fs₁ ++ fs₂ ∧ ms = ms₁ ++ ms₂ ∧
      Awaits (deliverAll fuel c).1 future fs₂ ms₂ p' ∧ (future = [] → fs₂ = []) ∧
      Delivered c (deliverAll fuel c).1 (deliverAll fuel c).2 ms₁ (fs₁.map answer).flatten := by
  induction fuel generalizing c fs ms with
  | zero => exact absurd hf (Nat.not_lt_zero _)
  | succ fuel ih =>
    unfold deliverAll
    rcases h.deliver with ⟨hstop, hall⟩ | ⟨f, fs', shown, ms', c', out, rfl, rfl, hout, h', hdone⟩
    · rw [hstop]
      exact ⟨[], fs, [], ms, rfl, rfl, h, hall, .quiet rfl⟩
    · have hshort := (deliver_bounds h.reassLen_le).2
      rw [hout] at hshort
      have hlt : c'.recvMbuf.length < c.recvMbuf.length := hshort rfl
      obtain ⟨fs₁, fs₂, ms₁, ms₂, rfl, rfl, hrest, hall, hmore⟩ := ih h' (by omega)
      rw [hout]
      exact ⟨f :: fs₁, fs₂, shown ++ ms₁, ms₂, rfl, (List.append_assoc ..).symm, hrest, hall,
        hdone.trans hmore⟩

/-- A piece of the stream arrives. -/
theorem Awaits.receive {bs future : Bytes} (h : Awaits c (bs ++ future) fs ms p') :
    ∃ fs₁ fs₂ ms₁ ms₂, fs = fs₁ ++ fs₂ ∧ ms = ms₁ ++ ms₂ ∧
      Awaits (wsReceive c bs).1 future fs₂ ms₂ p' ∧ (future = [] → fs₂ = []) ∧
      Delivered c (wsReceive c bs).1 (wsReceive c bs).2 ms₁ (fs₁.map answer).flatten := by
  obtain ⟨p, buf, encs, hc, henc, hbuf, hm⟩ := h.awaits
  have hmore : Awaits { c with recvMbuf := c.recvMbuf ++ bs } future fs ms p' := by
    refine ⟨p, buf ++ bs, encs, ⟨?_, hc.reass, hc.defrag⟩, henc, ?_, hm⟩
    · show c.recvMbuf ++ bs = _
      rw [hc.recv, List.append_assoc]
    · rw [List.append_assoc]
      exact hbuf
  have hfuel : (c.recvMbuf ++ bs).length < c.recvMbuf.length + bs.length + 1 := by
    rw [List.length_append]
    exact Nat.lt_succ_self _
  obtain ⟨fs₁, fs₂, ms₁, ms₂, hfs, hms, hrest, hall, hdone⟩ := hmore.taken hfuel
  exact ⟨fs₁, fs₂, ms₁, ms₂, hfs, hms, hrest, hall, hdone.shown, hdone.inside, hdone.sent⟩

/-- The whole of it arrives, in pieces. -/
theorem Awaits.receiveAll {pieces : List Bytes} (h : Awaits c pieces.flatten fs ms p')
    (hall : pieces.flatten = [] → fs = []) :
    Awaits (wsReceiveAll c pieces).1 [] [] [] p' ∧
      Delivered c (wsReceiveAll c pieces).1 (wsReceiveAll c pieces).2 ms (fs.map answer).flatten := by
  induction pieces generalizing c fs ms with
  | nil =>
    obtain rfl := hall rfl
    have hms : ms = [] := by
      obtain ⟨p, buf, encs, -, -, -, hm⟩ := h.awaits
      cases hm
      rfl
    subst hms
    exact ⟨h, .quiet rfl⟩
  | cons bs pieces ih =>
    obtain ⟨fs₁, fs₂, ms₁, ms₂, rfl, rfl, hrest, hall', hdone⟩ := h.receive
    obtain ⟨hend, hmore⟩ := ih hrest hall'
    rw [List.map_append, List.flatten_append]
    exact ⟨hend, hdone.trans hmore⟩

/-- **Messages are put together.** In however many pieces the frames arrive, the handler is shown
the messages they make up, all of which lie in the buffer, and the control frames are answered
in order; what is left is the message that has been begun. -/
theorem stream_reassembled {encs pieces : List Bytes} (hc : Holds c p [])
    (henc : List.Forall₂ wsFraming.Encodes encs fs) (hm : MakeUp p fs ms p')
    (hp : pieces.flatten = encs.flatten) :
    Holds (wsReceiveAll c pieces).1 p' [] ∧
      Delivered c (wsReceiveAll c pieces).1 (wsReceiveAll c pieces).2 ms (fs.map answer).flatten := by
  have hnil : pieces.flatten = [] → fs = [] := by
    intro hempty
    cases henc with
    | nil => rfl
    | cons he _ =>
      have hpos := (wsFraming.bounds he).1
      rw [hp, List.flatten_cons] at hempty
      rw [(List.append_eq_nil_iff.mp hempty).1] at hpos
      exact absurd hpos (Nat.lt_irrefl 0)
  obtain ⟨hend, hdone⟩ := Awaits.receiveAll ⟨p, [], encs, hc, henc, hp, hm⟩ hnil
  obtain ⟨p₁, buf, encs', hholds, henc', hbuf, hm'⟩ := hend.awaits
  cases henc'
  cases hm'
  obtain rfl : buf = [] := (List.append_eq_nil_iff.mp hbuf).1
  exact ⟨hholds, hdone⟩

end

end SimplestWeb.Mongoose
